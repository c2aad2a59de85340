import NexusRuntime.Wire.Message

namespace NexusRuntime.Http

open Wire

structure Message where
  version : Nat
  result : Nat
  fields : List Field
  body : Octets
deriving DecidableEq, Repr

structure Beast where
  set : List Field → Field → List Field
  setKeepAlive : Nat → List Field → Bool → List Field
  setChunked : List Field → List Field
  isChunked : List Field → Bool
  reason : Nat → Octets
  writeHeader : Message → Octets
  write : Message → Octets
  makeChunk : Octets → Octets
  makeChunkLast : Octets

def finalCoding (v : Octets) : Octets := trim ((v.reverse.takeWhile (· ≠ 44)).reverse)

def endsChunked (fs : List Field) : Bool :=
  (lookup transferEncoding fs).any fun v => iequals (finalCoding v) chunkedCoding

def without (name : Octets) (fs : List Field) : List Field := fs.filter fun g => !iequals g.name name

def withCoding (fs : List Field) : List Field :=
  match lookup transferEncoding fs with
  | none => fs ++ [⟨transferEncoding, chunkedCoding⟩]
  | some v =>
    if iequals (finalCoding v) chunkedCoding then fs
    else without transferEncoding fs ++ [⟨transferEncoding, v ++ ([44, 32] ++ chunkedCoding)⟩]

def withChunked (fs : List Field) : List Field := without contentLength (withCoding fs)

structure Beast.Documented (B : Beast) : Prop where
  set : ∀ fs f, B.set fs f = without f.name fs ++ [f]
  setKeepAlive : ∀ flag, B.setKeepAlive 11 (B.setKeepAlive 11 [] flag) true = []
  setChunked : ∀ fs, B.setChunked fs = withChunked fs
  isChunked : ∀ fs, B.isChunked fs = endsChunked fs
  reason : ∀ n, ∀ c ∈ B.reason n, c ≠ 13
  writeHeader : ∀ m, B.writeHeader m = encodeHead ⟨m.version, m.result, m.fields⟩ (B.reason m.result)
  write : ∀ m, ∃ cs : List Octets, (∀ c ∈ cs, c ≠ []) ∧ cs.flatten = m.body ∧
    B.write m = B.writeHeader m ++
      if B.isChunked m.fields then cs.flatMap encodeChunk ++ lastChunk else m.body
  makeChunk : ∀ xs, xs ≠ [] → B.makeChunk xs = encodeChunk xs
  makeChunkLast : B.makeChunkLast = lastChunk

def connection : Octets := [67, 111, 110, 110, 101, 99, 116, 105, 111, 110]

def Beast.reference : Beast where
  set := fun fs f => without f.name fs ++ [f]
  setKeepAlive := fun _ fs flag =>
    if flag then without connection fs
    else without connection fs ++ [⟨connection, [99, 108, 111, 115, 101]⟩]
  setChunked := withChunked
  isChunked := endsChunked
  reason := fun _ => [79, 75]
  writeHeader := fun m => encodeHead ⟨m.version, m.result, m.fields⟩ [79, 75]
  write := fun m => encodeHead ⟨m.version, m.result, m.fields⟩ [79, 75] ++
    if endsChunked m.fields then (if m.body = [] then [] else encodeChunk m.body) ++ lastChunk
    else m.body
  makeChunk := encodeChunk
  makeChunkLast := lastChunk

theorem reference_documented : Beast.reference.Documented where
  set := fun _ _ => rfl
  setKeepAlive := by decide
  setChunked := fun _ => rfl
  isChunked := fun _ => rfl
  reason := by
    intro _ c hc
    simp only [Beast.reference, List.mem_cons, List.not_mem_nil, or_false] at hc
    rcases hc with rfl | rfl <;> decide
  writeHeader := fun _ => rfl
  write := by
    intro m
    refine ⟨if m.body = [] then [] else [m.body], ?_, ?_, ?_⟩
    · intro c hc
      split at hc
      · cases hc
      · rename_i hne
        rwa [List.mem_singleton.mp hc]
    · split
      · rename_i hnil
        exact hnil.symm
      · exact List.append_nil _
    · simp only [Beast.reference]
      congr 2
      split <;> simp
  makeChunk := fun _ _ => rfl
  makeChunkLast := rfl

theorem lookup_append (name : Octets) (fs gs : List Field) :
    lookup name (fs ++ gs) = (lookup name fs).or (lookup name gs) := by
  simp only [lookup, List.find?_append]
  cases fs.find? fun f => iequals f.name name <;> rfl

theorem lookup_without (name : Octets) (fs : List Field) : lookup name (without name fs) = none := by
  simp [lookup, without, List.find?_eq_none]

theorem lookup_without_other {name other : Octets} (h : iequals name other = false)
    (fs : List Field) : lookup name (without other fs) = lookup name fs := by
  induction fs with
  | nil => rfl
  | cons f fs ih =>
    simp only [lookup, without, List.find?_cons, List.filter_cons] at ih ⊢
    cases hf : iequals f.name name with
    | true =>
      have ho : iequals f.name other = false := by rw [iequals_trans hf, h]
      simp [ho, hf]
    | false =>
      cases ho : iequals f.name other with
      | true => simpa [ho] using ih
      | false => simpa [ho, hf] using ih

end NexusRuntime.Http
