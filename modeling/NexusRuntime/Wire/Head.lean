import NexusRuntime.Wire.Octets

namespace Wire

def isOws (c : UInt8) : Bool := c == 32 || c == 9

def trim (xs : Octets) : Octets := ((xs.dropWhile isOws).reverse.dropWhile isOws).reverse

def separators : Octets := [40, 41, 44, 47, 58, 59, 60, 61, 62, 63, 64, 91, 92, 93, 123, 125]

def isToken (c : UInt8) : Bool := 33 ≤ c && c ≤ 126 && !separators.contains c

structure Field where
  name : Octets
  value : Octets
deriving DecidableEq, Repr

structure Field.Valid (f : Field) : Prop where
  named : f.name ≠ []
  token : ∀ c ∈ f.name, isToken c = true
  oneLine : ∀ c ∈ f.value, c ≠ 13
  trimmed : trim f.value = f.value

instance decidableValid (f : Field) : Decidable f.Valid :=
  decidable_of_iff (f.name ≠ [] ∧ (∀ c ∈ f.name, isToken c = true) ∧ (∀ c ∈ f.value, c ≠ 13) ∧
    trim f.value = f.value)
    ⟨fun h => ⟨h.1, h.2.1, h.2.2.1, h.2.2.2⟩, fun h => ⟨h.named, h.token, h.oneLine, h.trimmed⟩⟩

def Field.encode (f : Field) : Octets := f.name ++ (58 :: 32 :: f.value)

def readField (line : Octets) : Option Field :=
  match line.dropWhile (· ≠ 58) with
  | [] => none
  | _ :: value =>
    let name := line.takeWhile (· ≠ 58)
    if name ≠ [] ∧ name.all isToken then some ⟨name, trim value⟩ else none

def readFields : Nat → Octets → Option (List Field × Octets)
  | 0, _ => none
  | fuel + 1, xs =>
    (readLine xs).bind fun p =>
      if p.1 = [] then some ([], p.2)
      else (readField p.1).bind fun f =>
        (readFields fuel p.2).map fun q => (f :: q.1, q.2)

def encodeFields (fs : List Field) : Octets := fs.flatMap fun f => f.encode ++ crlf

theorem token_ascii {c : UInt8} (h : isToken c = true) : c ≠ 13 ∧ c ≠ 58 := by
  constructor
  · rintro rfl
    exact absurd h (by decide)
  · rintro rfl
    exact absurd h (by decide)

theorem trim_space (xs : Octets) : trim (32 :: xs) = trim xs := rfl

theorem encode_oneLine {f : Field} (hf : f.Valid) : ∀ c ∈ f.encode, c ≠ 13 := by
  intro c hc
  simp only [Field.encode, List.mem_append, List.mem_cons] at hc
  rcases hc with hc | rfl | rfl | hc
  · exact (token_ascii (hf.token c hc)).1
  · decide
  · decide
  · exact hf.oneLine c hc

theorem readField_encode {f : Field} (hf : f.Valid) : readField f.encode = some f := by
  have hname : ∀ c ∈ f.name, (c ≠ 58) = true := fun c hc => by
    simpa using (token_ascii (hf.token c hc)).2
  have hdrop : f.encode.dropWhile (· ≠ 58) = 58 :: 32 :: f.value := by
    rw [Field.encode, List.dropWhile_append_of_pos]
    · rfl
    · simpa using hname
  have htake : f.encode.takeWhile (· ≠ 58) = f.name := by
    rw [Field.encode, List.takeWhile_append_of_pos]
    · simp
    · simpa using hname
  have hall : f.name.all isToken = true := List.all_eq_true.mpr hf.token
  simp only [readField, hdrop, htake, hall, trim_space, hf.trimmed]
  rw [if_pos ⟨hf.named, trivial⟩]

theorem readFields_encode {fs : List Field} (hfs : ∀ f ∈ fs, f.Valid) (rest : Octets) {fuel : Nat}
    (hfuel : fs.length < fuel) : readFields fuel (encodeFields fs ++ (crlf ++ rest)) = some (fs, rest) := by
  induction fs generalizing fuel with
  | nil =>
    obtain ⟨n, rfl⟩ := Nat.exists_eq_succ_of_ne_zero (Nat.ne_of_gt hfuel)
    rfl
  | cons f fs ih =>
    obtain ⟨n, rfl⟩ := Nat.exists_eq_succ_of_ne_zero (Nat.ne_of_gt (Nat.lt_of_le_of_lt (Nat.zero_le _) hfuel))
    have hf := hfs f (List.mem_cons_self ..)
    have hne : f.encode ≠ [] := by simp [Field.encode]
    have hrest := ih (fun g hg => hfs g (List.mem_cons_of_mem f hg)) (Nat.lt_of_succ_lt_succ hfuel)
    rw [encodeFields, List.flatMap_cons, List.append_assoc, List.append_assoc, readFields,
      readLine_encode (encode_oneLine hf), Option.bind_some, if_neg hne, readField_encode hf,
      Option.bind_some]
    rw [encodeFields] at hrest
    rw [hrest]
    rfl

theorem encodeFields_length (fs : List Field) : fs.length ≤ (encodeFields fs).length := by
  induction fs with
  | nil => exact Nat.le_refl 0
  | cons f fs ih =>
    simp only [encodeFields, List.flatMap_cons, List.length_append, List.length_cons, crlf] at ih ⊢
    omega

def lookup (name : Octets) (fs : List Field) : Option Octets :=
  (fs.find? fun f => iequals f.name name).map Field.value

theorem lookup_of_mem {fs : List Field} {f : Field} {name : Octets} (hf : f ∈ fs)
    (hn : iequals f.name name = true) : ∃ v, lookup name fs = some v := by
  cases hl : lookup name fs with
  | some v => exact ⟨v, rfl⟩
  | none =>
    have hnone := List.find?_eq_none.mp (Option.map_eq_none_iff.mp hl) f hf
    exact absurd hn hnone

theorem mem_of_lookup {fs : List Field} {name v : Octets} (h : lookup name fs = some v) :
    ∃ f ∈ fs, iequals f.name name = true ∧ f.value = v := by
  obtain ⟨f, hf, rfl⟩ := Option.map_eq_some_iff.mp h
  have hn := List.find?_some hf
  exact ⟨f, List.mem_of_find?_eq_some hf, hn, rfl⟩

end Wire
