import NexusRuntime.Wire.Chunked

namespace Wire

structure Head where
  version : Nat
  status : Nat
  fields : List Field
deriving DecidableEq, Repr

def httpSlash : Octets := [72, 84, 84, 80, 47]

def encodeStatusLine (h : Head) (reason : Octets) : Octets :=
  httpSlash ++ [decimalChar (h.version / 10), 46, decimalChar (h.version % 10), 32,
    decimalChar (h.status / 100), decimalChar (h.status / 10 % 10), decimalChar (h.status % 10), 32] ++
    reason

def encodeHead (h : Head) (reason : Octets) : Octets :=
  encodeStatusLine h reason ++ crlf ++ encodeFields h.fields ++ crlf

def readStatusLine : Octets → Option (Nat × Nat)
  | h₁ :: h₂ :: h₃ :: h₄ :: h₅ :: major :: dot :: minor :: space :: x :: y :: z :: tail =>
    if [h₁, h₂, h₃, h₄, h₅] = httpSlash ∧ dot = 46 ∧ space = 32 ∧ tail.head? = some 32 then
      (decimalVal major).bind fun a => (decimalVal minor).bind fun b =>
        (decimalVal x).bind fun i => (decimalVal y).bind fun j => (decimalVal z).map fun k =>
          (a * 10 + b, i * 100 + j * 10 + k)
    else none
  | _ => none

theorem readStatusLine_encode {h : Head} (hv : h.version < 100) (hs : h.status < 1000)
    (reason : Octets) : readStatusLine (encodeStatusLine h reason) = some (h.version, h.status) := by
  have hd : ∀ n, n % 10 < 10 := fun n => Nat.mod_lt n (by decide)
  have h₁ := decimalVal_char (h.version / 10) (by omega)
  have h₂ := decimalVal_char (h.version % 10) (hd _)
  have h₃ := decimalVal_char (h.status / 100) (by omega)
  have h₄ := decimalVal_char (h.status / 10 % 10) (hd _)
  have h₅ := decimalVal_char (h.status % 10) (hd _)
  simp only [encodeStatusLine, httpSlash, List.cons_append, List.nil_append, readStatusLine,
    List.head?_cons, h₁, h₂, h₃, h₄, h₅, Option.bind_some, Option.map_some, and_self, if_true,
    Option.some.injEq, Prod.mk.injEq]
  omega

inductive Framing where
  | none
  | chunked
  | length (n : Nat)
  | untilClose
  | unsupported
deriving DecidableEq, Repr

def transferEncoding : Octets :=
  [84, 114, 97, 110, 115, 102, 101, 114, 45, 69, 110, 99, 111, 100, 105, 110, 103]

def contentLength : Octets := [67, 111, 110, 116, 101, 110, 116, 45, 76, 101, 110, 103, 116, 104]

def chunkedCoding : Octets := [99, 104, 117, 110, 107, 101, 100]

def bodyless (status : Nat) : Bool := status < 200 || status == 204 || status == 304

def framing (h : Head) : Framing :=
  if bodyless h.status then .none
  else match lookup transferEncoding h.fields, lookup contentLength h.fields with
    | some coding, _ => if iequals coding chunkedCoding then .chunked else .unsupported
    | none, some v => match decimal.read v with
      | some n => .length n
      | none => .unsupported
    | none, none => .untilClose

def readBody : Framing → Octets → Option (Octets × Octets)
  | .none, xs => some ([], xs)
  | .chunked, xs => readChunks (xs.length + 1) xs
  | .length n, xs => if n ≤ xs.length then some (xs.take n, xs.drop n) else none
  | .untilClose, _ => none
  | .unsupported, _ => none

structure Received where
  head : Head
  body : Octets
deriving DecidableEq, Repr

def read (xs : Octets) : Option (Received × Octets) :=
  (readLine xs).bind fun line => (readStatusLine line.1).bind fun vs =>
    (readFields (line.2.length + 1) line.2).bind fun q =>
      let h : Head := ⟨vs.1, vs.2, q.1⟩
      (readBody (framing h) q.2).map fun b => (⟨h, b.1⟩, b.2)

structure Head.Valid (h : Head) : Prop where
  version : h.version < 100
  status : h.status < 1000
  fields : ∀ f ∈ h.fields, f.Valid

theorem decimalChar_oneLine : ∀ d, d < 10 → decimalChar d ≠ 13 := by decide

theorem read_encode {h : Head} (hh : h.Valid) {reason : Octets} (hr : ∀ c ∈ reason, c ≠ 13)
    (xs : Octets) : read (encodeHead h reason ++ xs) =
      (readBody (framing h) xs).map fun b => (⟨h, b.1⟩, b.2) := by
  have hline : ∀ c ∈ encodeStatusLine h reason, c ≠ 13 := by
    have hmod : ∀ n, decimalChar (n % 10) ≠ 13 := fun n =>
      decimalChar_oneLine _ (Nat.mod_lt n (by decide))
    have hv : decimalChar (h.version / 10) ≠ 13 := decimalChar_oneLine _ (by have := hh.version; omega)
    have hs : decimalChar (h.status / 100) ≠ 13 := decimalChar_oneLine _ (by have := hh.status; omega)
    intro c hc
    simp only [encodeStatusLine, httpSlash, List.mem_append, List.mem_cons, List.not_mem_nil,
      or_false] at hc
    rcases hc with ((rfl | rfl | rfl | rfl | rfl) | rfl | rfl | rfl | rfl | rfl | rfl | rfl | rfl) | hc
    all_goals first | decide | exact hmod _ | exact hv | exact hs | exact hr c hc
  have hsplit : encodeHead h reason ++ xs =
      encodeStatusLine h reason ++ (crlf ++ (encodeFields h.fields ++ (crlf ++ xs))) := by
    simp only [encodeHead, List.append_assoc]
  have hfuel : h.fields.length < (encodeFields h.fields ++ (crlf ++ xs)).length + 1 := by
    have := encodeFields_length h.fields
    rw [List.length_append]
    omega
  rw [hsplit, read, readLine_encode hline, Option.bind_some, readStatusLine_encode hh.version hh.status,
    Option.bind_some, readFields_encode hh.fields xs hfuel, Option.bind_some]

end Wire
