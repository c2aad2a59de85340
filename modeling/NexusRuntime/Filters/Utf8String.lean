import Mathlib.Data.List.TakeWhile

namespace NexusRuntime.Filters.Utf8String

def utf8 (s : List Char) : List UInt8 := s.flatMap String.utf8EncodeChar

def utf16Length (s : List Char) : Nat :=
  match s with
  | [] => 0
  | c :: cs => (if c.val.toNat < 0x10000 then 1 else 2) + utf16Length cs

-- JSStringGetMaximumUTF8CStringSize
def maximumUtf8CStringSize (s : List Char) : Nat := 3 * utf16Length s + 1

def fitting : List Char → Nat → List Char
  | [], _ => []
  | c :: cs, room =>
    if (String.utf8EncodeChar c).length ≤ room then
      c :: fitting cs (room - (String.utf8EncodeChar c).length)
    else []

-- JSStringGetUTF8CString: the bytes written, the terminator included
def utf8CString (s : List Char) (bufferSize : Nat) : List UInt8 :=
  utf8 (fitting s (bufferSize - 1)) ++ [0]

def cString (buffer : List UInt8) : List UInt8 := buffer.takeWhile (· != 0)

-- JSStringCreateWithUTF8CString: malformed bytes give the null string
def stringOfUtf8CString (buffer : List UInt8) : List Char :=
  match (cString buffer).toByteArray.utf8Decode? with
  | some chars => chars.toList
  | none => []

inductive JSValue where
  | null
  | string (s : List Char)
  | arrayBuffer (bytes : List UInt8)
  | typedArray (underlying : List UInt8)
  | object
  | primitive
deriving DecidableEq

def decode (buffer : List UInt8) : JSValue := .string (stringOfUtf8CString buffer)

def process (arguments : List JSValue) : Except String JSValue :=
  match arguments with
  | [] => .error "must supply buffer to process"
  | .null :: _ => .ok .null
  | .string s :: _ =>
    let len := maximumUtf8CStringSize s
    .ok (.arrayBuffer (utf8CString s len))
  | .arrayBuffer bytes :: _ => .ok (decode bytes)
  | .typedArray underlying :: _ => .ok (decode underlying)
  | .object :: _ => .error "argument must be TypedArray or ArrayBuffer"
  | .primitive :: _ => .error "bad value for buffer argument"

def Utf8Buffer : Type := { bytes : List UInt8 // bytes.toByteArray.IsValidUTF8 }

theorem utf8_cons (c : Char) (cs : List Char) :
    utf8 (c :: cs) = String.utf8EncodeChar c ++ utf8 cs := by
  simp [utf8]

theorem utf8Decode_utf8 (s : List Char) : (utf8 s).toByteArray.utf8Decode? = some s.toArray :=
  List.utf8Decode?_utf8Encode

theorem utf8EncodeChar_length_le (c : Char) :
    (String.utf8EncodeChar c).length ≤ 3 * (if c.val.toNat < 0x10000 then 1 else 2) := by
  rw [String.length_utf8EncodeChar]
  by_cases h : c.val.toNat < 0x10000
  · rw [if_pos h]
    have hne : c.utf8Size ≠ 4 := by
      rw [Ne, Char.utf8Size_eq_four_iff, UInt32.lt_iff_toNat_lt]
      have : (0xffff : UInt32).toNat = 0xffff := rfl
      omega
    have := c.utf8Size_le_four
    omega
  · rw [if_neg h]
    have := c.utf8Size_le_four
    omega

theorem fitting_all (s : List Char) (room : Nat) (h : 3 * utf16Length s ≤ room) :
    fitting s room = s := by
  induction s generalizing room with
  | nil => rfl
  | cons c cs ih =>
    have hc := utf8EncodeChar_length_le c
    rw [utf16Length] at h
    rw [fitting, if_pos (by omega), ih _ (by omega)]

theorem utf8CString_maximum (s : List Char) :
    utf8CString s (maximumUtf8CStringSize s) = utf8 s ++ [0] := by
  rw [utf8CString, maximumUtf8CStringSize, fitting_all s _ (by omega)]

theorem ofNat_ne_zero {n : Nat} (h : n % 256 ≠ 0) : (0 : UInt8) ≠ UInt8.ofNat n := by
  intro heq
  have := congrArg UInt8.toNat heq
  rw [UInt8.toNat_ofNat'] at this
  exact h this.symm

theorem zero_not_mem_utf8EncodeChar {c : Char} (hc : c ≠ '\x00') : 0 ∉ String.utf8EncodeChar c := by
  have hpos : c.val.toNat ≠ 0 := by
    intro h
    apply hc
    exact Char.ext (UInt32.toNat_inj.mp h)
  unfold String.utf8EncodeChar
  simp only
  split
  · simp only [List.mem_singleton]
    exact ofNat_ne_zero (by omega)
  · split
    · simp only [List.mem_cons, List.not_mem_nil, or_false, not_or]
      exact ⟨ofNat_ne_zero (by omega), ofNat_ne_zero (by omega)⟩
    · split
      · simp only [List.mem_cons, List.not_mem_nil, or_false, not_or]
        exact ⟨ofNat_ne_zero (by omega), ofNat_ne_zero (by omega), ofNat_ne_zero (by omega)⟩
      · simp only [List.mem_cons, List.not_mem_nil, or_false, not_or]
        exact ⟨ofNat_ne_zero (by omega), ofNat_ne_zero (by omega), ofNat_ne_zero (by omega),
          ofNat_ne_zero (by omega)⟩

theorem cString_utf8 (s : List Char) : cString (utf8 s) = utf8 (s.takeWhile (· != '\x00')) := by
  induction s with
  | nil => rfl
  | cons c cs ih =>
    rw [utf8_cons]
    by_cases hc : c = '\x00'
    · subst hc
      rfl
    · have hbytes : ∀ b ∈ String.utf8EncodeChar c, (b != 0) = true := by
        intro b hb
        rw [bne_iff_ne]
        rintro rfl
        exact zero_not_mem_utf8EncodeChar hc hb
      rw [cString, List.takeWhile_append_of_pos hbytes, List.takeWhile_cons_of_pos (by simpa using hc),
        utf8_cons]
      exact congrArg (String.utf8EncodeChar c ++ ·) ih

theorem cString_terminated (s : List Char) :
    cString (utf8 s ++ [0]) = utf8 (s.takeWhile (· != '\x00')) := by
  have hs : utf8 s ++ [0] = utf8 (s ++ ['\x00']) := by
    rw [utf8, utf8, List.flatMap_append]
    rfl
  have htake : (s ++ ['\x00']).takeWhile (· != '\x00') = s.takeWhile (· != '\x00') := by
    rw [List.takeWhile_append]
    split
    · next h => simp [(List.takeWhile_prefix _).eq_of_length h]
    · rfl
  rw [hs, cString_utf8, htake]

theorem stringOfUtf8CString_of {buffer : List UInt8} {s : List Char} (h : cString buffer = utf8 s) :
    stringOfUtf8CString buffer = s := by
  rw [stringOfUtf8CString, h, utf8Decode_utf8]

theorem exists_utf8 (b : Utf8Buffer) : ∃ s, b.val = utf8 s := by
  obtain ⟨s, hs⟩ := b.property
  refine ⟨s, ?_⟩
  have := congrArg (fun a => a.data.toList) hs
  simpa [List.utf8Encode, utf8] using this

theorem process_string (s : List Char) :
    process [.string s] = .ok (.arrayBuffer (utf8 s ++ [0])) := by
  rw [process]
  simp only [utf8CString_maximum]

theorem string_of_encoded (s : List Char) :
    (process [.string s]).bind (fun buffer => process [buffer]) =
      .ok (.string (s.takeWhile (· != '\x00'))) := by
  have hdecode : stringOfUtf8CString (utf8 s ++ [0]) = s.takeWhile (· != '\x00') :=
    stringOfUtf8CString_of (cString_terminated s)
  rw [process_string]
  simp only [Except.bind, process, decode, hdecode]

theorem buffer_of_decoded (b : Utf8Buffer) :
    (process [.arrayBuffer b.val]).bind (fun s => process [s]) =
      .ok (.arrayBuffer (cString b.val ++ [0])) := by
  obtain ⟨s, hs⟩ := exists_utf8 b
  have hdecode : stringOfUtf8CString b.val = s.takeWhile (· != '\x00') := by
    rw [hs]
    exact stringOfUtf8CString_of (cString_utf8 s)
  have hprocess : process [.arrayBuffer b.val] = .ok (.string (s.takeWhile (· != '\x00'))) := by
    rw [process, decode, hdecode]
  rw [hprocess]
  simp only [Except.bind, process_string]
  rw [hs, cString_utf8]

theorem takeWhile_nonzero_iff (s : List Char) : s.takeWhile (· != '\x00') = s ↔ '\x00' ∉ s := by
  rw [List.takeWhile_eq_self_iff]
  constructor
  · intro h hmem
    simpa using h _ hmem
  · intro h c hc
    rw [bne_iff_ne]
    rintro rfl
    exact h hc

theorem terminated_iff (bytes : List UInt8) :
    cString bytes ++ [0] = bytes ↔ ∃ t, bytes = t ++ [0] ∧ 0 ∉ t := by
  constructor
  · intro h
    refine ⟨cString bytes, h.symm, ?_⟩
    intro hmem
    have := List.mem_takeWhile_imp hmem
    simp at this
  · rintro ⟨t, rfl, hzero⟩
    have hall : ∀ x ∈ t, (x != 0) = true := by
      intro x hx
      rw [bne_iff_ne]
      rintro rfl
      exact hzero hx
    rw [cString, List.takeWhile_append_of_pos hall]
    simp

theorem round_trips_iff (s : List Char) (b : Utf8Buffer) :
    process [.string s] ≠ .ok (.arrayBuffer (utf8 s)) ∧
    ((process [.string s]).bind (fun buffer => process [buffer]) = .ok (.string s) ↔
      '\x00' ∉ s) ∧
    ((process [.arrayBuffer b.val]).bind (fun s => process [s]) = .ok (.arrayBuffer b.val) ↔
      ∃ t, b.val = t ++ [0] ∧ 0 ∉ t) := by
  refine ⟨?_, ?_, ?_⟩
  · intro h
    rw [process_string] at h
    simp at h
  · rw [string_of_encoded, Except.ok.injEq, JSValue.string.injEq]
    exact takeWhile_nonzero_iff s
  · rw [buffer_of_decoded, Except.ok.injEq, JSValue.arrayBuffer.injEq]
    exact terminated_iff b.val

theorem encodes_terminator :
    process [.string ['a']] = .ok (.arrayBuffer [0x61, 0]) ∧
    process [.string ['a']] ≠ .ok (.arrayBuffer (utf8 ['a'])) ∧
    (process [.string ['\x00']]).bind (fun buffer => process [buffer]) = .ok (.string []) ∧
    ∃ b : Utf8Buffer, b.val = [0x61] ∧
      (process [.arrayBuffer b.val]).bind (fun s => process [s]) = .ok (.arrayBuffer [0x61, 0]) := by
  refine ⟨process_string ['a'], ?_, string_of_encoded ['\x00'], ⟨utf8 ['a'], ⟨['a'], rfl⟩⟩, rfl, ?_⟩
  · rw [process_string]
    decide
  · exact buffer_of_decoded ⟨utf8 ['a'], ⟨['a'], rfl⟩⟩

end NexusRuntime.Filters.Utf8String
