import NexusRuntime.Devices.SinkWrite
import NexusRuntime.Filters.Utf8Chunks

namespace NexusRuntime.Filters.Utf8String

open Devices (View)

-- what lies at JSObjectGetArrayBufferBytesPtr: `following` is the memory behind the buffer
structure Memory where
  null : Bool
  following : List UInt8

-- JSStringCreateWithUTF8CString at the pointer; `none`: it runs off the readable memory
def Memory.string (m : Memory) (bytes : List UInt8) : Option JSValue :=
  if m.null then some (.string [])
  else if 0 ∈ bytes ++ m.following then some (decode (bytes ++ m.following))
  else none

def processSync (m : Memory) : List JSValue → Except String (Option JSValue)
  | [] => .error "must supply buffer to write"
  | .null :: _ => .error "bad value for buffer argument"
  | .string _ :: _ => .error "bad value for buffer argument"
  | .primitive :: _ => .error "bad value for buffer argument"
  | .object :: _ => .error "argument must be TypedArray or ArrayBuffer"
  | .arrayBuffer bytes :: _ => .ok (m.string bytes)
  | .typedArray underlying :: _ => .ok (m.string underlying)

structure TypedArray extends View where
  memory : Memory
  null_empty : memory.null = true → bytes = []

namespace TypedArray
variable (b : TypedArray)

-- JSObjectGetTypedArrayBuffer gives the whole buffer
def argument : JSValue := .typedArray b.bytes

-- how many bytes each reads, from the first byte of the buffer
def processReads : Nat := b.bytes.length

def processSyncReads : Nat :=
  if b.memory.null then 0 else (cString (b.bytes ++ b.memory.following)).length + 1

def Inside (reads : Nat) : Prop := ∀ i < reads, b.offset ≤ i ∧ i < b.offset + b.length

end TypedArray

def decodeUtf8 (bytes : List UInt8) : List Char :=
  match bytes.toByteArray.utf8Decode? with
  | some chars => chars.toList
  | none => []

def Malformed (bytes : List UInt8) : Prop := ¬ bytes.toByteArray.IsValidUTF8

namespace TypedArray

structure DecodesView (b : TypedArray) : Prop where
  async : process [b.argument] = .ok (.string (decodeUtf8 b.content))
  sync : processSync b.memory [b.argument] = .ok (some (.string (decodeUtf8 b.content)))
  asyncInside : b.Inside b.processReads
  syncInside : b.Inside b.processSyncReads

-- the view is the whole buffer, with a zero in it, and does not decode any further than to that zero
structure Cut (b : TypedArray) : Prop where
  offset : b.offset = 0
  length : b.length = b.bytes.length
  zero : 0 ∈ b.bytes
  malformed : Malformed b.bytes
  before : cString b.bytes = [] ∨ Malformed (cString b.bytes)

end TypedArray

theorem malformed_iff {bytes : List UInt8} : Malformed bytes ↔ bytes.toByteArray.utf8Decode? = none := by
  rw [Malformed, ← ByteArray.isSome_utf8Decode?_iff, Option.not_isSome_iff_eq_none]

theorem stringOfUtf8CString_eq (bytes : List UInt8) :
    stringOfUtf8CString bytes = decodeUtf8 (cString bytes) := rfl

theorem decodeUtf8_utf8 (s : List Char) : decodeUtf8 (utf8 s) = s := by
  rw [decodeUtf8, utf8Decode_utf8]

theorem decodeUtf8_malformed {bytes : List UInt8} (h : Malformed bytes) : decodeUtf8 bytes = [] := by
  rw [decodeUtf8, malformed_iff.mp h]

theorem malformed_or_utf8 (bytes : List UInt8) : Malformed bytes ∨ ∃ s, bytes = utf8 s := by
  by_cases h : bytes.toByteArray.IsValidUTF8
  · exact Or.inr (exists_utf8 ⟨bytes, h⟩)
  · exact Or.inl h

theorem decodeUtf8_eq_nil (bytes : List UInt8) : decodeUtf8 bytes = [] ↔ bytes = [] ∨ Malformed bytes := by
  constructor
  · intro h
    rcases malformed_or_utf8 bytes with hbad | ⟨s, rfl⟩
    · exact Or.inr hbad
    · rw [decodeUtf8_utf8] at h
      subst h
      exact Or.inl rfl
  · rintro (rfl | hbad)
    · rfl
    · exact decodeUtf8_malformed hbad

theorem nul_mem_of_zero_mem {s : List Char} (h : 0 ∈ utf8 s) : '\x00' ∈ s := by
  obtain ⟨c, hc, hzero⟩ := List.mem_flatMap.mp h
  by_contra hnot
  have hne : c ≠ '\x00' := by
    rintro rfl
    exact hnot hc
  exact zero_not_mem_utf8EncodeChar hne hzero

-- the bytes before a zero decode to the same string as all of them only when both decode to nothing
theorem decodeUtf8_cString_iff {bytes : List UInt8} (h : 0 ∈ bytes) :
    decodeUtf8 (cString bytes) = decodeUtf8 bytes ↔
      Malformed bytes ∧ (cString bytes = [] ∨ Malformed (cString bytes)) := by
  rcases malformed_or_utf8 bytes with hbad | ⟨s, rfl⟩
  · rw [decodeUtf8_malformed hbad, decodeUtf8_eq_nil]
    exact (and_iff_right hbad).symm
  · rw [cString_utf8, decodeUtf8_utf8, decodeUtf8_utf8, takeWhile_nonzero_iff]
    constructor
    · intro hnot
      exact absurd (nul_mem_of_zero_mem h) hnot
    · rintro ⟨hbad, -⟩
      rw [malformed_iff, utf8Decode_utf8] at hbad
      cases hbad

theorem cString_length_lt {bytes : List UInt8} (h : 0 ∈ bytes) : (cString bytes).length < bytes.length := by
  have hle := (List.takeWhile_prefix (· != 0) (l := bytes)).length_le
  rcases Nat.lt_or_ge (cString bytes).length bytes.length with hlt | hge
  · exact hlt
  · have heq := (List.takeWhile_prefix (· != 0) (l := bytes)).eq_of_length (Nat.le_antisymm hle hge)
    have hne := List.takeWhile_eq_self_iff.mp heq 0 h
    simp at hne

theorem zero_mem_of_cString_lt {bytes following : List UInt8}
    (h : (cString (bytes ++ following)).length < bytes.length) : 0 ∈ bytes := by
  by_contra hnot
  have hall : ∀ x ∈ bytes, (x != 0) = true := by
    intro x hx
    rw [bne_iff_ne]
    rintro rfl
    exact hnot hx
  rw [cString, List.takeWhile_append_of_pos hall, List.length_append] at h
  omega

namespace TypedArray

theorem content_whole {b : TypedArray} (ho : b.offset = 0) (hl : b.length = b.bytes.length) :
    b.content = b.bytes := by
  rw [View.content, ho, hl, List.drop_zero, List.take_length]

theorem inside_whole {b : TypedArray} (ho : b.offset = 0) (hl : b.length = b.bytes.length) {reads : Nat}
    (h : reads ≤ b.bytes.length) : b.Inside reads := by
  intro i hi
  omega

theorem processSync_zero {b : TypedArray} (hnull : b.memory.null = false) (h : 0 ∈ b.bytes) :
    processSync b.memory [b.argument] = .ok (some (.string (decodeUtf8 (cString b.bytes)))) := by
  have hmem : 0 ∈ b.bytes ++ b.memory.following := List.mem_append_left _ h
  simp only [processSync, argument, Memory.string, hnull, Bool.false_eq_true, if_false, hmem, if_true,
    decode, stringOfUtf8CString_eq]
  rw [cString_append_zero h]

theorem decodesView_null {b : TypedArray} (h : b.memory.null = true) : b.DecodesView := by
  have hbytes := b.null_empty h
  have hcontent : b.content = [] := by rw [View.content, hbytes, List.drop_nil, List.take_nil]
  constructor
  · rw [hcontent, argument, hbytes]
    rfl
  · rw [hcontent]
    simp only [processSync, argument, Memory.string, h, if_true]
    rfl
  · rw [processReads, hbytes]
    intro i hi
    simp at hi
  · rw [processSyncReads, if_pos h]
    intro i hi
    omega

theorem decodesView_of_cut {b : TypedArray} (hnull : b.memory.null = false) (h : b.Cut) : b.DecodesView := by
  have hcontent := content_whole h.offset h.length
  have hsame := (decodeUtf8_cString_iff h.zero).mpr ⟨h.malformed, h.before⟩
  constructor
  · rw [hcontent, ← hsame]
    rfl
  · rw [hcontent, ← hsame]
    exact processSync_zero hnull h.zero
  · exact inside_whole h.offset h.length (Nat.le_refl _)
  · apply inside_whole h.offset h.length
    have := cString_length_lt h.zero
    rw [processSyncReads, hnull, cString_append_zero h.zero]
    exact this

theorem cut_of_decodesView {b : TypedArray} (hnull : b.memory.null = false) (h : b.DecodesView) : b.Cut := by
  have hsync := h.syncInside
  rw [processSyncReads, hnull] at hsync
  have hfirst := hsync 0 (Nat.succ_pos _)
  have hoffset : b.offset = 0 := by omega
  have hwithin := b.within
  have hlength : b.length = b.bytes.length := by
    have hlast := h.asyncInside (b.bytes.length - 1) (by rw [processReads]; omega)
    omega
  have hzero : 0 ∈ b.bytes := by
    have hend := hsync _ (Nat.lt_succ_self _)
    have hlt : (cString (b.bytes ++ b.memory.following)).length < b.bytes.length := by omega
    exact zero_mem_of_cString_lt hlt
  have hvalue := h.async
  rw [content_whole hoffset hlength] at hvalue
  have hsame : decodeUtf8 (cString b.bytes) = decodeUtf8 b.bytes := by
    simpa [process, argument, decode, stringOfUtf8CString_eq] using hvalue
  obtain ⟨hbad, hbefore⟩ := (decodeUtf8_cString_iff hzero).mp hsame
  exact ⟨hoffset, hlength, hzero, hbad, hbefore⟩

theorem decodesView_iff (b : TypedArray) : b.DecodesView ↔ b.memory.null = true ∨ b.Cut := by
  cases hnull : b.memory.null with
  | true => exact iff_of_true (decodesView_null hnull) (Or.inl rfl)
  | false =>
    constructor
    · intro h
      exact Or.inr (cut_of_decodesView hnull h)
    · rintro (h | h)
      · cases h
      · exact decodesView_of_cut hnull h

def unterminated : TypedArray :=
  ⟨View.arrayBuffer [0x61], ⟨false, [0x62, 0]⟩, by rintro ⟨⟩⟩

def inTheMiddle : TypedArray :=
  ⟨⟨[0x61, 0x62, 0x63], 1, 1, by decide⟩, ⟨false, [0]⟩, by rintro ⟨⟩⟩

def zeroInside : TypedArray :=
  ⟨View.arrayBuffer [0x61, 0, 0x62], ⟨false, [0]⟩, by rintro ⟨⟩⟩

theorem views_decoded_wrongly :
    process [unterminated.argument] = .ok (.string ['a']) ∧
      processSync unterminated.memory [unterminated.argument] = .ok (some (.string ['a', 'b'])) ∧
      process [inTheMiddle.argument] = .ok (.string ['a', 'b', 'c']) ∧ inTheMiddle.content = [0x62] ∧
      process [zeroInside.argument] = .ok (.string ['a']) ∧
      ¬ unterminated.DecodesView ∧ ¬ inTheMiddle.DecodesView ∧ ¬ zeroInside.DecodesView := by
  have hone : stringOfUtf8CString [0x61] = ['a'] := stringOfUtf8CString_of rfl
  have htwo : stringOfUtf8CString [0x61, 0x62, 0] = ['a', 'b'] := stringOfUtf8CString_of rfl
  have hthree : stringOfUtf8CString [0x61, 0x62, 0x63] = ['a', 'b', 'c'] := stringOfUtf8CString_of rfl
  have hcut : stringOfUtf8CString [0x61, 0, 0x62] = ['a'] := stringOfUtf8CString_of rfl
  refine ⟨?_, ?_, ?_, rfl, ?_, ?_, ?_, ?_⟩
  · exact congrArg (fun s => Except.ok (JSValue.string s)) hone
  · exact congrArg (fun s => Except.ok (some (JSValue.string s))) htwo
  · exact congrArg (fun s => Except.ok (JSValue.string s)) hthree
  · exact congrArg (fun s => Except.ok (JSValue.string s)) hcut
  · intro h
    exact absurd (cut_of_decodesView rfl h).zero (by decide)
  · intro h
    exact absurd (cut_of_decodesView rfl h).offset (by decide)
  · intro h
    have hwell : zeroInside.bytes = utf8 ['a', '\x00', 'b'] := rfl
    have hbad := (cut_of_decodesView rfl h).malformed
    rw [malformed_iff, hwell, utf8Decode_utf8] at hbad
    cases hbad

end TypedArray
end NexusRuntime.Filters.Utf8String
