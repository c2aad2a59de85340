import Mathlib.Algebra.Ring.Nat
import NexusRuntime.Filters.Utf8String
import NexusRuntime.Modules.Import

namespace NexusRuntime.ValueString

open Filters.Utf8String
open Modules (WString isSurrogate)

def isPair (c d : UInt16) : Bool := isSurrogate true c && isSurrogate false d

def isLone (c : UInt16) : Bool := isSurrogate true c || isSurrogate false c

-- no surrogate is without its partner
def wellFormed : WString → Bool
  | [] => true
  | [c] => !isLone c
  | c :: d :: rest => if isPair c d then wellFormed rest else !isLone c && wellFormed (d :: rest)

def codePoint (n : Nat) : Option Char := if h : n.isValidChar then some (Char.ofNatAux n h) else none

def pairCode (c d : UInt16) : Nat := 0x10000 + (c.toNat - 0xD800) * 1024 + (d.toNat - 0xDC00)

def characters : WString → Option (List Char)
  | [] => some []
  | [c] => (codePoint c.toNat).map fun x => [x]
  | c :: d :: rest =>
    if isPair c d then (codePoint (pairCode c d)).bind fun x => (characters rest).map (x :: ·)
    else (codePoint c.toNat).bind fun x => (characters (d :: rest)).map (x :: ·)

def utf16Char (x : Char) : WString :=
  if x.val.toNat < 0x10000 then [UInt16.ofNat x.val.toNat]
  else
    [UInt16.ofNat (0xD800 + (x.val.toNat - 0x10000) / 1024),
      UInt16.ofNat (0xDC00 + (x.val.toNat - 0x10000) % 1024)]

def utf16 (xs : List Char) : WString := xs.flatMap utf16Char

section Units
variable {c d : UInt16}

theorem isSurrogate_high : isSurrogate true c = true ↔ 0xD800 ≤ c.toNat ∧ c.toNat < 0xDC00 := by
  simp only [isSurrogate, if_true, Bool.and_eq_true, decide_eq_true_eq]

theorem isSurrogate_low : isSurrogate false c = true ↔ 0xDC00 ≤ c.toNat ∧ c.toNat < 0xE000 := by
  simp only [isSurrogate, Bool.false_eq_true, if_false, Bool.and_eq_true, decide_eq_true_eq]

theorem isPair_iff : isPair c d = true ↔
    (0xD800 ≤ c.toNat ∧ c.toNat < 0xDC00) ∧ 0xDC00 ≤ d.toNat ∧ d.toNat < 0xE000 := by
  rw [isPair, Bool.and_eq_true, isSurrogate_high, isSurrogate_low]

theorem isLone_iff : isLone c = true ↔ 0xD800 ≤ c.toNat ∧ c.toNat < 0xE000 := by
  rw [isLone, Bool.or_eq_true, isSurrogate_high, isSurrogate_low]
  omega

theorem pairCode_eq (c d : UInt16) :
    pairCode c d = 0x10000 + (c.toNat - 0xD800) * 1024 + (d.toNat - 0xDC00) := rfl

theorem codePoint_valid {n : Nat} (h : n.isValidChar) : codePoint n = some (Char.ofNatAux n h) := dif_pos h

theorem codePoint_invalid {n : Nat} (h : ¬n.isValidChar) : codePoint n = none := dif_neg h

theorem codePoint_char (x : Char) : codePoint x.val.toNat = some x := codePoint_valid x.valid

theorem codePoint_eq_some {n : Nat} {x : Char} (h : codePoint n = some x) : x.val.toNat = n := by
  by_cases hvalid : n.isValidChar
  · have hx := (codePoint_valid hvalid).symm.trans h
    cases hx
    rfl
  · cases (codePoint_invalid hvalid).symm.trans h

theorem codePoint_isSome (n : Nat) : (codePoint n).isSome = true ↔ n.isValidChar := by
  by_cases hvalid : n.isValidChar
  · rw [codePoint_valid hvalid]
    exact iff_of_true rfl hvalid
  · rw [codePoint_invalid hvalid]
    exact iff_of_false Bool.false_ne_true hvalid

theorem valid_iff (n : Nat) : n.isValidChar ↔ n < 0xD800 ∨ (0xDFFF < n ∧ n < 0x110000) := by
  delta Nat.isValidChar
  rfl

theorem codePoint_unit (c : UInt16) : (codePoint c.toNat).isSome = !isLone c := by
  have hlt := c.toNat_lt
  have hvalid : c.toNat.isValidChar ↔ ¬isLone c = true := by
    rw [valid_iff]
    simp only [isLone_iff]
    omega
  rw [Bool.eq_iff_iff, codePoint_isSome, hvalid, Bool.not_eq_true', Bool.not_eq_true]

theorem codePoint_pair (h : isPair c d = true) : (codePoint (pairCode c d)).isSome = true := by
  obtain ⟨hc, hd⟩ := isPair_iff.mp h
  have hcode := pairCode_eq c d
  exact (codePoint_isSome _).mpr ((valid_iff _).mpr (.inr (by omega)))

end Units

theorem characters_isSome (s : WString) : (characters s).isSome = wellFormed s := by
  induction s using characters.induct with
  | case1 => rfl
  | case2 c => rw [characters, wellFormed, Option.isSome_map, codePoint_unit]
  | case3 c d rest hpair ih =>
    obtain ⟨x, hx⟩ := Option.isSome_iff_exists.mp (codePoint_pair hpair)
    rw [characters, wellFormed, if_pos hpair, if_pos hpair, hx, Option.bind_some, Option.isSome_map, ih]
  | case4 c d rest hpair ih =>
    rw [characters, wellFormed, if_neg hpair, if_neg hpair, ← ih, ← codePoint_unit]
    cases codePoint c.toNat with
    | none => rfl
    | some x => rw [Option.bind_some, Option.isSome_map, Option.isSome_some, Bool.true_and]

theorem characters_single {c : UInt16} {x : Char} {s : WString} (hx : codePoint c.toNat = some x) :
    characters (c :: s) = (characters s).map (x :: ·) := by
  cases s with
  | nil =>
    show (codePoint c.toNat).map _ = _
    rw [hx]
    rfl
  | cons d rest =>
    have hpair : isPair c d = false := by
      have hlone : isLone c = false := by
        have := codePoint_unit c
        rw [hx, Option.isSome_some] at this
        exact (Bool.not_eq_true' _).mp this.symm
      rw [isLone, Bool.or_eq_false_iff] at hlone
      rw [isPair, hlone.1, Bool.false_and]
    rw [characters, hpair, if_neg Bool.false_ne_true, hx, Option.bind_some]

theorem characters_pair {c d : UInt16} {x : Char} {s : WString} (h : isPair c d = true)
    (hx : codePoint (pairCode c d) = some x) :
    characters (c :: d :: s) = (characters s).map (x :: ·) := by
  rw [characters, if_pos h, hx, Option.bind_some]

theorem utf16Char_unit {c : UInt16} {x : Char} (h : x.val.toNat = c.toNat) : utf16Char x = [c] := by
  have hlt := c.toNat_lt
  rw [utf16Char, if_pos (by omega), h, UInt16.ofNat_toNat]

theorem utf16Char_pair {c d : UInt16} {x : Char} (h : isPair c d = true)
    (hx : x.val.toNat = pairCode c d) : utf16Char x = [c, d] := by
  obtain ⟨hc, hd⟩ := isPair_iff.mp h
  have hcode := pairCode_eq c d
  have hhigh : 0xD800 + (x.val.toNat - 0x10000) / 1024 = c.toNat := by omega
  have hlow : 0xDC00 + (x.val.toNat - 0x10000) % 1024 = d.toNat := by omega
  rw [utf16Char, if_neg (by omega), hhigh, hlow, UInt16.ofNat_toNat, UInt16.ofNat_toNat]

theorem toNat_unit {n : Nat} (h : n < 0x10000) : (UInt16.ofNat n).toNat = n := by
  rw [UInt16.toNat_ofNat']
  omega

theorem exists_pair {x : Char} (h : 0x10000 ≤ x.val.toNat) :
    ∃ c d, isPair c d = true ∧ x.val.toNat = pairCode c d := by
  have hmax : x.val.toNat < 0x110000 := by
    rcases (valid_iff _).mp x.valid with h | h
    · omega
    · exact h.2
  obtain ⟨c, hc⟩ : ∃ c : UInt16, c.toNat = 0xD800 + (x.val.toNat - 0x10000) / 1024 :=
    ⟨_, toNat_unit (by omega)⟩
  obtain ⟨d, hd⟩ : ∃ d : UInt16, d.toNat = 0xDC00 + (x.val.toNat - 0x10000) % 1024 :=
    ⟨_, toNat_unit (by omega)⟩
  have hcode := pairCode_eq c d
  exact ⟨c, d, isPair_iff.mpr ⟨by omega, by omega⟩, by omega⟩

theorem characters_utf16 (xs : List Char) : characters (utf16 xs) = some xs := by
  induction xs with
  | nil => rfl
  | cons x xs ih =>
    show characters (utf16Char x ++ utf16 xs) = some (x :: xs)
    rcases Nat.lt_or_ge x.val.toNat 0x10000 with hx | hx
    · have hunit := toNat_unit hx
      rw [utf16Char_unit hunit.symm, List.singleton_append,
        characters_single (by rw [hunit, codePoint_char]), ih, Option.map_some]
    · obtain ⟨c, d, hpair, hcode⟩ := exists_pair hx
      rw [utf16Char_pair hpair hcode]
      show characters (c :: d :: utf16 xs) = some (x :: xs)
      rw [characters_pair hpair (by rw [← hcode, codePoint_char]), ih, Option.map_some]

theorem utf16_characters (s : WString) {xs : List Char} (h : characters s = some xs) : utf16 xs = s := by
  induction s using characters.induct generalizing xs with
  | case1 =>
    cases h
    rfl
  | case2 c =>
    obtain ⟨x, hx, rfl⟩ := Option.map_eq_some_iff.mp h
    show utf16Char x ++ [] = [c]
    rw [utf16Char_unit (codePoint_eq_some hx), List.append_nil]
  | case3 c d rest hpair ih =>
    rw [characters, if_pos hpair] at h
    obtain ⟨x, hx, h⟩ := Option.bind_eq_some_iff.mp h
    obtain ⟨xs, hxs, rfl⟩ := Option.map_eq_some_iff.mp h
    show utf16Char x ++ utf16 xs = c :: d :: rest
    rw [utf16Char_pair hpair (codePoint_eq_some hx), ih hxs]
    rfl
  | case4 c d rest hpair ih =>
    rw [characters, if_neg hpair] at h
    obtain ⟨x, hx, h⟩ := Option.bind_eq_some_iff.mp h
    obtain ⟨xs, hxs, rfl⟩ := Option.map_eq_some_iff.mp h
    show utf16Char x ++ utf16 xs = c :: d :: rest
    rw [utf16Char_unit (codePoint_eq_some hx), ih hxs]
    rfl

theorem utf16_length (xs : List Char) : (utf16 xs).length = utf16Length xs := by
  induction xs with
  | nil => rfl
  | cons x xs ih =>
    have hx : (utf16Char x).length = if x.val.toNat < 0x10000 then 1 else 2 := by
      rw [utf16Char]
      split <;> rfl
    rw [utf16Length, ← hx, ← ih]
    exact List.length_append

structure JSString where
  units : WString
  small : units.length < 2 ^ 53

inductive Thrown where
  | exception (message : List UInt8)
  | lengthError
deriving DecidableEq, Repr

-- std::string::max_size(): below npos, above any string made here
structure MaxSize where
  size : Nat
  room : 2 ^ 55 ≤ size
  bounded : size < 2 ^ 64 - 1

-- JSStringGetUTF8CString: the bytes written, none of a string that is not well formed
def getUtf8CString (s : WString) (bufferSize : Nat) : List UInt8 :=
  match characters s with
  | none => []
  | some xs => utf8CString xs bufferSize

section Conversions
variable (m : MaxSize)

def filled (len : Nat) : Except Thrown (List UInt8) :=
  if len ≤ m.size then .ok (List.replicate len 32) else .error .lengthError

def resize (str : List UInt8) (len : UInt64) : Except Thrown (List UInt8) :=
  if len.toNat ≤ m.size then .ok (str.take len.toNat ++ List.replicate (len.toNat - str.length) 0)
  else .error .lengthError

-- the buffer and the length that both conversions take from it
def copyOut (s : JSString) : Except Thrown (List UInt8 × UInt64) :=
  let len := 3 * s.units.length + 1
  (filled m len).map fun str =>
    let written := getUtf8CString s.units len
    (written ++ str.drop written.length, UInt64.ofNat written.length)

def toString : Option JSString → Except Thrown (List UInt8)
  | none => .error (.exception (utf8 "could not convert value to string".toList))
  | some s => (copyOut m s).bind fun r => resize m r.1 (r.2 - 1)

-- `.error`: the message of what JSValueCreateJSONString threw
def toJSON : Except JSString JSString → Except Thrown (List UInt8)
  | .error message => (toString m (some message)).bind fun text => .error (.exception text)
  | .ok s => (copyOut m s).bind fun r => resize m r.1 r.2

-- NX::Value(ctx, str), through c_str()
def ofString (str : List UInt8) : WString := utf16 (stringOfUtf8CString (str ++ [0]))

def ToStringExact (s : JSString) : Prop :=
  (∃ message, toString m (some s) = .error (.exception message)) ∨
    ∃ xs, characters s.units = some xs ∧ toString m (some s) = .ok (utf8 xs)

def RoundTrips (s : JSString) : Prop :=
  ∀ str, toString m (some s) = .ok str → ofString str = s.units

def ToJSONExact (s : JSString) : Prop :=
  ∃ xs, characters s.units = some xs ∧ toJSON m (.ok s) = .ok (utf8 xs)

end Conversions

section Lengths
variable {m : MaxSize} {s : JSString} {xs : List Char}

theorem utf8_length_le (xs : List Char) : (utf8 xs).length ≤ 3 * utf16Length xs := by
  induction xs with
  | nil => exact Nat.le_refl 0
  | cons x xs ih =>
    have hx := utf8EncodeChar_length_le x
    rw [utf8_cons, List.length_append, utf16Length]
    omega

theorem characters_length (h : characters s.units = some xs) : utf16Length xs = s.units.length := by
  rw [← utf16_length, utf16_characters s.units h]

theorem filled_small (m : MaxSize) (s : JSString) :
    filled m (3 * s.units.length + 1) = .ok (List.replicate (3 * s.units.length + 1) 32) := by
  have hsmall := s.small
  have hroom := m.room
  exact if_pos (by omega)

theorem resize_within (m : MaxSize) {str rest : List UInt8} {len : UInt64} (h : len.toNat = str.length)
    (hsmall : str.length < 2 ^ 55) : resize m (str ++ rest) len = .ok str := by
  have hroom := m.room
  rw [resize, if_pos (by omega), h, List.take_left, List.length_append,
    Nat.sub_eq_zero_of_le (by omega), List.replicate_zero, List.append_nil]

theorem copyOut_wellFormed (h : characters s.units = some xs) :
    ∃ rest, copyOut m s =
      .ok (utf8 xs ++ ([0] ++ rest), UInt64.ofNat ((utf8 xs).length + 1)) := by
  have hwritten : getUtf8CString s.units (3 * s.units.length + 1) = utf8 xs ++ [0] := by
    rw [getUtf8CString, h, ← characters_length h]
    exact utf8CString_maximum xs
  refine ⟨(List.replicate (3 * s.units.length + 1) 32).drop ((utf8 xs).length + 1), ?_⟩
  rw [copyOut, filled_small, Except.map]
  simp only [hwritten, List.length_append, List.length_singleton, List.append_assoc]

theorem copyOut_lone (h : characters s.units = none) :
    ∃ str, copyOut m s = .ok (str, 0) := by
  refine ⟨List.replicate (3 * s.units.length + 1) 32, ?_⟩
  have hwritten : getUtf8CString s.units (3 * s.units.length + 1) = [] := by
    rw [getUtf8CString, h]
  rw [copyOut, filled_small, Except.map]
  simp only [hwritten]
  rfl

theorem toString_wellFormed (h : characters s.units = some xs) :
    toString m (some s) = .ok (utf8 xs) := by
  obtain ⟨rest, hcopy⟩ := copyOut_wellFormed (m := m) h
  have hlength := utf8_length_le xs
  have hunits := characters_length h
  have hsmall := s.small
  have hlen : (UInt64.ofNat ((utf8 xs).length + 1) - 1).toNat = (utf8 xs).length := by
    rw [UInt64.toNat_sub, UInt64.toNat_ofNat']
    show (2 ^ 64 - 1 + ((utf8 xs).length + 1) % 2 ^ 64) % 2 ^ 64 = (utf8 xs).length
    omega
  rw [toString, hcopy, Except.bind]
  exact resize_within m hlen (by omega)

theorem toString_lone (h : characters s.units = none) : toString m (some s) = .error .lengthError := by
  obtain ⟨str, hcopy⟩ := copyOut_lone (m := m) h
  have hbounded := m.bounded
  have hwrapped : ((0 : UInt64) - 1).toNat = 2 ^ 64 - 1 := rfl
  rw [toString, hcopy, Except.bind]
  refine if_neg ?_
  show ¬((0 : UInt64) - 1).toNat ≤ m.size
  omega

theorem toJSON_wellFormed (h : characters s.units = some xs) :
    toJSON m (.ok s) = .ok (utf8 xs ++ [0]) := by
  obtain ⟨rest, hcopy⟩ := copyOut_wellFormed (m := m) h
  have hlength := utf8_length_le xs
  have hunits := characters_length h
  have hsmall := s.small
  have hlen : (UInt64.ofNat ((utf8 xs).length + 1)).toNat = (utf8 xs ++ [0]).length := by
    rw [UInt64.toNat_ofNat', List.length_append, List.length_singleton]
    omega
  rw [toJSON, hcopy, Except.bind, ← List.append_assoc]
  refine resize_within m hlen ?_
  rw [List.length_append, List.length_singleton]
  omega

theorem ofString_utf8 (xs : List Char) : ofString (utf8 xs) = utf16 (xs.takeWhile (· != '\x00')) := by
  rw [ofString, stringOfUtf8CString_of (cString_terminated xs)]

theorem utf16_injective {xs ys : List Char} (h : utf16 xs = utf16 ys) : xs = ys := by
  have hsome := congrArg characters h
  rw [characters_utf16, characters_utf16] at hsome
  exact Option.some.inj hsome

theorem nul_mem_utf16Char (x : Char) : 0 ∈ utf16Char x ↔ x = '\x00' := by
  have hnul : x = '\x00' ↔ x.val.toNat = 0 := by
    constructor
    · rintro rfl
      rfl
    · intro h
      exact Char.ext (UInt32.toNat_inj.mp h)
  have hzero : (0 : UInt16).toNat = 0 := rfl
  rw [hnul]
  rcases Nat.lt_or_ge x.val.toNat 0x10000 with hx | hx
  · have hunit := toNat_unit hx
    rw [utf16Char_unit hunit.symm, List.mem_singleton, ← UInt16.toNat_inj]
    omega
  · obtain ⟨c, d, hpair, hcode⟩ := exists_pair hx
    obtain ⟨hc, hd⟩ := isPair_iff.mp hpair
    rw [utf16Char_pair hpair hcode]
    refine iff_of_false ?_ (by omega)
    simp only [List.mem_cons, List.not_mem_nil, or_false, ← UInt16.toNat_inj]
    omega

theorem nul_mem_utf16 (xs : List Char) : 0 ∈ utf16 xs ↔ '\x00' ∈ xs := by
  simp only [utf16, List.mem_flatMap, nul_mem_utf16Char, exists_eq_right]

end Lengths

section Exact
variable (m : MaxSize) (s : JSString)

theorem toString_exact_iff : ToStringExact m s ↔ wellFormed s.units = true := by
  rw [← characters_isSome]
  cases hs : characters s.units with
  | none =>
    refine iff_of_false ?_ Bool.false_ne_true
    rintro (⟨message, h⟩ | ⟨xs, hxs, -⟩)
    · rw [toString_lone hs] at h
      cases h
    · rw [hs] at hxs
      cases hxs
  | some xs => exact iff_of_true (.inr ⟨xs, hs, toString_wellFormed hs⟩) rfl

theorem roundTrips_iff : RoundTrips m s ↔ (wellFormed s.units = true → 0 ∉ s.units) := by
  rw [← characters_isSome]
  cases hs : characters s.units with
  | none =>
    refine iff_of_true ?_ (fun h => absurd h Bool.false_ne_true)
    intro str h
    rw [toString_lone hs] at h
    cases h
  | some xs =>
    have hunits := utf16_characters s.units hs
    have hround : RoundTrips m s ↔ utf16 (xs.takeWhile (· != '\x00')) = utf16 xs := by
      rw [RoundTrips, toString_wellFormed hs, ← ofString_utf8, hunits]
      constructor
      · intro h
        exact h _ rfl
      · rintro h str ⟨⟩
        exact h
    rw [hround, ← hunits, nul_mem_utf16]
    constructor
    · intro h _
      exact (takeWhile_nonzero_iff xs).mp (utf16_injective h)
    · intro h
      rw [(takeWhile_nonzero_iff xs).mpr (h rfl)]

theorem not_toJSON_exact : ¬ToJSONExact m s := by
  rintro ⟨xs, hs, h⟩
  rw [toJSON_wellFormed hs] at h
  have hlength := congrArg List.length (Except.ok.inj h)
  rw [List.length_append, List.length_singleton] at hlength
  omega

theorem conversions_exact_iff (t : JSString) :
    (ToStringExact m s ↔ wellFormed s.units = true) ∧
      (RoundTrips m s ↔ (wellFormed s.units = true → 0 ∉ s.units)) ∧ ¬ToJSONExact m t :=
  ⟨toString_exact_iff m s, roundTrips_iff m s, not_toJSON_exact m t⟩

end Exact

def maxSize : MaxSize := ⟨2 ^ 62, by decide, by decide⟩

-- a lone surrogate, U+0000, and the JSON text 1
theorem conversions_fail :
    toString maxSize (some ⟨[0xD800], by decide⟩) = .error .lengthError ∧
      toString maxSize (some ⟨[0], by decide⟩) = .ok [0] ∧ ofString [0] = [] ∧
      ¬RoundTrips maxSize ⟨[0], by decide⟩ ∧
      toJSON maxSize (.ok ⟨[49], by decide⟩) = .ok [49, 0] := by
  have hzero : characters [0] = some ['\x00'] := rfl
  have hone : characters [49] = some ['1'] := rfl
  have hnul : toString maxSize (some ⟨[0], by decide⟩) = .ok [0] := by
    rw [toString_wellFormed hzero]
    rfl
  have hjson : toJSON maxSize (.ok ⟨[49], by decide⟩) = .ok [49, 0] := by
    rw [toJSON_wellFormed hone]
    rfl
  have hempty : ofString [0] = [] := ofString_utf8 ['\x00']
  refine ⟨toString_lone rfl, hnul, hempty, ?_, hjson⟩
  intro h
  have hround := h _ hnul
  rw [hempty] at hround
  cases hround

end NexusRuntime.ValueString
