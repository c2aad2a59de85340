import NexusRuntime.Filters.Utf8String

namespace NexusRuntime.Filters.Utf8String

structure Cut where
  chunks : List (List UInt8)
  valid : chunks.flatten.toByteArray.IsValidUTF8

def Concatenates (chunks : List (List UInt8)) : Prop :=
  ∃ texts : List (List Char),
    chunks.map (fun c => process [.arrayBuffer c]) = texts.map (fun t => .ok (.string t)) ∧
      process [.arrayBuffer chunks.flatten] = .ok (.string texts.flatten)

abbrev Whole (bytes : List UInt8) : Prop := bytes.toByteArray.IsValidUTF8

def beforeZero : List (List UInt8) → List (List UInt8)
  | [] => []
  | c :: cs => if 0 ∈ c then [cString c] else c :: beforeZero cs

def afterZero : List (List UInt8) → List (List UInt8)
  | [] => []
  | c :: cs => if 0 ∈ c then cs else afterZero cs

def Silent (chunk : List UInt8) : Prop := cString chunk = [] ∨ ¬ Whole (cString chunk)

def CutsBetween (chunks : List (List UInt8)) : Prop :=
  (∀ p ∈ beforeZero chunks, Whole p) ∧ ∀ c ∈ afterZero chunks, Silent c

def intact (chunk : List UInt8) : List UInt8 := if Whole (cString chunk) then cString chunk else []

def MadeUp (chunks : List (List UInt8)) : Prop :=
  (∃ p ∈ beforeZero chunks, ¬ Whole p) ∧
    (beforeZero chunks).flatMap intact ++ (afterZero chunks).flatMap intact =
      (beforeZero chunks).flatten

theorem whole_utf8 (s : List Char) : Whole (utf8 s) := by
  rw [Whole, ← ByteArray.isSome_utf8Decode?_iff, utf8Decode_utf8]
  rfl

theorem utf8_injective {s t : List Char} (h : utf8 s = utf8 t) : s = t := by
  have := utf8Decode_utf8 s
  rw [h, utf8Decode_utf8, Option.some.injEq] at this
  simpa using this.symm

theorem utf8_flatMap {A : Type} (f : A → List Char) (xs : List A) :
    utf8 (xs.flatMap f) = xs.flatMap fun x => utf8 (f x) := by
  rw [utf8, List.flatMap_assoc]
  rfl

theorem cString_cString (b : List UInt8) : cString (cString b) = cString b := by
  rw [cString, List.takeWhile_eq_self_iff]
  intro x hx
  have hx : x ∈ b.takeWhile (· != 0) := hx
  exact List.mem_takeWhile_imp (p := (· != (0 : UInt8))) hx

theorem cString_eq {b : List UInt8} (h : 0 ∉ b) : cString b = b := by
  rw [cString, List.takeWhile_eq_self_iff]
  intro x hx
  rw [bne_iff_ne]
  rintro rfl
  exact h hx

theorem cString_append_zero {b : List UInt8} (h : 0 ∈ b) (rest : List UInt8) :
    cString (b ++ rest) = cString b := by
  have hne : (b.takeWhile (· != 0)).length ≠ b.length := by
    intro hlen
    have hall := (List.takeWhile_prefix (p := (· != (0 : UInt8))) (l := b)).eq_of_length hlen
    simpa using List.takeWhile_eq_self_iff.mp hall 0 h
  rw [cString, List.takeWhile_append, if_neg hne]
  rfl

theorem cString_append {b : List UInt8} (h : 0 ∉ b) (rest : List UInt8) :
    cString (b ++ rest) = b ++ cString rest := by
  apply List.takeWhile_append_of_pos
  intro x hx
  rw [bne_iff_ne]
  rintro rfl
  exact h hx

theorem utf8_stringOf (chunk : List UInt8) : utf8 (stringOfUtf8CString chunk) = intact chunk := by
  rw [intact]
  split
  · next hwhole =>
    obtain ⟨s, hs⟩ := exists_utf8 ⟨_, hwhole⟩
    have hs : cString chunk = utf8 s := hs
    rw [stringOfUtf8CString_of hs, hs]
  · next hbroken =>
    cases hd : (cString chunk).toByteArray.utf8Decode? with
    | none => simp [stringOfUtf8CString, hd, utf8]
    | some chars =>
      refine absurd (ByteArray.isSome_utf8Decode?_iff.mp ?_) hbroken
      rw [hd]
      rfl

theorem intact_eq_nil_iff (chunk : List UInt8) : intact chunk = [] ↔ Silent chunk := by
  rw [intact, Silent]
  split
  · next hwhole => simp [hwhole]
  · next hbroken => simp [hbroken]

theorem intact_piece {p : List UInt8} (h : 0 ∉ p) : intact p = if Whole p then p else [] := by
  rw [intact, cString_eq h]

theorem beforeZero_nonzero {chunks : List (List UInt8)} : ∀ p ∈ beforeZero chunks, 0 ∉ p := by
  induction chunks with
  | nil => simp [beforeZero]
  | cons c cs ih =>
    rw [beforeZero]
    split
    · intro p hp hmem
      rw [List.mem_singleton.mp hp] at hmem
      have := List.mem_takeWhile_imp hmem
      simp at this
    · next hc =>
      intro p hp
      rcases List.mem_cons.mp hp with rfl | hp
      · exact hc
      · exact ih p hp

theorem beforeZero_flatten (chunks : List (List UInt8)) :
    (beforeZero chunks).flatten = cString chunks.flatten := by
  induction chunks with
  | nil => rfl
  | cons c cs ih =>
    rw [beforeZero, List.flatten_cons]
    split
    · next hc => rw [cString_append_zero hc, List.flatten_singleton]
    · next hc => rw [cString_append hc, List.flatten_cons, ih]

theorem intact_split (chunks : List (List UInt8)) :
    chunks.flatMap intact =
      (beforeZero chunks).flatMap intact ++ (afterZero chunks).flatMap intact := by
  induction chunks with
  | nil => rfl
  | cons c cs ih =>
    rw [beforeZero, afterZero, List.flatMap_cons]
    split
    · have hc : intact (cString c) = intact c := by
        rw [intact, intact, cString_cString]
      rw [List.flatMap_singleton, hc]
    · rw [List.flatMap_cons, List.append_assoc, ih]

theorem intact_whole {pieces : List (List UInt8)} (hzero : ∀ p ∈ pieces, 0 ∉ p)
    (hwhole : ∀ p ∈ pieces, Whole p) : pieces.flatMap intact = pieces.flatten := by
  rw [List.flatMap_def, List.map_congr_left (g := id), List.map_id]
  intro p hp
  rw [intact_piece (hzero p hp), if_pos (hwhole p hp)]
  rfl

theorem concatenates_iff_strings (chunks : List (List UInt8)) :
    Concatenates chunks ↔
      chunks.flatMap stringOfUtf8CString = stringOfUtf8CString chunks.flatten := by
  constructor
  · rintro ⟨texts, hchunks, hwhole⟩
    have htexts : chunks.map stringOfUtf8CString = texts := by
      apply (List.map_inj_right (f := fun t => (Except.ok (.string t) : Except String JSValue)) ?_).mp
      · rw [← hchunks, List.map_map]
        rfl
      · intro s t h
        simpa using h
    rw [List.flatMap_def, htexts]
    have : stringOfUtf8CString chunks.flatten = texts.flatten := by
      simpa [process, decode] using hwhole
    exact this.symm
  · intro h
    refine ⟨chunks.map stringOfUtf8CString, ?_, ?_⟩
    · rw [List.map_map]
      rfl
    · rw [← List.flatMap_def, h]
      rfl

theorem concatenates_iff_intact (t : Cut) :
    Concatenates t.chunks ↔
      (beforeZero t.chunks).flatMap intact ++ (afterZero t.chunks).flatMap intact =
        (beforeZero t.chunks).flatten := by
  obtain ⟨s, hs⟩ := exists_utf8 ⟨_, t.valid⟩
  have hs : t.chunks.flatten = utf8 s := hs
  have hwhole : intact t.chunks.flatten = cString t.chunks.flatten := by
    rw [intact, hs, cString_utf8, if_pos (whole_utf8 _)]
  rw [concatenates_iff_strings, ← intact_split, beforeZero_flatten, ← hwhole, ← utf8_stringOf]
  have hleft : t.chunks.flatMap intact = utf8 (t.chunks.flatMap stringOfUtf8CString) := by
    simp only [utf8_flatMap, utf8_stringOf]
  rw [hleft]
  exact ⟨congrArg utf8, utf8_injective⟩

theorem concatenates_iff_cuts (t : Cut) :
    Concatenates t.chunks ↔ CutsBetween t.chunks ∨ MadeUp t.chunks := by
  rw [concatenates_iff_intact]
  by_cases hwhole : ∀ p ∈ beforeZero t.chunks, Whole p
  · have hnot : ¬ MadeUp t.chunks := by
      rintro ⟨⟨p, hp, hbroken⟩, -⟩
      exact hbroken (hwhole p hp)
    rw [intact_whole beforeZero_nonzero hwhole, or_iff_left hnot, List.append_right_eq_self, CutsBetween,
      and_iff_right hwhole, List.flatMap_eq_nil_iff]
    simp only [intact_eq_nil_iff]
  · have hnot : ¬ CutsBetween t.chunks := fun h => hwhole h.1
    rw [or_iff_right hnot, MadeUp, and_iff_right]
    simpa using hwhole

theorem intact_length_le (pieces : List (List UInt8)) :
    (pieces.flatMap intact).length ≤ pieces.flatten.length := by
  induction pieces with
  | nil => exact Nat.le_refl _
  | cons p pieces ih =>
    have hp : (intact p).length ≤ p.length := by
      rw [intact]
      split
      · exact (List.takeWhile_prefix _).length_le
      · exact Nat.zero_le _
    rw [List.flatMap_cons, List.flatten_cons, List.length_append, List.length_append]
    omega

theorem intact_length_lt {pieces : List (List UInt8)} (hzero : ∀ p ∈ pieces, 0 ∉ p)
    {p : List UInt8} (hp : p ∈ pieces) (hbroken : ¬ Whole p) :
    (pieces.flatMap intact).length < pieces.flatten.length := by
  obtain ⟨xs, ys, rfl⟩ := List.append_of_mem hp
  have hxs := intact_length_le xs
  have hys := intact_length_le ys
  have hpos : 0 < p.length := by
    rw [List.length_pos_iff]
    rintro rfl
    exact hbroken (whole_utf8 [])
  simp only [List.flatMap_append, List.flatMap_cons, List.flatten_append, List.flatten_cons,
    List.length_append, intact_piece (hzero p hp), if_neg hbroken, List.length_nil]
  omega

-- in a text without U+0000 nothing can make up for a broken character
theorem concatenates_iff_whole (t : Cut) (hzero : 0 ∉ t.chunks.flatten) :
    Concatenates t.chunks ↔ ∀ c ∈ t.chunks, Whole c := by
  have hnone : ∀ c ∈ t.chunks, 0 ∉ c := fun c hc h => hzero (List.mem_flatten.mpr ⟨c, hc, h⟩)
  rw [concatenates_iff_intact, ← intact_split, beforeZero_flatten, cString_eq hzero]
  constructor
  · intro h c hc
    by_contra hbroken
    have hlt := intact_length_lt hnone hc hbroken
    rw [h] at hlt
    omega
  · exact intact_whole hnone

theorem cut_inside_character :
    [[0xC3], [0xA9]].flatten = utf8 ['é'] ∧ process [.arrayBuffer [0xC3, 0xA9]] = .ok (.string ['é']) ∧
      [[0xC3], [0xA9]].map (fun c => process [.arrayBuffer c]) = [.ok (.string []), .ok (.string [])] ∧
      ¬ Concatenates [[0xC3], [0xA9]] := by
  refine ⟨by decide, by decide, by decide, ?_⟩
  rw [concatenates_iff_strings]
  decide

end NexusRuntime.Filters.Utf8String
