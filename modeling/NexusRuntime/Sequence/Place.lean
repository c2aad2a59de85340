import Mathlib.Data.List.Basic

namespace Sequence

variable {A : Type} {xs : List A} {x : A} {i : Nat}

theorem countP_replace (p : A → Bool) (h : xs[i]? = some x) (y : A) :
    (xs.set i y).countP p + (if p x then 1 else 0) = xs.countP p + if p y then 1 else 0 := by
  obtain ⟨hi, hx⟩ := List.getElem?_eq_some_iff.mp h
  rw [List.countP_set hi, hx]
  have hpos (hp : p x = true) : 0 < xs.countP p :=
    List.countP_pos_iff.mpr ⟨x, List.mem_of_getElem? h, hp⟩
  by_cases hp : p x = true
  · have hpos := hpos hp
    simp only [hp, if_true]
    omega
  · simp only [if_neg hp]
    omega

theorem countP_replace_same {p : A → Bool} (h : xs[i]? = some x) {y : A} (hp : p y = p x) :
    (xs.set i y).countP p = xs.countP p := by
  have hc := countP_replace p h y
  rw [hp] at hc
  omega

theorem forall_replace {P : A → Prop} (hxs : ∀ a ∈ xs, P a) {y : A} (hy : P y) :
    ∀ a ∈ xs.set i y, P a := by
  intro a ha
  rcases List.mem_or_eq_of_mem_set ha with ha | rfl
  · exact hxs a ha
  · exact hy

theorem getElem?_replace {y z : A} {j : Nat} (h : (xs.set i y)[j]? = some z) :
    i = j ∧ z = y ∨ i ≠ j ∧ xs[j]? = some z := by
  rw [List.getElem?_set] at h
  split at h
  · next hij =>
    split at h
    · exact .inl ⟨hij, (Option.some.inj h).symm⟩
    · cases h
  · next hij => exact .inr ⟨hij, h⟩

theorem getElem?_snoc {y z : A} (h : (xs ++ [y])[i]? = some z) :
    xs[i]? = some z ∨ i = xs.length ∧ z = y := by
  rcases Nat.lt_trichotomy i xs.length with hlt | rfl | hgt
  · exact .inl (by rwa [List.getElem?_append_left hlt] at h)
  · exact .inr ⟨rfl, by simpa using h.symm⟩
  · rw [List.getElem?_eq_none (by simp; omega)] at h
    cases h

theorem forall_snoc {P : A → Prop} (hxs : ∀ a ∈ xs, P a) {y : A} (hy : P y) :
    ∀ a ∈ xs ++ [y], P a := by
  intro a ha
  rcases List.mem_append.mp ha with ha | ha
  · exact hxs a ha
  · rw [List.mem_singleton.mp ha]
    exact hy

theorem split_at (h : xs[i]? = some x) : xs = xs.take i ++ x :: xs.drop (i + 1) := by
  obtain ⟨hi, rfl⟩ := List.getElem?_eq_some_iff.mp h
  simp

theorem replace_split (h : xs[i]? = some x) (y : A) :
    xs.set i y = xs.take i ++ y :: xs.drop (i + 1) := by
  rw [List.set_eq_take_append_cons_drop, if_pos (List.getElem?_eq_some_iff.mp h).1]

theorem map_replace {B : Type} {f : A → B} {y : A} (h : xs[i]? = some x) (hf : f y = f x) :
    (xs.set i y).map f = xs.map f := by
  rw [replace_split h, List.map_append, List.map_cons, hf, ← List.map_cons, ← List.map_append,
    ← split_at h]

theorem zip_replace {B : Type} {ys : List B} {b : B} (hb : ys[i]? = some b) (y : A) :
    ys.zip (xs.set i y) = (ys.zip xs).set i (b, y) := by
  apply List.ext_getElem
  · simp
  · intro j h₁ h₂
    rw [List.getElem_zip, List.getElem_set, List.getElem_set, List.getElem_zip]
    by_cases hij : i = j
    · subst hij
      simp [(List.getElem?_eq_some_iff.mp hb).2]
    · simp [hij]

def total (w : A → Nat) : List A → Nat
  | [] => 0
  | x :: xs => w x + total w xs

theorem total_append (w : A → Nat) (xs ys : List A) :
    total w (xs ++ ys) = total w xs + total w ys := by
  induction xs with
  | nil => simp [total]
  | cons x xs ih => simp [total, ih, Nat.add_assoc]

theorem total_replicate (w : A → Nat) (n : Nat) (x : A) :
    total w (List.replicate n x) = n * w x := by
  induction n with
  | zero => simp [total]
  | succ n ih => rw [List.replicate_succ, total, ih, Nat.succ_mul, Nat.add_comm]

theorem total_replace (w : A → Nat) (h : xs[i]? = some x) (y : A) :
    total w (xs.set i y) + w x = total w xs + w y := by
  have hsplit : total w xs = total w (xs.take i ++ x :: xs.drop (i + 1)) := by rw [← split_at h]
  rw [hsplit, replace_split h, total_append, total_append, total, total]
  omega

theorem eq_singleton (hlen : xs.length ≤ 1) (h : xs[i]? = some x) : xs = [x] := by
  obtain ⟨hi, hx⟩ := List.getElem?_eq_some_iff.mp h
  obtain ⟨y, rfl⟩ := List.length_eq_one_iff.mp (by omega : xs.length = 1)
  rw [← hx, List.getElem_singleton]

theorem exists_replace {P : A → Prop} (h : xs[i]? = some x) (hx : ¬ P x) (hxs : ∃ a ∈ xs, P a)
    (y : A) : ∃ a ∈ xs.set i y, P a := by
  obtain ⟨a, ha, hp⟩ := hxs
  obtain ⟨j, hj, rfl⟩ := List.mem_iff_getElem.mp ha
  have hij : i ≠ j := by
    rintro rfl
    exact hx ((List.getElem?_eq_some_iff.mp h).2 ▸ hp)
  refine ⟨xs[j], List.mem_iff_getElem?.mpr ⟨j, ?_⟩, hp⟩
  rw [List.getElem?_set_ne hij, List.getElem?_eq_getElem hj]

theorem replace_others {p : A → Bool} (h : xs[i]? = some x) (hp : p x = true)
    (hone : xs.countP p ≤ 1) (y : A) : ∀ a ∈ xs.set i y, a = y ∨ p a = false := by
  obtain ⟨hi, rfl⟩ := List.getElem?_eq_some_iff.mp h
  rw [split_at h, List.countP_append, List.countP_cons_of_pos hp] at hone
  have hl : (xs.take i).countP p = 0 := by omega
  have hr : (xs.drop (i + 1)).countP p = 0 := by omega
  intro a ha
  rw [List.set_eq_take_append_cons_drop, if_pos hi] at ha
  rcases List.mem_append.mp ha with ha | ha
  · exact .inr (by simpa using List.countP_eq_zero.mp hl a ha)
  · rcases List.mem_cons.mp ha with rfl | ha
    · exact .inl rfl
    · exact .inr (by simpa using List.countP_eq_zero.mp hr a ha)

theorem countP_or_disjoint {p q r : A → Bool}
    (h : ∀ a ∈ xs, r a = (p a || q a) ∧ ¬ (p a = true ∧ q a = true)) :
    xs.countP r = xs.countP p + xs.countP q := by
  induction xs with
  | nil => rfl
  | cons x xs ih =>
    have ih := ih fun a ha => h a (List.mem_cons_of_mem x ha)
    obtain ⟨hr, hpq⟩ := h x (List.mem_cons_self ..)
    rw [List.countP_cons, List.countP_cons, List.countP_cons, ih, hr]
    cases hp : p x with
    | true =>
      have hq : q x = false := by simpa [hp] using hpq
      simp only [hq, Bool.or_false, if_true, Bool.false_eq_true, if_false]
      omega
    | false =>
      simp only [Bool.false_or, Bool.false_eq_true, if_false]
      omega

theorem length_le_countP {p : A → Bool} {places : List Nat} (hd : places.Nodup)
    (h : ∀ i ∈ places, ∃ a, xs[i]? = some a ∧ p a = true) : places.length ≤ xs.countP p := by
  have hsub : places ⊆ xs.findIdxs p := by
    intro i hi
    obtain ⟨a, ha, hp⟩ := h i hi
    obtain ⟨hlt, rfl⟩ := List.getElem?_eq_some_iff.mp ha
    exact (List.mem_findIdxs_iff_pos_getElem hlt).mpr hp
  rw [← List.length_findIdxs]
  exact hd.length_le_of_subset hsub

theorem count_erase_add [DecidableEq A] (h : x ∈ xs) (a : A) :
    (xs.erase x).count a + (if x = a then 1 else 0) = xs.count a := by
  by_cases hx : x = a
  · subst hx
    have hpos : 0 < xs.count x := List.count_pos_iff.mpr h
    rw [List.count_erase_self, if_pos rfl]
    omega
  · rw [List.count_erase_of_ne (Ne.symm hx), if_neg hx]
    omega

theorem count_snoc [DecidableEq A] (xs : List A) (x a : A) :
    (xs ++ [x]).count a = xs.count a + if x = a then 1 else 0 := by
  rw [List.count_append, List.count_singleton]
  simp only [beq_iff_eq]

theorem mapIdx_map {B C D : Type} (f : B → C) (g : Nat → C → D) (xs : List B) :
    (xs.map f).mapIdx g = xs.mapIdx fun k x => g k (f x) := by
  refine List.ext_getElem? fun k => ?_
  simp only [List.getElem?_mapIdx, List.getElem?_map, Option.map_map]
  rfl

end Sequence
