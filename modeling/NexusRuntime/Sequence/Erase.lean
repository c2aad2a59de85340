import Mathlib.Data.List.Infix

namespace Sequence

variable {A : Type}

def eraseAt (xs : List A) (i : Nat) : Option (List A) :=
  if i < xs.length then some (xs.eraseIdx i) else none

def eraseEach (xs : List A) (positions : List Nat) : Option (List A) :=
  positions.foldlM eraseAt xs

@[simp] theorem eraseEach_nil (xs : List A) : eraseEach xs [] = some xs := rfl

theorem eraseEach_cons (xs : List A) (i : Nat) (ps : List Nat) :
    eraseEach xs (i :: ps) = (eraseAt xs i).bind fun ys => eraseEach ys ps := rfl

theorem eraseAt_middle (xs ys : List A) (x : A) :
    eraseAt (xs ++ x :: ys) xs.length = some (xs ++ ys) := by
  simp [eraseAt, List.eraseIdx_append_of_length_le]

theorem eraseEach_sublist {xs ys : List A} {ps : List Nat} (h : eraseEach xs ps = some ys) :
    ys.Sublist xs := by
  induction ps generalizing xs with
  | nil =>
    obtain rfl : xs = ys := by simpa using h
    exact List.Sublist.refl xs
  | cons i ps ih =>
    rw [eraseEach_cons] at h
    obtain ⟨zs, hz, hy⟩ := Option.bind_eq_some_iff.mp h
    simp only [eraseAt] at hz
    split at hz
    · obtain rfl := Option.some.inj hz
      exact (ih hy).trans (List.eraseIdx_sublist xs i)
    · cases hz

theorem split_first (p : A → Bool) (xs : List A) (h : 0 < xs.countP p) :
    ∃ as x bs, xs = as ++ x :: bs ∧ p x = true ∧ ∀ a ∈ as, p a = false := by
  induction xs with
  | nil => simp at h
  | cons y ys ih =>
    cases hy : p y with
    | true => exact ⟨[], y, ys, rfl, hy, by simp⟩
    | false =>
      obtain ⟨as, x, bs, rfl, hx, ha⟩ := ih (by simpa [List.countP_cons, hy] using h)
      refine ⟨y :: as, x, bs, rfl, hx, ?_⟩
      intro a hm
      rcases List.mem_cons.mp hm with rfl | hm
      · exact hy
      · exact ha a hm

theorem findIdxs_split {p : A → Bool} {as bs : List A} {x : A} (s : Nat) (hx : p x = true)
    (ha : ∀ a ∈ as, p a = false) :
    (as ++ x :: bs).findIdxs p s = (s + as.length) :: bs.findIdxs p (s + as.length + 1) := by
  rw [List.findIdxs_append, List.findIdxs_cons, if_pos hx,
    List.findIdxs_eq_nil_iff.mpr ha, List.nil_append]

theorem filter_split {p : A → Bool} {as bs : List A} {x : A} (hx : p x = true)
    (ha : ∀ a ∈ as, p a = false) :
    (as ++ x :: bs).filter (fun a => !p a) = as ++ bs.filter (fun a => !p a) := by
  have hself : as.filter (fun a => !p a) = as :=
    List.filter_eq_self.mpr (fun a hm => by simp [ha a hm])
  simp [List.filter_append, hself, hx]

theorem countP_split {p : A → Bool} {as bs : List A} {x : A} (hx : p x = true)
    (ha : ∀ a ∈ as, p a = false) : (as ++ x :: bs).countP p = bs.countP p + 1 := by
  have hz : as.countP p = 0 := List.countP_eq_zero.mpr (fun a hm => by simp [ha a hm])
  simp [List.countP_append, hz, hx]

theorem eraseEach_of_few {p : A → Bool} {xs : List A} (h : xs.countP p ≤ 1) :
    eraseEach xs (xs.findIdxs p) = some (xs.filter fun a => !p a) := by
  rcases Nat.eq_zero_or_pos (xs.countP p) with hz | hz
  · have hno : ∀ a ∈ xs, p a = false := by simpa [List.countP_eq_zero] using hz
    rw [List.findIdxs_eq_nil_iff.mpr hno, eraseEach_nil]
    exact congrArg some (List.filter_eq_self.mpr (fun a ha => by simp [hno a ha])).symm
  · obtain ⟨as, x, bs, rfl, hx, ha⟩ := split_first p xs hz
    rw [countP_split hx ha] at h
    have hb : ∀ b ∈ bs, p b = false := by
      simpa [List.countP_eq_zero] using (show bs.countP p = 0 by omega)
    rw [findIdxs_split 0 hx ha, List.findIdxs_eq_nil_iff.mpr hb, filter_split hx ha,
      List.filter_eq_self.mpr (fun b hm => by simp [hb b hm]), Nat.zero_add, eraseEach_cons,
      eraseAt_middle]
    rfl

end Sequence
