import Mathlib.Data.List.Forall2

namespace Wire

variable {α β ι : Type*}

def readAll (read : List β → Option (α × List β)) : Nat → List β → Option (List α)
  | _, [] => some []
  | 0, _ :: _ => none
  | fuel + 1, x :: xs =>
    (read (x :: xs)).bind fun p => (readAll read fuel p.2).map fun rs => p.1 :: rs

-- whatever follows w, a value good enough for Q is read from it just when P holds, and w is then used up
structure Delimits (read : List β → Option (α × List β)) (w : List β) (Q : α → Prop) (P : Prop) :
    Prop where
  nonempty : w ≠ []
  exact : P → ∃ r, Q r ∧ ∀ rest, read (w ++ rest) = some (r, rest)
  only : ∀ {rest r ys}, read (w ++ rest) = some (r, ys) → Q r → P

variable {read : List β → Option (α × List β)}

theorem readAll_append {w : List β} (hw : w ≠ []) (fuel : Nat) (rest : List β) :
    readAll read (fuel + 1) (w ++ rest) =
      (read (w ++ rest)).bind fun p => (readAll read fuel p.2).map fun rs => p.1 :: rs := by
  obtain ⟨x, xs, rfl⟩ := List.exists_cons_of_ne_nil hw
  rfl

theorem readAll_iff {w : ι → List β} {Q : ι → α → Prop} {P : ι → Prop}
    (h : ∀ i, Delimits read (w i) (Q i) (P i)) {is : List ι} {fuel : Nat} (hfuel : is.length ≤ fuel) :
    (∃ rs, readAll read fuel (is.flatMap w) = some rs ∧ List.Forall₂ Q is rs) ↔ ∀ i ∈ is, P i := by
  induction is generalizing fuel with
  | nil =>
    have hnil : readAll read fuel [] = some [] := by cases fuel <;> rfl
    exact ⟨fun _ i hi => absurd hi List.not_mem_nil, fun _ => ⟨[], hnil, .nil⟩⟩
  | cons i is ih =>
    obtain ⟨n, rfl⟩ := Nat.exists_eq_succ_of_ne_zero (Nat.ne_of_gt (Nat.lt_of_lt_of_le (Nat.succ_pos _) hfuel))
    have hrest := ih (Nat.le_of_succ_le_succ hfuel)
    rw [List.flatMap_cons, readAll_append (h i).nonempty, List.forall_mem_cons]
    constructor
    · rintro ⟨rs, hrs, hall⟩
      obtain ⟨⟨r, ys⟩, hr, hmap⟩ := Option.bind_eq_some_iff.mp hrs
      obtain ⟨rs, htail, rfl⟩ := Option.map_eq_some_iff.mp hmap
      obtain ⟨hq, hqs⟩ := List.forall₂_cons.mp hall
      have hp := (h i).only hr hq
      obtain ⟨r', -, hexact⟩ := (h i).exact hp
      rw [hexact] at hr
      obtain ⟨-, rfl⟩ := Prod.mk.inj (Option.some.inj hr)
      exact ⟨hp, hrest.mp ⟨rs, htail, hqs⟩⟩
    · rintro ⟨hp, hps⟩
      obtain ⟨r, hq, hexact⟩ := (h i).exact hp
      obtain ⟨rs, htail, hall⟩ := hrest.mpr hps
      refine ⟨r :: rs, ?_, .cons hq hall⟩
      rw [hexact, Option.bind_some, htail]
      rfl

theorem length_le_flatMap {w : ι → List β} (hw : ∀ i, w i ≠ []) (is : List ι) :
    is.length ≤ (is.flatMap w).length := by
  induction is with
  | nil => exact Nat.le_refl 0
  | cons i is ih =>
    have := List.length_pos_iff.mpr (hw i)
    rw [List.flatMap_cons, List.length_append, List.length_cons]
    omega

end Wire
