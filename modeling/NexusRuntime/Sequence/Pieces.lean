import Mathlib.Data.Set.Finite.Lattice

namespace Sequence

variable {A : Type}

-- there are finitely many ways to cut the beginnings of a list into pieces
theorem exists_bound (f : List (List A) → Nat) (xs : List A) :
    ∃ n, ∀ cs, [] ∉ cs → cs.flatten <+: xs → f cs ≤ n := by
  induction hlen : xs.length using Nat.strongRecOn generalizing f xs with
  | ind m ih =>
    have hrest : ∀ k, ∃ n, k < m → ∀ cs, [] ∉ cs → cs.flatten <+: xs.drop (k + 1) →
        f (xs.take (k + 1) :: cs) ≤ n := by
      intro k
      by_cases hk : k < m
      · have hshort : (xs.drop (k + 1)).length = m - (k + 1) := by rw [List.length_drop, hlen]
        obtain ⟨n, hn⟩ := ih (m - (k + 1)) (by omega) (fun cs => f (xs.take (k + 1) :: cs)) _ hshort
        exact ⟨n, fun _ => hn⟩
      · exact ⟨0, fun h => absurd h hk⟩
    choose g hg using hrest
    obtain ⟨b, hb⟩ := ((Set.finite_lt_nat m).image g).bddAbove
    refine ⟨max (f []) b, ?_⟩
    intro cs hcs hpre
    cases cs with
    | nil => exact Nat.le_max_left _ _
    | cons c cs =>
      obtain ⟨hne, hcs⟩ := List.ne_and_not_mem_of_not_mem_cons hcs
      have hpos := List.length_pos_iff.mpr (Ne.symm hne)
      obtain ⟨rest, rfl⟩ := hpre
      simp only [List.flatten_cons, List.append_assoc, List.length_append] at hlen
      have hk : c.length - 1 < m := by omega
      have hsplit : c.length - 1 + 1 = c.length := by omega
      have hstep := hg (c.length - 1) hk cs hcs
      simp only [hsplit, List.flatten_cons, List.append_assoc, List.take_left, List.drop_left] at hstep
      have hle := hstep (List.prefix_append _ _)
      have hmax : g (c.length - 1) ≤ b := hb (Set.mem_image_of_mem g hk)
      exact Nat.le_trans (Nat.le_trans hle hmax) (Nat.le_max_right _ _)

end Sequence
