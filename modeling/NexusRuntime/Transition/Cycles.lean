import Mathlib.Data.Fintype.Card
import Mathlib.Logic.Relation

namespace Transition

open Relation

variable {P : Type} {r : P → P → Prop} {p q : P}

def OnCycle (r : P → P → Prop) (p : P) : Prop := TransGen r p p

theorem exists_next (h : OnCycle r p) : ∃ q, r p q ∧ OnCycle r q := by
  obtain ⟨q, hpq, hqp⟩ := TransGen.head'_iff.mp h
  exact ⟨q, hpq, TransGen.tail' hqp hpq⟩

-- a way from p that does not come back to p
theorem leaves_start (h : ReflTransGen r p q) :
    q = p ∨ ∃ s, s ≠ p ∧ r p s ∧ ReflTransGen (fun x y => r x y ∧ y ≠ p) s q := by
  induction h with
  | refl => exact .inl rfl
  | @tail a b hpa hab ih =>
    by_cases hb : b = p
    · exact .inl hb
    · right
      rcases ih with rfl | ⟨s, hs, hps, hsa⟩
      · exact ⟨b, hb, hab, .refl⟩
      · exact ⟨s, hs, hps, hsa.tail ⟨hab, hb⟩⟩

theorem wellFounded_of_no_cycle [Finite P] (h : ∀ p, ¬ OnCycle r p) :
    WellFounded fun q p => r p q := by
  have htrans : IsTrans P fun q p => TransGen r p q := ⟨fun _ _ _ hab hbc => hbc.trans hab⟩
  have hirrefl : Std.Irrefl fun q p => TransGen r p q := ⟨h⟩
  have hwf := Finite.wellFounded_of_trans_of_irrefl fun q p => TransGen r p q
  exact Subrelation.wf (fun hqp => TransGen.single hqp) hwf

end Transition
