import Mathlib.Data.List.Basic

namespace Transition

variable {P E : Type}

inductive Next (P E : Type) where
  | again (p : P)
  | stop (e : E)
deriving DecidableEq, Repr

def follow (next : P → Next P E) : Nat → P → Option (List P × E)
  | 0, _ => none
  | fuel + 1, p =>
    match next p with
    | .again q => (follow next fuel q).map fun r => (p :: r.1, r.2)
    | .stop e => some ([p], e)

def Ends (next : P → Next P E) (p : P) (visited : List P) (e : E) : Prop :=
  ∃ fuel, follow next fuel p = some (visited, e)

variable {f g : P → Next P E} {p q : P} {v w : List P} {d e : E}

theorem ends_stop (h : f p = .stop e) : Ends f p [p] e := ⟨1, by rw [follow, h]⟩

theorem ends_again (h : f p = .again q) (hq : Ends f q v e) : Ends f p (p :: v) e := by
  obtain ⟨fuel, hfuel⟩ := hq
  refine ⟨fuel + 1, ?_⟩
  rw [follow, h]
  simp only [hfuel, Option.map_some]

theorem ends_cases (h : Ends f p v e) :
    f p = .stop e ∧ v = [p] ∨ ∃ q u, f p = .again q ∧ v = p :: u ∧ Ends f q u e := by
  obtain ⟨fuel, hfuel⟩ := h
  cases fuel with
  | zero => cases hfuel
  | succ fuel =>
    rw [follow] at hfuel
    cases hp : f p with
    | stop e' =>
      rw [hp] at hfuel
      cases hfuel
      exact .inl ⟨rfl, rfl⟩
    | again q =>
      rw [hp] at hfuel
      obtain ⟨⟨u, e'⟩, hu, heq⟩ := Option.map_eq_some_iff.mp hfuel
      cases heq
      exact .inr ⟨q, u, rfl, rfl, fuel, hu⟩

theorem ends_induction {motive : P → List P → E → Prop}
    (stop : ∀ p e, f p = .stop e → motive p [p] e)
    (again : ∀ p q v e, f p = .again q → Ends f q v e → motive q v e → motive p (p :: v) e)
    (h : Ends f p v e) : motive p v e := by
  obtain ⟨fuel, hfuel⟩ := h
  induction fuel generalizing p v with
  | zero => cases hfuel
  | succ fuel ih =>
    rw [follow] at hfuel
    cases hp : f p with
    | stop e' =>
      rw [hp] at hfuel
      cases hfuel
      exact stop p _ hp
    | again q =>
      rw [hp] at hfuel
      obtain ⟨⟨u, e'⟩, hu, heq⟩ := Option.map_eq_some_iff.mp hfuel
      cases heq
      exact again p q u _ hp ⟨fuel, hu⟩ (ih hu)

theorem ends_unique (h : Ends f p v d) (k : Ends f p w e) : v = w ∧ d = e := by
  refine ends_induction (motive := fun p v d => ∀ w, Ends f p w e → v = w ∧ d = e) ?_ ?_ h w k
  · intro p d hp w k
    rcases ends_cases k with ⟨hstop, rfl⟩ | ⟨q, u, hagain, -, -⟩
    · rw [hp] at hstop
      cases hstop
      exact ⟨rfl, rfl⟩
    · rw [hp] at hagain
      cases hagain
  · intro p q v d hp _ ih w k
    rcases ends_cases k with ⟨hstop, -⟩ | ⟨q', u, hagain, rfl, hu⟩
    · rw [hp] at hstop
      cases hstop
    · rw [hp] at hagain
      cases hagain
      obtain ⟨rfl, rfl⟩ := ih u hu
      exact ⟨rfl, rfl⟩

theorem ends_head (h : Ends f p v e) : ∃ u, v = p :: u := by
  rcases ends_cases h with ⟨-, rfl⟩ | ⟨q, u, -, rfl, -⟩
  · exact ⟨[], rfl⟩
  · exact ⟨u, rfl⟩

-- two searches that stop alike visit the same exactly when they go on alike wherever they have been
theorem same_visits_iff (hstop : ∀ p d e, f p = .stop d → g p = .stop e → d = e) (h : Ends f p v d)
    (k : Ends g p w e) : v = w ∧ d = e ↔ ∀ q ∈ w, f q = g q := by
  refine ends_induction
    (motive := fun p w e => ∀ v, Ends f p v d → (v = w ∧ d = e ↔ ∀ q ∈ w, f q = g q)) ?_ ?_ k v h
  · intro p e hp v h
    rw [List.forall_mem_singleton, hp]
    rcases ends_cases h with ⟨hf, rfl⟩ | ⟨q, u, hf, rfl, hu⟩
    · rw [hf, hstop p d e hf hp]
      exact iff_of_true ⟨rfl, rfl⟩ rfl
    · obtain ⟨u', rfl⟩ := ends_head hu
      rw [hf]
      exact iff_of_false (by simp) (by simp)
  · intro p q w e hp hw ih v h
    rw [List.forall_mem_cons, hp]
    rcases ends_cases h with ⟨hf, rfl⟩ | ⟨q', u, hf, rfl, hu⟩
    · obtain ⟨w', rfl⟩ := ends_head hw
      rw [hf]
      exact iff_of_false (by simp) (by simp)
    · rw [hf, Next.again.injEq]
      constructor
      · rintro ⟨hv, rfl⟩
        obtain rfl := List.cons_inj_right p |>.mp hv
        obtain ⟨x, hx⟩ := ends_head hu
        obtain ⟨y, hy⟩ := ends_head hw
        obtain rfl : q' = q := by
          rw [hx] at hy
          exact (List.cons.inj hy).1
        exact ⟨rfl, (ih u hu).mp ⟨rfl, rfl⟩⟩
      · rintro ⟨rfl, hrest⟩
        obtain ⟨rfl, rfl⟩ := (ih u hu).mpr hrest
        exact ⟨rfl, rfl⟩

theorem ends_agree (hstop : ∀ p d e, f p = .stop d → g p = .stop e → d = e) (h : Ends f p v d)
    (k : Ends g p v e) : d = e := by
  refine ends_induction (motive := fun p v d => ∀ e, Ends g p v e → d = e) ?_ ?_ h e k
  · intro p d hf e k
    rcases ends_cases k with ⟨hg, -⟩ | ⟨q, u, -, heq, hu⟩
    · exact hstop p d e hf hg
    · obtain ⟨u', rfl⟩ := ends_head hu
      cases heq
  · intro p q v d hf hv ih e k
    rcases ends_cases k with ⟨-, heq⟩ | ⟨q', u, -, heq, hu⟩
    · obtain ⟨v', rfl⟩ := ends_head hv
      cases heq
    · cases heq
      obtain ⟨x, rfl⟩ := ends_head hv
      obtain ⟨y, heq⟩ := ends_head hu
      cases heq
      exact ih e hu

theorem same_path_iff (hstop : ∀ p d e, f p = .stop d → g p = .stop e → d = e) (h : Ends f p v d)
    (k : Ends g p w e) : (∀ q ∈ w, f q = g q) ↔ v = w := by
  rw [← same_visits_iff hstop h k]
  refine and_iff_left_of_imp ?_
  rintro rfl
  exact ends_agree hstop h k

-- a search that only ever goes on where another one does ends when that one does
theorem ends_of_ends {Q : P → Prop} (hagain : ∀ p q, Q p → f p = .again q → g p = .again q ∧ Q q)
    (hp : Q p) (h : Ends g p v e) : ∃ u d, Ends f p u d := by
  refine ends_induction (motive := fun p _ _ => Q p → ∃ u d, Ends f p u d) ?_ ?_ h hp
  · intro p e hg hp
    cases hf : f p with
    | stop d => exact ⟨_, d, ends_stop hf⟩
    | again q =>
      have := (hagain p q hp hf).1
      rw [hg] at this
      cases this
  · intro p q v e hg _ ih hp
    cases hf : f p with
    | stop d => exact ⟨_, d, ends_stop hf⟩
    | again q' =>
      obtain ⟨hq, hkept⟩ := hagain p q' hp hf
      rw [hg] at hq
      cases hq
      obtain ⟨u, d, hu⟩ := ih hkept
      exact ⟨_, d, ends_again hf hu⟩

end Transition
