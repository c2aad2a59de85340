import NexusRuntime.Transition.System

namespace Transition.System

variable {S L : Type} (M : System S L)

def Stuck (Q : S → L → Prop) (s : S) : Prop := ∀ l t, M.step s l = some t → ¬ Q s l

-- however the steps that keep to Q are chosen, they come to an end, and P holds there
structure Settles (Q : S → L → Prop) (P : S → Prop) (s : S) : Prop where
  bounded : ∃ n, ∀ ls t, M.run s ls = some t → M.meets Q s ls → ls.length ≤ n
  right : ∀ ls t, M.run s ls = some t → M.meets Q s ls → M.Stuck Q t → P t

variable {M} {Q : S → L → Prop} {P : S → Prop}

theorem run_snoc {s t u : S} {ls : List L} {l : L} (h : M.run s ls = some t)
    (hu : M.step t l = some u) : M.run s (ls ++ [l]) = some u := by
  simp [run_append, h, run_cons, hu]

theorem meets_snoc {s t : S} {ls : List L} {l : L} (h : M.meets Q s ls)
    (hrun : M.run s ls = some t) (hl : Q t l) : M.meets Q s (ls ++ [l]) := by
  induction ls generalizing s with
  | nil =>
    obtain rfl := Option.some.inj hrun
    rw [List.nil_append, meets]
    cases M.step s l with
    | none => trivial
    | some u => exact ⟨hl, trivial⟩
  | cons x ls ih =>
    rw [run_cons] at hrun
    simp only [List.cons_append, meets] at h ⊢
    cases hx : M.step s x with
    | none => trivial
    | some u =>
      rw [hx] at hrun h
      exact ⟨h.1, ih h.2 hrun⟩

theorem measure_run {Inv : S → Prop} {μ : S → Nat}
    (hstep : ∀ s l t, Inv s → Q s l → M.step s l = some t → Inv t ∧ μ t < μ s)
    {s t : S} {ls : List L} (hs : Inv s) (hrun : M.run s ls = some t) (hm : M.meets Q s ls) :
    Inv t ∧ μ t + ls.length ≤ μ s := by
  induction ls generalizing s with
  | nil =>
    obtain rfl := Option.some.inj hrun
    exact ⟨hs, Nat.le_refl _⟩
  | cons l ls ih =>
    rw [run_cons] at hrun
    simp only [meets] at hm
    cases hl : M.step s l with
    | none => simp [hl] at hrun
    | some u =>
      rw [hl] at hrun hm
      obtain ⟨hu, hlt⟩ := hstep s l u hs hm.1 hl
      obtain ⟨ht, hle⟩ := ih hu hrun hm.2
      refine ⟨ht, ?_⟩
      rw [List.length_cons]
      omega

theorem settles_of_measure {Inv : S → Prop} {μ : S → Nat}
    (hstep : ∀ s l t, Inv s → Q s l → M.step s l = some t → Inv t ∧ μ t < μ s)
    (hstuck : ∀ s, Inv s → M.Stuck Q s → P s) {s : S} (hs : Inv s) : M.Settles Q P s where
  bounded := by
    refine ⟨μ s, ?_⟩
    intro ls t hrun hm
    have := (measure_run hstep hs hrun hm).2
    omega
  right := by
    intro ls t hrun hm ht
    exact hstuck t (measure_run hstep hs hrun hm).1 ht

theorem exists_step_of_not_stuck {s : S} (h : ¬ M.Stuck Q s) :
    ∃ l t, M.step s l = some t ∧ Q s l := by
  unfold Stuck at h
  push Not at h
  exact h

theorem Settles.reached {s : S} (h : M.Settles Q P s) :
    ∃ ls t, M.run s ls = some t ∧ M.meets Q s ls ∧ M.Stuck Q t ∧ P t := by
  obtain ⟨n, hn⟩ := h.bounded
  by_contra hnone
  have hlong : ∀ k, ∃ ls t, M.run s ls = some t ∧ M.meets Q s ls ∧ ls.length = k := by
    intro k
    induction k with
    | zero => exact ⟨[], s, rfl, trivial, rfl⟩
    | succ k ih =>
      obtain ⟨ls, t, hrun, hm, hlen⟩ := ih
      have hgo : ¬ M.Stuck Q t := by
        intro ht
        exact hnone ⟨ls, t, hrun, hm, ht, h.right ls t hrun hm ht⟩
      obtain ⟨l, u, hu, hl⟩ := exists_step_of_not_stuck hgo
      exact ⟨ls ++ [l], u, run_snoc hrun hu, meets_snoc hm hrun hl, by simp [hlen]⟩
  obtain ⟨ls, t, hrun, hm, hlen⟩ := hlong (n + 1)
  have := hn ls t hrun hm
  omega

variable (M) in
def Reaches (A : L → Prop) (s t : S) : Prop := ∃ ls, (∀ l ∈ ls, A l) ∧ M.run s ls = some t

variable {A : L → Prop}

theorem reaches_self (s : S) : M.Reaches A s s := ⟨[], by simp, rfl⟩

theorem Reaches.trans {s t u : S} (h : M.Reaches A s t) (h' : M.Reaches A t u) :
    M.Reaches A s u := by
  obtain ⟨xs, hxs, hrun⟩ := h
  obtain ⟨ys, hys, hrun'⟩ := h'
  refine ⟨xs ++ ys, ?_, by simp [run_append, hrun, hrun']⟩
  intro l hl
  exact (List.mem_append.mp hl).elim (hxs l) (hys l)

theorem reaches_of_progress {Inv : S → Prop} {μ : S → Nat}
    (hprogress : ∀ s, Inv s → ¬ P s → ∃ l t, A l ∧ M.step s l = some t ∧ Inv t ∧ μ t < μ s) {s : S}
    (hs : Inv s) : ∃ t, M.Reaches A s t ∧ Inv t ∧ P t := by
  induction hn : μ s using Nat.strongRecOn generalizing s with
  | ind n ih =>
    by_cases hp : P s
    · exact ⟨s, reaches_self s, hs, hp⟩
    · obtain ⟨l, t, hl, ht, hinv, hlt⟩ := hprogress s hs hp
      obtain ⟨u, hu, hgoal⟩ := ih (μ t) (hn ▸ hlt) hinv rfl
      have hfirst : M.Reaches A s t := by
        refine ⟨[l], ?_, by simp [run_cons, ht]⟩
        intro x hx
        rwa [List.mem_singleton.mp hx]
      exact ⟨u, hfirst.trans hu, hgoal⟩

end Transition.System
