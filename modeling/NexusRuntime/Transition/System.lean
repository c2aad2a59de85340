import Mathlib.Data.List.Basic

namespace Transition

structure System (S L : Type) where
  step : S → L → Option S

namespace System
variable {S L : Type} (M : System S L)

def run : S → List L → Option S
  | s, [] => some s
  | s, l :: ls => (M.step s l).bind fun t => run t ls

def always (P : S → Prop) : S → List L → Prop
  | s, [] => P s
  | s, l :: ls => P s ∧ match M.step s l with
      | some t => always P t ls
      | none => True

def meets (C : S → L → Prop) : S → List L → Prop
  | _, [] => True
  | s, l :: ls => match M.step s l with
      | some t => C s l ∧ meets C t ls
      | none => True

@[simp] theorem run_nil (s : S) : M.run s [] = some s := rfl

theorem run_cons (s : S) (l : L) (ls : List L) :
    M.run s (l :: ls) = (M.step s l).bind fun t => M.run t ls := rfl

theorem run_append (s : S) (xs ys : List L) :
    M.run s (xs ++ ys) = (M.run s xs).bind fun t => M.run t ys := by
  induction xs generalizing s with
  | nil => rfl
  | cons l xs ih =>
    rw [List.cons_append, run_cons, run_cons]
    cases M.step s l with
    | none => rfl
    | some t => simpa using ih t

-- one label taken again and again
theorem run_replicate {P : Nat → S → Prop} {l : L}
    (hstep : ∀ k s t, P k s → M.step s l = some t → P (k + 1) t) {n k : Nat} {s t : S} (hs : P k s)
    (h : M.run s (List.replicate n l) = some t) : P (k + n) t := by
  induction n generalizing k s with
  | zero =>
    cases h
    exact hs
  | succ n ih =>
    rw [List.replicate_succ, run_cons] at h
    obtain ⟨u, hu, h⟩ := Option.bind_eq_some_iff.mp h
    rw [Nat.add_comm n, ← Nat.add_assoc]
    exact ih (hstep k s u hs hu) h

theorem always_head {P : S → Prop} {s : S} {ls : List L} (h : M.always P s ls) : P s := by
  cases ls with
  | nil => exact h
  | cons l ls => exact h.1

theorem always_iff_prefixes (P : S → Prop) (s : S) (ls : List L) :
    M.always P s ls ↔ ∀ xs, xs <+: ls → ∀ t, M.run s xs = some t → P t := by
  induction ls generalizing s with
  | nil =>
    simp only [always, List.prefix_nil, forall_eq, run_nil, Option.some.injEq, forall_eq']
  | cons l ls ih =>
    constructor
    · intro h xs hxs t ht
      cases xs with
      | nil =>
        obtain rfl : s = t := by simpa using ht
        exact h.1
      | cons x xs =>
        obtain ⟨rfl, hp⟩ := List.cons_prefix_cons.mp hxs
        rw [run_cons] at ht
        cases hm : M.step s x with
        | none => simp [hm] at ht
        | some u =>
          have hu : M.always P u ls := by simpa only [hm] using h.2
          exact (ih u).mp hu xs hp t (by simpa [hm] using ht)
    · intro h
      refine ⟨h [] (List.nil_prefix) s rfl, ?_⟩
      cases hm : M.step s l with
      | none => trivial
      | some u =>
        apply (ih u).mpr
        intro xs hxs t ht
        exact h (l :: xs) (List.cons_prefix_cons.mpr ⟨rfl, hxs⟩) t (by simpa [run_cons, hm] using ht)

theorem always_of_meets_on {Inv P : S → Prop} {C : S → L → Prop} {Q : L → Prop}
    (hP : ∀ s, Inv s → P s)
    (hstep : ∀ s l t, Inv s → Q l → C s l → M.step s l = some t → Inv t)
    {s : S} {ls : List L} (hs : Inv s) (hQ : ∀ l ∈ ls, Q l) (hm : M.meets C s ls) :
    M.always P s ls := by
  induction ls generalizing s with
  | nil => exact hP s hs
  | cons l ls ih =>
    refine ⟨hP s hs, ?_⟩
    simp only [meets] at hm
    cases ht : M.step s l with
    | none => trivial
    | some t =>
      rw [ht] at hm
      have hl : Q l := hQ l (List.mem_cons_self ..)
      exact ih (hstep s l t hs hl hm.1 ht) (fun x hx => hQ x (List.mem_cons_of_mem l hx)) hm.2

theorem meets_of_always_on {Inv P : S → Prop} {C : S → L → Prop} {Q : L → Prop}
    (hneed : ∀ s l t, Inv s → Q l → M.step s l = some t → P t → C s l)
    (hstep : ∀ s l t, Inv s → Q l → C s l → M.step s l = some t → Inv t)
    {s : S} {ls : List L} (hs : Inv s) (hQ : ∀ l ∈ ls, Q l) (ha : M.always P s ls) :
    M.meets C s ls := by
  induction ls generalizing s with
  | nil => trivial
  | cons l ls ih =>
    simp only [meets]
    have hrest := ha.2
    cases ht : M.step s l with
    | none => trivial
    | some t =>
      rw [ht] at hrest
      have hl : Q l := hQ l (List.mem_cons_self ..)
      have hc := hneed s l t hs hl ht (M.always_head hrest)
      exact ⟨hc, ih (hstep s l t hs hl hc ht) (fun x hx => hQ x (List.mem_cons_of_mem l hx)) hrest⟩

theorem always_iff_meets_on {Inv P : S → Prop} {C : S → L → Prop} {Q : L → Prop}
    (hP : ∀ s, Inv s → P s)
    (hneed : ∀ s l t, Inv s → Q l → M.step s l = some t → P t → C s l)
    (hstep : ∀ s l t, Inv s → Q l → C s l → M.step s l = some t → Inv t)
    {s : S} (hs : Inv s) {ls : List L} (hQ : ∀ l ∈ ls, Q l) : M.always P s ls ↔ M.meets C s ls :=
  ⟨M.meets_of_always_on hneed hstep hs hQ, M.always_of_meets_on hP hstep hs hQ⟩

theorem always_of_meets {Inv P : S → Prop} {C : S → L → Prop}
    (hP : ∀ s, Inv s → P s)
    (hstep : ∀ s l t, Inv s → C s l → M.step s l = some t → Inv t)
    {s : S} {ls : List L} (hs : Inv s) (hm : M.meets C s ls) : M.always P s ls :=
  M.always_of_meets_on hP (fun s l t hi (_ : True) => hstep s l t hi) hs (fun _ _ => trivial) hm

theorem always_iff_meets {Inv P : S → Prop} {C : S → L → Prop}
    (hP : ∀ s, Inv s → P s)
    (hneed : ∀ s l t, Inv s → M.step s l = some t → P t → C s l)
    (hstep : ∀ s l t, Inv s → C s l → M.step s l = some t → Inv t)
    {s : S} (hs : Inv s) (ls : List L) : M.always P s ls ↔ M.meets C s ls :=
  M.always_iff_meets_on hP (fun s l t hi (_ : True) => hneed s l t hi)
    (fun s l t hi _ => hstep s l t hi) hs (fun _ _ => trivial)

theorem always_of_steps {Inv P : S → Prop} (hP : ∀ s, Inv s → P s)
    (hstep : ∀ s l t, Inv s → M.step s l = some t → Inv t) {s : S} (hs : Inv s) (ls : List L) :
    M.always P s ls := by
  induction ls generalizing s with
  | nil => exact hP s hs
  | cons l ls ih =>
    refine ⟨hP s hs, ?_⟩
    cases ht : M.step s l with
    | none => trivial
    | some t => exact ih (hstep s l t hs ht)

theorem run_keeps {Inv : S → Prop} {Q : L → Prop}
    (hstep : ∀ s l t, Inv s → Q l → M.step s l = some t → Inv t) {s t : S} {ls : List L}
    (hs : Inv s) (hQ : ∀ l ∈ ls, Q l) (hrun : M.run s ls = some t) : Inv t := by
  induction ls generalizing s with
  | nil =>
    obtain rfl := Option.some.inj hrun
    exact hs
  | cons l ls ih =>
    rw [run_cons] at hrun
    obtain ⟨u, hu, hrun⟩ := Option.bind_eq_some_iff.mp hrun
    have hl : Q l := hQ l (List.mem_cons_self ..)
    exact ih (hstep s l u hs hl hu) (fun x hx => hQ x (List.mem_cons_of_mem l hx)) hrun

theorem meets_append {C : S → L → Prop} {s t : S} {xs ys : List L} (h : M.meets C s (xs ++ ys))
    (ht : M.run s xs = some t) : M.meets C t ys := by
  induction xs generalizing s with
  | nil =>
    cases ht
    exact h
  | cons x xs ih =>
    rw [run_cons] at ht
    simp only [List.cons_append, meets] at h
    cases hm : M.step s x with
    | none => simp [hm] at ht
    | some u =>
      rw [hm] at ht h
      exact ih h.2 ht

theorem meets_iff_meets {Inv : S → Prop} {C D : S → L → Prop}
    (hiff : ∀ s l t, Inv s → M.step s l = some t → (D s l ↔ C s l))
    (hstep : ∀ s l t, Inv s → C s l → M.step s l = some t → Inv t)
    {s : S} (hs : Inv s) (ls : List L) : M.meets D s ls ↔ M.meets C s ls := by
  induction ls generalizing s with
  | nil => exact Iff.rfl
  | cons l ls ih =>
    simp only [meets]
    cases ht : M.step s l with
    | none => exact Iff.rfl
    | some t =>
      constructor
      · intro h
        have hc := (hiff s l t hs ht).mp h.1
        exact ⟨hc, (ih (hstep s l t hs hc ht)).mp h.2⟩
      · intro h
        exact ⟨(hiff s l t hs ht).mpr h.1, (ih (hstep s l t hs h.1 ht)).mpr h.2⟩

instance decidableAlways (P : S → Prop) [DecidablePred P] :
    ∀ (s : S) (ls : List L), Decidable (M.always P s ls)
  | s, [] => inferInstanceAs (Decidable (P s))
  | s, l :: ls =>
    match h : M.step s l with
    | none => decidable_of_iff (P s) (by simp [always, h])
    | some t =>
      have := decidableAlways P t ls
      decidable_of_iff (P s ∧ M.always P t ls) (by simp [always, h])

instance decidableMeets (C : S → L → Prop) [∀ s l, Decidable (C s l)] :
    ∀ (s : S) (ls : List L), Decidable (M.meets C s ls)
  | _, [] => .isTrue trivial
  | s, l :: ls =>
    match h : M.step s l with
    | none => .isTrue (by simp [meets, h])
    | some t =>
      have := decidableMeets C t ls
      decidable_of_iff (C s l ∧ M.meets C t ls) (by simp [meets, h])

end System
end Transition
