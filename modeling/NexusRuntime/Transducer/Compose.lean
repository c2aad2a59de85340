import NexusRuntime.Transducer.Feed

namespace Transducer.Machine

variable {α β γ ε : Type}

def compose (t : Machine α β ε) (u : Machine β γ ε) : Machine α γ ε where
  State := t.State × u.State
  fresh := (t.fresh, u.fresh)
  read s x :=
    match t.read s.1 x with
    | .error e => .error e
    | .ok (c, ys) =>
      match (u.feed s.2 ys).result with
      | .error e => .error e
      | .ok d => .ok ((c, d), (u.feed s.2 ys).out)
  finish s :=
    match t.finish s.1 with
    | .error e => .error e
    | .ok ys => u.convertFrom s.2 ys

def Leads (t : Machine α β ε) (c : t.State) (xs : List α) (ys : List β) (d : t.State) : Prop :=
  t.feed c xs = ⟨ys, .ok d⟩

def Passes (t : Machine α β ε) (xs : List α) (ys : List β) : Prop :=
  ∃ d, t.Leads t.fresh xs ys d

theorem leads_nil {t : Machine α β ε} {c d : t.State} {ys : List β} :
    t.Leads c [] ys d ↔ ys = [] ∧ d = c := by
  simp [Leads, feed, eq_comm]

theorem leads_cons {t : Machine α β ε} {c d : t.State} {x : α} {xs : List α} {ys : List β} :
    t.Leads c (x :: xs) ys d ↔
      ∃ e w v, t.read c x = .ok (e, w) ∧ t.Leads e xs v d ∧ ys = w ++ v := by
  simp only [Leads, feed]
  cases hr : t.read c x with
  | error e => simp
  | ok p =>
    obtain ⟨e, w⟩ := p
    simp only [Fed.mk.injEq]
    constructor
    · rintro ⟨hout, hresult⟩
      exact ⟨e, w, _, rfl, by rw [← hresult], hout.symm⟩
    · rintro ⟨e', w', v, hok, hfeed, hys⟩
      obtain ⟨rfl, rfl⟩ := Prod.mk.inj (Except.ok.inj hok)
      rw [hfeed]
      exact ⟨hys.symm, rfl⟩

theorem leads_append {t : Machine α β ε} {c d : t.State} {xs ys : List α} {zs : List β} :
    t.Leads c (xs ++ ys) zs d ↔
      ∃ e w v, t.Leads c xs w e ∧ t.Leads e ys v d ∧ zs = w ++ v := by
  induction xs generalizing c zs with
  | nil => simp [leads_nil]
  | cons x xs ih =>
    simp only [List.cons_append, leads_cons, ih]
    constructor
    · rintro ⟨e, w, v, hread, ⟨e', w', v', hx, hy, rfl⟩, rfl⟩
      exact ⟨e', w ++ w', v', ⟨e, w, w', hread, hx, rfl⟩, hy, (List.append_assoc w w' v').symm⟩
    · rintro ⟨e', u, v', ⟨e, w, w', hread, hx, rfl⟩, hy, rfl⟩
      exact ⟨e, w, w' ++ v', hread, ⟨e', w', v', hx, hy, rfl⟩, List.append_assoc w w' v'⟩

theorem read_compose {t : Machine α β ε} {u : Machine β γ ε} {s s' : (t.compose u).State} {x : α}
    {zs : List γ} :
    (t.compose u).read s x = .ok (s', zs) ↔
      ∃ ys, t.read s.1 x = .ok (s'.1, ys) ∧ u.Leads s.2 ys zs s'.2 := by
  simp only [compose, Leads]
  cases hr : t.read s.1 x with
  | error e => simp
  | ok p =>
    obtain ⟨c, ys⟩ := p
    simp only [Except.ok.injEq, Prod.mk.injEq]
    cases hf : (u.feed s.2 ys).result with
    | error e =>
      constructor
      · intro h
        simp at h
      · rintro ⟨ys', ⟨-, rfl⟩, hfeed⟩
        simp [hfeed] at hf
    | ok d =>
      constructor
      · intro h
        obtain ⟨rfl, rfl⟩ := Prod.mk.inj (Except.ok.inj h)
        exact ⟨ys, ⟨rfl, rfl⟩, by rw [← hf]⟩
      · rintro ⟨ys', ⟨hc, rfl⟩, hfeed⟩
        rw [hfeed] at hf ⊢
        have hs : (c, d) = s' := Prod.ext hc (Except.ok.inj hf).symm
        rw [← hs]

theorem leads_compose {t : Machine α β ε} {u : Machine β γ ε} {s s' : (t.compose u).State}
    {xs : List α} {zs : List γ} :
    (t.compose u).Leads s xs zs s' ↔ ∃ ys, t.Leads s.1 xs ys s'.1 ∧ u.Leads s.2 ys zs s'.2 := by
  induction xs generalizing s zs with
  | nil =>
    simp only [leads_nil]
    constructor
    · rintro ⟨rfl, rfl⟩
      exact ⟨[], ⟨rfl, rfl⟩, by simp [leads_nil]⟩
    · rintro ⟨ys, ⟨rfl, hfst⟩, h⟩
      obtain ⟨rfl, hsnd⟩ := leads_nil.mp h
      exact ⟨rfl, Prod.ext hfst hsnd⟩
  | cons x xs ih =>
    simp only [leads_cons, read_compose, ih]
    constructor
    · rintro ⟨e, w, v, ⟨ys, hread, hys⟩, ⟨ys', hrest, hys'⟩, rfl⟩
      exact ⟨ys ++ ys', ⟨e.1, ys, ys', hread, hrest, rfl⟩, leads_append.mpr ⟨e.2, w, v, hys, hys', rfl⟩⟩
    · rintro ⟨-, ⟨c, ys, ys', hread, hrest, rfl⟩, h⟩
      obtain ⟨d, w, v, hys, hys', rfl⟩ := leads_append.mp h
      exact ⟨(c, d), w, v, ⟨ys, hread, hys⟩, ⟨ys', hrest, hys'⟩, rfl⟩

theorem passes_compose {t : Machine α β ε} {u : Machine β γ ε} {xs : List α} {zs : List γ} :
    (t.compose u).Passes xs zs ↔ ∃ ys, t.Passes xs ys ∧ u.Passes ys zs := by
  simp only [Passes, leads_compose]
  constructor
  · rintro ⟨s, ys, ht, hu⟩
    exact ⟨ys, ⟨s.1, ht⟩, s.2, hu⟩
  · rintro ⟨ys, ⟨c, ht⟩, d, hu⟩
    exact ⟨(c, d), ys, ht, hu⟩

end Transducer.Machine
