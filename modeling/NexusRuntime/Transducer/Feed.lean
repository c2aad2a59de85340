import Mathlib.Data.List.Basic

namespace Transducer

structure Machine (α β ε : Type) where
  State : Type
  fresh : State
  read : State → α → Except ε (State × List β)
  finish : State → Except ε (List β)

structure Fed (β ε S : Type) where
  out : List β
  result : Except ε S

namespace Machine
variable {α β ε : Type} (t : Machine α β ε)

def feed : t.State → List α → Fed β ε t.State
  | c, [] => ⟨[], .ok c⟩
  | c, x :: xs =>
    match t.read c x with
    | .error e => ⟨[], .error e⟩
    | .ok (d, w) => ⟨w ++ (feed d xs).out, (feed d xs).result⟩

def convertFrom (c : t.State) (xs : List α) : Except ε (List β) :=
  match (t.feed c xs).result with
  | .error e => .error e
  | .ok d => (t.finish d).map ((t.feed c xs).out ++ ·)

def convert (xs : List α) : Except ε (List β) := t.convertFrom t.fresh xs

def Settled (c : t.State) : Prop := t.finish c = .ok []

theorem feed_append_ok {c d : t.State} {xs : List α} (h : (t.feed c xs).result = .ok d)
    (ys : List α) :
    t.feed c (xs ++ ys) = ⟨(t.feed c xs).out ++ (t.feed d ys).out, (t.feed d ys).result⟩ := by
  induction xs generalizing c with
  | nil =>
    obtain rfl : c = d := by simpa [feed] using h
    rfl
  | cons x xs ih =>
    cases hr : t.read c x with
    | error e => simp [feed, hr] at h
    | ok p =>
      obtain ⟨e, w⟩ := p
      simp only [feed, hr] at h
      have := ih h
      simp only [List.cons_append, feed, hr, this, List.append_assoc]

theorem feed_append_error {c : t.State} {xs : List α} {e : ε}
    (h : (t.feed c xs).result = .error e) (ys : List α) :
    (t.feed c (xs ++ ys)).result = .error e := by
  induction xs generalizing c with
  | nil => simp [feed] at h
  | cons x xs ih =>
    cases hr : t.read c x with
    | error f => simpa [feed, hr] using h
    | ok p =>
      obtain ⟨d, w⟩ := p
      simp only [feed, hr] at h
      simpa only [List.cons_append, feed, hr] using ih h

def feedChunks : t.State → List (List α) → Fed β ε t.State
  | c, [] => ⟨[], .ok c⟩
  | c, x :: xs =>
    match (t.feed c x).result with
    | .error e => ⟨(t.feed c x).out, .error e⟩
    | .ok d => ⟨(t.feed c x).out ++ (feedChunks d xs).out, (feedChunks d xs).result⟩

theorem feedChunks_result (c : t.State) (xs : List (List α)) :
    (t.feedChunks c xs).result = (t.feed c xs.flatten).result := by
  induction xs generalizing c with
  | nil => rfl
  | cons x xs ih =>
    rw [List.flatten_cons, feedChunks]
    cases hr : (t.feed c x).result with
    | error e => exact (t.feed_append_error hr xs.flatten).symm
    | ok d =>
      rw [t.feed_append_ok hr]
      exact ih d

theorem feedChunks_out {c d : t.State} {xs : List (List α)}
    (h : (t.feedChunks c xs).result = .ok d) :
    (t.feedChunks c xs).out = (t.feed c xs.flatten).out := by
  induction xs generalizing c with
  | nil => rfl
  | cons x xs ih =>
    rw [List.flatten_cons]
    cases hr : (t.feed c x).result with
    | error e => simp [feedChunks, hr] at h
    | ok b =>
      simp only [feedChunks, hr] at h ⊢
      rw [t.feed_append_ok hr, ih h]

theorem out_eq_convert_iff {c d : t.State} {xs : List α} (h : (t.feed c xs).result = .ok d) :
    t.convertFrom c xs = .ok (t.feed c xs).out ↔ t.Settled d := by
  rw [convertFrom, h, Settled]
  cases hd : t.finish d with
  | error e => simp [Except.map, hd]
  | ok w => simp [Except.map, hd]

end Machine
end Transducer
