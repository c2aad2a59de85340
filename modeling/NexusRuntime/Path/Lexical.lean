import Mathlib.Data.List.Basic

namespace Path

inductive Kind where
  | skip | up | name
deriving DecidableEq, Repr

section Walk
variable {P : Type} (kind : P → Kind)

def move (stack : List P) (p : P) : List P :=
  match kind p with
  | .skip => stack
  | .up => stack.dropLast
  | .name => stack ++ [p]

def walk (stack ps : List P) : List P := ps.foldl (move kind) stack

structure Route (P : Type) where
  climb : Nat
  names : List P
deriving DecidableEq, Repr

def Route.extend (r : Route P) (p : P) : Route P :=
  match kind p with
  | .skip => r
  | .up => if r.names.isEmpty then ⟨r.climb + 1, []⟩ else ⟨r.climb, r.names.dropLast⟩
  | .name => ⟨r.climb, r.names ++ [p]⟩

def route (ps : List P) : Route P := ps.foldl (Route.extend kind) ⟨0, []⟩

def Route.follow (r : Route P) (stack : List P) : List P :=
  stack.take (stack.length - r.climb) ++ r.names

@[simp] theorem follow_nil (r : Route P) : r.follow [] = r.names := by
  simp [Route.follow]

@[simp] theorem follow_start (stack : List P) : (⟨0, []⟩ : Route P).follow stack = stack := by
  simp [Route.follow]

theorem dropLast_take (stack : List P) (n : Nat) (h : n ≤ stack.length) :
    (stack.take n).dropLast = stack.take (n - 1) := by
  rw [List.dropLast_eq_take, List.length_take, List.take_take]
  congr 1
  omega

theorem follow_extend (r : Route P) (stack : List P) (p : P) :
    (r.extend kind p).follow stack = move kind (r.follow stack) p := by
  unfold Route.extend move
  cases kind p with
  | skip => rfl
  | name => simp [Route.follow]
  | up =>
    cases hn : r.names.isEmpty with
    | true =>
      have hnil : r.names = [] := List.isEmpty_iff.mp hn
      simp only [if_true, Route.follow, hnil, List.append_nil]
      rw [dropLast_take stack _ (by omega), Nat.sub_sub]
    | false =>
      have hne : r.names ≠ [] := by
        intro h
        simp [h] at hn
      simp only [Bool.false_eq_true, if_false, Route.follow]
      rw [List.dropLast_append_of_ne_nil hne]

theorem follow_route (stack ps : List P) : (route kind ps).follow stack = walk kind stack ps := by
  have h : ∀ r : Route P, (ps.foldl (Route.extend kind) r).follow stack =
      ps.foldl (move kind) (r.follow stack) := by
    induction ps with
    | nil =>
      intro r
      rfl
    | cons p ps ih =>
      intro r
      rw [List.foldl_cons, List.foldl_cons, ih, follow_extend]
  simpa [walk, route] using h ⟨0, []⟩

theorem walk_append (stack ps qs : List P) :
    walk kind stack (ps ++ qs) = walk kind (walk kind stack ps) qs :=
  List.foldl_append ..

theorem names_eq_walk (ps : List P) : (route kind ps).names = walk kind [] ps := by
  rw [← follow_route, follow_nil]

theorem walk_kept {stack ps : List P} {Q : P → Prop} (hs : ∀ p ∈ stack, Q p)
    (hp : ∀ p ∈ ps, kind p = .name → Q p) : ∀ p ∈ walk kind stack ps, Q p := by
  induction ps generalizing stack with
  | nil => exact hs
  | cons q ps ih =>
    have hq := hp q (List.mem_cons_self ..)
    apply ih _ (fun p h => hp p (List.mem_cons_of_mem q h))
    intro p hmem
    unfold move at hmem
    cases hk : kind q with
    | skip => exact hs p (by simpa [hk] using hmem)
    | up => exact hs p (List.dropLast_subset _ (by simpa [hk] using hmem))
    | name =>
      rcases List.mem_append.mp (by simpa only [hk] using hmem) with h | h
      · exact hs p h
      · rw [List.mem_singleton.mp h]
        exact hq hk

theorem walk_of_names {stack ps : List P} (h : ∀ p ∈ ps, kind p = .name) :
    walk kind stack ps = stack ++ ps := by
  induction ps generalizing stack with
  | nil => simp [walk]
  | cons p ps ih =>
    have hp := h p (List.mem_cons_self ..)
    have hstep : walk kind stack (p :: ps) = walk kind (stack ++ [p]) ps := by
      simp [walk, move, hp]
    rw [hstep, ih fun q hq => h q (List.mem_cons_of_mem p hq), List.append_assoc]
    rfl

theorem walk_length_le (stack ps : List P) :
    (walk kind stack ps).length ≤ stack.length + ps.length := by
  induction ps generalizing stack with
  | nil => simp [walk]
  | cons p ps ih =>
    have hmove : (move kind stack p).length ≤ stack.length + 1 := by
      unfold move
      cases kind p <;> simp
      omega
    have := ih (move kind stack p)
    simp only [walk, List.foldl_cons, List.length_cons] at this ⊢
    omega

theorem names_of_walk_length {stack ps : List P}
    (h : (walk kind stack ps).length = stack.length + ps.length) : ∀ p ∈ ps, kind p = .name := by
  induction ps generalizing stack with
  | nil => simp
  | cons p ps ih =>
    have hle := walk_length_le kind (move kind stack p) ps
    have hstep : (walk kind (move kind stack p) ps).length = stack.length + (ps.length + 1) := h
    have hp : kind p = .name := by
      cases hk : kind p with
      | name => rfl
      | skip =>
        simp only [move, hk] at hle hstep
        omega
      | up =>
        simp only [move, hk, List.length_dropLast] at hle hstep
        omega
    have hrest : (walk kind (move kind stack p) ps).length = (move kind stack p).length + ps.length := by
      simp only [move, hp, List.length_append, List.length_singleton] at hstep ⊢
      omega
    intro q hq
    rcases List.mem_cons.mp hq with rfl | hq
    · exact hp
    · exact ih hrest q hq

theorem follow_inj {r t : Route P} [DecidableEq P] {d : P} {n : Nat} (hr : d ∉ r.names)
    (ht : d ∉ t.names) (hrn : r.climb ≤ n) (htn : t.climb ≤ n)
    (h : r.follow (List.replicate n d) = t.follow (List.replicate n d)) : r = t := by
  have hc := congrArg (List.count d) h
  simp only [Route.follow, List.length_replicate, List.take_replicate, List.count_append,
    List.count_replicate_self, List.count_eq_zero_of_not_mem hr,
    List.count_eq_zero_of_not_mem ht] at hc
  have hclimb : r.climb = t.climb := by omega
  have hnames : r.names = t.names := by
    simp only [Route.follow, hclimb] at h
    exact List.append_cancel_left h
  cases r
  cases t
  simp_all

end Walk

section Text
variable {α : Type} (sep dot : α)

def join (pieces : List (List α)) : List α := [sep].intercalate pieces

@[simp] theorem join_nil : join sep ([] : List (List α)) = [] := rfl

@[simp] theorem join_singleton (p : List α) : join sep [p] = p := List.intercalate_singleton

theorem join_cons (p : List α) {ps : List (List α)} (h : ps ≠ []) :
    join sep (p :: ps) = p ++ sep :: join sep ps := by
  rw [join, List.intercalate_cons_of_ne_nil h, List.append_assoc]
  rfl

theorem takeWhile_join {q : α → Bool} (hq : q sep = false) (p : List α) (ps : List (List α)) :
    (join sep (p :: ps)).takeWhile q = p.takeWhile q := by
  cases ps with
  | nil => rw [join_singleton]
  | cons r rs =>
    rw [join_cons sep p (List.cons_ne_nil r rs), List.takeWhile_append]
    simp only [List.takeWhile_cons, hq, Bool.false_eq_true, if_false, List.append_nil]
    split
    · next h => exact ((List.takeWhile_prefix q).eq_of_length h).symm
    · rfl

variable [DecidableEq α]

def kind (piece : List α) : Kind :=
  if piece = [] ∨ piece = [dot] then .skip else if piece = [dot, dot] then .up else .name

def split (path : List α) : List (List α) := path.splitOn sep

def dirname (path : List α) : List α :=
  let before := join sep (split sep path).dropLast
  if before = [] then [sep] else before

def normalise (path : List α) : List α := sep :: join sep (walk (kind dot) [] (split sep path))

theorem split_append (a b : List α) : split sep (a ++ sep :: b) = split sep a ++ split sep b :=
  List.splitOn_append_cons_self ..

@[simp] theorem split_nil : split sep ([] : List α) = [[]] := List.splitOn_nil sep

@[simp] theorem split_cons_self (path : List α) : split sep (sep :: path) = [] :: split sep path :=
  split_append sep [] path

theorem split_cons_of_ne {x : α} (hx : x ≠ sep) (path : List α) :
    split sep (x :: path) = (split sep path).modifyHead (x :: ·) := by
  simp [split, List.splitOn_cons_eq_if_modifyHead, hx]

theorem split_ne_nil (path : List α) : split sep path ≠ [] :=
  List.splitOn_ne_nil sep path

theorem split_of_not_mem {piece : List α} (h : sep ∉ piece) : split sep piece = [piece] :=
  List.splitOn_eq_singleton h

theorem not_mem_of_mem_split {path piece : List α} (h : piece ∈ split sep path) : sep ∉ piece := by
  induction path generalizing piece with
  | nil =>
    have : piece = [] := by simpa using h
    simp [this]
  | cons x xs ih =>
    by_cases hx : x = sep
    · subst hx
      rw [split_cons_self] at h
      rcases List.mem_cons.mp h with rfl | hp
      · simp
      · exact ih hp
    · rw [split_cons_of_ne sep hx] at h
      cases hxs : split sep xs with
      | nil => exact absurd hxs (split_ne_nil sep xs)
      | cons p ps =>
        rw [hxs] at h ih
        rcases List.mem_cons.mp h with rfl | hp
        · have := ih (List.mem_cons_self ..)
          simp [this, Ne.symm hx]
        · exact ih (List.mem_cons_of_mem p hp)

theorem join_split (path : List α) : join sep (split sep path) = path :=
  List.intercalate_splitOn sep

theorem split_join {pieces : List (List α)} (hp : ∀ p ∈ pieces, sep ∉ p) (hne : pieces ≠ []) :
    split sep (join sep pieces) = pieces :=
  List.splitOn_intercalate _ hp hne

theorem join_eq_nil {pieces : List (List α)} (hp : ∀ p ∈ pieces, sep ∉ p) :
    join sep pieces = [] ↔ pieces = [] ∨ pieces = [[]] := by
  constructor
  · intro h
    by_cases hne : pieces = []
    · exact .inl hne
    · have := split_join sep hp hne
      rw [h] at this
      exact .inr (by simpa [split] using this.symm)
  · rintro (rfl | rfl) <;> simp

theorem join_inj {ps qs : List (List α)} (hp : ∀ p ∈ ps, sep ∉ p) (hq : ∀ q ∈ qs, sep ∉ q)
    (hps : ps ≠ []) (hqs : qs ≠ []) (h : join sep ps = join sep qs) : ps = qs := by
  rw [← split_join sep hp hps, h, split_join sep hq hqs]

theorem kind_eq_name {piece : List α} :
    kind dot piece = .name ↔ piece ≠ [] ∧ piece ≠ [dot] ∧ piece ≠ [dot, dot] := by
  unfold kind
  split
  · simp
    tauto
  · split <;> simp_all

end Text
end Path
