import Mathlib.Data.List.Basic

namespace Regex

variable {α : Type}

inductive Re (α : Type) where
  | empty
  | one (p : α → Bool)
  | many (p : α → Bool)
  | opt (e : Re α)
  | seq (a b : Re α)
  | group (n : Nat) (e : Re α)

def Re.plus (p : α → Bool) : Re α := .seq (.one p) (.many p)

def Re.seqs : List (Re α) → Re α
  | [] => .empty
  | e :: es => .seq e (Re.seqs es)

def Re.literal [BEq α] : List α → Re α
  | [] => .empty
  | c :: cs => .seq (.one (· == c)) (Re.literal cs)

structure Way (α : Type) where
  text : List α
  groups : List (Nat × List α)
  rest : List α

def Way.append (m n : Way α) : Way α := ⟨m.text ++ n.text, m.groups ++ n.groups, n.rest⟩

def prefixes (p : α → Bool) : List α → List (List α × List α)
  | [] => [([], [])]
  | x :: xs =>
    if p x then (prefixes p xs).map (fun s => (x :: s.1, s.2)) ++ [([], x :: xs)] else [([], x :: xs)]

def Re.ways : Re α → List α → List (Way α)
  | .empty, s => [⟨[], [], s⟩]
  | .one p, s =>
    match s with
    | [] => []
    | x :: xs => if p x then [⟨[x], [], xs⟩] else []
  | .many p, s => (prefixes p s).map fun r => ⟨r.1, [], r.2⟩
  | .opt e, s => e.ways s ++ [⟨[], [], s⟩]
  | .seq a b, s => (a.ways s).flatMap fun m => (b.ways m.rest).map m.append
  | .group n e, s => (e.ways s).map fun m => ⟨m.text, (n, m.text) :: m.groups, m.rest⟩

def regexMatch (e : Re α) (s : List α) : Option (Way α) := (e.ways s).find? (·.rest.isEmpty)

def Way.what (m : Way α) (n : Nat) : List α := (m.groups.lookup n).getD []

def Re.admits : Re α → α → Bool
  | .empty, _ => false
  | .one p, x => p x
  | .many p, x => p x
  | .opt e, x => e.admits x
  | .seq a b, x => a.admits x || b.admits x
  | .group _ e, x => e.admits x

theorem mem_prefixes {p : α → Bool} {s : List α} {r : List α × List α} (h : r ∈ prefixes p s) :
    s = r.1 ++ r.2 ∧ ∀ x ∈ r.1, p x = true := by
  induction s generalizing r with
  | nil =>
    obtain rfl : r = ([], []) := by simpa [prefixes] using h
    simp
  | cons x xs ih =>
    unfold prefixes at h
    by_cases hx : p x = true
    · rw [if_pos hx] at h
      rcases List.mem_append.mp h with h | h
      · obtain ⟨t, ht, rfl⟩ := List.mem_map.mp h
        obtain ⟨hs, hp⟩ := ih ht
        refine ⟨by simp [← hs], ?_⟩
        intro y hy
        rcases List.mem_cons.mp hy with rfl | hy
        · exact hx
        · exact hp y hy
      · obtain rfl := List.mem_singleton.mp h
        simp
    · rw [if_neg hx] at h
      obtain rfl := List.mem_singleton.mp h
      simp

theorem ways_sound {e : Re α} {s : List α} {m : Way α} (h : m ∈ e.ways s) :
    s = m.text ++ m.rest ∧ ∀ x ∈ m.text, e.admits x = true := by
  induction e generalizing s m with
  | empty =>
    obtain rfl := List.mem_singleton.mp h
    simp
  | one p =>
    cases s with
    | nil => simp [Re.ways] at h
    | cons x xs =>
      by_cases hx : p x = true
      · obtain rfl : m = ⟨[x], [], xs⟩ := by simpa [Re.ways, hx] using h
        simpa [Re.admits] using hx
      · simp [Re.ways, hx] at h
  | many p =>
    obtain ⟨r, hr, rfl⟩ := List.mem_map.mp h
    exact mem_prefixes hr
  | opt e ih =>
    rcases List.mem_append.mp h with h | h
    · exact ih h
    · obtain rfl := List.mem_singleton.mp h
      simp
  | seq a b iha ihb =>
    obtain ⟨k, hk, h⟩ := List.mem_flatMap.mp h
    obtain ⟨n, hn, rfl⟩ := List.mem_map.mp h
    obtain ⟨hs, ha⟩ := iha hk
    obtain ⟨hrest, hb⟩ := ihb hn
    refine ⟨by simp [Way.append, ← hrest, ← hs], ?_⟩
    intro x hx
    rcases List.mem_append.mp hx with hx | hx
    · simp [Re.admits, ha x hx]
    · simp [Re.admits, hb x hx]
  | group n e ih =>
    obtain ⟨k, hk, rfl⟩ := List.mem_map.mp h
    have hways := ih hk
    exact hways

def Re.nullable : Re α → Bool
  | .empty => true
  | .one _ => false
  | .many _ => true
  | .opt _ => true
  | .seq a b => a.nullable && b.nullable
  | .group _ e => e.nullable

theorem prefixes_head (p : α → Bool) (s : List α) :
    (prefixes p s).head? = some (s.takeWhile p, s.dropWhile p) := by
  induction s with
  | nil => rfl
  | cons x xs ih =>
    unfold prefixes
    by_cases hx : p x = true
    · simp [hx, List.head?_append, List.head?_map, ih]
    · simp [hx]

theorem ways_ne_nil {e : Re α} (h : e.nullable = true) (s : List α) : e.ways s ≠ [] := by
  induction e generalizing s with
  | empty => simp [Re.ways]
  | one p => simp [Re.nullable] at h
  | many p =>
    intro hnil
    have := prefixes_head p s
    rw [List.map_eq_nil_iff.mp hnil] at this
    simp at this
  | opt e ih => simp [Re.ways]
  | seq a b iha ihb =>
    simp only [Re.nullable, Bool.and_eq_true] at h
    obtain ⟨m, hm⟩ := List.exists_mem_of_ne_nil _ (iha h.1 s)
    obtain ⟨n, hn⟩ := List.exists_mem_of_ne_nil _ (ihb h.2 m.rest)
    apply List.ne_nil_of_mem (a := m.append n)
    exact List.mem_flatMap.mpr ⟨m, hm, List.mem_map.mpr ⟨n, hn, rfl⟩⟩
  | group n e ih => simpa [Re.ways] using ih h s

def Re.first : Re α → List α → Option (Way α)
  | .empty, s => some ⟨[], [], s⟩
  | .one p, s =>
    match s with
    | [] => none
    | x :: xs => if p x then some ⟨[x], [], xs⟩ else none
  | .many p, s => some ⟨s.takeWhile p, [], s.dropWhile p⟩
  | .opt e, s => some ((e.first s).getD ⟨[], [], s⟩)
  | .seq a b, s => (a.first s).bind fun m => (b.first m.rest).map m.append
  | .group n e, s => (e.first s).map fun m => ⟨m.text, (n, m.text) :: m.groups, m.rest⟩

def Re.rejects (e : Re α) (p : α → Bool) : Prop := ∀ x xs, p x = true → e.ways (x :: xs) = []

def Re.commits : Re α → Re α → Prop
  | .one _, _ => True
  | .many p, b => b.nullable = true ∨ b.rejects p
  | _, b => b.nullable = true

def Re.direct : Re α → Prop
  | .empty => True
  | .one _ => True
  | .many _ => True
  | .opt e => e.direct
  | .seq a b => a.direct ∧ b.direct ∧ a.commits b
  | .group _ e => e.direct

theorem head_flatMap {β : Type} {f : β → List α} {xs : List β} (h : ∀ x, f x ≠ []) :
    (xs.flatMap f).head? = xs.head?.bind fun x => (f x).head? := by
  cases xs with
  | nil => rfl
  | cons x xs =>
    rw [List.flatMap_cons, List.head?_append]
    cases hx : f x with
    | nil => exact absurd hx (h x)
    | cons y ys => simp [hx]

theorem flatMap_prefixes {β : Type} {p : α → Bool} {f : List α × List α → List β}
    (h : ∀ t x xs, p x = true → f (t, x :: xs) = []) (s : List α) :
    (prefixes p s).flatMap f = f (s.takeWhile p, s.dropWhile p) := by
  induction s generalizing f with
  | nil => simp [prefixes]
  | cons x xs ih =>
    unfold prefixes
    by_cases hx : p x = true
    · have := ih (f := fun r => f (x :: r.1, r.2)) (fun t y ys hy => h (x :: t) y ys hy)
      simp [hx, List.flatMap_map, h [] x xs hx, this]
    · simp [hx]

theorem head_ways {e : Re α} (h : e.direct) (s : List α) : (e.ways s).head? = e.first s := by
  induction e generalizing s with
  | empty => rfl
  | one p =>
    cases s with
    | nil => rfl
    | cons x xs => by_cases hx : p x = true <;> simp [Re.ways, Re.first, hx]
  | many p => simp [Re.ways, Re.first, List.head?_map, prefixes_head]
  | opt e ih =>
    rw [Re.ways, Re.first, List.head?_append, ih h]
    cases e.first s <;> rfl
  | seq a b iha ihb =>
    obtain ⟨ha, hb, hc⟩ := h
    have htotal : b.nullable = true → ((Re.seq a b).ways s).head? = (Re.seq a b).first s := by
      intro hnull
      rw [Re.ways, head_flatMap fun m => by simpa using ways_ne_nil hnull m.rest, iha ha, Re.first]
      congr 1
      funext m
      rw [List.head?_map, ihb hb]
    cases a with
    | one p =>
      cases s with
      | nil => rfl
      | cons x xs =>
        by_cases hx : p x = true
        · simp [Re.ways, Re.first, hx, List.head?_map, ihb hb]
        · simp [Re.ways, Re.first, hx]
    | many p =>
      rcases hc with hc | hc
      · exact htotal hc
      · rw [Re.ways, Re.ways, List.flatMap_map, flatMap_prefixes _ s]
        · simp [Re.first, List.head?_map, ihb hb]
        · intro t x xs hx
          simp [hc x xs hx]
    | empty => exact htotal hc
    | opt e => exact htotal hc
    | seq c d => exact htotal hc
    | group n e => exact htotal hc
  | group n e ih =>
    rw [Re.ways, Re.first, List.head?_map, ih h]

theorem first_seq {a b : Re α} {s : List α} {m n : Way α} (ha : a.first s = some m)
    (hb : b.first m.rest = some n) : (Re.seq a b).first s = some (m.append n) := by
  simp [Re.first, ha, hb]

theorem first_empty (s : List α) : (Re.empty : Re α).first s = some ⟨[], [], s⟩ := rfl

theorem first_groupMany (n : Nat) (p : α → Bool) (s : List α) :
    (Re.group n (.many p)).first s = some ⟨s.takeWhile p, [(n, s.takeWhile p)], s.dropWhile p⟩ := rfl

theorem first_optGroupMany (n : Nat) (p : α → Bool) (s : List α) :
    (Re.opt (.group n (.many p))).first s =
      some ⟨s.takeWhile p, [(n, s.takeWhile p)], s.dropWhile p⟩ := rfl

theorem first_optPlus (n : Nat) (p : α → Bool) (s : List α) :
    (Re.opt (.group n (Re.plus p))).first s =
      some ⟨s.takeWhile p, if (s.takeWhile p).isEmpty then [] else [(n, s.takeWhile p)],
        s.dropWhile p⟩ := by
  cases s with
  | nil => rfl
  | cons x xs =>
    by_cases hx : p x = true
    · simp [Re.first, Re.plus, Way.append, hx]
    · simp [Re.first, Re.plus, hx]

theorem first_optOne (p : α → Bool) (s : List α) :
    ∃ t, (Re.opt (.one p)).first s = some ⟨t, [], s.drop t.length⟩ ∧ t = (s.take 1).filter p := by
  cases s with
  | nil => exact ⟨[], rfl, rfl⟩
  | cons x xs =>
    by_cases hx : p x = true
    · exact ⟨[x], by simp [Re.first, hx], by simp [hx]⟩
    · exact ⟨[], by simp [Re.first, hx], by simp [hx]⟩

theorem first_optOne_many {p q : α → Bool} (hpq : ∀ x, p x = true → q x = true) (s : List α) :
    (Re.seq (.opt (.one p)) (.many q)).first s = some ⟨s.takeWhile q, [], s.dropWhile q⟩ := by
  cases s with
  | nil => rfl
  | cons x xs =>
    by_cases hx : p x = true
    · simp [Re.first, Way.append, hx, hpq x hx]
    · simp [Re.first, Way.append, hx]

theorem first_rest {e : Re α} (he : e.direct) {s : List α} {m : Way α} (hm : e.first s = some m) :
    s = m.text ++ m.rest := by
  rw [← head_ways he] at hm
  exact (ways_sound (List.mem_of_mem_head? hm)).1

section Literal
variable [DecidableEq α]

theorem literal_direct (cs : List α) : (Re.literal cs).direct := by
  induction cs with
  | nil => trivial
  | cons c cs ih => exact ⟨trivial, ih, trivial⟩

theorem literal_rejects {p : α → Bool} {c : α} (hc : p c = false) (cs : List α) :
    (Re.literal (c :: cs)).rejects p := by
  intro x xs hx
  have hne : (x == c) = false := by
    rw [beq_eq_false_iff_ne]
    rintro rfl
    rw [hc] at hx
    cases hx
  simp [Re.literal, Re.ways, hne]

theorem first_literal (cs s : List α) :
    (Re.literal cs).first s =
      if s.take cs.length = cs then some ⟨cs, [], s.drop cs.length⟩ else none := by
  induction cs generalizing s with
  | nil => simp [Re.literal, Re.first]
  | cons c cs ih =>
    cases s with
    | nil => rfl
    | cons x xs =>
      by_cases hx : x = c
      · subst hx
        by_cases hcs : xs.take cs.length = cs
        · simp [Re.literal, Re.first, ih, hcs, Way.append]
        · simp [Re.literal, Re.first, ih, hcs]
      · simp [Re.literal, Re.first, hx]

end Literal

theorem regexMatch_first {e : Re α} {s : List α} {m : Way α} (he : e.direct)
    (hm : e.first s = some m) (hrest : m.rest = []) : regexMatch e s = some m := by
  rw [← head_ways he] at hm
  unfold regexMatch
  cases hw : e.ways s with
  | nil => simp [hw] at hm
  | cons n ns =>
    obtain rfl : n = m := by simpa [hw] using hm
    simp [hrest]

theorem regexMatch_none {e : Re α} {s : List α} {x : α} (hx : x ∈ s) (he : e.admits x = false) :
    regexMatch e s = none := by
  rw [regexMatch, List.find?_eq_none]
  intro m hm hempty
  obtain ⟨hs, hall⟩ := ways_sound hm
  have hnil : m.rest = [] := by simpa using hempty
  have := hall x (by simpa [hs, hnil] using hx)
  simp [he] at this

end Regex
