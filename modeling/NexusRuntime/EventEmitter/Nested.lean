import Mathlib.Algebra.Ring.Int.Defs
import Mathlib.Algebra.Ring.Nat
import NexusRuntime.EventEmitter.EventEmitter2

namespace NexusRuntime.EventEmitter

open Transition

variable {H A V : Type}

-- a name under which {} inherits nothing
structure EventName where
  name : String
  free : inherited name = none
deriving DecidableEq

-- the double closest to an integer, ties to even
def nearestDouble (m : Nat) : Nat :=
  let unit := 2 ^ (m.log2 - 52)
  if 2 * (m % unit) < unit ∨ 2 * (m % unit) = unit ∧ m / unit % 2 = 0 then m / unit * unit
  else (m / unit + 1) * unit

def toDouble : Int → Int
  | .ofNat m => nearestDouble m
  | .negSucc m => -nearestDouble (m + 1)

def Count.decrement : Count → Count
  | .infinity => .infinity
  | .finite n => .finite (toDouble (n - 1))

def Entry.decrement (x : Entry H) : Entry H := { x with count := x.count.decrement }

inductive Move (H A V : Type) where
  | on (e : EventName) (h : H)
  | once (e : EventName) (h : H)
  | many (e : EventName) (h : H) (count : Int)
  | off (e : EventName) (h : H)
  | allOff (e : EventName)
  | emit (e : EventName) (args : List A)
  | returns (v : V)
deriving DecidableEq

-- a running emit: its handler for event[i] has not returned yet
structure Frame (A V : Type) where
  emission : Nat
  array : Nat
  length : Nat
  i : Nat
  args : List A
  events : List V

structure Started (H A V : Type) where
  history : List (Move H A V)
  event : EventName
  args : List A

-- one round of the loop in emit, with what it called
structure Turn (H A : Type) where
  emission : Nat
  registration : Nat
  call : Option (H × List A)

structure Heap (H A V : Type) where
  entries : List (Entry H)
  arrays : List (List Nat)
  own : EventName → Option Nat
  stack : List (Frame A V)
  thrown : Bool
  history : List (Move H A V)
  emissions : List (Started H A V)
  returned : List (Nat × List V)
  turns : List (Turn H A)

namespace Heap

def start : Heap H A V := ⟨[], [], fun _ => none, [], false, [], [], [], []⟩

def array (s : Heap H A V) (a : Nat) : List Nat := s.arrays[a]?.getD []

def many (s : Heap H A V) (e : EventName) (x : Entry H) : Heap H A V :=
  match s.own e with
  | none => { s with
    entries := s.entries ++ [x]
    arrays := s.arrays ++ [[s.entries.length]]
    own := Function.update s.own e (some s.arrays.length) }
  | some a => { s with
    entries := s.entries ++ [x]
    arrays := s.arrays.modify a (· ++ [s.entries.length]) }

def off [DecidableEq H] (s : Heap H A V) (e : EventName) (target : H) : Heap H A V :=
  match s.own e with
  | none => s
  | some a => { s with
    arrays := s.arrays ++ [(s.array a).filter fun r => s.entries[r]?.all fun x => x.functor ≠ target]
    own := Function.update s.own e (some s.arrays.length) }

def allOff (s : Heap H A V) (e : EventName) : Heap H A V :=
  { s with own := Function.update s.own e none }

def turn (s : Heap H A V) (f : Frame A V) (r : Nat) (call : Option (H × List A)) : Heap H A V :=
  { s with
    entries := s.entries.modify r Entry.decrement
    turns := s.turns ++ [⟨f.emission, r, call⟩] }

def loop : Nat → Heap H A V → Frame A V → Heap H A V
  | 0, s, f => { s with returned := s.returned ++ [(f.emission, f.events)] }
  | n + 1, s, f =>
    match (s.array f.array)[f.i]?.bind fun r => s.entries[r]?.map fun x => (r, x) with
    -- event[i] is undefined
    | none => { s with thrown := true }
    | some (r, x) =>
      if x.count.positive then
        let t := s.turn f r (some (x.functor, f.args))
        { t with stack := f :: t.stack }
      else loop n (s.turn f r none) { f with i := f.i + 1 }

def emit (s : Heap H A V) (e : EventName) (args : List A) : Heap H A V :=
  let t : Heap H A V := { s with emissions := s.emissions ++ [⟨s.history, e, args⟩] }
  match s.own e with
  | none => { t with returned := s.returned ++ [(s.emissions.length, [])] }
  | some a =>
    t.loop (s.array a).length ⟨s.emissions.length, a, (s.array a).length, 0, args, []⟩

def returns (s : Heap H A V) (v : V) : Option (Heap H A V) :=
  match s.stack with
  | [] => none
  | f :: rest => some (loop (f.length - (f.i + 1)) { s with stack := rest }
    { f with i := f.i + 1, events := f.events ++ [v] })

variable [DecidableEq H]

def act (s : Heap H A V) : Move H A V → Option (Heap H A V)
  | .on e h => some (s.many e ⟨h, .infinity⟩)
  | .once e h => some (s.many e ⟨h, .finite 1⟩)
  | .many e h n => some (s.many e ⟨h, .finite n⟩)
  | .off e h => some (s.off e h)
  | .allOff e => some (s.allOff e)
  | .emit e args => some (s.emit e args)
  | .returns v => s.returns v

def step (s : Heap H A V) (m : Move H A V) : Option (Heap H A V) :=
  if s.thrown then none
  else (s.act m).map fun t => { t with history := s.history ++ [m] }

end Heap

def heaps (H A V : Type) [DecidableEq H] : System (Heap H A V) (Move H A V) := ⟨Heap.step⟩

-- what the moves alone say: who was registered, with which count, and who is listed now
structure Roster (H : Type) where
  registered : List (Entry H)
  listed : EventName → List Nat

namespace Roster

def empty : Roster H := ⟨[], fun _ => []⟩

def add (r : Roster H) (e : EventName) (x : Entry H) : Roster H :=
  ⟨r.registered ++ [x], Function.update r.listed e (r.listed e ++ [r.registered.length])⟩

def keep (r : Roster H) (e : EventName) (p : Entry H → Bool) : Roster H :=
  { r with
    listed := Function.update r.listed e ((r.listed e).filter fun i => r.registered[i]?.all p) }

variable [DecidableEq H]

def apply (r : Roster H) : Move H A V → Roster H
  | .on e h => r.add e ⟨h, .infinity⟩
  | .once e h => r.add e ⟨h, .finite 1⟩
  | .many e h n => r.add e ⟨h, .finite n⟩
  | .off e h => r.keep e fun x => x.functor ≠ h
  | .allOff e => { r with listed := Function.update r.listed e [] }
  | .emit _ _ | .returns _ => r

end Roster

def roster [DecidableEq H] (ms : List (Move H A V)) : Roster H := ms.foldl Roster.apply Roster.empty

def Started.listed [DecidableEq H] (m : Started H A V) : List Nat := (roster m.history).listed m.event

def runs (turns : List (Turn H A)) (r : Nat) : Nat :=
  turns.countP fun t => t.registration = r ∧ t.call.isSome

def Count.left : Count → Nat → Count
  | .infinity, _ => .infinity
  | .finite n, k => .finite (n - k)

def Entry.due (x : Entry H) (k : Nat) (args : List A) : Option (H × List A) :=
  if (x.count.left k).positive then some (x.functor, args) else none

namespace Heap

def of (s : Heap H A V) (k : Nat) : List (Turn H A) := s.turns.filter fun t => t.emission = k

def taken (s : Heap H A V) (k : Nat) : List Nat := (s.of k).map Turn.registration

def calls (s : Heap H A V) (k : Nat) : List (H × List A) := (s.of k).filterMap Turn.call

variable [DecidableEq H]

structure Exact (s : Heap H A V) : Prop where
  defined : s.thrown = false
  bounded : ∀ (r : Nat) x n, (roster s.history).registered[r]? = some x → x.count = .finite n →
    (runs s.turns r : Int) ≤ n
  began : ∀ (k : Nat) m, s.emissions[k]? = some m →
    m.history ++ [.emit m.event m.args] <+: s.history ∧ m.listed.Pairwise (· < ·)
  turns : ∀ (k : Nat) t, s.turns[k]? = some t → ∃ m x, s.emissions[t.emission]? = some m ∧
    (roster s.history).registered[t.registration]? = some x ∧
      t.call = x.due (runs (s.turns.take k) t.registration) m.args
  order : ∀ (k : Nat) m, s.emissions[k]? = some m → s.taken k <+: m.listed
  finished : ∀ k vs, (k, vs) ∈ s.returned → ∃ m, s.emissions[k]? = some m ∧
    s.taken k = m.listed ∧ vs.length = (s.calls k).length
  running : ∀ (k : Nat) m, s.emissions[k]? = some m → k ∉ s.stack.map Frame.emission →
    k ∈ s.returned.map Prod.fst

end Heap

def Move.counted : Move H A V → Prop
  | .many _ _ n => 0 ≤ n ∧ n ≤ 2 ^ 53
  | _ => True

instance decidableCounted : (m : Move H A V) → Decidable m.counted
  | .many _ _ n => inferInstanceAs (Decidable (0 ≤ n ∧ n ≤ 2 ^ 53))
  | .on .. | .once .. | .off .. | .allOff _ | .emit .. | .returns _ => .isTrue trivial

namespace Roster

structure Ordered (r : Roster H) : Prop where
  sorted : ∀ e, (r.listed e).Pairwise (· < ·)
  known : ∀ e, ∀ i ∈ r.listed e, i < r.registered.length

theorem add_ordered {r : Roster H} (hr : r.Ordered) (e : EventName) (x : Entry H) :
    (r.add e x).Ordered := by
  constructor
  · intro e'
    by_cases he : e' = e
    · subst he
      simp only [add, Function.update_self]
      refine List.pairwise_append.mpr ⟨hr.sorted e', List.pairwise_singleton _ _, ?_⟩
      intro i hi j hj
      rw [List.mem_singleton.mp hj]
      exact hr.known e' i hi
    · simp only [add, Function.update_of_ne he]
      exact hr.sorted e'
  · intro e' i hi
    rw [add, List.length_append, List.length_singleton]
    by_cases he : e' = e
    · subst he
      simp only [add, Function.update_self, List.mem_append, List.mem_singleton] at hi
      rcases hi with hi | rfl
      · have := hr.known e' i hi
        omega
      · omega
    · simp only [add, Function.update_of_ne he] at hi
      have := hr.known e' i hi
      omega

theorem restrict_ordered {r : Roster H} (hr : r.Ordered) (e : EventName) {l : List Nat}
    (hl : l.Sublist (r.listed e)) :
    ({ r with listed := Function.update r.listed e l } : Roster H).Ordered := by
  constructor
  · intro e'
    by_cases he : e' = e
    · subst he
      simp only [Function.update_self]
      exact (hr.sorted e').sublist hl
    · simp only [Function.update_of_ne he]
      exact hr.sorted e'
  · intro e' i hi
    by_cases he : e' = e
    · subst he
      simp only [Function.update_self] at hi
      exact hr.known e' i (hl.subset hi)
    · simp only [Function.update_of_ne he] at hi
      exact hr.known e' i hi

variable [DecidableEq H]

theorem apply_ordered {r : Roster H} (hr : r.Ordered) (m : Move H A V) : (r.apply m).Ordered := by
  cases m with
  | on e h | once e h | many e h n => exact add_ordered hr e _
  | off e h => exact restrict_ordered hr e List.filter_sublist
  | allOff e => exact restrict_ordered hr e (List.nil_sublist _)
  | emit e args | returns v => exact hr

theorem apply_registered (r : Roster H) (m : Move H A V) :
    r.registered <+: (r.apply m).registered := by
  cases m with
  | on e h | once e h | many e h n => exact List.prefix_append ..
  | off e h | allOff e | emit e args | returns v => exact List.prefix_rfl

end Roster

theorem runs_concat (turns : List (Turn H A)) (t : Turn H A) (r : Nat) :
    runs (turns ++ [t]) r = runs turns r + if t.registration = r ∧ t.call.isSome then 1 else 0 := by
  simp only [runs, List.countP_append, List.countP_singleton, decide_eq_true_eq]

theorem nearestDouble_of_le {m : Nat} (h : m ≤ 2 ^ 53) : nearestDouble m = m := by
  rcases Nat.lt_or_eq_of_le h with h | rfl
  · have hlog : m.log2 - 52 = 0 := by
      rcases Nat.eq_zero_or_pos m with rfl | hm
      · rfl
      · have := (Nat.log2_lt (by omega)).mpr h
        omega
    simp [nearestDouble, hlog, Nat.mod_one]
  · decide

theorem toDouble_of_le {n : Int} (h0 : 0 ≤ n) (h : n ≤ 2 ^ 53) : toDouble n = n := by
  obtain ⟨m, rfl⟩ := Int.eq_ofNat_of_zero_le h0
  have hm : m ≤ 2 ^ 53 := by exact_mod_cast h
  show ((nearestDouble m : Nat) : Int) = m
  rw [nearestDouble_of_le hm]

theorem toDouble_neg {n : Int} (h : n < 0) : toDouble n ≤ 0 := by
  cases n with
  | ofNat m => exact absurd h (by simp)
  | negSucc m =>
    show -((nearestDouble (m + 1) : Nat) : Int) ≤ 0
    omega

namespace Count

-- what is left in an entry made with a count and called k times
def Spent : Count → Nat → Count → Prop
  | .infinity, _, c => c = .infinity
  | .finite n, k, c => n ≤ 2 ^ 53 ∧ ∃ m, c = .finite m ∧ (0 < m ∧ m = n - k ∨ m ≤ 0 ∧ n = k)

theorem spent_start {n : Int} (h0 : 0 ≤ n) (h : n ≤ 2 ^ 53) : Spent (.finite n) 0 (.finite n) := by
  refine ⟨h, n, rfl, ?_⟩
  push_cast
  omega

theorem positive_of_spent {c d : Count} {k : Nat} (h : Spent c k d) :
    d.positive = (c.left k).positive := by
  cases c with
  | infinity =>
    obtain rfl := h
    rfl
  | finite n =>
    obtain ⟨-, m, rfl, h⟩ := h
    simp only [positive, left, decide_eq_decide]
    omega

theorem spent_decrement {c d : Count} {k : Nat} (h : Spent c k d) :
    Spent c (k + if d.positive then 1 else 0) d.decrement := by
  cases c with
  | infinity =>
    obtain rfl := h
    rfl
  | finite n =>
    obtain ⟨hn, m, rfl, h⟩ := h
    refine ⟨hn, toDouble (m - 1), rfl, ?_⟩
    by_cases hm : 0 < m
    · have hd : toDouble (m - 1) = m - 1 := toDouble_of_le (by omega) (by omega)
      simp only [positive, hm, decide_true, if_true, hd]
      push_cast
      omega
    · have hd : toDouble (m - 1) ≤ 0 := toDouble_neg (by omega)
      simp only [positive, hm, decide_false, Bool.false_eq_true, if_false, Nat.add_zero]
      omega

theorem spent_le {n : Int} {k : Nat} {d : Count} (h : Spent (.finite n) k d) : (k : Int) ≤ n := by
  obtain ⟨-, m, -, h⟩ := h
  omega

end Count

section Rosters
variable [DecidableEq H]

theorem roster_concat (ms : List (Move H A V)) (m : Move H A V) :
    roster (ms ++ [m]) = (roster ms).apply m := by
  simp only [roster, List.foldl_append, List.foldl_cons, List.foldl_nil]

theorem roster_ordered (ms : List (Move H A V)) : (roster ms).Ordered := by
  induction ms using List.reverseRecOn with
  | nil => exact ⟨fun _ => List.Pairwise.nil, by simp [roster, Roster.empty]⟩
  | append_singleton ms m ih =>
    rw [roster_concat]
    exact Roster.apply_ordered ih m

theorem roster_registered {ms ns : List (Move H A V)} (h : ms <+: ns) :
    (roster ms).registered <+: (roster ns).registered := by
  obtain ⟨ns, rfl⟩ := h
  induction ns using List.reverseRecOn with
  | nil => rw [List.append_nil]
  | append_singleton ns m ih =>
    rw [← List.append_assoc, roster_concat]
    exact ih.trans (Roster.apply_registered _ m)

end Rosters

namespace Heap

theorem of_turn (s : Heap H A V) (f : Frame A V) (r : Nat) (c : Option (H × List A)) (k : Nat) :
    (s.turn f r c).of k = s.of k ++ if f.emission = k then [⟨f.emission, r, c⟩] else [] := by
  simp only [of, turn, List.filter_append, List.filter_singleton, Bool.cond_decide]

theorem taken_turn (s : Heap H A V) (f : Frame A V) (r : Nat) (c : Option (H × List A)) (k : Nat) :
    (s.turn f r c).taken k = s.taken k ++ if f.emission = k then [r] else [] := by
  rw [taken, of_turn, List.map_append, taken]
  split <;> rfl

theorem calls_turn (s : Heap H A V) (f : Frame A V) (r : Nat) (c : Option (H × List A)) (k : Nat) :
    (s.turn f r c).calls k = s.calls k ++ if f.emission = k then c.toList else [] := by
  rw [calls, of_turn, List.filterMap_append, calls]
  split
  · cases c <;> rfl
  · rfl

theorem turn_other (s : Heap H A V) {f : Frame A V} (r : Nat) (c : Option (H × List A)) {k : Nat}
    (hk : f.emission ≠ k) :
    (s.turn f r c).taken k = s.taken k ∧ (s.turn f r c).calls k = s.calls k := by
  rw [taken_turn, calls_turn, if_neg hk, if_neg hk, List.append_nil, List.append_nil]
  exact ⟨rfl, rfl⟩

def ids (s : Heap H A V) : List Nat := s.stack.map Frame.emission ++ s.returned.map Prod.fst

variable [DecidableEq H]

-- f has had this many of its turns
structure At (s : Heap H A V) (f : Frame A V) (m : Started H A V) (done : Nat) : Prop where
  started : s.emissions[f.emission]? = some m
  args : f.args = m.args
  length : f.length = m.listed.length
  taken : s.taken f.emission = m.listed.take done
  held : m.listed <+: s.array f.array

-- each name with listeners has an array of its own, which holds those listed
structure Holds (own : EventName → Option Nat) (arrays : List (List Nat))
    (listed : EventName → List Nat) : Prop where
  unset : ∀ e, own e = none → listed e = []
  set : ∀ e a, own e = some a → a < arrays.length ∧ arrays[a]?.getD [] = listed e
  apart : ∀ e e' a, own e = some a → own e' = some a → e = e'

structure Sound (ms : List (Move H A V)) (s : Heap H A V) (pending : List Nat) : Prop where
  defined : s.thrown = false
  length : s.entries.length = (roster ms).registered.length
  spent : ∀ (r : Nat) x y, (roster ms).registered[r]? = some x → s.entries[r]? = some y →
    y.functor = x.functor ∧ x.count.Spent (runs s.turns r) y.count
  holds : Holds s.own s.arrays (roster ms).listed
  began : ∀ (k : Nat) m, s.emissions[k]? = some m → m.history ++ [.emit m.event m.args] <+: ms
  turns : ∀ (k : Nat) t, s.turns[k]? = some t → ∃ m x, s.emissions[t.emission]? = some m ∧
    (roster ms).registered[t.registration]? = some x ∧
      t.call = x.due (runs (s.turns.take k) t.registration) m.args
  order : ∀ (k : Nat) m, s.emissions[k]? = some m → s.taken k <+: m.listed
  finished : ∀ k vs, (k, vs) ∈ s.returned → ∃ m, s.emissions[k]? = some m ∧
    s.taken k = m.listed ∧ vs.length = (s.calls k).length
  ids : (pending ++ s.ids).Perm (List.range s.emissions.length)
  frames : ∀ f ∈ s.stack, (∃ m, At s f m (f.i + 1)) ∧ f.i < f.length ∧
    f.events.length + 1 = (s.calls f.emission).length

variable {ms : List (Move H A V)} {s : Heap H A V} {f : Frame A V} {m : Started H A V}

theorem Sound.fresh_emission {k : Nat} (hs : Sound ms s [k]) :
    k ∉ s.stack.map Frame.emission ∧ k ∉ s.returned.map Prod.fst := by
  have hnodup := (hs.ids.nodup_iff).mpr List.nodup_range
  have hk : k ∉ s.ids := (List.nodup_cons.mp hnodup).1
  rw [Heap.ids, List.mem_append] at hk
  exact not_or.mp hk

theorem turn_spent {r : Nat} {x y : Entry H} {pending : List Nat} (hs : Sound ms s pending)
    (hx : (roster ms).registered[r]? = some x) (hy : s.entries[r]? = some y)
    {c : Option (H × List A)} (hc : c.isSome = y.count.positive) {r' : Nat} {x' y' : Entry H}
    (hx' : (roster ms).registered[r']? = some x') (hy' : (s.turn f r c).entries[r']? = some y') :
    y'.functor = x'.functor ∧ x'.count.Spent (runs (s.turn f r c).turns r') y'.count := by
  simp only [turn, List.getElem?_modify, runs_concat] at hy' ⊢
  by_cases hr' : r = r'
  · subst hr'
    obtain rfl := Option.some.inj (hx.symm.trans hx')
    rw [hy] at hy'
    obtain rfl : y.decrement = y' := by simpa using hy'
    obtain ⟨hfunctor, hspent⟩ := hs.spent r x y hx hy
    refine ⟨hfunctor, ?_⟩
    simp only [true_and, hc]
    exact Count.spent_decrement hspent
  · have hy'' : s.entries[r']? = some y' := by simpa [hr'] using hy'
    simpa only [hr', false_and, if_false, Nat.add_zero] using hs.spent r' x' y' hx' hy''

theorem turn_turns {r : Nat} {x : Entry H} {pending : List Nat} (hs : Sound ms s pending)
    (hm : s.emissions[f.emission]? = some m) (hx : (roster ms).registered[r]? = some x)
    {c : Option (H × List A)} (hc : c = x.due (runs s.turns r) m.args) {k : Nat} {t : Turn H A}
    (ht : (s.turn f r c).turns[k]? = some t) :
    ∃ m' x', s.emissions[t.emission]? = some m' ∧
      (roster ms).registered[t.registration]? = some x' ∧
        t.call = x'.due (runs ((s.turn f r c).turns.take k) t.registration) m'.args := by
  simp only [turn] at ht
  rcases Nat.lt_or_ge k s.turns.length with hk | hk
  · rw [List.getElem?_append_left hk] at ht
    rw [turn, List.take_append_of_le_length hk.le]
    exact hs.turns k t ht
  · rw [List.getElem?_append_right hk] at ht
    obtain ⟨h0, ht⟩ := List.getElem?_eq_some_iff.mp ht
    rw [List.length_singleton] at h0
    have hk' : k = s.turns.length := by omega
    subst hk'
    simp only [Nat.sub_self, List.getElem_cons_zero] at ht
    subst ht
    refine ⟨m, x, hm, hx, ?_⟩
    simp only [turn, List.take_left]
    exact hc

theorem turn_sound {r : Nat} {x y : Entry H} (hs : Sound ms s [f.emission]) (hf : At s f m f.i)
    (hr : m.listed[f.i]? = some r) (hx : (roster ms).registered[r]? = some x)
    (hy : s.entries[r]? = some y) :
    let c := if y.count.positive then some (y.functor, f.args) else none
    Sound ms (s.turn f r c) [f.emission] ∧ At (s.turn f r c) f m (f.i + 1) := by
  intro c
  obtain ⟨hstack, hreturned⟩ := hs.fresh_emission
  obtain ⟨hfunctor, hspent⟩ := hs.spent r x y hx hy
  have hc : c = x.due (runs s.turns r) m.args := by
    simp only [c, Entry.due, Count.positive_of_spent hspent, hfunctor, hf.args]
  have hsome : c.isSome = y.count.positive := by
    cases hp : y.count.positive <;> simp [c, hp]
  have htaken : (s.turn f r c).taken f.emission = m.listed.take (f.i + 1) := by
    rw [taken_turn, if_pos rfl, hf.taken, List.take_add_one, hr]
    rfl
  refine ⟨⟨hs.defined, ?_, fun r' x' y' hx' hy' => turn_spent hs hx hy hsome hx' hy', hs.holds,
    hs.began, fun k t ht => turn_turns hs hf.started hx hc ht, ?_, ?_, hs.ids, ?_⟩,
    ⟨hf.started, hf.args, hf.length, htaken, hf.held⟩⟩
  · rw [turn, List.length_modify, hs.length]
  · intro k m' hm'
    by_cases hk : f.emission = k
    · subst hk
      obtain rfl := Option.some.inj (hf.started.symm.trans hm')
      rw [htaken]
      exact List.take_prefix ..
    · rw [(turn_other s r c hk).1]
      exact hs.order k m' hm'
  · intro k vs hk
    have hne : f.emission ≠ k := by
      rintro rfl
      exact hreturned (List.mem_map_of_mem hk)
    obtain ⟨htaken, hcalls⟩ := turn_other s r c hne
    rw [htaken, hcalls]
    exact hs.finished k vs hk
  · intro g hg
    have hne : f.emission ≠ g.emission := fun h => hstack (h ▸ List.mem_map_of_mem hg)
    obtain ⟨htaken, hcalls⟩ := turn_other s r c hne
    obtain ⟨⟨m', hat⟩, hi, hevents⟩ := hs.frames g hg
    refine ⟨⟨m', hat.started, hat.args, hat.length, ?_, hat.held⟩, hi, ?_⟩
    · rw [htaken]
      exact hat.taken
    · rw [hcalls]
      exact hevents

theorem finish_sound (hs : Sound ms s [f.emission]) (hf : At s f m f.length)
    (hevents : f.events.length = (s.calls f.emission).length) :
    Sound ms { s with returned := s.returned ++ [(f.emission, f.events)] } [] := by
  refine ⟨hs.defined, hs.length, hs.spent, hs.holds, hs.began, hs.turns, hs.order,
    ?_, ?_, fun g hg => ?_⟩
  · intro k vs hk
    rcases List.mem_append.mp hk with hk | hk
    · exact hs.finished k vs hk
    · cases List.mem_singleton.mp hk
      refine ⟨m, hf.started, ?_, hevents⟩
      have htaken := hf.taken
      rw [hf.length, List.take_length] at htaken
      exact htaken
  · have hperm : (s.ids ++ [f.emission]).Perm (f.emission :: s.ids) :=
      List.perm_append_singleton ..
    simp only [Heap.ids, List.nil_append, List.map_append, List.map_singleton, ← List.append_assoc]
    exact hperm.trans hs.ids
  · obtain ⟨⟨m', hat⟩, hrest⟩ := hs.frames g hg
    exact ⟨⟨m', hat.started, hat.args, hat.length, hat.taken, hat.held⟩, hrest⟩

namespace Holds
variable {own : EventName → Option Nat} {arrays : List (List Nat)} {listed : EventName → List Nat}

theorem fresh (h : Holds own arrays listed) (e : EventName) (l : List Nat) :
    Holds (Function.update own e (some arrays.length)) (arrays ++ [l])
      (Function.update listed e l) := by
  have hold (e' : EventName) (a : Nat) (ha : own e' = some a) : a < arrays.length := (h.set e' a ha).1
  refine ⟨fun e' he => ?_, fun e' a he => ?_, fun e₁ e₂ a h₁ h₂ => ?_⟩
  · by_cases hne : e' = e
    · simp [hne] at he
    · rw [Function.update_of_ne hne] at he ⊢
      exact h.unset e' he
  · rw [List.length_append, List.length_singleton]
    by_cases hne : e' = e
    · subst hne
      obtain rfl : arrays.length = a := by simpa using he
      simp
    · rw [Function.update_of_ne hne] at he ⊢
      obtain ⟨hlt, hl⟩ := h.set e' a he
      rw [List.getElem?_append_left hlt]
      exact ⟨by omega, hl⟩
  · by_cases hne₁ : e₁ = e <;> by_cases hne₂ : e₂ = e
    · rw [hne₁, hne₂]
    · subst hne₁
      rw [Function.update_of_ne hne₂] at h₂
      obtain rfl : arrays.length = a := by simpa using h₁
      exact absurd (hold e₂ _ h₂) (Nat.lt_irrefl _)
    · subst hne₂
      rw [Function.update_of_ne hne₁] at h₁
      obtain rfl : arrays.length = a := by simpa using h₂
      exact absurd (hold e₁ _ h₁) (Nat.lt_irrefl _)
    · rw [Function.update_of_ne hne₁] at h₁
      rw [Function.update_of_ne hne₂] at h₂
      exact h.apart e₁ e₂ a h₁ h₂

theorem push (h : Holds own arrays listed) {e : EventName} {a : Nat} (ha : own e = some a) (i : Nat) :
    Holds own (arrays.modify a (· ++ [i])) (Function.update listed e (listed e ++ [i])) := by
  refine ⟨fun e' he => ?_, fun e' a' he => ?_, h.apart⟩
  · have hne : e' ≠ e := by
      rintro rfl
      rw [ha] at he
      cases he
    rw [Function.update_of_ne hne]
    exact h.unset e' he
  · obtain ⟨hlt, hl⟩ := h.set e' a' he
    refine ⟨by rwa [List.length_modify], ?_⟩
    rw [List.getElem?_modify]
    by_cases hne : e' = e
    · subst hne
      obtain rfl : a = a' := Option.some.inj (ha.symm.trans he)
      rw [List.getElem?_eq_getElem hlt] at hl ⊢
      rw [Function.update_self, ← hl]
      simp
    · have hne' : a ≠ a' := by
        rintro rfl
        exact hne (h.apart e' e a he ha)
      rw [Function.update_of_ne hne, ← hl]
      simp [hne']

theorem drop (h : Holds own arrays listed) (e : EventName) :
    Holds (Function.update own e none) arrays (Function.update listed e []) := by
  have hother {e' : EventName} {a : Nat} (he : Function.update own e none e' = some a) : e' ≠ e := by
    rintro rfl
    simp at he
  refine ⟨fun e' he => ?_, fun e' a he => ?_, fun e₁ e₂ a h₁ h₂ => ?_⟩
  · by_cases hne : e' = e
    · rw [hne, Function.update_self]
    · rw [Function.update_of_ne hne] at he ⊢
      exact h.unset e' he
  · have hne := hother he
    rw [Function.update_of_ne hne] at he ⊢
    exact h.set e' a he
  · have hne₁ := hother h₁
    have hne₂ := hother h₂
    rw [Function.update_of_ne hne₁] at h₁
    rw [Function.update_of_ne hne₂] at h₂
    exact h.apart e₁ e₂ a h₁ h₂

end Holds

theorem grows_append (arrays : List (List Nat)) (l : List Nat) (a : Nat) :
    arrays[a]?.getD [] <+: (arrays ++ [l])[a]?.getD [] := by
  rcases Nat.lt_or_ge a arrays.length with ha | ha
  · rw [List.getElem?_append_left ha]
  · rw [List.getElem?_eq_none ha]
    exact List.nil_prefix

theorem grows_modify (arrays : List (List Nat)) (b i a : Nat) :
    arrays[a]?.getD [] <+: (arrays.modify b (· ++ [i]))[a]?.getD [] := by
  rw [List.getElem?_modify]
  cases arrays[a]? with
  | none => exact List.prefix_rfl
  | some l =>
    simp only [Option.map_eq_map, Option.map_some, Option.getD_some]
    split
    · exact List.prefix_append ..
    · exact List.prefix_rfl

theorem loop_sound (n : Nat) (hs : Sound ms s [f.emission]) (hf : At s f m f.i)
    (hn : f.i + n = f.length) (hevents : f.events.length = (s.calls f.emission).length) :
    Sound ms (s.loop n f) [] := by
  induction n generalizing s f with
  | zero =>
    rw [Nat.add_zero] at hn
    rw [hn] at hf
    exact finish_sound hs hf hevents
  | succ n ih =>
    have hlt : f.i < m.listed.length := by
      have := hf.length
      omega
    have hr := List.getElem?_eq_getElem hlt
    have harray : (s.array f.array)[f.i]? = some m.listed[f.i] := by
      obtain ⟨more, hmore⟩ := hf.held
      rw [← hmore, List.getElem?_append_left hlt, hr]
    have hknown : m.listed[f.i] < (roster ms).registered.length := by
      have hbegan := (List.prefix_append ..).trans (hs.began _ m hf.started)
      have hle := (roster_registered hbegan).length_le
      have := (roster_ordered m.history).known m.event _ (List.getElem_mem hlt)
      omega
    have hx := List.getElem?_eq_getElem hknown
    have hy := List.getElem?_eq_getElem (hs.length ▸ hknown : m.listed[f.i] < s.entries.length)
    obtain ⟨hs', hf'⟩ := turn_sound hs hf hr hx hy
    simp only [loop, harray, Option.bind_some, hy, Option.map_some]
    split
    · next hp =>
      rw [if_pos hp] at hs' hf'
      refine ⟨hs'.defined, hs'.length, hs'.spent, hs'.holds, hs'.began, hs'.turns, hs'.order,
        hs'.finished, hs'.ids, fun g hg => ?_⟩
      rcases List.mem_cons.mp hg with rfl | hg
      · refine ⟨⟨m, hf'.started, hf'.args, hf'.length, hf'.taken, hf'.held⟩, by omega, ?_⟩
        show _ = ((s.turn g _ _).calls g.emission).length
        rw [calls_turn, if_pos rfl, List.length_append, hevents]
        rfl
      · obtain ⟨⟨m', hat⟩, hrest⟩ := hs'.frames g hg
        exact ⟨⟨m', hat.started, hat.args, hat.length, hat.taken, hat.held⟩, hrest⟩
    · next hp =>
      rw [if_neg hp] at hs' hf'
      have hrest : f.i + 1 + n = f.length := by omega
      refine ih hs' ⟨hf'.started, hf'.args, hf'.length, hf'.taken, hf'.held⟩ hrest ?_
      show _ = ((s.turn f _ none).calls f.emission).length
      rw [calls_turn, if_pos rfl, List.length_append, hevents]
      rfl

theorem At.grow {t : Heap H A V} {done : Nat} (h : At s f m done)
    (hemissions : s.emissions <+: t.emissions) (hturns : t.turns = s.turns)
    (harrays : ∀ a, s.array a <+: t.array a) : At t f m done := by
  obtain ⟨more, hmore⟩ := hemissions
  refine ⟨?_, h.args, h.length, ?_, h.held.trans (harrays f.array)⟩
  · obtain ⟨hlt, -⟩ := List.getElem?_eq_some_iff.mp h.started
    rw [← hmore, List.getElem?_append_left hlt]
    exact h.started
  · rw [Heap.taken, of, hturns]
    exact h.taken

theorem Sound.update (hs : Sound ms s []) {mv : Move H A V} {es : List (Entry H)}
    {arrays : List (List Nat)} {own : EventName → Option Nat}
    (hlength : es.length = (roster (ms ++ [mv])).registered.length)
    (hspent : ∀ (r : Nat) x y, (roster (ms ++ [mv])).registered[r]? = some x → es[r]? = some y →
      y.functor = x.functor ∧ x.count.Spent (runs s.turns r) y.count)
    (hholds : Holds own arrays (roster (ms ++ [mv])).listed)
    (hgrow : ∀ a, s.array a <+: arrays[a]?.getD []) :
    Sound (ms ++ [mv]) { s with entries := es, arrays := arrays, own := own } [] := by
  refine ⟨hs.defined, hlength, hspent, hholds, fun k m hm => ?_, fun k t ht => ?_, hs.order,
    hs.finished, hs.ids, fun f hf => ?_⟩
  · exact (hs.began k m hm).trans (List.prefix_append ..)
  · obtain ⟨m, x, hm, hx, hcall⟩ := hs.turns k t ht
    refine ⟨m, x, hm, ?_, hcall⟩
    obtain ⟨more, hmore⟩ := roster_registered (List.prefix_append ms [mv])
    obtain ⟨hlt, -⟩ := List.getElem?_eq_some_iff.mp hx
    rw [← hmore, List.getElem?_append_left hlt, hx]
  · obtain ⟨⟨m, hat⟩, hrest⟩ := hs.frames f hf
    exact ⟨⟨m, hat.grow List.prefix_rfl rfl hgrow⟩, hrest⟩

theorem Sound.extend {p : List Nat} (hs : Sound ms s p) {mv : Move H A V}
    (hsame : roster (ms ++ [mv]) = roster ms) : Sound (ms ++ [mv]) s p := by
  refine ⟨hs.defined, ?_, ?_, ?_, fun k m hm => ?_, ?_, hs.order, hs.finished, hs.ids, hs.frames⟩
  · rw [hsame]
    exact hs.length
  · rw [hsame]
    exact hs.spent
  · rw [hsame]
    exact hs.holds
  · exact (hs.began k m hm).trans (List.prefix_append ..)
  · rw [hsame]
    exact hs.turns

theorem Sound.emitted {p : List Nat} (hs : Sound ms s p) {t : Turn H A} (ht : t ∈ s.turns) :
    t.emission < s.emissions.length := by
  obtain ⟨k, hk⟩ := List.mem_iff_getElem?.mp ht
  obtain ⟨m, -, hm, -⟩ := hs.turns k t hk
  exact (List.getElem?_eq_some_iff.mp hm).1

theorem Sound.unused {p : List Nat} (hs : Sound ms s p) {r : Nat}
    (hr : (roster ms).registered.length ≤ r) : runs s.turns r = 0 := by
  refine List.countP_eq_zero.mpr fun t ht => ?_
  obtain ⟨k, hk⟩ := List.mem_iff_getElem?.mp ht
  obtain ⟨-, x, -, hx, -⟩ := hs.turns k t hk
  have hlt := (List.getElem?_eq_some_iff.mp hx).1
  have hne : t.registration ≠ r := by omega
  simp [hne]

theorem many_sound (hs : Sound ms s []) {mv : Move H A V} {e : EventName} {x : Entry H}
    (hadd : roster (ms ++ [mv]) = (roster ms).add e x) (hx : x.count.Spent 0 x.count) :
    Sound (ms ++ [mv]) (s.many e x) [] := by
  have hregistered : (roster (ms ++ [mv])).registered = (roster ms).registered ++ [x] := by
    rw [hadd, Roster.add]
  have hlisted : (roster (ms ++ [mv])).listed =
      Function.update (roster ms).listed e ((roster ms).listed e ++ [s.entries.length]) := by
    rw [hadd, Roster.add, hs.length]
  have hlength : (s.entries ++ [x]).length = (roster (ms ++ [mv])).registered.length := by
    rw [hregistered, List.length_append, List.length_append, hs.length]
  have hspent (r : Nat) (x' y : Entry H) (hx' : (roster (ms ++ [mv])).registered[r]? = some x')
      (hy : (s.entries ++ [x])[r]? = some y) :
      y.functor = x'.functor ∧ x'.count.Spent (runs s.turns r) y.count := by
    rw [hregistered] at hx'
    rcases Nat.lt_or_ge r s.entries.length with hr | hr
    · rw [List.getElem?_append_left hr] at hy
      rw [List.getElem?_append_left (hs.length ▸ hr)] at hx'
      exact hs.spent r x' y hx' hy
    · rw [List.getElem?_append_right hr] at hy
      rw [List.getElem?_append_right (hs.length ▸ hr), ← hs.length] at hx'
      obtain rfl := Option.some.inj (hx'.symm.trans hy)
      have h0 : r - s.entries.length = 0 := by
        have := (List.getElem?_eq_some_iff.mp hy).1
        rw [List.length_singleton] at this
        omega
      obtain rfl : x = x' := by simpa [h0] using hx'
      rw [hs.unused (hs.length ▸ hr)]
      exact ⟨rfl, hx⟩
  rw [many]
  split
  · next hown =>
    refine hs.update hlength hspent ?_ (grows_append s.arrays _)
    rw [hlisted, hs.holds.unset e hown, List.nil_append]
    exact hs.holds.fresh e _
  · next a hown =>
    refine hs.update hlength hspent ?_ (grows_modify s.arrays a _)
    rw [hlisted]
    exact hs.holds.push hown _

theorem Sound.relist (hs : Sound ms s []) {mv : Move H A V} {e : EventName} {l : List Nat}
    {arrays : List (List Nat)} {own : EventName → Option Nat}
    (hlist : roster (ms ++ [mv]) =
      { roster ms with listed := Function.update (roster ms).listed e l })
    (hholds : Holds own arrays (Function.update (roster ms).listed e l))
    (hgrow : ∀ a, s.array a <+: arrays[a]?.getD []) :
    Sound (ms ++ [mv]) { s with arrays := arrays, own := own } [] := by
  refine hs.update (?_ : s.entries.length = _) ?_ ?_ hgrow
  · rw [hlist]
    exact hs.length
  · rw [hlist]
    exact hs.spent
  · rw [hlist]
    exact hholds

theorem Sound.functors {p : List Nat} (hs : Sound ms s p) (q : H → Bool) (r : Nat) :
    (s.entries[r]?.all fun x => q x.functor) =
      (roster ms).registered[r]?.all fun x => q x.functor := by
  rcases Nat.lt_or_ge r s.entries.length with hr | hr
  · have hx := List.getElem?_eq_getElem (hs.length ▸ hr : r < (roster ms).registered.length)
    have hy := List.getElem?_eq_getElem hr
    rw [hx, hy, Option.all_some, Option.all_some, (hs.spent r _ _ hx hy).1]
  · rw [List.getElem?_eq_none hr, List.getElem?_eq_none (hs.length ▸ hr)]

theorem off_sound (hs : Sound ms s []) (e : EventName) (h : H) :
    Sound (ms ++ [.off e h]) (s.off e h) [] := by
  have hlist := roster_concat ms (.off e h : Move H A V)
  rw [off]
  split
  · next hown =>
    refine hs.relist hlist ?_ fun _ => List.prefix_rfl
    have hnil := hs.holds.unset e hown
    rw [hnil, List.filter_nil, ← hnil, Function.update_eq_self]
    exact hs.holds
  · next a hown =>
    refine hs.relist hlist ?_ (grows_append s.arrays _)
    have hfilter := List.filter_congr (l := s.array a) fun r _ =>
      hs.functors (fun h' => decide (h' ≠ h)) r
    have harray : s.array a = (roster ms).listed e := (hs.holds.set e a hown).2
    rw [hfilter, harray]
    exact hs.holds.fresh e _

theorem allOff_sound (hs : Sound ms s []) (e : EventName) :
    Sound (ms ++ [.allOff e]) (s.allOff e) [] :=
  hs.relist (roster_concat ms (.allOff e : Move H A V)) (hs.holds.drop e) fun _ => List.prefix_rfl

theorem started_sound (hs : Sound ms s []) (e : EventName) (args : List A) :
    Sound (ms ++ [.emit e args]) { s with emissions := s.emissions ++ [⟨ms, e, args⟩] }
        [s.emissions.length] ∧
      s.taken s.emissions.length = [] ∧ s.calls s.emissions.length = [] := by
  have hsame : roster (ms ++ [.emit e args]) = roster ms := roster_concat ms _
  have hnew : s.of s.emissions.length = [] := by
    refine List.filter_eq_nil_iff.mpr fun t ht => ?_
    have := hs.emitted ht
    simp only [decide_eq_true_eq]
    omega
  have hold {k : Nat} {m : Started H A V} (hm : s.emissions[k]? = some m) :
      (s.emissions ++ [⟨ms, e, args⟩])[k]? = some m := by
    rw [List.getElem?_append_left (List.getElem?_eq_some_iff.mp hm).1, hm]
  have hcases {k : Nat} {m : Started H A V} (hm : (s.emissions ++ [⟨ms, e, args⟩])[k]? = some m) :
      s.emissions[k]? = some m ∨ k = s.emissions.length ∧ m = ⟨ms, e, args⟩ := by
    rcases Nat.lt_or_ge k s.emissions.length with hk | hk
    · rw [List.getElem?_append_left hk] at hm
      exact .inl hm
    · obtain ⟨hlt, -⟩ := List.getElem?_eq_some_iff.mp hm
      rw [List.length_append, List.length_singleton] at hlt
      obtain rfl : k = s.emissions.length := by omega
      rw [List.getElem?_concat_length] at hm
      exact .inr ⟨rfl, (Option.some.inj hm).symm⟩
  have hx := hs.extend hsame
  have htaken : s.taken s.emissions.length = [] := by rw [taken, hnew, List.map_nil]
  refine ⟨⟨hs.defined, hx.length, hx.spent, hx.holds, ?_, ?_, ?_, ?_, ?_, ?_⟩, htaken, ?_⟩
  · intro k m hm
    rcases hcases hm with hm | ⟨-, rfl⟩
    · exact hx.began k m hm
    · exact List.prefix_rfl
  · intro k t ht
    obtain ⟨m, x, hm, hrest⟩ := hx.turns k t ht
    exact ⟨m, x, hold hm, hrest⟩
  · intro k m hm
    rcases hcases hm with hm | ⟨rfl, -⟩
    · exact hs.order k m hm
    · show s.taken s.emissions.length <+: m.listed
      rw [htaken]
      exact List.nil_prefix
  · intro k vs hk
    obtain ⟨m, hm, hrest⟩ := hs.finished k vs hk
    exact ⟨m, hold hm, hrest⟩
  · rw [List.length_append, List.length_singleton, List.range_succ]
    exact (List.perm_append_singleton ..).symm.trans (hs.ids.append_right _)
  · intro f hf
    obtain ⟨⟨m, hat⟩, hrest⟩ := hs.frames f hf
    exact ⟨⟨m, hat.grow (List.prefix_append ..) rfl fun _ => List.prefix_rfl⟩, hrest⟩
  · rw [calls, hnew, List.filterMap_nil]

theorem emit_sound (hs : Sound s.history s []) (e : EventName) (args : List A) :
    Sound (s.history ++ [.emit e args]) (s.emit e args) [] := by
  obtain ⟨hstarted, htaken, hcalls⟩ := started_sound hs e args
  have hnew : (s.emissions ++ [⟨s.history, e, args⟩])[s.emissions.length]? =
      some ⟨s.history, e, args⟩ := List.getElem?_concat_length
  have hlength : ([] : List V).length = (s.calls s.emissions.length).length := by
    rw [hcalls]
    rfl
  rw [emit]
  cases hown : s.own e with
  | none =>
    have hnil : Started.listed ⟨s.history, e, args⟩ = [] := hs.holds.unset e hown
    refine finish_sound (f := ⟨s.emissions.length, 0, 0, 0, args, []⟩) hstarted
      ⟨hnew, rfl, ?_, htaken, ?_⟩ hlength
    · rw [hnil]
      rfl
    · rw [hnil]
      exact List.nil_prefix
  | some a =>
    have harray : s.array a = Started.listed ⟨s.history, e, args⟩ := (hs.holds.set e a hown).2
    exact loop_sound _ hstarted ⟨hnew, rfl, congrArg _ harray, htaken, harray ▸ List.prefix_rfl⟩
      (Nat.zero_add _) hlength

theorem returns_sound (hs : Sound ms s []) {v : V} {t : Heap H A V} (h : s.returns v = some t) :
    Sound (ms ++ [.returns v]) t [] := by
  rw [returns] at h
  split at h
  · cases h
  · next f rest hstack =>
    obtain rfl := Option.some.inj h
    have hx : Sound (ms ++ [.returns v]) s [] := hs.extend (roster_concat ms _)
    have hids := hs.ids
    rw [Heap.ids, hstack] at hids
    obtain ⟨⟨m, hat⟩, hi, hevents⟩ := hs.frames f (hstack ▸ List.mem_cons_self ..)
    have hpopped : Sound (ms ++ [.returns v]) { s with stack := rest } [f.emission] := by
      refine ⟨hx.defined, hx.length, hx.spent, hx.holds, hx.began, hx.turns, hx.order, hx.finished,
        hids, fun g hg => ?_⟩
      obtain ⟨⟨m', hg'⟩, hrest⟩ := hs.frames g (hstack ▸ List.mem_cons_of_mem f hg)
      exact ⟨⟨m', hg'.started, hg'.args, hg'.length, hg'.taken, hg'.held⟩, hrest⟩
    refine loop_sound (f := { f with i := f.i + 1, events := f.events ++ [v] }) (m := m) _ hpopped
      ⟨hat.started, hat.args, hat.length, hat.taken, hat.held⟩ ?_ ?_
    · show f.i + 1 + _ = f.length
      omega
    · rw [List.length_append, List.length_singleton]
      exact hevents

theorem act_sound (hs : Sound s.history s []) {mv : Move H A V} {t : Heap H A V} (hmv : mv.counted)
    (h : s.act mv = some t) : Sound (s.history ++ [mv]) t [] := by
  cases mv with
  | on e h₁ =>
    obtain rfl := Option.some.inj h
    exact many_sound hs (roster_concat _ _) rfl
  | once e h₁ =>
    obtain rfl := Option.some.inj h
    exact many_sound hs (roster_concat _ _) (Count.spent_start (by omega) (by omega))
  | many e h₁ n =>
    obtain rfl := Option.some.inj h
    exact many_sound hs (roster_concat _ _) (Count.spent_start hmv.1 hmv.2)
  | off e h₁ =>
    obtain rfl := Option.some.inj h
    exact off_sound hs e h₁
  | allOff e =>
    obtain rfl := Option.some.inj h
    exact allOff_sound hs e
  | emit e args =>
    obtain rfl := Option.some.inj h
    exact emit_sound hs e args
  | returns v => exact returns_sound hs h

theorem step_sound (hs : Sound s.history s []) {mv : Move H A V} {t : Heap H A V} (hmv : mv.counted)
    (h : s.step mv = some t) : Sound t.history t [] := by
  simp only [step, hs.defined, Bool.false_eq_true, if_false] at h
  obtain ⟨u, hu, rfl⟩ := Option.map_eq_some_iff.mp h
  have hx := act_sound hs hmv hu
  refine ⟨hx.defined, hx.length, hx.spent, hx.holds, hx.began, hx.turns, hx.order, hx.finished,
    hx.ids, fun g hg => ?_⟩
  obtain ⟨⟨m, hat⟩, hrest⟩ := hx.frames g hg
  exact ⟨⟨m, hat.started, hat.args, hat.length, hat.taken, hat.held⟩, hrest⟩

theorem Sound.exact (hs : Sound s.history s []) : s.Exact := by
  refine ⟨hs.defined, fun r x n hx hn => ?_, fun k m hm => ?_, hs.turns, hs.order, hs.finished,
    fun k m hm hk => ?_⟩
  · have hlt := (List.getElem?_eq_some_iff.mp hx).1
    have hy := List.getElem?_eq_getElem (hs.length ▸ hlt : r < s.entries.length)
    have hspent := (hs.spent r x _ hx hy).2
    rw [hn] at hspent
    exact Count.spent_le hspent
  · exact ⟨hs.began k m hm, (roster_ordered m.history).sorted m.event⟩
  · have hmem := hs.ids.mem_iff.mpr (List.mem_range.mpr (List.getElem?_eq_some_iff.mp hm).1)
    rw [List.nil_append, Heap.ids] at hmem
    exact (List.mem_append.mp hmem).resolve_left hk

theorem start_sound : Sound [] (start : Heap H A V) [] :=
  ⟨rfl, rfl, by simp [roster, Roster.empty], ⟨fun _ _ => rfl, by simp [start], by simp [start]⟩,
    by simp [start], by simp [start], by simp [start], by simp [start], List.Perm.refl _,
    by simp [start]⟩

end Heap

section Runs
variable [DecidableEq H]

theorem nested_emissions_exact (ms : List (Move H A V)) (h : ∀ mv ∈ ms, mv.counted) :
    (heaps H A V).always Heap.Exact Heap.start ms := by
  rw [System.always_iff_prefixes]
  intro xs hxs t ht
  have hcounted (mv : Move H A V) (hmv : mv ∈ xs) : mv.counted := h mv (hxs.subset hmv)
  have hs : Heap.Sound t.history t [] :=
    (heaps H A V).run_keeps (fun _ _ _ hs hmv hstep => Heap.step_sound hs hmv hstep)
      Heap.start_sound hcounted ht
  exact hs.exact

end Runs

def data : EventName := ⟨"data", rfl⟩

def reentrant : List (Move Nat Nat Nat) :=
  [.once data 1, .many data 2 2, .emit data [7], .emit data [8], .on data 3, .returns 5, .off data 2,
    .returns 6, .returns 6]

theorem nested_emissions_exact_reentrant : (heaps Nat Nat Nat).always Heap.Exact Heap.start reentrant :=
  nested_emissions_exact reentrant (by decide)

-- 2 ^ 53 + 3 is no double: one less than 2 ^ 53 + 4 is 2 ^ 53 + 4
def unending : Entry Nat := ⟨1, .finite (2 ^ 53 + 4)⟩

def unendingRounds (k : Nat) : List (Move Nat Nat Nat) :=
  (List.replicate k [.emit data [], .returns 0]).flatten

structure Unending (k : Nat) (s : Heap Nat Nat Nat) : Prop where
  defined : s.thrown = false
  stack : s.stack = []
  own : s.own data = some 0
  arrays : s.arrays = [[0]]
  entries : s.entries = [unending]
  runs : runs s.turns 0 = k
  registered : (roster s.history).registered = [unending]

theorem unending_decrement : unending.decrement = unending := by decide

theorem unending_emit {k : Nat} {s : Heap Nat Nat Nat} (hs : Unending k s) :
    s.emit data [] = { s with
      stack := [⟨s.emissions.length, 0, 1, 0, [], []⟩]
      emissions := s.emissions ++ [⟨s.history, data, []⟩]
      turns := s.turns ++ [⟨s.emissions.length, 0, some (1, [])⟩] } := by
  have hpositive : unending.count.positive = true := rfl
  have hentries : [unending].modify 0 Entry.decrement = s.entries := by
    rw [hs.entries, List.modify_zero_cons, unending_decrement]
  simp only [Heap.emit, hs.own, Heap.array, hs.arrays, List.getElem?_cons_zero, Option.getD_some,
    List.length_singleton, Heap.loop, Option.bind_some, hs.entries, Option.map_some, hpositive,
    if_true, Heap.turn, hs.stack]
  rw [hentries, hs.entries]
  rfl

theorem unending_round {k : Nat} {s : Heap Nat Nat Nat} (hs : Unending k s) :
    ∃ t, (heaps Nat Nat Nat).run s [.emit data [], .returns 0] = some t ∧ Unending (k + 1) t := by
  refine ⟨{ s with
    emissions := s.emissions ++ [⟨s.history, data, []⟩]
    turns := s.turns ++ [⟨s.emissions.length, 0, some (1, [])⟩]
    returned := s.returned ++ [(s.emissions.length, [0])]
    history := s.history ++ [.emit data []] ++ [.returns 0] }, ?_, ?_⟩
  · simp only [System.run_cons, heaps, Heap.step, hs.defined, Bool.false_eq_true, if_false, Heap.act,
      unending_emit hs, Option.map_some, Option.bind_some, Heap.returns, Nat.sub_self, Heap.loop,
      List.nil_append, System.run_nil, hs.stack]
  · refine ⟨hs.defined, hs.stack, hs.own, hs.arrays, hs.entries, ?_, ?_⟩
    · rw [runs_concat, hs.runs]
      rfl
    · rw [roster_concat, roster_concat]
      exact hs.registered

theorem unending_rounds {k : Nat} {s : Heap Nat Nat Nat} (hs : Unending k s) (n : Nat) :
    ∃ t, (heaps Nat Nat Nat).run s (unendingRounds n) = some t ∧ Unending (k + n) t := by
  induction n generalizing k s with
  | zero => exact ⟨s, rfl, hs⟩
  | succ n ih =>
    obtain ⟨t, ht, hround⟩ := unending_round hs
    obtain ⟨u, hu, hrounds⟩ := ih hround
    refine ⟨u, ?_, ?_⟩
    · rw [unendingRounds, List.replicate_succ, List.flatten_cons, System.run_append, ht]
      exact hu
    · rw [Nat.add_right_comm] at hrounds
      exact hrounds

theorem unending_run (n : Nat) :
    ∃ t, (heaps Nat Nat Nat).run Heap.start (.many data 1 (2 ^ 53 + 4) :: unendingRounds n) = some t ∧
      Unending n t := by
  have hfirst : Unending 0 { (Heap.start : Heap Nat Nat Nat) with
      own := Function.update (fun _ => none) data (some 0)
      arrays := [[0]]
      entries := [unending]
      history := [.many data 1 (2 ^ 53 + 4)] } := ⟨rfl, rfl, rfl, rfl, rfl, rfl, rfl⟩
  obtain ⟨t, ht, hlast⟩ := unending_rounds hfirst n
  rw [Nat.zero_add] at hlast
  exact ⟨t, ht, hlast⟩

theorem unending_count_overrun :
    ¬ (heaps Nat Nat Nat).always Heap.Exact Heap.start
      (.many data 1 (2 ^ 53 + 4) :: unendingRounds (2 ^ 53 + 5)) := by
  intro h
  obtain ⟨t, ht, hlast⟩ := unending_run (2 ^ 53 + 5)
  have hexact := (System.always_iff_prefixes _ _ _ _).mp h _ List.prefix_rfl t ht
  have hregistered : (roster t.history).registered[0]? = some unending := by
    rw [hlast.registered]
    rfl
  have hle := hexact.bounded 0 unending (2 ^ 53 + 4) hregistered rfl
  rw [hlast.runs] at hle
  omega

end NexusRuntime.EventEmitter
