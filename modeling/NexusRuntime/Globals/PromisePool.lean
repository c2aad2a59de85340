import NexusRuntime.Globals.PromiseCombinators

namespace NexusRuntime.Promises

open Transition

namespace Pool
variable {V H : Type} {R : Runtime V} {C : Collecting V} {s s' : Pool V H} {q : Poll V}

structure Inv (R : Runtime V) (C : Collecting V) (ms : List (Nat × Settled V)) (s : Pool V H) : Prop where
  sound : s.Sound C
  lawful : s.heap.Lawful R ms
  constructed : ∀ q ∈ s.combined, q.promise ∈ s.heap.constructed

variable {ms : List (Nat × Settled V)}

theorem start_inv (R : Runtime V) (C : Collecting V) : (start : Pool V H).Inv R C [] := by
  refine ⟨start_sound, Heap.start_lawful R, ?_⟩
  intro q hq
  cases hq

theorem poll_heap (s : Pool V H) (i : Nat) (q : Poll V) :
    (s.poll C i q).heap = s.heap ∨ ∃ b, q.decide C s.heap.state = some b ∧ (s.poll C i q).heap =
      { s.heap with decisions := s.heap.decisions ++ [(q.promise, b)] }.broadcast q.promise b := by
  cases hdecide : q.decide C s.heap.state with
  | none =>
    refine .inl ?_
    simp only [poll, hdecide]
  | some b =>
    refine .inr ⟨b, rfl, ?_⟩
    simp only [poll, hdecide]

theorem poll_combined (s : Pool V H) (i : Nat) (q : Poll V) : (s.poll C i q).combined = s.combined := by
  cases hdecide : q.decide C s.heap.state <;> simp only [poll, hdecide]

theorem Inv.step {a : Action V H} (h : s.Inv R C ms) (hstep : Pool.step R C s a = some s') :
    ∃ ms', s'.Inv R C ms' := by
  cases a with
  | heap l =>
    obtain ⟨t, ht, rfl⟩ := Option.map_eq_some_iff.mp hstep
    obtain ⟨ms', hlawful⟩ := h.lawful.step ht
    exact ⟨ms', h.sound.heap ht, hlawful, fun q hq => Heap.step_constructed ht (h.constructed q hq)⟩
  | combine c collection =>
    simp only [Pool.step] at hstep
    split at hstep
    · cases hstep
      refine ⟨ms, h.sound.combine h.lawful.tidy c collection, h.lawful.own, ?_⟩
      intro q hq
      rcases List.mem_append.mp hq with hq | hq
      · exact List.mem_append_left _ (h.constructed q hq)
      · rw [List.mem_singleton.mp hq]
        exact List.mem_append_right _ (List.mem_singleton.mpr rfl)
    · cases hstep
  | poll i =>
    obtain ⟨q, hq, rfl⟩ := Option.map_eq_some_iff.mp hstep
    have hmade := h.constructed q (h.sound.polls q (List.mem_of_getElem? hq))
    refine ⟨ms, h.sound.poll hq, ?_, ?_⟩
    · rcases poll_heap (C := C) s i q with heap | ⟨b, -, heap⟩
      · rw [heap]
        exact h.lawful
      · rw [heap]
        exact (h.lawful.decide hmade b).broadcast hmade b
    · intro q' hq'
      rw [poll_combined] at hq'
      rcases poll_heap (C := C) s i q with heap | ⟨b, -, heap⟩
      · rw [heap]
        exact h.constructed q' hq'
      · rw [heap, (Heap.broadcast_frame _ _ b).constructed]
        exact h.constructed q' hq'

def Answered (R : Runtime V) (s : Pool V H) : Prop := ∀ d ∈ s.heap.derived, s.heap.Answers R d

-- whatever a program does with its promises
theorem always_answered (R : Runtime V) (C : Collecting V) (as : List (Action V H)) :
    (system R C).always (Answered R) start as := by
  have hanswered (s : Pool V H) (hs : ∃ ms, s.Inv R C ms) : s.Answered R := by
    obtain ⟨ms, hs⟩ := hs
    intro d hd
    have hsettling := hs.lawful.settling d hd
    exact ⟨hsettling.called, hsettling.outcome⟩
  have hstep (s : Pool V H) (a : Action V H) (t : Pool V H) (hs : ∃ ms, s.Inv R C ms)
      (ht : (system R C).step s a = some t) : ∃ ms, t.Inv R C ms := by
    obtain ⟨ms, hs⟩ := hs
    exact hs.step ht
  exact (system R C).always_of_steps hanswered hstep ⟨[], start_inv R C⟩ as

theorem step_keeps {p : Nat} {st : Settled V} {a : Action V H} (hs : s.heap.state p = some st)
    (hstep : step R C s a = some s') : s'.heap.state p = some st := by
  cases a with
  | heap l =>
    obtain ⟨t, ht, rfl⟩ := Option.map_eq_some_iff.mp hstep
    exact Heap.step_keeps hs ht
  | combine c collection =>
    simp only [step] at hstep
    split at hstep
    · cases hstep
      exact hs
    · cases hstep
  | poll i =>
    obtain ⟨q, hq, rfl⟩ := Option.map_eq_some_iff.mp hstep
    rcases poll_heap (C := C) s i q with heap | ⟨b, -, heap⟩
    · rw [heap]
      exact hs
    · rw [heap]
      exact Heap.broadcast_keeps _ _ b hs

theorem settled_forever (R : Runtime V) (C : Collecting V) {as : List (Action V H)} {p : Nat}
    {st : Settled V} (hrun : (system R C).run s as = some s') (hs : s.heap.state p = some st) :
    s'.heap.state p = some st :=
  (system R C).run_keeps (Q := fun _ => True) (fun _ _ _ hs _ ht => step_keeps hs ht) hs
    (fun _ _ => trivial) hrun

def lists : Collecting (List Nat) := ⟨List.flatten, [], fun _ => false, [104]⟩

def words : Runtime (List Nat) := ⟨[100], [101], fun _ => true⟩

def resolvedOnce : Pool (List Nat) Nat :=
  { (start : Pool (List Nat) Nat) with
    heap := { (Heap.start : Heap (List Nat) Nat) with
      state := fun p => if p = 0 then some (.resolved [5]) else none
      next := 1
      exposed := [0]
      constructed := [0]
      decisions := [(0, .resolve (.plain [5]))] } }

theorem settled_forever_resolvedOnce :
    ∃ t, (system words lists).run resolvedOnce [.heap (.call 0 (.resolve (.plain [6])))] = some t ∧
      t.heap.state 0 = some (.resolved [5]) := by
  let t : Pool (List Nat) Nat :=
    { resolvedOnce with
      heap := { resolvedOnce.heap with
        decisions := [(0, .resolve (.plain [5])), (0, .resolve (.plain [6]))] } }
  have hrun : (system words lists).run resolvedOnce [.heap (.call 0 (.resolve (.plain [6])))] = some t :=
    rfl
  exact ⟨t, hrun, settled_forever words lists hrun rfl⟩

-- every task of all and race that is left would be scheduled again, and nothing else is left
def Idle (C : Collecting V) (s : Pool V H) : Prop :=
  s.heap.jobs = [] ∧ ∀ q ∈ s.polls, q.decide C s.heap.state = none

structure Combines (C : Collecting V) (s : Pool V H) (q : Poll V) : Prop where
  outcome : ∀ st, s.heap.state q.promise = some st → q.Outcome C s.heap st
  waits : s.Idle C → s.heap.state q.promise = none → q.Waits s.heap

def Combined (C : Collecting V) (s : Pool V H) : Prop := ∀ q ∈ s.combined, s.Combines C q

theorem Status.combines (hst : Status C s.heap s.polls q) : s.Combines C q := by
  cases hst with
  | polled hq hs hnot =>
    constructor
    · intro st hst
      rw [hs] at hst
      cases hst
    · intro hidle _
      exact Poll.waits_of_undecided (hidle.2 q hq)
  | ending st hq ho hs hj hjobs hwaiting =>
    constructor
    · intro st hst
      rw [hs] at hst
      cases hst
    · intro hidle _
      rw [hidle.1] at hj
      cases hj
  | ended st hq ho hs =>
    constructor
    · intro st' hst
      rw [hs] at hst
      cases hst
      exact ho
    · intro _ hpending
      rw [hs] at hpending
      cases hpending

theorem always_combined (R : Runtime V) (C : Collecting V) (as : List (Action V H)) :
    (system R C).always (Combined C) start as := by
  have hcombined (s : Pool V H) (hs : ∃ ms, s.Inv R C ms) : s.Combined C := by
    obtain ⟨ms, hs⟩ := hs
    exact fun q hq => (hs.sound.status q hq).combines
  have hstep (s : Pool V H) (a : Action V H) (t : Pool V H) (hs : ∃ ms, s.Inv R C ms)
      (ht : (system R C).step s a = some t) : ∃ ms, t.Inv R C ms := by
    obtain ⟨ms, hs⟩ := hs
    exact hs.step ht
  exact (system R C).always_of_steps hcombined hstep ⟨[], start_inv R C⟩ as

-- the program uses only the promises that it was given
def Uses (s : Pool V H) : Action V H → Prop
  | .heap l => s.heap.Uses l
  | .combine _ _ => True
  | .poll _ => True

theorem reserved_step {a : Action V H} (h : s.heap.Reserved) (hinv : s.Inv R C ms) (ha : s.Uses a)
    (hstep : step R C s a = some s') : s'.heap.Reserved := by
  cases a with
  | heap l =>
    obtain ⟨t, ht, rfl⟩ := Option.map_eq_some_iff.mp hstep
    exact h.step hinv.lawful.tidy ha ht
  | combine c collection =>
    simp only [step] at hstep
    split at hstep
    · cases hstep
      refine h.grows ?_ fun u hu => .inl hu
      rintro r (hr | hr)
      · exact .inl (List.mem_append_left _ hr)
      · exact .inr hr
    · cases hstep
  | poll i =>
    obtain ⟨q, hq, rfl⟩ := Option.map_eq_some_iff.mp hstep
    rcases poll_heap (C := C) s i q with heap | ⟨b, hb, heap⟩
    · rw [heap]
      exact h
    · rw [heap]
      let noted : Heap V H := { s.heap with decisions := s.heap.decisions ++ [(q.promise, b)] }
      have hnoted : noted.Reserved := h
      refine hnoted.grows (fun r hr => hr.frame (Heap.broadcast_frame noted q.promise b)) ?_
      intro u hu
      generalize ht : noted.broadcast q.promise b = t at hu
      have heffect := Heap.broadcast_effect noted q.promise b
      rw [ht] at heffect
      cases heffect with
      | same => exact .inl hu
      | settle st hp hb => exact .inl hu
      | follow r st hp hb hne hr => exact .inl hu
      | adopt r hp hadopts hne hr =>
        rcases Poll.decide_sound hb with ⟨st, hsettled, -⟩ | ⟨r', v, hfollows, hr', -⟩
        · rw [hadopts] at hsettled
          cases hsettled
        · rw [hadopts] at hfollows
          cases hfollows
          rw [show s.heap.state r = none from hr] at hr'
          cases hr'

def Unlost (R : Runtime V) (s : Pool V H) : Prop :=
  s.heap.jobs = [] → ∀ d ∈ s.heap.derived, s.heap.state d.promise = none → s.heap.Stalls R d

theorem always_unlost (R : Runtime V) (C : Collecting V) (as : List (Action V H))
    (h : (system R C).meets Uses start as) : (system R C).always (Unlost R) start as := by
  have hunlost (s : Pool V H) (hs : (∃ ms, s.Inv R C ms) ∧ s.heap.Reserved) : s.Unlost R := by
    obtain ⟨⟨ms, hinv⟩, hreserved⟩ := hs
    intro hjobs d hd hpending
    exact hinv.lawful.stalls hreserved hjobs hd hpending
  have hstep (s : Pool V H) (a : Action V H) (t : Pool V H)
      (hs : (∃ ms, s.Inv R C ms) ∧ s.heap.Reserved) (ha : s.Uses a)
      (ht : (system R C).step s a = some t) : (∃ ms, t.Inv R C ms) ∧ t.heap.Reserved := by
    obtain ⟨⟨ms, hinv⟩, hreserved⟩ := hs
    exact ⟨hinv.step ht, reserved_step hreserved hinv ha ht⟩
  exact (system R C).always_of_meets hunlost hstep ⟨⟨[], start_inv R C⟩, Heap.start_reserved⟩ h

-- catch on a promise that is resolved then, and all of both promises
def catchRun : List (Action (List Nat) Nat) :=
  [.heap .construct, .heap (.run 0), .heap (.thenOn 0 none (some 1)),
    .combine .all [.promise 0, .promise 1, .plain [9]], .heap (.call 0 (.resolve (.plain [5]))),
    .heap (.finish 0 (.returned (.plain [0]))), .poll 0]

theorem unlost_catchRun :
    (system words lists).meets Uses start catchRun ∧
      (system words lists).always (Unlost words) start catchRun := by
  have hmeets : (system words lists).meets Uses start catchRun := by
    refine ⟨trivial, trivial, .inl (List.mem_singleton.mpr rfl), trivial, ?_, ?_, trivial, trivial⟩
    · rintro r ⟨⟩
    · rintro r ⟨⟩
  exact ⟨hmeets, always_unlost words lists catchRun hmeets⟩

end Pool

end NexusRuntime.Promises
