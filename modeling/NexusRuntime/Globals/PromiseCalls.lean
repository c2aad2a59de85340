import NexusRuntime.Globals.PromiseKept
import NexusRuntime.Globals.PromiseTokens

namespace NexusRuntime.Promises

open Transition

namespace Heap
variable {V H : Type}

-- what the reject handler beside a resolve handler is called with
def Raised (R : Runtime V) (q : Nat) (o : Completion V) (e : Value V) : Prop :=
  o = .threw e ∨ (o = .returned (.promise q) ∧ e = .plain R.selfResolved)

-- the handlers of one call of then: which of them were called, in which order and with what
inductive Called (R : Runtime V) (s : Heap V H) (d : Derived H) : Prop
  | never (hc : s.callsFor d.promise = [])
  | once (st : Settled V) (h : H) (o : Completion V) (hs : s.state d.source = some st)
      (hh : d.handler st = some h) (hc : s.callsFor d.promise = [⟨d.promise, h, st.value, o⟩])
  | rescued (v : V) (f g : H) (o o' : Completion V) (e : Value V)
      (hs : s.state d.source = some (.resolved v)) (hf : d.resolve = some f) (hg : d.reject = some g)
      (hr : Raised R d.promise o e)
      (hc : s.callsFor d.promise = [⟨d.promise, f, .plain v, o⟩, ⟨d.promise, g, e, o'⟩])

-- the calls of handlers that end without a broadcast
inductive Swallows (R : Runtime V) (s : Heap V H) (d : Derived H) : Prop
  | rejecting (g : H) (x e : Value V) (hg : d.reject = some g) (he : R.canAssign e = false)
      (hc : s.callsFor d.promise = [⟨d.promise, g, x, .threw e⟩])
  | rescuing (c : Call V H) (g : H) (x : Value V) (o : Completion V) (hg : d.reject = some g)
      (ho : (∃ e, o = .threw e) ∨ o = .returned (.promise d.promise))
      (hc : s.callsFor d.promise = [c, ⟨d.promise, g, x, o⟩])

-- the promises that the program was given
def Held (s : Heap V H) (q : Nat) : Prop := q ∈ s.constructed ∨ ∃ d ∈ s.derived, d.promise = q

-- a promise that then made for itself, and what it is settled with
def Hidden (s : Heap V H) (r : Nat) (st : Settled V) : Prop :=
  r < s.next ∧ ¬s.Held r ∧ (s.state r = some st ∨ .settle r st.broadcast ∈ s.jobs)

-- why the promise of d is still pending; `overheard`: another subscriber of the promise that then made
inductive Pends (R : Runtime V) (ms : List (Nat × Settled V)) (s : Heap V H) (d : Derived H) : Prop
  | waits (u : Subscription H) (hu : u ∈ s.waiting) (hq : u.promise = d.promise)
  | task (j : Job V H) (hj : j ∈ s.jobs) (hq : j.target = some d.promise)
  | deaf (st : Settled V) (hs : s.state d.source = some st) (hh : d.handler st = none)
  | overheard (r : Nat) (st : Settled V) (u : Subscription H) (hm : (r, st) ∈ ms)
      (hu : u ∈ s.subscribers) (hr : u.source = r) (hreject : u.handlers.hasReject = true)
  | swallowed (h : s.Swallows R d)

-- the last call of a handler of d ended with o
def Ends (s : Heap V H) (d : Derived H) (o : Completion V) : Prop :=
  ∃ cs h x, s.callsFor d.promise = cs ++ [⟨d.promise, h, x, o⟩]

-- what the promise of d is settled with
inductive Outcome (R : Runtime V) (s : Heap V H) (d : Derived H) : Settled V → Prop
  | returned (v : V) (h : s.Ends d (.returned (.plain v))) : Outcome R s d (.resolved v)
  | threw (e : Value V) (h : s.Ends d (.threw e)) : Outcome R s d (.rejected e)
  | self (h : s.Ends d (.returned (.promise d.promise))) : Outcome R s d (.rejected (.plain R.selfResolved))
  | adopted (r : Nat) (st : Settled V) (h : s.Ends d (.returned (.promise r))) (hne : r ≠ d.promise)
      (hr : s.state r = some st) : Outcome R s d st
  | forwarded (x : Value V) (hs : s.state d.source = some (.rejected x)) (hc : s.callsFor d.promise = []) :
      Outcome R s d (.rejected x)
  | invalid (hf : d.resolve = none) (hg : d.reject = none) (hc : s.callsFor d.promise = []) :
      Outcome R s d (.rejected (.plain R.invalidArguments))

inductive Expects (R : Runtime V) (s : Heap V H) (d : Derived H) : Job V H → Prop
  | settle (p : Nat) (b : Broadcast V) (ho : ∀ st, b.settled = some st → s.Outcome R d st) :
      Expects R s d (.settle p b)
  | resolve (f : H) (g : Option H) (p : Nat) (v : V) (hf : d.resolve = some f)
      (hg : g = none ∨ g = d.reject) (hs : s.state d.source = some (.resolved v))
      (hc : s.callsFor d.promise = []) : Expects R s d (.resolve f g p v)
  | resolving (f : H) (g : Option H) (p : Nat) (v : V) (hf : d.resolve = some f)
      (hg : g = none ∨ g = d.reject) (hs : s.state d.source = some (.resolved v))
      (hc : s.callsFor d.promise = []) : Expects R s d (.resolving f g p v)
  | reject (g : H) (p : Nat) (x : Value V) (hg : d.reject = some g)
      (hs : s.state d.source = some (.rejected x)) (hc : s.callsFor d.promise = []) :
      Expects R s d (.reject g p x)
  | rejecting (g : H) (p : Nat) (x : Value V) (hg : d.reject = some g)
      (hs : s.state d.source = some (.rejected x)) (hc : s.callsFor d.promise = []) :
      Expects R s d (.rejecting g p x)
  | rescuing (f g : H) (p : Nat) (v : V) (e : Value V) (o : Completion V) (hf : d.resolve = some f)
      (hg : d.reject = some g) (hs : s.state d.source = some (.resolved v)) (hr : Raised R d.promise o e)
      (hc : s.callsFor d.promise = [⟨d.promise, f, .plain v, o⟩]) : Expects R s d (.rescuing g p e)

inductive Awaits (ms : List (Nat × Settled V)) (s : Heap V H) (d : Derived H) : Subscription H → Prop
  | adoption (r q : Nat) (h : s.Ends d (.returned (.promise r))) (hne : r ≠ d.promise) :
      Awaits ms s d ⟨r, .adoption, q⟩
  | direct (hc : s.callsFor d.promise = []) :
      Awaits ms s d ⟨d.source, .reaction d.resolve d.reject, d.promise⟩
  | late (r : Nat) (st : Settled V) (h : H) (hm : (r, st) ∈ ms) (hs : s.state d.source = some st)
      (hh : d.handler st = some h) (hc : s.callsFor d.promise = []) :
      Awaits ms s d ⟨r, .reaction (some h) none, d.promise⟩

structure Settling (R : Runtime V) (ms : List (Nat × Settled V)) (s : Heap V H) (d : Derived H) :
    Prop where
  called : s.Called R d
  jobs : ∀ j ∈ s.jobs, j.target = some d.promise → s.Expects R d j
  waiting : ∀ u ∈ s.waiting, u.promise = d.promise → s.Awaits ms d u
  outcome : ∀ st, s.state d.promise = some st → s.Outcome R d st
  pends : s.state d.promise = none → s.Pends R ms d

-- `ms`: the hidden promises of the calls of then on settled promises
structure Lawful (R : Runtime V) (ms : List (Nat × Settled V)) (s : Heap V H) : Prop where
  tidy : s.Tidy
  hidden : ∀ r st, (r, st) ∈ ms → s.Hidden r st
  settling : ∀ d ∈ s.derived, s.Settling R ms d

variable {R : Runtime V} {ms ms' : List (Nat × Settled V)} {s s' : Heap V H} {d : Derived H}
variable {T : Nat → Prop} {st : Settled V}

theorem Hidden.not_constructed {r : Nat} (h : s.Hidden r st) : r ∉ s.constructed :=
  fun hin => h.2.1 (.inl hin)

theorem Hidden.settled {r : Nat} {st' : Settled V} (h : s.Hidden r st) (htidy : s.Tidy)
    (hs : s.state r = some st') : st' = st := by
  have hprivate := h.not_constructed
  obtain ⟨-, -, hstate | hj⟩ := h
  · rw [hs] at hstate
    exact Option.some.inj hstate
  · rw [htidy.pending r (mem_targets_of_job hj rfl) hprivate] at hs
    cases hs

theorem Held.same {q : Nat} (h : s'.Held q) (hconstructed : s'.constructed = s.constructed)
    (hderived : s'.derived = s.derived) : s.Held q := by
  rw [Held, hconstructed, hderived] at h
  exact h

theorem Hidden.carries {r : Nat} (h : s.Hidden r st) (hc : Carries T s s') (hT : ¬T r)
    (hnext : s.next ≤ s'.next) (hprivate : ¬s'.Held r) : s'.Hidden r st := by
  obtain ⟨hlt, -, hstate | hj⟩ := h
  · exact ⟨Nat.lt_of_lt_of_le hlt hnext, hprivate, .inl (hc.state r st hstate)⟩
  · exact ⟨Nat.lt_of_lt_of_le hlt hnext, hprivate, .inr (hc.jobs _ hj r rfl hT)⟩

theorem Called.carries (h : s.Called R d) (hstate : ∀ q st, s.state q = some st → s'.state q = some st)
    (hcalls : s'.callsFor d.promise = s.callsFor d.promise) : s'.Called R d := by
  cases h with
  | never hc => exact .never (hcalls.trans hc)
  | once st h o hs hh hc => exact .once st h o (hstate _ _ hs) hh (hcalls.trans hc)
  | rescued v f g o o' e hs hf hg hr hc =>
    exact .rescued v f g o o' e (hstate _ _ hs) hf hg hr (hcalls.trans hc)

theorem Swallows.carries (h : s.Swallows R d) (hcalls : s'.callsFor d.promise = s.callsFor d.promise) :
    s'.Swallows R d := by
  cases h with
  | rejecting g x e hg he hc => exact .rejecting g x e hg he (hcalls.trans hc)
  | rescuing c g x o hg ho hc => exact .rescuing c g x o hg ho (hcalls.trans hc)

theorem Ends.carries {o : Completion V} (h : s.Ends d o)
    (hcalls : s'.callsFor d.promise = s.callsFor d.promise) : s'.Ends d o := by
  rw [Ends, hcalls]
  exact h

theorem Outcome.carries (h : s.Outcome R d st) (hstate : ∀ q st, s.state q = some st → s'.state q = some st)
    (hcalls : s'.callsFor d.promise = s.callsFor d.promise) : s'.Outcome R d st := by
  cases h with
  | returned v h => exact .returned v (h.carries hcalls)
  | threw e h => exact .threw e (h.carries hcalls)
  | self h => exact .self (h.carries hcalls)
  | adopted r st h hne hr => exact .adopted r st (h.carries hcalls) hne (hstate _ _ hr)
  | forwarded x hs hc => exact .forwarded x (hstate _ _ hs) (hcalls.trans hc)
  | invalid hf hg hc => exact .invalid hf hg (hcalls.trans hc)

theorem Expects.carries {j : Job V H} (h : s.Expects R d j)
    (hstate : ∀ q st, s.state q = some st → s'.state q = some st)
    (hcalls : s'.callsFor d.promise = s.callsFor d.promise) : s'.Expects R d j := by
  cases h with
  | settle p b ho => exact .settle p b fun st hb => (ho st hb).carries hstate hcalls
  | resolve f g p v hf hg hs hc => exact .resolve f g p v hf hg (hstate _ _ hs) (hcalls.trans hc)
  | resolving f g p v hf hg hs hc => exact .resolving f g p v hf hg (hstate _ _ hs) (hcalls.trans hc)
  | reject g p x hg hs hc => exact .reject g p x hg (hstate _ _ hs) (hcalls.trans hc)
  | rejecting g p x hg hs hc => exact .rejecting g p x hg (hstate _ _ hs) (hcalls.trans hc)
  | rescuing f g p v e o hf hg hs hr hc =>
    exact .rescuing f g p v e o hf hg (hstate _ _ hs) hr (hcalls.trans hc)

theorem Awaits.carries {u : Subscription H} (h : s.Awaits ms d u) (hc : Carries T s s')
    (hT : ¬T d.promise) (hms : ∀ m ∈ ms, m ∈ ms') : s'.Awaits ms' d u := by
  have hcalls := hc.calls d.promise hT
  cases h with
  | adoption r q h hne => exact .adoption r q (h.carries hcalls) hne
  | direct h => exact .direct (hcalls.trans h)
  | late r st h hm hs hh hcs => exact .late r st h (hms _ hm) (hc.state _ _ hs) hh (hcalls.trans hcs)

-- what a subscriber is told is what it awaits
theorem Awaits.heard {u : Subscription H} {rejecters : Bool} {j : Job V H} (h : s.Awaits ms d u)
    (hs : s.state u.source = some st) (hhidden : ∀ r st', (r, st') ∈ ms → s.state r = some st → st = st')
    (hj : u.heard rejecters st = some j) : s.Expects R d j := by
  cases h with
  | adoption r q h hne =>
    have hadopted : ∀ st', st.broadcast.settled = some st' → s.Outcome R d st' := by
      intro st' hst'
      rw [st.broadcast_settled] at hst'
      cases hst'
      exact .adopted r st h hne hs
    cases st with
    | resolved v =>
      cases hj
      exact .settle _ _ hadopted
    | rejected x =>
      cases rejecters <;> cases hj
      · exact .settle _ _ hadopted
      · exact .settle _ _ hadopted
  | direct hc =>
    cases st with
    | resolved v =>
      cases hf : d.resolve with
      | none =>
        rw [hf] at hj
        cases hj
      | some f =>
        rw [hf] at hj
        cases hj
        exact .resolve f d.reject _ v hf (.inr rfl) hs hc
    | rejected x =>
      cases rejecters with
      | false =>
        simp only [Subscription.heard, Bool.false_eq_true, if_false] at hj
        split at hj
        · cases hj
          refine .settle _ _ ?_
          rintro _ ⟨⟩
          exact .forwarded x hs hc
        · cases hj
      | true =>
        cases hg : d.reject with
        | none =>
          rw [hg] at hj
          cases hj
        | some g =>
          rw [hg] at hj
          cases hj
          exact .reject g _ x hg hs hc
  | late r st' h hm hsource hh hc =>
    obtain rfl := hhidden r st' hm hs
    cases st with
    | resolved v =>
      cases hj
      exact .resolve h none _ v hh (.inl rfl) hsource hc
    | rejected x =>
      cases rejecters <;> cases hj
      refine .settle _ _ ?_
      rintro _ ⟨⟩
      exact .forwarded x hsource hc

-- a subscriber that is told nothing has no handler for it
theorem Awaits.missed {u : Subscription H} (h : s.Awaits ms d u) (hs : s.state u.source = some st)
    (hhidden : ∀ r st', (r, st') ∈ ms → s.state r = some st → st = st') (hmissed : s.Missed u st) :
    s.Pends R ms d := by
  obtain ⟨⟨f, g, hhandlers, hdeaf⟩, hothers⟩ := hmissed
  cases h with
  | adoption r q h hne => cases hhandlers
  | direct hc =>
    cases hhandlers
    refine .deaf st hs ?_
    cases st with
    | resolved v => exact hdeaf
    | rejected x => exact hdeaf
  | late r st' k hm hsource hh hc =>
    cases hhandlers
    obtain rfl := hhidden r st' hm hs
    cases st with
    | resolved v => cases hdeaf
    | rejected x =>
      obtain ⟨v, hv, hr, hreject⟩ := hothers rfl ⟨x, rfl⟩
      exact .overheard r _ v hm hv hr hreject

theorem Pends.carries (h : s.Pends R ms d) (hc : Carries T s s') (hT : ¬T d.promise)
    (hms : ∀ m ∈ ms, m ∈ ms')
    (hmissed : ∀ u ∈ s.waiting, ∀ st, u.promise = d.promise → s'.state u.source = some st →
      s'.Missed u st → s'.Pends R ms' d) : s'.Pends R ms' d := by
  cases h with
  | waits u hu hq =>
    rcases hc.waiting u hu (by rw [hq]; exact hT) with hu' | ⟨st, hst, ⟨j, hj, ht⟩ | h⟩
    · exact .waits u hu' hq
    · rw [hq] at ht
      exact .task j hj ht
    · exact hmissed u hu st hq hst h
  | task j hj hq => exact .task j (hc.jobs j hj _ hq hT) hq
  | deaf st hs hh => exact .deaf st (hc.state _ _ hs) hh
  | overheard r st u hm hu hr hreject =>
    exact .overheard r st u (hms _ hm) (hc.subscribers u hu) hr hreject
  | swallowed h => exact .swallowed (h.carries (hc.calls _ hT))

theorem Settling.carries (h : s.Settling R ms d) (hc : Carries T s s') (hT : ¬T d.promise)
    (hms : ∀ m ∈ ms, m ∈ ms')
    (hhidden : ∀ r st st', (r, st') ∈ ms' → s'.state r = some st → st = st') : s'.Settling R ms' d := by
  have hsame := hc.same d.promise hT
  refine ⟨h.called.carries hc.state (hc.calls _ hT), ?_, ?_, ?_, ?_⟩
  · intro j hj ht
    rcases hc.fromJobs j hj _ ht hT with hj | ⟨u, hu, st, rejecters, hst, hheard⟩
    · exact (h.jobs j hj ht).carries hc.state (hc.calls _ hT)
    · rw [Subscription.heard_target hheard] at ht
      have hawaits := (h.waiting u hu (Option.some.inj ht)).carries hc hT hms
      exact hawaits.heard hst (fun r st' hm hs => hhidden r st st' hm hs) hheard
  · intro u hu hpromise
    rw [← hpromise] at hT
    have hin := hc.fromWaiting u hu hT
    rw [hpromise] at hT
    exact (h.waiting u hin hpromise).carries hc hT hms
  · intro st hst
    rw [hsame] at hst
    exact (h.outcome st hst).carries hc.state (hc.calls _ hT)
  · intro hpending
    rw [hsame] at hpending
    refine (h.pends hpending).carries hc hT hms ?_
    intro u hu st hq hst hmissed
    exact ((h.waiting u hu hq).carries hc hT hms).missed hst (fun r st' hm hs => hhidden r st st' hm hs)
      hmissed

theorem Lawful.carries (h : s.Lawful R ms) (hc : Carries T s s') (htidy : s'.Tidy)
    (hms : ∀ m ∈ ms, m ∈ ms') (hhidden : ∀ r st, (r, st) ∈ ms' → s'.Hidden r st)
    (hd : ∀ d ∈ s'.derived, s'.Settling R ms' d ∨ (d ∈ s.derived ∧ ¬T d.promise)) : s'.Lawful R ms' := by
  refine ⟨htidy, hhidden, ?_⟩
  intro d hmem
  rcases hd d hmem with h' | ⟨hmem, hT⟩
  · exact h'
  · exact (h.settling d hmem).carries hc hT hms fun r st st' hm hs => (hhidden r st' hm).settled htidy hs

section Task
variable {i t : Nat} {j : Job V H} {cs : List (Call V H)} {ds : List (Nat × Broadcast V)} {n : Next V H}

theorem broadcast_tokens (hnot : t ∉ s.targets) (b : Broadcast V) :
    (∀ j ∈ (s.broadcast t b).jobs, j.target = some t → ∃ r st, b = .resolve (.promise r) ∧ r ≠ t ∧
        (s.broadcast t b).state r = some st ∧ j = .settle t st.broadcast) ∧
      ∀ u ∈ (s.broadcast t b).waiting, u.promise = t → ∃ r, b = .resolve (.promise r) ∧ r ≠ t ∧
        u = ⟨r, .adoption, t⟩ := by
  have hjobs (j : Job V H) (hj : j ∈ s.jobs) : j.target ≠ some t :=
    fun ht => hnot (mem_targets_of_job hj ht)
  have hwaiting (u : Subscription H) (hu : u ∈ s.waiting) : u.promise ≠ t := by
    rintro rfl
    exact hnot (mem_targets_of_waiting hu)
  generalize hs : s.broadcast t b = s'
  have heffect := broadcast_effect s t b
  rw [hs] at heffect
  cases heffect with
  | same => exact ⟨fun j hj ht => absurd ht (hjobs j hj), fun u hu hq => absurd hq (hwaiting u hu)⟩
  | settle st hp hb =>
    constructor
    · intro j hj ht
      rcases List.mem_append.mp hj with hj | hj
      · exact absurd ht (hjobs j hj)
      · have htarget := (notifications_targets s t st).subset (List.mem_filterMap.mpr ⟨j, hj, ht⟩)
        rw [subscribersOf_waiting hp] at htarget
        obtain ⟨u, hu, hq⟩ := List.mem_map.mp htarget
        exact absurd hq (hwaiting u (List.mem_filter.mp hu).1)
    · intro u hu hq
      rw [settle_waiting] at hu
      exact absurd hq (hwaiting u (List.mem_filter.mp hu).1)
  | follow r st hp hb hne hr =>
    refine ⟨?_, fun u hu hq => absurd hq (hwaiting u hu)⟩
    intro j hj ht
    rcases List.mem_append.mp hj with hj | hj
    · exact absurd ht (hjobs j hj)
    · exact ⟨r, st, hb, hne, hr, List.mem_singleton.mp hj⟩
  | adopt r hp hb hne hr =>
    refine ⟨fun j hj ht => absurd ht (hjobs j hj), ?_⟩
    intro u hu hq
    obtain ⟨hmem, hpending⟩ := mem_waiting.mp hu
    rcases List.mem_append.mp hmem with hmem | hmem
    · exact absurd hq (hwaiting u (mem_waiting.mpr ⟨hmem, hpending⟩))
    · exact ⟨r, hb, hne, List.mem_singleton.mp hmem⟩

theorem broadcast_pends {b : Broadcast V} (hb : b ≠ .resolve (.promise d.promise))
    (hp : s.state d.promise = none) (hpending : (s.broadcast d.promise b).state d.promise = none) :
    (s.broadcast d.promise b).Pends R ms d := by
  generalize hs : s.broadcast d.promise b = s' at hpending ⊢
  have heffect := broadcast_effect s d.promise b
  rw [hs] at heffect
  cases heffect with
  | same hsame => exact (hsame.elim (fun h => h hp) hb).elim
  | settle st hp' hst =>
    rw [settle_state, if_pos rfl] at hpending
    cases hpending
  | follow r st hp' hb' hne hr => exact .task _ (List.mem_append_right _ (List.mem_singleton.mpr rfl)) rfl
  | adopt r hp' hb' hne hr =>
    exact .waits ⟨r, .adoption, d.promise⟩
      (mem_waiting.mpr ⟨List.mem_append_right _ (List.mem_singleton.mpr rfl), hr⟩) rfl

theorem broadcast_settled {b : Broadcast V} (hp : s.state t = none)
    (hst : (s.broadcast t b).state t = some st) : b.settled = some st := by
  generalize hs : s.broadcast t b = s' at hst
  have heffect := broadcast_effect s t b
  rw [hs] at heffect
  cases heffect with
  | same => rw [hp] at hst; cases hst
  | settle st' hp' hb =>
    rw [settle_state, if_pos rfl] at hst
    rw [hb, hst]
  | follow r st' hp' hb hne hr =>
    rw [show (s.schedule [.settle t st'.broadcast]).state t = none from hp] at hst
    cases hst
  | adopt r hp' hb hne hr =>
    rw [show s.state t = none from hp] at hst
    cases hst

-- the ways on for the promise of d
inductive Goes (R : Runtime V) (s : Heap V H) (d : Derived H) : Next V H → Prop
  | broadcast (b : Broadcast V) (hb : b ≠ .resolve (.promise d.promise))
      (hst : ∀ st, b.settled = some st → s.Outcome R d st)
      (hr : ∀ r, b = .resolve (.promise r) → s.Ends d (.returned (.promise r))) :
      Goes R s d (.broadcast d.promise b)
  | job (j : Job V H) (hj : j.target = some d.promise) (he : s.Expects R d j) : Goes R s d (.job j)
  | nothing (h : s.Swallows R d) : Goes R s d .nothing

theorem proceed_settling (hnot : d.promise ∉ s.targets) (hp : s.state d.promise = none)
    (hcalled : (s.proceed n).Called R d) (hn : (s.proceed n).Goes R d n) :
    (s.proceed n).Settling R ms d := by
  have hwaiting (u : Subscription H) (hu : u ∈ s.waiting) (hq : u.promise = d.promise) : False := by
    rw [← hq] at hnot
    exact hnot (mem_targets_of_waiting hu)
  refine ⟨hcalled, ?_, ?_, ?_, ?_⟩
  · intro j hj ht
    cases hn with
    | broadcast b hb hst hr =>
      obtain ⟨r, st, hfollows, hne, hsource, rfl⟩ := (broadcast_tokens hnot b).1 j hj ht
      refine .settle _ _ ?_
      intro st' hst'
      rw [st.broadcast_settled] at hst'
      cases hst'
      exact .adopted r st (hr r hfollows) hne hsource
    | job j' hj' he =>
      rcases List.mem_append.mp hj with hj | hj
      · exact absurd (mem_targets_of_job hj ht) hnot
      · rw [List.mem_singleton.mp hj]
        exact he
    | nothing h => exact absurd (mem_targets_of_job hj ht) hnot
  · intro u hu hq
    cases hn with
    | broadcast b hb hst hr =>
      obtain ⟨r, hadopts, hne, rfl⟩ := (broadcast_tokens hnot b).2 u hu hq
      exact .adoption r _ (hr r hadopts) hne
    | job j' hj' he => exact (hwaiting u hu hq).elim
    | nothing h => exact (hwaiting u hu hq).elim
  · intro st hst
    cases hn with
    | broadcast b hb hsettled hr => exact hsettled st (broadcast_settled hp hst)
    | job j' hj' he =>
      rw [show (s.proceed (.job j')).state d.promise = none from hp] at hst
      cases hst
    | nothing h =>
      rw [show (s.proceed .nothing).state d.promise = none from hp] at hst
      cases hst
  · intro hpending
    cases hn with
    | broadcast b hb hst hr => exact broadcast_pends hb hp hpending
    | job j' hj' he => exact .task j' (List.mem_append_right _ (List.mem_singleton.mpr rfl)) hj'
    | nothing h => exact .swallowed h

theorem task_calls (hcs : ∀ c ∈ cs, c.promise = t) (n : Next V H) :
    ((s.leave i [] cs ds).proceed n).callsFor t = s.callsFor t ++ cs := by
  have hself : cs.filter (fun c => c.promise == t) = cs := by
    refine List.filter_eq_self.mpr ?_
    intro c hc
    exact beq_iff_eq.mpr (hcs c hc)
  rw [callsFor, (proceed_frame _ n).calls]
  show (s.calls ++ cs).filter _ = _
  rw [List.filter_append, hself, callsFor]

theorem start_goes (h : s.Settling R ms d) (htidy : s.Tidy) (hj : j ∈ s.jobs)
    (ht : j.target = some d.promise) (hn : j.start = some n)
    (hstate : ∀ q st, s.state q = some st → s'.state q = some st)
    (hcalls : s'.callsFor d.promise = s.callsFor d.promise) : s'.Goes R d n := by
  have he := (h.jobs j hj ht).carries hstate hcalls
  cases he with
  | settle p b ho =>
    cases ht
    cases hn
    have hsettles := htidy.settles _ _ hj
    refine .broadcast b ?_ ho ?_
    · rintro rfl
      cases hsettles
    · rintro r rfl
      cases hsettles
  | resolve f g p v hf hg hs hc =>
    cases ht
    cases hn
    exact .job _ rfl (.resolving f g _ v hf hg hs hc)
  | reject g p x hg hs hc =>
    cases ht
    cases hn
    exact .job _ rfl (.rejecting g _ x hg hs hc)
  | resolving f g p v hf hg hs hc => cases hn
  | rejecting g p x hg hs hc => cases hn
  | rescuing f g p v e o hf hg hs hr hc => cases hn

theorem goes_returned {value : Value V} (hself : value.isPromise d.promise = false)
    (h : s'.Ends d (.returned value)) : s'.Goes R d (.broadcast d.promise (.resolve value)) := by
  refine .broadcast _ ?_ ?_ ?_
  · rintro ⟨⟩
    simp [Value.isPromise] at hself
  · intro st hst
    cases value with
    | plain v =>
      cases hst
      exact .returned v h
    | promise r => cases hst
  · rintro r ⟨⟩
    exact h

theorem goes_rejected {e : Value V} (h : s'.Outcome R d (.rejected e)) :
    s'.Goes R d (.broadcast d.promise (.reject e)) := by
  refine .broadcast _ ?_ ?_ ?_
  · rintro ⟨⟩
  · rintro _ ⟨⟩
    exact h
  · rintro r ⟨⟩

theorem eq_promise {value : Value V} {q : Nat} (h : value.isPromise q = true) : value = .promise q := by
  cases value with
  | plain v => cases h
  | promise r => rw [beq_iff_eq.mp h]

theorem rescue_goes {f : H} {g : Option H} {v : V} {o : Completion V} {e : Value V}
    (hf : d.resolve = some f) (hg : g = none ∨ g = d.reject) (hs : s'.state d.source = some (.resolved v))
    (hr : Raised R d.promise o e) (hc : s'.callsFor d.promise = [⟨d.promise, f, .plain v, o⟩]) :
    s'.Goes R d (Job.rescue g d.promise e) := by
  cases g with
  | none =>
    have hends : s'.Ends d o := ⟨[], f, .plain v, hc⟩
    rcases hr with rfl | ⟨rfl, rfl⟩
    · exact goes_rejected (.threw e hends)
    · exact goes_rejected (.self hends)
  | some g =>
    have hreject : d.reject = some g := by
      rcases hg with hg | hg
      · cases hg
      · exact hg.symm
    exact .job _ rfl (.rescuing f g _ v e o hf hreject hs hr hc)

-- what a handler that ends was called with, and how its promise goes on
theorem finish_goes (h : s.Settling R ms d) {o : Completion V} (hj : j ∈ s.jobs)
    (ht : j.target = some d.promise) (hn : j.finish R o = some n)
    (hstate : ∀ q st, s.state q = some st → s'.state q = some st)
    (hcalls : s'.callsFor d.promise = s.callsFor d.promise ++ j.called o) :
    s'.Called R d ∧ s'.Goes R d n := by
  cases h.jobs j hj ht with
  | settle p b => cases hn
  | resolve f g p v hf hg hs hc => cases hn
  | reject g p x hg hs hc => cases hn
  | resolving f g p v hf hg hs hc =>
    cases ht
    rw [hc, List.nil_append] at hcalls
    refine ⟨.once (.resolved v) f o (hstate _ _ hs) hf hcalls, ?_⟩
    cases o with
    | threw e =>
      cases hn
      exact rescue_goes hf hg (hstate _ _ hs) (.inl rfl) hcalls
    | returned value =>
      cases hself : value.isPromise d.promise with
      | true =>
        simp only [Job.finish, hself, if_true] at hn
        cases hn
        rw [eq_promise hself] at hcalls
        exact rescue_goes hf hg (hstate _ _ hs) (.inr ⟨rfl, rfl⟩) hcalls
      | false =>
        simp only [Job.finish, hself, Bool.false_eq_true, if_false] at hn
        cases hn
        exact goes_returned hself ⟨[], f, _, hcalls⟩
  | rejecting g p x hg hs hc =>
    cases ht
    rw [hc, List.nil_append] at hcalls
    have hends : s'.Ends d o := ⟨[], g, x, hcalls⟩
    refine ⟨.once (.rejected x) g o (hstate _ _ hs) hg hcalls, ?_⟩
    cases o with
    | returned value =>
      cases hn
      cases hself : value.isPromise d.promise with
      | true =>
        rw [eq_promise hself] at hends
        exact goes_rejected (.self hends)
      | false => exact goes_returned hself hends
    | threw e =>
      cases hassign : R.canAssign e with
      | true =>
        simp only [Job.finish, hassign, if_true] at hn
        cases hn
        exact goes_rejected (.threw e hends)
      | false =>
        simp only [Job.finish, hassign, Bool.false_eq_true, if_false] at hn
        cases hn
        exact .nothing (.rejecting g x e hg hassign hcalls)
  | rescuing f g p v e o₁ hf hg hs hr hc =>
    cases ht
    rw [hc] at hcalls
    refine ⟨.rescued v f g o₁ o e (hstate _ _ hs) hf hg hr hcalls, ?_⟩
    cases o with
    | threw e' =>
      cases hn
      exact .nothing (.rescuing _ g e _ hg (.inl ⟨e', rfl⟩) hcalls)
    | returned value =>
      cases hself : value.isPromise d.promise with
      | true =>
        simp only [Job.finish, hself, if_true] at hn
        cases hn
        rw [eq_promise hself] at hcalls
        exact .nothing (.rescuing _ g e _ hg (.inr rfl) hcalls)
      | false =>
        simp only [Job.finish, hself, Bool.false_eq_true, if_false] at hn
        cases hn
        exact goes_returned hself ⟨[_], g, e, hcalls⟩

end Task

end Heap

-- the ways on of a task that is to settle t
inductive Next.Heads {V H : Type} (t : Nat) : Next V H → Prop
  | broadcast (b : Broadcast V) : Heads t (.broadcast t b)
  | job (j : Job V H) (hj : j.target = some t) (hcall : ∀ b, j ≠ .settle t b) : Heads t (.job j)
  | nothing : Heads t .nothing

namespace Job
variable {V H : Type} {R : Runtime V} {j : Job V H} {n : Next V H} {o : Completion V} {t : Nat}

theorem start_heads (h : j.start = some n) (ht : j.target = some t) : n.Heads t := by
  cases j <;> cases h <;> cases ht
  case settle b => exact .broadcast b
  case resolve f g v => exact .job _ rfl fun b hb => by cases hb
  case reject g x => exact .job _ rfl fun b hb => by cases hb

theorem rescue_heads (g : Option H) (p : Nat) (e : Value V) : (rescue g p e).Heads p := by
  cases g with
  | none => exact .broadcast _
  | some g => exact .job _ rfl fun b hb => by cases hb

theorem finish_heads (h : j.finish R o = some n) (ht : j.target = some t) : n.Heads t := by
  cases j <;> cases ht
  case settle b => cases h
  case resolve f g v => cases h
  case reject g x => cases h
  case resolving f g v =>
    cases o with
    | threw e =>
      cases h
      exact rescue_heads g t e
    | returned value =>
      cases hself : value.isPromise t <;> simp only [finish, hself] at h <;> cases h
      · exact .broadcast _
      · exact rescue_heads g t _
  case rejecting g x =>
    cases o with
    | returned value =>
      cases h
      exact .broadcast _
    | threw e =>
      cases hassign : R.canAssign e <;> simp only [finish, hassign] at h <;> cases h
      · exact .nothing
      · exact .broadcast _
  case rescuing g e =>
    cases o with
    | threw e =>
      cases h
      exact .nothing
    | returned value =>
      cases hself : value.isPromise t <;> simp only [finish, hself] at h <;> cases h
      · exact .broadcast _
      · exact .nothing

end Job

namespace Heap
variable {V H : Type} {R : Runtime V} {ms : List (Nat × Settled V)} {s s' : Heap V H}
variable {i t : Nat} {j : Job V H} {cs : List (Call V H)} {n : Next V H} {st : Settled V}

theorem Tidy.proceed (h : s.Tidy) (hlt : t < s.next) (hfree : s.Unowed t)
    (hpending : t ∉ s.constructed → s.state t = none) (hn : n.Heads t) : (s.proceed n).Tidy := by
  cases hn with
  | broadcast b => exact h.broadcast hlt hfree b
  | job j hj hcall =>
    refine h.schedule hj hfree hlt hpending ?_
    rintro p b rfl
    cases hj
    exact absurd rfl (hcall b)
  | nothing => exact h

theorem Carries.proceed {T : Nat → Prop} (hT : T t) (hn : n.Heads t) : Carries T s (s.proceed n) := by
  cases hn with
  | broadcast b => exact .broadcast hT b
  | job j hj hcall =>
    refine .extend rfl (List.append_nil _).symm rfl rfl (List.forall_mem_nil _) ?_
    refine List.forall_mem_singleton.mpr ?_
    intro q hq
    rw [hj] at hq
    cases hq
    exact hT
  | nothing =>
    exact .extend rfl (List.append_nil _).symm (List.append_nil _).symm rfl (List.forall_mem_nil _)
      (List.forall_mem_nil _)

theorem Tidy.only_job (h : s.Tidy) (hj : s.jobs[i]? = some j) (ht : j.target = some t)
    (hprivate : t ∉ s.constructed) {j' : Job V H} (hj' : j' ∈ s.jobs) (ht' : j'.target = some t) :
    j' = j := by
  obtain ⟨k, hk⟩ := List.mem_iff_getElem?.mp hj'
  by_cases hki : k = i
  · subst hki
    rw [hj] at hk
    exact (Option.some.inj hk).symm
  · have hmem : j' ∈ (s.leave i [] [] []).jobs := List.mem_eraseIdx_iff_getElem?.mpr ⟨k, hki, hk⟩
    have hfree : (s.leave i [] [] []).Unowed t := h.leave_unowed hj ht
    exact absurd (mem_targets_of_job hmem ht') (hfree.resolve_left hprivate)

theorem Hidden.of_job (h : s.Hidden t st) (htidy : s.Tidy) (hj : s.jobs[i]? = some j)
    (ht : j.target = some t) : j = .settle t st.broadcast := by
  have hprivate := h.not_constructed
  obtain ⟨-, -, hstate | hsettle⟩ := h
  · rw [htidy.pending t (mem_targets_of_job (List.mem_of_getElem? hj) ht) hprivate] at hstate
    cases hstate
  · exact (htidy.only_job hj ht hprivate hsettle rfl).symm

theorem Lawful.task (h : s.Lawful R ms) (hj : s.jobs[i]? = some j) (ht : j.target = some t)
    (hcs : ∀ c ∈ cs, c.promise = t) (hn : n.Heads t)
    (hhidden : ∀ st : Settled V, j = .settle t st.broadcast → n = .broadcast t st.broadcast)
    (hgoes : ∀ d ∈ s.derived, d.promise = t → ((s.leave i [] cs []).proceed n).Called R d ∧
      ((s.leave i [] cs []).proceed n).Goes R d n) : ((s.leave i [] cs []).proceed n).Lawful R ms := by
  have hin := mem_targets_of_job (List.mem_of_getElem? hj) ht
  have hlt := h.tidy.bounded t hin
  have hleft : (s.leave i [] cs []).Tidy := by
    refine h.tidy.leave (List.forall_mem_nil _) ?_
    intro c hc
    rw [hcs c hc]
    exact hlt
  have hfree : (s.leave i [] cs []).Unowed t := h.tidy.leave_unowed hj ht
  have hpending : t ∉ s.constructed → (s.leave i [] cs []).state t = none := h.tidy.pending t hin
  have htidy := hleft.proceed hlt hfree hpending hn
  have hcarries : Carries (· = t) s ((s.leave i [] cs []).proceed n) := by
    refine Carries.trans (.leave hj ?_ hcs) (.proceed rfl hn)
    intro q hq
    rw [ht] at hq
    exact (Option.some.inj hq).symm
  have hframe := proceed_frame (s.leave i [] cs []) n
  refine h.carries hcarries htidy (fun _ hm => hm) ?_ ?_
  · intro r st hm
    have hr := h.hidden r st hm
    have hprivate : ¬((s.leave i [] cs []).proceed n).Held r :=
      fun hin => hr.2.1 (hin.same hframe.constructed hframe.derived)
    by_cases hrt : r = t
    · subst hrt
      obtain rfl := hhidden st (hr.of_job h.tidy hj ht)
      refine ⟨Nat.lt_of_lt_of_eq hlt hframe.next.symm, hprivate, .inl ?_⟩
      show ((s.leave i [] cs []).broadcast r st.broadcast).state r = some st
      rw [broadcast_settles (hpending hr.not_constructed) st.broadcast_settled, settle_state, if_pos rfl]
    · exact hr.carries hcarries hrt (Nat.le_of_eq hframe.next.symm) hprivate
  · intro d hd
    rw [hframe.derived] at hd
    by_cases hdt : d.promise = t
    · refine .inl ?_
      obtain ⟨hcalled, hgo⟩ := hgoes d hd hdt
      subst hdt
      have hprivate := (h.tidy.derived d hd).2
      exact proceed_settling (hfree.resolve_left hprivate) (hpending hprivate) hcalled hgo
    · exact .inr ⟨hd, hdt⟩

-- the three things that then does
inductive Then (R : Runtime V) (s : Heap V H) (p : Nat) (f g : Option H) : Heap V H × Nat → Prop
  | late (st : Settled V) (h : H) (hs : s.state p = some st)
      (hh : (⟨p, f, g, s.next + 1⟩ : Derived H).handler st = some h) :
      Then R s p f g ((s.constructSettled st.broadcast).subscribe s.next (some h) none, s.next + 1)
  | invalid (hf : f = none) (hg : g = none) :
      Then R s p f g (s.constructSettled (.reject (.plain R.invalidArguments)), s.next)
  | direct (hdeaf : ∀ st, s.state p = some st → (⟨p, .reaction f g, s.next⟩ : Subscription H).Deaf st) :
      Then R s p f g (s.subscribe p f g, s.next)

theorem thenOn_then (R : Runtime V) (s : Heap V H) (p : Nat) (f g : Option H) :
    s.Then R p f g (s.thenOn R p f g) := by
  have hdirect (hdeaf : ∀ st, s.state p = some st →
      (⟨p, .reaction f g, s.next⟩ : Subscription H).Deaf st)
      (hthen : s.thenOn R p f g = (s.subscribe p f g, s.next)) : s.Then R p f g (s.thenOn R p f g) := by
    rw [hthen]
    exact .direct hdeaf
  cases hs : s.state p with
  | none =>
    have hnever (st : Settled V) (hst : s.state p = some st) :
        (⟨p, .reaction f g, s.next⟩ : Subscription H).Deaf st := by
      rw [hs] at hst
      cases hst
    cases f with
    | some f =>
      refine hdirect hnever ?_
      simp only [thenOn, hs]
    | none =>
      cases g with
      | some g =>
        refine hdirect hnever ?_
        simp only [thenOn, hs]
      | none =>
        simp only [thenOn, hs]
        exact .invalid rfl rfl
  | some st =>
    have hdeaf (hst : (⟨p, .reaction f g, s.next⟩ : Subscription H).Deaf st) (st' : Settled V)
        (hst' : s.state p = some st') : (⟨p, .reaction f g, s.next⟩ : Subscription H).Deaf st' := by
      rw [hs] at hst'
      cases hst'
      exact hst
    cases st with
    | resolved v =>
      cases f with
      | some f =>
        simp only [thenOn, hs]
        exact .late (.resolved v) f hs rfl
      | none =>
        cases g with
        | some g =>
          refine hdirect (hdeaf ⟨none, some g, rfl, rfl⟩) ?_
          simp only [thenOn, hs]
        | none =>
          simp only [thenOn, hs]
          exact .invalid rfl rfl
    | rejected x =>
      cases g with
      | some g =>
        simp only [thenOn, hs]
        exact .late (.rejected x) g hs rfl
      | none =>
        cases f with
        | some f =>
          refine hdirect (hdeaf ⟨some f, none, rfl, rfl⟩) ?_
          simp only [thenOn, hs]
        | none =>
          simp only [thenOn, hs]
          exact .invalid rfl rfl

-- a step that adds subscriptions and tasks for promises that it makes
theorem Lawful.made (h : s.Lawful R ms) {ms' : List (Nat × Settled V)} {us : List (Subscription H)}
    {js : List (Job V H)} {d : Derived H} (htidy : s'.Tidy) (hstate : s'.state = s.state)
    (hnext : s.next ≤ s'.next) (hsubscribers : s'.subscribers = s.subscribers ++ us)
    (hjobs : s'.jobs = s.jobs ++ js) (hcalls : s'.calls = s.calls)
    (hconstructed : s'.constructed = s.constructed) (hderived : s'.derived = s.derived ++ [d])
    (hus : ∀ u ∈ us, s.next ≤ u.promise) (hjs : ∀ j ∈ js, ∀ q, j.target = some q → s.next ≤ q)
    (hms : ∀ m ∈ ms, m ∈ ms') (hfresh : ∀ r st, (r, st) ∈ ms' → (r, st) ∈ ms ∨ s'.Hidden r st)
    (hd : s.next ≤ d.promise)
    (hexpects : ∀ j ∈ js, j.target = some d.promise → s'.Expects R d j)
    (hawaits : ∀ u ∈ us, u.promise = d.promise → s'.state u.source = none → s'.Awaits ms' d u)
    (hpends : s'.Pends R ms' d) : s'.Lawful R ms' := by
  have hcarries : Carries (s.next ≤ ·) s s' := .extend hstate hsubscribers hjobs hcalls hus hjs
  have hold {q : Nat} (hq : q ∈ s.targets) : q ≠ d.promise := by
    rintro rfl
    exact absurd (h.tidy.bounded _ hq) (Nat.not_lt_of_le hd)
  refine h.carries hcarries htidy hms ?_ ?_
  · intro r st hm
    rcases hfresh r st hm with hm | hr
    · have hr := h.hidden r st hm
      refine hr.carries hcarries (Nat.not_le_of_lt hr.1) hnext ?_
      rw [Held, hconstructed, hderived]
      rintro (hin | ⟨d', hd', rfl⟩)
      · exact hr.not_constructed hin
      · rcases List.mem_append.mp hd' with hd' | hd'
        · exact hr.2.1 (.inr ⟨d', hd', rfl⟩)
        · rw [List.mem_singleton.mp hd'] at hr
          exact absurd hr.1 (Nat.not_lt_of_le hd)
    · exact hr
  · intro d' hmem
    rw [hderived] at hmem
    rcases List.mem_append.mp hmem with hmem | hmem
    · exact .inr ⟨hmem, Nat.not_le_of_lt (h.tidy.derived d' hmem).1⟩
    · cases List.mem_singleton.mp hmem
      refine .inl ⟨.never ?_, ?_, ?_, ?_, fun _ => hpends⟩
      · rw [callsFor, hcalls]
        exact h.tidy.no_calls hd
      · intro j hj ht
        rw [hjobs] at hj
        rcases List.mem_append.mp hj with hj | hj
        · exact absurd rfl (hold (mem_targets_of_job hj ht))
        · exact hexpects j hj ht
      · intro u hu hq
        obtain ⟨hu, hpending⟩ := mem_waiting.mp hu
        rw [hsubscribers] at hu
        rcases List.mem_append.mp hu with hu | hu
        · rw [hstate] at hpending
          exact absurd hq (hold (mem_targets_of_waiting (mem_waiting.mpr ⟨hu, hpending⟩)))
        · exact hawaits u hu hq hpending
      · intro st hst
        rw [hstate, h.tidy.fresh _ hd] at hst
        cases hst

theorem Lawful.own (h : s.Lawful R ms) : s.own.Lawful R ms := by
  have hcarries : Carries (fun _ => False) s s.own :=
    .extend rfl (List.append_nil _).symm (List.append_nil _).symm rfl (List.forall_mem_nil _)
      (List.forall_mem_nil _)
  refine h.carries hcarries h.tidy.own (fun _ hm => hm) ?_ fun d hd => .inr ⟨hd, id⟩
  intro r st hm
  have hr := h.hidden r st hm
  refine hr.carries hcarries id (Nat.le_succ _) ?_
  rintro (hin | hin)
  · rcases List.mem_append.mp hin with hin | hin
    · exact hr.not_constructed hin
    · exact absurd (List.mem_singleton.mp hin) (Nat.ne_of_lt hr.1)
  · exact hr.2.1 (.inr hin)

theorem Lawful.thenOn (h : s.Lawful R ms) (p : Nat) (f g : Option H) :
    ∃ ms', ({ (s.thenOn R p f g).1 with
      derived := (s.thenOn R p f g).1.derived ++ [⟨p, f, g, (s.thenOn R p f g).2⟩] } :
        Heap V H).Lawful R ms' := by
  have hthen := thenOn_then R s p f g
  have hpending : s.state s.next = none := h.tidy.fresh _ (Nat.le_refl _)
  have hprivate : s.next ∉ s.constructed := h.tidy.not_constructed (Nat.le_refl _)
  generalize s.thenOn R p f g = made at hthen ⊢
  cases hthen with
  | late st k hs hh =>
    have hbroadcast : st.broadcast.settled.isSome = true := by
      rw [st.broadcast_settled]
      rfl
    have htidy := ((h.tidy.constructSettled hbroadcast).subscribe s.next (some k) none).derive
      (d := ⟨p, f, g, s.next + 1⟩) (Nat.lt_succ_self _) (h.tidy.not_constructed (Nat.le_succ _))
    refine ⟨(s.next, st) :: ms, h.made htidy rfl (Nat.le_add_right _ 2) rfl rfl rfl rfl rfl ?_ ?_ ?_ ?_ ?_
      ?_ ?_ ?_⟩
    · exact List.forall_mem_singleton.mpr (Nat.le_succ _)
    · refine List.forall_mem_singleton.mpr ?_
      rintro q ⟨⟩
      exact Nat.le_refl _
    · exact fun _ hm => List.mem_cons_of_mem _ hm
    · intro r st' hm
      rcases List.mem_cons.mp hm with heq | hm
      · cases heq
        refine .inr ⟨Nat.lt_add_of_pos_right (Nat.zero_lt_two), ?_, .inr ?_⟩
        · rintro (hin | ⟨d, hd, hq⟩)
          · exact hprivate hin
          · rcases List.mem_append.mp hd with hd | hd
            · exact absurd hq (Nat.ne_of_lt (h.tidy.derived d hd).1)
            · rw [List.mem_singleton.mp hd] at hq
              exact absurd hq.symm (Nat.ne_of_lt (Nat.lt_succ_self _))
        · exact List.mem_append_right _ (List.mem_singleton.mpr rfl)
      · exact .inl hm
    · exact Nat.le_succ _
    · refine List.forall_mem_singleton.mpr ?_
      intro hq
      exact absurd (Option.some.inj hq) (Nat.ne_of_lt (Nat.lt_succ_self _))
    · refine List.forall_mem_singleton.mpr ?_
      intro _ _
      exact .late s.next st k (List.mem_cons_self ..) hs hh (h.tidy.no_calls (Nat.le_succ _))
    · refine .waits ⟨s.next, .reaction (some k) none, s.next + 1⟩ (mem_waiting.mpr ⟨?_, hpending⟩) rfl
      exact List.mem_append_right _ (List.mem_singleton.mpr rfl)
  | invalid hf hg =>
    have htidy := (h.tidy.constructSettled (b := .reject (.plain R.invalidArguments)) rfl).derive
      (d := ⟨p, f, g, s.next⟩) (Nat.lt_succ_self _) hprivate
    refine ⟨ms, h.made htidy rfl (Nat.le_succ _) (List.append_nil _).symm rfl rfl rfl rfl
      (List.forall_mem_nil _) ?_ (fun _ hm => hm) (fun _ _ hm => .inl hm) (Nat.le_refl _) ?_
      (List.forall_mem_nil _) ?_⟩
    · refine List.forall_mem_singleton.mpr ?_
      rintro q ⟨⟩
      exact Nat.le_refl _
    · refine List.forall_mem_singleton.mpr ?_
      intro _
      refine .settle _ _ ?_
      rintro _ ⟨⟩
      exact .invalid hf hg (h.tidy.no_calls (Nat.le_refl _))
    · exact .task _ (List.mem_append_right _ (List.mem_singleton.mpr rfl)) rfl
  | direct hdeaf =>
    have htidy := (h.tidy.subscribe p f g).derive (d := ⟨p, f, g, s.next⟩) (Nat.lt_succ_self _) hprivate
    refine ⟨ms, h.made htidy rfl (Nat.le_succ _) rfl (List.append_nil _).symm rfl rfl rfl
      (List.forall_mem_singleton.mpr (Nat.le_refl _)) (List.forall_mem_nil _) (fun _ hm => hm)
      (fun _ _ hm => .inl hm) (Nat.le_refl _) (List.forall_mem_nil _) ?_ ?_⟩
    · refine List.forall_mem_singleton.mpr ?_
      intro _ _
      exact .direct (h.tidy.no_calls (Nat.le_refl _))
    · cases hs : s.state p with
      | none =>
        refine .waits ⟨p, .reaction f g, s.next⟩ (mem_waiting.mpr ⟨?_, hs⟩) rfl
        exact List.mem_append_right _ (List.mem_singleton.mpr rfl)
      | some st =>
        refine .deaf st hs ?_
        obtain ⟨f', g', hhandlers, hnone⟩ := hdeaf st hs
        cases hhandlers
        cases st with
        | resolved v => exact hnone
        | rejected x => exact hnone

-- a step about a promise of the program's own
theorem Lawful.owned {p : Nat} (h : s.Lawful R ms) (hcarries : Carries (· = p) s s') (htidy : s'.Tidy)
    (hp : p ∈ s.constructed) (hnext : s'.next = s.next) (hconstructed : s'.constructed = s.constructed)
    (hderived : s'.derived = s.derived) : s'.Lawful R ms := by
  refine h.carries hcarries htidy (fun _ hm => hm) ?_ ?_
  · intro r st hm
    have hr := h.hidden r st hm
    refine hr.carries hcarries ?_ (Nat.le_of_eq hnext.symm) ?_
    · rintro rfl
      exact hr.not_constructed hp
    · exact fun hin => hr.2.1 (hin.same hconstructed hderived)
  · intro d hd
    rw [hderived] at hd
    refine .inr ⟨hd, ?_⟩
    rintro rfl
    exact (h.tidy.derived d hd).2 hp

theorem Lawful.broadcast {p : Nat} (h : s.Lawful R ms) (hp : p ∈ s.constructed) (b : Broadcast V) :
    (s.broadcast p b).Lawful R ms :=
  have hframe := broadcast_frame s p b
  h.owned (.broadcast (T := (· = p)) rfl b) (h.tidy.broadcast (h.tidy.constructed p hp) (.inl hp) b) hp hframe.next
    hframe.constructed hframe.derived

theorem Lawful.decide {p : Nat} (h : s.Lawful R ms) (hp : p ∈ s.constructed) (b : Broadcast V) :
    ({ s with decisions := s.decisions ++ [(p, b)] } : Heap V H).Lawful R ms :=
  h.owned (.extend rfl (List.append_nil _).symm (List.append_nil _).symm rfl (List.forall_mem_nil _)
    (List.forall_mem_nil _)) h.tidy.decide hp rfl rfl rfl

theorem Lawful.leave {p : Nat} {es : List Nat} (h : s.Lawful R ms) (hp : p ∈ s.constructed)
    (hj : s.jobs[i]? = some j) (ht : j.target = none) (hes : ∀ q ∈ es, q ∈ s.constructed)
    (ds : List (Nat × Broadcast V)) : (s.leave i es [] ds).Lawful R ms := by
  refine h.owned (.leave hj ?_ (List.forall_mem_nil _)) (h.tidy.leave hes (List.forall_mem_nil _)) hp
    rfl rfl rfl
  intro q hq
  rw [ht] at hq
  cases hq

theorem Lawful.enter {p : Nat} (h : s.Lawful R ms) (hp : p ∈ s.constructed)
    (hj : j = .executor p ∨ j = .executing p) : (s.schedule [j]).Lawful R ms := by
  refine h.owned (.extend rfl (List.append_nil _).symm rfl rfl (List.forall_mem_nil _) ?_)
    (h.tidy.enter hp hj) hp rfl rfl rfl
  refine List.forall_mem_singleton.mpr ?_
  intro q hq
  rcases hj with rfl | rfl <;> cases hq

theorem Lawful.construct (h : s.Lawful R ms) : s.construct.Lawful R ms :=
  h.own.enter (List.mem_append_right _ (List.mem_singleton.mpr rfl)) (.inl rfl)

theorem Lawful.run (h : s.Lawful R ms) (hj : s.jobs[i]? = some j) (hn : j.start = some n) :
    ((s.leave i j.exposes [] []).proceed n).Lawful R ms := by
  have hmem := List.mem_of_getElem? hj
  cases ht : j.target with
  | none =>
    obtain ⟨p, rfl, rfl⟩ := Job.start_executor hn ht
    have hp : p ∈ s.constructed := h.tidy.executors p (.inr (.inl hmem))
    exact (h.leave hp hj ht (List.forall_mem_singleton.mpr hp) []).enter hp (.inr rfl)
  | some t =>
    have hheads := Job.start_heads hn ht
    rw [Job.start_exposes hn ht]
    have hcarries : Carries (· = t) s ((s.leave i [] [] []).proceed n) := by
      refine Carries.trans (.leave hj ?_ (List.forall_mem_nil _)) (.proceed rfl hheads)
      intro q hq
      rw [ht] at hq
      exact (Option.some.inj hq).symm
    refine h.task hj ht (List.forall_mem_nil _) hheads ?_ ?_
    · rintro st rfl
      exact (Option.some.inj hn).symm
    · rintro d hd rfl
      have hcalls : ((s.leave i [] [] []).proceed n).callsFor d.promise = s.callsFor d.promise ++ [] :=
        task_calls (List.forall_mem_nil _) n
      rw [List.append_nil] at hcalls
      have hsettling := h.settling d hd
      exact ⟨hsettling.called.carries hcarries.state hcalls,
        start_goes hsettling h.tidy hmem ht hn hcarries.state hcalls⟩

theorem Lawful.finish {o : Completion V} (h : s.Lawful R ms) (hj : s.jobs[i]? = some j)
    (hn : j.finish R o = some n) :
    ((s.leave i [] (j.called o) (j.decides o)).proceed n).Lawful R ms := by
  have hmem := List.mem_of_getElem? hj
  cases ht : j.target with
  | none =>
    obtain ⟨p, rfl, hcalled, hends⟩ := Job.finish_executing hn ht
    have hp : p ∈ s.constructed := h.tidy.executors p (.inr (.inr hmem))
    rw [hcalled]
    have hleft := h.leave hp hj ht (List.forall_mem_nil _) ((Job.executing p : Job V H).decides o)
    rcases hends with ⟨rfl, -⟩ | ⟨b, rfl, -⟩
    · exact hleft
    · exact hleft.broadcast hp b
  | some t =>
    have hheads := Job.finish_heads hn ht
    obtain ⟨⟨c, hcalled, hc, -⟩, hdecides, hne⟩ := Job.finish_called hn ht
    have hcs : ∀ c ∈ j.called o, c.promise = t := by
      rw [hcalled]
      exact List.forall_mem_singleton.mpr hc
    rw [hdecides]
    have hcarries : Carries (· = t) s ((s.leave i [] (j.called o) []).proceed n) := by
      refine Carries.trans (.leave hj ?_ hcs) (.proceed rfl hheads)
      intro q hq
      rw [ht] at hq
      exact (Option.some.inj hq).symm
    refine h.task hj ht hcs hheads (fun st hb => absurd hb (hne _)) ?_
    rintro d hd rfl
    exact finish_goes (h.settling d hd) hmem ht hn hcarries.state (task_calls hcs n)

theorem Lawful.step {l : Label V H} (h : s.Lawful R ms) (hstep : step R s l = some s') :
    ∃ ms', s'.Lawful R ms' := by
  cases l with
  | construct =>
    cases hstep
    exact ⟨ms, h.construct⟩
  | thenOn p f g =>
    simp only [Heap.step] at hstep
    split at hstep
    · cases hstep
      exact h.thenOn p f g
    · cases hstep
  | call p b =>
    simp only [Heap.step] at hstep
    split at hstep
    · next hguard =>
      cases hstep
      have hp : p ∈ s.constructed := h.tidy.executors p (.inl hguard.1)
      exact ⟨ms, (h.decide hp b).broadcast hp b⟩
    · cases hstep
  | run i =>
    obtain ⟨j, hj, hstep⟩ := Option.bind_eq_some_iff.mp hstep
    obtain ⟨n, hn, rfl⟩ := Option.map_eq_some_iff.mp hstep
    exact ⟨ms, h.run hj hn⟩
  | finish i o =>
    simp only [Heap.step] at hstep
    split at hstep
    · obtain ⟨j, hj, hstep⟩ := Option.bind_eq_some_iff.mp hstep
      obtain ⟨n, hn, rfl⟩ := Option.map_eq_some_iff.mp hstep
      exact ⟨ms, h.finish hj hn⟩
    · cases hstep

theorem start_lawful (R : Runtime V) : (start : Heap V H).Lawful R [] := by
  refine ⟨.start_tidy, ?_, ?_⟩
  · intro r st hm
    cases hm
  · intro d hd
    cases hd

end Heap

end NexusRuntime.Promises
