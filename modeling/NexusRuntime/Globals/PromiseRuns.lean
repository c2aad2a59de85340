import Mathlib.Data.List.Perm.Subperm
import NexusRuntime.Globals.Promises

namespace NexusRuntime.Promises

open Transition

namespace Heap
variable {V H : Type}

def callsFor (s : Heap V H) (q : Nat) : List (Call V H) := s.calls.filter fun c => c.promise == q

def first (s : Heap V H) (p : Nat) : Option (Broadcast V) :=
  (s.decisions.find? fun x => x.1 == p).map (·.2)

def Undecided (s : Heap V H) (p : Nat) : Prop := s.first p = none

end Heap

def Derived.handler {V H : Type} (d : Derived H) : Settled V → Option H
  | .resolved _ => d.resolve
  | .rejected _ => d.reject

namespace Heap
variable {V H : Type}

-- what the promise of one call of then is to become once its source has settled
def Takes (s : Heap V H) (d : Derived H) (st : Settled V) : Prop :=
  match d.handler st with
  | none => s.state d.promise = some st
  | some h => (∀ c ∈ s.callsFor d.promise, c.completion.isPlain = true) →
      ∃ o, s.callsFor d.promise = [⟨d.promise, h, st.value, o⟩] ∧ s.state d.promise = o.settled

def Fulfilled (s : Heap V H) (d : Derived H) : Prop :=
  ∀ st, s.state d.source = some st → s.Takes d st

-- what the first call of its resolve or reject function says that a promise is to become
def Follows (s : Heap V H) (p : Nat) (b : Broadcast V) : Prop :=
  (∀ st, b.settled = some st → s.state p = some st) ∧
    ∀ r, b = .resolve (.promise r) →
      (s.state p = none ∨ s.state p = s.state r) ∧ (s.jobs = [] → s.state p = s.state r)

structure Kept (s : Heap V H) : Prop where
  fulfilled : s.jobs = [] → ∀ d ∈ s.derived, s.Fulfilled d
  fixed : ∀ p b, s.first p = some b → s.Follows p b

-- the subscribers of a promise that becomes this are all told of it
def Heard (s : Heap V H) (p : Nat) : Settled V → Prop
  | .resolved _ => ∀ u ∈ s.subscribersOf p, u.handlers.hasResolve = true
  | .rejected _ => (∀ u ∈ s.subscribersOf p, u.handlers.hasReject = true) ∨
      ∀ u ∈ s.subscribersOf p, u.handlers.hasReject = false

def Timely (s : Heap V H) (p : Nat) (b : Broadcast V) : Prop :=
  s.state p = none → ∀ st, b.settled = some st → s.Heard p st

-- `resolve` throws where there is no `reject`, `reject` what can be given an innerException
def Tame (R : Runtime V) (o : Completion V) : Job V H → Prop
  | .resolving _ (some _) _ _ => ∀ v, o ≠ .threw (.plain v)
  | .rejecting _ _ _ => ∀ v, o = .threw (.plain v) → R.assignable v = true
  | _ => True

def Orderly (R : Runtime V) (s : Heap V H) : Label V H → Prop
  | .construct => True
  | .thenOn p f g =>
    match s.state p with
    | none => f.isSome = true ∨ g.isSome = true
    | some (.resolved _) => f.isSome = true
    | some (.rejected _) => False
  | .call p b => (s.state p = none → s.Undecided p) ∧ s.Timely p b
  | .run i => ∀ j p b, s.jobs[i]? = some j → j.start = some (.broadcast p b) → s.Timely p b
  | .finish i o => ∀ j, s.jobs[i]? = some j →
      Tame R o j ∧ (∀ x ∈ j.decides o, s.state x.1 = none → s.Undecided x.1) ∧
      ∀ p b, j.finish R o = some (.broadcast p b) → s.Timely p b

end Heap

def Job.target {V H : Type} : Job V H → Option Nat
  | .executor _ => none
  | .executing _ => none
  | .settle p _ => some p
  | .resolve _ _ p _ => some p
  | .resolving _ _ p _ => some p
  | .reject _ p _ => some p
  | .rejecting _ p _ => some p
  | .rescuing _ p _ => some p

-- the handler that a task calls, or is inside of, and the outcome it is called for
def Job.reaction {V H : Type} : Job V H → Option (H × Settled V × Nat)
  | .resolve f _ p v => some (f, .resolved v, p)
  | .resolving f _ p v => some (f, .resolved v, p)
  | .reject g p x => some (g, .rejected x, p)
  | .rejecting g p x => some (g, .rejected x, p)
  | _ => none

theorem Job.reaction_target {V H : Type} {j : Job V H} {h : H} {st : Settled V} {q : Nat}
    (hj : j.reaction = some (h, st, q)) : j.target = some q := by
  cases j <;> cases hj <;> rfl

namespace Subscription
variable {V H : Type}

def told (st : Settled V) (u : Subscription H) : Option (Job V H) :=
  match st with
  | .resolved v => u.onResolve v
  | .rejected x =>
    if u.handlers.hasReject then u.onReject x
    else if u.handlers.hasResolve then some (.settle u.promise (.reject x)) else none

theorem onResolve_target {v : V} {u : Subscription H} {j : Job V H} (h : u.onResolve v = some j) :
    j.target = some u.promise := by
  obtain ⟨p, handlers, q⟩ := u
  rcases handlers with ⟨_ | f, g⟩ | _ <;> cases h <;> rfl

theorem onReject_target {x : Value V} {u : Subscription H} {j : Job V H} (h : u.onReject x = some j) :
    j.target = some u.promise := by
  obtain ⟨p, handlers, q⟩ := u
  rcases handlers with ⟨f, _ | g⟩ | _ <;> cases h <;> rfl

theorem told_target {st : Settled V} {u : Subscription H} {j : Job V H} (h : u.told st = some j) :
    j.target = some u.promise := by
  cases st with
  | resolved v => exact onResolve_target h
  | rejected x =>
    simp only [told] at h
    split at h
    · exact onReject_target h
    · split at h
      · cases h
        rfl
      · cases h

theorem told_adoption (p q : Nat) (st : Settled V) :
    (⟨p, .adoption, q⟩ : Subscription H).told st = some (.settle q st.broadcast) := by
  cases st <;> rfl

theorem told_handler {f g : Option H} {h : H} {st : Settled V} (p q : Nat) {d : Derived H}
    (hf : d.resolve = f) (hg : d.reject = g) (hh : d.handler st = some h) :
    ∃ j, (⟨p, .reaction f g, q⟩ : Subscription H).told st = some j ∧ j.reaction = some (h, st, q) := by
  cases st with
  | resolved v =>
    obtain rfl : f = some h := hf.symm.trans hh
    exact ⟨_, rfl, rfl⟩
  | rejected x =>
    obtain rfl : g = some h := hg.symm.trans hh
    exact ⟨_, rfl, rfl⟩

theorem targets_sublist {f : Subscription H → Option (Job V H)}
    (hf : ∀ u j, f u = some j → j.target = some u.promise) (us : List (Subscription H)) :
    List.Sublist ((us.filterMap f).filterMap Job.target) (us.map (·.promise)) := by
  induction us with
  | nil => exact .slnil
  | cons u us ih =>
    cases hu : f u with
    | none =>
      rw [List.filterMap_cons_none hu]
      exact ih.cons _
    | some j =>
      rw [List.filterMap_cons_some hu, List.filterMap_cons_some (hf u j hu)]
      exact ih.cons_cons _

end Subscription

namespace Heap
variable {V H : Type} {s : Heap V H} {p : Nat} {st : Settled V}

theorem notifications_targets (s : Heap V H) (p : Nat) (st : Settled V) :
    List.Sublist ((s.notifications p st).filterMap Job.target)
      ((s.subscribersOf p).map (·.promise)) := by
  cases st with
  | resolved v => exact Subscription.targets_sublist (fun u j => Subscription.onResolve_target) _
  | rejected x =>
    simp only [notifications]
    split
    · rw [← List.filterMap_eq_map]
      refine (Subscription.targets_sublist ?_ _).trans ((List.filter_sublist ..).map _)
      rintro u j ⟨⟩
      rfl
    · exact (Subscription.targets_sublist (fun u j => Subscription.onReject_target) _).trans
        ((List.filter_sublist ..).map _)

theorem notifications_target {j : Job V H} (hj : j ∈ s.notifications p st) : j.target.isSome = true := by
  cases st with
  | resolved v =>
    obtain ⟨u, -, hu⟩ := List.mem_filterMap.mp hj
    rw [Subscription.onResolve_target hu]
    rfl
  | rejected x =>
    simp only [notifications] at hj
    split at hj
    · obtain ⟨u, -, rfl⟩ := List.mem_map.mp hj
      rfl
    · obtain ⟨u, -, hu⟩ := List.mem_filterMap.mp hj
      rw [Subscription.onReject_target hu]
      rfl

theorem notifications_told (h : s.Heard p st) {u : Subscription H} (hu : u ∈ s.subscribersOf p)
    {j : Job V H} (hj : u.told st = some j) : j ∈ s.notifications p st := by
  cases st with
  | resolved v => exact List.mem_filterMap.mpr ⟨u, hu, hj⟩
  | rejected x =>
    simp only [notifications]
    rcases h with hall | hnone
    · have hmem : u ∈ (s.subscribersOf p).filter fun u => u.handlers.hasReject :=
        List.mem_filter.mpr ⟨hu, hall u hu⟩
      have hne : ((s.subscribersOf p).filter fun u => u.handlers.hasReject).isEmpty = false := by
        rw [List.isEmpty_eq_false_iff]
        exact List.ne_nil_of_mem hmem
      simp only [Subscription.told, hall u hu, if_true] at hj
      simp only [hne, Bool.false_eq_true, if_false]
      exact List.mem_filterMap.mpr ⟨u, hmem, hj⟩
    · have hempty : ((s.subscribersOf p).filter fun u => u.handlers.hasReject).isEmpty = true := by
        rw [List.isEmpty_iff, List.filter_eq_nil_iff]
        intro w hw
        rw [hnone w hw]
        exact Bool.false_ne_true
      simp only [Subscription.told, hnone u hu, Bool.false_eq_true, if_false] at hj
      cases hresolve : u.handlers.hasResolve with
      | false =>
        rw [hresolve] at hj
        cases hj
      | true =>
        rw [hresolve] at hj
        cases hj
        simp only [hempty, if_true]
        exact List.mem_map.mpr ⟨u, List.mem_filter.mpr ⟨hu, hresolve⟩, rfl⟩

theorem heard_told (h : s.Heard p st) {u : Subscription H} (hu : u ∈ s.subscribersOf p)
    (hhandled : u.handlers.hasResolve = true ∨ u.handlers.hasReject = true) :
    ∃ j, u.told st = some j ∧ j ∈ s.notifications p st := by
  obtain ⟨j, hj⟩ : ∃ j : Job V H, u.told st = some j := by
    obtain ⟨source, handlers, promise⟩ := u
    cases st with
    | resolved v =>
      have hresolve := h _ hu
      rcases handlers with ⟨_ | f, g⟩ | _
      · cases hresolve
      · exact ⟨_, rfl⟩
      · exact ⟨_, rfl⟩
    | rejected x =>
      rcases handlers with ⟨_ | f, _ | g⟩ | _
      · rcases hhandled with h | h <;> cases h
      · exact ⟨_, rfl⟩
      · exact ⟨_, rfl⟩
      · exact ⟨_, rfl⟩
      · exact ⟨_, rfl⟩
  exact ⟨j, hj, notifications_told h hu hj⟩

-- the subscriptions that have not been told of anything
def waiting (s : Heap V H) : List (Subscription H) :=
  s.subscribers.filter fun u => (s.state u.source).isNone

-- the promises that a subscription or a task is still to settle
def targets (s : Heap V H) : List Nat :=
  s.waiting.map (·.promise) ++ s.jobs.filterMap Job.target

structure Sound (s : Heap V H) : Prop where
  nodup : s.targets.Nodup
  pending : ∀ q ∈ s.targets, s.state q = none ∧ q < s.next
  fresh : ∀ p, s.next ≤ p → s.state p = none
  handled : ∀ u ∈ s.subscribers, u.handlers.hasResolve = true ∨ u.handlers.hasReject = true
  executors : ∀ p, p ∈ s.exposed ∨ .executor p ∈ s.jobs ∨ .executing p ∈ s.jobs → p ∈ s.constructed
  constructed : ∀ p ∈ s.constructed, p < s.next ∧ (s.Undecided p → s.state p = none ∧ p ∉ s.targets)
  derived : ∀ d ∈ s.derived, d.promise < s.next ∧ d.promise ∉ s.constructed
  calls : ∀ c ∈ s.calls, c.promise < s.next

-- from s to s' nothing is lost that a promise other than t waits for
structure Grows (t : Option Nat) (s s' : Heap V H) : Prop where
  state : ∀ q st, s.state q = some st → s'.state q = some st
  jobs : ∀ j ∈ s.jobs, ∀ q, j.target = some q → some q ≠ t → j ∈ s'.jobs
  waiting : ∀ u ∈ s.waiting, u ∈ s'.waiting ∨
    ∃ st j, s'.state u.source = some st ∧ u.told st = some j ∧ j ∈ s'.jobs
  calls : ∀ q, some q ≠ t → s'.callsFor q = s.callsFor q

theorem mem_waiting {u : Subscription H} :
    u ∈ s.waiting ↔ u ∈ s.subscribers ∧ s.state u.source = none := by
  rw [waiting, List.mem_filter, Option.isNone_iff_eq_none]

theorem mem_targets_of_waiting {u : Subscription H} (h : u ∈ s.waiting) : u.promise ∈ s.targets :=
  List.mem_append_left _ (List.mem_map_of_mem h)

theorem mem_targets_of_job {j : Job V H} {q : Nat} (h : j ∈ s.jobs) (hj : j.target = some q) :
    q ∈ s.targets :=
  List.mem_append_right _ (List.mem_filterMap.mpr ⟨j, h, hj⟩)

theorem settle_state (s : Heap V H) (p : Nat) (st : Settled V) (q : Nat) :
    (s.settle p st).state q = if q = p then some st else s.state q := by
  show Function.update s.state p (some st) q = _
  rw [Function.update_apply]

theorem settle_waiting (s : Heap V H) (p : Nat) (st : Settled V) :
    (s.settle p st).waiting = s.waiting.filter fun u => !(u.source == p) := by
  rw [waiting, waiting, List.filter_filter]
  refine List.filter_congr ?_
  intro u _
  rw [settle_state]
  by_cases hu : u.source = p
  · rw [if_pos hu, hu, beq_self_eq_true]
    rfl
  · rw [if_neg hu, beq_eq_false_iff_ne.mpr hu, Bool.not_false, Bool.true_and]

theorem subscribersOf_waiting (hp : s.state p = none) :
    s.subscribersOf p = s.waiting.filter fun u => u.source == p := by
  rw [waiting, subscribersOf, List.filter_filter]
  refine List.filter_congr ?_
  intro u _
  by_cases hu : u.source = p
  · rw [hu, hp, beq_self_eq_true]
    rfl
  · rw [beq_eq_false_iff_ne.mpr hu, Bool.false_and]

theorem settle_targets (hp : s.state p = none) (st : Settled V) :
    (s.settle p st).targets.Subperm s.targets := by
  let jobs := s.jobs.filterMap Job.target
  let told := (s.waiting.filter fun u => u.source == p).map (·.promise)
  let rest := (s.waiting.filter fun u => !(u.source == p)).map (·.promise)
  have hnotified : List.Sublist ((s.notifications p st).filterMap Job.target) told := by
    have hsub := notifications_targets s p st
    rw [subscribersOf_waiting hp] at hsub
    exact hsub
  have hwaiting : (told ++ rest).Perm (s.waiting.map (·.promise)) := by
    rw [← List.map_append]
    exact (List.filter_append_perm _ _).map _
  have htargets : (s.settle p st).targets =
      rest ++ (jobs ++ (s.notifications p st).filterMap Job.target) := by
    rw [targets, settle_waiting, ← List.filterMap_append]
    rfl
  have hsublist : List.Sublist (rest ++ (jobs ++ (s.notifications p st).filterMap Job.target))
      (rest ++ (jobs ++ told)) :=
    (List.Sublist.refl rest).append ((List.Sublist.refl jobs).append hnotified)
  have hperm : (rest ++ (jobs ++ told)).Perm s.targets := by
    rw [← List.append_assoc]
    refine List.perm_append_comm.trans ?_
    rw [← List.append_assoc]
    exact hwaiting.append_right _
  rw [htargets]
  exact hsublist.subperm.trans hperm.subperm

theorem schedule_targets (s : Heap V H) (js : List (Job V H)) :
    (s.schedule js).targets = s.targets ++ js.filterMap Job.target := by
  show s.waiting.map (·.promise) ++ (s.jobs ++ js).filterMap Job.target = _
  rw [List.filterMap_append, ← List.append_assoc]
  rfl

theorem adopt_targets (hp : s.state p = none) (handlers : Handlers H) (q : Nat) :
    ({ s with subscribers := s.subscribers ++ [⟨p, handlers, q⟩] } : Heap V H).targets.Perm
      (s.targets ++ [q]) := by
  have hwaiting : ({ s with subscribers := s.subscribers ++ [⟨p, handlers, q⟩] } : Heap V H).waiting =
      s.waiting ++ [⟨p, handlers, q⟩] := by
    show List.filter _ (s.subscribers ++ [_]) = _
    rw [List.filter_append, List.filter_cons_of_pos (by rw [hp]; rfl)]
    rfl
  rw [targets, hwaiting, List.map_append, List.append_assoc, targets, List.append_assoc]
  exact List.perm_append_comm.append_left _

-- whoever is to be settled next, is settled by nobody else
def Free (s : Heap V H) (p : Nat) : Prop :=
  s.state p = none → p ∉ s.targets ∧ (p ∈ s.constructed → ¬s.Undecided p)

namespace Sound

theorem add (h : s.Sound) {s' : Heap V H} {t : Nat} (htargets : s'.targets.Perm (s.targets ++ [t]))
    (hnot : t ∉ s.targets) (hstate : s'.state = s.state) (hnext : s'.next = s.next)
    (ht : s.state t = none ∧ t < s.next) (hhandled : ∀ u ∈ s'.subscribers,
      u.handlers.hasResolve = true ∨ u.handlers.hasReject = true)
    (hjobs : ∀ q, .executor q ∈ s'.jobs ∨ .executing q ∈ s'.jobs →
      .executor q ∈ s.jobs ∨ .executing q ∈ s.jobs)
    (hexposed : s'.exposed = s.exposed) (hconstructed : s'.constructed = s.constructed)
    (hdecisions : s'.decisions = s.decisions) (hderived : s'.derived = s.derived)
    (hcalls : s'.calls = s.calls) (hfree : t ∈ s.constructed → ¬s.Undecided t) : s'.Sound := by
  have hmem (q : Nat) : q ∈ s'.targets ↔ q ∈ s.targets ∨ q = t := by
    rw [htargets.mem_iff, List.mem_append, List.mem_singleton]
  refine ⟨?_, ?_, ?_, hhandled, ?_, ?_, ?_, ?_⟩
  · refine htargets.nodup_iff.mpr (List.nodup_append.mpr ⟨h.nodup, List.pairwise_singleton _ t, ?_⟩)
    rintro q hq t' ht' rfl
    rw [List.mem_singleton.mp ht'] at hq
    exact hnot hq
  · intro q hq
    rw [hstate, hnext]
    rcases (hmem q).mp hq with hq | rfl
    · exact h.pending q hq
    · exact ht
  · rw [hstate, hnext]
    exact h.fresh
  · intro q hq
    rw [hconstructed]
    rw [hexposed] at hq
    rcases hq with hq | hq
    · exact h.executors q (.inl hq)
    · exact h.executors q (.inr (hjobs q hq))
  · intro q hq
    rw [hconstructed] at hq
    obtain ⟨hlt, hundecided⟩ := h.constructed q hq
    rw [hnext, hstate]
    refine ⟨hlt, ?_⟩
    intro hq'
    rw [Undecided, first, hdecisions] at hq'
    obtain ⟨hnone, hnotin⟩ := hundecided hq'
    refine ⟨hnone, ?_⟩
    intro hin
    rcases (hmem q).mp hin with hin | rfl
    · exact hnotin hin
    · exact hfree hq hq'
  · rw [hderived, hnext, hconstructed]
    exact h.derived
  · rw [hcalls, hnext]
    exact h.calls

theorem executors_schedule (h : s.Sound) {js : List (Job V H)} {q : Nat}
    (hq : q ∈ (s.schedule js).exposed ∨ .executor q ∈ (s.schedule js).jobs ∨
      .executing q ∈ (s.schedule js).jobs) :
    q ∈ s.constructed ∨ .executor q ∈ js ∨ .executing q ∈ js := by
  rcases hq with hq | hq | hq
  · exact .inl (h.executors q (.inl hq))
  · rcases List.mem_append.mp hq with hq | hq
    · exact .inl (h.executors q (.inr (.inl hq)))
    · exact .inr (.inl hq)
  · rcases List.mem_append.mp hq with hq | hq
    · exact .inl (h.executors q (.inr (.inr hq)))
    · exact .inr (.inr hq)

theorem schedule (h : s.Sound) {j : Job V H} {t : Nat} (hj : j.target = some t) (hfree : s.Free t)
    (ht : s.state t = none ∧ t < s.next) : (s.schedule [j]).Sound := by
  have htargets : (s.schedule [j]).targets = s.targets ++ [t] := by
    rw [schedule_targets, List.filterMap_cons_some hj, List.filterMap_nil]
  refine h.add (by rw [htargets]) (hfree ht.1).1 rfl rfl ht h.handled ?_ rfl rfl rfl rfl rfl
    (hfree ht.1).2
  intro q hq
  have hne : j ≠ .executor q ∧ j ≠ .executing q := by
    constructor
    · rintro rfl
      cases hj
    · rintro rfl
      cases hj
  rcases hq with hq | hq
  · rcases List.mem_append.mp hq with hq | hq
    · exact .inl hq
    · exact absurd (List.mem_singleton.mp hq).symm hne.1
  · rcases List.mem_append.mp hq with hq | hq
    · exact .inr hq
    · exact absurd (List.mem_singleton.mp hq).symm hne.2

theorem adopt (h : s.Sound) {handlers : Handlers H} {q : Nat} (hp : s.state p = none)
    (hhandlers : handlers.hasResolve = true ∨ handlers.hasReject = true) (hfree : s.Free q)
    (hq : s.state q = none ∧ q < s.next) :
    ({ s with subscribers := s.subscribers ++ [⟨p, handlers, q⟩] } : Heap V H).Sound := by
  refine h.add (adopt_targets hp handlers q) (hfree hq.1).1 rfl rfl hq ?_ (fun _ hq => hq) rfl rfl rfl
    rfl rfl (hfree hq.1).2
  intro u hu
  rcases List.mem_append.mp hu with hu | hu
  · exact h.handled u hu
  · rw [List.mem_singleton.mp hu]
    exact hhandlers

theorem settle (h : s.Sound) (hp : s.state p = none) (hlt : p < s.next) (hfree : s.Free p)
    (st : Settled V) : (s.settle p st).Sound := by
  have hsubperm := settle_targets hp st
  have hnot := (hfree hp).1
  have hstate {q : Nat} (hq : q ∈ s.targets) : (s.settle p st).state q = none := by
    have hne : q ≠ p := by
      rintro rfl
      exact hnot hq
    rw [settle_state, if_neg hne]
    exact (h.pending q hq).1
  refine ⟨?_, ?_, ?_, h.handled, ?_, ?_, h.derived, h.calls⟩
  · obtain ⟨l, hperm, hsublist⟩ := hsubperm
    exact hperm.nodup_iff.mp (h.nodup.sublist hsublist)
  · intro q hq
    have hq := hsubperm.subset hq
    exact ⟨hstate hq, (h.pending q hq).2⟩
  · intro q hq
    have hne : q ≠ p := by
      rintro rfl
      exact absurd hlt (Nat.not_lt_of_le hq)
    rw [settle_state, if_neg hne]
    exact h.fresh q hq
  · intro q hq
    rcases h.executors_schedule hq with hq | hq | hq
    · exact hq
    · cases notifications_target hq
    · cases notifications_target hq
  · intro q hq
    obtain ⟨hlt, hundecided⟩ := h.constructed q hq
    refine ⟨hlt, ?_⟩
    intro hq'
    obtain ⟨hnone, hnotin⟩ := hundecided hq'
    have hne : q ≠ p := by
      rintro rfl
      exact (hfree hp).2 hq hq'
    rw [settle_state, if_neg hne]
    exact ⟨hnone, fun hin => hnotin (hsubperm.subset hin)⟩

theorem broadcast (h : s.Sound) (hlt : p < s.next) (hfree : s.Free p) (b : Broadcast V) :
    (s.broadcast p b).Sound := by
  generalize ht : s.broadcast p b = t
  have heffect := broadcast_effect s p b
  rw [ht] at heffect
  cases heffect with
  | same => exact h
  | settle st hp hb => exact h.settle hp hlt hfree st
  | follow r st hp hb hne hr => exact h.schedule rfl hfree ⟨hp, hlt⟩
  | adopt r hp hb hne hr => exact h.adopt hr (.inl rfl) hfree ⟨hp, hlt⟩

end Sound

namespace Grows
variable {t : Option Nat} {s' s'' : Heap V H}

theorem trans (h : Grows t s s') (h' : Grows none s' s'') : Grows t s s'' := by
  refine ⟨fun q st hq => h'.state q st (h.state q st hq), ?_, ?_, ?_⟩
  · intro j hj q hq hne
    exact h'.jobs j (h.jobs j hj q hq hne) q hq (Option.some_ne_none q)
  · intro u hu
    rcases h.waiting u hu with hu | ⟨st, j, hst, htold, hj⟩
    · exact h'.waiting u hu
    · exact .inr ⟨st, j, h'.state _ st hst, htold,
        h'.jobs j hj _ (Subscription.told_target htold) (Option.some_ne_none _)⟩
  · intro q hq
    rw [h'.calls q (Option.some_ne_none q), h.calls q hq]

theorem append (hstate : s'.state = s.state) (hjobs : ∀ j ∈ s.jobs, j ∈ s'.jobs)
    (hsubscribers : ∀ u ∈ s.subscribers, u ∈ s'.subscribers) (hcalls : s'.calls = s.calls) :
    Grows none s s' := by
  refine ⟨?_, fun j hj _ _ _ => hjobs j hj, ?_, ?_⟩
  · intro q st hq
    rw [hstate]
    exact hq
  · intro u hu
    obtain ⟨hmem, hpending⟩ := mem_waiting.mp hu
    refine .inl (mem_waiting.mpr ⟨hsubscribers u hmem, ?_⟩)
    rw [hstate]
    exact hpending
  · intro q _
    rw [callsFor, hcalls, callsFor]

theorem schedule (s : Heap V H) (js : List (Job V H)) : Grows none s (s.schedule js) :=
  append rfl (fun _ hj => List.mem_append_left _ hj) (fun _ hu => hu) rfl

theorem adopt (s : Heap V H) (u : Subscription H) :
    Grows none s { s with subscribers := s.subscribers ++ [u] } :=
  append rfl (fun _ hj => hj) (fun _ hw => List.mem_append_left _ hw) rfl

theorem settle (h : s.Sound) (hp : s.state p = none) (hheard : s.Heard p st) :
    Grows none s (s.settle p st) := by
  refine ⟨?_, fun _ hj _ _ _ => List.mem_append_left _ hj, ?_, fun _ _ => rfl⟩
  · intro q st' hq
    have hne : q ≠ p := by
      rintro rfl
      rw [hp] at hq
      cases hq
    rw [settle_state, if_neg hne]
    exact hq
  · intro u hu
    by_cases hsource : u.source = p
    · have hmem : u ∈ s.subscribersOf p := by
        rw [subscribersOf_waiting hp]
        exact List.mem_filter.mpr ⟨hu, beq_iff_eq.mpr hsource⟩
      obtain ⟨j, htold, hj⟩ := heard_told hheard hmem (h.handled u (mem_waiting.mp hu).1)
      refine .inr ⟨st, j, ?_, htold, List.mem_append_right _ hj⟩
      rw [settle_state, if_pos hsource]
    · refine .inl ?_
      rw [settle_waiting]
      exact List.mem_filter.mpr ⟨hu, by rw [beq_eq_false_iff_ne.mpr hsource, Bool.not_false]⟩

theorem broadcast (h : s.Sound) {b : Broadcast V} (htimely : s.Timely p b) :
    Grows none s (s.broadcast p b) := by
  generalize ht : s.broadcast p b = s'
  have heffect := broadcast_effect s p b
  rw [ht] at heffect
  cases heffect with
  | same => exact append rfl (fun _ hj => hj) (fun _ hu => hu) rfl
  | settle st hp hb => exact settle h hp (htimely hp st hb)
  | follow r st hp hb hne hr => exact schedule s _
  | adopt r hp hb hne hr => exact adopt s _

end Grows

-- p is to become what r becomes
inductive Mirror (s : Heap V H) (p r : Nat) : Prop
  | same (st : Settled V) (hp : s.state p = some st) (hr : s.state r = some st)
  | waiting (h : ⟨r, .adoption, p⟩ ∈ s.waiting)
  | settle (st : Settled V) (h : .settle p st.broadcast ∈ s.jobs) (hr : s.state r = some st)

-- where a promise made by then stands
inductive Stage (ms : List (Nat × Nat)) (s : Heap V H) (d : Derived H) : Prop
  | waiting (h : ⟨d.source, .reaction d.resolve d.reject, d.promise⟩ ∈ s.waiting)
      (hc : s.callsFor d.promise = [])
  | late (r : Nat) (f : H) (v : V) (h : ⟨r, .reaction (some f) none, d.promise⟩ ∈ s.waiting)
      (hr : (r, d.source) ∈ ms) (hs : s.state d.source = some (.resolved v))
      (hf : d.resolve = some f) (hc : s.callsFor d.promise = [])
  | called (j : Job V H) (h : H) (st : Settled V) (hj : j ∈ s.jobs)
      (hr : j.reaction = some (h, st, d.promise)) (hs : s.state d.source = some st)
      (hh : d.handler st = some h) (hc : s.callsFor d.promise = [])
  | passed (st : Settled V) (hj : .settle d.promise st.broadcast ∈ s.jobs)
      (hs : s.state d.source = some st) (hh : d.handler st = none)
  | done (st : Settled V) (hs : s.state d.source = some st) (hq : s.state d.promise ≠ none)
      (h : s.Takes d st)
  | exempt (st : Settled V) (h : H) (c : Call V H) (hs : s.state d.source = some st)
      (hh : d.handler st = some h) (hc : c ∈ s.callsFor d.promise) (hp : c.completion.isPlain = false)

theorem Mirror.grows {t : Option Nat} {s' : Heap V H} {p r : Nat} (h : s.Mirror p r) (hne : some p ≠ t)
    (hgrows : Grows t s s') : s'.Mirror p r := by
  cases h with
  | same st hp hr => exact .same st (hgrows.state p st hp) (hgrows.state r st hr)
  | waiting h =>
    rcases hgrows.waiting _ h with h | ⟨st, j, hst, htold, hj⟩
    · exact .waiting h
    · rw [Subscription.told_adoption] at htold
      cases htold
      exact .settle st hj hst
  | settle st h hr => exact .settle st (hgrows.jobs _ h p rfl hne) (hgrows.state r st hr)

theorem Mirror.settled {p r : Nat} (h : s.Mirror p r) (hsound : s.Sound) (hp : s.state p = some st) :
    s.state r = some st := by
  have hnot : p ∉ s.targets := by
    intro hin
    rw [(hsound.pending p hin).1] at hp
    cases hp
  cases h with
  | same st' hp' hr => rw [hr, ← hp', hp]
  | waiting h => exact absurd (mem_targets_of_waiting h) hnot
  | settle st' h hr => exact absurd (mem_targets_of_job h rfl) hnot

theorem takes_grows {s' : Heap V H} {d : Derived H} (h : s.Takes d st) (hq : s.state d.promise ≠ none)
    (hstate : ∀ q st, s.state q = some st → s'.state q = some st)
    (hcalls : s'.callsFor d.promise = s.callsFor d.promise) : s'.Takes d st := by
  have heq : s'.state d.promise = s.state d.promise := by
    obtain ⟨st', hst'⟩ := Option.ne_none_iff_exists'.mp hq
    rw [hst', hstate _ _ hst']
  simp only [Takes, hcalls, heq]
  exact h

namespace Stage
variable {ms ms' : List (Nat × Nat)} {d : Derived H} {t : Option Nat} {s' : Heap V H}

-- a subscription that was told of what its source became
theorem told_direct {j : Job V H} (hs : s.state d.source = some st)
    (htold : (⟨d.source, .reaction d.resolve d.reject, d.promise⟩ : Subscription H).told st = some j)
    (hj : j ∈ s.jobs) (hc : s.callsFor d.promise = []) : s.Stage ms d := by
  cases hh : d.handler st with
  | some h =>
    obtain ⟨j', htold', hr⟩ := Subscription.told_handler d.source d.promise rfl rfl hh
    rw [htold] at htold'
    cases htold'
    exact .called j h st hj hr hs hh hc
  | none =>
    cases st with
    | resolved v =>
      have hnone : d.resolve = none := hh
      rw [hnone] at htold
      cases htold
    | rejected x =>
      have hnone : d.reject = none := hh
      rw [hnone] at htold
      cases hresolve : d.resolve with
      | none =>
        rw [hresolve] at htold
        cases htold
      | some f =>
        rw [hresolve] at htold
        cases htold
        exact .passed (.rejected x) hj hs hh

theorem grows (h : s.Stage ms d) (hne : some d.promise ≠ t) (hgrows : Grows t s s') (hsound : s'.Sound)
    (hms : ∀ m ∈ ms, m ∈ ms') (hmirror : ∀ r, (r, d.source) ∈ ms → s'.Mirror r d.source) :
    s'.Stage ms' d := by
  have hcalls := hgrows.calls d.promise hne
  cases h with
  | waiting h hc =>
    rw [← hcalls] at hc
    rcases hgrows.waiting _ h with h | ⟨st, j, hst, htold, hj⟩
    · exact .waiting h hc
    · exact told_direct hst htold hj hc
  | late r f v h hr hs hf hc =>
    rw [← hcalls] at hc
    have hs := hgrows.state _ _ hs
    rcases hgrows.waiting _ h with h | ⟨st, j, hst, htold, hj⟩
    · exact .late r f v h (hms _ hr) hs hf hc
    · have hsource := (hmirror r hr).settled hsound hst
      rw [hs] at hsource
      cases hsource
      cases htold
      exact .called _ f (.resolved v) hj rfl hs hf hc
  | called j h st hj hr hs hh hc =>
    rw [← hcalls] at hc
    exact .called j h st (hgrows.jobs j hj _ (Job.reaction_target hr) hne) hr (hgrows.state _ _ hs) hh hc
  | passed st hj hs hh => exact .passed st (hgrows.jobs _ hj _ rfl hne) (hgrows.state _ _ hs) hh
  | done st hs hq h =>
    refine .done st (hgrows.state _ _ hs) ?_ (takes_grows h hq hgrows.state hcalls)
    obtain ⟨st', hst'⟩ := Option.ne_none_iff_exists'.mp hq
    rw [hgrows.state _ _ hst']
    exact Option.some_ne_none st'
  | exempt st h c hs hh hc hp =>
    rw [← hcalls] at hc
    exact .exempt st h c (hgrows.state _ _ hs) hh hc hp

end Stage

theorem first_append {s' : Heap V H} {ds : List (Nat × Broadcast V)}
    (h : s'.decisions = s.decisions ++ ds) (q : Nat) :
    s'.first q = (s.first q).or ((ds.find? fun x => x.1 == q).map (·.2)) := by
  rw [first, h, List.find?_append, first]
  cases s.decisions.find? fun x => x.1 == q <;> rfl

theorem undecided_of_append {s' : Heap V H} {ds : List (Nat × Broadcast V)}
    (h : s'.decisions = s.decisions ++ ds) {q : Nat} (hq : s'.Undecided q) : s.Undecided q := by
  rw [Undecided, first_append h, Option.or_eq_none_iff] at hq
  exact hq.1

section Leave
variable {i : Nat} {j : Job V H} {es : List Nat} {cs : List (Call V H)} {ds : List (Nat × Broadcast V)}

theorem leave_jobs_sublist : List.Sublist (s.leave i es cs ds).jobs s.jobs := List.eraseIdx_sublist ..

theorem leave_targets_sublist : List.Sublist (s.leave i es cs ds).targets s.targets :=
  (List.Sublist.refl _).append (leave_jobs_sublist.filterMap _)

theorem leave_target (h : s.Sound) (hj : s.jobs[i]? = some j) {t : Nat} (ht : j.target = some t) :
    t ∉ (s.leave i es cs ds).targets := by
  obtain ⟨hi, rfl⟩ := List.getElem?_eq_some_iff.mp hj
  have hjobs := (List.getElem_cons_eraseIdx_perm hi).filterMap Job.target
  rw [List.filterMap_cons_some ht] at hjobs
  have htargets : s.targets.Perm (t :: (s.leave i es cs ds).targets) :=
    (hjobs.symm.append_left _).trans List.perm_middle
  exact (List.nodup_cons.mp (htargets.nodup_iff.mp h.nodup)).1

theorem undecided_of_leave {q : Nat} (h : (s.leave i es cs ds).Undecided q) : s.Undecided q :=
  undecided_of_append rfl h

theorem Sound.leave (h : s.Sound) (hes : ∀ p ∈ es, p ∈ s.constructed)
    (hcs : ∀ c ∈ cs, c.promise < s.next) : (s.leave i es cs ds).Sound := by
  refine ⟨h.nodup.sublist leave_targets_sublist, fun q hq => h.pending q (leave_targets_sublist.subset hq),
    h.fresh, h.handled, ?_, ?_, h.derived, ?_⟩
  · intro q hq
    rcases hq with hq | hq | hq
    · rcases List.mem_append.mp hq with hq | hq
      · exact h.executors q (.inl hq)
      · exact hes q hq
    · exact h.executors q (.inr (.inl (leave_jobs_sublist.subset hq)))
    · exact h.executors q (.inr (.inr (leave_jobs_sublist.subset hq)))
  · intro q hq
    obtain ⟨hlt, hundecided⟩ := h.constructed q hq
    refine ⟨hlt, ?_⟩
    intro hq'
    obtain ⟨hnone, hnot⟩ := hundecided (undecided_of_leave hq')
    exact ⟨hnone, fun hin => hnot (leave_targets_sublist.subset hin)⟩
  · intro c hc
    rcases List.mem_append.mp hc with hc | hc
    · exact h.calls c hc
    · exact hcs c hc

theorem Sound.leave_free (h : s.Sound) (hj : s.jobs[i]? = some j) {t : Nat} (ht : j.target = some t) :
    (s.leave i es cs ds).Free t := by
  intro _
  refine ⟨leave_target h hj ht, ?_⟩
  intro hconstructed hundecided
  have hin : t ∈ s.targets := mem_targets_of_job (List.mem_of_getElem? hj) ht
  exact ((h.constructed t hconstructed).2 (undecided_of_leave hundecided)).2 hin

theorem Grows.leave (hj : s.jobs[i]? = some j) (hcs : ∀ c ∈ cs, some c.promise = j.target) :
    Grows j.target s (s.leave i es cs ds) := by
  refine ⟨fun _ _ h => h, ?_, fun _ hu => .inl hu, ?_⟩
  · intro j' hj' q hq hne
    obtain ⟨k, hk⟩ := List.mem_iff_getElem?.mp hj'
    refine List.mem_eraseIdx_iff_getElem?.mpr ⟨k, ?_, hk⟩
    rintro rfl
    rw [hj] at hk
    cases hk
    exact hne hq.symm
  · intro q hq
    have hnil : cs.filter (fun c => c.promise == q) = [] := by
      refine List.filter_eq_nil_iff.mpr ?_
      intro c hc heq
      rw [← hcs c hc, beq_iff_eq.mp heq] at hq
      exact hq rfl
    show (s.calls ++ cs).filter _ = s.calls.filter _
    rw [List.filter_append, hnil, List.append_nil]

end Leave

section Only
variable {ms : List (Nat × Nat)} {i t : Nat} {j : Job V H} {d : Derived H}

theorem Sound.only_job (h : s.Sound) (hj : s.jobs[i]? = some j) (ht : j.target = some t) {j' : Job V H}
    (hj' : j' ∈ s.jobs) (ht' : j'.target = some t) : j' = j := by
  obtain ⟨k, hk⟩ := List.mem_iff_getElem?.mp hj'
  by_cases hki : k = i
  · subst hki
    rw [hj] at hk
    exact (Option.some.inj hk).symm
  · have hmem : j' ∈ (s.leave i [] [] []).jobs := List.mem_eraseIdx_iff_getElem?.mpr ⟨k, hki, hk⟩
    exact absurd (mem_targets_of_job hmem ht') (leave_target h hj ht)

theorem Sound.not_waiting (h : s.Sound) (hj : s.jobs[i]? = some j) (ht : j.target = some t)
    {u : Subscription H} (hu : u ∈ s.waiting) : u.promise ≠ t := by
  rintro rfl
  have hmem : u ∈ (s.leave i [] [] []).waiting := hu
  exact leave_target h hj ht (mem_targets_of_waiting hmem)

-- what is known of a promise that a task is still to settle
theorem Mirror.of_job {r : Nat} (h : s.Mirror t r) (hsound : s.Sound) (hj : s.jobs[i]? = some j)
    (ht : j.target = some t) : ∃ st : Settled V, j = .settle t st.broadcast ∧ s.state r = some st := by
  cases h with
  | same st hp hr =>
    rw [(hsound.pending t (mem_targets_of_job (List.mem_of_getElem? hj) ht)).1] at hp
    cases hp
  | waiting h => exact absurd rfl (hsound.not_waiting hj ht h)
  | settle st h hr => exact ⟨st, (hsound.only_job hj ht h rfl).symm, hr⟩

theorem Stage.of_job (h : s.Stage ms d) (hsound : s.Sound) (hj : s.jobs[i]? = some j)
    (ht : j.target = some d.promise) : ∃ st, s.state d.source = some st ∧
      ((∃ h, j.reaction = some (h, st, d.promise) ∧ d.handler st = some h ∧ s.callsFor d.promise = []) ∨
        (j = .settle d.promise st.broadcast ∧ d.handler st = none) ∨
        ∃ h c, d.handler st = some h ∧ c ∈ s.callsFor d.promise ∧ c.completion.isPlain = false) := by
  cases h with
  | waiting h hc => exact absurd rfl (hsound.not_waiting hj ht h)
  | late r f v h hr hs hf hc => exact absurd rfl (hsound.not_waiting hj ht h)
  | called j' h st hj' hr hs hh hc =>
    obtain rfl := hsound.only_job hj ht hj' (Job.reaction_target hr)
    exact ⟨st, hs, .inl ⟨h, hr, hh, hc⟩⟩
  | passed st hj' hs hh =>
    obtain rfl := hsound.only_job hj ht hj' rfl
    exact ⟨st, hs, .inr (.inl ⟨rfl, hh⟩)⟩
  | done st hs hq h =>
    exact absurd (hsound.pending _ (mem_targets_of_job (List.mem_of_getElem? hj) ht)).1 hq
  | exempt st h c hs hh hc hp => exact ⟨st, hs, .inr (.inr ⟨h, c, hh, hc, hp⟩)⟩

end Only

end Heap

end NexusRuntime.Promises
