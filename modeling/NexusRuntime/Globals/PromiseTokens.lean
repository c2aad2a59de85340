import Mathlib.Data.List.Count
import NexusRuntime.Globals.PromiseRuns

namespace NexusRuntime.Promises

open Transition

namespace Subscription
variable {V H : Type}

-- what a broadcast schedules for one subscriber; `rejecters`: some subscriber has a reject handler
def heard (rejecters : Bool) (st : Settled V) (u : Subscription H) : Option (Job V H) :=
  match st with
  | .resolved v => u.onResolve v
  | .rejected x =>
    if rejecters then u.onReject x
    else if u.handlers.hasResolve then some (.settle u.promise (.reject x)) else none

-- nothing to call for this outcome
def Deaf (u : Subscription H) (st : Settled V) : Prop :=
  ∃ f g, u.handlers = .reaction f g ∧
    match st with
    | .resolved _ => f = none
    | .rejected _ => g = none

variable {u : Subscription H} {j : Job V H} {st : Settled V}

theorem heard_target {rejecters : Bool} (h : u.heard rejecters st = some j) :
    j.target = some u.promise := by
  cases st with
  | resolved v => exact onResolve_target h
  | rejected x =>
    cases rejecters with
    | true => exact onReject_target h
    | false =>
      cases hresolve : u.handlers.hasResolve with
      | false => simp [heard, hresolve] at h
      | true =>
        simp only [heard, hresolve, if_true, Bool.false_eq_true, if_false] at h
        cases h
        rfl

theorem heard_settles {rejecters : Bool} {p : Nat} {b : Broadcast V}
    (h : u.heard rejecters st = some (.settle p b)) : b.settled.isSome = true := by
  obtain ⟨source, handlers, promise⟩ := u
  cases st with
  | resolved v =>
    rcases handlers with ⟨_ | f, g⟩ | _ <;> cases h
    rfl
  | rejected x =>
    cases rejecters with
    | true =>
      rcases handlers with ⟨f, _ | g⟩ | _ <;> cases h
      rfl
    | false => rcases handlers with ⟨_ | f, g⟩ | _ <;> cases h <;> rfl

theorem deaf_of_unheard {rejecters : Bool} (h : u.heard rejecters st = none)
    (hu : u.handlers.hasReject = true → rejecters = true) : u.Deaf st := by
  obtain ⟨source, handlers, promise⟩ := u
  cases handlers with
  | adoption =>
    obtain rfl : rejecters = true := hu rfl
    cases st <;> cases h
  | reaction f g =>
    refine ⟨f, g, rfl, ?_⟩
    cases st with
    | resolved v =>
      cases f with
      | none => rfl
      | some f => cases h
    | rejected x =>
      cases g with
      | none => rfl
      | some g =>
        obtain rfl : rejecters = true := hu rfl
        cases h

end Subscription

namespace Heap
variable {V H : Type} {s s' s'' : Heap V H} {p : Nat}

-- a promise for a function of resolve and reject
def own (s : Heap V H) : Heap V H :=
  { s with next := s.next + 1, constructed := s.constructed ++ [s.next] }

def rejecters (s : Heap V H) (p : Nat) : Bool := (s.subscribersOf p).any fun u => u.handlers.hasReject

theorem notifications_heard (s : Heap V H) (p : Nat) (st : Settled V) :
    s.notifications p st = (s.subscribersOf p).filterMap (Subscription.heard (s.rejecters p) st) := by
  cases st with
  | resolved v => rfl
  | rejected x =>
    simp only [notifications]
    cases hany : s.rejecters p with
    | false =>
      have hnone : ((s.subscribersOf p).filter fun u => u.handlers.hasReject) = [] := by
        rw [List.filter_eq_nil_iff]
        intro u hu
        simpa using List.any_eq_false.mp hany u hu
      rw [hnone, List.isEmpty_nil, if_pos rfl, ← List.filterMap_eq_map, List.filterMap_filter]
      refine List.filterMap_congr ?_
      intro u _
      simp [Subscription.heard]
    | true =>
      obtain ⟨u, hu, hreject⟩ := List.any_eq_true.mp hany
      have hne : ((s.subscribersOf p).filter fun u => u.handlers.hasReject).isEmpty = false := by
        rw [List.isEmpty_eq_false_iff]
        exact List.ne_nil_of_mem (List.mem_filter.mpr ⟨hu, hreject⟩)
      simp only [hne, Bool.false_eq_true, if_false, List.filterMap_filter]
      refine List.filterMap_congr ?_
      rintro ⟨source, handlers, promise⟩ _
      rcases handlers with ⟨f, _ | g⟩ | _ <;> rfl

-- a promise that the program holds no resolve or reject function of has one way to be settled
structure Tidy (s : Heap V H) : Prop where
  once : ∀ q, q ∉ s.constructed → s.targets.count q ≤ 1
  pending : ∀ q ∈ s.targets, q ∉ s.constructed → s.state q = none
  bounded : ∀ q ∈ s.targets, q < s.next
  fresh : ∀ p, s.next ≤ p → s.state p = none
  executors : ∀ p, p ∈ s.exposed ∨ .executor p ∈ s.jobs ∨ .executing p ∈ s.jobs → p ∈ s.constructed
  constructed : ∀ p ∈ s.constructed, p < s.next
  derived : ∀ d ∈ s.derived, d.promise < s.next ∧ d.promise ∉ s.constructed
  calls : ∀ c ∈ s.calls, c.promise < s.next
  settles : ∀ p b, .settle p b ∈ s.jobs → b.settled.isSome = true

-- a subscriber that is told nothing; only one that has a reject handler takes a rejection from the others
def Missed (s : Heap V H) (u : Subscription H) (st : Settled V) : Prop :=
  u.Deaf st ∧ (u.handlers.hasResolve = true → (∃ x, st = .rejected x) →
    ∃ v ∈ s.subscribers, v.source = u.source ∧ v.handlers.hasReject = true)

theorem Missed.grows {u : Subscription H} {st : Settled V} (h : s.Missed u st)
    (hsubscribers : ∀ v ∈ s.subscribers, v ∈ s'.subscribers) : s'.Missed u st := by
  refine ⟨h.1, ?_⟩
  intro hresolve hrejected
  obtain ⟨v, hv, hsource, hreject⟩ := h.2 hresolve hrejected
  exact ⟨v, hsubscribers v hv, hsource, hreject⟩

theorem missed_of_unheard {u : Subscription H} {st : Settled V} (hu : u ∈ s.subscribersOf p)
    (h : u.heard (s.rejecters p) st = none) : s.Missed u st := by
  refine ⟨Subscription.deaf_of_unheard h fun hreject => List.any_eq_true.mpr ⟨u, hu, hreject⟩, ?_⟩
  rintro hresolve ⟨x, rfl⟩
  cases hany : s.rejecters p with
  | false =>
    rw [hany] at h
    simp [Subscription.heard, hresolve] at h
  | true =>
    obtain ⟨v, hv, hreject⟩ := List.any_eq_true.mp hany
    obtain ⟨hmem, hsource⟩ := List.mem_filter.mp hv
    refine ⟨v, hmem, ?_, hreject⟩
    rw [beq_iff_eq.mp hsource, beq_iff_eq.mp (List.mem_filter.mp hu).2]

-- what a step that is about the promises in T does to all the others
structure Carries (T : Nat → Prop) (s s' : Heap V H) : Prop where
  state : ∀ q st, s.state q = some st → s'.state q = some st
  same : ∀ q, ¬T q → s'.state q = s.state q
  subscribers : ∀ u ∈ s.subscribers, u ∈ s'.subscribers
  calls : ∀ q, ¬T q → s'.callsFor q = s.callsFor q
  called : ∀ q, ∀ c ∈ s.callsFor q, c ∈ s'.callsFor q
  jobs : ∀ j ∈ s.jobs, ∀ q, j.target = some q → ¬T q → j ∈ s'.jobs
  waiting : ∀ u ∈ s.waiting, ¬T u.promise → u ∈ s'.waiting ∨ ∃ st, s'.state u.source = some st ∧
    ((∃ j ∈ s'.jobs, j.target = some u.promise) ∨ s'.Missed u st)
  fromJobs : ∀ j ∈ s'.jobs, ∀ q, j.target = some q → ¬T q → j ∈ s.jobs ∨
    ∃ u ∈ s.waiting, ∃ st rejecters, s'.state u.source = some st ∧ u.heard rejecters st = some j
  fromWaiting : ∀ u ∈ s'.waiting, ¬T u.promise → u ∈ s.waiting

namespace Carries
variable {T T' : Nat → Prop} {t : Nat} {st : Settled V}

theorem trans (h : Carries T s s') (h' : Carries T s' s'') : Carries T s s'' := by
  refine ⟨?_, ?_, ?_, ?_, ?_, ?_, ?_, ?_, ?_⟩
  · intro q st hq
    exact h'.state q st (h.state q st hq)
  · intro q hq
    rw [h'.same q hq, h.same q hq]
  · intro u hu
    exact h'.subscribers u (h.subscribers u hu)
  · intro q hq
    rw [h'.calls q hq, h.calls q hq]
  · intro q c hc
    exact h'.called q c (h.called q c hc)
  · intro j hj q hq hT
    exact h'.jobs j (h.jobs j hj q hq hT) q hq hT
  · intro u hu hT
    rcases h.waiting u hu hT with hu | ⟨st, hst, ⟨j, hj, ht⟩ | hmissed⟩
    · exact h'.waiting u hu hT
    · exact .inr ⟨st, h'.state _ st hst, .inl ⟨j, h'.jobs j hj _ ht hT, ht⟩⟩
    · exact .inr ⟨st, h'.state _ st hst, .inr (hmissed.grows h'.subscribers)⟩
  · intro j hj q hq hT
    rcases h'.fromJobs j hj q hq hT with hj | ⟨u, hu, st, rejecters, hst, hheard⟩
    · rcases h.fromJobs j hj q hq hT with hj | ⟨u, hu, st, rejecters, hst, hheard⟩
      · exact .inl hj
      · exact .inr ⟨u, hu, st, rejecters, h'.state _ st hst, hheard⟩
    · have hpromise : u.promise = q := by
        rw [Subscription.heard_target hheard] at hq
        exact Option.some.inj hq
      rw [← hpromise] at hT
      exact .inr ⟨u, h.fromWaiting u hu hT, st, rejecters, hst, hheard⟩
  · intro u hu hT
    exact h.fromWaiting u (h'.fromWaiting u hu hT) hT

-- more subscriptions and more tasks, all of them for promises in T
theorem extend {us : List (Subscription H)} {js : List (Job V H)} (hstate : s'.state = s.state)
    (hsubscribers : s'.subscribers = s.subscribers ++ us) (hjobs : s'.jobs = s.jobs ++ js)
    (hcalls : s'.calls = s.calls) (hus : ∀ u ∈ us, T u.promise)
    (hjs : ∀ j ∈ js, ∀ q, j.target = some q → T q) : Carries T s s' := by
  refine ⟨?_, ?_, ?_, ?_, ?_, ?_, ?_, ?_, ?_⟩
  · intro q st hq
    rw [hstate]
    exact hq
  · intro q _
    rw [hstate]
  · intro u hu
    rw [hsubscribers]
    exact List.mem_append_left _ hu
  · intro q _
    rw [callsFor, hcalls, callsFor]
  · intro q c hc
    rw [callsFor, hcalls]
    exact hc
  · intro j hj q _ _
    rw [hjobs]
    exact List.mem_append_left _ hj
  · intro u hu _
    obtain ⟨hmem, hpending⟩ := mem_waiting.mp hu
    refine .inl (mem_waiting.mpr ⟨?_, ?_⟩)
    · rw [hsubscribers]
      exact List.mem_append_left _ hmem
    · rw [hstate]
      exact hpending
  · intro j hj q hq hT
    rw [hjobs] at hj
    rcases List.mem_append.mp hj with hj | hj
    · exact .inl hj
    · exact absurd (hjs j hj q hq) hT
  · intro u hu hT
    obtain ⟨hmem, hpending⟩ := mem_waiting.mp hu
    rw [hsubscribers] at hmem
    rw [hstate] at hpending
    rcases List.mem_append.mp hmem with hmem | hmem
    · exact mem_waiting.mpr ⟨hmem, hpending⟩
    · exact absurd (hus u hmem) hT

theorem settle (hT : T p) (hp : s.state p = none) : Carries T s (s.settle p st) := by
  have hstate (q : Nat) (st' : Settled V) (hq : s.state q = some st') :
      (s.settle p st).state q = some st' := by
    have hne : q ≠ p := by
      rintro rfl
      rw [hp] at hq
      cases hq
    rw [settle_state, if_neg hne]
    exact hq
  refine ⟨hstate, ?_, fun _ hu => hu, fun _ _ => rfl, fun _ _ hc => hc,
    fun _ hj _ _ _ => List.mem_append_left _ hj, ?_, ?_, ?_⟩
  · intro q hq
    have hne : q ≠ p := by
      rintro rfl
      exact hq hT
    rw [settle_state, if_neg hne]
  · intro u hu _
    by_cases hsource : u.source = p
    · refine .inr ⟨st, by rw [settle_state, if_pos hsource], ?_⟩
      have hmem : u ∈ s.subscribersOf p :=
        List.mem_filter.mpr ⟨(mem_waiting.mp hu).1, beq_iff_eq.mpr hsource⟩
      cases hheard : u.heard (s.rejecters p) st with
      | some j =>
        refine .inl ⟨j, List.mem_append_right _ ?_, Subscription.heard_target hheard⟩
        rw [notifications_heard]
        exact List.mem_filterMap.mpr ⟨u, hmem, hheard⟩
      | none => exact .inr (missed_of_unheard hmem hheard)
    · refine .inl ?_
      rw [settle_waiting]
      exact List.mem_filter.mpr ⟨hu, by rw [beq_eq_false_iff_ne.mpr hsource, Bool.not_false]⟩
  · intro j hj q hq _
    rcases List.mem_append.mp hj with hj | hj
    · exact .inl hj
    · rw [notifications_heard] at hj
      obtain ⟨u, hu, hheard⟩ := List.mem_filterMap.mp hj
      rw [subscribersOf_waiting hp] at hu
      obtain ⟨hwaiting, hsource⟩ := List.mem_filter.mp hu
      refine .inr ⟨u, hwaiting, st, s.rejecters p, ?_, hheard⟩
      rw [settle_state, if_pos (beq_iff_eq.mp hsource)]
  · intro u hu _
    rw [settle_waiting] at hu
    exact (List.mem_filter.mp hu).1

theorem broadcast (hT : T p) (b : Broadcast V) : Carries T s (s.broadcast p b) := by
  generalize ht : s.broadcast p b = t
  have heffect := broadcast_effect s p b
  rw [ht] at heffect
  cases heffect with
  | same =>
    exact .extend rfl (List.append_nil _).symm (List.append_nil _).symm rfl (List.forall_mem_nil _)
      (List.forall_mem_nil _)
  | settle st hp hb => exact .settle hT hp
  | follow r st hp hb hne hr =>
    refine .extend rfl (List.append_nil _).symm rfl rfl (List.forall_mem_nil _) ?_
    refine List.forall_mem_singleton.mpr ?_
    rintro q ⟨⟩
    exact hT
  | adopt r hp hb hne hr =>
    exact .extend rfl rfl (List.append_nil _).symm rfl (List.forall_mem_singleton.mpr hT)
      (List.forall_mem_nil _)

theorem leave {i : Nat} {j : Job V H} {es : List Nat} {cs : List (Call V H)}
    {ds : List (Nat × Broadcast V)} (hj : s.jobs[i]? = some j) (ht : ∀ q, j.target = some q → T q)
    (hcs : ∀ c ∈ cs, T c.promise) : Carries T s (s.leave i es cs ds) := by
  refine ⟨fun _ _ h => h, fun _ _ => rfl, fun _ hu => hu, ?_, ?_, ?_, fun _ hu _ => .inl hu, ?_,
    fun _ hu _ => hu⟩
  · intro q hq
    have hnil : cs.filter (fun c => c.promise == q) = [] := by
      refine List.filter_eq_nil_iff.mpr ?_
      intro c hc heq
      rw [← beq_iff_eq.mp heq] at hq
      exact hq (hcs c hc)
    show (s.calls ++ cs).filter _ = s.calls.filter _
    rw [List.filter_append, hnil, List.append_nil]
  · intro q c hc
    obtain ⟨hmem, hq⟩ := List.mem_filter.mp hc
    exact List.mem_filter.mpr ⟨List.mem_append_left _ hmem, hq⟩
  · intro j' hj' q hq hT
    obtain ⟨k, hk⟩ := List.mem_iff_getElem?.mp hj'
    refine List.mem_eraseIdx_iff_getElem?.mpr ⟨k, ?_, hk⟩
    rintro rfl
    rw [hj] at hk
    cases hk
    exact hT (ht q hq)
  · intro j' hj' q _ _
    exact .inl (leave_jobs_sublist.subset hj')

end Carries

def Unowed (s : Heap V H) (p : Nat) : Prop := p ∈ s.constructed ∨ p ∉ s.targets

namespace Tidy
variable {i t : Nat} {j : Job V H} {es : List Nat} {cs : List (Call V H)} {ds : List (Nat × Broadcast V)}

theorem start_tidy : (start : Heap V H).Tidy := by
  refine ⟨fun _ _ => Nat.zero_le _, ?_, ?_, fun _ _ => rfl, ?_, ?_, ?_, ?_, ?_⟩
  · intro q hq
    cases hq
  · intro q hq
    cases hq
  · rintro q (hq | hq | hq) <;> cases hq
  · intro q hq
    cases hq
  · intro d hd
    cases hd
  · intro c hc
    cases hc
  · intro p b hb
    cases hb

theorem leave (h : s.Tidy) (hes : ∀ p ∈ es, p ∈ s.constructed) (hcs : ∀ c ∈ cs, c.promise < s.next) :
    (s.leave i es cs ds).Tidy := by
  refine ⟨?_, ?_, ?_, h.fresh, ?_, h.constructed, h.derived, ?_, ?_⟩
  · intro q hq
    exact Nat.le_trans (leave_targets_sublist.count_le q) (h.once q hq)
  · intro q hq hprivate
    exact h.pending q (leave_targets_sublist.subset hq) hprivate
  · intro q hq
    exact h.bounded q (leave_targets_sublist.subset hq)
  · intro q hq
    rcases hq with hq | hq | hq
    · rcases List.mem_append.mp hq with hq | hq
      · exact h.executors q (.inl hq)
      · exact hes q hq
    · exact h.executors q (.inr (.inl (leave_jobs_sublist.subset hq)))
    · exact h.executors q (.inr (.inr (leave_jobs_sublist.subset hq)))
  · intro c hc
    rcases List.mem_append.mp hc with hc | hc
    · exact h.calls c hc
    · exact hcs c hc
  · intro p b hb
    exact h.settles p b (leave_jobs_sublist.subset hb)

-- the one task for a promise of nobody else is gone when it goes on
theorem leave_unowed (h : s.Tidy) (hj : s.jobs[i]? = some j) (ht : j.target = some t) :
    (s.leave i es cs ds).Unowed t := by
  by_cases hin : t ∈ s.constructed
  · exact .inl hin
  · refine .inr ?_
    obtain ⟨hi, rfl⟩ := List.getElem?_eq_some_iff.mp hj
    have hjobs := (List.getElem_cons_eraseIdx_perm hi).filterMap Job.target
    rw [List.filterMap_cons_some ht] at hjobs
    have htargets : s.targets.Perm (t :: (s.leave i es cs ds).targets) :=
      (hjobs.symm.append_left _).trans List.perm_middle
    have honce := h.once t hin
    rw [htargets.count_eq, List.count_cons_self] at honce
    exact List.count_eq_zero.mp (by omega)

theorem once_more (h : s.Tidy) (hfree : s.Unowed t) {q : Nat} (hq : q ∉ s.constructed) :
    (s.targets ++ [t]).count q ≤ 1 := by
  have honce := h.once q hq
  rw [List.count_append]
  by_cases heq : t = q
  · subst heq
    have hnot : s.targets.count t = 0 := List.count_eq_zero.mpr (hfree.resolve_left hq)
    have hself : [t].count t = 1 := List.count_singleton_self
    omega
  · have hzero : List.count q [t] = 0 := by
      refine List.count_eq_zero.mpr ?_
      intro hin
      exact heq (List.mem_singleton.mp hin).symm
    rw [hzero]
    exact honce

theorem schedule (h : s.Tidy) (hj : j.target = some t) (hfree : s.Unowed t) (hlt : t < s.next)
    (hpending : t ∉ s.constructed → s.state t = none)
    (hsettle : ∀ p b, j = .settle p b → b.settled.isSome = true) : (s.schedule [j]).Tidy := by
  have htargets : (s.schedule [j]).targets = s.targets ++ [t] := by
    rw [schedule_targets, List.filterMap_cons_some hj, List.filterMap_nil]
  have hne (q : Nat) : j ≠ .executor q ∧ j ≠ .executing q := by
    constructor
    · rintro rfl
      cases hj
    · rintro rfl
      cases hj
  refine ⟨?_, ?_, ?_, h.fresh, ?_, h.constructed, h.derived, h.calls, ?_⟩
  · intro q hq
    rw [htargets]
    exact h.once_more hfree hq
  · intro q hq hprivate
    rw [htargets] at hq
    rcases List.mem_append.mp hq with hq | hq
    · exact h.pending q hq hprivate
    · cases List.mem_singleton.mp hq
      exact hpending hprivate
  · intro q hq
    rw [htargets] at hq
    rcases List.mem_append.mp hq with hq | hq
    · exact h.bounded q hq
    · rw [List.mem_singleton.mp hq]
      exact hlt
  · intro q hq
    rcases hq with hq | hq | hq
    · exact h.executors q (.inl hq)
    · rcases List.mem_append.mp hq with hq | hq
      · exact h.executors q (.inr (.inl hq))
      · exact absurd (List.mem_singleton.mp hq).symm (hne q).1
    · rcases List.mem_append.mp hq with hq | hq
      · exact h.executors q (.inr (.inr hq))
      · exact absurd (List.mem_singleton.mp hq).symm (hne q).2
  · intro p b hb
    rcases List.mem_append.mp hb with hb | hb
    · exact h.settles p b hb
    · exact hsettle p b (List.mem_singleton.mp hb).symm

theorem adopt (h : s.Tidy) {handlers : Handlers H} (hfree : s.Unowed t) (hlt : t < s.next)
    (hpending : t ∉ s.constructed → s.state t = none) :
    ({ s with subscribers := s.subscribers ++ [⟨p, handlers, t⟩] } : Heap V H).Tidy := by
  have hsublist : List.Sublist
      ({ s with subscribers := s.subscribers ++ [⟨p, handlers, t⟩] } : Heap V H).waiting
      (s.waiting ++ [⟨p, handlers, t⟩]) := by
    show List.Sublist (List.filter _ (s.subscribers ++ [_])) _
    rw [List.filter_append]
    exact (List.Sublist.refl _).append (List.filter_sublist ..)
  have hsubperm : ({ s with subscribers := s.subscribers ++ [⟨p, handlers, t⟩] } : Heap V H).targets.Subperm
      (s.targets ++ [t]) := by
    have happend : ((s.waiting ++ [(⟨p, handlers, t⟩ : Subscription H)]).map (·.promise) ++ s.jobs.filterMap Job.target).Perm
        (s.targets ++ [t]) := by
      rw [targets, List.map_append, List.append_assoc, List.append_assoc]
      exact List.perm_append_comm.append_left _
    have hmap := hsublist.map fun u : Subscription H => u.promise
    exact (hmap.append (List.Sublist.refl _)).subperm.trans happend.subperm
  refine ⟨?_, ?_, ?_, h.fresh, h.executors, h.constructed, h.derived, h.calls, h.settles⟩
  · intro q hq
    exact Nat.le_trans (hsubperm.count_le q) (h.once_more hfree hq)
  · intro q hq hprivate
    rcases List.mem_append.mp (hsubperm.subset hq) with hq | hq
    · exact h.pending q hq hprivate
    · cases List.mem_singleton.mp hq
      exact hpending hprivate
  · intro q hq
    rcases List.mem_append.mp (hsubperm.subset hq) with hq | hq
    · exact h.bounded q hq
    · rw [List.mem_singleton.mp hq]
      exact hlt

theorem settle (h : s.Tidy) (hp : s.state p = none) (hlt : p < s.next) (hfree : s.Unowed p)
    (st : Settled V) : (s.settle p st).Tidy := by
  have hsubperm := settle_targets hp st
  refine ⟨?_, ?_, ?_, ?_, ?_, h.constructed, h.derived, h.calls, ?_⟩
  · intro q hq
    exact Nat.le_trans (hsubperm.count_le q) (h.once q hq)
  · intro q hq hprivate
    have hin := hsubperm.subset hq
    have hne : q ≠ p := by
      rintro rfl
      exact hfree.elim hprivate fun hnot => hnot hin
    rw [settle_state, if_neg hne]
    exact h.pending q hin hprivate
  · intro q hq
    exact h.bounded q (hsubperm.subset hq)
  · intro q hq
    have hne : q ≠ p := by
      rintro rfl
      exact absurd hlt (Nat.not_lt_of_le hq)
    rw [settle_state, if_neg hne]
    exact h.fresh q hq
  · intro q hq
    rcases hq with hq | hq | hq
    · exact h.executors q (.inl hq)
    · rcases List.mem_append.mp hq with hq | hq
      · exact h.executors q (.inr (.inl hq))
      · cases notifications_target hq
    · rcases List.mem_append.mp hq with hq | hq
      · exact h.executors q (.inr (.inr hq))
      · cases notifications_target hq
  · intro q b hb
    rcases List.mem_append.mp hb with hb | hb
    · exact h.settles q b hb
    · rw [notifications_heard] at hb
      obtain ⟨u, -, hu⟩ := List.mem_filterMap.mp hb
      exact Subscription.heard_settles hu

theorem broadcast (h : s.Tidy) (hlt : p < s.next) (hfree : s.Unowed p) (b : Broadcast V) :
    (s.broadcast p b).Tidy := by
  generalize ht : s.broadcast p b = t
  have heffect := broadcast_effect s p b
  rw [ht] at heffect
  cases heffect with
  | same => exact h
  | settle st hp hb => exact h.settle hp hlt hfree st
  | follow r st hp hb hne hr =>
    refine h.schedule rfl hfree hlt (fun _ => hp) ?_
    rintro q b ⟨⟩
    rw [st.broadcast_settled]
    rfl
  | adopt r hp hb hne hr => exact h.adopt hfree hlt fun _ => hp

theorem decide (h : s.Tidy) : ({ s with decisions := s.decisions ++ ds } : Heap V H).Tidy :=
  ⟨h.once, h.pending, h.bounded, h.fresh, h.executors, h.constructed, h.derived, h.calls, h.settles⟩

theorem allocate (h : s.Tidy) : ({ s with next := s.next + 1 } : Heap V H).Tidy := by
  refine ⟨h.once, h.pending, ?_, ?_, h.executors, ?_, ?_, ?_, h.settles⟩
  · intro q hq
    exact Nat.lt_succ_of_lt (h.bounded q hq)
  · intro q hq
    exact h.fresh q (Nat.le_of_succ_le hq)
  · intro q hq
    exact Nat.lt_succ_of_lt (h.constructed q hq)
  · intro d hd
    exact ⟨Nat.lt_succ_of_lt (h.derived d hd).1, (h.derived d hd).2⟩
  · intro c hc
    exact Nat.lt_succ_of_lt (h.calls c hc)

theorem not_target (h : s.Tidy) {q : Nat} (hq : s.next ≤ q) : q ∉ s.targets := by
  intro hin
  exact absurd (h.bounded q hin) (Nat.not_lt_of_le hq)

theorem not_constructed (h : s.Tidy) {q : Nat} (hq : s.next ≤ q) : q ∉ s.constructed := by
  intro hin
  exact absurd (h.constructed q hin) (Nat.not_lt_of_le hq)

theorem no_calls (h : s.Tidy) {q : Nat} (hq : s.next ≤ q) : s.callsFor q = [] := by
  refine List.filter_eq_nil_iff.mpr ?_
  intro c hc heq
  have hlt := h.calls c hc
  rw [beq_iff_eq.mp heq] at hlt
  exact absurd hlt (Nat.not_lt_of_le hq)

theorem constructSettled (h : s.Tidy) {b : Broadcast V} (hb : b.settled.isSome = true) :
    (s.constructSettled b).Tidy := by
  refine h.allocate.schedule rfl (.inr (h.not_target (Nat.le_refl _))) (Nat.lt_succ_self _)
    (fun _ => h.fresh _ (Nat.le_refl _)) ?_
  rintro p b' ⟨⟩
  exact hb

theorem subscribe (h : s.Tidy) (q : Nat) (f g : Option H) : (s.subscribe q f g).Tidy :=
  h.allocate.adopt (.inr (h.not_target (Nat.le_refl _))) (Nat.lt_succ_self _)
    fun _ => h.fresh _ (Nat.le_refl _)

theorem derive (h : s.Tidy) {d : Derived H} (hlt : d.promise < s.next)
    (hnot : d.promise ∉ s.constructed) :
    ({ s with derived := s.derived ++ [d] } : Heap V H).Tidy := by
  refine ⟨h.once, h.pending, h.bounded, h.fresh, h.executors, h.constructed, ?_, h.calls, h.settles⟩
  intro d' hd
  rcases List.mem_append.mp hd with hd | hd
  · exact h.derived d' hd
  · rw [List.mem_singleton.mp hd]
    exact ⟨hlt, hnot⟩

theorem own (h : s.Tidy) : s.own.Tidy := by
  refine ⟨?_, ?_, h.allocate.bounded, h.allocate.fresh, ?_, ?_, ?_, h.allocate.calls, h.settles⟩
  · intro q hq
    exact h.once q fun hin => hq (List.mem_append_left _ hin)
  · intro q hq hprivate
    exact h.pending q hq fun hin => hprivate (List.mem_append_left _ hin)
  · intro q hq
    exact List.mem_append_left _ (h.executors q hq)
  · intro q hq
    rcases List.mem_append.mp hq with hq | hq
    · exact h.allocate.constructed q hq
    · rw [List.mem_singleton.mp hq]
      exact Nat.lt_succ_self _
  · intro d hd
    obtain ⟨hlt, hnot⟩ := h.derived d hd
    refine ⟨Nat.lt_succ_of_lt hlt, ?_⟩
    intro hin
    rcases List.mem_append.mp hin with hin | hin
    · exact hnot hin
    · exact absurd (List.mem_singleton.mp hin) (Nat.ne_of_lt hlt)

theorem enter (h : s.Tidy) (hp : p ∈ s.constructed) (hj : j = .executor p ∨ j = .executing p) :
    (s.schedule [j]).Tidy := by
  have ht : j.target = none := by
    rcases hj with rfl | rfl <;> rfl
  have htargets : (s.schedule [j]).targets = s.targets := by
    rw [schedule_targets, List.filterMap_cons_none ht, List.filterMap_nil, List.append_nil]
  have hsame {q : Nat} (hq : j = .executor q ∨ j = .executing q) : q ∈ s.constructed := by
    rcases hj with rfl | rfl <;> rcases hq with hq | hq <;> cases hq <;> exact hp
  refine ⟨?_, ?_, ?_, h.fresh, ?_, h.constructed, h.derived, h.calls, ?_⟩
  · rw [htargets]
    exact h.once
  · rw [htargets]
    exact h.pending
  · rw [htargets]
    exact h.bounded
  · intro q hq
    rcases hq with hq | hq | hq
    · exact h.executors q (.inl hq)
    · rcases List.mem_append.mp hq with hq | hq
      · exact h.executors q (.inr (.inl hq))
      · exact hsame (.inl (List.mem_singleton.mp hq).symm)
    · rcases List.mem_append.mp hq with hq | hq
      · exact h.executors q (.inr (.inr hq))
      · exact hsame (.inr (List.mem_singleton.mp hq).symm)
  · intro q b hb
    rcases List.mem_append.mp hb with hb | hb
    · exact h.settles q b hb
    · rw [← List.mem_singleton.mp hb] at ht
      cases ht

end Tidy

end Heap

end NexusRuntime.Promises
