import Mathlib.Data.List.Forall2
import Mathlib.Data.List.Nodup
import NexusRuntime.Globals.PromiseOutcomes
import NexusRuntime.Globals.PromiseTouches

namespace NexusRuntime.Promises

open Transition

inductive Combinator where
  | all
  | race
deriving DecidableEq, Repr

-- one call of Promise.all or Promise.race, with its function that is called again until it decides
structure Poll (V : Type) where
  combinator : Combinator
  collection : List (Value V)
  promise : Nat
deriving DecidableEq, Repr

-- the values that all makes of others, and what reading a property of null or undefined throws
structure Collecting (V : Type) where
  array : List V → V
  undefined : V
  nullish : V → Bool
  typeError : V

structure Pool (V H : Type) where
  heap : Heap V H
  polls : List (Poll V)
  combined : List (Poll V)

inductive Action (V H : Type) where
  | heap (l : Label V H)
  | combine (c : Combinator) (collection : List (Value V))
  | poll (i : Nat)

namespace Poll
variable {V : Type} (C : Collecting V) (state : Nat → Option (Settled V))

def isNullish : Value V → Bool
  | .plain v => C.nullish v
  | .promise _ => false

-- a plain value has no state, which is not PENDING either
def isSettled : Value V → Bool
  | .plain _ => true
  | .promise r => (state r).isSome

def rejection : Value V → Option (Value V)
  | .plain _ => none
  | .promise r =>
    match state r with
    | some (.rejected x) => some x
    | _ => none

def resolved : Value V → V
  | .plain v => v
  | .promise r =>
    match state r with
    | some (.resolved v) => v
    | _ => C.undefined

def decide (q : Poll V) : Option (Broadcast V) :=
  if q.collection.any (isNullish C) then some (.reject (.plain C.typeError))
  else
    let filtered := q.collection.filter (isSettled state)
    match filtered.findSome? (rejection state) with
    | some x => some (.reject x)
    | none =>
      match q.combinator with
      | .all =>
        if filtered.length = q.collection.length then
          some (.resolve (.plain (C.array (q.collection.map (resolved C state)))))
        else none
      | .race => filtered.head?.map .resolve

end Poll

namespace Pool
variable {V H : Type} (R : Runtime V) (C : Collecting V)

def start : Pool V H := ⟨.start, [], []⟩

def combine (s : Pool V H) (c : Combinator) (collection : List (Value V)) : Pool V H :=
  let q : Poll V := ⟨c, collection, s.heap.next⟩
  { heap := s.heap.own
    polls := s.polls ++ [q]
    combined := s.combined ++ [q] }

def poll (s : Pool V H) (i : Nat) (q : Poll V) : Pool V H :=
  match q.decide C s.heap.state with
  | some b =>
    { s with
      heap := { s.heap with decisions := s.heap.decisions ++ [(q.promise, b)] }.broadcast q.promise b
      polls := s.polls.eraseIdx i }
  | none => { s with polls := s.polls.eraseIdx i ++ [q] }

def step (s : Pool V H) : Action V H → Option (Pool V H)
  | .heap l => (s.heap.step R l).map fun h => { s with heap := h }
  | .combine c collection =>
    if collection.all (Value.known s.heap.next) then some (s.combine c collection) else none
  | .poll i => (s.polls[i]?).map fun q => s.poll C i q

def system : System (Pool V H) (Action V H) := ⟨step R C⟩

end Pool

namespace Poll
variable {V H : Type} {C : Collecting V} {s s' : Heap V H} {q : Poll V} {b : Broadcast V} {st : Settled V}

def Resolves (s : Heap V H) : Value V → V → Prop
  | .plain w, v => w = v
  | .promise r, v => s.state r = some (.resolved v)

-- what the members of a collection make of the promise of all and of race
inductive Outcome (C : Collecting V) (s : Heap V H) (q : Poll V) : Settled V → Prop
  | all (vs : List V) (hc : q.combinator = .all) (h : List.Forall₂ (Resolves s) q.collection vs) :
      Outcome C s q (.resolved (C.array vs))
  | race (x : Value V) (v : V) (hc : q.combinator = .race) (hx : x ∈ q.collection) (h : Resolves s x v) :
      Outcome C s q (.resolved v)
  | rejected (r : Nat) (x : Value V) (hr : .promise r ∈ q.collection)
      (h : s.state r = some (.rejected x)) : Outcome C s q (.rejected x)
  | nullish (v : V) (hv : .plain v ∈ q.collection) (h : C.nullish v = true) :
      Outcome C s q (.rejected (.plain C.typeError))

theorem Resolves.grows {x : Value V} {v : V} (h : Resolves s x v)
    (hstate : ∀ r st, s.state r = some st → s'.state r = some st) : Resolves s' x v := by
  cases x with
  | plain w => exact h
  | promise r => exact hstate r _ h

theorem Outcome.grows (h : Outcome C s q st)
    (hstate : ∀ r st, s.state r = some st → s'.state r = some st) : Outcome C s' q st := by
  cases h with
  | all vs hc h => exact .all vs hc (h.imp fun _ _ h => h.grows hstate)
  | race x v hc hx h => exact .race x v hc hx (h.grows hstate)
  | rejected r x hr h => exact .rejected r x hr (hstate r _ h)
  | nullish v hv h => exact .nullish v hv h

theorem rejection_eq_some {state : Nat → Option (Settled V)} {x e : Value V} (h : rejection state x = some e) :
    ∃ r, x = .promise r ∧ state r = some (.rejected e) := by
  cases x with
  | plain v => cases h
  | promise r =>
    simp only [rejection] at h
    split at h
    · next hr =>
      cases h
      exact ⟨r, rfl, hr⟩
    · cases h

-- a member that has settled and is not rejected
theorem resolves_of_settled {x : Value V} (hs : isSettled s.state x = true)
    (hr : rejection s.state x = none) : Resolves s x (resolved C s.state x) := by
  cases x with
  | plain v => rfl
  | promise r =>
    cases hst : s.state r with
    | none =>
      rw [isSettled, hst] at hs
      cases hs
    | some st =>
      cases st with
      | resolved v => simp only [Resolves, resolved, hst]
      | rejected e => simp [rejection, hst] at hr

theorem forall₂_resolved {xs : List (Value V)}
    (h : ∀ x ∈ xs, isSettled s.state x = true ∧ rejection s.state x = none) :
    List.Forall₂ (Resolves s) xs (xs.map (resolved C s.state)) := by
  rw [List.forall₂_map_right_iff, List.forall₂_same]
  intro x hx
  exact resolves_of_settled (h x hx).1 (h x hx).2

-- what a decision says, at once or through a member that is resolved
theorem decide_sound (h : q.decide C s.state = some b) :
    (∃ st, b.settled = some st ∧ Outcome C s q st) ∨
      ∃ r v, b = .resolve (.promise r) ∧ s.state r = some (.resolved v) ∧ Outcome C s q (.resolved v) := by
  simp only [decide] at h
  split at h
  · next hany =>
    cases h
    obtain ⟨x, hx, hnullish⟩ := List.any_eq_true.mp hany
    cases x with
    | plain v => exact .inl ⟨_, rfl, .nullish v hx hnullish⟩
    | promise r => cases hnullish
  · split at h
    · next x hfound =>
      cases h
      obtain ⟨y, hy, hrejection⟩ := List.exists_of_findSome?_eq_some hfound
      obtain ⟨r, rfl, hr⟩ := rejection_eq_some hrejection
      exact .inl ⟨_, rfl, .rejected r x (List.mem_filter.mp hy).1 hr⟩
    · next hnone =>
      have hmember (x : Value V) (hx : x ∈ q.collection) (hsettled : isSettled s.state x = true) :
          rejection s.state x = none :=
        List.findSome?_eq_none_iff.mp hnone x (List.mem_filter.mpr ⟨hx, hsettled⟩)
      split at h
      · next hc =>
        split at h
        · next hlength =>
          cases h
          have hall := List.length_filter_eq_length_iff.mp hlength
          refine .inl ⟨_, rfl, .all _ hc (forall₂_resolved ?_)⟩
          intro x hx
          exact ⟨hall x hx, hmember x hx (hall x hx)⟩
        · cases h
      · next hc =>
        obtain ⟨x, hx, rfl⟩ := Option.map_eq_some_iff.mp h
        obtain ⟨hmem, hsettled⟩ := List.mem_filter.mp (List.mem_of_head? hx)
        have hresolves := resolves_of_settled (C := C) hsettled (hmember x hmem hsettled)
        cases x with
        | plain v => exact .inl ⟨_, rfl, .race _ v hc hmem rfl⟩
        | promise r => exact .inr ⟨r, _, rfl, hresolves, .race _ _ hc hmem hresolves⟩

-- the members that the promise is waiting for
def Waits (s : Heap V H) (q : Poll V) : Prop :=
  (∀ r x, .promise r ∈ q.collection → s.state r ≠ some (.rejected x)) ∧
    match q.combinator with
    | .all => ∃ r, .promise r ∈ q.collection ∧ s.state r = none
    | .race => ∀ x ∈ q.collection, ∃ r, x = .promise r ∧ s.state r = none

theorem pending_of_not_settled {x : Value V} (h : ¬isSettled s.state x = true) :
    ∃ r, x = .promise r ∧ s.state r = none := by
  cases x with
  | plain v => exact absurd rfl h
  | promise r =>
    rw [isSettled, Bool.not_eq_true, Option.isSome_eq_false_iff, Option.isNone_iff_eq_none] at h
    exact ⟨r, rfl, h⟩

theorem waits_of_undecided (h : q.decide C s.state = none) : q.Waits s := by
  simp only [decide] at h
  split at h
  · cases h
  · split at h
    · cases h
    · next hnone =>
      refine ⟨?_, ?_⟩
      · intro r x hr hs
        have hsettled : isSettled s.state (.promise r) = true := by
          rw [isSettled, hs]
          rfl
        have hrejection := List.findSome?_eq_none_iff.mp hnone _ (List.mem_filter.mpr ⟨hr, hsettled⟩)
        simp [rejection, hs] at hrejection
      · split at h
        · next hc =>
          split at h
          · cases h
          · next hlength =>
            rw [List.length_filter_eq_length_iff] at hlength
            obtain ⟨x, hx⟩ := not_forall.mp hlength
            obtain ⟨hmem, hpending⟩ := Classical.not_imp.mp hx
            obtain ⟨r, rfl, hr⟩ := pending_of_not_settled hpending
            exact ⟨r, hmem, hr⟩
        · next hc =>
          intro x hx
          refine pending_of_not_settled ?_
          intro hsettled
          rw [Option.map_eq_none_iff, List.head?_eq_none_iff, List.filter_eq_nil_iff] at h
          exact h x hx hsettled

end Poll

namespace Pool
variable {V H : Type} {R : Runtime V} {C : Collecting V} {s s' : Pool V H} {h h' : Heap V H} {q : Poll V}

-- where the promise of one call of all or race stands
inductive Status (C : Collecting V) (h : Heap V H) (polls : List (Poll V)) (q : Poll V) : Prop
  | polled (hq : q ∈ polls) (hs : h.state q.promise = none) (hnot : q.promise ∉ h.targets)
  | ending (st : Settled V) (hq : q ∉ polls) (ho : Poll.Outcome C h q st) (hs : h.state q.promise = none)
      (hj : .settle q.promise st.broadcast ∈ h.jobs)
      (hjobs : ∀ j ∈ h.jobs, j.target = some q.promise → j = .settle q.promise st.broadcast)
      (hwaiting : ∀ u ∈ h.waiting, u.promise ≠ q.promise)
  | ended (st : Settled V) (hq : q ∉ polls) (ho : Poll.Outcome C h q st)
      (hs : h.state q.promise = some st)

structure Sound (C : Collecting V) (s : Pool V H) : Prop where
  nodup : s.polls.Nodup
  distinct : ∀ q ∈ s.combined, ∀ q' ∈ s.combined, q.promise = q'.promise → q = q'
  polls : ∀ q ∈ s.polls, q ∈ s.combined
  owned : ∀ q ∈ s.combined, q.promise < s.heap.next ∧ ¬s.heap.Opens q.promise
  status : ∀ q ∈ s.combined, Status C s.heap s.polls q

theorem not_target {p : Nat} {T : Nat → Prop} (hc : Heap.Carries T h h') (hT : ¬T p) (hnot : p ∉ h.targets) :
    p ∉ h'.targets := by
  intro hin
  have hwaiting (u : Subscription H) (hu : u ∈ h.waiting) : u.promise ≠ p := by
    rintro rfl
    exact hnot (Heap.mem_targets_of_waiting hu)
  rcases List.mem_append.mp hin with hin | hin
  · obtain ⟨u, hu, rfl⟩ := List.mem_map.mp hin
    exact hwaiting u (hc.fromWaiting u hu hT) rfl
  · obtain ⟨j, hj, ht⟩ := List.mem_filterMap.mp hin
    rcases hc.fromJobs j hj p ht hT with hj | ⟨u, hu, st, rejecters, hst, hheard⟩
    · exact hnot (Heap.mem_targets_of_job hj ht)
    · rw [Subscription.heard_target hheard] at ht
      exact hwaiting u hu (Option.some.inj ht)

-- a step that is not about the promise
theorem Status.carries {T : Nat → Prop} {polls polls' : List (Poll V)} (hst : Status C h polls q)
    (hc : Heap.Carries T h h') (hT : ¬T q.promise) (hpolls : q ∈ polls ↔ q ∈ polls') :
    Status C h' polls' q := by
  have hsame := hc.same q.promise hT
  cases hst with
  | polled hq hs hnot => exact .polled (hpolls.mp hq) (hsame.trans hs) (not_target hc hT hnot)
  | ending st hq ho hs hj hjobs hwaiting =>
    refine .ending st (fun hin => hq (hpolls.mpr hin)) (ho.grows hc.state) (hsame.trans hs) (hc.jobs _ hj _ rfl hT) ?_ ?_
    · intro j hj' ht
      rcases hc.fromJobs j hj' _ ht hT with hj' | ⟨u, hu, st', rejecters, hst', hheard⟩
      · exact hjobs j hj' ht
      · rw [Subscription.heard_target hheard] at ht
        exact absurd (Option.some.inj ht) (hwaiting u hu)
    · intro u hu hq
      rw [← hq] at hT
      exact hwaiting u (hc.fromWaiting u hu hT) hq
  | ended st hq ho hs =>
    exact .ended st (fun hin => hq (hpolls.mpr hin)) (ho.grows hc.state) (hc.state _ _ hs)

-- a step of the program and of the promises
theorem Status.heap {polls : List (Poll V)} {l : Label V H} (hst : Status C h polls q)
    (hstep : Heap.step R h l = some h') (hlt : q.promise < h.next) (hopens : ¬h.Opens q.promise) :
    Status C h' polls q := by
  have hc := Heap.step_carries hstep
  by_cases hT : h.Touches l q.promise
  · cases l with
    | construct => cases hT
    | thenOn p f g => exact absurd hT (Nat.not_le_of_lt hlt)
    | call p b =>
      simp only [Heap.step] at hstep
      split at hstep
      · next hguard =>
        have hp : q.promise = p := hT
        rw [← hp] at hguard
        exact absurd (.inl hguard.1) hopens
      · cases hstep
    | run i =>
      obtain ⟨j, hj, ht⟩ := hT
      have hmem := List.mem_of_getElem? hj
      cases hst with
      | polled hq hs hnot => exact absurd (Heap.mem_targets_of_job hmem ht) hnot
      | ended st hq ho hs => exact .ended st hq (ho.grows hc.state) (hc.state _ _ hs)
      | ending st hq ho hs hsettle hjobs hwaiting =>
        obtain rfl := hjobs j hmem ht
        obtain ⟨j', hj', hrun⟩ := Option.bind_eq_some_iff.mp hstep
        rw [hj] at hj'
        cases hj'
        cases hrun
        refine .ended st hq (ho.grows hc.state) ?_
        show ((h.leave i [] [] []).broadcast q.promise st.broadcast).state q.promise = some st
        have hleft : (h.leave i [] [] []).state q.promise = none := hs
        rw [Heap.broadcast_settles hleft st.broadcast_settled, Heap.settle_state, if_pos rfl]
    | finish i o =>
      obtain ⟨j, hj, ht⟩ := hT
      have hmem := List.mem_of_getElem? hj
      rcases ht with ht | rfl
      · cases hst with
        | polled hq hs hnot => exact absurd (Heap.mem_targets_of_job hmem ht) hnot
        | ended st hq ho hs => exact .ended st hq (ho.grows hc.state) (hc.state _ _ hs)
        | ending st hq ho hs hsettle hjobs hwaiting =>
          obtain rfl := hjobs j hmem ht
          simp only [Heap.step, hj] at hstep
          split at hstep <;> cases hstep
      · exact absurd (.inr (.inr hmem)) hopens
  · exact hst.carries hc hT Iff.rfl

theorem Sound.heap {l : Label V H} (h : s.Sound C) (hstep : Heap.step R s.heap l = some h') :
    ({ s with heap := h' } : Pool V H).Sound C := by
  refine ⟨h.nodup, h.distinct, h.polls, ?_, ?_⟩
  · intro q hq
    obtain ⟨hlt, hopens⟩ := h.owned q hq
    refine ⟨Nat.lt_of_lt_of_le hlt (Heap.step_next hstep), ?_⟩
    intro hin
    exact hopens (hin.step hstep hlt)
  · intro q hq
    obtain ⟨hlt, hopens⟩ := h.owned q hq
    exact (h.status q hq).heap hstep hlt hopens

theorem start_sound : (start : Pool V H).Sound C := by
  refine ⟨List.nodup_nil, ?_, ?_, ?_, ?_⟩
  · intro q hq
    cases hq
  · intro q hq
    cases hq
  · intro q hq
    cases hq
  · intro q hq
    cases hq

theorem Sound.combine (h : s.Sound C) (htidy : s.heap.Tidy) (c : Combinator) (collection : List (Value V)) :
    (s.combine c collection).Sound C := by
  have hne (q : Poll V) (hq : q ∈ s.combined) : q.promise ≠ s.heap.next := Nat.ne_of_lt (h.owned q hq).1
  have hnew : (⟨c, collection, s.heap.next⟩ : Poll V) ∉ s.polls :=
    fun hin => hne _ (h.polls _ hin) rfl
  have hcarries : Heap.Carries (fun _ => False) s.heap (s.combine c collection).heap :=
    .extend rfl (List.append_nil _).symm (List.append_nil _).symm rfl (List.forall_mem_nil _)
      (List.forall_mem_nil _)
  refine ⟨?_, ?_, ?_, ?_, ?_⟩
  · refine List.nodup_append.mpr ⟨h.nodup, List.nodup_singleton _, ?_⟩
    intro q hq q' hq' heq
    rw [heq, List.mem_singleton.mp hq'] at hq
    exact hnew hq
  · intro q hq q' hq' heq
    rcases List.mem_append.mp hq with hq | hq <;> rcases List.mem_append.mp hq' with hq' | hq'
    · exact h.distinct q hq q' hq' heq
    · rw [List.mem_singleton.mp hq'] at heq
      exact absurd heq (hne q hq)
    · rw [List.mem_singleton.mp hq] at heq
      exact absurd heq.symm (hne q' hq')
    · rw [List.mem_singleton.mp hq, List.mem_singleton.mp hq']
  · intro q hq
    rcases List.mem_append.mp hq with hq | hq
    · exact List.mem_append_left _ (h.polls q hq)
    · exact List.mem_append_right _ hq
  · intro q hq
    rcases List.mem_append.mp hq with hq | hq
    · exact ⟨Nat.lt_succ_of_lt (h.owned q hq).1, (h.owned q hq).2⟩
    · rw [List.mem_singleton.mp hq]
      refine ⟨Nat.lt_succ_self _, ?_⟩
      intro hin
      exact absurd (htidy.constructed _ (htidy.executors _ hin)) (Nat.lt_irrefl _)
  · intro q hq
    rcases List.mem_append.mp hq with hq | hq
    · refine (h.status q hq).carries hcarries id ⟨fun hin => List.mem_append_left _ hin, ?_⟩
      intro hin
      rcases List.mem_append.mp hin with hin | hin
      · exact hin
      · rw [List.mem_singleton.mp hin] at hq
        exact absurd rfl (hne _ hq)
    · rw [List.mem_singleton.mp hq]
      refine .polled (List.mem_append_right _ (List.mem_singleton.mpr rfl)) ?_ ?_
      · exact htidy.fresh _ (Nat.le_refl _)
      · exact htidy.not_target (Nat.le_refl _)

-- the promise that a poll decides
theorem decided {b : Broadcast V} (hdecide : q.decide C h.state = some b) (hs : h.state q.promise = none)
    (hnot : q.promise ∉ h.targets) {polls : List (Poll V)} (hq : q ∉ polls) :
    Status C (h.broadcast q.promise b) polls q := by
  have hgrows := (Heap.Carries.broadcast (T := fun _ => True) (s := h) (p := q.promise) trivial b).state
  rcases Poll.decide_sound hdecide with ⟨st, hb, ho⟩ | ⟨r, v, rfl, hr, ho⟩
  · refine .ended st hq (ho.grows hgrows) ?_
    rw [Heap.broadcast_settles hs hb, Heap.settle_state, if_pos rfl]
  · have hne : r ≠ q.promise := by
      rintro rfl
      rw [hs] at hr
      cases hr
    generalize ht : h.broadcast q.promise (.resolve (.promise r)) = t at hgrows ⊢
    have heffect := Heap.broadcast_effect h q.promise (.resolve (.promise r))
    rw [ht] at heffect
    cases heffect with
    | same hsame =>
      rcases hsame with hsome | heq
      · exact absurd hs hsome
      · cases heq
        exact absurd rfl hne
    | settle st hp hb => cases hb
    | adopt r' hp hb hne' hr' =>
      cases hb
      rw [hr] at hr'
      cases hr'
    | follow r' st hp hb hne' hr' =>
      cases hb
      rw [hr] at hr'
      cases hr'
      refine .ending (.resolved v) hq (ho.grows hgrows) hs
        (List.mem_append_right _ (List.mem_singleton.mpr rfl)) ?_ ?_
      · intro j hj ht
        rcases List.mem_append.mp hj with hj | hj
        · exact absurd (Heap.mem_targets_of_job hj ht) hnot
        · exact List.mem_singleton.mp hj
      · intro u hu hq
        rw [← hq] at hnot
        exact hnot (Heap.mem_targets_of_waiting hu)

theorem Status.of_polled {polls : List (Poll V)} (hst : Status C h polls q) (hq : q ∈ polls) :
    h.state q.promise = none ∧ q.promise ∉ h.targets := by
  cases hst with
  | polled _ hs hnot => exact ⟨hs, hnot⟩
  | ending st hnot => exact absurd hq hnot
  | ended st hnot => exact absurd hq hnot

theorem Sound.poll {i : Nat} (h : s.Sound C) (hq : s.polls[i]? = some q) : (s.poll C i q).Sound C := by
  have hin := List.mem_of_getElem? hq
  obtain ⟨hi, rfl⟩ := List.getElem?_eq_some_iff.mp hq
  have hperm := List.getElem_cons_eraseIdx_perm hi
  have hrest : s.polls[i] ∉ s.polls.eraseIdx i := (List.nodup_cons.mp (hperm.nodup_iff.mpr h.nodup)).1
  have hpolls (q : Poll V) (hne : q ≠ s.polls[i]) : q ∈ s.polls ↔ q ∈ s.polls.eraseIdx i := by
    rw [← hperm.mem_iff, List.mem_cons]
    exact or_iff_right hne
  cases hdecide : (s.polls[i]).decide C s.heap.state with
  | none =>
    have hpoll : s.poll C i s.polls[i] = { s with polls := s.polls.eraseIdx i ++ [s.polls[i]] } := by
      simp only [Pool.poll, hdecide]
    have hagain : (s.polls.eraseIdx i ++ [s.polls[i]]).Perm s.polls :=
      (List.perm_append_singleton _ _).trans hperm
    rw [hpoll]
    refine ⟨hagain.nodup_iff.mpr h.nodup, h.distinct, fun q hq => h.polls q (hagain.mem_iff.mp hq),
      h.owned, ?_⟩
    intro q hq
    have hcarries : Heap.Carries (fun _ => False) s.heap s.heap :=
      .extend rfl (List.append_nil _).symm (List.append_nil _).symm rfl (List.forall_mem_nil _)
        (List.forall_mem_nil _)
    exact (h.status q hq).carries hcarries id hagain.mem_iff.symm
  | some b =>
    have hpoll : s.poll C i s.polls[i] =
        { s with
          heap := { s.heap with decisions := s.heap.decisions ++ [((s.polls[i]).promise, b)] }.broadcast
            (s.polls[i]).promise b
          polls := s.polls.eraseIdx i } := by
      simp only [Pool.poll, hdecide]
    obtain ⟨hs, hnot⟩ := (h.status _ (h.polls _ hin)).of_polled hin
    generalize hq : s.polls[i] = q at *
    have hnoted : Heap.Carries (· = q.promise) s.heap
        { s.heap with decisions := s.heap.decisions ++ [(q.promise, b)] } :=
      .extend rfl (List.append_nil _).symm (List.append_nil _).symm rfl (List.forall_mem_nil _)
        (List.forall_mem_nil _)
    have hcarries := hnoted.trans (.broadcast (T := (· = q.promise)) rfl b)
    rw [hpoll]
    refine ⟨h.nodup.sublist (List.eraseIdx_sublist ..), h.distinct,
      fun q hq => h.polls q (List.mem_of_mem_eraseIdx hq), ?_, ?_⟩
    · intro q' hq'
      obtain ⟨hlt, hopens⟩ := h.owned q' hq'
      refine ⟨?_, ?_⟩
      · show q'.promise < (Heap.broadcast _ _ _).next
        rw [(Heap.broadcast_frame _ _ _).next]
        exact hlt
      · intro hin
        exact hopens hin.broadcast
    · intro q' hq'
      by_cases heq : q' = q
      · subst heq
        exact decided (h := { s.heap with decisions := s.heap.decisions ++ [(q'.promise, b)] }) hdecide hs
          hnot hrest
      · refine (h.status q' hq').carries hcarries ?_ (hpolls q' heq)
        intro hsame
        exact heq (h.distinct q' hq' q (h.polls q hin) hsame)

end Pool

end NexusRuntime.Promises
