import NexusRuntime.Globals.PromiseRuns

namespace NexusRuntime.Promises

open Transition

namespace Job
variable {V H : Type} {R : Runtime V} {j : Job V H} {n : Next V H} {o : Completion V} {t : Nat}

theorem start_target (h : j.start = some n) (ht : j.target = some t) :
    (∃ b, j = .settle t b ∧ n = .broadcast t b) ∨
      ∃ j', n = .job j' ∧ j'.target = some t ∧ j'.reaction = j.reaction ∧ ∀ b, j ≠ .settle t b := by
  cases j <;> cases h <;> cases ht
  case settle b => exact .inl ⟨b, rfl, rfl⟩
  case resolve f g v =>
    refine .inr ⟨_, rfl, rfl, rfl, ?_⟩
    intro b hb
    cases hb
  case reject g x =>
    refine .inr ⟨_, rfl, rfl, rfl, ?_⟩
    intro b hb
    cases hb

theorem start_executor (h : j.start = some n) (ht : j.target = none) :
    ∃ p, j = .executor p ∧ n = .job (.executing p) := by
  cases j <;> cases h <;> cases ht
  exact ⟨_, rfl, rfl⟩

theorem start_exposes (h : j.start = some n) (ht : j.target = some t) : j.exposes = [] := by
  cases j <;> cases h <;> cases ht <;> rfl

theorem finish_called (h : j.finish R o = some n) (ht : j.target = some t) :
    (∃ c, j.called o = [c] ∧ c.promise = t ∧ c.completion = o) ∧ j.decides o = [] ∧
      ∀ b, j ≠ .settle t b := by
  have hsettle : ∀ b, j ≠ .settle t b := by
    rintro b rfl
    cases h
  cases j <;> cases ht
  case settle b => cases h
  case resolve f g v => cases h
  case reject g x => cases h
  case resolving f g v => exact ⟨⟨_, rfl, rfl, rfl⟩, rfl, hsettle⟩
  case rejecting g x => exact ⟨⟨_, rfl, rfl, rfl⟩, rfl, hsettle⟩
  case rescuing g e => exact ⟨⟨_, rfl, rfl, rfl⟩, rfl, hsettle⟩

theorem called_reaction {h : H} {st : Settled V} (hn : j.finish R o = some n)
    (hj : j.reaction = some (h, st, t)) : j.called o = [⟨t, h, st.value, o⟩] := by
  cases j <;> cases hj
  case resolve g v => cases hn
  case reject x => cases hn
  case resolving g v => rfl
  case rejecting x => rfl

theorem finish_executing (h : j.finish R o = some n) (ht : j.target = none) :
    ∃ p, j = .executing p ∧ j.called o = [] ∧
      ((n = .nothing ∧ j.decides o = []) ∨ ∃ b, n = .broadcast p b ∧ j.decides o = [(p, b)]) := by
  cases j <;> cases ht
  case executor p => cases h
  case executing p =>
    cases o with
    | returned value =>
      cases h
      exact ⟨p, rfl, rfl, .inl ⟨rfl, rfl⟩⟩
    | threw e =>
      cases h
      exact ⟨p, rfl, rfl, .inr ⟨_, rfl, rfl⟩⟩

theorem rescue_target (g : Option H) (p : Nat) (e : Value V) :
    (∃ b, rescue g p e = .broadcast p b) ∨ ∃ j : Job V H, rescue g p e = .job j ∧ j.target = some p := by
  cases g with
  | none => exact .inl ⟨_, rfl⟩
  | some g => exact .inr ⟨_, rfl, rfl⟩

theorem finish_target (h : j.finish R o = some n) (ht : j.target = some t) :
    (∃ b, n = .broadcast t b) ∨ (∃ j' : Job V H, n = .job j' ∧ j'.target = some t) ∨ n = .nothing := by
  have hrescue (g : Option H) (e : Value V) (hn : n = rescue g t e) :
      (∃ b, n = .broadcast t b) ∨ (∃ j' : Job V H, n = .job j' ∧ j'.target = some t) ∨ n = .nothing := by
    rw [hn]
    rcases rescue_target g t e with h | h
    · exact .inl h
    · exact .inr (.inl h)
  cases j <;> cases ht
  case settle b => cases h
  case resolve f g v => cases h
  case reject g x => cases h
  case resolving f g v =>
    cases o with
    | threw e => exact hrescue g e (Option.some.inj h).symm
    | returned value =>
      cases hself : value.isPromise t with
      | true =>
        simp only [finish, hself, if_true] at h
        exact hrescue g _ (Option.some.inj h).symm
      | false =>
        simp only [finish, hself, Bool.false_eq_true, if_false] at h
        exact .inl ⟨_, (Option.some.inj h).symm⟩
  case rejecting g x =>
    cases o with
    | returned value => exact .inl ⟨_, (Option.some.inj h).symm⟩
    | threw e =>
      cases hassign : R.canAssign e with
      | true =>
        simp only [finish, hassign, if_true] at h
        exact .inl ⟨_, (Option.some.inj h).symm⟩
      | false =>
        simp only [finish, hassign, Bool.false_eq_true, if_false] at h
        exact .inr (.inr (Option.some.inj h).symm)
  case rescuing g e =>
    cases o with
    | threw e => exact .inr (.inr (Option.some.inj h).symm)
    | returned value =>
      cases hself : value.isPromise t with
      | true =>
        simp only [finish, hself, if_true] at h
        exact .inr (.inr (Option.some.inj h).symm)
      | false =>
        simp only [finish, hself, Bool.false_eq_true, if_false] at h
        exact .inl ⟨_, (Option.some.inj h).symm⟩

-- a handler that does not run into a promise or a defect settles its promise at once
theorem finish_plain {h : H} {st : Settled V} (hn : j.finish R o = some n)
    (hj : j.reaction = some (h, st, t)) (htame : Heap.Tame R o j) (ho : o.isPlain = true) :
    ∃ b st', n = .broadcast t b ∧ b.settled = some st' ∧ o.settled = some st' := by
  cases j <;> cases hj
  case resolve g v => cases hn
  case reject x => cases hn
  case resolving g v =>
    rcases o with (w | p) | (e | p)
    · cases hn
      exact ⟨_, _, rfl, rfl, rfl⟩
    · cases ho
    · cases g with
      | some g => exact absurd rfl (htame e)
      | none =>
        cases hn
        exact ⟨_, _, rfl, rfl, rfl⟩
    · cases ho
  case rejecting x =>
    rcases o with (w | p) | (e | p)
    · cases hn
      exact ⟨_, _, rfl, rfl, rfl⟩
    · cases ho
    · have hassign : R.canAssign (.plain e) = true := htame e rfl
      simp only [finish, hassign, if_true] at hn
      cases hn
      exact ⟨_, _, rfl, rfl, rfl⟩
    · cases ho

end Job

namespace Heap
variable {V H : Type} {s s' : Heap V H} {p : Nat} {ms ms' : List (Nat × Nat)} {R : Runtime V}

def Fixed (ms : List (Nat × Nat)) (s : Heap V H) (p : Nat) (b : Broadcast V) : Prop :=
  (∀ st, b.settled = some st → s.state p = some st) ∧
    ∀ r, b = .resolve (.promise r) → r = p ∨ (p, r) ∈ ms

-- `ms`: the promises that are to become what another one becomes
structure Inv (ms : List (Nat × Nat)) (s : Heap V H) : Prop where
  sound : s.Sound
  mirrored : ∀ p r, (p, r) ∈ ms → s.Mirror p r
  decided : ∀ p r, (p, r) ∈ ms → p < s.next ∧ (p ∈ s.constructed → ¬s.Undecided p)
  staged : ∀ d ∈ s.derived, s.Stage ms d
  fixed : ∀ p b, s.first p = some b → s.Fixed ms p b

theorem Fixed.grows {t : Option Nat} {b : Broadcast V} (h : s.Fixed ms p b) (hgrows : Grows t s s')
    (hms : ∀ m ∈ ms, m ∈ ms') : s'.Fixed ms' p b := by
  refine ⟨fun st hb => hgrows.state p st (h.1 st hb), ?_⟩
  intro r hb
  rcases h.2 r hb with rfl | hm
  · exact .inl rfl
  · exact .inr (hms _ hm)

theorem Fixed.promise {r : Nat} (h : r = p ∨ (p, r) ∈ ms) : s.Fixed ms p (.resolve (.promise r)) := by
  constructor
  · intro st hb
    cases hb
  · rintro r' ⟨⟩
    exact h

theorem Inv.fulfilled (h : s.Inv ms) (hjobs : s.jobs = []) {d : Derived H} (hd : d ∈ s.derived) :
    s.Fulfilled d := by
  have hnone {j : Job V H} (hj : j ∈ s.jobs) : False := by
    rw [hjobs] at hj
    cases hj
  intro st hst
  cases h.staged d hd with
  | waiting hw hc =>
    rw [(mem_waiting.mp hw).2] at hst
    cases hst
  | late r f v hw hr hs hf hc =>
    have hpending : s.state r = none := (mem_waiting.mp hw).2
    cases h.mirrored r d.source hr with
    | same st' hp hr =>
      rw [hpending] at hp
      cases hp
    | waiting hw =>
      rw [(mem_waiting.mp hw).2] at hs
      cases hs
    | settle st' hj hr => exact (hnone hj).elim
  | called j h st' hj hr hs hh hc => exact (hnone hj).elim
  | passed st' hj hs hh => exact (hnone hj).elim
  | done st' hs hq h =>
    rw [hst] at hs
    cases hs
    exact h
  | exempt st' h c hs hh hc hp =>
    rw [hst] at hs
    cases hs
    simp only [Takes, hh]
    intro hplain
    rw [hplain c hc] at hp
    cases hp

theorem Inv.follows (h : s.Inv ms) {b : Broadcast V} (hb : s.first p = some b) : s.Follows p b := by
  obtain ⟨hsettled, hpromise⟩ := h.fixed p b hb
  refine ⟨hsettled, ?_⟩
  intro r hr
  rcases hpromise r hr with rfl | hm
  · exact ⟨.inr rfl, fun _ => rfl⟩
  · have hpending (hin : p ∈ s.targets) : s.state p = none := (h.sound.pending p hin).1
    cases h.mirrored p r hm with
    | same st hp hr =>
      rw [hp, hr]
      exact ⟨.inr rfl, fun _ => rfl⟩
    | waiting hw =>
      have hp := hpending (mem_targets_of_waiting hw)
      have hr : s.state r = none := (mem_waiting.mp hw).2
      rw [hp, hr]
      exact ⟨.inl rfl, fun _ => rfl⟩
    | settle st hj hr =>
      refine ⟨.inl (hpending (mem_targets_of_job hj rfl)), ?_⟩
      intro hjobs
      rw [hjobs] at hj
      cases hj

theorem Inv.kept (h : s.Inv ms) : s.Kept :=
  ⟨fun hjobs _ hd => h.fulfilled hjobs hd, fun _ _ hb => h.follows hb⟩

theorem start_inv : (start : Heap V H).Inv [] := by
  refine ⟨⟨List.nodup_nil, ?_, fun _ _ => rfl, ?_, ?_, ?_, ?_, ?_⟩, ?_, ?_, ?_, ?_⟩
  · intro q hq
    cases hq
  · intro u hu
    cases hu
  · rintro q (hq | hq | hq) <;> cases hq
  · intro q hq
    cases hq
  · intro d hd
    cases hd
  · intro c hc
    cases hc
  · intro p r hm
    cases hm
  · intro p r hm
    cases hm
  · intro d hd
    cases hd
  · intro p b hb
    cases hb

-- a step that leaves the promise of one task behind keeps what all the others wait for
theorem Inv.grows {t : Option Nat} (h : s.Inv ms) (hgrows : Grows t s s') (hsound : s'.Sound)
    (hms : ∀ m ∈ ms, m ∈ ms') (hmirror : ∀ p r, (p, r) ∈ ms' → s'.Mirror p r ∨ ((p, r) ∈ ms ∧ some p ≠ t))
    (hdecided : ∀ p r, (p, r) ∈ ms' → p < s'.next ∧ (p ∈ s'.constructed → ¬s'.Undecided p))
    (hstage : ∀ d ∈ s'.derived, s'.Stage ms' d ∨ (d ∈ s.derived ∧ some d.promise ≠ t))
    (hfixed : ∀ p b, s'.first p = some b → s'.Fixed ms' p b ∨ s.first p = some b) : s'.Inv ms' := by
  have hmirrored (p r : Nat) (hm : (p, r) ∈ ms') : s'.Mirror p r := by
    rcases hmirror p r hm with h' | ⟨hm, hne⟩
    · exact h'
    · exact (h.mirrored p r hm).grows hne hgrows
  refine ⟨hsound, hmirrored, hdecided, ?_, ?_⟩
  · intro d hd
    rcases hstage d hd with h' | ⟨hd, hne⟩
    · exact h'
    · exact (h.staged d hd).grows hne hgrows hsound hms fun r hr => hmirrored r d.source (hms _ hr)
  · intro p b hb
    rcases hfixed p b hb with h' | hb
    · exact h'
    · exact (h.fixed p b hb).grows hgrows hms

-- a broadcast touches neither the logs nor what was made
structure Frame (s s' : Heap V H) : Prop where
  next : s'.next = s.next
  exposed : s'.exposed = s.exposed
  constructed : s'.constructed = s.constructed
  derived : s'.derived = s.derived
  calls : s'.calls = s.calls
  decisions : s'.decisions = s.decisions

theorem broadcast_frame (s : Heap V H) (p : Nat) (b : Broadcast V) : Frame s (s.broadcast p b) := by
  generalize ht : s.broadcast p b = t
  have heffect := broadcast_effect s p b
  rw [ht] at heffect
  cases heffect with
  | same => exact ⟨rfl, rfl, rfl, rfl, rfl, rfl⟩
  | settle st hp hb => exact ⟨rfl, rfl, rfl, rfl, rfl, rfl⟩
  | follow r st hp hb hne hr => exact ⟨rfl, rfl, rfl, rfl, rfl, rfl⟩
  | adopt r hp hb hne hr => exact ⟨rfl, rfl, rfl, rfl, rfl, rfl⟩

theorem proceed_frame (s : Heap V H) (n : Next V H) : Frame s (s.proceed n) := by
  cases n with
  | broadcast p b => exact broadcast_frame s p b
  | job j => exact ⟨rfl, rfl, rfl, rfl, rfl, rfl⟩
  | nothing => exact ⟨rfl, rfl, rfl, rfl, rfl, rfl⟩

theorem broadcast_settles {b : Broadcast V} {st : Settled V} (hp : s.state p = none)
    (hb : b.settled = some st) : s.broadcast p b = s.settle p st := by
  generalize ht : s.broadcast p b = t
  have heffect := broadcast_effect s p b
  rw [ht] at heffect
  cases heffect with
  | same h =>
    rcases h with h | rfl
    · exact absurd hp h
    · cases hb
  | settle st' hp hb' =>
    rw [hb] at hb'
    cases hb'
    rfl
  | follow r st' hp hb' =>
    rw [hb'] at hb
    cases hb
  | adopt r hp hb' =>
    rw [hb'] at hb
    cases hb

-- the ways a task goes on that is to settle t
inductive Serves (s : Heap V H) (t : Nat) : Next V H → Prop
  | broadcast (b : Broadcast V) (h : s.Timely t b) : Serves s t (.broadcast t b)
  | job (j : Job V H) (h : j.target = some t) : Serves s t (.job j)
  | nothing : Serves s t .nothing

section Task
variable {i t : Nat} {j : Job V H} {cs : List (Call V H)} {n : Next V H}

theorem task_sound (h : s.Sound) (hj : s.jobs[i]? = some j) (ht : j.target = some t)
    (hcs : ∀ c ∈ cs, c.promise = t) (hn : s.Serves t n) :
    ((s.leave i [] cs []).proceed n).Sound ∧ Grows (some t) s ((s.leave i [] cs []).proceed n) := by
  obtain ⟨hpending, hlt⟩ := h.pending t (mem_targets_of_job (List.mem_of_getElem? hj) ht)
  have hleft : (s.leave i [] cs []).Sound := by
    refine h.leave (List.forall_mem_nil _) ?_
    intro c hc
    rw [hcs c hc]
    exact hlt
  have hfree : (s.leave i [] cs []).Free t := h.leave_free hj ht
  have hgrows : Grows (some t) s (s.leave i [] cs []) := by
    rw [← ht]
    refine .leave hj ?_
    intro c hc
    rw [hcs c hc, ht]
  cases hn with
  | broadcast b htimely =>
    exact ⟨hleft.broadcast hlt hfree b, hgrows.trans (Grows.broadcast hleft htimely)⟩
  | job j' ht' => exact ⟨hleft.schedule ht' hfree ⟨hpending, hlt⟩, hgrows.trans (Grows.schedule _ _)⟩
  | nothing => exact ⟨hleft, hgrows⟩

theorem Inv.task (h : s.Inv ms) (hj : s.jobs[i]? = some j) (ht : j.target = some t)
    (hcs : ∀ c ∈ cs, c.promise = t) (hn : s.Serves t n)
    (hsettle : ∀ st : Settled V, j = .settle t st.broadcast →
      ((s.leave i [] cs []).proceed n).state t = some st)
    (hcalled : ∀ d ∈ s.derived, d.promise = t → ∀ h st, j.reaction = some (h, st, t) →
      d.handler st = some h → s.callsFor t = [] →
      ((s.leave i [] cs []).proceed n).state d.source = some st →
      ((s.leave i [] cs []).proceed n).Stage ms d) :
    ((s.leave i [] cs []).proceed n).Inv ms := by
  obtain ⟨hsound, hgrows⟩ := task_sound h.sound hj ht hcs hn
  have hframe := proceed_frame (s.leave i [] cs []) n
  have hfirst (q : Nat) : ((s.leave i [] cs []).proceed n).first q = s.first q := by
    rw [first, hframe.decisions]
    show ((s.decisions ++ []).find? _).map _ = _
    rw [List.append_nil, first]
  have hkept {q : Nat} {c : Call V H} (hc : c ∈ s.callsFor q) :
      c ∈ ((s.leave i [] cs []).proceed n).callsFor q := by
    rw [callsFor, hframe.calls]
    exact List.mem_filter.mpr ⟨List.mem_append_left _ (List.mem_filter.mp hc).1, (List.mem_filter.mp hc).2⟩
  refine h.grows hgrows hsound (fun _ hm => hm) ?_ ?_ ?_ ?_
  · intro p r hm
    by_cases hp : p = t
    · subst hp
      obtain ⟨st, hb, hr⟩ := (h.mirrored p r hm).of_job h.sound hj ht
      exact .inl (.same st (hsettle st hb) (hgrows.state r st hr))
    · exact .inr ⟨hm, fun heq => hp (Option.some.inj heq)⟩
  · intro p r hm
    rw [hframe.next, hframe.constructed, Undecided, hfirst]
    exact h.decided p r hm
  · intro d hd
    rw [hframe.derived] at hd
    by_cases hp : d.promise = t
    · refine .inl ?_
      subst hp
      obtain ⟨st, hs, hstage⟩ := (h.staged d hd).of_job h.sound hj ht
      have hs' := hgrows.state _ _ hs
      rcases hstage with ⟨f, hr, hh, hc⟩ | ⟨hb, hh⟩ | ⟨f, c, hh, hc, hplain⟩
      · exact hcalled d hd rfl f st hr hh hc hs'
      · have hq := hsettle st hb
        refine .done st hs' ?_ ?_
        · rw [hq]
          exact Option.some_ne_none st
        · simp only [Takes, hh]
          exact hq
      · exact .exempt st f c hs' hh (hkept hc) hplain
    · exact .inr ⟨hd, fun heq => hp (Option.some.inj heq)⟩
  · intro p b hb
    rw [hfirst] at hb
    exact .inr hb

-- the task of a notification, or of what stands for it, before it calls anything
theorem Inv.run_task (h : s.Inv ms) (hj : s.jobs[i]? = some j) (ht : j.target = some t)
    (hn : j.start = some n) (htimely : ∀ b, n = .broadcast t b → s.Timely t b) :
    ((s.leave i [] [] []).proceed n).Inv ms := by
  have hpending := (h.sound.pending t (mem_targets_of_job (List.mem_of_getElem? hj) ht)).1
  rcases Job.start_target hn ht with ⟨b, rfl, rfl⟩ | ⟨j', rfl, ht', hr, hne⟩
  · refine h.task hj ht (List.forall_mem_nil _) (.broadcast b (htimely b rfl)) ?_ ?_
    · intro st hb
      cases hb
      show ((s.leave i [] [] []).broadcast t st.broadcast).state t = some st
      have hleft : (s.leave i [] [] []).state t = none := hpending
      rw [broadcast_settles hleft st.broadcast_settled, settle_state, if_pos rfl]
    · intro d hd hp f st hr
      cases hr
  · refine h.task hj ht (List.forall_mem_nil _) (.job j' ht') ?_ ?_
    · intro st hb
      exact absurd hb (hne _)
    · intro d hd hp f st hreaction hh hc hs
      subst hp
      have hnone : ((s.leave i [] [] []).proceed (.job j')).callsFor d.promise = [] := by
        show (s.calls ++ []).filter _ = []
        rw [List.append_nil]
        exact hc
      exact .called j' f st (List.mem_append_right _ (List.mem_singleton.mpr rfl)) (hr.trans hreaction)
        hs hh hnone

theorem Inv.finish_task (h : s.Inv ms) {o : Completion V} (hj : s.jobs[i]? = some j)
    (ht : j.target = some t) (hn : j.finish R o = some n) (htame : Tame R o j)
    (htimely : ∀ b, n = .broadcast t b → s.Timely t b) :
    ((s.leave i [] (j.called o) (j.decides o)).proceed n).Inv ms := by
  have hpending := (h.sound.pending t (mem_targets_of_job (List.mem_of_getElem? hj) ht)).1
  obtain ⟨⟨c, hcalled, hc, ho⟩, hdecides, hne⟩ := Job.finish_called hn ht
  rw [hcalled, hdecides]
  have hcs : ∀ c' ∈ [c], c'.promise = t := List.forall_mem_singleton.mpr hc
  have hnext : s.Serves t n := by
    rcases Job.finish_target hn ht with ⟨b, rfl⟩ | ⟨j', rfl, ht'⟩ | rfl
    · exact .broadcast b (htimely b rfl)
    · exact .job j' ht'
    · exact .nothing
  refine h.task hj ht hcs hnext (fun st hb => absurd hb (hne _)) ?_
  intro d hd hp f st hr hh hnone hs
  have hcall := Job.called_reaction hn hr
  rw [hcalled] at hcall
  obtain rfl : c = ⟨t, f, st.value, o⟩ := List.singleton_inj.mp hcall
  have hcalls : ((s.leave i [] [⟨t, f, st.value, o⟩] []).proceed n).callsFor t = [⟨t, f, st.value, o⟩] := by
    have hself : List.filter (fun c : Call V H => c.promise == t) [⟨t, f, st.value, o⟩] =
        [⟨t, f, st.value, o⟩] :=
      List.filter_eq_self.mpr (List.forall_mem_singleton.mpr (beq_self_eq_true t))
    rw [callsFor, (proceed_frame _ n).calls]
    show (s.calls ++ [_]).filter _ = _
    rw [List.filter_append, hself]
    exact congrArg (· ++ _) hnone
  subst hp
  cases hplain : o.isPlain with
  | false =>
    refine .exempt st f ⟨d.promise, f, st.value, o⟩ hs hh ?_ hplain
    rw [hcalls]
    exact List.mem_singleton.mpr rfl
  | true =>
    obtain ⟨b, st', rfl, hb, hsettled⟩ := Job.finish_plain hn hr htame hplain
    have hq : ((s.leave i [] [⟨d.promise, f, st.value, o⟩] []).proceed (.broadcast d.promise b)).state
        d.promise = some st' := by
      show ((s.leave i [] [⟨d.promise, f, st.value, o⟩] []).broadcast d.promise b).state d.promise = _
      have hleft : (s.leave i [] [⟨d.promise, f, st.value, o⟩] []).state d.promise = none := hpending
      rw [broadcast_settles hleft hb, settle_state, if_pos rfl]
    refine .done st hs ?_ ?_
    · rw [hq]
      exact Option.some_ne_none st'
    · simp only [Takes, hh]
      intro _
      exact ⟨o, hcalls, by rw [hq, hsettled]⟩

end Task

section Decide
variable {t : Heap V H} {b : Broadcast V}

-- t is s with the call of a resolve or reject function noted
structure Notes (s t : Heap V H) (p : Nat) (b : Broadcast V) : Prop where
  sound : t.Sound
  grows : Grows none s t
  targets : ∀ q ∈ t.targets, q ∈ s.targets
  state : t.state = s.state
  next : t.next = s.next
  constructed : t.constructed = s.constructed
  derived : t.derived = s.derived
  decisions : t.decisions = s.decisions ++ [(p, b)]

theorem Notes.first (h : Notes s t p b) (q : Nat) :
    t.first q = (s.first q).or (if q = p then some b else none) := by
  rw [first_append h.decisions]
  by_cases hq : q = p
  · subst hq
    simp only [List.find?_cons, beq_self_eq_true, Option.map_some, if_true]
  · have hne : (p == q) = false := beq_eq_false_iff_ne.mpr fun heq => hq heq.symm
    simp only [List.find?_cons, hne, List.find?_nil, Option.map_none, hq, if_false]

theorem Notes.free (h : Notes s t p b) (hinv : s.Inv ms) (hp : p ∈ s.constructed)
    (hundecided : s.state p = none → s.Undecided p) : t.Free p := by
  intro hstate
  rw [h.state] at hstate
  refine ⟨fun hin => ((hinv.sound.constructed p hp).2 (hundecided hstate)).2 (h.targets p hin), ?_⟩
  intro _ hnone
  rw [Undecided, h.first, if_pos rfl, Option.or_eq_none_iff] at hnone
  cases hnone.2

theorem Notes.inv (h : Notes s t p b) (hinv : s.Inv ms) (hp : p ∈ s.constructed)
    (hundecided : s.state p = none → s.Undecided p) (htimely : t.Timely p b)
    (hms : ∀ m ∈ ms, m ∈ ms')
    (hmirror : ∀ q r, (q, r) ∈ ms' → (q, r) ∈ ms ∨ (q = p ∧ (t.broadcast p b).Mirror q r))
    (hfixed : s.state p = none → (t.broadcast p b).Fixed ms' p b) : (t.broadcast p b).Inv ms' := by
  have hlt : p < t.next := by
    rw [h.next]
    exact (hinv.sound.constructed p hp).1
  have hframe := broadcast_frame t p b
  have hfirst (q : Nat) : (t.broadcast p b).first q = (s.first q).or (if q = p then some b else none) := by
    rw [← h.first, Heap.first, hframe.decisions, Heap.first]
  refine hinv.grows (h.grows.trans (Grows.broadcast h.sound htimely))
    (h.sound.broadcast hlt (h.free hinv hp hundecided) b) hms ?_ ?_ ?_ ?_
  · intro q r hm
    rcases hmirror q r hm with hm | ⟨-, hm⟩
    · exact .inr ⟨hm, Option.some_ne_none q⟩
    · exact .inl hm
  · intro q r hm
    rw [hframe.next, hframe.constructed, h.next, h.constructed, Undecided, hfirst, Option.or_eq_none_iff]
    rcases hmirror q r hm with hm | ⟨rfl, -⟩
    · obtain ⟨hq, hdecided⟩ := hinv.decided q r hm
      exact ⟨hq, fun hin hnone => hdecided hin hnone.1⟩
    · refine ⟨(hinv.sound.constructed q hp).1, ?_⟩
      rintro - ⟨-, hnone⟩
      rw [if_pos rfl] at hnone
      cases hnone
  · intro d hd
    rw [hframe.derived, h.derived] at hd
    exact .inr ⟨hd, Option.some_ne_none _⟩
  · intro q c hc
    rw [hfirst] at hc
    cases hs : s.first q with
    | some c' =>
      rw [hs, Option.some_or] at hc
      exact .inr hc
    | none =>
      rw [hs, Option.none_or] at hc
      by_cases hq : q = p
      · subst hq
        rw [if_pos rfl] at hc
        cases hc
        exact .inl (hfixed ((hinv.sound.constructed q hp).2 hs).1)
      · rw [if_neg hq] at hc
        cases hc

theorem Notes.decide (h : Notes s t p b) (hinv : s.Inv ms) (hp : p ∈ s.constructed)
    (hundecided : s.state p = none → s.Undecided p) (htimely : t.Timely p b) :
    ∃ ms', (t.broadcast p b).Inv ms' := by
  have hinvs (ms' : List (Nat × Nat)) (hms : ∀ m ∈ ms, m ∈ ms')
      (hmirror : ∀ q r, (q, r) ∈ ms' → (q, r) ∈ ms ∨ (q = p ∧ (t.broadcast p b).Mirror q r))
      (hfixed : s.state p = none → (t.broadcast p b).Fixed ms' p b) : (t.broadcast p b).Inv ms' :=
    h.inv hinv hp hundecided htimely hms hmirror hfixed
  generalize ht : t.broadcast p b = t' at hinvs ⊢
  have hextend (r : Nat) (hb : b = .resolve (.promise r)) (hm : t'.Mirror p r) :
      ∃ ms', t'.Inv ms' := by
    subst hb
    refine ⟨(p, r) :: ms, hinvs _ (fun _ hm => List.mem_cons_of_mem _ hm) ?_ ?_⟩
    · intro q r' hq
      rcases List.mem_cons.mp hq with heq | hq
      · cases heq
        exact .inr ⟨rfl, hm⟩
      · exact .inl hq
    · intro _
      exact .promise (.inr (List.mem_cons_self ..))
  have heffect := broadcast_effect t p b
  rw [ht] at heffect
  cases heffect with
  | same hsame =>
    refine ⟨ms, hinvs ms (fun _ hm => hm) (fun _ _ hm => .inl hm) ?_⟩
    intro hpending
    rcases hsame with hne | rfl
    · rw [h.state] at hne
      exact absurd hpending hne
    · exact .promise (.inl rfl)
  | settle st hpending hb =>
    refine ⟨ms, hinvs ms (fun _ hm => hm) (fun _ _ hm => .inl hm) ?_⟩
    intro _
    refine ⟨?_, ?_⟩
    · intro st' hb'
      rw [hb] at hb'
      cases hb'
      rw [settle_state, if_pos rfl]
    · rintro r rfl
      cases hb
  | follow r st hpending hb hne hr =>
    exact hextend r hb (.settle st (List.mem_append_right _ (List.mem_singleton.mpr rfl)) hr)
  | adopt r hpending hb hne hr =>
    refine hextend r hb (.waiting (mem_waiting.mpr ⟨?_, hr⟩))
    exact List.mem_append_right _ (List.mem_singleton.mpr rfl)

end Decide

section Allocate

theorem Sound.no_calls (h : s.Sound) {q : Nat} (hq : s.next ≤ q) : s.callsFor q = [] := by
  refine List.filter_eq_nil_iff.mpr ?_
  intro c hc heq
  have := h.calls c hc
  rw [beq_iff_eq.mp heq] at this
  omega

theorem Sound.allocate (h : s.Sound) : ({ s with next := s.next + 1 } : Heap V H).Sound := by
  refine ⟨h.nodup, ?_, ?_, h.handled, h.executors, ?_, ?_, ?_⟩
  · intro q hq
    obtain ⟨hstate, hlt⟩ := h.pending q hq
    exact ⟨hstate, Nat.lt_succ_of_lt hlt⟩
  · intro q hq
    exact h.fresh q (Nat.le_of_succ_le hq)
  · intro q hq
    obtain ⟨hlt, hundecided⟩ := h.constructed q hq
    exact ⟨Nat.lt_succ_of_lt hlt, hundecided⟩
  · intro d hd
    obtain ⟨hlt, hnot⟩ := h.derived d hd
    exact ⟨Nat.lt_succ_of_lt hlt, hnot⟩
  · intro c hc
    exact Nat.lt_succ_of_lt (h.calls c hc)

theorem Sound.next_free (h : s.Sound) {q : Nat} (hq : s.next ≤ q) :
    q ∉ s.targets ∧ q ∉ s.constructed := by
  constructor
  · intro hin
    exact absurd (h.pending q hin).2 (Nat.not_lt_of_le hq)
  · intro hin
    exact absurd (h.constructed q hin).1 (Nat.not_lt_of_le hq)

theorem Sound.allocate_free (h : s.Sound) : ({ s with next := s.next + 1 } : Heap V H).Free s.next := by
  obtain ⟨htargets, hconstructed⟩ := h.next_free (Nat.le_refl s.next)
  exact fun _ => ⟨htargets, fun hin => absurd hin hconstructed⟩

theorem Sound.constructSettled (h : s.Sound) (b : Broadcast V) : (s.constructSettled b).Sound := by
  exact h.allocate.schedule rfl h.allocate_free ⟨h.fresh _ (Nat.le_refl _), Nat.lt_succ_self _⟩

theorem Sound.subscribe (h : s.Sound) {q : Nat} {f g : Option H} (hq : s.state q = none)
    (hfg : f.isSome = true ∨ g.isSome = true) : (s.subscribe q f g).Sound := by
  exact h.allocate.adopt hq hfg h.allocate_free ⟨h.fresh _ (Nat.le_refl _), Nat.lt_succ_self _⟩

theorem Sound.derive (h : s.Sound) {d : Derived H} (hlt : d.promise < s.next)
    (hnot : d.promise ∉ s.constructed) :
    ({ s with derived := s.derived ++ [d] } : Heap V H).Sound := by
  refine ⟨h.nodup, h.pending, h.fresh, h.handled, h.executors, h.constructed, ?_, h.calls⟩
  intro d' hd
  rcases List.mem_append.mp hd with hd | hd
  · exact h.derived d' hd
  · rw [List.mem_singleton.mp hd]
    exact ⟨hlt, hnot⟩

theorem Sound.construct (h : s.Sound) : s.construct.Sound := by
  have htargets : s.construct.targets = s.targets :=
    (schedule_targets _ [Job.executor s.next]).trans (List.append_nil _)
  have hnext := h.next_free (Nat.le_refl s.next)
  refine ⟨?_, ?_, ?_, h.handled, ?_, ?_, ?_, ?_⟩
  · rw [htargets]
    exact h.nodup
  · intro q hq
    rw [htargets] at hq
    exact h.allocate.pending q hq
  · exact h.allocate.fresh
  · intro q hq
    refine List.mem_append.mpr ?_
    have hscheduled : q ∈ s.constructed ∨ .executor q ∈ [Job.executor (V := V) (H := H) s.next] ∨
        .executing q ∈ [Job.executor (V := V) (H := H) s.next] := h.executors_schedule hq
    rcases hscheduled with hq | hq | hq
    · exact .inl hq
    · cases List.mem_singleton.mp hq
      exact .inr (List.mem_singleton.mpr rfl)
    · cases List.mem_singleton.mp hq
  · intro q hq
    rw [htargets]
    rcases List.mem_append.mp hq with hq | hq
    · exact h.allocate.constructed q hq
    · rw [List.mem_singleton.mp hq]
      exact ⟨Nat.lt_succ_self _, fun _ => ⟨h.fresh _ (Nat.le_refl _), hnext.1⟩⟩
  · intro d hd
    obtain ⟨hlt, hnot⟩ := h.derived d hd
    refine ⟨Nat.lt_succ_of_lt hlt, ?_⟩
    intro hin
    rcases List.mem_append.mp hin with hin | hin
    · exact hnot hin
    · exact absurd (List.mem_singleton.mp hin) (Nat.ne_of_lt hlt)
  · exact h.allocate.calls

-- a step that only adds, and decides nothing
theorem Inv.added (h : s.Inv ms) (hgrows : Grows none s s') (hsound : s'.Sound)
    (hms : ∀ m ∈ ms, m ∈ ms') (hnext : s.next ≤ s'.next)
    (hconstructed : ∀ q ∈ s'.constructed, q < s.next → q ∈ s.constructed)
    (hdecisions : s'.decisions = s.decisions)
    (hmirror : ∀ p r, (p, r) ∈ ms' →
      (p, r) ∈ ms ∨ (s'.Mirror p r ∧ p < s'.next ∧ p ∉ s'.constructed))
    (hstage : ∀ d ∈ s'.derived, d ∈ s.derived ∨ s'.Stage ms' d) : s'.Inv ms' := by
  have hfirst (q : Nat) : s'.first q = s.first q := by
    rw [first, hdecisions, first]
  refine h.grows hgrows hsound hms ?_ ?_ ?_ ?_
  · intro p r hm
    rcases hmirror p r hm with hm | ⟨hm, -⟩
    · exact .inr ⟨hm, Option.some_ne_none p⟩
    · exact .inl hm
  · intro p r hm
    rw [Undecided, hfirst]
    rcases hmirror p r hm with hm | ⟨-, hlt, hnot⟩
    · obtain ⟨hlt, hdecided⟩ := h.decided p r hm
      exact ⟨Nat.lt_of_lt_of_le hlt hnext, fun hin => hdecided (hconstructed p hin hlt)⟩
    · exact ⟨hlt, fun hin => absurd hin hnot⟩
  · intro d hd
    rcases hstage d hd with hd | hd
    · exact .inr ⟨hd, Option.some_ne_none _⟩
    · exact .inl hd
  · intro p b hb
    rw [hfirst] at hb
    exact .inr hb

theorem Inv.construct (h : s.Inv ms) : s.construct.Inv ms := by
  refine h.added (.append rfl (fun _ hj => List.mem_append_left _ hj) (fun _ hu => hu) rfl)
    h.sound.construct (fun _ hm => hm) (Nat.le_succ _) ?_ rfl (fun _ _ hm => .inl hm) (fun _ hd => .inl hd)
  intro q hq hlt
  rcases List.mem_append.mp hq with hq | hq
  · exact hq
  · exact absurd (List.mem_singleton.mp hq) (Nat.ne_of_lt hlt)

theorem Inv.then_pending (h : s.Inv ms) {f g : Option H} (hp : s.state p = none)
    (hfg : f.isSome = true ∨ g.isSome = true) :
    ({ s.subscribe p f g with
        derived := s.derived ++ [⟨p, f, g, s.next⟩] } : Heap V H).Inv ms := by
  have hnext := h.sound.next_free (Nat.le_refl s.next)
  have hsound : ({ s.subscribe p f g with
      derived := s.derived ++ [⟨p, f, g, s.next⟩] } : Heap V H).Sound :=
    (h.sound.subscribe hp hfg).derive (Nat.lt_succ_self _) hnext.2
  refine h.added (.append rfl (fun _ hj => hj) (fun _ hu => List.mem_append_left _ hu) rfl) hsound
    (fun _ hm => hm) (Nat.le_succ _) (fun _ hq _ => hq) rfl (fun _ _ hm => .inl hm) ?_
  intro d hd
  rcases List.mem_append.mp hd with hd | hd
  · exact .inl hd
  · cases List.mem_singleton.mp hd
    refine .inr (.waiting (mem_waiting.mpr ⟨List.mem_append_right _ (List.mem_singleton.mpr rfl), hp⟩) ?_)
    exact h.sound.no_calls (Nat.le_refl _)

theorem Inv.then_resolved (h : s.Inv ms) {f : H} {g : Option H} {v : V}
    (hp : s.state p = some (.resolved v)) :
    ({ (s.constructSettled (.resolve (.plain v))).subscribe s.next (some f) none with
        derived := s.derived ++ [⟨p, some f, g, s.next + 1⟩] } : Heap V H).Inv ((s.next, p) :: ms) := by
  have hnext := h.sound.next_free (Nat.le_refl s.next)
  have hpending : s.state s.next = none := h.sound.fresh _ (Nat.le_refl _)
  have hsound : ({ (s.constructSettled (.resolve (.plain v))).subscribe s.next (some f) none with
      derived := s.derived ++ [⟨p, some f, g, s.next + 1⟩] } : Heap V H).Sound :=
    ((h.sound.constructSettled _).subscribe hpending (.inl rfl)).derive (Nat.lt_succ_self _)
      (h.sound.next_free (Nat.le_succ _)).2
  refine h.added (.append rfl (fun _ hj => List.mem_append_left _ hj)
    (fun _ hu => List.mem_append_left _ hu) rfl) hsound (fun _ hm => List.mem_cons_of_mem _ hm)
    (Nat.le_add_right _ 2) (fun _ hq _ => hq) rfl ?_ ?_
  · intro q r hm
    rcases List.mem_cons.mp hm with heq | hm
    · cases heq
      refine .inr ⟨.settle (.resolved v) ?_ hp, Nat.lt_succ_of_lt (Nat.lt_succ_self _), hnext.2⟩
      exact List.mem_append_right _ (List.mem_singleton.mpr rfl)
    · exact .inl hm
  · intro d hd
    rcases List.mem_append.mp hd with hd | hd
    · exact .inl hd
    · cases List.mem_singleton.mp hd
      refine .inr (.late s.next f v (mem_waiting.mpr
        ⟨List.mem_append_right _ (List.mem_singleton.mpr rfl), hpending⟩) (List.mem_cons_self ..) hp rfl ?_)
      exact h.sound.no_calls (Nat.le_succ _)

end Allocate

section Executor
variable {i : Nat} {es : List Nat} {b : Broadcast V}

theorem Sound.enter (h : s.Sound) (hp : p ∈ s.constructed) : (s.schedule [.executing p]).Sound := by
  have htargets : (s.schedule [.executing p]).targets = s.targets :=
    (schedule_targets _ _).trans (List.append_nil _)
  refine ⟨?_, ?_, h.fresh, h.handled, ?_, ?_, h.derived, h.calls⟩
  · rw [htargets]
    exact h.nodup
  · rw [htargets]
    exact h.pending
  · intro q hq
    rcases h.executors_schedule hq with hq | hq | hq
    · exact hq
    · cases List.mem_singleton.mp hq
    · cases List.mem_singleton.mp hq
      exact hp
  · rw [htargets]
    exact h.constructed

theorem Inv.leave (h : s.Inv ms) {j : Job V H} (hj : s.jobs[i]? = some j) (ht : j.target = none)
    (hes : ∀ q ∈ es, q ∈ s.constructed) : (s.leave i es [] []).Inv ms := by
  have hgrows : Grows none s (s.leave i es [] []) := by
    rw [← ht]
    exact .leave hj (List.forall_mem_nil _)
  refine h.added hgrows (h.sound.leave hes (List.forall_mem_nil _)) (fun _ hm => hm) (Nat.le_refl _)
    (fun _ hq _ => hq) (List.append_nil _) (fun _ _ hm => .inl hm) (fun _ hd => .inl hd)

theorem Inv.run_executor (h : s.Inv ms) (hj : s.jobs[i]? = some (.executor p)) :
    ((s.leave i [p] [] []).schedule [.executing p]).Inv ms := by
  have hp : p ∈ s.constructed := h.sound.executors p (.inr (.inl (List.mem_of_getElem? hj)))
  have hleft : (s.leave i [p] [] []).Inv ms := h.leave hj rfl (List.forall_mem_singleton.mpr hp)
  exact hleft.added (.schedule _ _) (hleft.sound.enter hp) (fun _ hm => hm) (Nat.le_refl _)
    (fun _ hq _ => hq) rfl (fun _ _ hm => .inl hm) (fun _ hd => .inl hd)

theorem leave_notes (h : s.Inv ms) {j : Job V H} (hj : s.jobs[i]? = some j) (ht : j.target = none) :
    Notes s (s.leave i [] [] [(p, b)]) p b := by
  have hgrows : Grows none s (s.leave i [] [] [(p, b)]) := by
    rw [← ht]
    exact .leave hj (List.forall_mem_nil _)
  exact ⟨h.sound.leave (List.forall_mem_nil _) (List.forall_mem_nil _), hgrows,
    fun q hq => leave_targets_sublist.subset hq, rfl, rfl, rfl, rfl, rfl⟩

theorem call_notes (h : s.Inv ms) :
    Notes s { s with decisions := s.decisions ++ [(p, b)] } p b := by
  have hsound : ({ s with decisions := s.decisions ++ [(p, b)] } : Heap V H).Sound := by
    refine ⟨h.sound.nodup, h.sound.pending, h.sound.fresh, h.sound.handled, h.sound.executors, ?_,
      h.sound.derived, h.sound.calls⟩
    intro q hq
    obtain ⟨hlt, hundecided⟩ := h.sound.constructed q hq
    exact ⟨hlt, fun hq => hundecided (undecided_of_append rfl hq)⟩
  exact ⟨hsound, .append rfl (fun _ hj => hj) (fun _ hu => hu) rfl, fun _ hq => hq, rfl, rfl, rfl, rfl, rfl⟩

end Executor

theorem thenOn_pending (R : Runtime V) {f g : Option H} (hp : s.state p = none)
    (hfg : f.isSome = true ∨ g.isSome = true) : s.thenOn R p f g = (s.subscribe p f g, s.next) := by
  cases f with
  | some f => simp only [thenOn, hp]
  | none =>
    cases g with
    | some g => simp only [thenOn, hp]
    | none => rcases hfg with h | h <;> cases h

theorem Inv.step_then (h : s.Inv ms) {f g : Option H} (hl : Orderly R s (.thenOn p f g))
    (hstep : step R s (.thenOn p f g) = some s') : ∃ ms', s'.Inv ms' := by
  simp only [step] at hstep
  split at hstep
  · cases hp : s.state p with
    | none =>
      simp only [Orderly, hp] at hl
      rw [thenOn_pending R hp hl] at hstep
      cases hstep
      exact ⟨ms, h.then_pending hp hl⟩
    | some st =>
      cases st with
      | rejected x => simp only [Orderly, hp] at hl
      | resolved v =>
        simp only [Orderly, hp] at hl
        obtain ⟨f, rfl⟩ := Option.isSome_iff_exists.mp hl
        have hthen : s.thenOn R p (some f) g =
            ((s.constructSettled (.resolve (.plain v))).subscribe s.next (some f) none, s.next + 1) := by
          simp only [thenOn, hp]
        rw [hthen] at hstep
        cases hstep
        exact ⟨_, h.then_resolved hp⟩
  · cases hstep

theorem Inv.step_run (h : s.Inv ms) {i : Nat} (hl : Orderly R s (.run i))
    (hstep : step R s (.run i) = some s') : ∃ ms', s'.Inv ms' := by
  obtain ⟨j, hj, hstep⟩ := Option.bind_eq_some_iff.mp hstep
  obtain ⟨n, hn, rfl⟩ := Option.map_eq_some_iff.mp hstep
  cases ht : j.target with
  | some t =>
    rw [Job.start_exposes hn ht]
    refine ⟨ms, h.run_task hj ht hn ?_⟩
    rintro b rfl
    exact hl j t b hj hn
  | none =>
    obtain ⟨p, rfl, rfl⟩ := Job.start_executor hn ht
    exact ⟨ms, h.run_executor hj⟩

theorem Inv.step_finish (h : s.Inv ms) {i : Nat} {o : Completion V} (hl : Orderly R s (.finish i o))
    (hstep : step R s (.finish i o) = some s') : ∃ ms', s'.Inv ms' := by
  simp only [step] at hstep
  split at hstep
  · obtain ⟨j, hj, hstep⟩ := Option.bind_eq_some_iff.mp hstep
    obtain ⟨n, hn, rfl⟩ := Option.map_eq_some_iff.mp hstep
    obtain ⟨htame, hundecided, htimely⟩ := hl j hj
    cases ht : j.target with
    | some t =>
      refine ⟨ms, h.finish_task hj ht hn htame ?_⟩
      rintro b rfl
      exact htimely t b hn
    | none =>
      obtain ⟨p, rfl, hcalled, hends⟩ := Job.finish_executing hn ht
      have hp : p ∈ s.constructed := h.sound.executors p (.inr (.inr (List.mem_of_getElem? hj)))
      rw [hcalled]
      rcases hends with ⟨rfl, hdecides⟩ | ⟨b, rfl, hdecides⟩
      · rw [hdecides]
        exact ⟨ms, h.leave hj rfl (List.forall_mem_nil _)⟩
      · rw [hdecides] at hundecided ⊢
        exact (leave_notes h hj rfl).decide h hp (List.forall_mem_singleton.mp hundecided) (htimely p b hn)
  · cases hstep

theorem step_inv {l : Label V H} (h : s.Inv ms) (hl : Orderly R s l) (hstep : step R s l = some s') :
    ∃ ms', s'.Inv ms' := by
  cases l with
  | construct =>
    cases hstep
    exact ⟨ms, h.construct⟩
  | thenOn p f g => exact h.step_then hl hstep
  | call p b =>
    simp only [step] at hstep
    split at hstep
    · next hguard =>
      cases hstep
      have hp : p ∈ s.constructed := h.sound.executors p (.inl hguard.1)
      exact (call_notes h).decide h hp hl.1 hl.2
    · cases hstep
  | run i => exact h.step_run hl hstep
  | finish i o => exact h.step_finish hl hstep

theorem kept_of_orderly (R : Runtime V) (ls : List (Label V H))
    (h : (system R).meets (Orderly R) start ls) : (system R).always Kept start ls := by
  have hkept (s : Heap V H) (hs : ∃ ms, s.Inv ms) : s.Kept := by
    obtain ⟨ms, hs⟩ := hs
    exact hs.kept
  have hstep (s : Heap V H) (l : Label V H) (t : Heap V H) (hs : ∃ ms, s.Inv ms) (hl : Orderly R s l)
      (ht : (system R).step s l = some t) : ∃ ms, t.Inv ms := by
    obtain ⟨ms, hs⟩ := hs
    exact step_inv hs hl ht
  exact (system R).always_of_meets hkept hstep ⟨[], start_inv⟩ h

end Heap

namespace Heap

def numbers : Runtime Nat := ⟨100, 101, fun _ => true⟩

-- then(f) on a pending promise; it is resolved with 5, and f returns 6
def thenRun : List (Label Nat Nat) :=
  [.construct, .run 0, .thenOn 0 (some 1) none, .call 0 (.resolve (.plain 5)),
    .finish 0 (.returned (.plain 0)), .run 0, .finish 0 (.returned (.plain 6))]

theorem kept_thenRun :
    (system numbers).meets (Orderly numbers) start thenRun ∧ (system numbers).always Kept start thenRun := by
  have hmeets : (system numbers).meets (Orderly numbers) start thenRun := by
    refine And.intro trivial (And.intro ?_ (And.intro (.inl rfl) (And.intro (And.intro (fun _ => rfl) ?_)
      (And.intro ?_ (And.intro ?_ (And.intro ?_ trivial))))))
    · intro j p b hj hn
      cases hj
      cases hn
    · intro _ st hst
      cases hst
      intro u hu
      cases List.mem_singleton.mp hu
      rfl
    · intro j hj
      cases hj
      refine ⟨trivial, ?_, ?_⟩
      · intro x hx
        cases hx
      · intro p b hn
        cases hn
    · intro j p b hj hn
      cases hj
      cases hn
    · intro j hj
      cases hj
      refine ⟨trivial, ?_, ?_⟩
      · intro x hx
        cases hx
      · intro p b hn _ st hst
        cases hn
        cases hst
        intro u hu
        cases hu
  exact ⟨hmeets, kept_of_orderly numbers thenRun hmeets⟩

-- catch on a promise that is resolved, and resolve with a pending promise before another call
theorem promises_lost :
    ¬(system numbers).always Kept (start : Heap Nat Nat)
        [.construct, .run 0, .thenOn 0 none (some 1), .call 0 (.resolve (.plain 5)),
          .finish 0 (.returned (.plain 0))] ∧
      ¬(system numbers).always Kept (start : Heap Nat Nat)
        [.construct, .run 0, .construct, .run 1, .call 0 (.resolve (.promise 1)),
          .call 0 (.resolve (.plain 2))] := by
  constructor
  · intro h
    have hend := (System.always_iff_prefixes _ _ _ _).mp h _ (List.prefix_refl _) _ rfl
    have hlost : (none : Option (Settled Nat)) = some (.resolved 5) :=
      hend.fulfilled rfl ⟨0, none, some 1, 1⟩ (List.mem_singleton.mpr rfl) (.resolved 5) rfl
    cases hlost
  · intro h
    have hend := (System.always_iff_prefixes _ _ _ _).mp h _ (List.prefix_refl _) _ rfl
    have hfollows : (some (.resolved 2) : Option (Settled Nat)) = none ∨
        (some (.resolved 2) : Option (Settled Nat)) = none :=
      ((hend.fixed 0 (.resolve (.promise 1)) rfl).2 1 rfl).1
    rcases hfollows with h | h <;> cases h

end Heap

end NexusRuntime.Promises
