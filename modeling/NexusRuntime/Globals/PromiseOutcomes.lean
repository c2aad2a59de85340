import NexusRuntime.Globals.PromiseCalls

namespace NexusRuntime.Promises

open Transition

namespace Heap
variable {V H : Type} {R : Runtime V} {s s' : Heap V H} {p q : Nat} {st : Settled V} {b : Broadcast V}

theorem broadcast_keeps (s : Heap V H) (p : Nat) (b : Broadcast V) (hs : s.state q = some st) :
    (s.broadcast p b).state q = some st :=
  (Carries.broadcast (T := fun _ => True) trivial b).state q st hs

theorem proceed_keeps (s : Heap V H) (n : Next V H) (hs : s.state q = some st) :
    (s.proceed n).state q = some st := by
  cases n with
  | broadcast p b => exact broadcast_keeps s p b hs
  | job j => exact hs
  | nothing => exact hs

theorem thenOn_state (R : Runtime V) (s : Heap V H) (p : Nat) (f g : Option H) :
    (s.thenOn R p f g).1.state = s.state := by
  have hthen := thenOn_then R s p f g
  generalize s.thenOn R p f g = made at hthen ⊢
  cases hthen with
  | late st h hs hh => rfl
  | invalid hf hg => rfl
  | direct hdeaf => rfl

theorem step_keeps {l : Label V H} (hs : s.state q = some st) (hstep : step R s l = some s') :
    s'.state q = some st := by
  cases l with
  | construct =>
    cases hstep
    exact hs
  | thenOn p f g =>
    simp only [step] at hstep
    split at hstep
    · cases hstep
      show (s.thenOn R p f g).1.state q = some st
      rw [thenOn_state]
      exact hs
    · cases hstep
  | call p b =>
    simp only [step] at hstep
    split at hstep
    · cases hstep
      exact broadcast_keeps _ p b hs
    · cases hstep
  | run i =>
    obtain ⟨j, hj, hstep⟩ := Option.bind_eq_some_iff.mp hstep
    obtain ⟨n, hn, rfl⟩ := Option.map_eq_some_iff.mp hstep
    exact proceed_keeps _ n hs
  | finish i o =>
    simp only [step] at hstep
    split at hstep
    · obtain ⟨j, hj, hstep⟩ := Option.bind_eq_some_iff.mp hstep
      obtain ⟨n, hn, rfl⟩ := Option.map_eq_some_iff.mp hstep
      exact proceed_keeps _ n hs
    · cases hstep

-- where a promise made by then stands: the calls of its handlers, and what it is settled with
structure Answers (R : Runtime V) (s : Heap V H) (d : Derived H) : Prop where
  called : s.Called R d
  outcome : ∀ st, s.state d.promise = some st → s.Outcome R d st

def Answered (R : Runtime V) (s : Heap V H) : Prop := ∀ d ∈ s.derived, s.Answers R d

-- the promises that a step uses, the program was given
def Uses (s : Heap V H) : Label V H → Prop
  | .construct => True
  | .thenOn p _ _ => s.Held p
  | .call _ b => ∀ r, b.value = .promise r → s.Held r
  | .run _ => True
  | .finish _ o => ∀ r, o.value = .promise r → s.Held r

-- nobody else is told of what becomes of a promise that then made for itself
def Reserved (s : Heap V H) : Prop :=
  ∀ u ∈ s.subscribers, u.handlers.hasReject = true → s.Held u.source

theorem Reserved.grows (h : s.Reserved) (hheld : ∀ r, s.Held r → s'.Held r)
    (hsubscribers : ∀ u ∈ s'.subscribers, u ∈ s.subscribers ∨ u.handlers.hasReject = false ∨
      s.Held u.source) : s'.Reserved := by
  intro u hu hreject
  rcases hsubscribers u hu with hu | hnone | hsource
  · exact hheld _ (h u hu hreject)
  · rw [hnone] at hreject
    cases hreject
  · exact hheld _ hsource

theorem broadcast_subscribers (s : Heap V H) (p : Nat) (b : Broadcast V) :
    ∀ u ∈ (s.broadcast p b).subscribers, u ∈ s.subscribers ∨ b = .resolve (.promise u.source) := by
  generalize ht : s.broadcast p b = t
  have heffect := broadcast_effect s p b
  rw [ht] at heffect
  cases heffect with
  | same => exact fun u hu => .inl hu
  | settle st hp hb => exact fun u hu => .inl hu
  | follow r st hp hb hne hr => exact fun u hu => .inl hu
  | adopt r hp hb hne hr =>
    intro u hu
    rcases List.mem_append.mp hu with hu | hu
    · exact .inl hu
    · rw [List.mem_singleton.mp hu]
      exact .inr hb

theorem Held.frame (h : s.Held q) (hframe : Frame s s') : s'.Held q := by
  rw [Held, hframe.constructed, hframe.derived]
  exact h

theorem Reserved.broadcast (h : s.Reserved) (p : Nat)
    (hb : ∀ r, b = .resolve (.promise r) → s.Held r) : (s.broadcast p b).Reserved := by
  refine h.grows (fun r hr => hr.frame (broadcast_frame s p b)) ?_
  intro u hu
  rcases broadcast_subscribers s p b u hu with hu | hu
  · exact .inl hu
  · exact .inr (.inr (hb _ hu))

theorem Reserved.proceed {n : Next V H} (h : s.Reserved)
    (hn : ∀ p r, n = .broadcast p (.resolve (.promise r)) → s.Held r) : (s.proceed n).Reserved := by
  cases n with
  | broadcast p b =>
    refine h.broadcast p ?_
    rintro r rfl
    exact hn p r rfl
  | job j => exact h.grows (fun _ hr => hr) fun u hu => .inl hu
  | nothing => exact h

theorem start_reserved : (start : Heap V H).Reserved := by
  intro u hu
  cases hu

theorem Reserved.construct (h : s.Reserved) : s.construct.Reserved := by
  refine h.grows ?_ fun u hu => .inl hu
  rintro r (hr | hr)
  · exact .inl (List.mem_append_left _ hr)
  · exact .inr hr

theorem Reserved.thenOn (h : s.Reserved) {f g : Option H} (hp : s.Held p) :
    ({ (s.thenOn R p f g).1 with
      derived := (s.thenOn R p f g).1.derived ++ [⟨p, f, g, (s.thenOn R p f g).2⟩] } :
        Heap V H).Reserved := by
  have hthen := thenOn_then R s p f g
  generalize s.thenOn R p f g = made at hthen ⊢
  have hheld (d : Derived H) (r : Nat) (hr : s.Held r) :
      r ∈ s.constructed ∨ ∃ d' ∈ s.derived ++ [d], d'.promise = r := by
    rcases hr with hr | ⟨d', hd', hq⟩
    · exact .inl hr
    · exact .inr ⟨d', List.mem_append_left _ hd', hq⟩
  cases hthen with
  | late st k hs hh =>
    refine h.grows (hheld _) ?_
    intro u hu
    rcases List.mem_append.mp hu with hu | hu
    · exact .inl hu
    · rw [List.mem_singleton.mp hu]
      exact .inr (.inl rfl)
  | invalid hf hg => exact h.grows (hheld _) fun u hu => .inl hu
  | direct hdeaf =>
    refine h.grows (hheld _) ?_
    intro u hu
    rcases List.mem_append.mp hu with hu | hu
    · exact .inl hu
    · rw [List.mem_singleton.mp hu]
      exact .inr (.inr hp)

end Heap

namespace Job
variable {V H : Type} {R : Runtime V} {j : Job V H} {o : Completion V} {p r : Nat}

theorem start_resolves (h : j.start = some (.broadcast p (.resolve (.promise r)))) :
    j = .settle p (.resolve (.promise r)) := by
  cases j <;> cases h
  rfl

theorem rescue_rejects {g : Option H} {q : Nat} {e value : Value V} :
    (rescue g q e : Next V H) ≠ .broadcast p (.resolve value) := by
  cases g <;> rintro ⟨⟩

theorem finish_resolves {value : Value V} (h : j.finish R o = some (.broadcast p (.resolve value))) :
    o = .returned value := by
  cases o with
  | threw e =>
    cases j <;> simp only [finish, Option.some.injEq, reduceCtorEq] at h
    case executing p => cases h
    case resolving f g p v => exact absurd h rescue_rejects
    case rejecting g p x =>
      split at h <;> cases h
  | returned w =>
    cases j <;> simp only [finish, Option.some.injEq, reduceCtorEq] at h
    case resolving f g p v =>
      split at h
      · exact absurd h rescue_rejects
      · cases h
        rfl
    case rejecting g p x =>
      split at h <;> cases h
      rfl
    case rescuing g p e =>
      split at h <;> cases h
      rfl

end Job

namespace Heap
variable {V H : Type} {R : Runtime V} {s s' : Heap V H} {p q : Nat}

theorem Reserved.step {l : Label V H} (h : s.Reserved) (htidy : s.Tidy) (hl : s.Uses l)
    (hstep : step R s l = some s') : s'.Reserved := by
  cases l with
  | construct =>
    cases hstep
    exact h.construct
  | thenOn p f g =>
    simp only [Heap.step] at hstep
    split at hstep
    · cases hstep
      exact h.thenOn hl
    · cases hstep
  | call p b =>
    simp only [Heap.step] at hstep
    split at hstep
    · cases hstep
      have hnoted : ({ s with decisions := s.decisions ++ [(p, b)] } : Heap V H).Reserved := h
      refine hnoted.broadcast p ?_
      rintro r rfl
      exact hl r rfl
    · cases hstep
  | run i =>
    obtain ⟨j, hj, hstep⟩ := Option.bind_eq_some_iff.mp hstep
    obtain ⟨n, hn, rfl⟩ := Option.map_eq_some_iff.mp hstep
    have hleft : (s.leave i j.exposes [] []).Reserved := h
    refine hleft.proceed ?_
    rintro p r rfl
    rw [Job.start_resolves hn] at hj
    cases htidy.settles _ _ (List.mem_of_getElem? hj)
  | finish i o =>
    simp only [Heap.step] at hstep
    split at hstep
    · obtain ⟨j, hj, hstep⟩ := Option.bind_eq_some_iff.mp hstep
      obtain ⟨n, hn, rfl⟩ := Option.map_eq_some_iff.mp hstep
      have hleft : (s.leave i [] (j.called o) (j.decides o)).Reserved := h
      refine hleft.proceed ?_
      rintro p r rfl
      rw [Job.finish_resolves hn] at hl
      exact hl r rfl
    · cases hstep

-- why the promise of d is pending when nothing is left to run
inductive Stalls (R : Runtime V) (s : Heap V H) (d : Derived H) : Prop
  | source (hs : s.state d.source = none)
  | adopts (r : Nat) (h : s.Ends d (.returned (.promise r))) (hr : s.state r = none)
  | deaf (st : Settled V) (hs : s.state d.source = some st) (hh : d.handler st = none)
  | swallowed (h : s.Swallows R d)

def Unlost (R : Runtime V) (s : Heap V H) : Prop :=
  s.jobs = [] → ∀ d ∈ s.derived, s.state d.promise = none → s.Stalls R d

theorem Lawful.stalls {ms : List (Nat × Settled V)} {d : Derived H} (h : s.Lawful R ms)
    (hreserved : s.Reserved) (hjobs : s.jobs = []) (hd : d ∈ s.derived)
    (hpending : s.state d.promise = none) : s.Stalls R d := by
  have hnone {j : Job V H} (hj : j ∈ s.jobs) : False := by
    rw [hjobs] at hj
    cases hj
  have hsettling := h.settling d hd
  cases hsettling.pends hpending with
  | waits u hu hq =>
    have hsource := (mem_waiting.mp hu).2
    cases hsettling.waiting u hu hq with
    | adoption r q hends hne => exact .adopts r hends hsource
    | direct hc => exact .source hsource
    | late r st k hm hs hh hc =>
      obtain ⟨-, -, hstate | hj⟩ := h.hidden r st hm
      · rw [show s.state r = none from hsource] at hstate
        cases hstate
      · exact (hnone hj).elim
  | task j hj hq => exact (hnone hj).elim
  | deaf st hs hh => exact .deaf st hs hh
  | overheard r st u hm hu hr hreject =>
    refine absurd (hreserved u hu hreject) ?_
    rw [hr]
    exact (h.hidden r st hm).2.1
  | swallowed h => exact .swallowed h

end Heap

end NexusRuntime.Promises
