import NexusRuntime.Scheduler.Pool

namespace NexusRuntime.Tasks

open Transition Sequence

def Label.worker : Label → Option Nat
  | .poll i _ | .thread i | .yield i | .finish i => some i
  | _ => none

def Label.schedules : Label → Option (Kind × Bool × Bool)
  | .scheduleTask delayed => some (.task, true, delayed)
  | .scheduleCoroutine delayed => some (.coroutine, false, delayed)
  | _ => none

namespace Scheduler

inductive Moves (s : Scheduler) : Label → Scheduler → Prop where
  | schedule {l : Label} {kind : Kind} {hold delayed : Bool}
      (hl : l.schedules = some (kind, hold, delayed)) : Moves s l (s.schedule kind hold delayed)
  | fire {t : Nat} (ht : t ∈ s.timers) :
      Moves s (.fire t) { s with timers := s.timers.erase t, entering := s.entering ++ [t] }
  | count {t : Nat} (ht : t ∈ s.entering) :
      Moves s (.count t) { s with
        entering := s.entering.erase t
        myTaskCount := s.myTaskCount + 1
        arriving := s.arriving ++ [t] }
  | push {t : Nat} (ht : t ∈ s.arriving) :
      Moves s (.push t) { s with
        arriving := s.arriving.erase t
        myTaskQueue := s.myTaskQueue ++ [t] }
  | abort {t : Nat} {k : Task} (hk : s.object t = some k) : Moves s (.abort t) (s.setTask t k.abort)
  | cancel {t : Nat} {k : Task} (hk : s.object t = some k) (ha : 0 < k.aborting) :
      Moves s (.cancel t) (s.setTask t k.cancelled)
  | hold : Moves s .hold { s.hold with holders := s.holders + 1 }
  | release (hh : 0 < s.holders) : Moves s .release { s.release with holders := s.holders - 1 }
  | addThread : Moves s .addThread { s with workers := s.workers ++ [.new] }
  | pause : Moves s .pause { s with myPauseTasks := true }
  | resume : Moves s .resume { s with myPauseTasks := false }
  | stay {i : Nat} : Moves s (.yield i) s
  | idle {l : Label} {i : Nat} {w w' : Worker} (hl : l.worker = some i)
      (hw : s.workers[i]? = some w) (hi : w.idle = true) (hi' : w'.idle = true) :
      Moves s l (s.setWorker i w')
  | pop {i : Nat} {cur : Option Nat} {t : Nat} {queue : List Nat}
      (hw : s.workers[i]? = some ⟨cur, .pop⟩) (hq : s.myTaskQueue = t :: queue) :
      Moves s (.thread i) ({ s with myTaskQueue := queue : Scheduler }.setWorker i
        ⟨cur, .iteration t .activate []⟩)
  | activate {i : Nat} {cur : Option Nat} {t : Nat} {f : List Fate}
      (hw : s.workers[i]? = some ⟨cur, .iteration t .activate f⟩) :
      Moves s (.thread i) ({ s with
        myActiveTaskCount := s.myActiveTaskCount + 1 : Scheduler }.setWorker i
          ⟨cur, .iteration t .discount f⟩)
  | discount {i : Nat} {cur : Option Nat} {t : Nat} {f : List Fate}
      (hw : s.workers[i]? = some ⟨cur, .iteration t .discount f⟩) :
      Moves s (.thread i) ({ s with myTaskCount := s.myTaskCount - 1 : Scheduler }.setWorker i
        ⟨cur, .iteration t .reset f⟩)
  | reset {i : Nat} {cur : Option Nat} {t : Nat} {f : List Fate}
      (hw : s.workers[i]? = some ⟨cur, .iteration t .reset f⟩) :
      Moves s (.thread i) (s.setWorker i ⟨some t, .iteration t (.run .testAborted) f⟩)
  | run {i : Nat} {t : Nat} {c : Code} {f : List Fate} {k : Task}
      (hw : s.workers[i]? = some ⟨some t, .iteration t (.run c) f⟩) (hk : s.object t = some k) :
      Moves s (.thread i) ((s.setTask t (k.proceed c).2).setWorker i
        ⟨some t, .iteration t (k.proceed c).1 f⟩)
  | requeue {i : Nat} {t : Nat} {f : List Fate}
      (hw : s.workers[i]? = some ⟨some t, .iteration t .push f⟩) :
      Moves s (.thread i) ({ s with myTaskQueue := s.myTaskQueue ++ [t] : Scheduler }.setWorker i
        ⟨none, .iteration t .recount (f ++ [.pushedBack])⟩)
  | recount {i : Nat} {cur : Option Nat} {t : Nat} {f : List Fate}
      (hw : s.workers[i]? = some ⟨cur, .iteration t .recount f⟩) :
      Moves s (.thread i) ({ s with myTaskCount := s.myTaskCount + 1 : Scheduler }.setWorker i
        ⟨cur, .iteration t .deactivate f⟩)
  | exit {i : Nat} {t : Nat} {f : List Fate} {k : Task}
      (hw : s.workers[i]? = some ⟨some t, .iteration t .exit f⟩) (hk : s.object t = some k) :
      Moves s (.thread i) ((s.setTask t k.exit).setWorker i ⟨none, .iteration t (.delete t) f⟩)
  | delete {i : Nat} {cur : Option Nat} {t : Nat} {f : List Fate} {k : Task}
      (hw : s.workers[i]? = some ⟨cur, .iteration t (.delete t) f⟩) (hk : s.object t = some k) :
      Moves s (.thread i) ((s.destroy t k).setWorker i
        ⟨cur, .iteration t .deactivate (f ++ [.destroyed])⟩)
  | deactivate {i : Nat} {cur : Option Nat} {t : Nat} {f : List Fate}
      (hw : s.workers[i]? = some ⟨cur, .iteration t .deactivate f⟩) :
      Moves s (.thread i) ({ s with
        myActiveTaskCount := s.myActiveTaskCount - 1 : Scheduler }.setWorker i
          ⟨cur, .iteration t .testPause f⟩)
  | finish {i : Nat} {cur : Option Nat} {t : Nat} {f : List Fate} {w : Worker}
      (hw : s.workers[i]? = some ⟨cur, .iteration t .testPause f⟩) (hi : w.idle = true) :
      Moves s (.thread i) ({ s with ended := s.ended ++ [(t, f)] : Scheduler }.setWorker i w)
  | handled {l : Label} {i : Nat} {t : Nat} {f : List Fate} {c : Code}
      (hl : l.worker = some i)
      (hc : c = .yieldTest ∧ (∃ k, s.object t = some k ∧ k.kind = .coroutine) ∨ c = .finish)
      (hw : s.workers[i]? = some ⟨some t, .iteration t .handler f⟩) :
      Moves s l (s.setWorker i ⟨some t, .iteration t (.run c) f⟩)

variable {s s' : Scheduler} (hs : s.Coherent) {i : Nat}
include hs

theorem iterate_moves {cur : Option Nat} {t : Nat} {p : Point} {f : List Fate}
    (hw : s.workers[i]? = some ⟨cur, .iteration t p f⟩)
    (h : s.iterate i ⟨cur, .iteration t p f⟩ t f p = some s') : s.Moves (.thread i) s' := by
  have hcur : p.current = true → cur = some t := current_at hs hw
  cases p with
  | run c =>
    cases hcur rfl
    rw [iterate, runCode_current s i rfl] at h
    obtain ⟨k, hk, rfl⟩ := Option.map_eq_some_iff.mp h
    exact .run hw hk
  | handler => cases h
  | push =>
    cases hcur rfl
    cases h
    exact .requeue hw
  | exit =>
    cases hcur rfl
    obtain ⟨k, hk, rfl⟩ := Option.map_eq_some_iff.mp h
    exact .exit hw hk
  | delete u =>
    have hut := delete_at hs hw
    subst hut
    obtain ⟨k, hk, rfl⟩ := Option.map_eq_some_iff.mp h
    exact .delete hw hk
  | activate =>
    cases h
    exact .activate hw
  | discount =>
    cases h
    exact .discount hw
  | reset =>
    cases h
    exact .reset hw
  | recount =>
    cases h
    exact .recount hw
  | deactivate =>
    cases h
    exact .deactivate hw
  | testPause =>
    cases h
    exact .finish hw (Worker.idle_ite _ _ rfl rfl)

theorem thread_moves {w : Worker} (hw : s.workers[i]? = some w) (h : s.thread i w = some s') :
    s.Moves (.thread i) s' := by
  obtain ⟨cur, frame⟩ := w
  cases frame with
  | dispatcher | left => cases h
  | drainTasks | joinPool =>
    cases h
    exact .idle rfl hw rfl (Worker.idle_ite _ _ rfl rfl)
  | pop =>
    cases h
    split
    · exact .idle rfl hw rfl rfl
    · next t queue hq => exact .pop hw hq
  | iteration t p f => exact iterate_moves hs hw h

theorem step_moves {l : Label} (h : pools.step s l = some s') : s.Moves l s' := by
  cases l with
  | scheduleTask delayed | scheduleCoroutine delayed =>
    cases h
    exact .schedule rfl
  | fire t =>
    obtain ⟨ht, h⟩ := Option.ite_none_right_eq_some.mp h
    cases h
    exact .fire ht
  | count t =>
    obtain ⟨ht, h⟩ := Option.ite_none_right_eq_some.mp h
    cases h
    exact .count ht
  | push t =>
    obtain ⟨ht, h⟩ := Option.ite_none_right_eq_some.mp h
    cases h
    exact .push ht
  | abort t =>
    obtain ⟨k, hk, rfl⟩ := Option.map_eq_some_iff.mp h
    exact .abort hk
  | cancel t =>
    obtain ⟨k, hk, h⟩ := Option.bind_eq_some_iff.mp h
    obtain ⟨ha, h⟩ := Option.ite_none_right_eq_some.mp h
    cases h
    exact .cancel hk ha
  | hold =>
    cases h
    exact .hold
  | release =>
    obtain ⟨hh, h⟩ := Option.ite_none_right_eq_some.mp h
    cases h
    exact .release hh
  | addThread =>
    cases h
    exact .addThread
  | pause =>
    cases h
    exact .pause
  | resume =>
    cases h
    exact .resume
  | poll i ran =>
    obtain ⟨w, hw, h⟩ := Option.bind_eq_some_iff.mp h
    obtain ⟨hidle, w', hw', rfl⟩ := poll_cases h
    exact .idle rfl hw hidle hw'
  | thread i =>
    obtain ⟨w, hw, h⟩ := Option.bind_eq_some_iff.mp h
    exact thread_moves hs hw h
  | yield i =>
    obtain ⟨w, hw, h⟩ := Option.bind_eq_some_iff.mp h
    rcases yield_cases h with rfl | ⟨u, t, f, rfl, hk, rfl⟩
    · exact .stay
    · cases current_at hs hw rfl
      exact .handled rfl (.inl ⟨rfl, hk⟩) hw
  | finish i =>
    obtain ⟨w, hw, h⟩ := Option.bind_eq_some_iff.mp h
    obtain ⟨cur, t, f, rfl, rfl⟩ := finish_cases h
    cases current_at hs hw rfl
    exact .handled rfl (.inr rfl) hw

end Scheduler

end NexusRuntime.Tasks
