import NexusRuntime.Scheduler.Task
import NexusRuntime.Sequence.Place
import NexusRuntime.Transition.System

namespace NexusRuntime.Tasks

open Transition Sequence

inductive Fate where
  | pushedBack
  | destroyed
deriving DecidableEq, Repr

inductive Frame where
  | dispatcher
  | drainTasks
  | pop
  | iteration (task : Nat) (point : Point) (fate : List Fate)
  | joinPool
  | left
deriving DecidableEq, Repr

structure Worker where
  myCurrentTask : Option Nat
  frame : Frame
deriving DecidableEq, Repr

-- workers: the thread in joinPool first, then those of myThreadGroup
structure Scheduler where
  myMaxThreads : Nat
  workers : List Worker
  myTaskQueue : List Nat
  myTaskCount : UInt64
  myActiveTaskCount : UInt64
  myHoldCount : UInt64
  myPauseTasks : Bool
  tasks : List Task
  timers : List Nat
  entering : List Nat
  arriving : List Nat
  holders : Nat
  ended : List (Nat × List Fate)
deriving DecidableEq, Repr

namespace Worker

def new : Worker := ⟨none, .dispatcher⟩

def moved (w : Worker) (task : Nat) (point : Point) (fate : List Fate) : Worker :=
  { w with frame := .iteration task point fate }

def idle (w : Worker) : Bool :=
  match w.frame with
  | .iteration _ _ _ => false
  | _ => true

end Worker

namespace Scheduler

def start (myMaxThreads : Nat) : Scheduler where
  myMaxThreads := myMaxThreads
  workers := [.new]
  myTaskQueue := []
  myTaskCount := 0
  myActiveTaskCount := 0
  myHoldCount := 0
  myPauseTasks := false
  tasks := []
  timers := []
  entering := []
  arriving := []
  holders := 0
  ended := []

def object (s : Scheduler) (t : Nat) : Option Task := (s.tasks[t]?).filter fun k => !k.deleted

def setTask (s : Scheduler) (t : Nat) (k : Task) : Scheduler := { s with tasks := s.tasks.set t k }

def setWorker (s : Scheduler) (i : Nat) (w : Worker) : Scheduler :=
  { s with workers := s.workers.set i w }

def hold (s : Scheduler) : Scheduler := { s with myHoldCount := s.myHoldCount + 1 }

def release (s : Scheduler) : Scheduler := { s with myHoldCount := s.myHoldCount - 1 }

def construct (s : Scheduler) (kind : Kind) (hold : Bool) : Scheduler :=
  let s := if hold then s.hold else s
  { s with tasks := s.tasks ++ [.new kind hold] }

def schedule (s : Scheduler) (kind : Kind) (hold delayed : Bool) : Scheduler :=
  let t := s.tasks.length
  let s := s.construct kind hold
  if delayed then { s with timers := s.timers ++ [t] } else { s with entering := s.entering ++ [t] }

def scheduleTask (s : Scheduler) (delayed : Bool) : Scheduler := s.schedule .task true delayed

def scheduleCoroutine (s : Scheduler) (delayed : Bool) : Scheduler :=
  s.schedule .coroutine false delayed

def destroy (s : Scheduler) (t : Nat) (k : Task) : Scheduler :=
  let s := s.setTask t { k with deleted := true }
  if k.held then s.release else s

def runCode (s : Scheduler) (i : Nat) (w : Worker) (t : Nat) (f : List Fate) (c : Code) :
    Option Scheduler :=
  match c.target w.myCurrentTask t with
  | none => c.null.map fun p => s.setWorker i (w.moved t p f)
  | some u => (s.object u).map fun k =>
    let w := if c.makesCurrent then { w with myCurrentTask := some t } else w
    (s.setTask u (k.proceed c).2).setWorker i (w.moved t (k.proceed c).1 f)

def iterate (s : Scheduler) (i : Nat) (w : Worker) (t : Nat) (f : List Fate) :
    Point → Option Scheduler
  | .activate => some
    ({ s with myActiveTaskCount := s.myActiveTaskCount + 1 : Scheduler }.setWorker i
      (w.moved t .discount f))
  | .discount => some
    ({ s with myTaskCount := s.myTaskCount - 1 : Scheduler }.setWorker i (w.moved t .reset f))
  -- the pointer was built with a null cleanup: the task it held before is not deleted
  | .reset => some
    (s.setWorker i ({ w with myCurrentTask := some t : Worker }.moved t (.run .testAborted) f))
  | .run c => s.runCode i w t f c
  | .handler => none
  | .push => w.myCurrentTask.map fun u =>
    { s with myTaskQueue := s.myTaskQueue ++ [u] : Scheduler }.setWorker i
      ({ w with myCurrentTask := none : Worker }.moved t .recount (f ++ [.pushedBack]))
  | .recount => some
    ({ s with myTaskCount := s.myTaskCount + 1 : Scheduler }.setWorker i (w.moved t .deactivate f))
  | .exit =>
    match w.myCurrentTask with
    | none => some (s.setWorker i (w.moved t .deactivate f))
    | some u => (s.object u).map fun k =>
      (s.setTask u k.exit).setWorker i
        ({ w with myCurrentTask := none : Worker }.moved t (.delete u) f)
  | .delete u => (s.object u).map fun k =>
    (s.destroy u k).setWorker i (w.moved t .deactivate (f ++ [.destroyed]))
  | .deactivate => some
    ({ s with myActiveTaskCount := s.myActiveTaskCount - 1 : Scheduler }.setWorker i
      (w.moved t .testPause f))
  | .testPause => some
    ({ s with ended := s.ended ++ [(t, f)] : Scheduler }.setWorker i
      { w with frame := if s.myPauseTasks then .dispatcher else .pop })

def thread (s : Scheduler) (i : Nat) (w : Worker) : Option Scheduler :=
  match w.frame with
  | .dispatcher | .left => none
  | .drainTasks => some
    (s.setWorker i { w with frame := if s.myPauseTasks then .dispatcher else .pop })
  | .pop => some <|
    match s.myTaskQueue with
    | [] => s.setWorker i { w with frame := .dispatcher }
    | t :: queue => { s with myTaskQueue := queue : Scheduler }.setWorker i (w.moved t .activate [])
  | .iteration t p f => s.iterate i w t f p
  | .joinPool => some
    (s.setWorker i { w with frame := if s.myHoldCount ≠ 0 then .dispatcher else .left })

def poll (s : Scheduler) (i : Nat) (w : Worker) (ran : Bool) : Option Scheduler :=
  match w.frame with
  | .dispatcher => some (s.setWorker i { w with
      frame := if ran || s.myTaskCount ≠ 0 then .drainTasks else if i = 0 then .joinPool else .left })
  | _ => none

def yield (s : Scheduler) (i : Nat) (w : Worker) : Option Scheduler :=
  match w.frame, w.myCurrentTask with
  | .iteration t .handler f, some u => (s.object u).map fun k =>
    match k.kind with
    | .task => s
    | .coroutine => s.setWorker i (w.moved t (.run .yieldTest) f)
  | _, _ => none

def finish (s : Scheduler) (i : Nat) (w : Worker) : Option Scheduler :=
  match w.frame with
  | .iteration t .handler f => some (s.setWorker i (w.moved t (.run .finish) f))
  | _ => none

end Scheduler

inductive Label where
  | scheduleTask (delayed : Bool)
  | scheduleCoroutine (delayed : Bool)
  | fire (t : Nat)
  | count (t : Nat)
  | push (t : Nat)
  | abort (t : Nat)
  | cancel (t : Nat)
  | hold
  | release
  | addThread
  | pause
  | resume
  | poll (i : Nat) (ran : Bool)
  | thread (i : Nat)
  | yield (i : Nat)
  | finish (i : Nat)
deriving DecidableEq, Repr

def step (s : Scheduler) : Label → Option Scheduler
  | .scheduleTask delayed => some (s.scheduleTask delayed)
  | .scheduleCoroutine delayed => some (s.scheduleCoroutine delayed)
  | .fire t =>
    if t ∈ s.timers then some { s with timers := s.timers.erase t, entering := s.entering ++ [t] }
    else none
  | .count t =>
    if t ∈ s.entering then some { s with
      entering := s.entering.erase t
      myTaskCount := s.myTaskCount + 1
      arriving := s.arriving ++ [t] }
    else none
  | .push t =>
    if t ∈ s.arriving then some { s with
      arriving := s.arriving.erase t
      myTaskQueue := s.myTaskQueue ++ [t] }
    else none
  | .abort t => (s.object t).map fun k => s.setTask t k.abort
  | .cancel t => (s.object t).bind fun k =>
    if 0 < k.aborting then some (s.setTask t k.cancelled) else none
  | .hold => some { s.hold with holders := s.holders + 1 }
  | .release => if 0 < s.holders then some { s.release with holders := s.holders - 1 } else none
  -- balanceThreads takes its two tests in steps of their own, before this one
  | .addThread => some { s with workers := s.workers ++ [.new] }
  | .pause => some { s with myPauseTasks := true }
  | .resume => some { s with myPauseTasks := false }
  | .poll i ran => (s.workers[i]?).bind fun w => s.poll i w ran
  | .thread i => (s.workers[i]?).bind fun w => s.thread i w
  | .yield i => (s.workers[i]?).bind fun w => s.yield i w
  | .finish i => (s.workers[i]?).bind fun w => s.finish i w

def pools : System Scheduler Label := ⟨step⟩

def Worker.Coherent (w : Worker) : Prop :=
  match w.frame with
  | .iteration t p _ => (p.current = true → w.myCurrentTask = some t) ∧ ∀ u, p = .delete u → u = t
  | _ => True

theorem Worker.idle_coherent {w : Worker} (h : w.idle = true) : w.Coherent := by
  obtain ⟨c, frame⟩ := w
  cases frame with
  | iteration t p f => cases h
  | _ => trivial

theorem Worker.idle_ite (c : Option Nat) (b : Prop) [Decidable b] {x y : Frame}
    (hx : (Worker.mk c x).idle = true) (hy : (Worker.mk c y).idle = true) :
    (Worker.mk c (if b then x else y)).idle = true := by
  split
  · exact hx
  · exact hy

theorem Worker.moved_coherent {w : Worker} {t : Nat} {p : Point} {f : List Fate}
    (hp : p.current = true → w.myCurrentTask = some t) (hd : ∀ u, p = .delete u → u = t) :
    (w.moved t p f).Coherent := ⟨hp, hd⟩

namespace Scheduler

def Coherent (s : Scheduler) : Prop := ∀ w ∈ s.workers, w.Coherent

theorem object_some {s : Scheduler} {t : Nat} {k : Task} (h : s.object t = some k) :
    s.tasks[t]? = some k ∧ k.deleted = false := by
  obtain ⟨hk, hd⟩ := Option.filter_eq_some_iff.mp h
  exact ⟨hk, by simpa using hd⟩

theorem setWorker_coherent {s : Scheduler} (hs : s.Coherent) (i : Nat) {w : Worker}
    (hw : w.Coherent) : (s.setWorker i w).Coherent := forall_replace hs hw

theorem current_at {s : Scheduler} (hs : s.Coherent) {i : Nat} {cur : Option Nat} {t : Nat}
    {p : Point} {f : List Fate} (hw : s.workers[i]? = some ⟨cur, .iteration t p f⟩)
    (hp : p.current = true) : cur = some t := (hs _ (List.mem_of_getElem? hw)).1 hp

theorem delete_at {s : Scheduler} (hs : s.Coherent) {i : Nat} {cur : Option Nat} {t u : Nat}
    {f : List Fate} (hw : s.workers[i]? = some ⟨cur, .iteration t (.delete u) f⟩) : u = t :=
  (hs _ (List.mem_of_getElem? hw)).2 u rfl

theorem target_current {w : Worker} {t : Nat} (hw : w.myCurrentTask = some t) (c : Code) :
    c.target w.myCurrentTask t = some t := by
  rw [hw]
  cases c <;> rfl

theorem runCode_current (s : Scheduler) (i : Nat) {w : Worker} {t : Nat}
    (hw : w.myCurrentTask = some t) (f : List Fate) (c : Code) :
    s.runCode i w t f c = (s.object t).map fun k =>
      (s.setTask t (k.proceed c).2).setWorker i (w.moved t (k.proceed c).1 f) := by
  have hsame : (if c.makesCurrent then { w with myCurrentTask := some t } else w) = w := by
    rw [← hw]
    split <;> rfl
  simp only [runCode, target_current hw, hsame]

theorem proceed_moved {w : Worker} {t : Nat} (hw : w.myCurrentTask = some t) (k : Task) (c : Code)
    (f : List Fate) : (w.moved t (k.proceed c).1 f).Coherent :=
  Worker.moved_coherent (fun _ => hw) fun u hu => absurd hu (k.proceed_keeps c u)

theorem iterate_coherent {s s' : Scheduler} (hs : s.Coherent) {i : Nat} {w : Worker} {t : Nat}
    {p : Point} {f : List Fate} (hp : p.current = true → w.myCurrentTask = some t)
    (h : s.iterate i w t f p = some s') : s'.Coherent := by
  cases p with
  | run c =>
    rw [iterate, runCode_current s i (hp rfl)] at h
    obtain ⟨k, -, rfl⟩ := Option.map_eq_some_iff.mp h
    exact setWorker_coherent hs i (proceed_moved (hp rfl) k c f)
  | handler => cases h
  | push =>
    obtain ⟨u, -, rfl⟩ := Option.map_eq_some_iff.mp h
    exact setWorker_coherent hs i (Worker.moved_coherent nofun nofun)
  | exit =>
    simp only [iterate, hp rfl] at h
    obtain ⟨k, -, rfl⟩ := Option.map_eq_some_iff.mp h
    refine setWorker_coherent hs i (Worker.moved_coherent nofun fun u hu => ?_)
    exact (Point.delete.inj hu).symm
  | delete u =>
    obtain ⟨k, -, rfl⟩ := Option.map_eq_some_iff.mp h
    refine setWorker_coherent ?_ i (Worker.moved_coherent nofun nofun)
    simp only [destroy]
    split <;> exact hs
  | reset =>
    cases h
    exact setWorker_coherent hs i (Worker.moved_coherent (fun _ => rfl) nofun)
  | activate | discount | recount | deactivate =>
    cases h
    exact setWorker_coherent hs i (Worker.moved_coherent nofun nofun)
  | testPause =>
    cases h
    exact setWorker_coherent hs i (Worker.idle_coherent (Worker.idle_ite _ _ rfl rfl))

theorem thread_coherent {s s' : Scheduler} (hs : s.Coherent) {i : Nat} {w : Worker}
    (hw : w.Coherent) (h : s.thread i w = some s') : s'.Coherent := by
  obtain ⟨c, frame⟩ := w
  cases frame with
  | dispatcher | left => cases h
  | drainTasks =>
    cases h
    exact setWorker_coherent hs i (Worker.idle_coherent (Worker.idle_ite _ _ rfl rfl))
  | pop =>
    cases h
    split
    · exact setWorker_coherent hs i trivial
    · exact setWorker_coherent hs i (Worker.moved_coherent nofun nofun)
  | iteration t p f => exact iterate_coherent hs hw.1 h
  | joinPool =>
    cases h
    exact setWorker_coherent hs i (Worker.idle_coherent (Worker.idle_ite _ _ rfl rfl))

theorem poll_cases {s s' : Scheduler} {i : Nat} {w : Worker} {ran : Bool}
    (h : s.poll i w ran = some s') :
    w.idle = true ∧ ∃ w', w'.idle = true ∧ s' = s.setWorker i w' := by
  obtain ⟨c, frame⟩ := w
  cases frame with
  | dispatcher =>
    cases h
    exact ⟨rfl, _, Worker.idle_ite _ _ rfl (Worker.idle_ite _ _ rfl rfl), rfl⟩
  | _ => cases h

theorem finish_cases {s s' : Scheduler} {i : Nat} {w : Worker} (h : s.finish i w = some s') :
    ∃ cur t f, w = ⟨cur, .iteration t .handler f⟩ ∧
      s' = s.setWorker i ⟨cur, .iteration t (.run .finish) f⟩ := by
  obtain ⟨c, frame⟩ := w
  cases frame with
  | iteration t p f =>
    cases p with
    | handler => exact ⟨c, t, f, rfl, (Option.some.inj h).symm⟩
    | _ => cases h
  | _ => cases h

theorem yield_cases {s s' : Scheduler} {i : Nat} {w : Worker} (h : s.yield i w = some s') :
    s' = s ∨ ∃ u t f, w = ⟨some u, .iteration t .handler f⟩ ∧
      (∃ k, s.object u = some k ∧ k.kind = .coroutine) ∧
        s' = s.setWorker i ⟨some u, .iteration t (.run .yieldTest) f⟩ := by
  obtain ⟨c, frame⟩ := w
  cases frame with
  | iteration t p f =>
    cases p with
    | handler =>
      cases c with
      | none => cases h
      | some u =>
        obtain ⟨k, hk, rfl⟩ := Option.map_eq_some_iff.mp h
        cases hkind : k.kind with
        | task => exact .inl rfl
        | coroutine => exact .inr ⟨u, t, f, rfl, ⟨k, hk, hkind⟩, rfl⟩
    | _ => cases h
  | _ => cases h

end Scheduler

theorem destroy_eq (s : Scheduler) (t : Nat) (k : Task) :
    s.destroy t k = { s with
      tasks := s.tasks.set t { k with deleted := true }
      myHoldCount := if k.held then s.myHoldCount - 1 else s.myHoldCount } := by
  simp only [Scheduler.destroy]
  split <;> rfl

theorem destroy_tasks (s : Scheduler) (t : Nat) (k : Task) :
    (s.destroy t k).tasks = s.tasks.set t { k with deleted := true } := by rw [destroy_eq]

theorem destroy_workers (s : Scheduler) (t : Nat) (k : Task) : (s.destroy t k).workers = s.workers := by
  rw [destroy_eq]

theorem schedule_eq (s : Scheduler) (kind : Kind) (hold delayed : Bool) :
    s.schedule kind hold delayed = { s with
      tasks := s.tasks ++ [.new kind hold]
      timers := s.timers ++ if delayed then [s.tasks.length] else []
      entering := s.entering ++ if delayed then [] else [s.tasks.length]
      myHoldCount := if hold then s.myHoldCount + 1 else s.myHoldCount } := by
  cases hold <;> cases delayed <;> simp [Scheduler.schedule, Scheduler.construct, Scheduler.hold]

open Scheduler in
theorem step_coherent {s s' : Scheduler} (l : Label) (hs : s.Coherent)
    (h : pools.step s l = some s') : s'.Coherent := by
  cases l with
  | scheduleTask delayed | scheduleCoroutine delayed =>
    cases h
    simp only [Scheduler.scheduleTask, Scheduler.scheduleCoroutine, schedule_eq]
    exact hs
  | fire t | count t | push t | release =>
    obtain ⟨-, h⟩ := Option.ite_none_right_eq_some.mp h
    exact (Option.some.inj h) ▸ hs
  | abort t =>
    obtain ⟨k, -, rfl⟩ := Option.map_eq_some_iff.mp h
    exact hs
  | cancel t =>
    obtain ⟨k, -, h⟩ := Option.bind_eq_some_iff.mp h
    obtain ⟨-, h⟩ := Option.ite_none_right_eq_some.mp h
    exact (Option.some.inj h) ▸ hs
  | hold | pause | resume =>
    cases h
    exact hs
  | addThread =>
    cases h
    exact forall_snoc hs trivial
  | poll i ran =>
    obtain ⟨w, -, h⟩ := Option.bind_eq_some_iff.mp h
    obtain ⟨-, w', hw', rfl⟩ := poll_cases h
    exact setWorker_coherent hs i (Worker.idle_coherent hw')
  | thread i =>
    obtain ⟨w, hw, h⟩ := Option.bind_eq_some_iff.mp h
    exact thread_coherent hs (hs w (List.mem_of_getElem? hw)) h
  | yield i =>
    obtain ⟨w, hw, h⟩ := Option.bind_eq_some_iff.mp h
    rcases yield_cases h with rfl | ⟨u, t, f, rfl, hk, rfl⟩
    · exact hs
    · exact setWorker_coherent hs i ⟨fun _ => current_at hs hw rfl, nofun⟩
  | finish i =>
    obtain ⟨w, hw, h⟩ := Option.bind_eq_some_iff.mp h
    obtain ⟨cur, t, f, rfl, rfl⟩ := finish_cases h
    exact setWorker_coherent hs i ⟨fun _ => current_at hs hw rfl, nofun⟩

theorem start_coherent (myMaxThreads : Nat) : (Scheduler.start myMaxThreads).Coherent := by
  exact List.forall_mem_singleton.mpr trivial

end NexusRuntime.Tasks
