import NexusRuntime.Scheduler.Events

namespace NexusRuntime.Tasks

open Transition Sequence

inductive Stage where
  | testFinished
  | testAborted
  | addCancellation
  | addCompletion
  | loop
  | returned
deriving DecidableEq, Repr

structure Awaiter where
  task : Nat
  stage : Stage
  onCancellation : Bool
  onCompletion : Bool
  finished : Bool
  dangling : Bool
deriving DecidableEq, Repr

structure Awaits where
  pool : Scheduler
  awaiters : List Awaiter
deriving DecidableEq, Repr

inductive AwaitLabel where
  | pool (l : Label)
  | await (t : Nat)
  | step (j : Nat)
deriving DecidableEq, Repr

namespace Awaiter

def new (t : Nat) : Awaiter where
  task := t
  stage := .testFinished
  onCancellation := false
  onCompletion := false
  finished := false
  dangling := false

def heard (a : Awaiter) (s : Scheduler) (l : Label) : Bool :=
  a.onCompletion && decide (s.completes l = some a.task) ||
    a.onCancellation && decide (l.cancels = some a.task)

def notify (a : Awaiter) (s : Scheduler) (l : Label) : Awaiter :=
  { a with finished := a.finished || a.heard s l }

def reads (a : Awaiter) : Bool :=
  match a.stage with
  | .testFinished | .testAborted | .addCancellation | .addCompletion => true
  | .loop | .returned => false

def use (a : Awaiter) (k : Task) : Awaiter :=
  match a.stage with
  | .testFinished => { a with stage := if k.myStatus = .finished then .returned else .testAborted }
  | .testAborted => { a with stage := if k.myStatus = .aborted then .returned else .addCancellation }
  | .addCancellation => { a with onCancellation := true, stage := .addCompletion }
  | .addCompletion => { a with onCompletion := true, stage := .loop }
  | .loop | .returned => a

def advance (a : Awaiter) (s : Scheduler) : Awaiter :=
  if a.reads then
    match s.object a.task with
    | some k => a.use k
    -- the task is read or written after its deletion, nothing is known of the call from here on
    | none => { a with dangling := true, stage := .returned }
  else if a.stage = .loop ∧ a.finished = true then { a with stage := .returned }
  else a

end Awaiter

namespace Awaits

def start (myMaxThreads : Nat) : Awaits := ⟨.start myMaxThreads, []⟩

def step (s : Awaits) : AwaitLabel → Option Awaits
  | .pool l => (pools.step s.pool l).map fun pool =>
    ⟨pool, s.awaiters.map fun a => a.notify s.pool l⟩
  | .await t => (s.pool.tasks[t]?).bind fun k =>
    if k.kind = .task then some { s with awaiters := s.awaiters ++ [.new t] } else none
  | .step j => (s.awaiters[j]?).map fun a =>
    { s with awaiters := s.awaiters.set j (a.advance s.pool) }

end Awaits

def awaits : System Awaits AwaitLabel := ⟨Awaits.step⟩

def Scheduler.pastExit (s : Scheduler) (t : Nat) : Prop :=
  ∃ k ∈ s.tasks[t]?, .completionHandlers ∈ k.log

namespace Awaits

structure Woken (s : Awaits) : Prop where
  wakeup : ∀ a ∈ s.awaiters, a.stage = .loop → s.pool.pastExit a.task → a.finished = true
  alive : ∀ a ∈ s.awaiters, a.dangling = false

structure Inv (s : Awaits) : Prop extends Woken s where
  coherent : s.pool.Coherent
  registered : ∀ a ∈ s.awaiters, a.stage = .loop → a.onCompletion = true
  known : ∀ a ∈ s.awaiters, a.task < s.pool.tasks.length

end Awaits

namespace Scheduler

theorem moves_completed {s s' : Scheduler} {l : Label} (h : s.Moves l s') {t : Nat}
    (ht : t < s.tasks.length) (hp : s'.pastExit t) : s.completes l = some t ∨ s.pastExit t := by
  obtain ⟨k', as, hk', hlog, hadds⟩ := moves_task h (List.getElem?_eq_getElem ht)
  obtain ⟨k'', hk'', hin⟩ := hp
  cases hk'.symm.trans hk''
  rw [hlog] at hin
  rcases List.mem_append.mp hin with hin | hin
  · exact .inr ⟨_, List.getElem?_eq_getElem ht, hin⟩
  · exact .inl (hadds.completion.mp hin)

end Scheduler

namespace Awaiter

@[simp] theorem notify_task (a : Awaiter) (s : Scheduler) (l : Label) : (a.notify s l).task = a.task := rfl

@[simp] theorem notify_stage (a : Awaiter) (s : Scheduler) (l : Label) :
    (a.notify s l).stage = a.stage := rfl

end Awaiter

namespace Awaits

theorem pool_inv {s : Awaits} (hs : s.Inv) {l : Label} {pool : Scheduler}
    (h : pools.step s.pool l = some pool) :
    Inv ⟨pool, s.awaiters.map fun a => a.notify s.pool l⟩ := by
  have hm := Scheduler.step_moves hs.coherent h
  refine ⟨⟨fun b hb hloop hp => ?_, fun b hb => ?_⟩, step_coherent l hs.coherent h,
    fun b hb hloop => ?_, fun b hb => ?_⟩
  · obtain ⟨a, ha, rfl⟩ := List.mem_map.mp hb
    rw [Awaiter.notify_task] at hp
    rcases Scheduler.moves_completed hm (hs.known a ha) hp with hnew | hold
    · have hheard : a.heard s.pool l = true := by
        simp [Awaiter.heard, hs.registered a ha hloop, hnew]
      simp only [Awaiter.notify, hheard, Bool.or_true]
    · simp only [Awaiter.notify, hs.wakeup a ha hloop hold, Bool.true_or]
  · obtain ⟨a, ha, rfl⟩ := List.mem_map.mp hb
    exact hs.alive a ha
  · obtain ⟨a, ha, rfl⟩ := List.mem_map.mp hb
    exact hs.registered a ha hloop
  · obtain ⟨a, ha, rfl⟩ := List.mem_map.mp hb
    exact Nat.lt_of_lt_of_le (hs.known a ha) (Scheduler.moves_length hm)

end Awaits

end NexusRuntime.Tasks
