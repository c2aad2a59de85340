import Mathlib.Data.List.Basic

namespace NexusRuntime.Tasks

inductive Status where
  | inactive
  | created
  | active
  | pending
  | finished
  | aborted
  | unknown
deriving DecidableEq, Repr

inductive Kind where
  | task
  | coroutine
deriving DecidableEq, Repr

inductive Action where
  | store (status : Status)
  | start
  | cancellationHandlers
  | completionHandlers
deriving DecidableEq, Repr

structure Task where
  kind : Kind
  held : Bool
  myStatus : Status
  suspended : Bool
  aborting : Nat
  deleted : Bool
  log : List Action
deriving DecidableEq, Repr

-- one atomic step each, named after the line about to run
inductive Code where
  | testAborted
  | testInactive
  | create
  | createStore
  | testCreated
  | testPending
  | enter
  | enterStore
  | coroutine
  | coroutineStore
  | start
  | yieldTest
  | yieldStore
  | resumeStore
  | finish
  | testYielded
deriving DecidableEq, Repr

inductive Point where
  | activate
  | discount
  | reset
  | run (code : Code)
  | handler
  | push
  | recount
  | exit
  | delete (pTask : Nat)
  | deactivate
  | testPause
deriving DecidableEq, Repr

namespace Task

def new (kind : Kind) (hold : Bool) : Task where
  kind := kind
  held := hold
  myStatus := .inactive
  suspended := false
  aborting := 0
  deleted := false
  log := []

def record (k : Task) (a : Action) : Task := { k with log := k.log ++ [a] }

def store (k : Task) (status : Status) : Task :=
  { k with myStatus := status : Task }.record (.store status)

def abort (k : Task) : Task := { k.store .aborted with aborting := k.aborting + 1 }

def cancelled (k : Task) : Task :=
  { k with aborting := k.aborting - 1 : Task }.record .cancellationHandlers

def exit (k : Task) : Task := k.record .completionHandlers

def create (k : Task) : Point × Task :=
  match k.kind with
  | .task => (.run .testCreated, k.store .created)
  | .coroutine =>
    (if k.myStatus = .aborted then .run .testCreated else .run .createStore, k)

def enterStore (k : Task) : Point × Task :=
  match k.kind with
  | .task => (.run .start, k.store .active)
  | .coroutine => (if k.suspended then .run .resumeStore else .run .coroutine, k.store .active)

def proceed (k : Task) : Code → Point × Task
  -- an aborted task falls through to the end of the iteration, it is not deleted
  | .testAborted => (if k.myStatus = .aborted then .deactivate else .run .testInactive, k)
  | .testInactive => (if k.myStatus = .inactive then .run .create else .run .testCreated, k)
  | .create => k.create
  | .createStore => (.run .testCreated, k.store .created)
  | .testCreated => (if k.myStatus = .created then .run .enter else .run .testPending, k)
  | .testPending => (if k.myStatus = .pending then .run .enter else .run .testYielded, k)
  | .enter => (if k.myStatus = .aborted then .run .testYielded else .run .enterStore, k)
  | .enterStore => k.enterStore
  | .coroutine => (if k.myStatus = .aborted then .run .testYielded else .run .coroutineStore, k)
  | .coroutineStore => (.run .start, k.store .active)
  | .start => (.handler, k.record .start)
  -- yield() throws into the handler when it finds the task aborted
  | .yieldTest => (if k.myStatus = .aborted then .handler else .run .yieldStore, k)
  | .yieldStore => (.run .testYielded, { k.store .pending with suspended := true })
  | .resumeStore => (.handler, { k.store .active with suspended := false })
  | .finish => (.run .testYielded, k.store .finished)
  | .testYielded => (if k.myStatus = .pending then .push else .exit, k)

def holds (k : Task) : Bool := k.held && !k.deleted

end Task

namespace Code

-- drainTasks reads the task through the thread-specific pointer, the methods through this
def target (myCurrentTask : Option Nat) (this : Nat) : Code → Option Nat
  | .testAborted | .testInactive | .testCreated | .testPending | .testYielded => myCurrentTask
  | _ => some this

def null : Code → Option Point
  | .testInactive => some (.run .testCreated)
  | .testCreated => some (.run .testPending)
  | .testPending => some (.run .testYielded)
  | .testYielded => some .deactivate
  | _ => none

def makesCurrent : Code → Bool
  | .createStore | .enterStore | .coroutineStore | .resumeStore => true
  | _ => false

end Code

namespace Point

def current : Point → Bool
  | .run _ | .handler | .push | .exit => true
  | _ => false

def inHand : Point → Bool
  | .recount | .deactivate | .testPause => false
  | _ => true

end Point

def Action.ordinary : Action → Bool
  | .store status => status ≠ .aborted
  | .start => true
  | _ => false

namespace Task
variable (k : Task)

theorem proceed_frame (c : Code) :
    ∃ status suspended as,
      (k.proceed c).2 = { k with
        myStatus := status
        suspended := suspended
        log := k.log ++ as } ∧
      ∀ a ∈ as, a.ordinary = true := by
  have hsame : ∃ status suspended as,
      k = { k with
        myStatus := status
        suspended := suspended
        log := k.log ++ as } ∧
      ∀ a ∈ as, a.ordinary = true :=
    ⟨k.myStatus, k.suspended, [], by rw [List.append_nil], by simp⟩
  cases c with
  | create =>
    simp only [proceed, create]
    split
    · exact ⟨_, _, [.store .created], rfl, by simp [Action.ordinary]⟩
    · exact hsame
  | enterStore =>
    simp only [proceed, enterStore]
    split <;> exact ⟨_, _, [.store .active], rfl, by simp [Action.ordinary]⟩
  | createStore | coroutineStore | start | yieldStore | resumeStore | finish =>
    exact ⟨_, _, _, rfl, by simp [Action.ordinary]⟩
  | _ => exact hsame

theorem proceed_point (c : Code) :
    (k.proceed c).1.current = true ∨
      c = .testAborted ∧ k.myStatus = .aborted ∧ k.proceed c = (.deactivate, k) := by
  cases c with
  | testAborted =>
    simp only [proceed]
    split
    · next haborted => exact .inr ⟨trivial, haborted, rfl⟩
    · exact .inl rfl
  | create =>
    simp only [proceed, create]
    cases k.kind with
    | task => exact .inl rfl
    | coroutine =>
      dsimp only
      split <;> exact .inl rfl
  | enterStore =>
    simp only [proceed, enterStore]
    cases k.kind with
    | task => exact .inl rfl
    | coroutine =>
      dsimp only
      split <;> exact .inl rfl
  | testInactive | testCreated | testPending | enter | coroutine | yieldTest | testYielded =>
    simp only [proceed]
    split <;> exact .inl rfl
  | _ => exact .inl rfl

theorem proceed_keeps (c : Code) (u : Nat) : (k.proceed c).1 ≠ .delete u := by
  intro h
  rcases k.proceed_point c with hc | ⟨-, -, hp⟩
  · rw [h] at hc
    cases hc
  · rw [hp] at h
    cases h

end Task

end NexusRuntime.Tasks
