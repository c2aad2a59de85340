import NexusRuntime.Scheduler.Accounts

namespace NexusRuntime.Tasks

open Transition Sequence

inductive BalancePoint where
  | testCount
  | testSize
  | addThread
  | returned
deriving DecidableEq, Repr

structure Call where
  task : Nat
  point : BalancePoint
  started : Bool
deriving DecidableEq, Repr

-- calls: the calls of scheduleAbstractTask that have pushed their task, each in balanceThreads
structure Balancer where
  pool : Scheduler
  calls : List Call
deriving DecidableEq, Repr

inductive BalanceLabel where
  | pool (l : Label)
  | push (t : Nat)
  | balance (j : Nat)
deriving DecidableEq, Repr

def Label.balances : Label → Bool
  | .push _ | .addThread => true
  | _ => false

namespace Worker

def gone (w : Worker) : Bool := decide (w.frame = .left)

end Worker

namespace Scheduler

def myThreadGroup (s : Scheduler) : List Worker := s.workers.tail

def left (s : Scheduler) : Nat := s.myThreadGroup.countP Worker.gone

def running (s : Scheduler) : Nat := s.myThreadGroup.countP fun w => !w.gone

end Scheduler

namespace Balancer

def start (myMaxThreads : Nat) : Balancer := ⟨.start myMaxThreads, []⟩

def full (s : Balancer) : Prop := s.pool.myMaxThreads ≤ s.pool.myThreadGroup.length

instance decidableFull (s : Balancer) : Decidable s.full := Nat.decLe _ _

def balance (s : Balancer) (j : Nat) (c : Call) : Option Balancer :=
  match c.point with
  | .testCount => some { s with
      calls := s.calls.set j { c with
        point := if s.pool.myTaskCount ≠ 0 then .testSize else .returned } }
  | .testSize => some { s with
      calls := s.calls.set j { c with point := if s.full then .returned else .addThread } }
  | .addThread => (machine.step s.pool .addThread).map fun pool =>
    { pool, calls := s.calls.set j { c with point := .testCount, started := true } }
  | .returned => none

def step (s : Balancer) : BalanceLabel → Option Balancer
  | .pool l => if l.balances then none else (machine.step s.pool l).map fun pool => { s with pool }
  | .push t => (machine.step s.pool (.push t)).map fun pool =>
    { pool, calls := s.calls ++ [⟨t, .testCount, false⟩] }
  | .balance j => (s.calls[j]?).bind fun c => s.balance j c

def returns (s : Balancer) (c : Call) : Prop :=
  c.point = .testCount ∧ s.pool.myTaskCount = 0 ∨ c.point = .testSize ∧ s.full

def grows (s : Balancer) : BalanceLabel → Prop
  | .balance j => ∀ c ∈ s.calls[j]?, s.returns c → s.pool.myTaskQueue ≠ [] →
      s.pool.myMaxThreads ≤ s.pool.running ∨ c.started = true
  | _ => True

def whole (s : Balancer) : BalanceLabel → Prop
  | .balance j => ∀ c ∈ s.calls[j]?, c.started = false →
      (c.point = .testCount → s.pool.myTaskCount = 0 → s.pool.requeued = 0) ∧
      (c.point = .testSize → s.full →
        s.pool.left ≤ s.pool.myThreadGroup.length - s.pool.myMaxThreads)
  | _ => True

instance decidableWhole (s : Balancer) : (l : BalanceLabel) → Decidable (s.whole l)
  | .balance j => inferInstanceAs (Decidable (∀ c ∈ s.calls[j]?, c.started = false →
      (c.point = .testCount → s.pool.myTaskCount = 0 → s.pool.requeued = 0) ∧
      (c.point = .testSize → s.full →
        s.pool.left ≤ s.pool.myThreadGroup.length - s.pool.myMaxThreads)))
  | .pool _ | .push _ => .isTrue trivial

structure Inv (s : Balancer) : Prop where
  sized : s.pool.Sized
  tallies : s.pool.Tallies

end Balancer

namespace Balancer

end Balancer

end NexusRuntime.Tasks
