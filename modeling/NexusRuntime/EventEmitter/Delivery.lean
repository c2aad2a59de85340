import NexusRuntime.EventEmitter.Budget
import NexusRuntime.Transition.System

namespace NexusRuntime.EventEmitter

variable {H A : Type}

def Listener.event (e : String) (l : Listener H) : Event H :=
  ⟨l.id, e, l.handler, l.remaining.elim (-1) fun n => (n : Int)⟩

def Op.counted : Op H A → Bool
  | .many _ _ n => decide (1 ≤ n)
  | _ => true

def Emitter.calls (em : Emitter H) (e : String) (args : List A) : List (Call H A) :=
  (em.listeners e).map fun i => ⟨i.id, i.handler, args⟩

variable [DecidableEq H]

def Emitter.apply (em : Emitter H) : Op H A → Option (Emitter H) × List (Delivery H A)
  | .on e h => (some (em.addListener e h), [])
  | .once e h => (some (em.addOnceListener e h), [])
  | .many e h n => (some (em.addManyListener e h n), [])
  | .off e h => (some (em.removeListener e h), [])
  | .allOff e => (some (em.removeAllListeners e), [])
  | .emit e args => em.emit e args
  | .emitFast e args => em.emitFast e args
  | .emitFastAndSchedule e args => em.emitFastAndSchedule e args

def owed (ops : List (Op H A)) (e : String) (args : List A) : List (Call H A) :=
  (due e 0 ops).map fun l => ⟨l.id, l.handler, args⟩

structure Tracks (em : Emitter H) (ops : List (Op H A)) : Prop where
  listeners : ∀ e, em.listeners e = (due e 0 ops).map (Listener.event e)
  allocated : em.allocated = registered ops

end NexusRuntime.EventEmitter
