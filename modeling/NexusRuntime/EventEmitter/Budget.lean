import NexusRuntime.EventEmitter.Listeners

namespace NexusRuntime.EventEmitter

variable {H A : Type}

inductive Op (H A : Type) where
  | on (e : String) (h : H)
  | once (e : String) (h : H)
  | many (e : String) (h : H) (count : Int)
  | off (e : String) (h : H)
  | allOff (e : String)
  | emit (e : String) (args : List A)
  | emitFast (e : String) (args : List A)
  | emitFastAndSchedule (e : String) (args : List A)
deriving DecidableEq, Repr

structure Listener (H : Type) where
  id : Nat
  handler : H
  remaining : Option Nat
deriving DecidableEq, Repr

def Op.registers : Op H A → Option (String × H × Option Nat)
  | .on e h => some (e, h, none)
  | .once e h => some (e, h, some 1)
  | .many e h n => some (e, h, some n.toNat)
  | _ => none

def Op.removes [DecidableEq H] (e : String) (h : H) : Op H A → Bool
  | .off f g => f == e && g == h
  | .allOff f => f == e
  | _ => false

def Op.emission : Op H A → Option (String × List A)
  | .emit e args => some (e, args)
  | .emitFast e args => some (e, args)
  | .emitFastAndSchedule e args => some (e, args)
  | _ => none

def Op.emits (e : String) (op : Op H A) : Bool := op.emission.any fun p => p.1 == e

def Op.registration (e : String) (k : Nat) (op : Op H A) : Option (Listener H) :=
  match op.registers with
  | some (f, h, budget) => if f = e then some ⟨k, h, budget⟩ else none
  | none => none

def registered (ops : List (Op H A)) : Nat := ops.countP fun op => op.registers.isSome

variable [DecidableEq H]

def Listener.after (e : String) (l : Listener H) (rest : List (Op H A)) : Option (Listener H) :=
  if rest.any (Op.removes e l.handler) then none
  else match l.remaining with
    | none => some l
    | some n =>
      if rest.countP (Op.emits e) < n then some { l with remaining := some (n - rest.countP (Op.emits e)) }
      else none

def due (e : String) : Nat → List (Op H A) → List (Listener H)
  | _, [] => []
  | k, op :: rest =>
    ((op.registration e k).bind fun l => l.after e rest).toList ++
      due e (if op.registers.isSome then k + 1 else k) rest

end NexusRuntime.EventEmitter
