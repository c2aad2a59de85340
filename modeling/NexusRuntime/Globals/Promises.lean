import Mathlib.Logic.Function.Basic
import NexusRuntime.Transition.System

namespace NexusRuntime.Promises

open Transition

-- `instanceof Promise`, or not
inductive Value (V : Type) where
  | plain (v : V)
  | promise (p : Nat)
deriving DecidableEq, Repr

inductive Settled (V : Type) where
  | resolved (v : V)
  | rejected (error : Value V)
deriving DecidableEq, Repr

-- a call of broadcastResolve or broadcastReject
inductive Broadcast (V : Type) where
  | resolve (value : Value V)
  | reject (value : Value V)
deriving DecidableEq, Repr

inductive Completion (V : Type) where
  | returned (value : Value V)
  | threw (e : Value V)
deriving DecidableEq, Repr

-- `adoption`: resolve and reject are the bound broadcasts of the subscribed promise
inductive Handlers (H : Type) where
  | reaction (resolve reject : Option H)
  | adoption
deriving DecidableEq, Repr

structure Subscription (H : Type) where
  source : Nat
  handlers : Handlers H
  promise : Nat
deriving DecidableEq, Repr

-- the scheduled tasks, and those that are inside a call of the program's code: executing,
-- resolving, rejecting and rescuing
inductive Job (V H : Type) where
  | executor (p : Nat)
  | executing (p : Nat)
  | settle (p : Nat) (b : Broadcast V)
  | resolve (f : H) (g : Option H) (promise : Nat) (value : V)
  | resolving (f : H) (g : Option H) (promise : Nat) (value : V)
  | reject (g : H) (promise : Nat) (value : Value V)
  | rejecting (g : H) (promise : Nat) (value : Value V)
  | rescuing (g : H) (promise : Nat) (e : Value V)
deriving DecidableEq, Repr

structure Derived (H : Type) where
  source : Nat
  resolve : Option H
  reject : Option H
  promise : Nat
deriving DecidableEq, Repr

structure Call (V H : Type) where
  promise : Nat
  handler : H
  argument : Value V
  completion : Completion V
deriving DecidableEq, Repr

-- the errors that promise.js makes itself, and the values whose innerException can be set
structure Runtime (V : Type) where
  selfResolved : V
  invalidArguments : V
  assignable : V → Bool

-- promises are numbered as they are made; `none`: PENDING
structure Heap (V H : Type) where
  state : Nat → Option (Settled V)
  next : Nat
  subscribers : List (Subscription H)
  jobs : List (Job V H)
  exposed : List Nat
  constructed : List Nat
  derived : List (Derived H)
  calls : List (Call V H)
  decisions : List (Nat × Broadcast V)

inductive Label (V H : Type) where
  | construct
  | thenOn (p : Nat) (resolve reject : Option H)
  | call (p : Nat) (b : Broadcast V)
  | run (i : Nat)
  | finish (i : Nat) (o : Completion V)

namespace Value
variable {V : Type}

def known (next : Nat) : Value V → Bool
  | .plain _ => true
  | .promise p => p < next

def isPlain : Value V → Bool
  | .plain _ => true
  | .promise _ => false

def isPromise (p : Nat) : Value V → Bool
  | .plain _ => false
  | .promise r => r == p

end Value

def Broadcast.value {V : Type} : Broadcast V → Value V
  | .resolve value => value
  | .reject value => value

-- how a promise that is pending ends by it at once
def Broadcast.settled {V : Type} : Broadcast V → Option (Settled V)
  | .resolve (.plain v) => some (.resolved v)
  | .resolve (.promise _) => none
  | .reject x => some (.rejected x)

def Settled.broadcast {V : Type} : Settled V → Broadcast V
  | .resolved v => .resolve (.plain v)
  | .rejected x => .reject x

def Settled.value {V : Type} : Settled V → Value V
  | .resolved v => .plain v
  | .rejected x => x

namespace Completion
variable {V : Type}

def value : Completion V → Value V
  | .returned value => value
  | .threw e => e

def isPlain (o : Completion V) : Bool := o.value.isPlain

def settled : Completion V → Option (Settled V)
  | .returned (.plain v) => some (.resolved v)
  | .returned (.promise _) => none
  | .threw e => some (.rejected e)

end Completion

namespace Handlers
variable {H : Type}

def hasResolve : Handlers H → Bool
  | .reaction f _ => f.isSome
  | .adoption => true

def hasReject : Handlers H → Bool
  | .reaction _ g => g.isSome
  | .adoption => true

end Handlers

namespace Subscription
variable {V H : Type}

-- the task of an adoption broadcasts once more, to a promise that is settled by then
def onResolve (v : V) (u : Subscription H) : Option (Job V H) :=
  match u.handlers with
  | .reaction (some f) g => some (.resolve f g u.promise v)
  | .reaction none _ => none
  | .adoption => some (.settle u.promise (.resolve (.plain v)))

def onReject (x : Value V) (u : Subscription H) : Option (Job V H) :=
  match u.handlers with
  | .reaction _ (some g) => some (.reject g u.promise x)
  | .reaction _ none => none
  | .adoption => some (.settle u.promise (.reject x))

end Subscription

namespace Heap
variable {V H : Type}

def start : Heap V H := ⟨fun _ => none, 0, [], [], [], [], [], [], []⟩

def subscribersOf (s : Heap V H) (p : Nat) : List (Subscription H) :=
  s.subscribers.filter fun u => u.source == p

def schedule (s : Heap V H) (js : List (Job V H)) : Heap V H := { s with jobs := s.jobs ++ js }

def notifications (s : Heap V H) (p : Nat) : Settled V → List (Job V H)
  | .resolved v => (s.subscribersOf p).filterMap (Subscription.onResolve v)
  | .rejected x =>
    let rejections := (s.subscribersOf p).filter fun u => u.handlers.hasReject
    let resolves := (s.subscribersOf p).filter fun u => u.handlers.hasResolve
    if rejections.isEmpty then resolves.map fun u => .settle u.promise (.reject x)
    else rejections.filterMap (Subscription.onReject x)

def settle (s : Heap V H) (p : Nat) (st : Settled V) : Heap V H :=
  { s with state := Function.update s.state p (some st) }.schedule (s.notifications p st)

def broadcastResolve (s : Heap V H) (p : Nat) (value : Value V) : Heap V H :=
  -- a promise that is resolved with itself throws, and stays as it is
  if value.isPromise p then s
  else if (s.state p).isSome then s
  else
    match value with
    | .promise r =>
      match s.state r with
      | some (.resolved v) => s.schedule [.settle p (.resolve (.plain v))]
      | some (.rejected x) => s.schedule [.settle p (.reject x)]
      | none => { s with subscribers := s.subscribers ++ [⟨r, .adoption, p⟩] }
    | .plain v => s.settle p (.resolved v)

def broadcastReject (s : Heap V H) (p : Nat) (value : Value V) : Heap V H :=
  if (s.state p).isSome then s else s.settle p (.rejected value)

def broadcast (s : Heap V H) (p : Nat) : Broadcast V → Heap V H
  | .resolve value => s.broadcastResolve p value
  | .reject value => s.broadcastReject p value

end Heap

-- how a task goes on: with a broadcast, inside a call of the program's code, or to its end
inductive Next (V H : Type) where
  | broadcast (p : Nat) (b : Broadcast V)
  | job (j : Job V H)
  | nothing
deriving DecidableEq, Repr

def Runtime.canAssign {V : Type} (R : Runtime V) : Value V → Bool
  | .plain v => R.assignable v
  | .promise _ => true

namespace Job
variable {V H : Type}

def start : Job V H → Option (Next V H)
  | .executor p => some (.job (.executing p))
  | .settle p b => some (.broadcast p b)
  | .resolve f g p v => some (.job (.resolving f g p v))
  | .reject g p x => some (.job (.rejecting g p x))
  | _ => none

-- the catch block of a resolution
def rescue (g : Option H) (p : Nat) (e : Value V) : Next V H :=
  match g with
  | some g => .job (.rescuing g p e)
  | none => .broadcast p (.reject e)

def finish (R : Runtime V) : Job V H → Completion V → Option (Next V H)
  | .executing _, .returned _ => some .nothing
  | .executing p, .threw e => some (.broadcast p (.reject e))
  | .resolving _ g p _, .returned value =>
    some (if value.isPromise p then rescue g p (.plain R.selfResolved) else .broadcast p (.resolve value))
  | .resolving _ g p _, .threw e => some (rescue g p e)
  | .rejecting _ p _, .returned value =>
    some (.broadcast p (if value.isPromise p then .reject (.plain R.selfResolved) else .resolve value))
  -- innerException is set in strict mode
  | .rejecting _ p _, .threw e => some (if R.canAssign e then .broadcast p (.reject e) else .nothing)
  | .rescuing _ p _, .returned value =>
    some (if value.isPromise p then .nothing else .broadcast p (.resolve value))
  | .rescuing _ _ _, .threw _ => some .nothing
  | _, _ => none

def exposes : Job V H → List Nat
  | .executor p => [p]
  | _ => []

def called (o : Completion V) : Job V H → List (Call V H)
  | .resolving f _ p v => [⟨p, f, .plain v, o⟩]
  | .rejecting g p x => [⟨p, g, x, o⟩]
  | .rescuing g p e => [⟨p, g, e, o⟩]
  | _ => []

-- an executor that throws calls the reject function of its promise
def decides (o : Completion V) : Job V H → List (Nat × Broadcast V)
  | .executing p =>
    match o with
    | .returned _ => []
    | .threw e => [(p, .reject e)]
  | _ => []

end Job

namespace Heap
variable {V H : Type} (R : Runtime V)

def proceed (s : Heap V H) : Next V H → Heap V H
  | .broadcast p b => s.broadcast p b
  | .job j => s.schedule [j]
  | .nothing => s

def subscribe (s : Heap V H) (p : Nat) (resolve reject : Option H) : Heap V H :=
  { s with subscribers := s.subscribers ++ [⟨p, .reaction resolve reject, s.next⟩], next := s.next + 1 }

-- Promise.resolve(v) and Promise.reject(v)
def constructSettled (s : Heap V H) (b : Broadcast V) : Heap V H :=
  { s with next := s.next + 1 }.schedule [.settle s.next b]

-- and the promise that it returns
def thenOn (s : Heap V H) (p : Nat) (resolve reject : Option H) : Heap V H × Nat :=
  match s.state p, resolve, reject with
  | some (.resolved v), some f, _ =>
    ((s.constructSettled (.resolve (.plain v))).subscribe s.next (some f) none, s.next + 1)
  | some (.rejected x), _, some g =>
    ((s.constructSettled (.reject x)).subscribe s.next (some g) none, s.next + 1)
  | _, none, none => (s.constructSettled (.reject (.plain R.invalidArguments)), s.next)
  | _, _, _ => (s.subscribe p resolve reject, s.next)

def construct (s : Heap V H) : Heap V H :=
  { s with next := s.next + 1, constructed := s.constructed ++ [s.next] }.schedule [.executor s.next]

-- a task goes on: what it exposes, and the calls and the decisions that it makes
def leave (s : Heap V H) (i : Nat) (exposed : List Nat) (calls : List (Call V H))
    (decisions : List (Nat × Broadcast V)) : Heap V H :=
  { s with
    jobs := s.jobs.eraseIdx i
    exposed := s.exposed ++ exposed
    calls := s.calls ++ calls
    decisions := s.decisions ++ decisions }

def step (s : Heap V H) : Label V H → Option (Heap V H)
  | .construct => some s.construct
  | .thenOn p f g =>
    if p < s.next then
      let (t, q) := s.thenOn R p f g
      some { t with derived := t.derived ++ [⟨p, f, g, q⟩] }
    else none
  | .call p b =>
    if p ∈ s.exposed ∧ b.value.known s.next then
      some ({ s with decisions := s.decisions ++ [(p, b)] }.broadcast p b)
    else none
  | .run i =>
    (s.jobs[i]?).bind fun j => j.start.map fun n => (s.leave i j.exposes [] []).proceed n
  | .finish i o =>
    if o.value.known s.next then
      (s.jobs[i]?).bind fun j => (j.finish R o).map fun n =>
        (s.leave i [] (j.called o) (j.decides o)).proceed n
    else none

def system : System (Heap V H) (Label V H) := ⟨step R⟩

end Heap

namespace Settled
variable {V : Type}

@[simp] theorem broadcast_settled (st : Settled V) : st.broadcast.settled = some st := by
  cases st <;> rfl

end Settled

namespace Heap
variable {V H : Type} {s : Heap V H} {p : Nat}

-- all that a broadcast can do
inductive Effect (s : Heap V H) (p : Nat) (b : Broadcast V) : Heap V H → Prop
  | same (h : s.state p ≠ none ∨ b = .resolve (.promise p)) : Effect s p b s
  | settle (st : Settled V) (hp : s.state p = none) (hb : b.settled = some st) :
      Effect s p b (s.settle p st)
  | follow (r : Nat) (st : Settled V) (hp : s.state p = none) (hb : b = .resolve (.promise r))
      (hne : r ≠ p) (hr : s.state r = some st) : Effect s p b (s.schedule [.settle p st.broadcast])
  | adopt (r : Nat) (hp : s.state p = none) (hb : b = .resolve (.promise r)) (hne : r ≠ p)
      (hr : s.state r = none) :
      Effect s p b { s with subscribers := s.subscribers ++ [⟨r, .adoption, p⟩] }

theorem broadcast_effect (s : Heap V H) (p : Nat) (b : Broadcast V) : Effect s p b (s.broadcast p b) := by
  cases hp : s.state p with
  | some st =>
    have hsame : s.broadcast p b = s := by
      cases b with
      | resolve value =>
        show (if value.isPromise p then s else if (s.state p).isSome then s else _) = s
        rw [hp]
        split <;> rfl
      | reject x =>
        rw [broadcast, broadcastReject, hp]
        rfl
    rw [hsame]
    refine .same (.inl ?_)
    rw [hp]
    exact Option.some_ne_none st
  | none =>
    cases b with
    | reject x =>
      rw [broadcast, broadcastReject, hp]
      exact .settle (.rejected x) hp rfl
    | resolve value =>
      cases value with
      | plain v =>
        have hsettle : s.broadcast p (.resolve (.plain v)) = s.settle p (.resolved v) := by
          simp only [broadcast, broadcastResolve, Value.isPromise, hp, Option.isSome_none,
            Bool.false_eq_true, if_false]
        rw [hsettle]
        exact .settle (.resolved v) hp rfl
      | promise r =>
        by_cases hne : r = p
        · subst hne
          have hsame : s.broadcast r (.resolve (.promise r)) = s := by
            simp only [broadcast, broadcastResolve, Value.isPromise, beq_self_eq_true, if_true]
          rw [hsame]
          exact .same (.inr rfl)
        · have hself : (Value.promise r : Value V).isPromise p = false := beq_eq_false_iff_ne.mpr hne
          cases hr : s.state r with
          | none =>
            have hadopt : s.broadcast p (.resolve (.promise r)) =
                { s with subscribers := s.subscribers ++ [⟨r, .adoption, p⟩] } := by
              simp only [broadcast, broadcastResolve, hself, hp, hr, Option.isSome_none,
                Bool.false_eq_true, if_false]
            rw [hadopt]
            exact .adopt r hp rfl hne hr
          | some st =>
            have hfollow : s.broadcast p (.resolve (.promise r)) =
                s.schedule [.settle p st.broadcast] := by
              cases st <;> simp only [broadcast, broadcastResolve, hself, hp, hr, Option.isSome_none,
                Bool.false_eq_true, if_false, Settled.broadcast]
            rw [hfollow]
            exact .follow r st hp rfl hne hr

end Heap
end NexusRuntime.Promises
