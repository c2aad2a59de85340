import NexusRuntime.Globals.Promise
import NexusRuntime.Http.Request

namespace NexusRuntime.HttpRequest

open Globals Wire

variable {P : Type}

-- the handler calls that one event of the connection makes
def headerCalls (X : Parser P) (r : Request P) : List Settlement :=
  if !r.myHeaderParsedFlag && X.isHeaderDone r.myParser then
    if (X.get r.myParser).keepAlive && !r.isOpen then [.reject .badDescriptor] else [.resolve]
  else []

def bodyCalls (X : Parser P) (r : Request P) (exp : Option ErrorCode) : List Settlement :=
  if X.isDone r.myParser then [] else (exp.map Settlement.reject).toList

def dataCalls (X : Parser P) (r : Request P) (bytes : Octets) (exp : Option ErrorCode) : List Settlement :=
  let parsed := X.put r.myParser bytes
  let r := { r with myParser := parsed.1 }
  match r.myHeaderParsedFlag, parsed.2.2 with
  | false, some .operationCanceled => [.resolve]
  | false, some ec => [.reject ec]
  | _, _ => headerCalls X r ++ bodyCalls X r exp

def eventCalls (X : Parser P) (r : Request P) : Event → List Settlement
  | .data bytes exp => dataCalls X r bytes exp
  | .error ec => if r.errorListener then [.reject ec] else []

def attachCalls (X : Parser P) : Request P → List Event → List Settlement
  | _, [] => []
  | r, e :: es => eventCalls X r e ++ attachCalls X (on X r e) es

-- the value is the request itself, or the error
def Settlement.settled : Settlement → Settled (Option ErrorCode)
  | .resolve => .resolved none
  | .reject ec => .rejected (some ec)

-- what `attach` passes to createPromise: it only registers the listeners
def attachExecutor (X : Parser P) (continuation : Bool) (events : List Event) :
    Executor (Option ErrorCode) :=
  ⟨[], none, (attachCalls X (attach X continuation) events).map fun s => ⟨s.settled, false⟩⟩

theorem onHeader_promise (X : Parser P) (r : Request P) :
    (onHeader X r).promise = r.promise.or
      (if (X.get r.myParser).keepAlive && !r.isOpen then [.reject .badDescriptor]
        else [.resolve] : List Settlement).head? := by
  simp only [onHeader]
  split <;> rfl

theorem onHeader_unchanged (X : Parser P) (r : Request P) : (onHeader X r).myParser = r.myParser := by
  simp only [onHeader]
  split <;> rfl

theorem onParsed_promise (X : Parser P) (r : Request P) (bytes : Octets) (exp : Option ErrorCode) :
    (onParsed X r bytes exp).promise = r.promise.or (headerCalls X r ++ bodyCalls X r exp).head? := by
  simp only [onParsed, headerCalls, bodyCalls]
  cases hheader : !r.myHeaderParsedFlag && X.isHeaderDone r.myParser with
  | false =>
    cases hdone : X.isDone r.myParser with
    | true => simp [Request.emit, hdone]
    | false => cases exp <;> simp [Request.emit, Request.settle, hdone]
  | true =>
    have hpromise := onHeader_promise X r
    cases hdone : X.isDone r.myParser with
    | true => simp [Request.emit, onHeader_unchanged, hdone, hpromise]
    | false =>
      cases exp with
      | none => simp [Request.emit, onHeader_unchanged, hdone, hpromise]
      | some e =>
        simp only [onHeader_unchanged, hdone, if_true, Bool.false_eq_true, if_false, Request.emit,
          Request.settle, hpromise]
        split <;> simp

theorem data_promise (X : Parser P) (r : Request P) (bytes : Octets) (exp : Option ErrorCode) :
    (onData X r bytes exp).promise = r.promise.or (dataCalls X r bytes exp).head? := by
  have hparsed := onParsed_promise X { r with myParser := (X.put r.myParser bytes).1 } bytes exp
  obtain ⟨parser, flag, isOpen, keepAlive, responseKeepAlive, version, listener, props, promise, emitted⟩ := r
  simp only [onData, dataCalls]
  generalize (X.put parser bytes).2.2 = ec
  cases flag with
  | true => exact hparsed
  | false =>
    cases ec with
    | none => exact hparsed
    | some ec => cases ec <;> exact rfl

theorem event_promise (X : Parser P) (r : Request P) (e : Event) :
    (on X r e).promise = r.promise.or (eventCalls X r e).head? := by
  cases e with
  | data bytes exp => exact data_promise X r bytes exp
  | error ec =>
    simp only [on, eventCalls]
    split <;> simp [Request.settle, Request.emit]

theorem events_promise (X : Parser P) (r : Request P) (es : List Event) :
    (es.foldl (on X) r).promise = r.promise.or (attachCalls X r es).head? := by
  induction es generalizing r with
  | nil => simp [attachCalls]
  | cons e es ih =>
    rw [List.foldl_cons, ih, event_promise, attachCalls, Option.or_assoc, List.head?_append]

theorem attach_promise (X : Parser P) (continuation : Bool) (n : Option ErrorCode)
    (events : List Event) :
    (createPromise n (some (attachExecutor X continuation events))).promise =
      ((events.foldl (on X) (attach X continuation)).promise).map Settlement.settled := by
  rw [createPromise_promise, events_promise]
  simp [attachExecutor, Executor.settles, attach, Function.comp_def]

theorem attach_balanced_iff (X : Parser P) (continuation : Bool) (n : Option ErrorCode)
    (events : List Event) :
    NeverOutnumbered (createPromise n (some (attachExecutor X continuation events))).calls ↔
      (attachCalls X (attach X continuation) events).length ≤ 1 := by
  rw [createPromise_calls, neverOutnumbered_iff]
  simp [attachExecutor, Executor.settles]

-- a head that comes in two pieces is rejected first and resolved then
example : attachCalls referenceParser (attach referenceParser false)
    [.data (getRequest.take 10) none, .data getRequest none] = [.reject .needMore, .resolve] := by
  decide

end NexusRuntime.HttpRequest
