import Mathlib.Data.List.Infix
import NexusRuntime.Wire.Message

namespace NexusRuntime.HttpRequest

open Wire

variable {P : Type}

inductive ErrorCode where
  | needMore
  | operationCanceled
  | badDescriptor
  | other (value : Nat)
deriving DecidableEq, Repr

structure Message where
  method : Octets
  version : Nat
  target : Octets
  fields : List Field
  keepAlive : Bool
deriving DecidableEq, Repr

structure Parser (P : Type) where
  init : Bool → P
  put : P → Octets → P × Nat × Option ErrorCode
  isHeaderDone : P → Bool
  isDone : P → Bool
  get : P → Message
  verbName : Octets → Octets
  fieldName : Octets → Octets

structure Properties where
  method : Octets
  version : Octets
  url : Octets
  headers : List Field
deriving DecidableEq, Repr

inductive Settlement where
  | resolve
  | reject (ec : ErrorCode)
deriving DecidableEq, Repr

inductive Emitted where
  | data (bytes : Octets)
  | end
  | error (ec : ErrorCode)
deriving DecidableEq, Repr

structure Request (P : Type) where
  myParser : P
  myHeaderParsedFlag : Bool
  isOpen : Bool
  keepAlive : Bool
  responseKeepAlive : Bool
  responseVersion : Nat
  errorListener : Bool
  properties : Option Properties
  promise : Option Settlement
  emitted : List Emitted

inductive Event where
  | data (bytes : Octets) (exp : Option ErrorCode)
  | error (ec : ErrorCode)

def attach (X : Parser P) (continuation : Bool) : Request P where
  myParser := X.init continuation
  myHeaderParsedFlag := false
  isOpen := true
  keepAlive := false
  responseKeepAlive := continuation
  responseVersion := 11
  errorListener := true
  properties := none
  promise := none
  emitted := []

namespace Request

def settle (r : Request P) (s : Settlement) : Request P :=
  { r with promise := r.promise.or (some s) }

def emit (r : Request P) (e : Emitted) : Request P := { r with emitted := r.emitted ++ [e] }

end Request

def properties (X : Parser P) (m : Message) : Properties where
  method := X.verbName m.method
  version := decimal.encode (m.version / 10) ++ ([46] ++ decimal.encode (m.version % 10))
  url := m.target
  headers := m.fields.map fun f => ⟨X.fieldName f.name, f.value⟩

def onHeader (X : Parser P) (r : Request P) : Request P :=
  let m := X.get r.myParser
  let r := { r with myHeaderParsedFlag := true, keepAlive := m.keepAlive }
  -- set_option(keep_alive) throws on a closed socket
  if m.keepAlive && !r.isOpen then r.settle (.reject .badDescriptor)
  else { r with
    responseKeepAlive := r.responseKeepAlive || m.keepAlive
    responseVersion := m.version
    properties := some (properties X m) : Request P }.settle .resolve

def onParsed (X : Parser P) (r : Request P) (bytes : Octets) (exp : Option ErrorCode) : Request P :=
  let r := if !r.myHeaderParsedFlag && X.isHeaderDone r.myParser then onHeader X r else r
  if X.isDone r.myParser then r.emit .end
  else match exp with
    | some e => (r.emit (.data bytes)).settle (.reject e)
    | none => r.emit (.data bytes)

def onData (X : Parser P) (r : Request P) (bytes : Octets) (exp : Option ErrorCode) : Request P :=
  let parsed := X.put r.myParser bytes
  let r := { r with myParser := parsed.1 }
  match r.myHeaderParsedFlag, parsed.2.2 with
  | false, some .operationCanceled => r.settle .resolve
  | false, some ec => r.settle (.reject ec)
  | _, _ => onParsed X r bytes exp

def on (X : Parser P) (r : Request P) : Event → Request P
  | .data bytes exp => onData X r bytes exp
  | .error ec =>
    if r.errorListener then
      ({ r with errorListener := false : Request P }.emit (.error ec)).settle (.reject ec)
    else r

def received (X : Parser P) (continuation : Bool) (chunks : List (Octets × Option ErrorCode)) :
    Request P :=
  (chunks.map fun c => Event.data c.1 c.2).foldl (on X) (attach X continuation)

def SameAsWhole (X : Parser P) (continuation : Bool) (chunks : List (Octets × Option ErrorCode)) :
    Prop :=
  (received X continuation chunks).promise = some .resolve ∧
    (received X continuation chunks).properties =
      (received X continuation [((chunks.map Prod.fst).flatten, none)]).properties

structure Parser.Documented (X : Parser P) (continuation : Bool) (request : Octets) (header : Nat)
    (m : Message) : Prop where
  positive : 0 < header
  within : header ≤ request.length
  short : ∀ xs, xs <+: request → xs ≠ [] → xs.length < header →
    (X.put (X.init continuation) xs).2.2 = some .needMore
  full : ∀ xs, xs <+: request → header ≤ xs.length →
    (X.put (X.init continuation) xs).2.2 = none ∧
      X.isHeaderDone (X.put (X.init continuation) xs).1 = true ∧
      X.get (X.put (X.init continuation) xs).1 = m

theorem onParsed_settled (X : Parser P) {r : Request P} {s : Settlement} (hr : r.promise = some s)
    (bytes : Octets) (exp : Option ErrorCode) : (onParsed X r bytes exp).promise = some s := by
  simp only [onParsed, onHeader, Request.emit, Request.settle]
  cases exp <;> (repeat' split) <;> simp [hr]

theorem on_settled (X : Parser P) {r : Request P} {s : Settlement} (hr : r.promise = some s)
    (e : Event) : (on X r e).promise = some s := by
  cases e with
  | data bytes exp =>
    simp only [on, onData]
    split
    · simp [Request.settle, hr]
    · simp [Request.settle, hr]
    · refine onParsed_settled X ?_ bytes exp
      exact hr
  | error ec =>
    simp only [on]
    split
    · simp [Request.settle, Request.emit, hr]
    · exact hr

theorem foldl_settled (X : Parser P) {r : Request P} {s : Settlement} (hr : r.promise = some s)
    (es : List Event) : (es.foldl (on X) r).promise = some s := by
  induction es generalizing r with
  | nil => exact hr
  | cons e es ih => exact ih (on_settled X hr e)

theorem onParsed_parsed (X : Parser P) {r : Request P} (hr : r.myHeaderParsedFlag = true)
    (bytes : Octets) (exp : Option ErrorCode) :
    (onParsed X r bytes exp).myHeaderParsedFlag = true ∧
      (onParsed X r bytes exp).properties = r.properties := by
  simp only [onParsed, hr, Bool.not_true, Bool.false_and, Bool.false_eq_true, if_false]
  split
  · exact ⟨hr, rfl⟩
  · cases exp <;> exact ⟨hr, rfl⟩

theorem on_parsed (X : Parser P) {r : Request P} (hr : r.myHeaderParsedFlag = true) (e : Event) :
    (on X r e).myHeaderParsedFlag = true ∧ (on X r e).properties = r.properties := by
  cases e with
  | data bytes exp =>
    simp only [on, onData]
    split
    · rename_i hf _
      simp [hr] at hf
    · rename_i hf _
      simp [hr] at hf
    · exact @onParsed_parsed _ X { r with myParser := (X.put r.myParser bytes).1 } hr bytes exp
  | error ec =>
    simp only [on]
    split
    · exact ⟨hr, rfl⟩
    · exact ⟨hr, rfl⟩

theorem foldl_parsed (X : Parser P) {r : Request P} (hr : r.myHeaderParsedFlag = true)
    (es : List Event) : (es.foldl (on X) r).properties = r.properties := by
  induction es generalizing r with
  | nil => rfl
  | cons e es ih =>
    obtain ⟨hf, hp⟩ := on_parsed X hr e
    rw [List.foldl_cons, ih hf, hp]

theorem first_short {X : Parser P} {continuation : Bool} {request : Octets} {header : Nat}
    {m : Message} (hX : X.Documented continuation request header m) {xs : Octets}
    (hxs : xs <+: request) (hne : xs ≠ []) (hlt : xs.length < header) (exp : Option ErrorCode) :
    (on X (attach X continuation) (.data xs exp)).promise = some (.reject .needMore) := by
  have hput := hX.short xs hxs hne hlt
  simp only [on, onData, attach, hput]
  rfl

theorem first_full {X : Parser P} {continuation : Bool} {request : Octets} {header : Nat}
    {m : Message} (hX : X.Documented continuation request header m) {xs : Octets}
    (hxs : xs <+: request) (hle : header ≤ xs.length) (exp : Option ErrorCode) :
    (on X (attach X continuation) (.data xs exp)).promise = some .resolve ∧
      (on X (attach X continuation) (.data xs exp)).myHeaderParsedFlag = true ∧
      (on X (attach X continuation) (.data xs exp)).properties = some (properties X m) := by
  obtain ⟨hec, hdone, hget⟩ := hX.full xs hxs hle
  have hstep : on X (attach X continuation) (.data xs exp) =
      onParsed X { attach X continuation with myParser := (X.put (X.init continuation) xs).1 } xs exp := by
    simp only [on, onData, attach, hec]
  have hheader : onHeader X
      { attach X continuation with myParser := (X.put (X.init continuation) xs).1 } =
      { attach X continuation with
        myParser := (X.put (X.init continuation) xs).1
        myHeaderParsedFlag := true
        keepAlive := m.keepAlive
        responseKeepAlive := continuation || m.keepAlive
        responseVersion := m.version
        properties := some (properties X m)
        promise := some .resolve } := by
    simp only [onHeader, hget, attach, Bool.not_true, Bool.and_false, Bool.false_eq_true, if_false]
    rfl
  rw [hstep]
  simp only [attach] at hheader
  simp only [onParsed, attach, hdone, Bool.not_false, Bool.and_self, if_true, hheader]
  split
  · exact ⟨rfl, rfl, rfl⟩
  · cases exp <;> exact ⟨rfl, rfl, rfl⟩

theorem same_iff_header_first (X : Parser P) (continuation : Bool) (request : Octets) (header : Nat)
    (m : Message) (hX : X.Documented continuation request header m)
    (chunks : List (Octets × Option ErrorCode)) (hne : ∀ c ∈ chunks, c.1 ≠ [])
    (hsplit : (chunks.map Prod.fst).flatten = request) :
    SameAsWhole X continuation chunks ↔ header ≤ ((chunks.map Prod.fst).headD []).length := by
  cases chunks with
  | nil =>
    have hnil : request = [] := by simpa using hsplit.symm
    have hw := hX.within
    have hp := hX.positive
    rw [hnil] at hw
    simp only [List.length_nil] at hw
    omega
  | cons c cs =>
    obtain ⟨xs, exp⟩ := c
    have hprefix : xs <+: request := ⟨(cs.map Prod.fst).flatten, by simpa using hsplit⟩
    have hwhole := first_full hX List.prefix_rfl hX.within none
    rw [SameAsWhole, hsplit]
    simp only [received, List.map_cons, List.map_nil, List.foldl_cons,
      List.foldl_nil, List.headD_cons]
    rcases Nat.lt_or_ge xs.length header with hlt | hge
    · have hrej := first_short hX hprefix (hne _ (List.mem_cons_self ..)) hlt exp
      rw [foldl_settled X hrej]
      refine ⟨fun h => (nomatch h.1), fun h => ?_⟩
      omega
    · obtain ⟨hres, hflag, hprops⟩ := first_full hX hprefix hge exp
      rw [foldl_settled X hres, foldl_parsed X hflag, hprops, hwhole.2.2]
      exact ⟨fun _ => hge, fun _ => ⟨rfl, rfl⟩⟩

def readRequestLine (line : Octets) : Option (Octets × Octets × Nat) :=
  let target := (line.dropWhile (· ≠ 32)).drop 1
  match (target.dropWhile (· ≠ 32)).drop 1 with
  | [72, 84, 84, 80, 47, a, 46, b] => (decimalVal a).bind fun i => (decimalVal b).map fun j =>
      (line.takeWhile (· ≠ 32), target.takeWhile (· ≠ 32), i * 10 + j)
  | _ => none

def readRequest (xs : Octets) : Option (Message × Nat) :=
  (readLine xs).bind fun p => (readRequestLine p.1).bind fun l =>
    (readFields (p.2.length + 1) p.2).map fun q =>
      (⟨l.1, l.2.2, l.2.1, q.1, true⟩, xs.length - q.2.length)

def referenceParser : Parser (Option Message) where
  init := fun _ => none
  put := fun p xs => match readRequest xs with
    | some (m, n) => (some m, n, none)
    | none => (p, 0, some .needMore)
  isHeaderDone := Option.isSome
  isDone := Option.isSome
  get := fun p => p.getD ⟨[], 11, [], [], false⟩
  verbName := id
  fieldName := id

def getRequest : Octets :=
  [71, 69, 84, 32, 47, 32, 72, 84, 84, 80, 47, 49, 46, 49, 13, 10, 65, 58, 32, 98, 13, 10, 13, 10]

def getMessage : Message := ⟨[71, 69, 84], 11, [47], [⟨[65], [98]⟩], true⟩

theorem reference_getRequest : referenceParser.Documented false getRequest 24 getMessage where
  positive := by decide
  within := by decide
  short := by
    have h : ∀ xs ∈ getRequest.inits, xs ≠ [] → xs.length < 24 →
        (referenceParser.put (referenceParser.init false) xs).2.2 = some .needMore := by decide
    exact fun xs hxs => h xs ((List.mem_inits xs getRequest).mpr hxs)
  full := by
    have h : ∀ xs ∈ getRequest.inits, 24 ≤ xs.length →
        (referenceParser.put (referenceParser.init false) xs).2.2 = none ∧
          referenceParser.isHeaderDone (referenceParser.put (referenceParser.init false) xs).1 = true ∧
          referenceParser.get (referenceParser.put (referenceParser.init false) xs).1 = getMessage := by
      decide
    exact fun xs hxs => h xs ((List.mem_inits xs getRequest).mpr hxs)

theorem whole_request_resolves : SameAsWhole referenceParser false [(getRequest, none)] :=
  (same_iff_header_first referenceParser false getRequest 24 getMessage reference_getRequest
    [(getRequest, none)] (by decide) (by decide)).mpr (by decide)

theorem split_request_rejected :
    ¬ SameAsWhole referenceParser false [(getRequest.take 10, none), (getRequest.drop 10, none)] := by
  rintro ⟨h, -⟩
  exact absurd h (by decide)

end NexusRuntime.HttpRequest
