import NexusRuntime.Http.Beast
import NexusRuntime.Transition.System

namespace NexusRuntime.Http

open Wire Transition

inductive Piece where
  | header (m : Message)
  | message (m : Message)
  | chunk (bytes : Octets)
  | chunkLast
deriving DecidableEq, Repr

inductive Extent where
  | nothing
  | head
  | body
deriving DecidableEq, Repr

inductive Outcome where
  | ok
  | failed (put : Extent) (ec : Nat)
deriving DecidableEq, Repr

inductive Origin where
  | data
  | null
  | send
deriving DecidableEq, Repr

structure Entry where
  piece : Piece
  outcome : Outcome
  origin : Origin
deriving DecidableEq, Repr

inductive Exception where
  | headersAlreadySent
  | deviceNotReady
  | boost (ec : Nat)
deriving DecidableEq, Repr

def badDescriptor : Nat := 9

def maxWriteBufferSize : Nat := 65535

structure Response where
  myHeadersSentFlag : Bool
  myStatus : Nat
  myRes : Message
  myError : Option Nat
  isOpen : Bool
  keepAlive : Bool
  wire : List Entry
  completions : Nat
  writes : List Octets
deriving DecidableEq, Repr

namespace Response

def start (B : Beast) (continuation : Bool) : Response where
  myHeadersSentFlag := false
  myStatus := 200
  myRes := ⟨11, 200, B.setKeepAlive 11 [] continuation, []⟩
  myError := none
  isOpen := true
  keepAlive := false
  wire := []
  completions := 0
  writes := []

def requestParsed (B : Beast) (s : Response) (version : Nat) (keepAlive : Bool) : Response :=
  let fields := if keepAlive then B.setKeepAlive s.myRes.version s.myRes.fields true else s.myRes.fields
  { s with
    keepAlive := keepAlive
    myRes := { s.myRes with fields := fields, version := version } }

def status (s : Response) (n : Nat) : Response × Option Exception :=
  if s.myHeadersSentFlag then (s, some .headersAlreadySent) else ({ s with myStatus := n }, none)

def set (B : Beast) (s : Response) (f : Field) : Response × Option Exception :=
  if s.myHeadersSentFlag then (s, some .headersAlreadySent)
  else ({ s with myRes := { s.myRes with fields := B.set s.myRes.fields f } }, none)

def put (s : Response) (p : Piece) (origin : Origin) (o : Outcome) : Response × Option Nat :=
  match s.isOpen, o with
  | true, .ok => ({ s with wire := s.wire ++ [⟨p, .ok, origin⟩], myError := none }, none)
  | true, .failed extent ec =>
    ({ s with wire := s.wire ++ [⟨p, .failed extent ec, origin⟩], myError := some ec }, some ec)
  | false, _ => ({ s with myError := some badDescriptor }, some badDescriptor)

def notifyCompleted (s : Response) : Response :=
  { s with completions := s.completions + 1, isOpen := s.isOpen && s.keepAlive }

def sendHeaders (B : Beast) (s : Response) (origin : Origin) (o : Outcome) : Response × Option Nat :=
  if s.myHeadersSentFlag then (s, none)
  else
    let res := { s.myRes with fields := B.setChunked s.myRes.fields }
    { s with myHeadersSentFlag := true, myRes := res : Response }.put (.header res) origin o

def deviceWrite (B : Beast) (s : Response) (buffer : Option Octets) (origin : Origin)
    (o₁ o₂ : Outcome) : Response × Option Exception :=
  match s.sendHeaders B origin o₁ with
  | (s, some ec) => (s, some (.boost ec))
  | (s, none) =>
    match buffer with
    | some bytes => let (t, ec) := s.put (.chunk bytes) origin o₂; (t, ec.map .boost)
    -- the connection is told before the error of the last chunk is looked at
    | none => let (t, ec) := s.put .chunkLast origin o₂; (t.notifyCompleted, ec.map .boost)

def send (s : Response) (body : Octets) (o : Outcome) : Response × Option Exception :=
  let res := { s.myRes with body := s.myRes.body ++ body }
  let (t, ec) := { s with myHeadersSentFlag := true, myRes := res : Response }.put (.message res) .send o
  (t.notifyCompleted, ec.map .boost)

def write (B : Beast) (s : Response) (buffer : Option Octets) (o₁ o₂ : Outcome) : Response :=
  match buffer with
  | none => if s.isOpen then (s.deviceWrite B none .null o₁ o₂).1 else s
  | some [] => s
  | some (c :: cs) => { s with writes := s.writes ++ [c :: cs] }

def writeHandler (B : Beast) (s : Response) (i : Nat) (rest : Octets) (o₁ o₂ : Outcome) : Response :=
  if rest = [] ∨ s.myError.isSome ∨ s.isOpen = false then { s with writes := s.writes.eraseIdx i }
  else match s.deviceWrite B (some (rest.take maxWriteBufferSize)) .data o₁ o₂ with
    | (s, some _) => { s with writes := s.writes.eraseIdx i }
    | (s, none) => { s with writes := s.writes.set i (rest.drop maxWriteBufferSize) }

def writeSync (B : Beast) (s : Response) (bytes : Octets) (nullData : Bool) (o₁ o₂ : Outcome) :
    Response × Option Exception :=
  if s.isOpen then
    s.deviceWrite B (if nullData && bytes.isEmpty then none else some bytes) .data o₁ o₂
  else (s, some .deviceNotReady)

end Response

inductive Call where
  | status (n : Nat)
  | set (f : Field)
  | write (buffer : Option Octets) (o₁ o₂ : Outcome)
  | task (i : Nat) (o₁ o₂ : Outcome)
  | writeSync (bytes : Octets) (nullData : Bool) (o₁ o₂ : Outcome)
  | send (body : Octets) (o : Outcome)
  | close
deriving DecidableEq, Repr

def Response.step (B : Beast) (s : Response) : Call → Option Response
  | .status n => some (s.status n).1
  | .set f => some (s.set B f).1
  | .write buffer o₁ o₂ => some (s.write B buffer o₁ o₂)
  | .task i o₁ o₂ => (s.writes[i]?).map fun rest => s.writeHandler B i rest o₁ o₂
  | .writeSync bytes nullData o₁ o₂ => some (s.writeSync B bytes nullData o₁ o₂).1
  | .send body o => some (s.send body o).1
  | .close => some { s with isOpen := false }

def responses (B : Beast) : System Response Call := ⟨Response.step B⟩

end NexusRuntime.Http
