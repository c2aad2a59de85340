import NexusRuntime.Http.Beast
import NexusRuntime.Http.Headers

namespace NexusRuntime.HttpRequest

open Wire

variable {P : Type}

inductive Coding where
  | contentLength
  | chunked (chunks : List Octets)

def Coding.encode (body : Octets) : Coding → Octets
  | .contentLength => body
  | .chunked chunks => chunks.flatMap encodeChunk ++ lastChunk

def Coding.Frames (fields : List Field) (body : Octets) : Coding → Prop
  | .contentLength => lookup transferEncoding fields = none ∧
      lookup Wire.contentLength fields = some (decimal.encode body.length)
  | .chunked chunks => Http.endsChunked fields = true ∧ (∀ c ∈ chunks, c ≠ []) ∧ chunks.flatten = body

structure Posted extends Sent where
  body : Octets
  coding : Coding
  target_visible : ∀ c ∈ target, 32 < c ∧ c ≠ 127
  version_digits : version < 100
  has_body : body ≠ []
  framed : coding.Frames fields body

namespace Posted

def requestLine (r : Posted) : Octets :=
  r.method ++ [32] ++ r.target ++ [32] ++ httpSlash ++
    [decimalChar (r.version / 10), 46, decimalChar (r.version % 10)]

def head (r : Posted) : Octets := r.requestLine ++ crlf ++ encodeFields r.fields ++ crlf

def wire (r : Posted) : Octets := r.head ++ r.coding.encode r.body

end Posted

-- the 'data' events of the connection, each with the exception its listeners raise
structure Cut (r : Posted) where
  events : List (Octets × Option ErrorCode)
  flatten : (events.map Prod.fst).flatten = r.wire

def Delivered (emitted : List Emitted) (body : Octets) : Prop :=
  ∃ payloads : List Octets, emitted = payloads.map .data ++ [.end] ∧ payloads.flatten = body

-- the events that get past the parser's errors, and whether the parser is done after each
def heard (X : Parser P) : P → Bool → List Octets → List (Octets × Bool)
  | _, _, [] => []
  | p, headerDone, bytes :: rest =>
    let parsed := X.put p bytes
    if headerDone || parsed.2.2.isNone then
      (bytes, X.isDone parsed.1) :: heard X parsed.1 (headerDone || X.isHeaderDone parsed.1) rest
    else heard X parsed.1 headerDone rest

def said (e : Octets × Bool) : Emitted := if e.2 then .end else .data e.1

end NexusRuntime.HttpRequest
