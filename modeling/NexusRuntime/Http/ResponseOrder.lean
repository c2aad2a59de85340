import NexusRuntime.Http.Response

namespace NexusRuntime.Http

open Wire Transition

inductive Token where
  | headerBegin
  | headerEnd
  | body
  | terminator (origin : Origin)
deriving DecidableEq, Repr

namespace Token

def isTerminator : Token → Bool
  | .terminator _ => true
  | _ => false

def ofBody : Token → Bool
  | .body => true
  | .terminator _ => true
  | _ => false

end Token

structure Ordered (ts : List Token) : Prop where
  oneHeader : ts.count .headerBegin ≤ 1
  headerFirst : ∀ xs t ys, ts = xs ++ t :: ys → t.ofBody = true → .headerEnd ∈ xs
  oneTerminator : ts.countP Token.isTerminator ≤ 1
  terminated : ∀ xs t ys, ts = xs ++ t :: ys → t.isTerminator = true → .body ∉ ys
  notByData : .terminator .data ∉ ts

def streaming (ts : List Token) : Prop := .headerEnd ∈ ts ∧ ∀ t ∈ ts, t.isTerminator = false

def admits (ts : List Token) : Token → Prop
  | .headerBegin => .headerBegin ∉ ts
  | .headerEnd => True
  | .body => streaming ts
  | .terminator origin => origin ≠ .data ∧ streaming ts

def bodyToken (origin : Origin) : Option Octets → Token
  -- a chunk of no bytes is the last chunk
  | some [] => .terminator origin
  | some (_ :: _) => .body
  | none => .terminator origin

def Piece.tokens (B : Beast) (origin : Origin) : Piece → Outcome → List Token
  | _, .failed .nothing _ => []
  | .header _, .ok => [.headerBegin, .headerEnd]
  | .header _, .failed _ _ => [.headerBegin]
  | .message m, .ok =>
    [.headerBegin, .headerEnd] ++ ((if m.body = [] then [] else [.body]) ++
      if B.isChunked m.fields then [.terminator origin] else [])
  | .message _, .failed .head _ => [.headerBegin]
  | .message _, .failed .body _ => [.headerBegin, .headerEnd, .body]
  | .chunk bytes, _ => [bodyToken origin (some bytes)]
  | .chunkLast, _ => [bodyToken origin none]

namespace Response

def tokens (B : Beast) (s : Response) : List Token :=
  s.wire.flatMap fun e => e.piece.tokens B e.origin e.outcome

structure InOrder (B : Beast) (s : Response) : Prop where
  ordered : Ordered (s.tokens B)
  notifiedOnce : s.completions ≤ 1

structure Inv (B : Beast) (s : Response) : Prop extends s.InOrder B where
  untouched : s.myHeadersSentFlag = false → s.tokens B = [] ∧ s.completions = 0
  begun : .headerEnd ∈ s.tokens B → .headerBegin ∈ s.tokens B

variable {B : Beast}

def live (B : Beast) (continuation : Bool) (version : Nat) (keepAlive : Bool) : Response :=
  (start B continuation).requestParsed B version keepAlive

end Response

end NexusRuntime.Http
