import NexusRuntime.Streams.ReadableStream

namespace NexusRuntime.Streams

open Transition Sequence

variable {α : Type}

inductive Part where
  | queued
  | writing
  | written
  | failed
deriving DecidableEq, Repr

def Event.isEnd : Event α → Bool
  | .ended => true
  | _ => false

-- one event of the stream that pipe's listener writes to every target
structure Broadcast (α : Type) where
  chain : Nat
  event : Event α
  parts : List Part
  caught : Bool
deriving DecidableEq, Repr

inductive Write (α : Type) where
  | passed (data : Option α)
  | completed (data : Option α)
  | failed (data : Option α)
deriving DecidableEq, Repr

inductive Outcome where
  | pending
  | resolved
  | rejected
deriving DecidableEq, Repr

def Outcome.settle (o : Outcome) (next : Outcome) : Outcome :=
  match o with
  | .pending => next
  | _ => o

@[simp] theorem settle_rejected {o : Outcome} : o.settle .rejected = .resolved ↔ o = .resolved := by
  cases o <;> simp [Outcome.settle]

@[simp] theorem settle_ne_pending {o next : Outcome} (h : next ≠ .pending) :
    o.settle next ≠ .pending := by
  cases o <;> simp [Outcome.settle, h]

theorem settle_of_ne_pending {o next : Outcome} (h : o ≠ .pending) : o.settle next = o := by
  cases o with
  | pending => exact absurd rfl h
  | resolved | rejected => rfl

def Event.written : Event α → Option α
  | .data v => v
  | _ => none

namespace Broadcast

def settled (b : Broadcast α) : Bool := b.parts.all (· == .written) || b.caught

def heldBy (b : Broadcast α) : Stage α → Bool
  | .emitting => !b.event.isEnd
  | .ending => b.event.isEnd
  | _ => false

end Broadcast

-- tapes are what the targets' devices have seen, promise is that of resume()
structure Piped (α : Type) where
  stream : Readable α
  broadcasts : List (Broadcast α)
  tapes : List (List (Write α))
  listening : Bool
  promise : Outcome

inductive PipeLabel (α : Type) where
  | stream (l : StreamLabel α)
  | pass (i t : Nat)
  | complete (i t : Nat) (ok : Bool)
  | caught (i : Nat)
  | deviceError
deriving DecidableEq, Repr

namespace Piped

def start (filters : List (Filter α)) (targets : Nat) : Piped α where
  stream := .start filters
  broadcasts := []
  tapes := List.replicate targets []
  listening := true
  promise := .pending

def broadcast (s : Piped α) (k : Nat) (e : Event α) : Piped α :=
  { s with broadcasts := s.broadcasts ++ [⟨k, e, List.replicate s.tapes.length .queued, false⟩] }

-- in the loop of emit('end') resume's resolver runs right after pipe's listener
def hear (s : Piped α) : Nat × Event α → Piped α
  | (k, .data v) => s.broadcast k (.data v)
  | (k, .ended) =>
    { (if s.listening then s.broadcast k .ended else s) with
      listening := false
      promise := s.promise.settle .resolved }
  | (_, .error) => { s with promise := s.promise.settle .rejected }

-- the promise that a chain awaits is fulfilled after the writes its event set off
def ready (s : Piped α) : StreamLabel α → Bool
  | .act k (.listened true) =>
    match s.stream.chains[k]? with
    | some c => s.broadcasts.all fun b => b.chain != k || !b.heldBy c.stage || b.settled
    | none => true
  | _ => true

def part (s : Piped α) (i t : Nat) : Option (Broadcast α × Part) :=
  s.broadcasts[i]?.bind fun b => b.parts[t]?.map (b, ·)

def advance (s : Piped α) (i t : Nat) (b : Broadcast α) (p : Part) (w : Write α) : Piped α :=
  { s with
    broadcasts := s.broadcasts.set i { b with parts := b.parts.set t p }
    tapes := s.tapes.modify t (· ++ [w]) }

def step (filters : List (Filter α)) (s : Piped α) : PipeLabel α → Option (Piped α)
  | .stream l =>
    if s.ready l then
      (Readable.step filters s.stream l).map fun r =>
        (r.log.drop s.stream.log.length).foldl hear { s with stream := r }
    else none
  | .pass i t =>
    match s.part i t with
    | some (b, .queued) => some (s.advance i t b .writing (.passed b.event.written))
    | _ => none
  | .complete i t ok =>
    match s.part i t with
    | some (b, .writing) =>
      if ok then some (s.advance i t b .written (.completed b.event.written))
      else some (s.advance i t b .failed (.failed b.event.written))
    | _ => none
  | .caught i =>
    match s.broadcasts[i]? with
    | some b =>
      if !b.event.isEnd && b.parts.contains .failed && !b.caught then
        some { s with
          stream := { s.stream with log := s.stream.log ++ [(b.chain, .error)] }
          broadcasts := s.broadcasts.set i { b with caught := true }
          promise := s.promise.settle .rejected }
      else none
    | none => none
  | .deviceError => some { s with promise := s.promise.settle .rejected }

def system (filters : List (Filter α)) : System (Piped α) (PipeLabel α) := ⟨step filters⟩

def moved (s : Piped α) (k : Nat) (u : Turn α) : Piped α :=
  { s with stream := ⟨s.stream.chains.set k u.chain, u.histories,
      s.stream.log ++ u.events.map (k, ·)⟩ }

inductive Steps (filters : List (Filter α)) (s : Piped α) : PipeLabel α → Piped α → Prop
  | fire {x : Option α} :
    Steps filters s (.stream (.fire x))
      { s with stream := { s.stream with chains := s.stream.chains ++ [⟨x, 0, .ready x⟩] } }
  | quiet {k a c u} (hc : s.stream.chains[k]? = some c)
      (hu : c.turn filters s.stream.histories a = some u) (hready : s.ready (.act k a) = true)
      (he : u.events = []) :
    Steps filters s (.stream (.act k a)) (s.moved k u)
  | heard {k a c u e} (hc : s.stream.chains[k]? = some c)
      (hu : c.turn filters s.stream.histories a = some u) (hready : s.ready (.act k a) = true)
      (he : u.events = [e]) :
    Steps filters s (.stream (.act k a)) ((s.moved k u).hear (k, e))
  | pass {i t b} (hb : s.broadcasts[i]? = some b) (hp : b.parts[t]? = some .queued) :
    Steps filters s (.pass i t) (s.advance i t b .writing (.passed b.event.written))
  | complete {i t b} (hb : s.broadcasts[i]? = some b) (hp : b.parts[t]? = some .writing) :
    Steps filters s (.complete i t true) (s.advance i t b .written (.completed b.event.written))
  | spoil {i t b} (hb : s.broadcasts[i]? = some b) (hp : b.parts[t]? = some .writing) :
    Steps filters s (.complete i t false) (s.advance i t b .failed (.failed b.event.written))
  | caught {i b} (hb : s.broadcasts[i]? = some b) :
    Steps filters s (.caught i)
      { s with
        stream := { s.stream with log := s.stream.log ++ [(b.chain, .error)] }
        broadcasts := s.broadcasts.set i { b with caught := true }
        promise := s.promise.settle .rejected }
  | deviceError : Steps filters s .deviceError { s with promise := s.promise.settle .rejected }

theorem turn_events {filters : List (Filter α)} {histories : List (List (Option α))} {c : Chain α}
    {a : Act} {u : Turn α} (h : c.turn filters histories a = some u) :
    u.events = [] ∨ ∃ e, u.events = [e] := by
  cases turn_cases h with
  | call | filtered | rejected | refused | listened | dropped | finished => exact .inl rfl
  | emit | unflushed | report | flushed | reported => exact .inr ⟨_, rfl⟩

section Advance
variable {s : Piped α} {i t : Nat} {b : Broadcast α} {p : Part} {w : Write α}

theorem events_advance (P : Event α → Prop) (hb : s.broadcasts[i]? = some b)
    (h : ∀ d ∈ s.broadcasts, P d.event) : ∀ d ∈ (s.advance i t b p w).broadcasts, P d.event :=
  forall_replace h (h b (List.mem_of_getElem? hb))

theorem targets_advance : (s.advance i t b p w).tapes.length = s.tapes.length :=
  List.length_modify ..

end Advance

variable {filters : List (Filter α)} {s t : Piped α} {l : PipeLabel α}

theorem part_some {i j : Nat} {b : Broadcast α} {p : Part} (h : s.part i j = some (b, p)) :
    s.broadcasts[i]? = some b ∧ b.parts[j]? = some p := by
  rw [part, Option.bind_eq_some_iff] at h
  obtain ⟨d, hd, h⟩ := h
  obtain ⟨q, hq, h⟩ := Option.map_eq_some_iff.mp h
  obtain ⟨rfl, rfl⟩ := Prod.mk.inj h
  exact ⟨hd, hq⟩

theorem step_cases (h : step filters s l = some t) : Steps filters s l t := by
  cases l with
  | stream l =>
    simp only [step] at h
    split at h
    · next hready =>
      obtain ⟨r, hr, rfl⟩ := Option.map_eq_some_iff.mp h
      cases l with
      | fire x =>
        obtain rfl := Option.some.inj hr
        rw [List.drop_length]
        exact .fire
      | act k a =>
        obtain ⟨c, u, hc, hu, rfl⟩ := Readable.step_act hr
        rw [List.drop_left]
        rcases turn_events hu with he | ⟨e, he⟩
        · have := Steps.quiet hc hu hready he
          simpa [moved, he] using this
        · have := Steps.heard hc hu hready he
          simpa [moved, he] using this
    · cases h
  | pass i j =>
    simp only [step] at h
    split at h
    · next b hpart =>
      obtain ⟨hb, hp⟩ := part_some hpart
      obtain rfl := Option.some.inj h
      exact .pass hb hp
    · cases h
  | complete i j ok =>
    simp only [step] at h
    split at h
    · next b hpart =>
      obtain ⟨hb, hp⟩ := part_some hpart
      cases ok with
      | true =>
        obtain rfl := Option.some.inj h
        exact .complete hb hp
      | false =>
        obtain rfl := Option.some.inj h
        exact .spoil hb hp
    · cases h
  | caught i =>
    simp only [step] at h
    split at h
    · next b hb =>
      split at h
      · obtain rfl := Option.some.inj h
        exact .caught hb
      · cases h
    · cases h
  | deviceError =>
    obtain rfl := Option.some.inj h
    exact .deviceError

end Piped
end NexusRuntime.Streams
