import NexusRuntime.Devices.FilePull
import NexusRuntime.Globals.Promise

namespace NexusRuntime

open Globals (Settled HandlerCall)

inductive ReadValue where
  | arrayBuffer (bytes : List UInt8)
  | error (message : String)
deriving DecidableEq, Repr

inductive ReadEffect where
  | protect
  | unprotect
  | fastMalloc (size : Nat)
  | fastRealloc (size : Nat)
  | fastFree
  | handOver
  | settle (call : HandlerCall ReadValue)
deriving DecidableEq, Repr

structure PullSourceDevice (S : Type) where
  deviceReady : S → Bool
  deviceRead : S → Nat → S × Except String (List UInt8)
  -- of the devices that a SeekableSourceDevice is behind
  deviceBytesAvailable : Option (S → S × Except String Nat)

-- what the task meets: the exception that making an ArrayBuffer of these bytes ends in, if it
-- ends in one, and whether the coroutine can yield
structure ReadContext where
  makeArrayBuffer : List UInt8 → Option String
  canYield : Bool

namespace ReadContext

def resolve (c : ReadContext) (bytes : List UInt8) : ReadEffect :=
  .settle ⟨.resolved (.arrayBuffer bytes), c.canYield⟩

def reject (c : ReadContext) (message : String) : ReadEffect :=
  .settle ⟨.rejected (.error message), c.canYield⟩

end ReadContext

namespace PullSourceDevice

variable {S : Type}

section Handler
variable (d : PullSourceDevice S) (c : ReadContext)

def readLength (s : S) (length : Nat) : S × Except String Nat :=
  let (s, found) :=
    if length = 0 then
      match d.deviceBytesAvailable with
      | some available => available s
      | none => (s, .ok 0)
    else (s, .ok length)
  (s, found.bind fun n =>
    if n = 0 then .error "must supply read length for non-seekable device" else .ok n)

-- the catch block
def caught (buffer : Option Nat) (message : String) : List ReadEffect :=
  (if buffer.isSome then [.fastFree] else []) ++ [c.reject message, .unprotect]

-- the ArrayBuffer frees the bytes itself when it cannot be made
def settled (bytes : List UInt8) : List ReadEffect :=
  match c.makeArrayBuffer bytes with
  | some exp => [.fastFree, c.reject exp, .unprotect]
  | none => [.handOver, c.resolve bytes, .unprotect]

def readHandler (s : S) (length : Nat) : S × List ReadEffect :=
  match d.readLength s length with
  | (s, .error e) => (s, caught c none e)
  | (s, .ok n) =>
    if !d.deviceReady s then (s, [.fastMalloc n, c.reject "device not ready"])
    else
      match d.deviceRead s n with
      | (s, .error e) => (s, .fastMalloc n :: caught c (some n) e)
      | (s, .ok bytes) =>
        (s, .fastMalloc n ::
          ((if bytes.length < n then [.fastRealloc bytes.length] else []) ++ settled c bytes))

def read (s : S) (length : Nat) : S × List ReadEffect :=
  let (s, effects) := d.readHandler c s length
  (s, .protect :: effects)

end Handler

def handlerCalls (effects : List ReadEffect) : List (HandlerCall ReadValue) :=
  effects.filterMap fun
    | .settle call => some call
    | _ => none

def allocated (effects : List ReadEffect) : Nat :=
  effects.countP fun
    | .fastMalloc _ => true
    | _ => false

def resolves (effects : List ReadEffect) : Nat :=
  (handlerCalls effects).countP fun call => match call.settles with
    | .resolved _ => true
    | .rejected _ => false

structure Discharged (effects : List ReadEffect) : Prop where
  settled_once : (handlerCalls effects).length = 1
  protected_once : effects.count .protect = 1
  released_once : effects.count .unprotect = 1
  buffer_once : effects.count .handOver + effects.count .fastFree = allocated effects
  handed_over : effects.count .handOver = resolves effects

def ReadyFor (d : PullSourceDevice S) (s : S) (length : Nat) : Prop :=
  ∀ n, (d.readLength s length).2 = .ok n → d.deviceReady (d.readLength s length).1 = true

section Obligations
variable (c : ReadContext)

theorem caught_discharged (buffer : Option Nat) (message : String) :
    Discharged (.protect :: ((buffer.map ReadEffect.fastMalloc).toList ++ caught c buffer message)) := by
  cases buffer with
  | none => constructor <;> rfl
  | some n => constructor <;> rfl

theorem settled_discharged (n : Nat) (bytes : List UInt8) :
    Discharged (.protect :: .fastMalloc n :: settled c bytes) := by
  cases h : c.makeArrayBuffer bytes with
  | none =>
    simp only [settled, h]
    constructor <;> rfl
  | some exp =>
    simp only [settled, h]
    constructor <;> rfl

theorem realloc_discharged {effects : List ReadEffect} {n size : Nat}
    (h : Discharged (.protect :: .fastMalloc n :: effects)) :
    Discharged (.protect :: .fastMalloc n :: .fastRealloc size :: effects) := by
  obtain ⟨settled_once, protected_once, released_once, buffer_once, handed_over⟩ := h
  exact ⟨settled_once, protected_once, released_once, buffer_once, handed_over⟩

theorem not_ready_not_discharged (n : Nat) (message : String) :
    ¬Discharged [.protect, .fastMalloc n, c.reject message] := by
  intro h
  have hreleased := h.released_once
  cases hreleased

end Obligations

section Exits
variable {d : PullSourceDevice S} {s s' : S} {length n : Nat}

theorem read_no_length (c : ReadContext) {e : String} (h : d.readLength s length = (s', .error e)) :
    d.read c s length = (s', .protect :: caught c none e) := by
  simp only [read, readHandler, h]

theorem read_not_ready (c : ReadContext) (h : d.readLength s length = (s', .ok n))
    (hready : d.deviceReady s' = false) :
    d.read c s length = (s', [.protect, .fastMalloc n, c.reject "device not ready"]) := by
  simp only [read, readHandler, h, hready, Bool.not_false, if_true]

theorem read_throws (c : ReadContext) {s'' : S} {e : String} (h : d.readLength s length = (s', .ok n))
    (hready : d.deviceReady s' = true) (hread : d.deviceRead s' n = (s'', .error e)) :
    d.read c s length = (s'', .protect :: .fastMalloc n :: caught c (some n) e) := by
  simp only [read, readHandler, h, hready, Bool.not_true, Bool.false_eq_true, if_false, hread]

theorem read_bytes (c : ReadContext) {s'' : S} {bytes : List UInt8}
    (h : d.readLength s length = (s', .ok n)) (hready : d.deviceReady s' = true)
    (hread : d.deviceRead s' n = (s'', .ok bytes)) :
    d.read c s length = (s'', .protect :: .fastMalloc n ::
      ((if bytes.length < n then [.fastRealloc bytes.length] else []) ++ settled c bytes)) := by
  simp only [read, readHandler, h, hready, Bool.not_true, Bool.false_eq_true, if_false, hread]

theorem read_ready_discharged (c : ReadContext) (h : d.readLength s length = (s', .ok n))
    (hready : d.deviceReady s' = true) : Discharged (d.read c s length).2 := by
  rcases hread : d.deviceRead s' n with ⟨s'', outcome⟩
  cases outcome with
  | error e =>
    rw [read_throws c h hready hread]
    exact caught_discharged c (some n) e
  | ok bytes =>
    rw [read_bytes c h hready hread]
    by_cases hshort : bytes.length < n
    · rw [if_pos hshort]
      exact realloc_discharged (settled_discharged c n bytes)
    · rw [if_neg hshort]
      exact settled_discharged c n bytes

end Exits

theorem read_discharged_iff (d : PullSourceDevice S) (c : ReadContext) (s : S) (length : Nat) :
    Discharged (d.read c s length).2 ↔ d.ReadyFor s length := by
  rcases hlength : d.readLength s length with ⟨s', found⟩
  rw [ReadyFor, hlength]
  cases found with
  | error e =>
    rw [read_no_length c hlength]
    refine iff_of_true (caught_discharged c none e) ?_
    intro n hn
    cases hn
  | ok n =>
    cases hready : d.deviceReady s' with
    | false =>
      rw [read_not_ready c hlength hready]
      refine iff_of_false (not_ready_not_discharged c n _) ?_
      intro h
      cases h n rfl
    | true => exact iff_of_true (read_ready_discharged c hlength hready) (fun _ _ => rfl)

end PullSourceDevice

namespace FilePullDevice

open PullSourceDevice

def source : PullSourceDevice FilePullDevice where
  deviceReady := deviceReady
  deviceRead d length := ((d.deviceRead length).1, .ok (d.deviceRead length).2)
  deviceBytesAvailable := some fun d => (d.deviceBytesAvailable.1, .ok d.deviceBytesAvailable.2)

-- an empty file that was read from once: the second read is the one that leaks
theorem read_after_the_end_leaks :
    let d : FilePullDevice := (deviceRead ⟨⟨[], 0, false, false⟩, none⟩ 1).1
    let effects := (source.read ⟨fun _ => none, false⟩ d 1).2
    ¬Discharged effects ∧ effects.count .unprotect = 0 ∧ effects.count .fastFree = 0 ∧
      allocated effects = 1 := by
  intro d effects
  have heffects : effects = [.protect, .fastMalloc 1,
      ReadContext.reject ⟨fun _ => none, false⟩ "device not ready"] :=
    congrArg Prod.snd (PullSourceDevice.read_not_ready (d := source) _ rfl rfl)
  rw [heffects]
  exact ⟨not_ready_not_discharged _ _ _, rfl, rfl, rfl⟩

def settledWith : Except String (List UInt8) → Settled ReadValue
  | .ok bytes => .resolved (.arrayBuffer bytes)
  | .error e => .rejected (.error e)

theorem read_eq (d : FilePullDevice) (length : Nat) :
    d.read length = match source.readLength d length with
      | (s, .error e) => (s, .error e)
      | (s, .ok n) => s.readSync n := by
  have hfound : ∃ s n, (if length = 0 then d.deviceBytesAvailable else (d, length)) = (s, n) :=
    ⟨_, _, rfl⟩
  obtain ⟨s, n, hfound⟩ := hfound
  have hlength : source.readLength d length =
      (s, if n = 0 then .error "must supply read length for non-seekable device" else .ok n) := by
    by_cases h : length = 0
    · rw [if_pos h] at hfound
      simp only [PullSourceDevice.readLength, h, source, if_true, hfound, Except.bind]
    · rw [if_neg h] at hfound
      cases hfound
      simp only [PullSourceDevice.readLength, h, if_false, Except.bind]
  rw [hlength, read, hfound]
  by_cases hn : n = 0
  · simp only [hn, if_true]
  · simp only [hn, if_false, readSync]

theorem source_read (c : ReadContext) (hmake : ∀ bytes, c.makeArrayBuffer bytes = none)
    (d : FilePullDevice) (length : Nat) :
    (source.read c d length).1 = (d.read length).1 ∧
      handlerCalls (source.read c d length).2 = [⟨settledWith (d.read length).2, c.canYield⟩] := by
  rw [read_eq]
  rcases hlength : source.readLength d length with ⟨s, found⟩
  cases found with
  | error e =>
    rw [PullSourceDevice.read_no_length c hlength]
    exact ⟨rfl, rfl⟩
  | ok n =>
    cases hready : s.deviceReady with
    | false =>
      rw [PullSourceDevice.read_not_ready c hlength hready]
      dsimp only
      rw [readSync_not_ready hready]
      exact ⟨rfl, rfl⟩
    | true =>
      have hbytes : (s.deviceRead n).2 = s.myStream.rest.take n := InputStream.read_bytes hready n
      have hmade : settled c (s.deviceRead n).2 =
          [.handOver, c.resolve (s.deviceRead n).2, .unprotect] := by
        rw [settled, hmake]
      rw [PullSourceDevice.read_bytes c hlength hready rfl, hmade, hbytes]
      dsimp only
      rw [readSync_ready hready]
      refine ⟨rfl, ?_⟩
      split
      · rfl
      · rfl

theorem source_read_promise (c : ReadContext) (hmake : ∀ bytes, c.makeArrayBuffer bytes = none)
    (nullExecutor : ReadValue) (d : FilePullDevice) (length : Nat) :
    (Globals.createPromise nullExecutor
      (some ⟨[], none, handlerCalls (source.read c d length).2⟩)).promise =
        some (settledWith (d.read length).2) := by
  rw [Globals.createPromise_promise, (source_read c hmake d length).2]
  rfl

end FilePullDevice
end NexusRuntime
