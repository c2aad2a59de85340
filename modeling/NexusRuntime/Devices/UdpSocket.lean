import Mathlib.Algebra.Ring.Nat
import NexusRuntime.Transition.System
import Mathlib.Algebra.Order.BigOperators.Group.List
import Mathlib.Algebra.Order.Group.Nat

namespace NexusRuntime.UdpSocket

open Transition

inductive State where
  | paused
  | resumed
deriving DecidableEq, Repr

structure Datagram where
  payload : List UInt8
  address : String
  port : Nat
  small : payload.length ≤ 65507
deriving DecidableEq, Repr

-- the arguments of one 'data' event
structure Data where
  arrayBuffer : List UInt8
  address : String
  port : Nat
deriving DecidableEq, Repr

def Datagram.data (d : Datagram) : Data := ⟨d.payload, d.address, d.port⟩

inductive Settlement where
  | resolve
  | reject
deriving DecidableEq, Repr

-- `waiting` is what available() gave when the receive was armed
structure Receive where
  promise : Nat
  waiting : Nat
deriving DecidableEq, Repr

def Receive.bufSize (r : Receive) : Nat := if r.waiting = 0 then 1024 else r.waiting

structure Completion where
  receive : Receive
  datagram : Datagram
  whileResumed : Bool
deriving DecidableEq, Repr

-- what does not fit the buffer is lost
def Completion.bytes (c : Completion) : List UInt8 := c.datagram.payload.take c.receive.bufSize

def Completion.emitted (c : Completion) : List Data :=
  if c.bytes.length = 0 then [] else [⟨c.bytes, c.datagram.address, c.datagram.port⟩]

structure UDPSocket where
  isOpen : Bool
  myState : State
  myPromise : Option Nat
  promises : Nat
  settled : List (Nat × Settlement)
  queue : List Datagram
  receives : List Receive
  completions : List Completion
  handled : List Completion
deriving DecidableEq, Repr

namespace UDPSocket

def start : UDPSocket where
  isOpen := false
  myState := .paused
  myPromise := none
  promises := 0
  settled := []
  queue := []
  receives := []
  completions := []
  handled := []

def available (s : UDPSocket) : Nat := (s.queue.map fun d => d.payload.length).sum

def settle (s : UDPSocket) (promise : Nat) (r : Settlement) : UDPSocket :=
  { s with settled := s.settled ++ [(promise, r)] }

def rearm (s : UDPSocket) (promise : Nat) : UDPSocket :=
  if s.isOpen = true ∧ s.myState = .resumed then
    { s with receives := s.receives ++ [⟨promise, s.available⟩] }
  else s.settle promise .resolve

-- `raised`: a 'data' handler has thrown
def recvHandler (s : UDPSocket) (c : Completion) (raised : Bool) : UDPSocket :=
  let t := { s with handled := s.handled ++ [c] : UDPSocket }
  if raised = true ∧ c.emitted ≠ [] then t.settle c.receive.promise .reject
  else t.rearm c.receive.promise

def resume (s : UDPSocket) : UDPSocket :=
  if s.myState = .resumed ∧ s.myPromise.isSome then s
  else { s with
    myState := .resumed
    myPromise := some s.promises
    promises := s.promises + 1 : UDPSocket }.rearm s.promises

def pause (s : UDPSocket) : UDPSocket :=
  match s.myPromise with
  | some _ => { s with myState := .paused }
  | none => { s with
    myState := .paused
    myPromise := some s.promises
    promises := s.promises + 1 : UDPSocket }.settle s.promises .resolve

def reset (s : UDPSocket) : UDPSocket := if s.myState = .paused then s else s.pause

def events (s : UDPSocket) : List Data := s.handled.flatMap Completion.emitted

end UDPSocket

inductive Label where
  | connect
  | arrive (d : Datagram)
  | resume
  | pause
  | reset
  | close
  | receive (i : Nat)
  | fail (i : Nat)
  | handle (i : Nat) (raised : Bool)

def step (s : UDPSocket) : Label → Option UDPSocket
  | .connect => some { s with isOpen := true }
  | .arrive d => if s.isOpen then some { s with queue := s.queue ++ [d] } else none
  | .resume => some s.resume
  | .pause => some s.pause
  | .reset => some s.reset
  | .close => some { s with isOpen := false }
  | .receive i =>
    match s.receives[i]?, s.queue with
    | some r, d :: queue => some { s with
        queue := queue
        receives := s.receives.eraseIdx i
        completions := s.completions ++ [⟨r, d, decide (s.myState = .resumed)⟩] }
    | _, _ => none
  | .fail i =>
    (s.receives[i]?).map fun r =>
      { s with receives := s.receives.eraseIdx i : UDPSocket }.settle r.promise .reject
  | .handle i raised =>
    (s.completions[i]?).map fun c =>
      { s with completions := s.completions.eraseIdx i : UDPSocket }.recvHandler c raised

def sockets : System UDPSocket Label := ⟨step⟩

def Completion.Delivered (c : Completion) : Prop := c.emitted = [c.datagram.data]

def UDPSocket.Delivers (s : UDPSocket) : Prop :=
  ∀ c ∈ s.handled, c.whileResumed = true → c.Delivered

structure Completion.Fits (c : Completion) : Prop where
  nonempty : c.datagram.payload ≠ []
  room : c.datagram.payload.length ≤ c.receive.waiting ∨
    c.receive.waiting = 0 ∧ c.datagram.payload.length ≤ 1024

instance : DecidablePred UDPSocket.Delivers := fun s =>
  inferInstanceAs (Decidable (∀ c ∈ s.handled, c.whileResumed = true → c.emitted = [c.datagram.data]))

def roomy (s : UDPSocket) : Label → Prop
  | .handle i _ => ∀ c ∈ s.completions[i]?, c.whileResumed = true → c.Fits
  | _ => True

theorem Completion.delivered_iff (c : Completion) : c.Delivered ↔ c.Fits := by
  obtain ⟨⟨promise, waiting⟩, ⟨payload, address, port, small⟩, whileResumed⟩ := c
  have hroom : payload.length ≤ (Receive.mk promise waiting).bufSize ↔
      payload.length ≤ waiting ∨ waiting = 0 ∧ payload.length ≤ 1024 := by
    simp only [Receive.bufSize]
    split <;> omega
  have hpos : 0 < (Receive.mk promise waiting).bufSize := by
    simp only [Receive.bufSize]
    split <;> omega
  constructor
  · intro h
    rw [Delivered, emitted] at h
    split at h
    · simp at h
    · next hlen =>
      have htake : payload.take (Receive.mk promise waiting).bufSize = payload :=
        congrArg Data.arrayBuffer (List.cons.inj h).1
      have hle := congrArg List.length htake
      rw [List.length_take] at hle
      refine ⟨?_, hroom.mp (by omega)⟩
      rintro rfl
      exact hlen (by simp [bytes])
  · rintro ⟨hne, hle⟩
    have hbytes : payload.take (Receive.mk promise waiting).bufSize = payload :=
      List.take_of_length_le (hroom.mpr hle)
    have hlen : payload.length ≠ 0 := by simpa using hne
    simp only [Delivered, emitted, bytes, hbytes, hlen, if_false, Datagram.data]

namespace UDPSocket

@[simp] theorem rearm_handled (s : UDPSocket) (promise : Nat) :
    (s.rearm promise).handled = s.handled := by
  rw [rearm]
  split <;> rfl

@[simp] theorem resume_handled (s : UDPSocket) : s.resume.handled = s.handled := by
  rw [resume]
  split
  · rfl
  · exact rearm_handled _ _

@[simp] theorem pause_handled (s : UDPSocket) : s.pause.handled = s.handled := by
  rw [pause]
  split <;> rfl

@[simp] theorem reset_handled (s : UDPSocket) : s.reset.handled = s.handled := by
  rw [reset]
  split
  · rfl
  · exact pause_handled s

theorem recvHandler_handled (s : UDPSocket) (c : Completion) (raised : Bool) :
    (s.recvHandler c raised).handled = s.handled ++ [c] := by
  simp only [recvHandler]
  split
  · rfl
  · exact rearm_handled _ _

end UDPSocket

theorem step_handled {s t : UDPSocket} {l : Label} (h : step s l = some t) :
    t.handled = s.handled ∨
      ∃ i raised c, l = .handle i raised ∧ s.completions[i]? = some c ∧ t.handled = s.handled ++ [c] := by
  cases l with
  | connect =>
    cases h
    exact Or.inl rfl
  | arrive d =>
    simp only [step] at h
    split at h
    · cases h
      exact Or.inl rfl
    · cases h
  | resume =>
    cases h
    exact Or.inl s.resume_handled
  | pause =>
    cases h
    exact Or.inl s.pause_handled
  | reset =>
    cases h
    exact Or.inl s.reset_handled
  | close =>
    cases h
    exact Or.inl rfl
  | receive i =>
    simp only [step] at h
    split at h
    · cases h
      exact Or.inl rfl
    · cases h
  | fail i =>
    obtain ⟨r, -, rfl⟩ := Option.map_eq_some_iff.mp h
    exact Or.inl rfl
  | handle i raised =>
    obtain ⟨c, hc, rfl⟩ := Option.map_eq_some_iff.mp h
    exact Or.inr ⟨i, raised, c, rfl, hc, UDPSocket.recvHandler_handled _ c raised⟩

theorem delivers_of_roomy {s t : UDPSocket} {l : Label} (hs : s.Delivers) (hl : roomy s l)
    (h : step s l = some t) : t.Delivers := by
  rcases step_handled h with heq | ⟨i, raised, c, rfl, hc, heq⟩
  · rw [UDPSocket.Delivers, heq]
    exact hs
  · rw [UDPSocket.Delivers, heq]
    intro e he hresumed
    rcases List.mem_append.mp he with he | he
    · exact hs e he hresumed
    · obtain rfl := List.mem_singleton.mp he
      exact e.delivered_iff.mpr (hl e hc hresumed)

theorem roomy_of_delivers {s t : UDPSocket} {l : Label} (h : step s l = some t) (ht : t.Delivers) :
    roomy s l := by
  cases l with
  | handle i raised =>
    intro c hc hresumed
    obtain ⟨e, he, rfl⟩ := Option.map_eq_some_iff.mp h
    obtain rfl : c = e := Option.some.inj (hc.symm.trans he)
    have hmem := ht c (by rw [UDPSocket.recvHandler_handled]; exact List.mem_concat_self) hresumed
    exact c.delivered_iff.mp hmem
  | connect => trivial
  | arrive d => trivial
  | resume => trivial
  | pause => trivial
  | reset => trivial
  | close => trivial
  | receive i => trivial
  | fail i => trivial

-- a datagram that is waiting when the receive is armed has room
theorem fits_of_waiting {s : UDPSocket} {d : Datagram} (hd : d ∈ s.queue) (hne : d.payload ≠ [])
    (promise : Nat) (whileResumed : Bool) : (Completion.mk ⟨promise, s.available⟩ d whileResumed).Fits := by
  have hle : d.payload.length ≤ s.available :=
    List.single_le_sum (fun _ _ => Nat.zero_le _) _ (List.mem_map_of_mem hd)
  exact ⟨hne, Or.inl hle⟩

theorem delivers_whole_iff_roomy (ls : List Label) :
    sockets.always UDPSocket.Delivers UDPSocket.start ls ↔ sockets.meets roomy UDPSocket.start ls :=
  sockets.always_iff_meets (fun s (hs : s.Delivers) => hs) (fun _ _ _ _ h => roomy_of_delivers h)
    (fun _ _ _ hs hl h => delivers_of_roomy hs hl h) (by intro c hc; cases hc) ls

def zeros (n : Nat) (h : n ≤ 65507) : Datagram :=
  ⟨List.replicate n 0, "10.0.0.1", 5000, by simpa using h⟩

-- both arrive while an empty socket is armed, and an empty datagram comes last
theorem late_datagram_is_cut :
    let big := zeros 1500 (by decide)
    let empty := zeros 0 (by decide)
    ((sockets.run UDPSocket.start [Label.connect, Label.resume, Label.arrive big, Label.receive 0,
        Label.handle 0 false, Label.arrive empty, Label.receive 0, Label.handle 0 false]).map
          fun s => (s.handled.map (fun c => c.datagram.payload.length),
            s.events.map fun e => e.arrayBuffer.length)) = some ([1500, 0], [1024]) ∧
      ¬ sockets.always UDPSocket.Delivers UDPSocket.start
        [Label.connect, Label.resume, Label.arrive big, Label.receive 0, Label.handle 0 false] := by
  decide +kernel

end NexusRuntime.UdpSocket
