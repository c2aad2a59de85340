import NexusRuntime.Transition.System

namespace NexusRuntime.TcpSocket

open Transition

inductive State where
  | paused
  | resumed
deriving DecidableEq, Repr

inductive ErrorCode where
  | operationCanceled
  | other (value : Nat)
deriving DecidableEq, Repr

structure Buffer where
  id : Nat
  bytes : List UInt8
deriving DecidableEq, Repr

inductive Event where
  | data (arrayBuffer : Buffer)
  | error (ec : ErrorCode)
  | close
deriving DecidableEq, Repr

inductive Settlement where
  | resolve
  | reject (ec : ErrorCode)
deriving DecidableEq, Repr

inductive Next where
  | receive (bufSize : Nat)
  | schedule (buffer : Option Buffer)
  | stop
deriving DecidableEq, Repr

structure Outcome where
  myState : State
  events : List Event
  settle : Option Settlement
  next : Next
deriving DecidableEq, Repr

def recvHandler (isOpen : Bool) (available : Nat) (myState : State) (buffer : Option Buffer) :
    Option ErrorCode → Outcome
  | some .operationCanceled => ⟨.paused, [], some .resolve, .stop⟩
  | some (.other e) =>
    ⟨.paused, .error (.other e) :: (if isOpen then [] else [.close]), some (.reject (.other e)), .stop⟩
  | none =>
    let filled := buffer.filter fun b => !b.bytes.isEmpty
    let data := filled.toList.map Event.data
    match isOpen, myState with
    | true, .resumed => ⟨.resumed, data, none, .receive (if available = 0 then 1024 else available)⟩
    -- the buffer just handed to the ArrayBuffer is bound into the rescheduled call
    | true, .paused => ⟨.paused, data, none, .schedule filled⟩
    | false, _ => ⟨myState, data ++ [.close], some .resolve, .stop⟩

structure Receive where
  promise : Nat
  buffer : Nat
  bufSize : Nat
deriving DecidableEq, Repr

structure Task where
  promise : Nat
  buffer : Option Buffer
deriving DecidableEq, Repr

structure TCPSocket where
  isOpen : Bool
  myLastError : Option ErrorCode
  myState : State
  myPromise : Option Nat
  promises : Nat
  settled : List (Nat × Settlement)
  allocated : Nat
  receives : List Receive
  tasks : List Task
  completed : List Buffer
  events : List Event
deriving DecidableEq, Repr

namespace TCPSocket

def start (isOpen : Bool) : TCPSocket where
  isOpen := isOpen
  myLastError := none
  myState := .paused
  myPromise := none
  promises := 0
  settled := []
  allocated := 0
  receives := []
  tasks := []
  completed := []
  events := []

def loops (s : TCPSocket) : Nat := s.receives.length + s.tasks.length

def rearm (s : TCPSocket) (promise : Nat) : Next → TCPSocket
  | .receive bufSize =>
    { s with
      receives := s.receives ++ [⟨promise, s.allocated, bufSize⟩]
      allocated := s.allocated + 1 }
  | .schedule buffer => { s with tasks := s.tasks ++ [⟨promise, buffer⟩] }
  | .stop => s

def handle (s : TCPSocket) (promise available : Nat) (buffer : Option Buffer)
    (ec : Option ErrorCode) : TCPSocket :=
  let o := recvHandler s.isOpen available s.myState buffer ec
  { s with
    myState := o.myState
    events := s.events ++ o.events
    settled := s.settled ++ o.settle.toList.map fun r => (promise, r) : TCPSocket }.rearm promise
      o.next

def resume (s : TCPSocket) (available : Nat) : TCPSocket :=
  if s.myState = .resumed ∧ s.myPromise.isSome then s
  else { s with
    myState := .resumed
    myPromise := some s.promises
    promises := s.promises + 1 : TCPSocket }.handle s.promises available none s.myLastError

def pause (s : TCPSocket) : TCPSocket :=
  match s.myPromise with
  | some _ => { s with myState := .paused }
  | none => { s with
    myState := .paused
    myPromise := some s.promises
    promises := s.promises + 1
    settled := s.settled ++ [(s.promises, .resolve)] }

def reset (s : TCPSocket) : TCPSocket := if s.myState = .paused then s else s.pause

def received (s : TCPSocket) (r : Receive) (available : Nat) :
    Except ErrorCode (List UInt8) → TCPSocket
  | .error ec => s.handle r.promise available (some ⟨r.buffer, []⟩) (some ec)
  | .ok bytes =>
    { s with
      completed := s.completed ++ if bytes.isEmpty then [] else [⟨r.buffer, bytes⟩] : TCPSocket }.handle
      r.promise available (some ⟨r.buffer, bytes⟩) none

end TCPSocket

inductive Label where
  | connect
  | resume (available : Nat)
  | pause
  | reset
  | receive (i available : Nat) (result : Except ErrorCode (List UInt8))
  | task (i available : Nat)
  | cancel (ec : Option ErrorCode)
  | close (ec : Option ErrorCode)

def fits (r : Receive) : Except ErrorCode (List UInt8) → Bool
  | .ok bytes => decide (bytes.length ≤ r.bufSize)
  | .error _ => true

def step (s : TCPSocket) : Label → Option TCPSocket
  | .connect => some { s with isOpen := true }
  | .resume available => some (s.resume available)
  | .pause => some s.pause
  | .reset => some s.reset
  | .receive i available result =>
    (s.receives[i]?).bind fun r =>
      if fits r result then
        some ({ s with receives := s.receives.eraseIdx i : TCPSocket }.received r available result)
      else none
  | .task i available =>
    (s.tasks[i]?).map fun t =>
      { s with tasks := s.tasks.eraseIdx i : TCPSocket }.handle t.promise available t.buffer none
  | .cancel ec => some { s with myLastError := ec }
  | .close ec => some { s with isOpen := false, myLastError := ec }

def sockets : System TCPSocket Label := ⟨step⟩

def Event.arrayBuffer : Event → Option Buffer
  | .data b => some b
  | _ => none

namespace TCPSocket

def handed (s : TCPSocket) : List Buffer := s.events.filterMap Event.arrayBuffer

structure EmitsOnce (s : TCPSocket) : Prop where
  emitted : s.handed = s.completed
  distinct : (s.handed.map Buffer.id).Nodup
  oneLoop : s.loops ≤ 1

def quiet (s : TCPSocket) : Label → Prop
  | .resume _ => s.loops = 0 ∨ s.isOpen = false ∨ s.myLastError ≠ none ∨
      s.myState = .resumed ∧ s.myPromise.isSome
  | .task i _ => ∀ t ∈ s.tasks[i]?, t.buffer = none
  | _ => True

structure Sound (s : TCPSocket) : Prop where
  distinct : (s.completed.map Buffer.id).Nodup
  fresh : ∀ b ∈ s.completed, b.id < s.allocated
  pending : ∀ r ∈ s.receives, r.buffer < s.allocated ∧ ∀ b ∈ s.completed, b.id ≠ r.buffer
  filled : ∀ t ∈ s.tasks, ∀ b ∈ t.buffer, b.bytes ≠ []

structure Inv (s : TCPSocket) : Prop extends Sound s where
  emitted : s.handed = s.completed
  oneLoop : s.loops ≤ 1

def carried (buffer : Option Buffer) : Option ErrorCode → List Buffer
  | some _ => []
  | none => (buffer.filter fun b => !b.bytes.isEmpty).toList

theorem recvHandler_handed (isOpen : Bool) (available : Nat) (myState : State)
    (buffer : Option Buffer) (ec : Option ErrorCode) :
    (recvHandler isOpen available myState buffer ec).events.filterMap Event.arrayBuffer =
      carried buffer ec := by
  rcases ec with _ | (_ | e)
  · have hdata (bs : List Buffer) : (bs.map Event.data).filterMap Event.arrayBuffer = bs := by
      rw [List.filterMap_map]
      exact List.filterMap_some
    cases isOpen with
    | true => cases myState <;> exact hdata _
    | false =>
      simp only [recvHandler, List.filterMap_append, hdata]
      exact List.append_nil _
  · rfl
  · cases isOpen <;> rfl

theorem rearm_events (s : TCPSocket) (promise : Nat) (n : Next) :
    (s.rearm promise n).events = s.events := by cases n <;> rfl

theorem rearm_completed (s : TCPSocket) (promise : Nat) (n : Next) :
    (s.rearm promise n).completed = s.completed := by cases n <;> rfl

theorem handle_completed (s : TCPSocket) (promise available : Nat) (buffer : Option Buffer)
    (ec : Option ErrorCode) : (s.handle promise available buffer ec).completed = s.completed :=
  rearm_completed _ _ _

theorem handle_handed (s : TCPSocket) (promise available : Nat) (buffer : Option Buffer)
    (ec : Option ErrorCode) :
    (s.handle promise available buffer ec).handed = s.handed ++ carried buffer ec := by
  simp only [handed, handle, rearm_events, List.filterMap_append, recvHandler_handed]

theorem handle_loops (s : TCPSocket) (promise available : Nat) (buffer : Option Buffer)
    (ec : Option ErrorCode) :
    (s.handle promise available buffer ec).loops =
      s.loops + if s.isOpen = true ∧ ec = none then 1 else 0 := by
  rcases ec with _ | (_ | e)
  · cases ho : s.isOpen with
    | true => cases hs : s.myState <;> simp [handle, recvHandler, rearm, loops, ho, hs] <;> omega
    | false => simp [handle, recvHandler, rearm, loops, ho]
  · simp [handle, recvHandler, rearm, loops]
  · simp [handle, recvHandler, rearm, loops]

theorem rearm_sound {s : TCPSocket} (hs : s.Sound) (promise : Nat) (n : Next)
    (hn : ∀ b, n = .schedule (some b) → b.bytes ≠ []) : (s.rearm promise n).Sound := by
  cases n with
  | stop => exact hs
  | receive bufSize =>
    refine ⟨hs.distinct, fun b hb => Nat.lt_succ_of_lt (hs.fresh b hb), ?_, hs.filled⟩
    intro r hr
    rcases List.mem_append.mp hr with hr | hr
    · exact ⟨Nat.lt_succ_of_lt (hs.pending r hr).1, (hs.pending r hr).2⟩
    · obtain rfl := List.mem_singleton.mp hr
      exact ⟨Nat.lt_succ_self _, fun b hb => Nat.ne_of_lt (hs.fresh b hb)⟩
  | schedule buffer =>
    refine ⟨hs.distinct, hs.fresh, hs.pending, ?_⟩
    intro t ht b hb
    rcases List.mem_append.mp ht with ht | ht
    · exact hs.filled t ht b hb
    · obtain rfl := List.mem_singleton.mp ht
      exact hn b (congrArg Next.schedule hb)

theorem recvHandler_schedule {isOpen : Bool} {available : Nat} {myState : State}
    {buffer : Option Buffer} {ec : Option ErrorCode} {b : Buffer}
    (h : (recvHandler isOpen available myState buffer ec).next = .schedule (some b)) :
    b.bytes ≠ [] := by
  rcases ec with _ | (_ | e)
  · cases isOpen with
    | true =>
      cases myState with
      | paused =>
        have hb := (Option.filter_eq_some_iff.mp (Next.schedule.inj h)).2
        simpa using hb
      | resumed => cases h
    | false => cases h
  · cases h
  · cases h

theorem handle_sound {s : TCPSocket} (hs : s.Sound) (promise available : Nat)
    (buffer : Option Buffer) (ec : Option ErrorCode) :
    (s.handle promise available buffer ec).Sound := by
  simp only [handle]
  refine rearm_sound ?_ _ _ fun _ hb => recvHandler_schedule hb
  exact ⟨hs.distinct, hs.fresh, hs.pending, hs.filled⟩

theorem resume_sound {s : TCPSocket} (hs : s.Sound) (available : Nat) :
    (s.resume available).Sound := by
  simp only [resume]
  split
  · exact hs
  · refine handle_sound ?_ _ _ _ _
    exact ⟨hs.distinct, hs.fresh, hs.pending, hs.filled⟩

theorem resume_completed (s : TCPSocket) (available : Nat) :
    (s.resume available).completed = s.completed := by
  simp only [resume]
  split
  · rfl
  · exact handle_completed _ _ _ _ _

theorem resume_handed (s : TCPSocket) (available : Nat) :
    (s.resume available).handed = s.handed := by
  simp only [resume]
  split
  · rfl
  · rw [handle_handed]
    cases s.myLastError <;> exact List.append_nil _

theorem resume_loops (s : TCPSocket) (available : Nat) :
    (s.resume available).loops =
      if s.myState = .resumed ∧ s.myPromise.isSome then s.loops
      else s.loops + if s.isOpen = true ∧ s.myLastError = none then 1 else 0 := by
  simp only [resume]
  split
  · rfl
  · exact handle_loops _ _ _ _ _

theorem pause_frame (s : TCPSocket) : ∃ p n settled,
    s.pause = { s with myState := .paused, myPromise := p, promises := n, settled := settled } := by
  simp only [pause]
  cases s.myPromise with
  | some p => exact ⟨_, _, _, rfl⟩
  | none => exact ⟨_, _, _, rfl⟩

theorem pause_inv {s : TCPSocket} (hs : s.Inv) : s.pause.Inv := by
  obtain ⟨p, n, settled, h⟩ := s.pause_frame
  rw [h]
  exact ⟨⟨hs.distinct, hs.fresh, hs.pending, hs.filled⟩, hs.emitted, hs.oneLoop⟩

theorem resume_inv {s : TCPSocket} (hs : s.Inv) {available : Nat}
    (hq : s.quiet (.resume available)) : (s.resume available).Inv := by
  refine ⟨resume_sound hs.toSound available, ?_, ?_⟩
  · rw [resume_handed, resume_completed, hs.emitted]
  · have hone := hs.oneLoop
    rw [resume_loops]
    rcases hq with hq | hq | hq | hq
    · rw [hq]
      split
      · exact Nat.zero_le 1
      · split <;> omega
    · simpa [hq] using hone
    · simpa [hq] using hone
    · rwa [if_pos hq]

theorem task_inv {s : TCPSocket} (hs : s.Inv) {i available : Nat} {t : Task}
    (ht : s.tasks[i]? = some t) (hb : t.buffer = none) :
    Inv ({ s with tasks := s.tasks.eraseIdx i : TCPSocket }.handle t.promise available t.buffer none) := by
  obtain ⟨hi, -⟩ := List.getElem?_eq_some_iff.mp ht
  refine ⟨handle_sound ?_ _ _ _ _, ?_, ?_⟩
  · exact ⟨hs.distinct, hs.fresh, hs.pending,
      fun u hu => hs.filled u (List.mem_of_mem_eraseIdx hu)⟩
  · rw [handle_handed, handle_completed, hb]
    exact (List.append_nil _).trans hs.emitted
  · have hone := hs.oneLoop
    rw [handle_loops]
    simp only [loops, List.length_eraseIdx_of_lt hi] at hone ⊢
    split <;> omega

theorem complete_sound {s : TCPSocket} (hs : s.Sound) {id : Nat} (hid : id < s.allocated)
    (hnew : ∀ b ∈ s.completed, b.id ≠ id) (hnone : s.receives = []) (bytes : List UInt8) :
    Sound { s with completed := s.completed ++ if bytes.isEmpty then [] else [⟨id, bytes⟩] } := by
  cases bytes with
  | nil => simpa using hs
  | cons c cs =>
    refine ⟨?_, ?_, by simp [hnone], hs.filled⟩
    · simp only [List.isEmpty_cons, Bool.false_eq_true, if_false, List.map_append, List.map_cons,
        List.map_nil]
      refine List.nodup_append.mpr ⟨hs.distinct, by simp, ?_⟩
      intro a ha x hx
      obtain ⟨d, hd, rfl⟩ := List.mem_map.mp ha
      rw [List.mem_singleton.mp hx]
      exact hnew d hd
    · intro b hb
      rcases List.mem_append.mp hb with hb | hb
      · exact hs.fresh b hb
      · rw [List.mem_singleton.mp hb]
        exact hid

theorem received_inv {s : TCPSocket} (hs : s.Inv) {i : Nat} {r : Receive} (available : Nat)
    (result : Except ErrorCode (List UInt8)) (hr : s.receives[i]? = some r) :
    Inv ({ s with receives := s.receives.eraseIdx i : TCPSocket }.received r available result) := by
  obtain ⟨hi, hri⟩ := List.getElem?_eq_some_iff.mp hr
  obtain ⟨hid, hnew⟩ := hs.pending r (hri ▸ List.getElem_mem hi)
  -- the completed receive was the only live loop
  have hone := hs.oneLoop
  simp only [loops] at hone
  have hrest : s.receives.eraseIdx i = [] := by
    rw [← List.length_eq_zero_iff, List.length_eraseIdx_of_lt hi]
    omega
  have htasks : s.tasks = [] := by
    rw [← List.length_eq_zero_iff]
    omega
  rw [hrest]
  have hidle : Sound { s with receives := [] } := ⟨hs.distinct, hs.fresh, by simp, hs.filled⟩
  cases result with
  | error ec =>
    refine ⟨handle_sound hidle _ _ _ _, ?_, ?_⟩
    · rw [received, handle_handed, handle_completed]
      exact (List.append_nil _).trans hs.emitted
    · simp only [received, handle_loops]
      simp [loops, htasks]
  | ok bytes =>
    refine ⟨handle_sound (complete_sound hidle hid hnew rfl bytes) _ _ _ _, ?_, ?_⟩
    · have hdata : carried (some ⟨r.buffer, bytes⟩) none =
          if bytes.isEmpty then [] else [⟨r.buffer, bytes⟩] := by
        cases bytes <;> rfl
      rw [received, handle_handed, handle_completed, hdata, ← hs.emitted]
      rfl
    · simp only [received, handle_loops]
      simp only [loops, htasks, List.length_nil]
      split <;> omega

theorem inv_step (s : TCPSocket) (l : Label) (t : TCPSocket) (hs : s.Inv) (hq : s.quiet l)
    (h : sockets.step s l = some t) : t.Inv := by
  cases l with
  | connect =>
    cases h
    exact ⟨⟨hs.distinct, hs.fresh, hs.pending, hs.filled⟩, hs.emitted, hs.oneLoop⟩
  | resume available =>
    cases h
    exact resume_inv hs hq
  | pause =>
    cases h
    exact pause_inv hs
  | reset =>
    cases h
    simp only [reset]
    split
    · exact hs
    · exact pause_inv hs
  | receive i available result =>
    obtain ⟨r, hr, hf⟩ := Option.bind_eq_some_iff.mp h
    split at hf
    · obtain rfl := Option.some.inj hf
      exact received_inv hs available result hr
    · cases hf
  | task i available =>
    obtain ⟨u, hu, rfl⟩ := Option.map_eq_some_iff.mp h
    exact task_inv hs hu (hq u hu)
  | cancel ec | close ec =>
    cases h
    exact ⟨⟨hs.distinct, hs.fresh, hs.pending, hs.filled⟩, hs.emitted, hs.oneLoop⟩

theorem quiet_of_emitsOnce (s : TCPSocket) (l : Label) (t : TCPSocket) (hs : s.Inv)
    (h : sockets.step s l = some t) (ht : t.EmitsOnce) : s.quiet l := by
  cases l with
  | connect | pause | reset | receive i available result | cancel ec | close ec => trivial
  | resume available =>
    cases h
    have hone := ht.oneLoop
    rw [resume_loops] at hone
    by_contra hq
    simp only [quiet, not_or, Bool.not_eq_false, not_not] at hq
    obtain ⟨hl, ho, he, hr⟩ := hq
    rw [if_neg hr, if_pos ⟨ho, he⟩] at hone
    omega
  | task i available =>
    obtain ⟨u, hu, rfl⟩ := Option.map_eq_some_iff.mp h
    intro v hv
    obtain rfl : u = v := Option.some.inj (hu.symm.trans hv)
    cases hb : u.buffer with
    | none => rfl
    | some b =>
      have hfull : b.bytes ≠ [] := hs.filled u (List.mem_of_getElem? hu) b hb
      have hc : carried (some b) none = [b] := by simp [carried, hfull]
      have hem := ht.emitted
      rw [handle_handed, handle_completed, hb, hc] at hem
      have hlen := congrArg List.length (hem.trans hs.emitted.symm)
      simp only [handed, List.length_append, List.length_singleton] at hlen
      omega

theorem inv_emitsOnce (s : TCPSocket) (hs : s.Inv) : s.EmitsOnce :=
  ⟨hs.emitted, hs.emitted ▸ hs.distinct, hs.oneLoop⟩

theorem inv_start (isOpen : Bool) : (start isOpen).Inv :=
  ⟨⟨List.nodup_nil, by simp [start], by simp [start], by simp [start]⟩, rfl, Nat.zero_le 1⟩

theorem emitsOnce_iff_quiet (isOpen : Bool) (ls : List Label) :
    sockets.always EmitsOnce (start isOpen) ls ↔ sockets.meets quiet (start isOpen) ls :=
  sockets.always_iff_meets inv_emitsOnce quiet_of_emitsOnce inv_step (inv_start isOpen) ls

theorem paused_chunk_emitted_again :
    ¬ sockets.always EmitsOnce (start true)
      [.resume 0, .pause, .receive 0 0 (.ok [104, 105]), .task 0 0] := by
  intro h
  have hlast := (sockets.always_iff_prefixes _ _ _).mp h _ List.prefix_rfl _ rfl
  exact absurd hlast.emitted (by decide)

end TCPSocket

end NexusRuntime.TcpSocket
