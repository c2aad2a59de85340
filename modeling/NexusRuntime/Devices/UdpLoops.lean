import Mathlib.Data.List.Perm.Basic
import NexusRuntime.Devices.UdpSocket

namespace NexusRuntime.UdpSocket

open Transition

inductive Call where
  | protect
  | unprotect
  | hold
  | release
deriving DecidableEq, Repr

-- the socket, and the calls its receive loops make on the scheduler and for the object
structure Device where
  socket : UDPSocket
  calls : List Call
deriving DecidableEq, Repr

namespace Device

-- myState is not initialised by the constructor
def start (initial : State) : Device := ⟨{ UDPSocket.start with myState := initial }, []⟩

def settle (d : Device) (promise : Nat) (r : Settlement) : Device :=
  ⟨d.socket.settle promise r, d.calls ++ [.unprotect, .release]⟩

def rearm (d : Device) (promise : Nat) : Device :=
  if d.socket.isOpen = true ∧ d.socket.myState = .resumed then
    { d with socket := { d.socket with
        receives := d.socket.receives ++ [⟨promise, d.socket.available⟩] } }
  else d.settle promise .resolve

def recvHandler (d : Device) (c : Completion) (raised : Bool) : Device :=
  let e := { d with socket := { d.socket with handled := d.socket.handled ++ [c] } : Device }
  if raised = true ∧ c.emitted ≠ [] then e.settle c.receive.promise .reject
  else e.rearm c.receive.promise

def started (d : Device) : Device where
  socket := { d.socket with
    myState := .resumed
    myPromise := some d.socket.promises
    promises := d.socket.promises + 1 }
  calls := d.calls ++ [.protect, .hold]

def resume (d : Device) : Device :=
  if d.socket.myState = .resumed ∧ d.socket.myPromise.isSome then d
  else d.started.rearm d.socket.promises

def step (d : Device) : Label → Option Device
  | .resume => some d.resume
  | .fail i =>
    (d.socket.receives[i]?).map fun r =>
      { d with socket := { d.socket with receives := d.socket.receives.eraseIdx i } : Device }.settle
        r.promise .reject
  | .handle i raised =>
    (d.socket.completions[i]?).map fun c =>
      { d with socket := { d.socket with
          completions := d.socket.completions.eraseIdx i } : Device }.recvHandler c raised
  | l => (UdpSocket.step d.socket l).map fun s => { d with socket := s }

def holding : System Device Label := ⟨step⟩

-- the promises of the loops that wait for a datagram or for their handler
def live (d : Device) : List Nat :=
  d.socket.receives.map Receive.promise ++ d.socket.completions.map fun c => c.receive.promise

def settled (d : Device) : List Nat := d.socket.settled.map Prod.fst

structure Accounted (d : Device) : Prop where
  held : d.calls.count .hold = d.calls.count .release + d.live.length
  guarded : d.calls.count .protect = d.calls.count .unprotect + d.live.length
  settles : (d.settled ++ d.live).Perm (List.range d.socket.promises)

structure OneLoop (d : Device) : Prop extends Accounted d where
  atMostOne : d.live.length ≤ 1

def alone (d : Device) : Label → Prop
  | .resume => d.socket.isOpen = true → d.live ≠ [] →
      d.socket.myState = .resumed ∧ d.socket.myPromise.isSome = true
  | _ => True

@[simp] theorem settle_socket (d : Device) (promise : Nat) (r : Settlement) :
    (d.settle promise r).socket = d.socket.settle promise r := rfl

theorem rearm_socket (d : Device) (promise : Nat) :
    (d.rearm promise).socket = d.socket.rearm promise := by
  rw [rearm, UDPSocket.rearm]
  split <;> rfl

theorem recvHandler_socket (d : Device) (c : Completion) (raised : Bool) :
    (d.recvHandler c raised).socket = d.socket.recvHandler c raised := by
  simp only [recvHandler, UDPSocket.recvHandler]
  split
  · rfl
  · exact rearm_socket _ _

theorem resume_socket (d : Device) : d.resume.socket = d.socket.resume := by
  rw [resume, UDPSocket.resume]
  split
  · rfl
  · exact rearm_socket _ _

-- the socket is the one that UdpSocket.step runs
theorem step_socket (d : Device) (l : Label) :
    (step d l).map Device.socket = UdpSocket.step d.socket l := by
  cases l with
  | resume => exact congrArg some d.resume_socket
  | fail i =>
    simp only [step, UdpSocket.step]
    cases d.socket.receives[i]? <;> rfl
  | handle i raised =>
    simp only [step, UdpSocket.step]
    cases d.socket.completions[i]? with
    | none => rfl
    | some c => exact congrArg some (recvHandler_socket _ c raised)
  | connect => rfl
  | pause => rfl
  | reset => rfl
  | close => rfl
  | arrive x =>
    simp only [step, Option.map_map]
    cases UdpSocket.step d.socket (.arrive x) <;> rfl
  | receive i =>
    simp only [step, Option.map_map]
    cases UdpSocket.step d.socket (.receive i) <;> rfl

-- loop p has been taken out of those that are live, to run its handler
structure Running (d : Device) (p : Nat) : Prop where
  held : d.calls.count .hold = d.calls.count .release + (d.live.length + 1)
  guarded : d.calls.count .protect = d.calls.count .unprotect + (d.live.length + 1)
  settles : (d.settled ++ p :: d.live).Perm (List.range d.socket.promises)

variable {d : Device} {p : Nat}

theorem settle_accounted (h : d.Running p) (r : Settlement) : (d.settle p r).Accounted := by
  have hlive : (d.settle p r).live = d.live := rfl
  have hsettled : (d.settle p r).settled = d.settled ++ [p] := List.map_append
  refine ⟨?_, ?_, ?_⟩
  · have := h.held
    simp only [settle, List.count_append] at hlive ⊢
    rw [hlive]
    simp
    omega
  · have := h.guarded
    simp only [settle, List.count_append] at hlive ⊢
    rw [hlive]
    simp
    omega
  · rw [hsettled, hlive, List.append_assoc]
    exact h.settles

theorem rearm_live (hd : d.socket.isOpen = true ∧ d.socket.myState = .resumed) :
    (d.rearm p).live.Perm (p :: d.live) := by
  rw [rearm, if_pos hd]
  simp only [live, List.map_append, List.map_cons, List.map_nil, List.append_assoc]
  exact List.perm_middle

theorem rearm_accounted (h : d.Running p) : (d.rearm p).Accounted := by
  by_cases hd : d.socket.isOpen = true ∧ d.socket.myState = .resumed
  · have hlive := rearm_live (p := p) hd
    have hlen := hlive.length_eq
    rw [List.length_cons] at hlen
    have hcalls : (d.rearm p).calls = d.calls := by rw [rearm, if_pos hd]
    have hsettled : (d.rearm p).settled = d.settled := by rw [rearm, if_pos hd]; rfl
    have hpromises : (d.rearm p).socket.promises = d.socket.promises := by rw [rearm, if_pos hd]
    refine ⟨?_, ?_, ?_⟩
    · rw [hcalls, hlen]
      exact h.held
    · rw [hcalls, hlen]
      exact h.guarded
    · rw [hsettled, hpromises]
      exact (hlive.append_left _).trans h.settles
  · rw [rearm, if_neg hd]
    exact settle_accounted h .resolve

theorem rearm_length (d : Device) (p : Nat) : (d.rearm p).live.length ≤ d.live.length + 1 := by
  by_cases hd : d.socket.isOpen = true ∧ d.socket.myState = .resumed
  · rw [(rearm_live hd).length_eq, List.length_cons]
  · rw [rearm, if_neg hd]
    exact Nat.le_succ _

theorem running_receive (h : d.Accounted) {i : Nat} {r : Receive}
    (hr : d.socket.receives[i]? = some r) :
    let e := { d with socket := { d.socket with receives := d.socket.receives.eraseIdx i } : Device }
    e.Running r.promise ∧ d.live.length = e.live.length + 1 := by
  intro e
  obtain ⟨hi, rfl⟩ := List.getElem?_eq_some_iff.mp hr
  have hperm : d.live.Perm (d.socket.receives[i].promise :: e.live) :=
    ((List.getElem_cons_eraseIdx_perm hi).symm.map Receive.promise).append_right _
  have hlen := hperm.length_eq
  rw [List.length_cons] at hlen
  exact ⟨⟨hlen ▸ h.held, hlen ▸ h.guarded, (hperm.symm.append_left _).trans h.settles⟩, hlen⟩

theorem running_completion (h : d.Accounted) {i : Nat} {c : Completion}
    (hc : d.socket.completions[i]? = some c) :
    let e := { d with socket := { d.socket with
      completions := d.socket.completions.eraseIdx i } : Device }
    e.Running c.receive.promise ∧ d.live.length = e.live.length + 1 := by
  intro e
  obtain ⟨hi, rfl⟩ := List.getElem?_eq_some_iff.mp hc
  have hmoved := (List.getElem_cons_eraseIdx_perm hi).symm.map fun c => c.receive.promise
  have hperm : d.live.Perm (d.socket.completions[i].receive.promise :: e.live) :=
    (hmoved.append_left _).trans List.perm_middle
  have hlen := hperm.length_eq
  rw [List.length_cons] at hlen
  exact ⟨⟨hlen ▸ h.held, hlen ▸ h.guarded, (hperm.symm.append_left _).trans h.settles⟩, hlen⟩

theorem recvHandler_accounted {c : Completion} (h : d.Running c.receive.promise) (raised : Bool) :
    (d.recvHandler c raised).Accounted ∧
      (d.recvHandler c raised).live.length ≤ d.live.length + 1 := by
  have he : Running { d with socket := { d.socket with handled := d.socket.handled ++ [c] } }
      c.receive.promise := ⟨h.held, h.guarded, h.settles⟩
  simp only [recvHandler]
  split
  · exact ⟨settle_accounted he .reject, Nat.le_succ _⟩
  · exact ⟨rearm_accounted he, rearm_length _ _⟩

theorem perm_range_succ {xs : List Nat} {n : Nat} (h : xs.Perm (List.range n)) :
    (xs ++ [n]).Perm (List.range (n + 1)) := by
  rw [List.range_succ]
  exact h.append_right [n]

theorem started_running (h : d.Accounted) : d.started.Running d.socket.promises := by
  have hlive : d.started.live = d.live := rfl
  refine ⟨?_, ?_, ?_⟩
  · have := h.held
    rw [hlive]
    simp only [started, List.count_append]
    simp
    omega
  · have := h.guarded
    rw [hlive]
    simp only [started, List.count_append]
    simp
    omega
  · have hperm : (d.settled ++ d.socket.promises :: d.live).Perm
        (d.settled ++ d.live ++ [d.socket.promises]) := by
      rw [List.append_assoc]
      exact (List.perm_append_singleton _ _).symm.append_left _
    exact hperm.trans (perm_range_succ h.settles)

theorem resume_early (hd : d.socket.myState = .resumed ∧ d.socket.myPromise.isSome = true) :
    d.resume = d := if_pos hd

theorem resume_accounted (h : d.Accounted) : d.resume.Accounted := by
  by_cases hd : d.socket.myState = .resumed ∧ d.socket.myPromise.isSome = true
  · rw [resume_early hd]
    exact h
  · rw [resume, if_neg hd]
    exact rearm_accounted (started_running h)

theorem resume_length (hd : ¬ (d.socket.myState = .resumed ∧ d.socket.myPromise.isSome = true)) :
    d.resume.live.length = d.live.length + if d.socket.isOpen = true then 1 else 0 := by
  rw [resume, if_neg hd]
  by_cases hopen : d.socket.isOpen = true
  · have hready : d.started.socket.isOpen = true ∧ d.started.socket.myState = .resumed :=
      ⟨hopen, rfl⟩
    rw [(rearm_live hready).length_eq, List.length_cons, if_pos hopen]
    rfl
  · rw [rearm, if_neg (fun h => hopen h.1), if_neg hopen]
    rfl

theorem pause_accounted (h : d.Accounted) : Accounted { d with socket := d.socket.pause } := by
  rw [UDPSocket.pause]
  split
  · exact ⟨h.held, h.guarded, h.settles⟩
  · refine ⟨h.held, h.guarded, ?_⟩
    have hperm : (d.settled ++ [d.socket.promises] ++ d.live).Perm
        (d.settled ++ d.live ++ [d.socket.promises]) := by
      rw [List.append_assoc, List.append_assoc]
      exact (List.perm_append_singleton _ _).symm.append_left _
    show ((d.socket.settled ++ [(d.socket.promises, Settlement.resolve)]).map Prod.fst ++ d.live).Perm _
    rw [List.map_append]
    exact hperm.trans (perm_range_succ h.settles)

theorem pause_live (d : Device) : live { d with socket := d.socket.pause } = d.live := by
  rw [UDPSocket.pause]
  split <;> rfl

theorem reset_accounted (h : d.Accounted) : Accounted { d with socket := d.socket.reset } := by
  rw [UDPSocket.reset]
  split
  · exact h
  · exact pause_accounted h

theorem reset_live (d : Device) : live { d with socket := d.socket.reset } = d.live := by
  rw [UDPSocket.reset]
  split
  · rfl
  · exact pause_live d

theorem step_accounted {t : Device} {l : Label} (h : d.Accounted) (hstep : step d l = some t) :
    t.Accounted ∧ (t.live.length ≤ d.live.length ∨ l = .resume ∧ t = d.resume) := by
  cases l with
  | resume =>
    cases hstep
    exact ⟨resume_accounted h, .inr ⟨rfl, rfl⟩⟩
  | connect =>
    cases hstep
    exact ⟨⟨h.held, h.guarded, h.settles⟩, .inl (Nat.le_refl _)⟩
  | close =>
    cases hstep
    exact ⟨⟨h.held, h.guarded, h.settles⟩, .inl (Nat.le_refl _)⟩
  | pause =>
    cases hstep
    exact ⟨pause_accounted h, .inl (Nat.le_of_eq (congrArg List.length d.pause_live))⟩
  | reset =>
    cases hstep
    exact ⟨reset_accounted h, .inl (Nat.le_of_eq (congrArg List.length d.reset_live))⟩
  | arrive x =>
    obtain ⟨s, hs, rfl⟩ := Option.map_eq_some_iff.mp hstep
    simp only [UdpSocket.step] at hs
    split at hs
    · cases hs
      exact ⟨⟨h.held, h.guarded, h.settles⟩, .inl (Nat.le_refl _)⟩
    · cases hs
  | receive i =>
    obtain ⟨s, hs, rfl⟩ := Option.map_eq_some_iff.mp hstep
    simp only [UdpSocket.step] at hs
    split at hs
    · next r x queue hr hq =>
      cases hs
      obtain ⟨hrunning, hlen⟩ := running_receive h hr
      have hlive : live { d with socket := { d.socket with
          queue := queue
          receives := d.socket.receives.eraseIdx i
          completions := d.socket.completions ++
            [⟨r, x, decide (d.socket.myState = .resumed)⟩] } } =
          live { d with socket := { d.socket with receives := d.socket.receives.eraseIdx i } } ++
            [r.promise] := by
        simp only [live, List.map_append, List.append_assoc, List.map_cons, List.map_nil]
      have hlength := congrArg List.length hlive
      rw [List.length_append, List.length_singleton, ← hlen] at hlength
      refine ⟨⟨?_, ?_, ?_⟩, .inl (Nat.le_of_eq hlength)⟩
      · rw [hlength]
        exact h.held
      · rw [hlength]
        exact h.guarded
      · rw [hlive]
        exact ((List.perm_append_singleton _ _).append_left _).trans hrunning.settles
    · cases hs
  | fail i =>
    obtain ⟨r, hr, rfl⟩ := Option.map_eq_some_iff.mp hstep
    obtain ⟨hrunning, hlen⟩ := running_receive h hr
    refine ⟨settle_accounted hrunning .reject, .inl ?_⟩
    rw [hlen]
    exact Nat.le_succ _
  | handle i raised =>
    obtain ⟨c, hc, rfl⟩ := Option.map_eq_some_iff.mp hstep
    obtain ⟨hrunning, hlen⟩ := running_completion h hc
    obtain ⟨haccounted, hle⟩ := recvHandler_accounted hrunning raised
    exact ⟨haccounted, .inl (hlen ▸ hle)⟩

theorem oneLoop_of_alone {t : Device} {l : Label} (h : d.OneLoop) (hl : d.alone l)
    (hstep : step d l = some t) : t.OneLoop := by
  obtain ⟨haccounted, hle | ⟨rfl, rfl⟩⟩ := step_accounted h.toAccounted hstep
  · exact ⟨haccounted, Nat.le_trans hle h.atMostOne⟩
  · refine ⟨haccounted, ?_⟩
    by_cases hearly : d.socket.myState = .resumed ∧ d.socket.myPromise.isSome = true
    · rw [resume_early hearly]
      exact h.atMostOne
    · rw [resume_length hearly]
      by_cases hopen : d.socket.isOpen = true
      · have hnil : d.live = [] := by
          by_contra hne
          exact hearly (hl hopen hne)
        rw [hnil, if_pos hopen]
        exact Nat.le_refl _
      · rw [if_neg hopen]
        exact h.atMostOne

theorem alone_of_oneLoop {t : Device} {l : Label} (hstep : step d l = some t) (ht : t.OneLoop) :
    d.alone l := by
  cases l with
  | resume =>
    intro hopen hne
    by_contra hearly
    cases hstep
    have hlen := resume_length hearly
    have hpos := List.length_pos_iff.mpr hne
    have hone := ht.atMostOne
    rw [if_pos hopen] at hlen
    omega
  | connect => trivial
  | arrive x => trivial
  | pause => trivial
  | reset => trivial
  | close => trivial
  | receive i => trivial
  | fail i => trivial
  | handle i raised => trivial

theorem oneLoop_iff_alone (initial : State) (ls : List Label) :
    holding.always OneLoop (start initial) ls ↔ holding.meets alone (start initial) ls :=
  holding.always_iff_meets (fun _ h => h) (fun _ _ _ _ hstep ht => alone_of_oneLoop hstep ht)
    (fun _ _ _ h hl hstep => oneLoop_of_alone h hl hstep)
    ⟨⟨rfl, rfl, List.Perm.refl _⟩, Nat.zero_le _⟩ ls

theorem resume_during_receive :
    ((holding.run (start .paused) [Label.connect, Label.resume, Label.pause, Label.resume]).map
        fun d => (d.live, d.calls.count .hold, d.calls.count .release)) = some ([0, 1], 2, 0) ∧
      ¬ holding.always OneLoop (start .paused)
        [Label.connect, Label.resume, Label.pause, Label.resume] := by
  refine ⟨by decide, fun h => ?_⟩
  have hend := (System.always_iff_prefixes _ _ _ _).mp h _ (List.prefix_refl _) _ rfl
  exact absurd hend.atMostOne (by decide)

end Device
end NexusRuntime.UdpSocket
