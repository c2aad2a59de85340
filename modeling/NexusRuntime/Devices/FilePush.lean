import NexusRuntime.Devices.InputStream
import NexusRuntime.Sequence.Place
import NexusRuntime.Transition.System

namespace NexusRuntime.FilePush

open Transition Sequence

def bufferSize : Nat := 8 * 1024 * 1024

inductive State where
  | paused
  | resumed
deriving DecidableEq, Repr

inductive Settlement where
  | resolve
  | reject
deriving DecidableEq, Repr

inductive Phase where
  | task
  | emitting
deriving DecidableEq, Repr

structure Loop where
  promise : Nat
  phase : Phase
deriving DecidableEq, Repr

structure FilePushDevice where
  myStream : InputStream
  isOpen : Bool
  myState : State
  myPromise : Option Nat
  promises : List (Option Settlement)
  loops : List Loop
  payloads : List (List UInt8)
  ends : Nat
  errors : Nat
deriving DecidableEq, Repr

namespace FilePushDevice

def start (content : List UInt8) : FilePushDevice where
  myStream := .opened content
  isOpen := true
  myState := .paused
  myPromise := none
  promises := []
  loops := []
  payloads := []
  ends := 0
  errors := 0

def settle (d : FilePushDevice) (promise : Nat) (r : Settlement) : FilePushDevice :=
  { d with promises := d.promises.modify promise fun o => o.or (some r) }

def resume (d : FilePushDevice) : FilePushDevice :=
  match d.myState with
  | .resumed => d
  | .paused =>
    { d with
      myStream := if d.isOpen then d.myStream else .opened d.myStream.content
      isOpen := true
      myState := .resumed
      myPromise := some d.promises.length
      promises := d.promises ++ [none]
      loops := d.loops ++ [⟨d.promises.length, .task⟩] }

def pause (d : FilePushDevice) : FilePushDevice :=
  match d.myState with
  | .resumed => { d with myState := .paused }
  | .paused =>
    { d with
      myPromise := some d.promises.length
      promises := d.promises ++ [some .resolve] }

def readHandler (d : FilePushDevice) (i promise : Nat) (avail : Option Nat) : FilePushDevice :=
  match d.myState with
  | .paused => d
  | .resumed =>
    match d.myStream.fetch bufferSize avail with
    | (s, b :: bs) =>
      { d with
        myStream := s
        payloads := d.payloads ++ [b :: bs]
        loops := d.loops.set i ⟨promise, .emitting⟩ }
    | (s, []) =>
      if s.eof then
        { d with
          myStream := s
          myState := .paused
          ends := d.ends + 1
          loops := d.loops.eraseIdx i : FilePushDevice }.settle promise .resolve
      else { d with myStream := s }

def emitted (d : FilePushDevice) (i promise : Nat) : Bool → FilePushDevice
  | true =>
    if d.myStream.eof then
      { d with
        ends := d.ends + 1
        loops := d.loops.eraseIdx i : FilePushDevice }.settle promise .resolve
    else { d with loops := d.loops.set i ⟨promise, .task⟩ }
  | false =>
    { d with
      myState := .paused
      errors := d.errors + 1
      loops := d.loops.eraseIdx i : FilePushDevice }.settle promise .reject

end FilePushDevice

inductive Label where
  | resume
  | pause
  | task (i : Nat) (avail : Option Nat)
  | emitted (i : Nat) (fulfilled : Bool)
deriving DecidableEq, Repr

def step (d : FilePushDevice) : Label → Option FilePushDevice
  | .resume => some d.resume
  | .pause => some d.pause
  | .task i avail =>
    match d.loops[i]? with
    | some ⟨promise, .task⟩ =>
      if d.myStream.inAvail avail then some (d.readHandler i promise avail) else none
    | _ => none
  | .emitted i fulfilled =>
    match d.loops[i]? with
    | some ⟨promise, .emitting⟩ => some (d.emitted i promise fulfilled)
    | _ => none

def devices : System FilePushDevice Label := ⟨step⟩

def Label.fulfilled : Label → Bool
  | .emitted _ fulfilled => fulfilled
  | _ => true

namespace FilePushDevice

structure Delivers (content : List UInt8) (d : FilePushDevice) : Prop where
  oneLoop : d.loops.length ≤ 1
  inOrder : d.payloads.flatten <+: content
  endOnce : d.ends ≤ 1
  noRetry : d.myStream.eof = true → ∀ l ∈ d.loops, l.phase = .emitting
  finished : d.myStream.eof = true → d.loops = [] →
    d.ends = 1 ∧ ∀ o ∈ d.promises, o = some .resolve

def orderly (d : FilePushDevice) (l : Label) : Prop :=
  l = .resume → d.myState = .paused → d.loops = [] ∧ d.myStream.eof = false

instance decidableOrderly (d : FilePushDevice) (l : Label) : Decidable (d.orderly l) :=
  inferInstanceAs (Decidable (_ → _))

structure Inv (content : List UInt8) (d : FilePushDevice) : Prop where
  file : d.myStream.content = content
  consistent : d.myStream.Consistent
  isOpen : d.isOpen = true
  consumed : d.payloads.flatten = content.take d.myStream.pos
  oneLoop : d.loops.length ≤ 1
  ends : d.ends = if d.myStream.eof = true ∧ d.loops = [] then 1 else 0
  noRetry : d.myStream.eof = true → ∀ l ∈ d.loops, l.phase = .emitting
  settled : ∀ j o, d.promises[j]? = some o →
    o = some .resolve ∨ o = none ∧ ∃ l ∈ d.loops, l.promise = j

variable {content : List UInt8}

theorem only_loop {d : FilePushDevice} (hd : d.Inv content) {i : Nat} {l : Loop}
    (hl : d.loops[i]? = some l) : i = 0 ∧ d.loops = [l] := by
  have hone := hd.oneLoop
  match hd' : d.loops, hl with
  | [], hl => simp at hl
  | [m], hl =>
    cases i with
    | zero => exact ⟨rfl, by rw [Option.some.inj hl]⟩
    | succ i => simp at hl
  | m :: n :: ms, hl => simp [hd'] at hone

theorem settle_last {d : FilePushDevice} (hd : d.Inv content) {promise : Nat} {phase : Phase}
    (hl : d.loops = [⟨promise, phase⟩]) {j : Nat} {o : Option Settlement}
    (ho : (d.promises.modify promise fun o => o.or (some .resolve))[j]? = some o) :
    o = some .resolve := by
  rw [List.getElem?_modify] at ho
  obtain ⟨o', ho', rfl⟩ := Option.map_eq_some_iff.mp ho
  rcases hd.settled j o' ho' with rfl | ⟨rfl, l, hm, rfl⟩
  · split <;> rfl
  · rw [hl] at hm
    obtain rfl := List.mem_singleton.mp hm
    rw [if_pos rfl]
    rfl

theorem inv_delivers (d : FilePushDevice) (hd : d.Inv content) : d.Delivers content where
  oneLoop := hd.oneLoop
  inOrder := hd.consumed ▸ List.take_prefix _ _
  endOnce := by
    rw [hd.ends]
    split <;> omega
  noRetry := hd.noRetry
  finished := by
    intro he hl
    refine ⟨by rw [hd.ends, if_pos ⟨he, hl⟩], ?_⟩
    intro o ho
    obtain ⟨j, hj⟩ := List.getElem?_of_mem ho
    rcases hd.settled j o hj with h | ⟨-, l, hm, -⟩
    · exact h
    · simp [hl] at hm

theorem resume_inv {d : FilePushDevice} (hd : d.Inv content) (ho : d.orderly .resume) :
    d.resume.Inv content := by
  simp only [resume]
  cases hs : d.myState with
  | resumed => exact hd
  | paused =>
    obtain ⟨hl, he⟩ := ho rfl hs
    simp only [hd.isOpen, if_true]
    refine ⟨hd.file, hd.consistent, rfl, hd.consumed, by simp [hl], ?_, by simp [he], ?_⟩
    · simpa [hl, he] using hd.ends
    · intro j o hj
      rw [hl, List.nil_append]
      rcases getElem?_snoc hj with hj | ⟨rfl, rfl⟩
      · rcases hd.settled j o hj with h | ⟨-, l, hm, -⟩
        · exact .inl h
        · simp [hl] at hm
      · exact .inr ⟨rfl, _, List.mem_singleton_self _, rfl⟩

theorem pause_inv {d : FilePushDevice} (hd : d.Inv content) : d.pause.Inv content := by
  simp only [pause]
  cases d.myState with
  | resumed =>
    exact ⟨hd.file, hd.consistent, hd.isOpen, hd.consumed, hd.oneLoop, hd.ends, hd.noRetry, hd.settled⟩
  | paused =>
    refine ⟨hd.file, hd.consistent, hd.isOpen, hd.consumed, hd.oneLoop, hd.ends, hd.noRetry, ?_⟩
    intro j o hj
    rcases getElem?_snoc hj with hj | ⟨-, rfl⟩
    · exact hd.settled j o hj
    · exact .inl rfl

theorem readHandler_inv {d : FilePushDevice} (hd : d.Inv content) {i promise : Nat}
    (hl : d.loops[i]? = some ⟨promise, .task⟩) (avail : Option Nat) :
    (d.readHandler i promise avail).Inv content := by
  obtain ⟨rfl, honly⟩ := only_loop hd hl
  have hbefore : d.myStream.eof = false := by
    by_contra he
    have hp := hd.noRetry (by simpa using he) ⟨promise, .task⟩ (by simp [honly])
    cases hp
  have hends : d.ends = 0 := by simpa [hbefore] using hd.ends
  simp only [readHandler]
  cases d.myState with
  | paused => exact hd
  | resumed =>
    have hadv := InputStream.fetch_advances d.myStream bufferSize avail
    have hcons := InputStream.fetch_consistent hd.consistent bufferSize avail
    have hpos : 0 < bufferSize := by decide
    have hnone := InputStream.fetch_nothing hd.consistent hpos avail
    generalize d.myStream.fetch bufferSize avail = r at hadv hcons hnone ⊢
    rcases r with ⟨s, _ | ⟨b, bs⟩⟩
    · have heof : s.eof = true := hnone rfl
      have hbytes : content.take s.pos = content.take d.myStream.pos := by
        simpa [hd.file] using hadv.bytes
      simp only [heof, if_true, honly]
      refine ⟨hadv.content.trans hd.file, hcons, hd.isOpen, hbytes ▸ hd.consumed,
        Nat.zero_le 1, ?_, by simp [settle], ?_⟩
      · simp [settle, heof, hends]
      · exact fun j o ho => .inl (settle_last hd honly ho)
    · have hbytes : content.take s.pos = content.take d.myStream.pos ++ (b :: bs) := by
        simpa [hd.file] using hadv.bytes
      simp only [honly, List.set_cons_zero]
      refine ⟨hadv.content.trans hd.file, hcons, hd.isOpen, ?_, by simp, by simp [hends], by simp, ?_⟩
      · rw [List.flatten_append, hd.consumed, hbytes]
        simp
      · intro j o ho
        simpa [honly] using hd.settled j o ho

theorem emitted_inv {d : FilePushDevice} (hd : d.Inv content) {i promise : Nat}
    (hl : d.loops[i]? = some ⟨promise, .emitting⟩) : (d.emitted i promise true).Inv content := by
  obtain ⟨rfl, honly⟩ := only_loop hd hl
  have hends : d.ends = 0 := by simpa [honly] using hd.ends
  simp only [emitted, honly]
  split
  · rename_i he
    refine ⟨hd.file, hd.consistent, hd.isOpen, hd.consumed, by simp [settle], ?_, by simp [settle], ?_⟩
    · simp [settle, he, hends]
    · exact fun j o ho => .inl (settle_last hd honly ho)
  · rename_i he
    refine ⟨hd.file, hd.consistent, hd.isOpen, hd.consumed, by simp, by simp [hends], ?_, ?_⟩
    · exact fun h => absurd h he
    · intro j o ho
      simpa [honly] using hd.settled j o ho

theorem inv_step (d : FilePushDevice) (l : Label) (t : FilePushDevice) (hd : d.Inv content)
    (hf : l.fulfilled) (ho : d.orderly l) (h : devices.step d l = some t) : t.Inv content := by
  cases l with
  | resume =>
    cases h
    exact resume_inv hd ho
  | pause =>
    cases h
    exact pause_inv hd
  | task i avail =>
    simp only [devices, step] at h
    split at h
    · rename_i promise hl
      split at h
      · cases h
        exact readHandler_inv hd hl avail
      · cases h
    · cases h
  | emitted i fulfilled =>
    obtain rfl : fulfilled = true := hf
    simp only [devices, step] at h
    split at h
    · rename_i promise hl
      cases h
      exact emitted_inv hd hl
    · cases h

theorem orderly_of_delivers (d : FilePushDevice) (l : Label) (t : FilePushDevice)
    (hd : d.Inv content) (h : devices.step d l = some t) (ht : t.Delivers content) : d.orderly l := by
  cases l with
  | pause | task i avail | emitted i fulfilled => exact fun hl => nomatch hl
  | resume =>
    cases h
    intro _ hs
    have hone := ht.oneLoop
    have hretry := ht.noRetry
    simp only [resume, hs, hd.isOpen, if_true] at hone hretry
    have hl : d.loops = [] := by
      rw [List.length_append, List.length_singleton] at hone
      exact List.length_eq_zero_iff.mp (by omega)
    refine ⟨hl, ?_⟩
    cases he : d.myStream.eof with
    | false => rfl
    | true =>
      have hp := hretry he ⟨d.promises.length, .task⟩ (by simp)
      cases hp

theorem inv_start (content : List UInt8) : (start content).Inv content :=
  ⟨rfl, fun h => h, rfl, by simp [start, InputStream.opened], Nat.zero_le 1, rfl, by simp [start],
    by simp [start]⟩

theorem delivers_iff_orderly (content : List UInt8) (ls : List Label)
    (hf : ∀ l ∈ ls, l.fulfilled = true) :
    devices.always (Delivers content) (start content) ls ↔
      devices.meets orderly (start content) ls :=
  devices.always_iff_meets_on inv_delivers (fun d l t hd _ h ht => orderly_of_delivers d l t hd h ht)
    inv_step (inv_start content) hf

theorem small_file_delivered :
    devices.always (Delivers [104, 105]) (start [104, 105])
      [.resume, .task 0 (some 2), .pause, .emitted 0 true, .pause] :=
  (delivers_iff_orderly [104, 105] _ (by decide)).mpr (by decide)

theorem resumed_twice_ends_twice :
    ¬ devices.always (Delivers [104, 105]) (start [104, 105])
      [.resume, .pause, .resume, .task 0 (some 2), .task 1 none, .emitted 0 true] := by
  intro h
  have hlast := (devices.always_iff_prefixes _ _ _).mp h _ List.prefix_rfl _ rfl
  exact absurd hlast.endOnce (by decide)

end FilePushDevice
end NexusRuntime.FilePush
