import NexusRuntime.Sequence.Blocks
import NexusRuntime.Transition.System

namespace NexusRuntime.Devices

open Transition Sequence

structure SinkDevice where
  recommendedWriteBufferSize : Nat
  maxWriteBufferSize : Nat
deriving DecidableEq, Repr

-- what the device answers while one run of a write handler looks at it
structure Moment where
  deviceReady : Bool
  deviceOpen : Bool
  deviceError : Option String
  deviceWrite : Except String Nat

inductive Promise where
  | pending
  | resolvedThis
  | resolved (written : Nat)
  | rejected (error : String)
deriving DecidableEq, Repr

structure Write where
  buffer : List UInt8
  written : Nat
  promise : Promise
deriving DecidableEq, Repr

namespace SinkDevice
variable (d : SinkDevice)

def pieceSize (w : Write) : Nat :=
  let size := min d.recommendedWriteBufferSize (w.buffer.length - w.written)
  if size > d.maxWriteBufferSize then d.maxWriteBufferSize else size

-- a device accepts at most the bytes it is passed
def bytesAccepted (m : Moment) (w : Write) : Nat :=
  match m.deviceWrite with
  | .error _ => 0
  | .ok accepted => min accepted (d.pieceSize w)

def writeHandler (m : Moment) (w : Write) : Write :=
  if w.written < w.buffer.length then
    if !m.deviceReady && m.deviceOpen then
      match m.deviceError with
      | some ec => { w with promise := .rejected ec }
      | none => w
    else
      match m.deviceError with
      | some ec => { w with promise := .rejected ec }
      | none =>
        if !m.deviceOpen then { w with promise := .resolved w.written }
        else if min d.recommendedWriteBufferSize (w.buffer.length - w.written) = 0 then
          { w with promise := .resolved w.written }
        else
          match m.deviceWrite with
          | .error e => { w with promise := .rejected e }
          | .ok _ => { w with written := w.written + d.bytesAccepted m w }
  else { w with promise := .resolved w.written }

def writesNow (m : Moment) (w : Write) : Bool :=
  w.written < w.buffer.length && m.deviceReady && m.deviceOpen && m.deviceError.isNone &&
    d.recommendedWriteBufferSize != 0

end SinkDevice

structure Sink where
  writes : List Write
  accepted : List (Nat × UInt8)

inductive SinkLabel where
  | write (argument : Option (List UInt8))
  | task (k : Nat) (m : Moment)

def newWrite (buffer : List UInt8) : Write :=
  ⟨buffer, 0, if buffer.isEmpty then .resolvedThis else .pending⟩

def Write.taken (w : Write) : List UInt8 := w.buffer.take w.written

def Write.full (w : Write) : Prop := w.written = w.buffer.length

instance (w : Write) : Decidable w.full := inferInstanceAs (Decidable (_ = _))

namespace Sink

def step (d : SinkDevice) (s : Sink) : SinkLabel → Option Sink
  | .write none => some s
  | .write (some buffer) => some { s with writes := s.writes ++ [newWrite buffer] }
  | .task k m =>
    match s.writes[k]? with
    | none => none
    | some w =>
      if w.promise = .pending then
        let w' := d.writeHandler m w
        let piece := (w.buffer.drop w.written).take (w'.written - w.written)
        some ⟨s.writes.set k w', s.accepted ++ piece.map (k, ·)⟩
      else none

def system (d : SinkDevice) : System Sink SinkLabel := ⟨step d⟩

def issued (s : Sink) : List (Nat × UInt8) := tagged Write.buffer 0 s.writes

def InOrder (s : Sink) : Prop :=
  s.accepted <+: s.issued ∧ ((∀ w ∈ s.writes, w.full) → s.accepted = s.issued)

def Alone (d : SinkDevice) (s : Sink) : SinkLabel → Prop
  | .write _ => True
  | .task k m => ∀ w, s.writes[k]? = some w → d.writesNow m w = true → 0 < d.bytesAccepted m w →
      ∀ v ∈ s.writes.take k, v.full

structure Inv (s : Sink) : Prop where
  accepted : s.accepted = tagged Write.taken 0 s.writes
  front : Front Write.buffer Write.taken s.writes
  within : ∀ w ∈ s.writes, w.written ≤ w.buffer.length

theorem taken_prefix (w : Write) : w.taken <+: w.buffer := List.take_prefix ..

theorem taken_of_full {w : Write} (h : w.full) : w.taken = w.buffer := by
  rw [Write.taken, h, List.take_length]

theorem full_of_taken {w : Write} (hw : w.written ≤ w.buffer.length) (h : w.taken = w.buffer) :
    w.full := by
  have := congrArg List.length h
  rw [Write.taken, List.length_take] at this
  rw [Write.full]
  omega

variable {d : SinkDevice} {m : Moment} {w : Write}

theorem writeHandler_buffer : (d.writeHandler m w).buffer = w.buffer := by
  unfold SinkDevice.writeHandler
  repeat' split
  all_goals rfl

theorem writeHandler_written :
    (d.writeHandler m w).written =
      w.written + if d.writesNow m w then d.bytesAccepted m w else 0 := by
  unfold SinkDevice.writeHandler SinkDevice.writesNow
  by_cases hw : w.written < w.buffer.length
  · cases hready : m.deviceReady <;> cases hopen : m.deviceOpen <;> cases herror : m.deviceError <;>
      simp [hw]
    have hleft : w.buffer.length - w.written ≠ 0 := by omega
    by_cases hr : d.recommendedWriteBufferSize = 0
    · simp [hr]
    · cases hwrite : m.deviceWrite with
      | error e => simp [hr, hleft, SinkDevice.bytesAccepted, hwrite]
      | ok n => simp [hr, hleft]
  · simp [hw]

theorem bytesAccepted_le : d.bytesAccepted m w ≤ w.buffer.length - w.written := by
  unfold SinkDevice.bytesAccepted SinkDevice.pieceSize
  cases m.deviceWrite with
  | error e => simp
  | ok n =>
    simp only
    split <;> omega

-- how many bytes one run of the handler hands over
def gained (d : SinkDevice) (m : Moment) (w : Write) : Nat :=
  if d.writesNow m w then d.bytesAccepted m w else 0

theorem gained_le : gained d m w ≤ w.buffer.length - w.written := by
  have := bytesAccepted_le (d := d) (m := m) (w := w)
  unfold gained
  split <;> omega

theorem gained_pos : 0 < gained d m w ↔ d.writesNow m w = true ∧ 0 < d.bytesAccepted m w := by
  unfold gained
  split <;> simp_all

theorem writeHandler_taken :
    (d.writeHandler m w).taken =
      w.taken ++ (w.buffer.drop w.written).take (gained d m w) := by
  rw [Write.taken, writeHandler_buffer, writeHandler_written, List.take_add]
  rfl

theorem step_pending {s : Sink} {k : Nat} (hw : s.writes[k]? = some w)
    (hp : w.promise = .pending) :
    step d s (.task k m) = some
      ⟨s.writes.set k (d.writeHandler m w), s.accepted ++
        ((w.buffer.drop w.written).take ((d.writeHandler m w).written - w.written)).map (k, ·)⟩ := by
  simp only [step, hw, hp, if_true]

theorem step_task {s t : Sink} {k : Nat} (h : step d s (.task k m) = some t) :
    ∃ w, s.writes[k]? = some w ∧ t.writes = s.writes.set k (d.writeHandler m w) ∧
      t.accepted = s.accepted ++ ((w.buffer.drop w.written).take (gained d m w)).map (k, ·) := by
  simp only [step] at h
  cases hw : s.writes[k]? with
  | none => simp [hw] at h
  | some w =>
    rw [hw] at h
    simp only at h
    split at h
    · obtain rfl := Option.some.inj h
      have : (d.writeHandler m w).written - w.written = gained d m w := by
        rw [writeHandler_written, gained]
        omega
      exact ⟨w, rfl, rfl, by rw [this]⟩
    · cases h

theorem writeHandler_within (hw : w.written ≤ w.buffer.length) :
    (d.writeHandler m w).written ≤ (d.writeHandler m w).buffer.length := by
  have hle := gained_le (d := d) (m := m) (w := w)
  rw [writeHandler_buffer, writeHandler_written, ← gained]
  omega

theorem inv_task {s t : Sink} {k : Nat} (hinv : Inv s) (halone : Alone d s (.task k m))
    (h : step d s (.task k m) = some t) : Inv t := by
  obtain ⟨w, hw, ht, hacc⟩ := step_task h
  have hwithin := hinv.within w (List.mem_of_getElem? hw)
  have hbuffer : (d.writeHandler m w).buffer = w.buffer := writeHandler_buffer
  have htwithin : ∀ v ∈ t.writes, v.written ≤ v.buffer.length := by
    rw [ht]
    exact forall_replace hinv.within (writeHandler_within hwithin)
  by_cases hgain : gained d m w = 0
  · have htaken : (d.writeHandler m w).taken = w.taken := by
      rw [writeHandler_taken, hgain, List.take_zero, List.append_nil]
    refine ⟨?_, ?_, htwithin⟩
    · rw [hacc, hgain, List.take_zero, List.map_nil, List.append_nil, ht, hinv.accepted,
        tagged_replace hw htaken]
    · rw [ht]
      exact front_replace hw hbuffer htaken hinv.front
  · obtain ⟨hnow, hbytes⟩ := gained_pos.mp (Nat.pos_of_ne_zero hgain)
    have hearlier : ∀ v ∈ s.writes.take k, v.taken = v.buffer :=
      fun v hv => taken_of_full (halone w hw hnow hbytes v hv)
    have hopen : w.taken ≠ w.buffer := by
      intro hfull
      have hwritten : w.written = w.buffer.length := full_of_taken hwithin hfull
      have hle := gained_le (d := d) (m := m) (w := w)
      omega
    refine ⟨?_, ?_, htwithin⟩
    · rw [hacc, ht, hinv.accepted]
      exact (tagged_grow hw hinv.front hopen writeHandler_taken).symm
    · rw [ht]
      exact front_grow hw hinv.front hopen hearlier

theorem inv_write {s : Sink} (hinv : Inv s) (buffer : List UInt8) :
    Inv { s with writes := s.writes ++ [newWrite buffer] } where
  accepted := by
    rw [hinv.accepted, tagged_append]
    simp [tagged, Write.taken, newWrite]
  front := front_append hinv.front (by simp [Write.taken, newWrite])
  within := forall_snoc hinv.within (Nat.zero_le _)

theorem inv_step {s t : Sink} {l : SinkLabel} (hinv : Inv s) (halone : Alone d s l)
    (h : step d s l = some t) : Inv t := by
  cases l with
  | write argument =>
    cases argument with
    | none =>
      obtain rfl := Option.some.inj h
      exact hinv
    | some buffer =>
      obtain rfl := Option.some.inj h
      exact inv_write hinv buffer
  | task k m => exact inv_task hinv halone h

theorem inv_in_order {s : Sink} (hinv : Inv s) : InOrder s := by
  constructor
  · rw [hinv.accepted]
    exact prefix_of_front hinv.front (fun w _ => taken_prefix w) 0
  · intro hfull
    rw [hinv.accepted]
    exact tagged_congr _ _ (fun w hw => taken_of_full (hfull w hw)) 0

theorem alone_of_in_order {s t : Sink} {l : SinkLabel} (hinv : Inv s) (h : step d s l = some t)
    (horder : InOrder t) : Alone d s l := by
  cases l with
  | write argument => trivial
  | task k m =>
    intro w hw hnow hbytes
    obtain ⟨v, hv, ht, hacc⟩ := step_task h
    obtain rfl := Option.some.inj (hw.symm.trans hv)
    have hissued : t.issued = s.issued := by
      rw [issued, issued, ht]
      exact tagged_replace hw writeHandler_buffer 0
    have hpiece : (w.buffer.drop w.written).take (gained d m w) ≠ [] := by
      intro hnil
      have hlen := congrArg List.length hnil
      have hle := gained_le (d := d) (m := m) (w := w)
      have hpos := gained_pos.mpr ⟨hnow, hbytes⟩
      rw [List.length_take, List.length_drop, List.length_nil] at hlen
      omega
    obtain ⟨x, rest, hx⟩ := List.exists_cons_of_ne_nil hpiece
    have hprefix := horder.1
    rw [hissued, hacc, hx, hinv.accepted, List.map_cons] at hprefix
    have hfull := full_before_next hinv.front (fun w _ => taken_prefix w) (Nat.zero_le k) hprefix
    intro u hu
    exact full_of_taken (hinv.within u (List.take_subset _ _ hu)) (hfull u hu)

theorem inv_empty : Inv ⟨[], []⟩ := ⟨rfl, trivial, by simp⟩

theorem in_order_iff_alone (d : SinkDevice) (ls : List SinkLabel) :
    (system d).always InOrder ⟨[], []⟩ ls ↔ (system d).meets (Alone d) ⟨[], []⟩ ls :=
  (system d).always_iff_meets (fun _ hinv => inv_in_order hinv)
    (fun _ _ _ hinv h horder => alone_of_in_order hinv h horder)
    (fun _ _ _ hinv halone h => inv_step hinv halone h) inv_empty ls

def goodMoment (n : Nat) : Moment := ⟨true, true, none, .ok n⟩

theorem gained_good {n : Nat} (h : 0 < d.pieceSize w) :
    gained d (goodMoment n) w = min n (d.pieceSize w) := by
  have hnow : d.writesNow (goodMoment n) w = true := by
    have hpos : w.written < w.buffer.length ∧ d.recommendedWriteBufferSize ≠ 0 := by
      simp only [SinkDevice.pieceSize] at h
      split at h <;> omega
    simp [SinkDevice.writesNow, goodMoment, hpos]
  rw [gained, if_pos hnow]
  rfl

theorem long_writes_mixed {a b : List UInt8} {n : Nat} (hn : 0 < n)
    (hpiece : 0 < d.pieceSize (newWrite a)) (ha : d.pieceSize (newWrite a) < a.length)
    (hb : 0 < d.pieceSize (newWrite b)) :
    ¬ (system d).always InOrder ⟨[], []⟩
      [.write (some a), .write (some b), .task 0 (goodMoment n), .task 1 (goodMoment n)] := by
  intro halways
  have hopen : ∀ c : List UInt8, 0 < d.pieceSize (newWrite c) → (newWrite c).promise = .pending := by
    intro c hc
    cases c with
    | nil => simp [SinkDevice.pieceSize, newWrite] at hc
    | cons x xs => rfl
  obtain ⟨s, hs⟩ : ∃ s, step d ⟨[newWrite a, newWrite b], []⟩ (.task 0 (goodMoment n)) = some s :=
    ⟨_, step_pending rfl (hopen a hpiece)⟩
  have hwrites : s.writes = [d.writeHandler (goodMoment n) (newWrite a), newWrite b] := by
    rw [step_pending rfl (hopen a hpiece), Option.some.injEq] at hs
    rw [← hs]
    rfl
  obtain ⟨t, ht⟩ : ∃ t, step d s (.task 1 (goodMoment n)) = some t :=
    ⟨_, step_pending (by rw [hwrites]; rfl) (hopen b hb)⟩
  have hrun : (system d).run ⟨[], []⟩ [.write (some a), .write (some b), .task 0 (goodMoment n),
      .task 1 (goodMoment n)] = some t := by
    have h₁ : (system d).step ⟨[], []⟩ (.write (some a)) = some ⟨[newWrite a], []⟩ := rfl
    have h₂ : (system d).step ⟨[newWrite a], []⟩ (.write (some b)) =
        some ⟨[newWrite a, newWrite b], []⟩ := rfl
    have h₃ : (system d).step ⟨[newWrite a, newWrite b], []⟩ (.task 0 (goodMoment n)) = some s := hs
    have h₄ : (system d).step s (.task 1 (goodMoment n)) = some t := ht
    simp only [System.run, h₁, h₂, h₃, h₄, Option.bind_some]
  have hinv : Inv s := by
    apply inv_step (inv_write (inv_write inv_empty a) b) _ hs
    intro w hw _ _ v hv
    simp at hv
  have horder := ((system d).always_iff_prefixes _ _ _).mp halways _ (List.prefix_refl _) t hrun
  have halone := alone_of_in_order hinv ht horder
  have hgain := gained_pos.mp (by rw [gained_good hb]; omega : 0 < gained d (goodMoment n) (newWrite b))
  have hfull := halone (newWrite b) (by simp [hwrites]) hgain.1 hgain.2
    (d.writeHandler (goodMoment n) (newWrite a)) (by simp [hwrites])
  rw [Write.full, writeHandler_buffer, writeHandler_written, ← gained, gained_good hpiece] at hfull
  have hzero : (newWrite a).written = 0 := rfl
  have hbuffer : (newWrite a).buffer = a := rfl
  rw [hzero, hbuffer] at hfull
  omega

def fileSinkDevice : SinkDevice := ⟨8 * 1024 * 1024, 8 * 1024 * 1024⟩

theorem file_writes_mixed :
    ¬ (system fileSinkDevice).always InOrder ⟨[], []⟩
      [.write (some (List.replicate (8 * 1024 * 1024 + 1) 0x61)),
        .write (some (List.replicate (8 * 1024 * 1024 + 1) 0x62)),
        .task 0 (goodMoment (8 * 1024 * 1024)), .task 1 (goodMoment (8 * 1024 * 1024))] := by
  have hsize : ∀ x : UInt8, fileSinkDevice.pieceSize
      (newWrite (List.replicate (8 * 1024 * 1024 + 1) x)) = 8 * 1024 * 1024 := by
    intro x
    simp only [SinkDevice.pieceSize, fileSinkDevice, newWrite, List.length_replicate]
    decide
  apply long_writes_mixed
  · decide
  · rw [hsize]
    decide
  · rw [hsize, List.length_replicate]
    decide
  · rw [hsize]
    decide

end Sink
end NexusRuntime.Devices
