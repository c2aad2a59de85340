import NexusRuntime.Devices.SinkWrite

namespace NexusRuntime.Devices

structure OutputFile where
  content : List UInt8
  pos : Nat
deriving DecidableEq, Repr

namespace OutputFile

-- what lies between the end of the file and the position reads as zero once something is written there
def write (f : OutputFile) (bytes : List UInt8) : OutputFile :=
  if bytes = [] then f
  else
    ⟨(f.content ++ List.replicate (f.pos - f.content.length) 0).take f.pos ++
        (bytes ++ f.content.drop (f.pos + bytes.length)), f.pos + bytes.length⟩

@[simp] theorem write_nil (f : OutputFile) : f.write [] = f := if_pos rfl

theorem write_append (f : OutputFile) (xs ys : List UInt8) :
    (f.write xs).write ys = f.write (xs ++ ys) := by
  by_cases hxs : xs = []
  · rw [hxs, write_nil, List.nil_append]
  by_cases hys : ys = []
  · rw [hys, write_nil, List.append_nil]
  have hboth : xs ++ ys ≠ [] := fun h => hxs (List.append_eq_nil_iff.mp h).1
  rw [write, if_neg hys, write, if_neg hxs, write, if_neg hboth]
  generalize hbefore : (f.content ++ List.replicate (f.pos - f.content.length) 0).take f.pos = before
  have hlen : before.length = f.pos := by
    rw [← hbefore, List.length_take, List.length_append, List.length_replicate]
    omega
  have hend : (before ++ xs).length = f.pos + xs.length := by rw [List.length_append, hlen]
  have hpad : f.pos + xs.length - (before ++ (xs ++ f.content.drop (f.pos + xs.length))).length = 0 := by
    rw [← List.append_assoc, List.length_append, hend]
    omega
  have htake : (before ++ (xs ++ f.content.drop (f.pos + xs.length))).take (f.pos + xs.length) =
      before ++ xs := by
    rw [← List.append_assoc, ← hend, List.take_left]
  have hdrop : (before ++ (xs ++ f.content.drop (f.pos + xs.length))).drop (f.pos + xs.length + ys.length) =
      f.content.drop (f.pos + xs.length + ys.length) := by
    rw [← List.append_assoc, ← List.drop_drop, ← hend, List.drop_left, List.drop_drop]
  simp only [hpad, List.replicate_zero, List.append_nil, htake, hdrop]
  rw [List.length_append, ← Nat.add_assoc]
  simp only [List.append_assoc]

theorem write_opened (bytes : List UInt8) : (OutputFile.mk [] 0).write bytes = ⟨bytes, bytes.length⟩ := by
  by_cases h : bytes = []
  · rw [h, write_nil]
    rfl
  · rw [write, if_neg h]
    simp

end OutputFile

structure FileSinkDevice where
  file : OutputFile
  good : Bool
  isOpen : Bool
deriving DecidableEq, Repr

-- how many of the bytes a failing write leaves in the file, and what it throws
structure Fault where
  put : Nat
  error : String
deriving DecidableEq, Repr

namespace FileSinkDevice

def buffers : SinkDevice := ⟨8 * 1024 * 1024, 8 * 1024 * 1024⟩

theorem buffers_positive : buffers.Positive := ⟨by decide, by decide⟩

def opened (f : OutputFile) : FileSinkDevice := ⟨f, true, true⟩

-- myError is never set: a failing stream throws instead
def state (d : FileSinkDevice) (fault : Option Fault) : DeviceState where
  deviceReady := d.good
  deviceOpen := d.isOpen
  deviceError := none
  deviceWrite bytes :=
    match bytes, fault with
    | [], _ => .ok 0
    | _ :: _, some f => .error f.error
    | b :: bs, none => .ok (b :: bs).length

theorem state_sound (d : FileSinkDevice) (fault : Option Fault) : (d.state fault).Sound where
  accepts := by
    intro bytes k h
    cases bytes with
    | nil =>
      cases h
      exact Nat.le_refl _
    | cons b bs =>
      cases fault with
      | none =>
        cases h
        exact Nat.le_refl _
      | some f => cases h
  some := by
    intro bytes k h hne
    cases bytes with
    | nil => exact absurd rfl hne
    | cons b bs =>
      cases fault with
      | none =>
        cases h
        exact Nat.succ_pos _
      | some f => cases h

def run (d : FileSinkDevice) (v : View) (w : Writing) (fault : Option Fault) :
    FileSinkDevice × Writing :=
  match w.tasks with
  | [] => (d, w)
  | written :: _ =>
    let after := w.next buffers v (d.state fault)
    match fault with
    | none => ({ d with file := d.file.write (buffers.turn v (d.state none) written).accepted }, after)
    | some f =>
      if written < v.length ∧ d.good = true ∧ d.isOpen = true then
        ({ d with file := d.file.write ((buffers.piece v written).take f.put), good := false }, after)
      else (d, after)

end FileSinkDevice

-- a write that has not failed: what is in the file, and what is still to come
inductive Filling (v : View) : Writing → Prop where
  | pending (written : Nat) (h : written ≤ v.length) :
      Filling v ⟨[written], v.content.take written, []⟩
  | settled (s : Settlement) (hs : ∀ e, s ≠ .rejected e) : Filling v ⟨[], v.content, [s]⟩

namespace Filling
variable {v : View} {w : Writing}

def left (v : View) (w : Writing) : Nat :=
  match w.tasks with
  | [] => 0
  | written :: _ => v.length - written + 1

theorem start (v : View) : Filling v (Writing.start v) := by
  rw [Writing.start]
  split
  · next h =>
    have hnil : v.content = [] := List.length_eq_zero_iff.mp (by rw [v.content_length, h])
    have := Filling.settled (v := v) .resolvedThis (by simp)
    rwa [hnil] at this
  · exact .pending 0 (Nat.zero_le _)

theorem start_accepted (v : View) : (Writing.start v).accepted = [] := by
  rw [Writing.start]
  split <;> rfl

theorem start_left (v : View) : left v (Writing.start v) ≤ v.length + 1 := by
  rw [Writing.start]
  split
  · exact Nat.zero_le _
  · exact Nat.le_refl _

theorem accepted_prefix (h : Filling v w) : w.accepted <+: v.content := by
  cases h with
  | pending written h => exact List.take_prefix _ _
  | settled s hs => exact List.prefix_refl _

theorem run (h : Filling v w) (hw : w.tasks ≠ []) (f : OutputFile) (bytes : List UInt8) :
    ∃ w', FileSinkDevice.run (.opened (f.write (bytes ++ w.accepted))) v w none =
        (.opened (f.write (bytes ++ w'.accepted)), w') ∧ Filling v w' ∧ left v w' < left v w := by
  cases h with
  | settled s hs => exact absurd rfl hw
  | pending written hle =>
    have hstate : ∀ g, (FileSinkDevice.opened g).state none = (FileSinkDevice.opened f).state none :=
      fun _ => rfl
    simp only [FileSinkDevice.run, Writing.next, hstate, List.nil_append]
    have hturn := Writing.turn_cases FileSinkDevice.buffers_positive
      (FileSinkDevice.state_sound (.opened f) none) hle
    have hshort : FileSinkDevice.buffers.turn v ((FileSinkDevice.opened f).state none) written =
        ⟨[], [], [.resolved written]⟩ → written = v.length := by
      intro h
      by_contra hne
      have hlt : written < v.length := by omega
      have hpos : min FileSinkDevice.buffers.recommendedWriteBufferSize (v.length - written) ≠ 0 := by
        simp only [FileSinkDevice.buffers]
        omega
      have hpiece : FileSinkDevice.buffers.piece v written ≠ [] := by
        apply List.ne_nil_of_length_pos
        rw [Writing.piece_length]
        exact Writing.size_pos FileSinkDevice.buffers_positive hlt
      obtain ⟨b, bs, hb⟩ := List.exists_cons_of_ne_nil hpiece
      simp [SinkDevice.turn, hlt, FileSinkDevice.state, FileSinkDevice.opened, hpos, hb] at h
    generalize FileSinkDevice.buffers.turn v ((FileSinkDevice.opened f).state none) written = t
      at hturn hshort
    cases hturn with
    | polls hp => cases hp.1
    | accepts k hk hmore =>
      refine ⟨⟨[written + k], v.content.take (written + k), []⟩, ?_, .pending _ hmore, ?_⟩
      · simp only [FileSinkDevice.opened, OutputFile.write_append, List.append_assoc, Writing.take_add]
      · simp only [left]
        omega
    | resolves _ =>
      obtain rfl := hshort rfl
      have hall : v.content.take v.length = v.content := by rw [← v.content_length, List.take_length]
      refine ⟨⟨[], v.content, [.resolved v.length]⟩, ?_, .settled _ (by simp), ?_⟩
      · simp only [FileSinkDevice.opened, OutputFile.write_nil, List.append_nil, hall]
      · simp only [left]
        omega
    | rejects e hfails hp =>
      rcases hfails with h | ⟨bytes, e, h⟩
      · exact absurd rfl h
      · cases bytes with
        | nil => cases h
        | cons b bs => cases h

end Filling
end NexusRuntime.Devices
