import NexusRuntime.Devices.FilePush
import NexusRuntime.Transition.Settles

namespace NexusRuntime

-- seekg(0, beg) of a stream that has failed does nothing
def InputStream.seekBeginning (s : InputStream) : InputStream :=
  if s.failbit then s else { s with pos := 0, eofbit := false }

namespace InputStream

structure Reads (s : InputStream) (r : InputStream × List UInt8) : Prop where
  content : r.1.content = s.content
  pos : r.1.pos = s.pos + r.2.length
  bytes : r.2 <+: s.rest
  flags : r.1.failbit = r.1.eofbit
  eof : r.1.eofbit = true → s.eofbit = true ∨ r.2 = s.rest
  nothing : r.2 = [] → r.1.eofbit = true

variable {s : InputStream}

end InputStream

namespace FilePush

open Transition Sequence

def FilePushDevice.reset (d : FilePushDevice) : FilePushDevice :=
  { d with myStream := d.myStream.seekBeginning }

inductive Call where
  | device (l : Label)
  | reset
deriving DecidableEq, Repr

def call (d : FilePushDevice) : Call → Option FilePushDevice
  | .device l => step d l
  | .reset => some d.reset

def histories : System FilePushDevice Call := ⟨call⟩

namespace FilePushDevice

structure Idle (content : List UInt8) (d : FilePushDevice) : Prop where
  paused : d.myState = .paused
  fresh : content = [] ∨ d.loops = [] ∧ d.myStream.eof = false

structure History (content : List UInt8) (d : FilePushDevice) : Prop where
  file : d.myStream.content = content
  flags : d.myStream.failbit = d.myStream.eofbit
  isOpen : d.isOpen = true
  loops : content = [] → ∀ l ∈ d.loops, l.phase = .task

variable {content : List UInt8} {d t u : FilePushDevice}

def remaining (content : List UInt8) (t : FilePushDevice) : Nat :=
  match t.loops with
  | [] => 0
  | l :: _ => 2 * (content.length - t.myStream.pos) + if l.phase = .task then 1 else 2

-- an empty file has nothing to read for any loop, the first one to run ends
structure Polling (d t : FilePushDevice) : Prop where
  file : t.myStream.content = []
  flags : t.myStream.failbit = t.myStream.eofbit
  payloads : t.payloads = d.payloads
  loops : ∀ l ∈ t.loops, l.phase = .task
  turn : t.ends = d.ends ∧ t.myState = .resumed ∧ t.loops ≠ [] ∨ t.ends = d.ends + 1 ∧ t.myState = .paused

theorem seek_failed (hd : d.History content) (h : d.myStream.eof = true) :
    d.myStream.seekBeginning = d.myStream := by
  have hfail : d.myStream.failbit = true := hd.flags.trans h
  rw [InputStream.seekBeginning, if_pos hfail]

theorem step_task {i promise : Nat} (h : t.loops[i]? = some ⟨promise, .task⟩) :
    devices.step t (.task i (some 0)) = some (t.readHandler i promise (some 0)) := by
  simp [devices, step, h, InputStream.inAvail]

end FilePushDevice
end FilePush
end NexusRuntime
