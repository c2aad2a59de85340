import Mathlib.Algebra.Ring.Int.Defs
import NexusRuntime.Devices.InputStream

namespace NexusRuntime

namespace InputStream

-- seekg takes eofbit away before it looks at the stream; tellg does not
def seekg (s : InputStream) (p : Nat) : InputStream :=
  if s.failbit then { s with eofbit := false } else { s with eofbit := false, pos := p }

def tellg (s : InputStream) : InputStream × Option Nat :=
  if s.good then (s, some s.pos) else ({ s with failbit := true }, none)

theorem tellg_good {s : InputStream} (h : s.good = true) : s.tellg = (s, some s.pos) := if_pos h

theorem tellg_bad {s : InputStream} (h : s.good = false) :
    s.tellg = ({ s with failbit := true }, none) := by
  rw [tellg, h]
  rfl

theorem seekg_good {s : InputStream} (h : s.good = true) (p : Nat) : s.seekg p = { s with pos := p } := by
  obtain ⟨content, pos, eofbit, failbit⟩ := s
  simp only [good, Bool.and_eq_true, Bool.not_eq_true'] at h
  obtain ⟨rfl, rfl⟩ := h
  rfl

theorem read_bytes {s : InputStream} (h : s.good = true) (n : Nat) : (s.read n).2 = s.rest.take n := by
  rcases Nat.lt_or_ge s.rest.length n with hn | hn
  · rw [read_short h hn, List.take_of_length_le (Nat.le_of_lt hn)]
  · rw [read_full h hn]

end InputStream

inductive Errc where
  | ioError
  | invalidSeek
deriving DecidableEq, Repr

structure FilePullDevice where
  myStream : InputStream
  myError : Option Errc
deriving DecidableEq, Repr

namespace FilePullDevice

def deviceReady (d : FilePullDevice) : Bool := d.myStream.good

def deviceRead (d : FilePullDevice) (length : Nat) : FilePullDevice × List UInt8 :=
  let (s, bytes) := d.myStream.read length
  (⟨s, if s.good then d.myError else some .ioError⟩, bytes)

def sourceSize (d : FilePullDevice) : FilePullDevice × Nat :=
  let (s, current) := d.myStream.tellg
  let s := s.seekg 0
  if !s.good then (⟨s, some .invalidSeek⟩, 0)
  else
    let (s, start) := s.tellg
    let s := s.seekg s.content.length
    if !s.good then (⟨s, some .invalidSeek⟩, 0)
    else
      let (s, stop) := s.tellg
      let s := s.seekg (current.getD 0)
      if !s.good then (⟨s, some .invalidSeek⟩, 0)
      else (⟨s, d.myError⟩, stop.getD 0 - start.getD 0)

-- a size_t; tellg() is -1 when it fails
def deviceBytesAvailable (d : FilePullDevice) : FilePullDevice × Nat :=
  let (d, size) := d.sourceSize
  let (s, position) := d.myStream.tellg
  (⟨s, d.myError⟩, (((size : Int) - position.elim (-1) Int.ofNat) % 2 ^ 64).toNat)

def read (d : FilePullDevice) (length : Nat) : FilePullDevice × Except String (List UInt8) :=
  let (d, readLength) := if length = 0 then d.deviceBytesAvailable else (d, length)
  if readLength = 0 then (d, .error "must supply read length for non-seekable device")
  else if !d.deviceReady then (d, .error "device not ready")
  else
    let (d, bytes) := d.deviceRead readLength
    (d, .ok bytes)

def readSync (d : FilePullDevice) (length : Nat) : FilePullDevice × Except String (List UInt8) :=
  if !d.deviceReady then (d, .error "device not ready")
  else
    let (d, bytes) := d.deviceRead length
    (d, .ok bytes)

variable {d : FilePullDevice}

theorem read_positive {n : Nat} (hn : 0 < n) : d.read n = d.readSync n := by
  have hne : n ≠ 0 := by omega
  simp only [read, readSync, hne, if_false]

theorem readSync_not_ready (h : d.deviceReady = false) (n : Nat) :
    d.readSync n = (d, .error "device not ready") := by
  rw [readSync, h]
  rfl

theorem readSync_ready (h : d.deviceReady = true) (n : Nat) :
    d.readSync n = ((d.deviceRead n).1, .ok (d.myStream.rest.take n)) := by
  have hbytes : (d.deviceRead n).2 = d.myStream.rest.take n := InputStream.read_bytes h n
  rw [readSync, h, ← hbytes]
  rfl

theorem deviceRead_zero (h : d.deviceReady = true) : d.deviceRead 0 = (d, []) := by
  have hgood : d.myStream.good = true := h
  simp [deviceRead, InputStream.read, hgood, InputStream.extract]

theorem available_ready (h : d.deviceReady = true) :
    d.deviceBytesAvailable =
      (d, (((d.myStream.content.length : Int) - d.myStream.pos) % 2 ^ 64).toNat) := by
  have hgood : d.myStream.good = true := h
  have hany (p : Nat) : ({ d.myStream with pos := p } : InputStream).good = true := h
  simp only [deviceBytesAvailable, sourceSize, InputStream.tellg_good hgood,
    InputStream.seekg_good hgood, InputStream.tellg_good (hany _), InputStream.seekg_good (hany _),
    hany, Bool.not_true, Bool.false_eq_true, if_false, Option.getD_some]
  rfl

theorem available_good (h : d.deviceReady = true) : d.deviceBytesAvailable.1 = d := by
  rw [available_ready h]

-- a stream that is not good loses eofbit and looks as if one byte were left
theorem available_bad (h : d.deviceReady = false) :
    d.deviceBytesAvailable =
      (⟨{ d.myStream with eofbit := false, failbit := true }, some .invalidSeek⟩, 1) := by
  have hbad : d.myStream.good = false := h
  let failed : InputStream := { d.myStream with eofbit := false, failbit := true }
  have hfailed : failed.good = false := InputStream.not_good rfl
  have hsize : d.sourceSize = (⟨failed, some .invalidSeek⟩, 0) := by
    rw [sourceSize, InputStream.tellg_bad hbad]
    show (if !failed.good then _ else _) = _
    rw [hfailed]
    rfl
  rw [deviceBytesAvailable, hsize]
  simp only [InputStream.tellg_bad hfailed]
  rfl

theorem read_zero_not_ready (h : d.deviceReady = false) :
    d.read 0 = (⟨{ d.myStream with eofbit := false, failbit := true }, some .invalidSeek⟩,
      .error "device not ready") := by
  rw [read, if_pos rfl, available_bad h]
  rfl

theorem deviceRead_moves (h : d.deviceReady = true) {n : Nat} (hn : 0 < n) :
    (d.deviceRead n).1 ≠ d := by
  have hgood : d.myStream.good = true := h
  intro heq
  have hstream : (d.myStream.read n).1 = d.myStream := congrArg myStream heq
  rcases Nat.lt_or_ge d.myStream.rest.length n with hshort | hfull
  · rw [InputStream.read_short hgood hshort] at hstream
    have hgood' := congrArg InputStream.good hstream
    rw [hgood, InputStream.not_good rfl] at hgood'
    cases hgood'
  · rw [InputStream.read_full hgood hfull] at hstream
    have hpos : d.myStream.pos + n = d.myStream.pos := congrArg InputStream.pos hstream
    omega

theorem read_zero_ready (h : d.deviceReady = true) :
    d.read 0 = (d, .error "must supply read length for non-seekable device") ∨ (d.read 0).1 ≠ d := by
  have hstate := available_good h
  rw [read, if_pos rfl]
  simp only [hstate, h]
  split
  · exact .inl rfl
  · next hne => exact .inr (deviceRead_moves h (Nat.pos_of_ne_zero hne))

theorem readSync_zero_ready (h : d.deviceReady = true) : d.readSync 0 = (d, .ok []) := by
  rw [readSync_ready h, deviceRead_zero h, List.take_zero]

end FilePullDevice
end NexusRuntime
