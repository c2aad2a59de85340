import Mathlib.Algebra.Ring.Nat
import NexusRuntime.Devices.FilePull
import NexusRuntime.Devices.Seek
import NexusRuntime.Transition.System

namespace NexusRuntime

open Devices Transition

-- a file, and the largest offset that the operating system seeks to
structure File where
  content : List UInt8
  maxOffset : Nat
  size_le : content.length ≤ maxOffset
  offset_lt : maxOffset < 2 ^ 63

namespace InputStream

def offsetOf (s : InputStream) : Position → Nat
  | .beginning => 0
  | .current => s.pos
  | .ending => s.content.length

-- the offset is a std::streamoff, a signed number of 64 bits
def target (s : InputStream) (pos : UInt64) (origin : Position) : Int :=
  s.offsetOf origin + pos.toBitVec.toInt

def seekOffset (s : InputStream) (maxOffset : Nat) (pos : UInt64) (origin : Position) : InputStream :=
  if s.failbit then { s with eofbit := false }
  else if 0 ≤ s.target pos origin ∧ s.target pos origin ≤ maxOffset then
    { s with eofbit := false, pos := (s.target pos origin).toNat }
  else { s with eofbit := false, failbit := true }

end InputStream

namespace FilePullDevice

def start (f : File) : FilePullDevice := ⟨.opened f.content, none⟩

def deviceSeek (d : FilePullDevice) (f : File) (pos : UInt64) (origin : Position) :
    FilePullDevice × UInt64 :=
  let s := d.myStream.seekOffset f.maxOffset pos origin
  let (t, position) := s.tellg
  (⟨t, if s.good then d.myError else some .invalidSeek⟩, (position.map UInt64.ofNat).getD (-1))

inductive Access where
  | seek (pos : UInt64) (origin : Position)
  | read (length : Nat)
deriving DecidableEq

def access (f : File) (d : FilePullDevice) : Access → Option FilePullDevice
  | .seek pos origin => some (d.deviceSeek f pos origin).1
  | .read length => some (d.deviceRead length).1

def accesses (f : File) : System FilePullDevice Access := ⟨access f⟩

def size (d : FilePullDevice) : Nat := d.myStream.content.length

def position (d : FilePullDevice) : Nat := d.myStream.pos

def remaining (d : FilePullDevice) : Nat := d.size - d.position

structure KnowsRemaining (d : FilePullDevice) : Prop where
  available : d.deviceBytesAvailable = (d, d.remaining)
  asks : d.read 0 =
    if d.remaining = 0 then (d, .error "must supply read length for non-seekable device")
    else d.readSync d.remaining

def Measured (d : FilePullDevice) : Prop := d.deviceReady = true → d.KnowsRemaining

-- a seek that succeeds ends in the file, or at its end
def landsInside (f : File) (d : FilePullDevice) : Access → Prop
  | .seek pos origin => d.deviceReady = true →
      0 ≤ d.myStream.target pos origin → d.myStream.target pos origin ≤ f.maxOffset →
        d.myStream.target pos origin ≤ d.size
  | .read _ => True

variable {d : FilePullDevice}

theorem wraps (h : d.deviceReady = true) (hpos : d.position < 2 ^ 63) (hpast : d.size < d.position) :
    d.deviceBytesAvailable = (d, 2 ^ 64 - (d.position - d.size)) := by
  rw [available_ready h]
  show (d, (((d.size : Int) - d.position) % 2 ^ 64).toNat) = _
  congr 1
  omega

theorem available_inside (h : d.deviceReady = true) (hsize : d.size < 2 ^ 63)
    (hpos : d.position ≤ d.size) : d.deviceBytesAvailable = (d, d.remaining) := by
  rw [available_ready h, remaining]
  show (d, (((d.size : Int) - d.position) % 2 ^ 64).toNat) = _
  congr 1
  omega

theorem asks_of_available (ha : d.deviceBytesAvailable = (d, d.remaining)) :
    d.read 0 = if d.remaining = 0 then (d, .error "must supply read length for non-seekable device")
      else d.readSync d.remaining := by
  rw [read, if_pos rfl, ha, readSync]

theorem knowsRemaining_iff (h : d.deviceReady = true) (hsize : d.size < 2 ^ 63)
    (hpos : d.position < 2 ^ 63) : d.KnowsRemaining ↔ d.position ≤ d.size := by
  constructor
  · intro hknows
    by_contra hpast
    have hwrap := wraps h hpos (Nat.lt_of_not_le hpast)
    rw [hknows.available] at hwrap
    have hlen := congrArg Prod.snd hwrap
    simp only [remaining] at hlen
    omega
  · intro hle
    have ha := available_inside h hsize hle
    exact ⟨ha, asks_of_available ha⟩

structure Inside (f : File) (d : FilePullDevice) : Prop where
  content : d.myStream.content = f.content
  ready : d.deviceReady = true → d.position ≤ d.size
  failed : d.deviceReady = false → d.myStream.failbit = true

theorem failbit_of_ready (h : d.deviceReady = true) : d.myStream.failbit = false := by
  have hgood : (!d.myStream.eofbit && !d.myStream.failbit) = true := h
  simpa using (Bool.and_eq_true_iff.mp hgood).2

theorem not_ready_of_failbit (h : d.myStream.failbit = true) : d.deviceReady = false :=
  InputStream.not_good h

theorem inside_of_failbit {f : File} (hc : d.myStream.content = f.content)
    (h : d.myStream.failbit = true) : d.Inside f := by
  refine ⟨hc, fun hready => ?_, fun _ => h⟩
  rw [not_ready_of_failbit h] at hready
  cases hready

variable {f : File}

theorem seek_failed (h : d.myStream.failbit = true) (pos : UInt64) (origin : Position) :
    (d.deviceSeek f pos origin).1.myStream = { d.myStream with eofbit := false } := by
  obtain ⟨⟨content, p, eofbit, failbit⟩, error⟩ := d
  obtain rfl : failbit = true := h
  rfl

theorem seek_lands (h : d.deviceReady = true) {pos : UInt64} {origin : Position}
    (hlow : 0 ≤ d.myStream.target pos origin) (hhigh : d.myStream.target pos origin ≤ f.maxOffset) :
    (d.deviceSeek f pos origin).1 =
      ⟨{ d.myStream with pos := (d.myStream.target pos origin).toNat }, d.myError⟩ := by
  obtain ⟨⟨content, p, eofbit, failbit⟩, error⟩ := d
  have hgood : (!eofbit && !failbit) = true := h
  simp only [Bool.and_eq_true, Bool.not_eq_true'] at hgood
  obtain ⟨rfl, rfl⟩ := hgood
  simp only [deviceSeek, InputStream.seekOffset, Bool.false_eq_true, if_false]
  rw [if_pos ⟨hlow, hhigh⟩, InputStream.tellg_good rfl]
  rfl

theorem seek_refused (h : d.deviceReady = true) {pos : UInt64} {origin : Position}
    (hout : ¬ (0 ≤ d.myStream.target pos origin ∧ d.myStream.target pos origin ≤ f.maxOffset)) :
    (d.deviceSeek f pos origin).1.myStream = { d.myStream with eofbit := false, failbit := true } := by
  obtain ⟨⟨content, p, eofbit, failbit⟩, error⟩ := d
  obtain rfl : failbit = false := failbit_of_ready h
  simp only [deviceSeek, InputStream.seekOffset, Bool.false_eq_true, if_false]
  rw [if_neg hout]
  rfl

theorem inside_seek (hd : d.Inside f) {pos : UInt64} {origin : Position}
    (hl : landsInside f d (.seek pos origin)) : (d.deviceSeek f pos origin).1.Inside f := by
  cases hready : d.deviceReady with
  | false =>
    have hstream := seek_failed (f := f) (hd.failed hready) pos origin
    apply inside_of_failbit
    · rw [hstream]
      exact hd.content
    · rw [hstream]
      exact hd.failed hready
  | true =>
    by_cases hin : 0 ≤ d.myStream.target pos origin ∧ d.myStream.target pos origin ≤ f.maxOffset
    · rw [seek_lands hready hin.1 hin.2]
      have hend := hl hready hin.1 hin.2
      refine ⟨hd.content, fun _ => ?_, fun hbad => ?_⟩
      · exact Int.toNat_le.mpr hend
      · have hgood : d.deviceReady = false := hbad
        rw [hready] at hgood
        cases hgood
    · have hstream := seek_refused (f := f) hready hin
      apply inside_of_failbit
      · rw [hstream]
        exact hd.content
      · rw [hstream]

theorem inside_read (hd : d.Inside f) (n : Nat) : (d.deviceRead n).1.Inside f := by
  have hcontent := (InputStream.read_advances d.myStream n).content.trans hd.content
  cases hready : d.deviceReady with
  | false =>
    apply inside_of_failbit hcontent
    have hbad : d.myStream.good = false := hready
    show (d.myStream.read n).1.failbit = true
    rw [InputStream.read, hbad]
  | true =>
    rcases Nat.lt_or_ge d.myStream.rest.length n with hshort | hfull
    · apply inside_of_failbit hcontent
      show (d.myStream.read n).1.failbit = true
      rw [InputStream.read_short hready hshort]
    · have hstream : (d.deviceRead n).1.myStream = { d.myStream with pos := d.myStream.pos + n } :=
        congrArg Prod.fst (InputStream.read_full hready hfull)
      refine ⟨hcontent, fun _ => ?_, fun hbad => ?_⟩
      · have hle := hd.ready hready
        rw [InputStream.rest, List.length_drop] at hfull
        rw [position, size, hstream]
        simp only [position, size] at hle ⊢
        omega
      · have hgood : (d.deviceRead n).1.myStream.good = d.myStream.good := by
          rw [hstream]
          rfl
        have hready' : (d.deviceRead n).1.deviceReady = true := hgood.trans hready
        rw [hbad] at hready'
        cases hready'

theorem size_lt (hd : d.Inside f) : d.size < 2 ^ 63 := by
  have := f.size_le
  have := f.offset_lt
  rw [size, hd.content]
  omega

theorem measured_of_inside (hd : d.Inside f) : d.Measured := by
  intro hready
  have hle := hd.ready hready
  have hsize := size_lt hd
  exact (knowsRemaining_iff hready hsize (Nat.lt_of_le_of_lt hle hsize)).mpr hle

theorem landsInside_of_measured {t : FilePullDevice} {a : Access} (hd : d.Inside f)
    (h : access f d a = some t) (ht : t.Measured) : landsInside f d a := by
  cases a with
  | read n => trivial
  | seek pos origin =>
    intro hready hlow hhigh
    cases h
    rw [seek_lands hready hlow hhigh] at ht
    have hoffset := f.offset_lt
    let landed : FilePullDevice :=
      ⟨{ d.myStream with pos := (d.myStream.target pos origin).toNat }, d.myError⟩
    have hlanded : landed.deviceReady = true := hready
    have hsize : landed.size < 2 ^ 63 := show d.size < 2 ^ 63 from size_lt hd
    have hpos : landed.position < 2 ^ 63 := by
      show (d.myStream.target pos origin).toNat < 2 ^ 63
      omega
    exact Int.toNat_le.mp ((knowsRemaining_iff hlanded hsize hpos).mp (ht hlanded))

theorem measured_iff_landsInside (f : File) (as : List Access) :
    (accesses f).always Measured (start f) as ↔ (accesses f).meets (landsInside f) (start f) as := by
  refine (accesses f).always_iff_meets (fun _ hd => measured_of_inside hd)
    (fun _ _ _ hd h ht => landsInside_of_measured hd h ht) ?_ ?_ as
  · intro d a t hd hl h
    cases a with
    | seek pos origin =>
      cases h
      exact inside_seek hd hl
    | read n =>
      cases h
      exact inside_read hd n
  · exact ⟨rfl, fun _ => Nat.zero_le _, by simp [start, deviceReady, InputStream.opened, InputStream.good]⟩

def oneByte : File := ⟨[0x61], 2 ^ 44, by decide, by decide⟩

theorem seek_past_the_end :
    (((accesses oneByte).run (start oneByte) [Access.seek 3 .beginning]).map
        fun d => (d.deviceReady, d.deviceBytesAvailable.2)) = some (true, 18446744073709551614) ∧
      ¬ (accesses oneByte).always Measured (start oneByte) [Access.seek 3 .beginning] := by
  refine ⟨by decide, fun h => ?_⟩
  have hend := (System.always_iff_prefixes _ _ _ _).mp h _ (List.prefix_refl _) _ rfl
  exact absurd (hend (by decide)).available (by decide)

end FilePullDevice
end NexusRuntime
