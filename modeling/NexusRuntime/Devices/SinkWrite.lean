import NexusRuntime.Devices.SinkWrites

namespace NexusRuntime.Devices

open Sequence

-- an ArrayBuffer, or the part of one that a typed array covers
structure View where
  bytes : List UInt8
  offset : Nat
  length : Nat
  within : offset + length ≤ bytes.length

namespace View

def content (v : View) : List UInt8 := (v.bytes.drop v.offset).take v.length

def arrayBuffer (bytes : List UInt8) : View := ⟨bytes, 0, bytes.length, by omega⟩

theorem content_length (v : View) : v.content.length = v.length := by
  have := v.within
  rw [content, List.length_take, List.length_drop]
  omega

end View

-- the device as one run of a write handler, or one call of writeSync, finds it
structure DeviceState where
  deviceReady : Bool
  deviceOpen : Bool
  deviceError : Option String
  deviceWrite : List UInt8 → Except String Nat

structure DeviceState.Sound (s : DeviceState) : Prop where
  accepts : ∀ {b k}, s.deviceWrite b = .ok k → k ≤ b.length
  some : ∀ {b k}, s.deviceWrite b = .ok k → b ≠ [] → 1 ≤ k

def DeviceState.Polling (s : DeviceState) : Prop :=
  s.deviceReady = false ∧ s.deviceOpen = true ∧ s.deviceError = none

inductive Settlement where
  | resolvedThis
  | resolved (written : Nat)
  | rejected (error : String)
deriving DecidableEq, Repr

structure Turn where
  accepted : List UInt8
  scheduled : List Nat
  settled : List Settlement
deriving DecidableEq, Repr

namespace SinkDevice
variable (d : SinkDevice) (v : View)

def size (written : Nat) : Nat :=
  let size := min d.recommendedWriteBufferSize (v.length - written)
  if size > d.maxWriteBufferSize then d.maxWriteBufferSize else size

def piece (written : Nat) : List UInt8 :=
  (v.bytes.drop (v.offset + written)).take (d.size v written)

def turn (s : DeviceState) (written : Nat) : Turn :=
  if written < v.length then
    if !s.deviceReady && s.deviceOpen then
      match s.deviceError with
      | some ec => ⟨[], [], [.rejected ec]⟩
      | none => ⟨[], [written], []⟩
    else
      match s.deviceError with
      | some ec => ⟨[], [], [.rejected ec]⟩
      | none =>
        if !s.deviceOpen then ⟨[], [], [.resolved written]⟩
        else if min d.recommendedWriteBufferSize (v.length - written) = 0 then
          ⟨[], [], [.resolved written]⟩
        else
          match s.deviceWrite (d.piece v written) with
          | .error e => ⟨[], [], [.rejected e]⟩
          | .ok accepted => ⟨(d.piece v written).take accepted, [written + accepted], []⟩
  else ⟨[], [], [.resolved written]⟩

structure Positive : Prop where
  recommended : 1 ≤ d.recommendedWriteBufferSize
  max : 1 ≤ d.maxWriteBufferSize

end SinkDevice

structure Writing where
  tasks : List Nat
  accepted : List UInt8
  settlements : List Settlement
deriving DecidableEq, Repr

namespace Writing
variable (d : SinkDevice) (v : View)

def start : Writing := if v.length = 0 then ⟨[], [], [.resolvedThis]⟩ else ⟨[0], [], []⟩

def next (w : Writing) (s : DeviceState) : Writing :=
  match w.tasks with
  | [] => w
  | written :: tasks =>
    let t := d.turn v s written
    ⟨tasks ++ t.scheduled, w.accepted ++ t.accepted, w.settlements ++ t.settled⟩

def after (states : Nat → DeviceState) : Nat → Writing
  | 0 => start v
  | n + 1 => (after states n).next d v (states n)

def Pending (states : Nat → DeviceState) (n : Nat) : Prop := (after d v states n).tasks ≠ []

end Writing

namespace DeviceState

def Fails (s : DeviceState) : Prop := s.deviceError ≠ none ∨ ∃ b e, s.deviceWrite b = .error e

def Serving (s : DeviceState) : Prop :=
  s.deviceReady = true ∧ s.deviceOpen = true ∧ ¬ s.Fails

end DeviceState

namespace Writing
variable {d : SinkDevice} {v : View} {s : DeviceState} {states : Nat → DeviceState}

-- the written bytes, while a run of the handler is scheduled; after that, how the promise was settled
inductive Progress (v : View) : Writing → Prop where
  | pending (written : Nat) (h : written ≤ v.length) :
      Progress v ⟨[written], v.content.take written, []⟩
  | settled (written : Nat) (h : written ≤ v.length) (s : Settlement)
      (hs : s = .resolved written ∨ ∃ e, s = .rejected e) :
      Progress v ⟨[], v.content.take written, [s]⟩

inductive Turned (v : View) (s : DeviceState) (written : Nat) : Turn → Prop where
  | polls (_ : s.Polling) : Turned v s written ⟨[], [written], []⟩
  | accepts (k : Nat) (hk : 1 ≤ k) (hle : written + k ≤ v.length) :
      Turned v s written ⟨(v.content.drop written).take k, [written + k], []⟩
  | resolves (_ : written = v.length ∨ s.deviceOpen = false) :
      Turned v s written ⟨[], [], [.resolved written]⟩
  | rejects (e : String) (h : s.Fails) (hp : ¬ s.Polling) :
      Turned v s written ⟨[], [], [.rejected e]⟩

theorem size_le (written : Nat) : d.size v written ≤ v.length - written := by
  simp only [SinkDevice.size]
  split <;> omega

theorem size_pos (hd : d.Positive) {written : Nat} (h : written < v.length) :
    1 ≤ d.size v written := by
  have hrec := hd.recommended
  have hmax := hd.max
  simp only [SinkDevice.size]
  split <;> omega

theorem piece_eq (written : Nat) :
    d.piece v written = (v.content.drop written).take (d.size v written) := by
  have hle := size_le (d := d) (v := v) written
  rw [SinkDevice.piece, View.content, List.drop_take, List.drop_drop, List.take_take,
    Nat.min_eq_left hle]

theorem piece_length (written : Nat) :
    (d.piece v written).length = d.size v written := by
  have hle := size_le (d := d) (v := v) written
  rw [piece_eq, List.length_take, List.length_drop, v.content_length]
  omega

theorem turn_cases (hd : d.Positive) (hs : s.Sound) {written : Nat} (hw : written ≤ v.length) :
    Turned v s written (d.turn v s written) := by
  rw [SinkDevice.turn]
  split
  · next hlt =>
    split
    · next hclosed =>
      obtain ⟨hready, hopen⟩ : s.deviceReady = false ∧ s.deviceOpen = true := by simpa using hclosed
      split
      · next ec herror => exact .rejects ec (.inl (by simp [herror])) (by simp [DeviceState.Polling, herror])
      · next herror => exact .polls ⟨hready, hopen, herror⟩
    · next hnot =>
      have hpolling : ¬ s.Polling := by
        rintro ⟨hready, hopen, -⟩
        exact hnot (by simp [hready, hopen])
      split
      · next ec herror => exact .rejects ec (.inl (by simp [herror])) hpolling
      · have hpos := size_pos hd hlt
        have hlen := piece_length (d := d) (v := v) written
        split
        · next hclosed => exact .resolves (.inr (by simpa using hclosed))
        · split
          · next hzero =>
            have := hd.recommended
            omega
          · split
            · next e hwrite => exact .rejects e (.inr ⟨_, e, hwrite⟩) hpolling
            · next k hwrite =>
              have hk : k ≤ d.size v written := hlen ▸ hs.accepts hwrite
              have hle := size_le (d := d) (v := v) written
              have hsome := hs.some hwrite (List.ne_nil_of_length_pos (by omega))
              rw [piece_eq, List.take_take, Nat.min_eq_left hk]
              exact .accepts k hsome (by omega)
  · exact .resolves (.inl (by omega))

def promiseOf : Settlement → Promise
  | .resolvedThis => .resolvedThis
  | .resolved n => .resolved n
  | .rejected e => .rejected e

theorem turn_refines (hs : s.Sound) (written : Nat) :
    d.writeHandler ⟨s.deviceReady, s.deviceOpen, s.deviceError, s.deviceWrite (d.piece v written)⟩
        ⟨v.content, written, .pending⟩ =
      ⟨v.content, (d.turn v s written).scheduled.headD written,
        ((d.turn v s written).settled.map promiseOf).headD .pending⟩ := by
  have hlen := piece_length (d := d) (v := v) written
  have hsize : d.pieceSize ⟨v.content, written, .pending⟩ = d.size v written := by
    simp only [SinkDevice.pieceSize, SinkDevice.size, v.content_length]
  rw [SinkDevice.writeHandler, SinkDevice.turn]
  simp only [v.content_length]
  split
  · split
    · cases s.deviceError <;> rfl
    · cases s.deviceError with
      | some ec => rfl
      | none =>
        simp only
        split
        · rfl
        · split
          · rfl
          · cases hwrite : s.deviceWrite (d.piece v written) with
            | error e => rfl
            | ok k =>
              have hk : k ≤ d.size v written := hlen ▸ hs.accepts hwrite
              simp [SinkDevice.bytesAccepted, hsize, Nat.min_eq_left hk]
  · rfl

theorem take_add (written k : Nat) :
    v.content.take written ++ (v.content.drop written).take k = v.content.take (written + k) :=
  List.take_add.symm

theorem next_progress (hd : d.Positive) (hs : s.Sound) {w : Writing} (hw : Progress v w) :
    Progress v (w.next d v s) := by
  cases hw with
  | pending written h =>
    have hturn := turn_cases hd hs h
    simp only [next]
    generalize d.turn v s written = t at hturn
    cases hturn with
    | polls h' => simpa using Progress.pending written h
    | accepts k hk hle =>
      rw [take_add]
      exact .pending (written + k) hle
    | resolves h' => simpa using Progress.settled written h (.resolved written) (.inl rfl)
    | rejects e _ _ => simpa using Progress.settled written h (.rejected e) (.inr ⟨e, rfl⟩)
  | settled written h s' hs' => exact .settled written h s' hs'

theorem after_progress (hd : d.Positive) (hsound : ∀ n, (states n).Sound) (hL : 0 < v.length)
    (n : Nat) : Progress v (after d v states n) := by
  induction n with
  | zero =>
    rw [after, start, if_neg (Nat.ne_of_gt hL)]
    exact .pending 0 (Nat.zero_le _)
  | succ n ih => exact next_progress hd (hsound n) ih

theorem after_settled {n m : Nat} (hm : n ≤ m) (h : (after d v states n).tasks = []) :
    after d v states m = after d v states n := by
  induction hm with
  | refl => rfl
  | step _ ih => rw [after, next, ih, h]

-- how the last run of the handler ends the write
structure Ends (d : SinkDevice) (v : View) (states : Nat → DeviceState) (n written : Nat)
    (s : Settlement) : Prop where
  pending : after d v states n = ⟨[written], v.content.take written, []⟩
  within : written ≤ v.length
  settled : after d v states (n + 1) = ⟨[], v.content.take written, [s]⟩
  cause : s = .resolved written ∧ (written = v.length ∨ (states n).deviceOpen = false) ∨
    (∃ e, s = .rejected e) ∧ (states n).Fails ∧ ¬ (states n).Polling

theorem after_pending {n written : Nat}
    (h : after d v states n = ⟨[written], v.content.take written, []⟩) :
    after d v states (n + 1) =
      ⟨(d.turn v (states n) written).scheduled,
        v.content.take written ++ (d.turn v (states n) written).accepted,
        (d.turn v (states n) written).settled⟩ := by
  rw [after, h]
  rfl

theorem ends_of_pending (hd : d.Positive) (hsound : ∀ n, (states n).Sound) {M : Nat}
    (hpolls : ∀ n ≥ M, ¬ (states n).Polling) {left n written : Nat}
    (hleft : (M - n) + (v.length - written) ≤ left) (hw : written ≤ v.length)
    (h : after d v states n = ⟨[written], v.content.take written, []⟩) :
    ∃ n written s, Ends d v states n written s := by
  induction left generalizing n written with
  | zero =>
    have hafter := after_pending h
    have hturn : d.turn v (states n) written = ⟨[], [], [.resolved written]⟩ := by
      rw [SinkDevice.turn, if_neg (by omega)]
    rw [hturn, List.append_nil] at hafter
    exact ⟨n, written, .resolved written, h, hw, hafter, .inl ⟨rfl, .inl (by omega)⟩⟩
  | succ left ih =>
    have hturn := turn_cases hd (hsound n) hw
    have hafter := after_pending h
    generalize d.turn v (states n) written = t at hturn hafter
    cases hturn with
    | polls hp =>
      have hn : n < M := by
        by_contra hge
        exact hpolls n (by omega) hp
      rw [List.append_nil] at hafter
      exact ih (by omega) hw hafter
    | accepts k hk hle =>
      rw [take_add] at hafter
      exact ih (by omega) hle hafter
    | resolves hr =>
      rw [List.append_nil] at hafter
      exact ⟨n, written, _, h, hw, hafter, .inl ⟨rfl, hr⟩⟩
    | rejects e he hp =>
      rw [List.append_nil] at hafter
      exact ⟨n, written, _, h, hw, hafter, .inr ⟨⟨e, rfl⟩, he, hp⟩⟩

theorem exists_ends (hd : d.Positive) (hsound : ∀ n, (states n).Sound)
    (hpolls : ∃ M, ∀ n ≥ M, ¬ (states n).Polling) (hL : 0 < v.length) :
    ∃ n written s, Ends d v states n written s := by
  obtain ⟨M, hM⟩ := hpolls
  have hstart : after d v states 0 = ⟨[0], v.content.take 0, []⟩ := by
    rw [after, start, if_neg (Nat.ne_of_gt hL), List.take_zero]
  exact ends_of_pending hd hsound hM (Nat.le_refl _) (Nat.zero_le _) hstart

theorem write_settles_once (d : SinkDevice) (hd : d.Positive) (v : View) (hL : 0 < v.length)
    (states : Nat → DeviceState) (hsound : ∀ n, (states n).Sound)
    (hpolls : ∃ M, ∀ n ≥ M, ¬ (states n).Polling) :
    (∀ n, (after d v states n).accepted <+: v.content ∧
      (after d v states n).tasks.length + (after d v states n).settlements.length = 1) ∧
    ∃ N written s, (∀ n ≥ N, after d v states n = ⟨[], v.content.take written, [s]⟩) ∧
      ((∀ n, Pending d v states n → (states n).Serving ∨ (states n).Polling) →
        v.content.take written = v.content ∧ s = .resolved v.length) ∧
      ((∀ n, Pending d v states n → ¬ (states n).Fails) → s = .resolved (v.content.take written).length) := by
  refine ⟨?_, ?_⟩
  · intro n
    have hprogress := after_progress hd hsound hL n
    generalize after d v states n = w at hprogress
    cases hprogress with
    | pending written h => exact ⟨List.take_prefix .., rfl⟩
    | settled written h s hs => exact ⟨List.take_prefix .., rfl⟩
  · obtain ⟨n, written, s, hends⟩ := exists_ends hd hsound hpolls hL
    have hpending : Pending d v states n := by
      rw [Pending, hends.pending]
      simp
    have hlen : (v.content.take written).length = written := by
      rw [List.length_take, v.content_length, Nat.min_eq_left hends.within]
    refine ⟨n + 1, written, s, ?_, ?_, ?_⟩
    · intro m hm
      rw [after_settled hm (by rw [hends.settled]), hends.settled]
    · intro hserve
      have hserve := hserve n hpending
      rcases hends.cause with ⟨hs, hfull | hclosed⟩ | ⟨-, hfails, hpolling⟩
      · rw [hs, hfull, ← v.content_length, List.take_length]
        exact ⟨rfl, rfl⟩
      · rcases hserve with hserve | hpoll
        · simp [hserve.2.1] at hclosed
        · simp [hpoll.2.1] at hclosed
      · rcases hserve with hserve | hpoll
        · exact absurd hfails hserve.2.2
        · exact absurd hpoll hpolling
    · intro hclean
      rw [hlen]
      rcases hends.cause with ⟨hs, -⟩ | ⟨-, hfails, -⟩
      · exact hs
      · exact absurd hfails (hclean n hpending)

def typedArray : View := ⟨[1, 2, 3, 4, 5, 6], 1, 5, by decide⟩

def busy : DeviceState := ⟨false, true, none, fun b => .ok b.length⟩

def accepting (room : Nat) : DeviceState := ⟨true, true, none, fun b => .ok (min b.length (room + 1))⟩

theorem busy_sound : busy.Sound where
  accepts := by
    rintro b k ⟨⟩
    exact Nat.le_refl _
  some := by
    rintro b k ⟨⟩ hb
    exact List.length_pos_iff.mpr hb

theorem accepting_sound (room : Nat) : (accepting room).Sound where
  accepts := by
    rintro b k ⟨⟩
    exact Nat.min_le_left _ _
  some := by
    rintro b k ⟨⟩ hb
    have := List.length_pos_iff.mpr hb
    omega

theorem accepting_serving (room : Nat) : (accepting room).Serving := by
  refine ⟨rfl, rfl, ?_⟩
  rintro (h | ⟨b, e, h⟩)
  · exact h rfl
  · cases h

theorem typed_array_written :
    ∃ N, ∀ n ≥ N, after ⟨4, 3⟩ typedArray (fun n => if n = 1 then busy else accepting 1) n =
      ⟨[], [2, 3, 4, 5, 6], [.resolved 5]⟩ := by
  have hsound : ∀ n, (if n = 1 then busy else accepting 1).Sound := by
    intro n
    split
    · exact busy_sound
    · exact accepting_sound 1
  have hserve : ∀ n, (if n = 1 then busy else accepting 1).Serving ∨
      (if n = 1 then busy else accepting 1).Polling := by
    intro n
    split
    · exact .inr ⟨rfl, rfl, rfl⟩
    · exact .inl (accepting_serving 1)
  have hpolls : ∀ n ≥ 2, ¬ (if n = 1 then busy else accepting 1).Polling := by
    intro n hn
    rw [if_neg (by omega)]
    rintro ⟨h, -⟩
    cases h
  obtain ⟨-, N, written, s, hend, hall, -⟩ := write_settles_once ⟨4, 3⟩ ⟨by decide, by decide⟩ typedArray
    (by decide) (fun n => if n = 1 then busy else accepting 1) hsound ⟨2, hpolls⟩
  obtain ⟨hcontent, hs⟩ := hall fun n _ => hserve n
  refine ⟨N, ?_⟩
  intro n hn
  rw [hend n hn, hcontent, hs]
  rfl

end Writing
end NexusRuntime.Devices
