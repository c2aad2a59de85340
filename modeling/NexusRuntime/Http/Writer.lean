import NexusRuntime.Wire.Octets

namespace NexusRuntime.Http

open Wire

-- which part of the n bytes offered the i-th send takes
structure SendPattern where
  accepted : Nat → Nat → Nat
  some : ∀ i n, 1 ≤ n → 1 ≤ accepted i n
  most : ∀ i n, accepted i n ≤ n

structure Peer where
  received : Octets
  sends : Nat
deriving DecidableEq, Repr

-- buffer sequences fit the address space
structure ConstBufferSequence where
  buffers : List Octets
  fits : buffers.flatten.length < 18446744073709551616

namespace TCPSocket

def maxWriteBufferSize : Nat := 18446744073709551615

variable (p : SendPattern)

def send (s : Peer) (bytes : Octets) : Peer × Nat :=
  let ret := p.accepted s.sends bytes.length
  (⟨s.received ++ bytes.take ret, s.sends + 1⟩, ret)

def deviceWriteLoop (buffer : Octets) : Nat → Peer → Nat → Nat → Nat → Peer × Nat
  | 0, s, _, written, _ => (s, written)
  | fuel + 1, s, i, written, remaining =>
    if i < buffer.length then
      let sent := send p s ((buffer.drop i).take (min maxWriteBufferSize remaining))
      deviceWriteLoop buffer fuel sent.1 (i + maxWriteBufferSize) (written + sent.2)
        (remaining - sent.2)
    else (s, written)

def deviceWrite (s : Peer) (buffer : Octets) : Peer × Nat :=
  deviceWriteLoop p buffer (buffer.length + 1) s 0 0 buffer.length

theorem deviceWriteLoop_end {buffer : Octets} {i : Nat} (h : buffer.length ≤ i) (fuel : Nat) (s : Peer)
    (written remaining : Nat) :
    deviceWriteLoop p buffer fuel s i written remaining = (s, written) := by
  cases fuel with
  | zero => rfl
  | succ fuel => rw [deviceWriteLoop, if_neg (by omega)]

theorem deviceWrite_empty (s : Peer) : deviceWrite p s [] = (s, 0) := rfl

-- the step of the loop is the largest size_t, so one send is all it makes
theorem deviceWrite_once {buffer : Octets} (hne : buffer ≠ [])
    (hlen : buffer.length ≤ maxWriteBufferSize) (s : Peer) :
    deviceWrite p s buffer =
      (⟨s.received ++ buffer.take (p.accepted s.sends buffer.length), s.sends + 1⟩,
        p.accepted s.sends buffer.length) := by
  have hpos : 0 < buffer.length := List.length_pos_iff.mpr hne
  rw [deviceWrite, deviceWriteLoop, if_pos hpos, deviceWriteLoop_end _ (by omega), send,
    List.drop_zero, Nat.min_eq_right hlen, List.take_length, Nat.zero_add]

end TCPSocket

namespace Writer
variable (p : SendPattern)

open TCPSocket

def writeBuffers : Peer → Nat → List Octets → Peer × Nat
  | s, written, [] => (s, written)
  | s, written, buffer :: sequence =>
    let bufSize := buffer.length
    let s := if bufSize ≠ 0 then (deviceWrite p s buffer).1 else s
    writeBuffers s (written + bufSize) sequence

def writeSome (s : Peer) (sequence : List Octets) : Peer × Nat :=
  let r := writeBuffers p s 0 sequence
  if r.2 = 0 then ((deviceWrite p r.1 []).1, r.2) else r

def consume : Nat → List Octets → List Octets
  | _, [] => []
  | n, buffer :: sequence =>
    if n < buffer.length then buffer.drop n :: sequence else consume (n - buffer.length) sequence

-- the writing loops of Asio and Beast: offer what is left until it is consumed
def writeAll : Nat → Peer → List Octets → Peer
  | 0, s, _ => s
  | fuel + 1, s, sequence =>
    if sequence.flatten = [] then s
    else
      let r := writeSome p s sequence
      writeAll fuel r.1 (consume r.2 sequence)

def taken : Nat → List Octets → Octets
  | _, [] => []
  | i, buffer :: sequence =>
    if buffer.length ≠ 0 then
      buffer.take (p.accepted i buffer.length) ++ taken (i + 1) sequence
    else taken i sequence

def AllWhole : Nat → List Octets → Prop
  | _, [] => True
  | i, buffer :: sequence =>
    if buffer.length ≠ 0 then p.accepted i buffer.length = buffer.length ∧ AllWhole (i + 1) sequence
    else AllWhole i sequence

structure Exact (s : Peer) (sequence : List Octets) : Prop where
  returned : ∃ accepted, (writeSome p s sequence).1.received = s.received ++ accepted ∧
    (writeSome p s sequence).2 = accepted.length ∧
    accepted = sequence.flatten.take (writeSome p s sequence).2
  reaches : ∃ n, ∀ fuel ≥ n, (writeAll p fuel s sequence).received = s.received ++ sequence.flatten

variable {p}

theorem writeBuffers_eq {sequence : List Octets}
    (hfits : ∀ b ∈ sequence, b.length ≤ maxWriteBufferSize) (s : Peer) (written : Nat) :
    (writeBuffers p s written sequence).1.received = s.received ++ taken p s.sends sequence ∧
      (writeBuffers p s written sequence).2 = written + sequence.flatten.length := by
  induction sequence generalizing s written with
  | nil => simp [writeBuffers, taken]
  | cons b bs ih =>
    have hrest := fun c hc => hfits c (List.mem_cons_of_mem b hc)
    rw [writeBuffers, taken, List.flatten_cons, List.length_append]
    by_cases hb : b.length = 0
    · have hstep := ih hrest s (written + b.length)
      simp only [hb, ne_eq, not_true_eq_false, if_false, Nat.add_zero, Nat.zero_add] at hstep ⊢
      exact hstep
    · have hne : b ≠ [] := by
        rintro rfl
        exact hb rfl
      have honce := deviceWrite_once p hne (hfits b (List.mem_cons_self ..)) s
      have hstep := ih hrest (deviceWrite p s b).1 (written + b.length)
      rw [honce] at hstep
      simp only [ne_eq, hb, not_false_eq_true, if_true, honce]
      refine ⟨?_, ?_⟩
      · rw [hstep.1, List.append_assoc]
      · rw [hstep.2, Nat.add_assoc]

theorem writeSome_eq {sequence : List Octets}
    (hfits : ∀ b ∈ sequence, b.length ≤ maxWriteBufferSize) (s : Peer) :
    (writeSome p s sequence).1.received = s.received ++ taken p s.sends sequence ∧
      (writeSome p s sequence).2 = sequence.flatten.length := by
  obtain ⟨hreceived, hwritten⟩ := writeBuffers_eq (p := p) hfits s 0
  rw [Nat.zero_add] at hwritten
  rw [writeSome]
  simp only [deviceWrite_empty]
  split <;> exact ⟨hreceived, hwritten⟩

theorem taken_length_le (i : Nat) (sequence : List Octets) :
    (taken p i sequence).length ≤ sequence.flatten.length := by
  induction sequence generalizing i with
  | nil => exact Nat.le_refl _
  | cons b bs ih =>
    have h₁ := ih (i + 1)
    have h₂ := ih i
    rw [taken, List.flatten_cons, List.length_append]
    split
    · rw [List.length_append, List.length_take]
      omega
    · omega

theorem taken_whole {i : Nat} {sequence : List Octets} (h : AllWhole p i sequence) :
    taken p i sequence = sequence.flatten := by
  induction sequence generalizing i with
  | nil => rfl
  | cons b bs ih =>
    rw [AllWhole] at h
    rw [taken, List.flatten_cons]
    split at h
    · next hb => rw [if_pos hb, h.1, List.take_length, ih h.2]
    · next hb =>
      have hnil : b = [] := List.eq_nil_of_length_eq_zero (by omega)
      rw [if_neg hb, ih h, hnil, List.nil_append]

theorem whole_of_taken {i : Nat} {sequence : List Octets}
    (h : (taken p i sequence).length = sequence.flatten.length) : AllWhole p i sequence := by
  induction sequence generalizing i with
  | nil => trivial
  | cons b bs ih =>
    rw [AllWhole]
    rw [taken, List.flatten_cons, List.length_append] at h
    split at h
    · next hb =>
      rw [List.length_append, List.length_take] at h
      have hmost := p.most i b.length
      have hrest := taken_length_le (p := p) (i + 1) bs
      rw [if_pos hb]
      exact ⟨by omega, ih (by omega)⟩
    · next hb =>
      rw [if_neg hb]
      exact ih (by omega)

theorem consume_all (sequence : List Octets) : consume sequence.flatten.length sequence = [] := by
  induction sequence with
  | nil => rfl
  | cons b bs ih =>
    have hlen : (b ++ bs.flatten).length - b.length = bs.flatten.length := by
      rw [List.length_append]
      omega
    rw [List.flatten_cons, consume, if_neg (by rw [List.length_append]; omega), hlen, ih]

theorem writeAll_once {sequence : List Octets}
    (hfits : ∀ b ∈ sequence, b.length ≤ maxWriteBufferSize) (s : Peer) (fuel : Nat) :
    (writeAll p (fuel + 1) s sequence).received = s.received ++ taken p s.sends sequence := by
  obtain ⟨hreceived, hwritten⟩ := writeSome_eq (p := p) hfits s
  have htaken := taken_length_le (p := p) s.sends sequence
  rw [writeAll]
  split
  · next hnil =>
    rw [hnil, List.length_nil, Nat.le_zero_eq, List.length_eq_zero_iff] at htaken
    rw [htaken, List.append_nil]
  · simp only [hwritten, consume_all]
    cases fuel with
    | zero => exact hreceived
    | succ fuel =>
      rw [writeAll, if_pos List.flatten_nil]
      exact hreceived

theorem exact_iff_whole (p : SendPattern) (s : Peer) (sequence : ConstBufferSequence) :
    Exact p s sequence.buffers ↔ AllWhole p s.sends sequence.buffers := by
  have hfits : ∀ b ∈ sequence.buffers, b.length ≤ maxWriteBufferSize := by
    intro b hb
    have hle := (List.sublist_flatten_of_mem hb).length_le
    have := sequence.fits
    rw [maxWriteBufferSize]
    omega
  obtain ⟨hreceived, hwritten⟩ := writeSome_eq (p := p) hfits s
  constructor
  · rintro ⟨⟨accepted, ha, hn, -⟩, -⟩
    rw [hreceived, List.append_cancel_left_eq] at ha
    rw [hwritten, ← ha] at hn
    exact whole_of_taken hn.symm
  · intro hwhole
    have htaken := taken_whole hwhole
    refine ⟨⟨taken p s.sends sequence.buffers, hreceived, ?_, ?_⟩, 1, ?_⟩
    · rw [hwritten, htaken]
    · rw [hwritten, htaken, List.take_length]
    · intro fuel hfuel
      obtain ⟨fuel, rfl⟩ := Nat.exists_eq_add_of_le' hfuel
      rw [writeAll_once hfits, htaken]

def roomFor (room : Nat) : SendPattern where
  accepted := fun _ n => min n (room + 1)
  some := by
    intro _ n hn
    omega
  most := fun _ n => Nat.min_le_left n _

theorem short_send_leaves_gap :
    writeSome (roomFor 1) ⟨[], 0⟩ [[1, 2, 3], [4, 5]] = (⟨[1, 2, 4, 5], 2⟩, 5) ∧
      ¬ Exact (roomFor 1) ⟨[], 0⟩ [[1, 2, 3], [4, 5]] := by
  have hwrite : writeSome (roomFor 1) ⟨[], 0⟩ [[1, 2, 3], [4, 5]] = (⟨[1, 2, 4, 5], 2⟩, 5) := by decide
  refine ⟨hwrite, ?_⟩
  rintro ⟨⟨accepted, hreceived, hn, -⟩, -⟩
  rw [hwrite] at hreceived hn
  rw [List.nil_append] at hreceived
  rw [← hreceived] at hn
  exact absurd hn (by decide)

end Writer
end NexusRuntime.Http
