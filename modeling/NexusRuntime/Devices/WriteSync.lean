import NexusRuntime.Devices.SinkWrite

namespace NexusRuntime.Devices

inductive Argument where
  | null
  | primitive
  | object
  | buffer (v : View)

def bufferArgument : List Argument → Except String View
  | [] => .error "must supply buffer to write"
  | .null :: _ => .error "bad value for buffer argument"
  | .primitive :: _ => .error "bad value for buffer argument"
  | .object :: _ => .error "argument must be TypedArray or ArrayBuffer"
  | .buffer v :: _ => .ok v

structure SyncWrite where
  accepted : List UInt8
  result : Except String Nat

def writeSync (arguments : List Argument) (s : DeviceState) : SyncWrite :=
  match bufferArgument arguments with
  | .error e => ⟨[], .error e⟩
  | .ok v =>
    if !s.deviceReady then ⟨[], .error "device not ready"⟩
    else
      match s.deviceWrite v.content with
      | .error e => ⟨[], .error e⟩
      | .ok accepted => ⟨v.content.take accepted, .ok v.length⟩

namespace Writing
variable {d : SinkDevice} {v : View} {states : Nat → DeviceState}

def Agrees (d : SinkDevice) (v : View) (states : Nat → DeviceState) : Prop :=
  let sync := writeSync [.buffer v] (states 0)
  (∃ N, ∀ n ≥ N, (after d v states n).tasks = [] ∧ (after d v states n).accepted = sync.accepted) ∧
    sync.result = .ok sync.accepted.length

-- no run of the handler gives up while bytes are left
def Uncut (d : SinkDevice) (v : View) (states : Nat → DeviceState) : Prop :=
  ∀ n written, (after d v states n).tasks = [written] → written < v.length →
    (d.turn v (states n) written).settled = []

structure AcceptsWhole (v : View) (s : DeviceState) : Prop where
  ready : s.deviceReady = true
  whole : s.deviceWrite v.content = .ok v.length

theorem writeSync_whole {s : DeviceState} (h : AcceptsWhole v s) :
    writeSync [.buffer v] s = ⟨v.content, .ok v.length⟩ := by
  have htake : v.content.take v.length = v.content := by
    rw [← v.content_length, List.take_length]
  simp [writeSync, bufferArgument, h.ready, h.whole, htake]

theorem whole_of_writeSync {s : DeviceState} (hs : s.Sound)
    (h : (writeSync [.buffer v] s).result = .ok (writeSync [.buffer v] s).accepted.length) :
    AcceptsWhole v s := by
  cases hready : s.deviceReady with
  | false => simp [writeSync, bufferArgument, hready] at h
  | true =>
    cases hwrite : s.deviceWrite v.content with
    | error e => simp [writeSync, bufferArgument, hready, hwrite] at h
    | ok k =>
      have hk := hs.accepts hwrite
      rw [v.content_length] at hk
      simp only [writeSync, bufferArgument, hready, hwrite, Bool.not_true, Bool.false_eq_true, if_false,
        Except.ok.injEq, List.length_take, v.content_length] at h
      obtain rfl : k = v.length := by omega
      exact ⟨hready, hwrite⟩

theorem after_empty (h : v.length = 0) (n : Nat) :
    after d v states n = ⟨[], [], [.resolvedThis]⟩ := by
  have hstart : after d v states 0 = ⟨[], [], [.resolvedThis]⟩ := by rw [after, start, if_pos h]
  rw [after_settled (Nat.zero_le n) (by rw [hstart]), hstart]

theorem take_eq_content {written : Nat} (hw : written ≤ v.length)
    (h : v.content.take written = v.content) : written = v.length := by
  have := congrArg List.length h
  rw [List.length_take, v.content_length] at this
  omega

theorem uncut_of_content (hd : d.Positive) (hsound : ∀ n, (states n).Sound) {N : Nat}
    (h : ∀ n ≥ N, (after d v states n).accepted = v.content) : Uncut d v states := by
  intro n written htasks hlt
  have hprogress := after_progress hd hsound (by omega : 0 < v.length) n
  generalize hw : after d v states n = w at hprogress htasks
  cases hprogress with
  | settled => cases htasks
  | pending m hm =>
    obtain rfl : m = written := by simpa using htasks
    have hturn := turn_cases hd (hsound n) hm
    have hafter := after_pending hw
    generalize d.turn v (states n) m = t at hturn hafter
    -- a settled write keeps what the device had by then
    have hcut : after d v states (n + 1) = ⟨[], v.content.take m, t.settled⟩ → False := by
      intro hend
      have hlast := h (max N (n + 1)) (Nat.le_max_left ..)
      rw [after_settled (Nat.le_max_right ..) (by rw [hend]), hend] at hlast
      have := take_eq_content hm hlast
      omega
    cases hturn with
    | polls | accepts => rfl
    | resolves | rejects =>
      rw [List.append_nil] at hafter
      exact absurd hafter hcut

theorem agrees_iff (d : SinkDevice) (hd : d.Positive) (v : View) (states : Nat → DeviceState)
    (hsound : ∀ n, (states n).Sound) (hpolls : ∃ M, ∀ n ≥ M, ¬ (states n).Polling) :
    Agrees d v states ↔ AcceptsWhole v (states 0) ∧ Uncut d v states := by
  constructor
  · rintro ⟨⟨N, hN⟩, hresult⟩
    have hwhole := whole_of_writeSync (hsound 0) hresult
    refine ⟨hwhole, ?_⟩
    apply uncut_of_content hd hsound (N := N)
    intro n hn
    rw [(hN n hn).2, writeSync_whole hwhole]
  · rintro ⟨hwhole, huncut⟩
    rw [Agrees, writeSync_whole hwhole]
    refine ⟨?_, by rw [v.content_length]⟩
    rcases Nat.eq_zero_or_pos v.length with hzero | hL
    · refine ⟨0, ?_⟩
      intro n _
      have hnil : v.content = [] := List.eq_nil_of_length_eq_zero (by rw [v.content_length, hzero])
      rw [after_empty hzero, hnil]
      exact ⟨rfl, rfl⟩
    · obtain ⟨n, written, s, hends⟩ := exists_ends hd hsound hpolls hL
      have hfull : written = v.length := by
        by_contra hne
        have hle := hends.within
        have hsettled := huncut n written (by rw [hends.pending]) (by omega)
        have hend := congrArg Writing.settlements hends.settled
        rw [after_pending hends.pending, hsettled] at hend
        cases hend
      refine ⟨n + 1, ?_⟩
      intro m hm
      rw [after_settled hm (by rw [hends.settled]), hends.settled, hfull, ← v.content_length,
        List.take_length]
      exact ⟨rfl, rfl⟩

theorem accepting_not_polling (room : Nat) : ¬ (accepting room).Polling := by
  rintro ⟨h, -⟩
  cases h

theorem whole_write_agrees :
    Agrees ⟨2, 8⟩ (View.arrayBuffer [1, 2, 3, 4, 5]) (fun _ => accepting 4) := by
  have huncut : Uncut ⟨2, 8⟩ (View.arrayBuffer [1, 2, 3, 4, 5]) (fun _ => accepting 4) := by
    intro n written _ hlt
    have hsize := size_pos (d := ⟨2, 8⟩) ⟨by decide, by decide⟩ hlt
    have hmin : min 2 ((View.arrayBuffer [1, 2, 3, 4, 5]).length - written) ≠ 0 := by omega
    simp [SinkDevice.turn, accepting, hlt, hmin]
  exact (agrees_iff ⟨2, 8⟩ ⟨by decide, by decide⟩ (View.arrayBuffer [1, 2, 3, 4, 5])
    (fun _ => accepting 4) (fun _ => accepting_sound 4)
    ⟨0, fun _ _ => accepting_not_polling 4⟩).mpr ⟨⟨rfl, rfl⟩, huncut⟩

theorem partial_write_disagrees :
    writeSync [.buffer (View.arrayBuffer [1, 2, 3, 4, 5])] (accepting 1) = ⟨[1, 2], .ok 5⟩ ∧
      (∃ N, ∀ n ≥ N, after ⟨4, 4⟩ (View.arrayBuffer [1, 2, 3, 4, 5]) (fun _ => accepting 1) n =
        ⟨[], [1, 2, 3, 4, 5], [.resolved 5]⟩) ∧
      ¬ Agrees ⟨4, 4⟩ (View.arrayBuffer [1, 2, 3, 4, 5]) (fun _ => accepting 1) := by
  refine ⟨rfl, ⟨4, ?_⟩, ?_⟩
  · intro n hn
    have hend : after ⟨4, 4⟩ (View.arrayBuffer [1, 2, 3, 4, 5]) (fun _ => accepting 1) 4 =
        ⟨[], [1, 2, 3, 4, 5], [.resolved 5]⟩ := rfl
    rw [after_settled hn (by rw [hend]), hend]
  · rintro ⟨-, hresult⟩
    simp [writeSync, bufferArgument, accepting, View.arrayBuffer, View.content] at hresult

end Writing
end NexusRuntime.Devices
