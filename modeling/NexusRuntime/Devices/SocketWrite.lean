import Mathlib.Algebra.Ring.Nat
import NexusRuntime.Devices.TcpSocket
import NexusRuntime.Devices.UdpSocket

namespace NexusRuntime.SocketWrite

structure ArrayBuffer where
  bytes : List UInt8
  small : bytes.length < 2 ^ 53

def ArrayBuffer.length (b : ArrayBuffer) : UInt64 := UInt64.ofNat b.bytes.length

-- how one call of the socket leaves the loop of deviceWrite
inductive Answer where
  | accepted (ret : UInt64)
  | canceled (ret : UInt64)
  | failed (message : String)
deriving DecidableEq, Repr

def Answer.ret : Answer → UInt64
  | .accepted ret => ret
  | .canceled ret => ret
  | .failed _ => 0

structure Call where
  offset : UInt64
  size : UInt64
  answer : Answer
deriving DecidableEq, Repr

def Call.Succeeded (c : Call) : Prop := ∃ ret, c.answer = .accepted ret

structure Run (S : Type) where
  socket : S
  calls : List Call
  result : Except String UInt64
deriving Repr

variable {S : Type}

def Run.after (c : Call) (r : Run S) : Run S := { r with calls := c :: r.calls }

def writeLoop (send : S → UInt64 → UInt64 → S × Answer) (maxBufferLength length : UInt64) :
    Nat → S → UInt64 → UInt64 → UInt64 → Option (Run S)
  | 0, _, _, _, _ => none
  | fuel + 1, s, i, remaining, written =>
    if i < length then
      let size := if remaining < maxBufferLength then remaining else maxBufferLength
      match send s i size with
      | (s, .accepted ret) =>
        (writeLoop send maxBufferLength length fuel s (i + maxBufferLength) (remaining - ret)
          (written + ret)).map (Run.after ⟨i, size, .accepted ret⟩)
      | (s, .canceled ret) => some ⟨s, [⟨i, size, .canceled ret⟩], .ok (written + ret)⟩
      | (s, .failed message) => some ⟨s, [⟨i, size, .failed message⟩], .error message⟩
    else some ⟨s, [], .ok written⟩

def Call.Inside (b : ArrayBuffer) (c : Call) : Prop :=
  c.offset.toNat + c.size.toNat ≤ b.bytes.length

def Call.bytes (b : ArrayBuffer) (c : Call) : List UInt8 :=
  (b.bytes.drop c.offset.toNat).take c.answer.ret.toNat

def Run.accepted (b : ArrayBuffer) (r : Run S) : List UInt8 := r.calls.flatMap (Call.bytes b)

structure Run.Carries (b : ArrayBuffer) (r : Run S) : Prop where
  inside : ∀ c ∈ r.calls, c.Inside b
  first : ∀ n, r.result = .ok n → n.toNat ≤ b.bytes.length ∧ r.accepted b = b.bytes.take n.toNat

def Returns (run : Nat → Option (Run S)) (r : Run S) : Prop := ∃ fuel, ∀ more, run (fuel + more) = some r

structure StreamSocket (S : Type) where
  send : S → UInt64 → UInt64 → S × Except String UInt64
  accepts : ∀ {s i n s' ret}, send s i n = (s', .ok ret) → 0 < n.toNat →
    0 < ret.toNat ∧ ret.toNat ≤ n.toNat

structure ErrorCode where
  message : String
  operationCanceled : Bool
deriving DecidableEq, Repr

structure DatagramSocket (S : Type) where
  sendTo : S → UInt64 → UInt64 → S × UInt64 × Option ErrorCode
  whole : ∀ {s i n s' ret}, sendTo s i n = (s', ret, none) → ret = n
  fails : ∀ {s i n s' ret ec}, sendTo s i n = (s', ret, some ec) → ret = 0

theorem ArrayBuffer.length_toNat (b : ArrayBuffer) : b.length.toNat = b.bytes.length := by
  have hsmall := b.small
  exact UInt64.toNat_ofNat_of_lt' (by simp only [UInt64.size]; omega)

theorem Run.Carries.one {b : ArrayBuffer} {c : Call} {s : S} {result : Except String UInt64}
    (hinside : c.Inside b)
    (h : ∀ n, result = .ok n → n.toNat ≤ b.bytes.length ∧ c.bytes b = b.bytes.take n.toNat) :
    (⟨s, [c], result⟩ : Run S).Carries b := by
  refine ⟨List.forall_mem_singleton.mpr hinside, ?_⟩
  intro n hn
  obtain ⟨hlength, hbytes⟩ := h n hn
  refine ⟨hlength, ?_⟩
  show c.bytes b ++ [] = _
  rw [List.append_nil, hbytes]

section Loop
variable {send : S → UInt64 → UInt64 → S × Answer} {maxBufferLength length i size remaining written : UInt64}
variable {s s' : S}

theorem writeLoop_done (fuel : Nat) (h : ¬i < length) :
    writeLoop send maxBufferLength length (fuel + 1) s i remaining written = some ⟨s, [], .ok written⟩ := by
  rw [writeLoop, if_neg h]

theorem writeLoop_accepted (fuel : Nat) {ret : UInt64} (h : i < length)
    (hsize : (if remaining < maxBufferLength then remaining else maxBufferLength) = size)
    (hsend : send s i size = (s', .accepted ret)) :
    writeLoop send maxBufferLength length (fuel + 1) s i remaining written =
      (writeLoop send maxBufferLength length fuel s' (i + maxBufferLength) (remaining - ret)
        (written + ret)).map (Run.after ⟨i, size, .accepted ret⟩) := by
  rw [writeLoop, if_pos h]
  simp only [hsize, hsend]

theorem writeLoop_canceled (fuel : Nat) {ret : UInt64} (h : i < length)
    (hsize : (if remaining < maxBufferLength then remaining else maxBufferLength) = size)
    (hsend : send s i size = (s', .canceled ret)) :
    writeLoop send maxBufferLength length (fuel + 1) s i remaining written =
      some ⟨s', [⟨i, size, .canceled ret⟩], .ok (written + ret)⟩ := by
  rw [writeLoop, if_pos h]
  simp only [hsize, hsend]

theorem writeLoop_failed (fuel : Nat) {message : String} (h : i < length)
    (hsize : (if remaining < maxBufferLength then remaining else maxBufferLength) = size)
    (hsend : send s i size = (s', .failed message)) :
    writeLoop send maxBufferLength length (fuel + 1) s i remaining written =
      some ⟨s', [⟨i, size, .failed message⟩], .error message⟩ := by
  rw [writeLoop, if_pos h]
  simp only [hsize, hsend]

theorem writeLoop_more {fuel : Nat} {r : Run S}
    (h : writeLoop send maxBufferLength length fuel s i remaining written = some r) (more : Nat) :
    writeLoop send maxBufferLength length (fuel + more) s i remaining written = some r := by
  induction fuel generalizing s i remaining written r with
  | zero => cases h
  | succ fuel ih =>
    rw [Nat.add_right_comm]
    by_cases hi : i < length
    · let size := if remaining < maxBufferLength then remaining else maxBufferLength
      rcases hsend : send s i size with ⟨s', answer⟩
      cases answer with
      | accepted ret =>
        rw [writeLoop_accepted _ hi rfl hsend] at h ⊢
        obtain ⟨q, hq, rfl⟩ := Option.map_eq_some_iff.mp h
        rw [ih hq]
        rfl
      | canceled ret =>
        rw [writeLoop_canceled _ hi rfl hsend] at h ⊢
        exact h
      | failed message =>
        rw [writeLoop_failed _ hi rfl hsend] at h ⊢
        exact h
    · rw [writeLoop_done _ hi] at h ⊢
      exact h

end Loop

end SocketWrite

namespace TcpSocket

open SocketWrite

variable {S : Type}

def maxWriteBufferSize : UInt64 := 18446744073709551615

def sendAnswer (socket : StreamSocket S) (s : S) (offset size : UInt64) : S × Answer :=
  match socket.send s offset size with
  | (s, .ok ret) => (s, .accepted ret)
  | (s, .error message) => (s, .failed message)

def deviceWrite (socket : StreamSocket S) (fuel : Nat) (s : S) (b : ArrayBuffer) : Option (Run S) :=
  writeLoop (sendAnswer socket) maxWriteBufferSize b.length fuel s 0 b.length 0

-- the stride takes the index from 0 to 2^64 - 1, which no buffer reaches
theorem deviceWrite_carries (socket : StreamSocket S) (s : S) (b : ArrayBuffer) {fuel : Nat}
    (hfuel : b.bytes.length < fuel) :
    ∃ r, deviceWrite socket fuel s b = some r ∧ r.Carries b := by
  have hlength := b.length_toNat
  have hsmall := b.small
  obtain ⟨fuel, rfl⟩ := Nat.exists_eq_add_of_lt hfuel
  have hmax : maxWriteBufferSize.toNat = 2 ^ 64 - 1 := rfl
  have hzero : (0 : UInt64).toNat = 0 := rfl
  rcases Nat.eq_zero_or_pos b.bytes.length with hempty | hpos
  · refine ⟨⟨s, [], .ok 0⟩, ?_, ?_, ?_⟩
    · refine writeLoop_done _ ?_
      rw [UInt64.lt_iff_toNat_lt]
      omega
    · intro c hc
      cases hc
    · intro n hn
      cases hn
      exact ⟨Nat.zero_le _, rfl⟩
  · have hin : (0 : UInt64) < b.length := by
      rw [UInt64.lt_iff_toNat_lt]
      omega
    have hsize : (if b.length < maxWriteBufferSize then b.length else maxWriteBufferSize) = b.length := by
      refine if_pos ?_
      rw [UInt64.lt_iff_toNat_lt]
      omega
    have hinside (answer : Answer) : Call.Inside b ⟨0, b.length, answer⟩ := by
      show (0 : UInt64).toNat + b.length.toNat ≤ b.bytes.length
      omega
    rcases hsend : socket.send s 0 b.length with ⟨s', outcome⟩
    cases outcome with
    | error message =>
      have hanswer : sendAnswer socket s 0 b.length = (s', .failed message) := by
        rw [sendAnswer, hsend]
      refine ⟨_, writeLoop_failed _ hin hsize hanswer, .one (hinside _) ?_⟩
      intro n hn
      cases hn
    | ok ret =>
      have hanswer : sendAnswer socket s 0 b.length = (s', .accepted ret) := by
        rw [sendAnswer, hsend]
      have hret := (socket.accepts hsend (by omega)).2
      have hwritten : (0 + ret).toNat = ret.toNat := by
        rw [UInt64.toNat_add]
        omega
      have hstop : ¬(0 + maxWriteBufferSize) < b.length := by
        rw [UInt64.lt_iff_toNat_lt, UInt64.toNat_add]
        omega
      obtain ⟨k, hk⟩ : ∃ k, b.bytes.length + fuel = k + 1 := ⟨b.bytes.length + fuel - 1, by omega⟩
      refine ⟨⟨s', [⟨0, b.length, .accepted ret⟩], .ok (0 + ret)⟩, ?_, .one (hinside _) ?_⟩
      · rw [deviceWrite, writeLoop_accepted _ hin hsize hanswer, hk, writeLoop_done _ hstop]
        rfl
      · intro n hn
        cases hn
        rw [hwritten]
        exact ⟨by omega, congrArg (List.take _) List.drop_zero⟩

end TcpSocket

namespace UdpSocket

open SocketWrite

variable {S : Type}

def maxWriteBufferSize : UInt64 := 65507

def recommendedWriteBufferSize : UInt64 := maxWriteBufferSize

def sendAnswer (socket : DatagramSocket S) (s : S) (offset size : UInt64) : S × Answer :=
  match socket.sendTo s offset size with
  | (s, ret, none) => (s, .accepted ret)
  | (s, ret, some ec) => if ec.operationCanceled then (s, .canceled ret) else (s, .failed ec.message)

def deviceWrite (socket : DatagramSocket S) (fuel : Nat) (s : S) (b : ArrayBuffer) : Option (Run S) :=
  writeLoop (sendAnswer socket) recommendedWriteBufferSize b.length fuel s 0 b.length 0

section Loop
variable {b : ArrayBuffer} {i remaining written : UInt64}

-- where the counters stand when the test of the loop is made
structure At (b : ArrayBuffer) (i remaining written : UInt64) : Prop where
  written : written.toNat = min i.toNat b.bytes.length
  remaining : remaining.toNat = b.bytes.length - i.toNat
  bounded : i.toNat ≤ b.bytes.length + 65507

def datagramSize (remaining : UInt64) : UInt64 :=
  if remaining < recommendedWriteBufferSize then remaining else recommendedWriteBufferSize

theorem datagramSize_toNat (remaining : UInt64) :
    (datagramSize remaining).toNat = min remaining.toNat 65507 := by
  have hmax : recommendedWriteBufferSize.toNat = 65507 := rfl
  by_cases h : remaining < recommendedWriteBufferSize
  · rw [datagramSize, if_pos h]
    rw [UInt64.lt_iff_toNat_lt] at h
    omega
  · rw [datagramSize, if_neg h]
    rw [UInt64.lt_iff_toNat_lt] at h
    omega

theorem start_at (b : ArrayBuffer) : At b 0 b.length 0 := by
  have hzero : (0 : UInt64).toNat = 0 := rfl
  refine ⟨?_, ?_, ?_⟩
  · omega
  · rw [b.length_toNat]
    omega
  · omega

theorem stride_toNat (i : UInt64) (h : i.toNat < 2 ^ 53) :
    (i + recommendedWriteBufferSize).toNat = i.toNat + 65507 := by
  have hmax : recommendedWriteBufferSize.toNat = 65507 := rfl
  rw [UInt64.toNat_add, hmax]
  omega

theorem sent_toNat (written remaining : UInt64) (h : written.toNat < 2 ^ 53) :
    (written + datagramSize remaining).toNat = written.toNat + (datagramSize remaining).toNat := by
  have hsize := datagramSize_toNat remaining
  rw [UInt64.toNat_add]
  omega

theorem min_stride (k length stride : Nat) (h : k < length) :
    min k length + min (length - k) stride = min (k + stride) length := by
  omega

theorem At.next (h : At b i remaining written) (hi : i < b.length) :
    At b (i + recommendedWriteBufferSize) (remaining - datagramSize remaining)
      (written + datagramSize remaining) := by
  obtain ⟨hwritten, hremaining, hbounded⟩ := h
  have hsize := datagramSize_toNat remaining
  have hsmall := b.small
  rw [UInt64.lt_iff_toNat_lt, b.length_toNat] at hi
  have hi' := stride_toNat i (by omega)
  have hwritten' := sent_toNat written remaining (by omega)
  have hremaining' : (remaining - datagramSize remaining).toNat =
      remaining.toNat - (datagramSize remaining).toNat := by
    refine UInt64.toNat_sub_of_le _ _ ?_
    rw [UInt64.le_iff_toNat_le, hsize]
    exact Nat.min_le_left ..
  refine ⟨?_, ?_, ?_⟩
  · rw [hi', hwritten', hsize, hwritten, hremaining]
    exact min_stride _ _ _ hi
  · rw [hi', hremaining']
    omega
  · rw [hi']
    omega

structure Sends (b : ArrayBuffer) (start : Nat) (r : Run S) : Prop where
  inside : ∀ c ∈ r.calls, c.Inside b
  small : ∀ c ∈ r.calls, c.size.toNat ≤ 65507
  first : ∀ n, r.result = .ok n → start ≤ n.toNat ∧ n.toNat ≤ b.bytes.length ∧
    r.accepted b = (b.bytes.take n.toNat).drop start
  whole : (∀ c ∈ r.calls, c.Succeeded) → r.result = .ok b.length

theorem Sends.done (s : S) : Sends b b.bytes.length ⟨s, [], .ok b.length⟩ := by
  refine ⟨?_, ?_, ?_, fun _ => rfl⟩
  · intro c hc
    cases hc
  · intro c hc
    cases hc
  · intro n hn
    cases hn
    rw [b.length_toNat, List.take_length, List.drop_length]
    exact ⟨Nat.le_refl _, Nat.le_refl _, rfl⟩

theorem Sends.after {c : Call} {start : Nat} {r : Run S} (hr : Sends b (start + c.size.toNat) r)
    (hoffset : c.offset.toNat = start) (hinside : c.Inside b) (hsmall : c.size.toNat ≤ 65507)
    (hret : c.answer = .accepted c.size) : Sends b start (r.after c) := by
  refine ⟨?_, ?_, ?_, ?_⟩
  · exact List.forall_mem_cons.mpr ⟨hinside, hr.inside⟩
  · exact List.forall_mem_cons.mpr ⟨hsmall, hr.small⟩
  · intro n hn
    obtain ⟨hle, hlength, haccepted⟩ := hr.first n hn
    refine ⟨by omega, hlength, ?_⟩
    have hbytes : c.bytes b = ((b.bytes.take n.toNat).drop start).take c.size.toNat := by
      rw [Call.bytes, hret, hoffset, List.drop_take, List.take_take, Nat.min_eq_left (by omega)]
      rfl
    calc c.bytes b ++ r.accepted b
        = ((b.bytes.take n.toNat).drop start).take c.size.toNat ++
            ((b.bytes.take n.toNat).drop start).drop c.size.toNat := by
          rw [hbytes, haccepted, List.drop_drop]
      _ = (b.bytes.take n.toNat).drop start := List.take_append_drop ..
  · intro hsucceeded
    exact hr.whole (List.forall_mem_cons.mp hsucceeded).2

theorem Sends.stopped {c : Call} {s : S} {result : Except String UInt64} {start : Nat}
    (hinside : c.Inside b) (hsmall : c.size.toNat ≤ 65507) (hfailed : ¬c.Succeeded)
    (hret : c.answer.ret = 0) (hstart : start ≤ b.bytes.length)
    (hresult : ∀ n, result = .ok n → n.toNat = start) : Sends b start ⟨s, [c], result⟩ := by
  refine ⟨?_, ?_, ?_, ?_⟩
  · exact List.forall_mem_singleton.mpr hinside
  · exact List.forall_mem_singleton.mpr hsmall
  · intro n hn
    have hn := hresult n hn
    have hbytes : c.bytes b = [] := by
      rw [Call.bytes, hret]
      exact List.take_zero
    have hrest : (b.bytes.take start).drop start = [] :=
      List.drop_eq_nil_of_le (List.length_take_le ..)
    refine ⟨by omega, by omega, ?_⟩
    rw [hn, hrest]
    show c.bytes b ++ [] = []
    rw [hbytes, List.append_nil]
  · intro hsucceeded
    exact absurd (hsucceeded c (List.mem_singleton.mpr rfl)) hfailed

theorem writeLoop_sends (socket : DatagramSocket S) (fuel : Nat) (s : S) (i remaining written : UInt64)
    (h : At b i remaining written) (hfuel : b.bytes.length - i.toNat < fuel) :
    ∃ r, writeLoop (sendAnswer socket) recommendedWriteBufferSize b.length fuel s i remaining written =
      some r ∧ Sends b written.toNat r := by
  induction fuel generalizing s i remaining written with
  | zero => omega
  | succ fuel ih =>
    have hlength := b.length_toNat
    by_cases hi : i < b.length
    · have hnext := h.next hi
      obtain ⟨hwritten, hremaining, hbounded⟩ := h
      have hsize := datagramSize_toNat remaining
      have hsmall := b.small
      have hlt := hi
      rw [UInt64.lt_iff_toNat_lt, hlength] at hlt
      have hinside (answer : Answer) : Call.Inside b ⟨i, datagramSize remaining, answer⟩ := by
        show i.toNat + (datagramSize remaining).toNat ≤ b.bytes.length
        omega
      have hdatagram : (datagramSize remaining).toNat ≤ 65507 := by omega
      rcases hsend : socket.sendTo s i (datagramSize remaining) with ⟨s', ret, ec⟩
      cases ec with
      | none =>
        cases socket.whole hsend
        have hanswer : sendAnswer socket s i (datagramSize remaining) =
            (s', .accepted (datagramSize remaining)) := by
          rw [sendAnswer, hsend]
        have hstride := stride_toNat i (by omega)
        obtain ⟨r, hr, hsends⟩ := ih s' _ _ _ hnext (by omega)
        rw [sent_toNat written remaining (by omega)] at hsends
        let c : Call := ⟨i, datagramSize remaining, .accepted (datagramSize remaining)⟩
        have hoffset : c.offset.toNat = written.toNat := by
          show i.toNat = written.toNat
          omega
        refine ⟨r.after c, ?_, hsends.after hoffset (hinside _) hdatagram rfl⟩
        rw [writeLoop_accepted _ hi rfl hanswer, hr]
        rfl
      | some ec =>
        cases socket.fails hsend
        cases hcanceled : ec.operationCanceled with
        | true =>
          have hanswer : sendAnswer socket s i (datagramSize remaining) = (s', .canceled 0) := by
            rw [sendAnswer, hsend]
            simp only [hcanceled, if_true]
          refine ⟨_, writeLoop_canceled _ hi rfl hanswer,
            Sends.stopped (hinside _) hdatagram ?_ rfl (by omega) ?_⟩
          · rintro ⟨ret, hret⟩
            cases hret
          · intro n hn
            cases hn
            rw [UInt64.add_zero]
        | false =>
          have hanswer : sendAnswer socket s i (datagramSize remaining) = (s', .failed ec.message) := by
            rw [sendAnswer, hsend]
            simp only [hcanceled, Bool.false_eq_true, if_false]
          refine ⟨_, writeLoop_failed _ hi rfl hanswer,
            Sends.stopped (hinside _) hdatagram ?_ rfl (by omega) ?_⟩
          · rintro ⟨ret, hret⟩
            cases hret
          · intro n hn
            cases hn
    · obtain ⟨hwritten, hremaining, hbounded⟩ := h
      rw [UInt64.lt_iff_toNat_lt, hlength] at hi
      have heq : written = b.length := by
        rw [← UInt64.toNat_inj]
        omega
      subst heq
      refine ⟨_, writeLoop_done _ ?_, ?_⟩
      · rw [UInt64.lt_iff_toNat_lt]
        omega
      · rw [hlength]
        exact Sends.done s

end Loop

theorem deviceWrite_sends (socket : DatagramSocket S) (s : S) (b : ArrayBuffer) {fuel : Nat}
    (hfuel : b.bytes.length < fuel) :
    ∃ r, deviceWrite socket fuel s b = some r ∧ Sends b 0 r := by
  have hzero : (0 : UInt64).toNat = 0 := rfl
  exact writeLoop_sends socket fuel s 0 b.length 0 (start_at b) (by omega)

theorem Sends.carries {b : ArrayBuffer} {r : Run S} (h : Sends b 0 r) : r.Carries b := by
  refine ⟨h.inside, ?_⟩
  intro n hn
  obtain ⟨-, hlength, haccepted⟩ := h.first n hn
  rw [List.drop_zero] at haccepted
  exact ⟨hlength, haccepted⟩

end UdpSocket

namespace SocketWrite

theorem deviceWrite_exact {T : Type} (tcp : StreamSocket S) (udp : DatagramSocket T) (s : S) (t : T)
    (b : ArrayBuffer) :
    (∃ r, Returns (fun fuel => TcpSocket.deviceWrite tcp fuel s b) r ∧ r.Carries b) ∧
      ∃ r, Returns (fun fuel => UdpSocket.deviceWrite udp fuel t b) r ∧ r.Carries b ∧
        (∀ c ∈ r.calls, c.size.toNat ≤ 65507) ∧
        ((∀ c ∈ r.calls, c.Succeeded) → r.result = .ok b.length ∧ r.accepted b = b.bytes) := by
  obtain ⟨r, hr, hcarries⟩ := TcpSocket.deviceWrite_carries tcp s b (Nat.lt_succ_self b.bytes.length)
  obtain ⟨q, hq, hsends⟩ := UdpSocket.deviceWrite_sends udp t b (Nat.lt_succ_self b.bytes.length)
  refine ⟨⟨r, ⟨_, writeLoop_more hr⟩, hcarries⟩,
    q, ⟨_, writeLoop_more hq⟩, hsends.carries, hsends.small, ?_⟩
  intro hsucceeded
  have hwhole := hsends.whole hsucceeded
  refine ⟨hwhole, ?_⟩
  rw [(hsends.carries.first _ hwhole).2, b.length_toNat, List.take_length]

def threeBytes : ArrayBuffer := ⟨[0x61, 0x62, 0x63], by decide⟩

-- takes one byte of what is offered
def slowSocket : StreamSocket Unit where
  send s _ n := (s, .ok (if 0 < n then 1 else 0))
  accepts := by
    intro s i n s' ret h hn
    have hpos : 0 < n := UInt64.lt_iff_toNat_lt.mpr hn
    rw [if_pos hpos] at h
    cases h
    exact ⟨Nat.one_pos, hn⟩

def openSocket : DatagramSocket Unit where
  sendTo s _ n := (s, n, none)
  whole := by
    intro s i n s' ret h
    cases h
    rfl
  fails := by
    intro s i n s' ret ec h
    cases h

theorem deviceWrite_threeBytes :
    TcpSocket.deviceWrite slowSocket 4 () threeBytes = some ⟨(), [⟨0, 3, .accepted 1⟩], .ok 1⟩ ∧
      UdpSocket.deviceWrite openSocket 4 () threeBytes = some ⟨(), [⟨0, 3, .accepted 3⟩], .ok 3⟩ ∧
      (∃ r, Returns (fun fuel => TcpSocket.deviceWrite slowSocket fuel () threeBytes) r ∧
        r.Carries threeBytes) ∧
      ∃ r, Returns (fun fuel => UdpSocket.deviceWrite openSocket fuel () threeBytes) r ∧
        r.Carries threeBytes ∧ (∀ c ∈ r.calls, c.size.toNat ≤ 65507) ∧
        ((∀ c ∈ r.calls, c.Succeeded) → r.result = .ok threeBytes.length ∧
          r.accepted threeBytes = threeBytes.bytes) :=
  ⟨rfl, rfl, deviceWrite_exact slowSocket openSocket () () threeBytes⟩

end SocketWrite
end NexusRuntime
