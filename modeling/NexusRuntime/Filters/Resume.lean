import NexusRuntime.Filters.Encoding
import NexusRuntime.Transducer.Bounded

namespace NexusRuntime.Filters.Encoding

open Transducer

structure Resumes {C : Type} (convertEx : ConvertEx C) (t : Conversion)
    (view : C → List UInt16 → t.Holding) : Prop where
  call : ∀ c p source capacity reset,
    let h := if reset then t.clean else view c p
    let r := convertEx c p source capacity reset false
    match r.err with
    | .failure e => (t.feed h.state source).result = .error e
    | .bufferOverflow =>
      t.Writes h source capacity r.consumed r.written (view r.converters r.pivot) true
    | .zeroError =>
      t.Writes h source capacity r.consumed r.written (view r.converters r.pivot) false

inductive Outcome (C : Type) where
  | returned (out rest : List UInt8) (state : State C)
  | threw (error : String)
  | unfinished (out rest : List UInt8) (state : State C)

def Outcome.after {C : Type} (written : List UInt8) : Outcome C → Outcome C
  | .returned out rest s => .returned (written ++ out) rest s
  | .threw e => .threw e
  | .unfinished out rest s => .unfinished (written ++ out) rest s

section Drain
variable {C : Type} (convertEx : ConvertEx C)

-- successive calls for one payload, each with its own capacity, until one returns 0
def drain (s : State C) (source : List UInt8) : List Nat → Outcome C
  | [] => .unfinished [] source s
  | capacity :: rest =>
    match processBuffer convertEx s (some source) capacity with
    | (_, .error e) => .threw e
    | (s', .ok a) =>
      if a.sizeNeeded = 0 then .returned a.written (source.drop a.consumed) s'
      else (drain s' (source.drop a.consumed) rest).after a.written

variable {t : Conversion} (view : C → List UInt16 → t.Holding)

def State.holding (s : State C) : t.Holding := view s.converters s.pivot

-- what a call starts from: a reset discards what is held
def begins (s : State C) : t.Holding := if s.myPayloadId = 0 then t.clean else s.holding view

-- the states in which an overflow leaves the filter, as the next call finds them
def BetweenCalls (P : State C → Prop) : State C → List UInt8 → List Nat → Prop
  | _, _, [] => True
  | s, source, capacity :: rest =>
    match processBuffer convertEx s (some source) capacity with
    | (_, .error _) => True
    | (s', .ok a) =>
      a.sizeNeeded ≠ 0 → P s' ∧ BetweenCalls P s' (source.drop a.consumed) rest

def HoldsNothing (s : State C) : Prop := s.holding view = t.clean

def KeepsHeld (s : State C) : Prop := begins view s = s.holding view

structure SameAsOneCall (s : State C) (source : List UInt8) (capacities : List Nat) : Prop where
  output : ∃ out s', drain convertEx s source capacities = .returned out [] s' ∧
    ∀ large, (t.outputs (begins view s) source).length < large →
      ∃ u, drain convertEx s source [large] = .returned out [] u ∧ u.holding view = s'.holding view
  keeps : BetweenCalls convertEx (KeepsHeld view) s source capacities

inductive Called (s : State C) (source : List UInt8) (capacity : Nat) :
    State C × Except String Answer → Prop where
  | failed (s' : State C) (e message : String)
      (h : (t.feed (begins view s).state source).result = .error e) :
      Called s source capacity (s', .error message)
  | overflowed (s' : State C) (consumed : Nat) (written : List UInt8)
      (h : t.Writes (begins view s) source capacity consumed written (s'.holding view) true)
      (hid : s'.myPayloadId = s.myPayloadId) :
      Called s source capacity (s', .ok ⟨consumed, written, capacity⟩)
  | finished (s' : State C) (consumed : Nat) (written : List UInt8)
      (h : t.Writes (begins view s) source capacity consumed written (s'.holding view) false) :
      Called s source capacity (s', .ok ⟨consumed, written, 0⟩)

end Drain

section Resumption
variable {C : Type} {convertEx : ConvertEx C} {t : Conversion} {view : C → List UInt16 → t.Holding}
variable {s : State C} {source : List UInt8} {capacities : List Nat}

theorem processBuffer_called (hicu : Resumes convertEx t view) (s : State C) (source : List UInt8)
    (capacity : Nat) :
    Called view s source capacity (processBuffer convertEx s (some source) capacity) := by
  have hbegins : (if (s.myPayloadId == 0) = true then t.clean else view s.converters s.pivot) =
      begins view s := by
    simp only [begins, beq_iff_eq]
    rfl
  have hcall := hicu.call s.converters s.pivot source capacity (s.myPayloadId == 0)
  simp only [hbegins] at hcall
  simp only [processBuffer]
  generalize convertEx s.converters s.pivot source capacity (s.myPayloadId == 0) false = r at hcall
  cases herr : r.err with
  | zeroError =>
    rw [herr] at hcall
    exact .finished _ _ _ hcall
  | bufferOverflow =>
    rw [herr] at hcall
    exact .overflowed _ _ _ hcall rfl
  | failure e =>
    rw [herr] at hcall
    exact .failed _ e _ hcall

theorem drain_one (hicu : Resumes convertEx t view) {d : t.State}
    (hok : (t.feed (begins view s).state source).result = .ok d) {large : Nat}
    (hlarge : (t.outputs (begins view s) source).length < large) :
    ∃ u, drain convertEx s source [large] = .returned (t.outputs (begins view s) source) [] u ∧
      u.holding view = ⟨d, []⟩ := by
  have hcalled := processBuffer_called hicu s source large
  rw [drain]
  generalize processBuffer convertEx s (some source) large = r at hcalled
  cases hcalled with
  | failed s' e message h =>
    rw [hok] at h
    cases h
  | overflowed s' consumed written h hid =>
    have hroom := h.room
    omega
  | finished s' consumed written h =>
    obtain ⟨hrest, hwritten, hstate, hnil⟩ := h.done
    rw [hok, Except.ok.injEq] at hstate
    refine ⟨s', ?_, ?_⟩
    · simp only [if_true, hrest, hwritten]
    · rw [hstate, ← hnil]

theorem drain_returns (hicu : Resumes convertEx t view) {d : t.State}
    (hok : (t.feed (begins view s).state source).result = .ok d)
    (hcapacities : ∀ n ∈ capacities, 1 ≤ n)
    (hlong : (t.outputs (begins view s) source).length < capacities.length)
    (hkeeps : BetweenCalls convertEx (KeepsHeld view) s source capacities) :
    ∃ u, drain convertEx s source capacities = .returned (t.outputs (begins view s) source) [] u ∧
      u.holding view = ⟨d, []⟩ := by
  induction capacities generalizing s source with
  | nil => simp at hlong
  | cons capacity rest ih =>
    have hpos := hcapacities capacity (List.mem_cons_self ..)
    have hcalled := processBuffer_called hicu s source capacity
    rw [drain]
    rw [BetweenCalls] at hkeeps
    generalize processBuffer convertEx s (some source) capacity = r at hcalled hkeeps
    cases hcalled with
    | failed s' e message h =>
      rw [hok] at h
      cases h
    | finished s' consumed written h =>
      obtain ⟨hrest, hwritten, hstate, hnil⟩ := h.done
      rw [hok, Except.ok.injEq] at hstate
      refine ⟨s', ?_, ?_⟩
      · simp only [if_true, hrest, hwritten]
      · rw [hstate, ← hnil]
    | overflowed s' consumed written h hid =>
      have hne : capacity ≠ 0 := by omega
      obtain ⟨hkept, hkeeps⟩ := hkeeps hne
      rw [KeepsHeld] at hkept
      have hroom := h.room
      have hresult := h.result_eq
      have houtputs := h.outputs_eq
      rw [← hkept] at hroom hresult houtputs
      rw [List.length_cons] at hlong
      obtain ⟨u, hu, hheld⟩ := ih (hresult.trans hok)
        (fun n hn => hcapacities n (List.mem_cons_of_mem capacity hn)) (by omega) hkeeps
      refine ⟨u, ?_, hheld⟩
      simp only [if_neg hne, hu, Outcome.after, houtputs]

theorem between_iff (hicu : Resumes convertEx t view) (hcapacities : ∀ n ∈ capacities, 1 ≤ n)
    (hid : s.myPayloadId = 0) :
    BetweenCalls convertEx (KeepsHeld view) s source capacities ↔
      BetweenCalls convertEx (HoldsNothing view) s source capacities := by
  induction capacities generalizing s source with
  | nil => exact Iff.rfl
  | cons capacity rest ih =>
    have hcalled := processBuffer_called hicu s source capacity
    simp only [BetweenCalls]
    generalize processBuffer convertEx s (some source) capacity = r at hcalled
    cases hcalled with
    | failed s' e message h => exact Iff.rfl
    | finished s' consumed written h => simp
    | overflowed s' consumed written h hid' =>
      have hzero : s'.myPayloadId = 0 := hid'.trans hid
      have hkeeps : KeepsHeld view s' ↔ HoldsNothing view s' := by
        rw [KeepsHeld, HoldsNothing, begins, if_pos hzero, eq_comm]
      have hrest : BetweenCalls convertEx (KeepsHeld view) s' (source.drop consumed) rest ↔
          BetweenCalls convertEx (HoldsNothing view) s' (source.drop consumed) rest :=
        ih (fun n hn => hcapacities n (List.mem_cons_of_mem capacity hn)) hzero
      simp only [hkeeps, hrest]

theorem keeps_of_later (hicu : Resumes convertEx t view) (hid : s.myPayloadId ≠ 0) :
    BetweenCalls convertEx (KeepsHeld view) s source capacities := by
  induction capacities generalizing s source with
  | nil => trivial
  | cons capacity rest ih =>
    have hcalled := processBuffer_called hicu s source capacity
    rw [BetweenCalls]
    generalize processBuffer convertEx s (some source) capacity = r at hcalled
    cases hcalled with
    | failed s' e message h => trivial
    | finished s' consumed written h => simp
    | overflowed s' consumed written h hid' =>
      intro _
      have hne : s'.myPayloadId ≠ 0 := hid' ▸ hid
      exact ⟨by rw [KeepsHeld, begins, if_neg hne], ih hne⟩

-- an output that the first capacity has room for is never interrupted
theorem between_of_room (hicu : Resumes convertEx t view) (P : State C → Prop) {capacity : Nat}
    (hroom : (t.outputs (begins view s) source).length < capacity) :
    BetweenCalls convertEx P s source (capacity :: capacities) := by
  have hcalled := processBuffer_called hicu s source capacity
  rw [BetweenCalls]
  generalize processBuffer convertEx s (some source) capacity = r at hcalled
  cases hcalled with
  | failed s' e message h => trivial
  | finished s' consumed written h => simp
  | overflowed s' consumed written h hid =>
    have := h.room
    omega

theorem same_iff_nothing_held (hicu : Resumes convertEx t view) (s : State C) (source : List UInt8)
    (capacities : List Nat) (hcapacities : ∀ n ∈ capacities, 1 ≤ n)
    (hlong : (t.outputs (begins view s) source).length < capacities.length) {d : t.State}
    (hok : (t.feed (begins view s).state source).result = .ok d) :
    SameAsOneCall convertEx view s source capacities ↔
      s.myPayloadId ≠ 0 ∨ BetweenCalls convertEx (HoldsNothing view) s source capacities := by
  constructor
  · intro h
    by_cases hid : s.myPayloadId = 0
    · exact .inr ((between_iff hicu hcapacities hid).mp h.keeps)
    · exact .inl hid
  · intro h
    have hkeeps : BetweenCalls convertEx (KeepsHeld view) s source capacities := by
      rcases h with hid | hnothing
      · exact keeps_of_later hicu hid
      · by_cases hid : s.myPayloadId = 0
        · exact (between_iff hicu hcapacities hid).mpr hnothing
        · exact keeps_of_later hicu hid
    obtain ⟨u, hu, hheld⟩ := drain_returns hicu hok hcapacities hlong hkeeps
    refine ⟨⟨_, u, hu, ?_⟩, hkeeps⟩
    intro large hlarge
    obtain ⟨w, hw, hheldw⟩ := drain_one hicu hok hlarge
    exact ⟨w, hw, hheldw.trans hheld.symm⟩

end Resumption

-- reads all its input into the pivot and holds what the target has no room for
def buffered (t : Conversion) : ConvertEx t.Holding := fun c _ source capacity reset _ =>
  let h := if reset then t.clean else c
  match (t.feed h.state source).result with
  | .error e => ⟨h, [], 0, [], .failure e⟩
  | .ok d =>
    if (t.outputs h source).length ≤ capacity then
      ⟨⟨d, []⟩, [], source.length, t.outputs h source, .zeroError⟩
    else
      ⟨⟨d, (t.outputs h source).drop capacity⟩, [], source.length, (t.outputs h source).take capacity,
        .bufferOverflow⟩

theorem buffered_resumes (t : Conversion) : Resumes (buffered t) t (fun c _ => c) where
  call := by
    intro c p source capacity reset
    simp only [buffered]
    generalize (if reset then t.clean else c) = h
    have htake : source.take source.length = source := List.take_length
    cases hresult : (t.feed h.state source).result with
    | error e => simp only
    | ok d =>
      by_cases hroom : (t.outputs h source).length ≤ capacity
      · simp only [if_pos hroom]
        exact ⟨Nat.le_refl _, by rw [htake, hresult], by rw [htake, List.append_nil]; rfl, by simp,
          fun _ => ⟨rfl, rfl⟩⟩
      · simp only [if_neg hroom]
        exact ⟨Nat.le_refl _, by rw [htake, hresult], by rw [htake, List.take_append_drop]; rfl,
          fun _ => List.length_take_of_le (by omega), by simp⟩

theorem later_payload_resumed :
    SameAsOneCall (buffered swap) (fun c _ => c) ⟨swap.clean, [], 1⟩ [0x00, 0x41, 0x00, 0x42]
      [1, 1, 1, 1, 1] :=
  (same_iff_nothing_held (buffered_resumes swap) ⟨swap.clean, [], 1⟩ [0x00, 0x41, 0x00, 0x42]
    [1, 1, 1, 1, 1] (by decide) (by decide) rfl).mpr (.inl (by decide))

theorem first_payload_cut :
    drain (buffered swap) (constructed swap.clean) [0x00, 0x41, 0x00, 0x42] [2, 2] =
        .returned [0x41, 0x00] [] ⟨⟨none, []⟩, [], 1⟩ ∧
      drain (buffered swap) (constructed swap.clean) [0x00, 0x41, 0x00, 0x42] [5] =
        .returned [0x41, 0x00, 0x42, 0x00] [] ⟨⟨none, []⟩, [], 1⟩ ∧
      ¬ SameAsOneCall (buffered swap) (fun c _ => c) (constructed swap.clean) [0x00, 0x41, 0x00, 0x42]
        [2, 2] := by
  have hcut : drain (buffered swap) (constructed swap.clean) [0x00, 0x41, 0x00, 0x42] [2, 2] =
      .returned [0x41, 0x00] [] ⟨⟨none, []⟩, [], 1⟩ := rfl
  have hone : drain (buffered swap) (constructed swap.clean) [0x00, 0x41, 0x00, 0x42] [5] =
      .returned [0x41, 0x00, 0x42, 0x00] [] ⟨⟨none, []⟩, [], 1⟩ := rfl
  refine ⟨hcut, hone, ?_⟩
  rintro ⟨⟨out, s', hout, hlarge⟩, -⟩
  rw [hcut] at hout
  obtain ⟨u, hu, -⟩ := hlarge 5 (by decide)
  rw [hone, ← (Outcome.returned.inj hout).1] at hu
  exact absurd (Outcome.returned.inj hu).1 (by decide)

end NexusRuntime.Filters.Encoding
