import NexusRuntime.Transducer.Feed

namespace NexusRuntime.Filters.Encoding

open Transducer

inductive UErrorCode where
  | zeroError
  | bufferOverflow
  | failure (name : String)
deriving DecidableEq, Repr

structure Converted (C : Type) where
  converters : C
  pivot : List UInt16
  consumed : Nat
  written : List UInt8
  err : UErrorCode

-- ucnv_convertEx: converters, pivot, source, capacity of the target, reset, flush
abbrev ConvertEx (C : Type) : Type :=
  C → List UInt16 → List UInt8 → Nat → Bool → Bool → Converted C

abbrev Conversion : Type 1 := Machine UInt8 UInt8 String

structure Conforms {C : Type} (convertEx : ConvertEx C) (t : Conversion)
    (view : C → List UInt16 → t.State) : Prop where
  resets : ∀ c p d q source capacity flush,
    convertEx c p source capacity true flush = convertEx d q source capacity true flush
  fails : ∀ {c p source capacity reset flush e},
    (t.feed (if reset then t.fresh else view c p) source).out.length ≤ capacity →
    (t.feed (if reset then t.fresh else view c p) source).result = .error e →
    (convertEx c p source capacity reset flush).err = .failure e
  converts : ∀ {c p source capacity reset d},
    (t.feed (if reset then t.fresh else view c p) source).out.length ≤ capacity →
    (t.feed (if reset then t.fresh else view c p) source).result = .ok d →
    let r := convertEx c p source capacity reset false
    r.err = .zeroError ∧ r.consumed = source.length ∧
      r.written = (t.feed (if reset then t.fresh else view c p) source).out ∧
      view r.converters r.pivot = d
  finishes : ∀ {c p source capacity reset w},
    w.length ≤ capacity →
    t.convertFrom (if reset then t.fresh else view c p) source = .ok w →
    let r := convertEx c p source capacity reset true
    r.err = .zeroError ∧ r.consumed = source.length ∧ r.written = w

structure State (C : Type) where
  converters : C
  pivot : List UInt16
  myPayloadId : UInt64

def constructed {C : Type} (c : C) : State C := ⟨c, [], 0⟩

structure Answer where
  consumed : Nat
  written : List UInt8
  sizeNeeded : Nat
deriving DecidableEq, Repr

section Filter
variable {C : Type} (convertEx : ConvertEx C)

def processBuffer (s : State C) (buffer : Option (List UInt8)) (outLength : Nat) :
    State C × Except String Answer :=
  match buffer with
  | none => (⟨s.converters, [], 0⟩, .ok ⟨0, [], 0⟩)
  | some source =>
    let r := convertEx s.converters s.pivot source outLength (s.myPayloadId == 0) false
    match r.err with
    | .failure name =>
      (⟨r.converters, s.pivot, s.myPayloadId⟩, .error ("encoding conversion error: " ++ name))
    | .bufferOverflow =>
      (⟨r.converters, r.pivot, s.myPayloadId⟩, .ok ⟨r.consumed, r.written, outLength⟩)
    | .zeroError =>
      (⟨r.converters, r.pivot, s.myPayloadId + 1⟩, .ok ⟨r.consumed, r.written, 0⟩)

-- the chunks in order, then the null buffer, which also follows an error
def payload (s : State C) : List (List UInt8 × Nat) → State C × Except String (List UInt8)
  | [] => ((processBuffer convertEx s none 0).1, .ok [])
  | (chunk, space) :: rest =>
    match processBuffer convertEx s (some chunk) space with
    | (s', .error e) => ((processBuffer convertEx s' none 0).1, .error e)
    | (s', .ok a) => ((payload s' rest).1, (payload s' rest).2.map (a.written ++ ·))

def answers (s : State C) : List (Option (List UInt8) × Nat) → List (Except String Answer)
  | [] => []
  | (buffer, space) :: rest =>
    (processBuffer convertEx s buffer space).2 ::
      answers (processBuffer convertEx s buffer space).1 rest

end Filter

def Fits (t : Conversion) : t.State → List (List UInt8 × Nat) → Prop
  | _, [] => True
  | c, (chunk, space) :: rest =>
    (t.feed c chunk).out.length ≤ space ∧
      ∀ d, (t.feed c chunk).result = .ok d → Fits t d rest

def oneConversion (t : Conversion) (input : List UInt8) : Except String (List UInt8) :=
  (t.convert input).mapError ("encoding conversion error: " ++ ·)

def NothingPending (t : Conversion) (input : List UInt8) : Prop :=
  ∀ c, (t.feed t.fresh input).result = .ok c → t.Settled c

section Payload
variable {C : Type} {convertEx : ConvertEx C} {t : Conversion} {view : C → List UInt16 → t.State}

def start (t : Conversion) (view : C → List UInt16 → t.State) (s : State C) : t.State :=
  if s.myPayloadId == 0 then t.fresh else view s.converters s.pivot

theorem answers_of_start (hicu : Conforms convertEx t view) {s u : State C}
    (hs : s.myPayloadId = 0) (hu : u.myPayloadId = 0) (calls : List (Option (List UInt8) × Nat)) :
    answers convertEx s calls = answers convertEx u calls := by
  induction calls generalizing s u with
  | nil => rfl
  | cons call calls ih =>
    obtain ⟨buffer, space⟩ := call
    cases buffer with
    | none => exact congrArg (_ :: ·) (ih rfl rfl)
    | some source =>
      have hreset := hicu.resets s.converters s.pivot u.converters u.pivot source space false
      cases herr : (convertEx u.converters u.pivot source space true false).err with
      | zeroError => simp [answers, processBuffer, hs, hu, hreset, herr]
      | bufferOverflow => simp [answers, processBuffer, hs, hu, hreset, herr]
      | failure name =>
        simp only [answers, processBuffer, hs, hu, beq_self_eq_true, hreset, herr, List.cons.injEq,
          true_and]
        exact ih rfl rfl

theorem payload_restarts (s : State C) (chunks : List (List UInt8 × Nat)) :
    (payload convertEx s chunks).1.myPayloadId = 0 := by
  induction chunks generalizing s with
  | nil => rfl
  | cons chunk rest ih =>
    rw [payload]
    split
    · rfl
    · exact ih _

theorem processBuffer_error (hicu : Conforms convertEx t view) {s : State C}
    {chunk : List UInt8} {space : Nat} {e : String}
    (hspace : (t.feed (start t view s) chunk).out.length ≤ space)
    (h : (t.feed (start t view s) chunk).result = .error e) :
    (processBuffer convertEx s (some chunk) space).2 =
      .error ("encoding conversion error: " ++ e) := by
  simp [processBuffer, hicu.fails hspace h]

theorem processBuffer_ok (hicu : Conforms convertEx t view) {s : State C} {chunk : List UInt8}
    {space : Nat} {d : t.State} (hspace : (t.feed (start t view s) chunk).out.length ≤ space)
    (h : (t.feed (start t view s) chunk).result = .ok d) :
    ∃ s', processBuffer convertEx s (some chunk) space =
        (s', .ok ⟨chunk.length, (t.feed (start t view s) chunk).out, 0⟩) ∧
      s'.myPayloadId = s.myPayloadId + 1 ∧ view s'.converters s'.pivot = d := by
  obtain ⟨herr, hconsumed, hwritten, hview⟩ := hicu.converts hspace h
  refine ⟨⟨_, _, s.myPayloadId + 1⟩, ?_, rfl, hview⟩
  simp only [processBuffer, herr, hconsumed, hwritten]
  rfl

theorem payload_eq (hicu : Conforms convertEx t view) {s : State C}
    {chunks : List (List UInt8 × Nat)}
    (hcount : s.myPayloadId.toNat + chunks.length ≤ UInt64.size)
    (hfits : Fits t (start t view s) chunks) :
    (payload convertEx s chunks).2 =
      match (t.feedChunks (start t view s) (chunks.map (·.1))).result with
      | .error e => .error ("encoding conversion error: " ++ e)
      | .ok _ => .ok (t.feedChunks (start t view s) (chunks.map (·.1))).out := by
  induction chunks generalizing s with
  | nil => rfl
  | cons chunk rest ih =>
    obtain ⟨chunk, space⟩ := chunk
    cases hr : (t.feed (start t view s) chunk).result with
    | error e =>
      have hcall := processBuffer_error hicu hfits.1 hr
      simp only [payload, List.map_cons, Machine.feedChunks, hr]
      split
      · next h => simpa [h] using hcall
      · next h => simp [h] at hcall
    | ok d =>
      obtain ⟨s', hcall, hid, hview⟩ := processBuffer_ok hicu hfits.1 hr
      simp only [payload, hcall, List.map_cons, Machine.feedChunks, hr]
      cases rest with
      | nil => simp [payload, Machine.feedChunks, Except.map]
      | cons next rest =>
        have hnat : s'.myPayloadId.toNat = s.myPayloadId.toNat + 1 := by
          rw [hid, UInt64.toNat_add, UInt64.toNat_one, Nat.mod_eq_of_lt]
          simp only [List.length_cons] at hcount
          have : UInt64.size = 2 ^ 64 := rfl
          omega
        have hne : s'.myPayloadId ≠ 0 := by
          intro h
          rw [h] at hnat
          simp at hnat
        have hstart : start t view s' = d := by
          simp [start, hne, hview]
        have hrest := ih (s := s') (by simp only [List.length_cons] at hcount ⊢; omega)
          (hstart.symm ▸ hfits.2 d hr)
        rw [hrest, hstart]
        cases (t.feedChunks d (List.map (·.1) (next :: rest))).result <;> rfl

theorem converts_iff (hicu : Conforms convertEx t view) (s : State C) (c : C)
    (hs : s.myPayloadId = 0) (chunks : List (List UInt8 × Nat))
    (hcount : chunks.length ≤ UInt64.size) (hfits : Fits t t.fresh chunks) :
    ((payload convertEx s chunks).2 = oneConversion t (chunks.flatMap (·.1)) ∧
        ∀ calls, answers convertEx (payload convertEx s chunks).1 calls =
          answers convertEx (constructed c) calls) ↔
      NothingPending t (chunks.flatMap (·.1)) := by
  have hstart : start t view s = t.fresh := by simp [start, hs]
  have hflat : (chunks.map (·.1)).flatten = chunks.flatMap (·.1) := List.flatMap_def.symm
  have hpayload := payload_eq hicu (s := s) (by simpa [hs] using hcount) (hstart.symm ▸ hfits)
  have hagain : ∀ calls, answers convertEx (payload convertEx s chunks).1 calls =
      answers convertEx (constructed c) calls :=
    fun calls => answers_of_start hicu (payload_restarts s chunks) rfl calls
  have hresult := t.feedChunks_result t.fresh (chunks.map (·.1))
  rw [hstart] at hpayload
  rw [hflat] at hresult
  rw [and_iff_left hagain, hpayload, oneConversion, NothingPending]
  cases hr : (t.feed t.fresh (chunks.flatMap (·.1))).result with
  | error e =>
    rw [hr] at hresult
    simp [hresult, Machine.convert, Machine.convertFrom, hr, Except.mapError]
  | ok d =>
    rw [hr] at hresult
    have hout := t.feedChunks_out hresult
    rw [hflat] at hout
    have hiff := t.out_eq_convert_iff hr
    simp only [hresult, hout, Except.ok.injEq, forall_eq', ← hiff, Machine.convert]
    cases t.convertFrom t.fresh (chunks.flatMap (·.1)) with
    | error e => simp [Except.mapError]
    | ok w => simp [Except.mapError, eq_comm]

end Payload

section Reference
variable (t : Conversion)

def reference : ConvertEx t.State := fun c _ source capacity reset flush =>
  let start := if reset then t.fresh else c
  let fed := t.feed start source
  let overflow : Converted t.State := ⟨start, [], 0, [], .bufferOverflow⟩
  match fed.result with
  | .error e =>
    if fed.out.length ≤ capacity then ⟨start, [], 0, fed.out, .failure e⟩ else overflow
  | .ok d =>
    if flush then
      match t.finish d with
      | .error e => ⟨d, [], source.length, fed.out, .failure e⟩
      | .ok w =>
        if (fed.out ++ w).length ≤ capacity then
          ⟨t.fresh, [], source.length, fed.out ++ w, .zeroError⟩
        else overflow
    else if fed.out.length ≤ capacity then ⟨d, [], source.length, fed.out, .zeroError⟩
    else overflow

theorem reference_conforms : Conforms (reference t) t (fun c _ => c) where
  resets := by
    intro c p d q source capacity flush
    rfl
  fails := by
    intro c p source capacity reset flush e hspace h
    simp [reference, h, hspace]
  converts := by
    intro c p source capacity reset d hspace h
    simp [reference, h, hspace]
  finishes := by
    intro c p source capacity reset w hspace h
    unfold Machine.convertFrom at h
    cases hr : (t.feed (if reset then t.fresh else c) source).result with
    | error e => simp [hr] at h
    | ok d =>
      cases hd : t.finish d with
      | error e => simp [hr, hd, Except.map] at h
      | ok v =>
        simp only [hr, hd, Except.map, Except.ok.injEq] at h
        subst h
        rw [List.length_append] at hspace
        simp [reference, hr, hd, hspace]

end Reference

-- UTF-16BE to UTF-16LE outside the surrogates; an odd byte at the end becomes U+FFFD
def swap : Conversion where
  State := Option UInt8
  fresh := none
  read pending byte :=
    match pending with
    | none => .ok (some byte, [])
    | some high => .ok (none, [byte, high])
  finish pending := .ok (if pending.isSome then [0xFD, 0xFF] else [])

theorem converts_split_character :
    (payload (reference swap) (constructed none) [([0x20], 0), ([0xAC, 0x00], 2), ([0x41], 2)]).2 =
        oneConversion swap [0x20, 0xAC, 0x00, 0x41] ∧
      ∀ calls, answers (reference swap) (payload (reference swap) (constructed none)
          [([0x20], 0), ([0xAC, 0x00], 2), ([0x41], 2)]).1 calls =
        answers (reference swap) (constructed none) calls :=
  (converts_iff (reference_conforms swap) (constructed none) none rfl
    [([0x20], 0), ([0xAC, 0x00], 2), ([0x41], 2)] (by decide)
    (by simp [Fits, Machine.feed, swap])).mpr
    (by simp [NothingPending, Machine.feed, Machine.Settled, swap])

theorem pending_byte_discarded :
    Fits swap swap.fresh [([0x00, 0x41, 0x00], 8)] ∧
    (payload (reference swap) (constructed none) [([0x00, 0x41, 0x00], 8)]).2 = .ok [0x41, 0x00] ∧
    oneConversion swap [0x00, 0x41, 0x00] = .ok [0x41, 0x00, 0xFD, 0xFF] ∧
    ¬ ((payload (reference swap) (constructed none) [([0x00, 0x41, 0x00], 8)]).2 =
        oneConversion swap [0x00, 0x41, 0x00] ∧
      ∀ calls, answers (reference swap) (payload (reference swap) (constructed none)
          [([0x00, 0x41, 0x00], 8)]).1 calls =
        answers (reference swap) (constructed none) calls) := by
  have hpayload : (payload (reference swap) (constructed none) [([0x00, 0x41, 0x00], 8)]).2 =
      .ok [0x41, 0x00] := rfl
  have hone : oneConversion swap [0x00, 0x41, 0x00] = .ok [0x41, 0x00, 0xFD, 0xFF] := rfl
  refine ⟨by simp [Fits, Machine.feed, swap], hpayload, hone, ?_⟩
  intro h
  have := h.1
  rw [hpayload, hone] at this
  simp at this

end NexusRuntime.Filters.Encoding
