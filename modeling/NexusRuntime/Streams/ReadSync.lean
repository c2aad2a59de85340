import NexusRuntime.Devices.FilePull
import NexusRuntime.Filters.Encoding
import NexusRuntime.Filters.Filter
import NexusRuntime.Filters.Utf8Sync

namespace NexusRuntime.Streams.Sync

open Filters
open Filters.Utf8String (JSValue)

variable {C : Type}

inductive Failure where
  | error (message : String)
  -- f.processSync is not a function
  | notAFunction
deriving DecidableEq, Repr

inductive FilterObject (C : Type) where
  | encodingConversion (s : Encoding.State C)
  | utf8String

structure PullStream (C : Type) where
  device : FilePullDevice
  filters : List (FilterObject C)

-- the library and the memory a read meets: what ucnv_convertEx does, what the bytes of a block
-- read as, and what lies behind the buffer that holds these bytes
structure Environment (C : Type) where
  convertEx : Encoding.ConvertEx C
  contents : Memory.Block UInt8 → List UInt8
  memory : List UInt8 → Utf8String.Memory
  null_empty : ∀ bytes, (memory bytes).null = true → bytes = []

-- how an operation that settles, or returns, left the stream; `none`: it does neither
abbrev Outcome (S : Type) : Type := Option (S × Except Failure JSValue)

section Process
variable (env : Environment C)

def handler : Nat → Encoding.State C → Filters.Args → Option (Encoding.State C × Except String (List UInt8))
  | 0, _, _ => none
  | fuel + 1, s, a =>
    match Encoding.processBuffer env.convertEx s a.inBuffer a.outRemaining with
    | (s, .error e) => some (s, .error e)
    | (s, .ok r) =>
      match Filters.settle a ⟨s, r.consumed, r.written, r.sizeNeeded⟩ with
      | .pending b => handler fuel s b
      | .resolved arrayBuffer => some (s, .ok (env.contents arrayBuffer))
      | .rejected e => some (s, .error e)

-- a typed array is taken to be a view of all of its buffer: no read makes another
def inBuffer : JSValue → Except String (Option (List UInt8))
  | .null => .ok none
  | .arrayBuffer bytes => .ok (some bytes)
  | .typedArray underlying => .ok (some underlying)
  | .object => .error "argument must be TypedArray or ArrayBuffer"
  | .string _ | .primitive => .error "bad value for buffer argument"

def convert (fuel : Nat) (s : Encoding.State C) (v : JSValue) : Outcome (Encoding.State C) :=
  match inBuffer v with
  | .error e => some (s, .error (.error e))
  | .ok buffer =>
    let n := Filters.length buffer
    (handler env fuel s ⟨buffer, Memory.Block.alloc n, n, 0, n⟩).map fun r =>
      (r.1, (r.2.map JSValue.arrayBuffer).mapError .error)

namespace FilterObject

def process (fuel : Nat) : FilterObject C → JSValue → Outcome (FilterObject C)
  | .encodingConversion s, v => (convert env fuel s v).map fun r => (.encodingConversion r.1, r.2)
  | .utf8String, v => some (.utf8String, (Utf8String.process [v]).mapError .error)

def behind : JSValue → Utf8String.Memory
  | .arrayBuffer bytes => env.memory bytes
  | .typedArray underlying => env.memory underlying
  | _ => ⟨true, []⟩

def processSync : FilterObject C → JSValue → Outcome (FilterObject C)
  | .encodingConversion s, _ => some (.encodingConversion s, .error .notAFunction)
  | .utf8String, v =>
    match Utf8String.processSync (behind env v) [v] with
    | .error e => some (.utf8String, .error (.error e))
    | .ok r => r.map fun r => (.utf8String, .ok r)

end FilterObject

-- reduce((prev, next) => prev.then(next), ..) and forEach(f => data = ..) alike
def through (call : FilterObject C → JSValue → Outcome (FilterObject C)) :
    List (FilterObject C) → JSValue → Outcome (List (FilterObject C))
  | [], v => some ([], .ok v)
  | f :: filters, v =>
    match call f v with
    | none => none
    | some (f, .error e) => some (f :: filters, .error e)
    | some (f, .ok v) => (through call filters v).map fun r => (f :: r.1, r.2)

namespace PullStream

def deliver (s : PullStream C) (call : FilterObject C → JSValue → Outcome (FilterObject C)) :
    FilePullDevice × Except String (List UInt8) → Outcome (PullStream C)
  | (d, .error e) => some (⟨d, s.filters⟩, .error (.error e))
  | (d, .ok bytes) => (through call s.filters (.arrayBuffer bytes)).map fun r => (⟨d, r.1⟩, r.2)

def read (fuel : Nat) (s : PullStream C) (length : Nat) : Outcome (PullStream C) :=
  s.deliver (FilterObject.process env fuel) (s.device.read length)

def readSync (s : PullStream C) (length : Nat) : Outcome (PullStream C) :=
  s.deliver (FilterObject.processSync env) (s.device.readSync length)

def Same (s : PullStream C) (length : Nat) : Prop :=
  ∃ fuel r, s.read env fuel length = some r ∧ s.readSync env length = some r

end PullStream

-- reading on behind the buffer for a terminator finds the string that is in the buffer
def Terminated (bytes : List UInt8) : Prop :=
  let m := env.memory bytes
  m.null = true ∨ 0 ∈ bytes ∨ 0 ∈ m.following ∧ (Utf8String.cString m.following = [] ∨
    (bytes = [] ∨ Utf8String.Malformed bytes) ∧
      Utf8String.Malformed (bytes ++ Utf8String.cString m.following))

def FindsZero (bytes : List UInt8) : Prop :=
  let m := env.memory bytes
  m.null = true ∨ 0 ∈ bytes ++ m.following

-- the filters pass a string on to one that converts bytes, and those that converted on the way are
-- in the state that they were in before
def StringArrives : List (FilterObject C) → JSValue → Prop
  | [], _ => False
  | .utf8String :: filters, v => ∃ w, Utf8String.process [v] = .ok w ∧ StringArrives filters w
  | .encodingConversion s :: filters, v => inBuffer v = .error "bad value for buffer argument" ∨
    ∃ fuel w, convert env fuel s v = some (s, .ok w) ∧ StringArrives filters w

def Passes (filters : List (FilterObject C)) (bytes : List UInt8) : Prop :=
  filters = [] ∨ filters = [.utf8String] ∧ Terminated env bytes ∨
    (∃ rest, filters = .utf8String :: .utf8String :: rest) ∧ FindsZero env bytes ∧
      StringArrives env filters (.arrayBuffer bytes)

def PullStream.Agreeing (s : PullStream C) (length : Nat) : Prop :=
  if s.device.deviceReady then
    0 < length ∧ Passes env s.filters (s.device.myStream.rest.take length)
  else 0 < length ∨ s.device.myStream.eofbit = false ∧ s.device.myError = some .invalidSeek

section Decoding
open Utf8String

theorem decodeUtf8_append_iff (b w : List UInt8) :
    decodeUtf8 (b ++ w) = decodeUtf8 b ↔
      w = [] ∨ (b = [] ∨ Malformed b) ∧ Malformed (b ++ w) := by
  by_cases hw : w = []
  · subst hw
    simp
  have hne : b ++ w ≠ [] := by simp [hw]
  rcases malformed_or_utf8 b with hb | ⟨s, rfl⟩
  · rw [decodeUtf8_malformed hb, decodeUtf8_eq_nil]
    simp only [hne, hw, hb, false_or, or_true, true_and]
  · rw [decodeUtf8_utf8]
    rcases malformed_or_utf8 (utf8 s ++ w) with hall | ⟨t, ht⟩
    · have hs := decodeUtf8_eq_nil (utf8 s)
      rw [decodeUtf8_utf8] at hs
      rw [decodeUtf8_malformed hall, eq_comm, hs]
      simp only [hw, hall, false_or, and_true]
    · rw [ht, decodeUtf8_utf8]
      constructor
      · rintro rfl
        exact absurd (List.append_right_eq_self.mp ht) hw
      · rintro (h | ⟨-, h⟩)
        · exact absurd h hw
        · rw [malformed_iff, utf8Decode_utf8] at h
          cases h

theorem string_isSome (bytes : List UInt8) :
    ((env.memory bytes).string bytes).isSome = true ↔ FindsZero env bytes := by
  rw [Utf8String.Memory.string, FindsZero]
  split
  · next h => simp [h]
  · next h =>
    split
    · next hz => simp only [Option.isSome_some, hz, or_true]
    · next hz => simp only [Option.isSome_none, h, hz, or_self, Bool.false_eq_true]

theorem string_eq_iff (bytes : List UInt8) :
    (env.memory bytes).string bytes = some (decode bytes) ↔ Terminated env bytes := by
  cases hnull : (env.memory bytes).null with
  | true =>
    refine iff_of_true ?_ (.inl hnull)
    rw [Utf8String.Memory.string, if_pos hnull, env.null_empty bytes hnull]
    rfl
  | false =>
    have hnull' : ¬ (env.memory bytes).null = true := by rw [hnull]; exact Bool.false_ne_true
    rw [Terminated, Utf8String.Memory.string, if_neg hnull']
    by_cases hb : 0 ∈ bytes
    · refine iff_of_true ?_ (.inr (.inl hb))
      rw [if_pos (List.mem_append_left _ hb), decode, stringOfUtf8CString, cString_append_zero hb]
      rfl
    · by_cases hf : 0 ∈ (env.memory bytes).following
      · rw [if_pos (List.mem_append_right _ hf), decode, decode, stringOfUtf8CString_eq,
          stringOfUtf8CString_eq, cString_append hb]
        have hbytes : cString bytes = bytes := by
          have h := cString_append hb []
          rw [List.append_nil] at h
          rw [h]
          exact List.append_nil bytes
        rw [hbytes, Option.some.injEq, JSValue.string.injEq, decodeUtf8_append_iff]
        simp only [hnull, hb, hf, Bool.false_eq_true, false_or, true_and]
      · have hnone : 0 ∉ bytes ++ (env.memory bytes).following := by simp [hb, hf]
        rw [if_neg hnone]
        simp only [reduceCtorEq, hnull, hb, hf, Bool.false_eq_true, false_and, or_self]

end Decoding

section Calls
variable {env}

theorem handler_mono {fuel : Nat} {s : Encoding.State C} {a : Filters.Args}
    {r : Encoding.State C × Except String (List UInt8)} (h : handler env fuel s a = some r) {more : Nat}
    (hle : fuel ≤ more) : handler env more s a = some r := by
  induction fuel generalizing s a more with
  | zero => cases h
  | succ fuel ih =>
    obtain ⟨more, rfl⟩ : ∃ k, more = k + 1 := ⟨more - 1, by omega⟩
    rw [handler] at h ⊢
    rcases hp : Encoding.processBuffer env.convertEx s a.inBuffer a.outRemaining with ⟨s', e | q⟩
    · rw [hp] at h
      exact h
    · rw [hp] at h
      simp only at h ⊢
      cases hq : Filters.settle a ⟨s', q.consumed, q.written, q.sizeNeeded⟩ with
      | pending b =>
        rw [hq] at h
        exact ih h (by omega)
      | resolved arrayBuffer =>
        rw [hq] at h
        exact h
      | rejected e =>
        rw [hq] at h
        exact h

theorem convert_mono {fuel more : Nat} {s : Encoding.State C} {v : JSValue}
    {r : Encoding.State C × Except Failure JSValue} (h : convert env fuel s v = some r)
    (hle : fuel ≤ more) : convert env more s v = some r := by
  rw [convert] at h ⊢
  cases hb : inBuffer v with
  | error e =>
    rw [hb] at h
    exact h
  | ok buffer =>
    rw [hb] at h
    obtain ⟨q, hq, hr⟩ := Option.map_eq_some_iff.mp h
    simp only [handler_mono hq hle, Option.map_some, hr]

theorem process_mono {fuel more : Nat} {f : FilterObject C} {v : JSValue}
    {r : FilterObject C × Except Failure JSValue} (h : f.process env fuel v = some r)
    (hle : fuel ≤ more) : f.process env more v = some r := by
  cases f with
  | utf8String => exact h
  | encodingConversion s =>
    obtain ⟨q, hq, hr⟩ := Option.map_eq_some_iff.mp h
    rw [FilterObject.process, convert_mono hq hle, ← hr]
    rfl

theorem through_mono {fuel more : Nat} {filters : List (FilterObject C)} {v : JSValue}
    {r : List (FilterObject C) × Except Failure JSValue}
    (h : through (FilterObject.process env fuel) filters v = some r) (hle : fuel ≤ more) :
    through (FilterObject.process env more) filters v = some r := by
  induction filters generalizing v r with
  | nil => exact h
  | cons f filters ih =>
    rw [through] at h ⊢
    split at h
    · cases h
    · next heq =>
      rw [process_mono heq hle]
      exact h
    · next f' w heq =>
      obtain ⟨q, hq, hr⟩ := Option.map_eq_some_iff.mp h
      rw [process_mono heq hle]
      simp only
      rw [ih hq, ← hr]
      rfl

theorem handler_error {fuel : Nat} {s s' : Encoding.State C} {a : Filters.Args} {e : String}
    (h : handler env fuel s a = some (s', .error e)) : ∃ name, e = "encoding conversion error: " ++ name := by
  induction fuel generalizing s a with
  | zero => cases h
  | succ fuel ih =>
    rw [handler] at h
    rcases hp : Encoding.processBuffer env.convertEx s a.inBuffer a.outRemaining with ⟨t, e' | q⟩
    · rw [hp] at h
      cases h
      rw [Encoding.processBuffer.eq_def] at hp
      split at hp
      · cases hp
      · simp only at hp
        split at hp
        · next name _ =>
          cases hp
          exact ⟨name, rfl⟩
        · cases hp
        · cases hp
    · rw [hp] at h
      simp only at h
      cases hq : Filters.settle a ⟨t, q.consumed, q.written, q.sizeNeeded⟩ with
      | pending b =>
        rw [hq] at h
        exact ih h
      | resolved arrayBuffer =>
        rw [hq] at h
        cases h
      | rejected e' =>
        rw [Filters.settle] at hq
        simp only at hq
        split at hq <;> cases hq

def badValue : Failure := .error "bad value for buffer argument"

theorem conversion_ne_badValue (name : String) :
    Failure.error ("encoding conversion error: " ++ name) ≠ badValue := by
  intro h
  have hs := congrArg String.toList (Failure.error.inj h)
  rw [String.toList_append] at hs
  have hhead := congrArg List.head? hs
  simp at hhead

-- what a string or an array buffer makes of the check that process() begins with
inductive Plain : JSValue → Prop where
  | string (t : List Char) : Plain (.string t)
  | arrayBuffer (bytes : List UInt8) : Plain (.arrayBuffer bytes)

theorem convert_cases {fuel : Nat} {s : Encoding.State C} {v : JSValue} (hv : Plain v)
    {r : Encoding.State C × Except Failure JSValue} (h : convert env fuel s v = some r) :
    inBuffer v = .error "bad value for buffer argument" ∧ r = (s, .error badValue) ∨
      (∃ bytes, r.2 = .ok (.arrayBuffer bytes)) ∨
        ∃ name, r.2 = .error (.error ("encoding conversion error: " ++ name)) := by
  cases hv with
  | string t =>
    cases h
    exact .inl ⟨rfl, rfl⟩
  | arrayBuffer bytes =>
    obtain ⟨⟨s', e | b⟩, hq, rfl⟩ := Option.map_eq_some_iff.mp h
    · obtain ⟨name, rfl⟩ := handler_error hq
      exact .inr (.inr ⟨name, rfl⟩)
    · exact .inr (.inl ⟨b, rfl⟩)

theorem utf8_plain {v : JSValue} (hv : Plain v) :
    ∃ w, Utf8String.process [v] = .ok w ∧ Plain w := by
  cases hv with
  | string t => exact ⟨_, rfl, .arrayBuffer _⟩
  | arrayBuffer bytes => exact ⟨_, rfl, .string _⟩

theorem through_cons_ok {call : FilterObject C → JSValue → Outcome (FilterObject C)}
    {f g : FilterObject C} {filters : List (FilterObject C)} {v w : JSValue}
    (h : call f v = some (g, .ok w)) :
    through call (f :: filters) v = (through call filters w).map fun r => (g :: r.1, r.2) := by
  rw [through, h]

theorem through_cons_error {call : FilterObject C → JSValue → Outcome (FilterObject C)}
    {f g : FilterObject C} {filters : List (FilterObject C)} {v : JSValue} {e : Failure}
    (h : call f v = some (g, .error e)) : through call (f :: filters) v = some (g :: filters, .error e) := by
  rw [through, h]

theorem through_ok_iff {call : FilterObject C → JSValue → Outcome (FilterObject C)}
    {f g : FilterObject C} {filters gs : List (FilterObject C)} {v w : JSValue}
    {r : Except Failure JSValue} (h : call f v = some (g, .ok w)) :
    through call (f :: filters) v = some (gs, r) ↔
      ∃ gs', gs = g :: gs' ∧ through call filters w = some (gs', r) := by
  rw [through_cons_ok h, Option.map_eq_some_iff]
  constructor
  · rintro ⟨⟨gs', r'⟩, hr, heq⟩
    cases heq
    exact ⟨gs', rfl, hr⟩
  · rintro ⟨gs', rfl, hr⟩
    exact ⟨(gs', r), hr, rfl⟩

theorem process_utf8 {v w : JSValue} (h : Utf8String.process [v] = .ok w) (fuel : Nat) :
    FilterObject.process env fuel .utf8String v = some (.utf8String, .ok w) := by
  rw [FilterObject.process, h]
  rfl

theorem process_encoding {fuel : Nat} {s s' : Encoding.State C} {v : JSValue}
    {r : Except Failure JSValue} (h : convert env fuel s v = some (s', r)) :
    FilterObject.process env fuel (.encodingConversion s) v = some (.encodingConversion s', r) := by
  rw [FilterObject.process, h]
  rfl

theorem convert_of_process {fuel : Nat} {s : Encoding.State C} {v : JSValue} {g : FilterObject C}
    {r : Except Failure JSValue}
    (h : FilterObject.process env fuel (.encodingConversion s) v = some (g, r)) :
    ∃ s', convert env fuel s v = some (s', r) ∧ g = .encodingConversion s' := by
  obtain ⟨⟨s', r'⟩, hc, heq⟩ := Option.map_eq_some_iff.mp h
  cases heq
  exact ⟨s', hc, rfl⟩

theorem process_cases {fuel : Nat} {f g : FilterObject C} {v : JSValue} (hv : Plain v)
    {r : Except Failure JSValue} (h : FilterObject.process env fuel f v = some (g, r)) :
    (∃ w, r = .ok w ∧ Plain w) ∨ r = .error badValue ∨
      ∃ name, r = .error (.error ("encoding conversion error: " ++ name)) := by
  cases f with
  | utf8String =>
    obtain ⟨w, hw, hplain⟩ := utf8_plain hv
    rw [process_utf8 hw] at h
    cases h
    exact .inl ⟨w, rfl, hplain⟩
  | encodingConversion s =>
    obtain ⟨s', hc, -⟩ := convert_of_process h
    rcases convert_cases hv hc with ⟨-, heq⟩ | ⟨b, rfl⟩ | hname
    · cases heq
      exact .inr (.inl rfl)
    · exact .inl ⟨_, rfl, .arrayBuffer b⟩
    · exact .inr (.inr hname)

theorem through_message {fuel : Nat} {filters gs : List (FilterObject C)} {v : JSValue} (hv : Plain v)
    {e : Failure} (h : through (FilterObject.process env fuel) filters v = some (gs, .error e)) :
    e ≠ .notAFunction := by
  induction filters generalizing v gs with
  | nil => cases h
  | cons f filters ih =>
    cases hf : FilterObject.process env fuel f v with
    | none =>
      rw [through, hf] at h
      cases h
    | some q =>
      obtain ⟨g, r⟩ := q
      rcases process_cases hv hf with ⟨w, rfl, hplain⟩ | rfl | ⟨name, rfl⟩
      · obtain ⟨gs', rfl, hr⟩ := (through_ok_iff hf).mp h
        exact ih hplain hr
      · rw [through_cons_error hf] at h
        cases h
        rintro ⟨⟩
      · rw [through_cons_error hf] at h
        cases h
        rintro ⟨⟩

theorem through_of_stringArrives {filters : List (FilterObject C)} {v : JSValue} (hv : Plain v)
    (h : StringArrives env filters v) :
    ∃ fuel, through (FilterObject.process env fuel) filters v = some (filters, .error badValue) := by
  induction filters generalizing v with
  | nil => exact h.elim
  | cons f filters ih =>
    cases f with
    | utf8String =>
      obtain ⟨w, hw, harrives⟩ := h
      obtain ⟨w', hw', hplain⟩ := utf8_plain hv
      obtain rfl : w = w' := Except.ok.inj (hw.symm.trans hw')
      obtain ⟨fuel, hr⟩ := ih hplain harrives
      exact ⟨fuel, (through_ok_iff (process_utf8 hw fuel)).mpr ⟨_, rfl, hr⟩⟩
    | encodingConversion s =>
      rcases h with hbad | ⟨fuel, w, hc, harrives⟩
      · refine ⟨0, through_cons_error (process_encoding ?_)⟩
        rw [convert, hbad]
        rfl
      · rcases convert_cases hv hc with ⟨-, heq⟩ | ⟨b, hb⟩ | ⟨name, hname⟩
        · cases heq
        · obtain rfl : w = .arrayBuffer b := Except.ok.inj hb
          obtain ⟨fuel', hrest⟩ := ih (.arrayBuffer b) harrives
          have hcall := process_encoding (convert_mono hc (le_max_left fuel fuel'))
          exact ⟨max fuel fuel',
            (through_ok_iff hcall).mpr ⟨_, rfl, through_mono hrest (le_max_right fuel fuel')⟩⟩
        · cases hname

theorem stringArrives_of_through {fuel : Nat} {filters : List (FilterObject C)} {v : JSValue}
    (hv : Plain v)
    (h : through (FilterObject.process env fuel) filters v = some (filters, .error badValue)) :
    StringArrives env filters v := by
  induction filters generalizing v with
  | nil => cases h
  | cons f filters ih =>
    cases f with
    | utf8String =>
      obtain ⟨w, hw, hplain⟩ := utf8_plain hv
      obtain ⟨gs, heq, hr⟩ := (through_ok_iff (process_utf8 hw fuel)).mp h
      cases heq
      exact ⟨w, hw, ih hplain hr⟩
    | encodingConversion s =>
      cases hf : FilterObject.process env fuel (.encodingConversion s) v with
      | none =>
        rw [through, hf] at h
        cases h
      | some q =>
        obtain ⟨g, r⟩ := q
        obtain ⟨s', hc, rfl⟩ := convert_of_process hf
        rcases convert_cases hv hc with ⟨hbad, -⟩ | ⟨b, hb⟩ | ⟨name, hname⟩
        · exact .inl hbad
        · obtain rfl : r = .ok (.arrayBuffer b) := hb
          obtain ⟨gs, heq, hr⟩ := (through_ok_iff hf).mp h
          cases heq
          exact .inr ⟨fuel, _, hc, ih (.arrayBuffer b) hr⟩
        · obtain rfl : r = .error (.error ("encoding conversion error: " ++ name)) := hname
          rw [through_cons_error hf] at h
          have he := congrArg (fun o => o.map Prod.snd) h
          exact absurd (Except.error.inj (Option.some.inj he)) (conversion_ne_badValue name)

theorem stringArrives_iff {filters : List (FilterObject C)} {v : JSValue} (hv : Plain v) :
    StringArrives env filters v ↔
      ∃ fuel, through (FilterObject.process env fuel) filters v = some (filters, .error badValue) := by
  constructor
  · exact through_of_stringArrives hv
  · rintro ⟨fuel, h⟩
    exact stringArrives_of_through hv h

-- what a string or the bytes that were read make of the synchronous chain
theorem sync_first (bytes : List UInt8) :
    FilterObject.processSync env .utf8String (.arrayBuffer bytes) =
      ((env.memory bytes).string bytes).map fun r => (.utf8String, .ok r) := rfl

theorem string_plain {m : Utf8String.Memory} {bytes : List UInt8} {v : JSValue}
    (h : m.string bytes = some v) : ∃ t, v = .string t := by
  rw [Utf8String.Memory.string] at h
  split at h
  · cases h
    exact ⟨_, rfl⟩
  · split at h
    · cases h
      exact ⟨_, rfl⟩
    · cases h

-- the error of every synchronous chain that fails
theorem sync_error {filters gs : List (FilterObject C)} {v : JSValue} (hv : Plain v) {e : Failure}
    (h : through (FilterObject.processSync env) filters v = some (gs, .error e)) :
    e = .notAFunction ∨ e = badValue := by
  induction filters generalizing v gs with
  | nil => cases h
  | cons f filters ih =>
    cases f with
    | encodingConversion s =>
      cases h
      exact .inl rfl
    | utf8String =>
      cases hv with
      | string t =>
        cases h
        exact .inr rfl
      | arrayBuffer bytes =>
        cases hm : (env.memory bytes).string bytes with
        | none =>
          rw [through, sync_first, hm] at h
          cases h
        | some w =>
          obtain ⟨t, rfl⟩ := string_plain hm
          have hcall : FilterObject.processSync env .utf8String (.arrayBuffer bytes) =
              some (.utf8String, .ok (.string t)) := by
            rw [sync_first, hm]
            rfl
          obtain ⟨gs', rfl, hr⟩ := (through_ok_iff hcall).mp h
          exact ih (.string t) hr

def Chains (env : Environment C) (filters : List (FilterObject C)) (bytes : List UInt8) : Prop :=
  ∃ fuel r, through (FilterObject.process env fuel) filters (.arrayBuffer bytes) = some r ∧
    through (FilterObject.processSync env) filters (.arrayBuffer bytes) = some r

theorem chains_encoding (s : Encoding.State C) (filters : List (FilterObject C)) (bytes : List UInt8) :
    ¬ Chains env (.encodingConversion s :: filters) bytes := by
  rintro ⟨fuel, r, hasync, hsync⟩
  cases hsync
  exact through_message (.arrayBuffer bytes) hasync rfl

theorem chains_one (bytes : List UInt8) :
    Chains env [.utf8String] bytes ↔ Terminated env bytes := by
  rw [← string_eq_iff]
  have hasync (fuel : Nat) : through (FilterObject.process env fuel) [.utf8String] (.arrayBuffer bytes) =
      some ([.utf8String], .ok (Utf8String.decode bytes)) := rfl
  cases hm : (env.memory bytes).string bytes with
  | none =>
    refine iff_of_false ?_ (by simp)
    rintro ⟨fuel, r, -, hsync⟩
    rw [through, sync_first, hm] at hsync
    cases hsync
  | some w =>
    have hsync : through (FilterObject.processSync env) [.utf8String] (.arrayBuffer bytes) =
        some ([.utf8String], .ok w) := by
      rw [through, sync_first, hm]
      rfl
    constructor
    · rintro ⟨fuel, r, h, hs⟩
      rw [hasync] at h
      rw [hsync, ← h] at hs
      cases hs
      rfl
    · intro h
      cases h
      exact ⟨0, _, hasync 0, hsync⟩

-- what processSync makes of a string
def refusal : FilterObject C → Failure
  | .encodingConversion _ => .notAFunction
  | .utf8String => badValue

theorem sync_second (f : FilterObject C) (filters : List (FilterObject C)) (bytes : List UInt8) :
    through (FilterObject.processSync env) (.utf8String :: f :: filters) (.arrayBuffer bytes) =
      ((env.memory bytes).string bytes).map fun _ =>
        (.utf8String :: f :: filters, .error (refusal f)) := by
  cases hm : (env.memory bytes).string bytes with
  | none =>
    rw [through, sync_first, hm]
    rfl
  | some w =>
    obtain ⟨t, rfl⟩ := string_plain hm
    have hcall : FilterObject.processSync env .utf8String (.arrayBuffer bytes) =
        some (.utf8String, .ok (.string t)) := by
      rw [sync_first, hm]
      rfl
    rw [through_cons_ok hcall]
    cases f <;> rfl

theorem chains_two (filters : List (FilterObject C)) (bytes : List UInt8) :
    Chains env (.utf8String :: .utf8String :: filters) bytes ↔ FindsZero env bytes ∧
      StringArrives env (.utf8String :: .utf8String :: filters) (.arrayBuffer bytes) := by
  rw [← string_isSome, stringArrives_iff (.arrayBuffer bytes), Chains, sync_second]
  cases (env.memory bytes).string bytes with
  | none => simp
  | some w =>
    simp only [Option.map_some, Option.some.injEq, exists_eq_right', Option.isSome_some, true_and]
    rfl

theorem chains_iff (filters : List (FilterObject C)) (bytes : List UInt8) :
    Chains env filters bytes ↔ Passes env filters bytes := by
  rcases filters with _ | ⟨s | _, filters⟩
  · exact iff_of_true ⟨0, _, rfl, rfl⟩ (.inl rfl)
  · exact iff_of_false (chains_encoding s filters bytes) (by simp [Passes])
  · rcases filters with _ | ⟨s | _, filters⟩
    · rw [chains_one]
      simp [Passes]
    · refine iff_of_false ?_ (by simp [Passes])
      rintro ⟨fuel, r, hasync, hsync⟩
      rw [sync_second] at hsync
      obtain ⟨w, -, rfl⟩ := Option.map_eq_some_iff.mp hsync
      exact through_message (.arrayBuffer bytes) hasync rfl
    · rw [chains_two]
      simp [Passes]

end Calls

namespace PullStream
variable {env}

theorem deliver_ok {s : PullStream C} {call : FilterObject C → JSValue → Outcome (FilterObject C)}
    {d : FilePullDevice} {bytes : List UInt8} {t : PullStream C} {v : Except Failure JSValue} :
    s.deliver call (d, .ok bytes) = some (t, v) ↔
      t.device = d ∧ through call s.filters (.arrayBuffer bytes) = some (t.filters, v) := by
  obtain ⟨d', gs⟩ := t
  rw [deliver]
  constructor
  · intro h
    obtain ⟨⟨gs', v'⟩, hr, heq⟩ := Option.map_eq_some_iff.mp h
    cases heq
    exact ⟨rfl, hr⟩
  · rintro ⟨rfl, h⟩
    rw [h]
    rfl

theorem deliver_device {s : PullStream C} {call : FilterObject C → JSValue → Outcome (FilterObject C)}
    {r : FilePullDevice × Except String (List UInt8)} {t : PullStream C} {v : Except Failure JSValue}
    (h : s.deliver call r = some (t, v)) : t.device = r.1 := by
  obtain ⟨d, e | bytes⟩ := r
  · cases h
    rfl
  · exact (deliver_ok.mp h).1

theorem same_of_read {s : PullStream C} {n : Nat} {d : FilePullDevice} {bytes : List UInt8}
    (hread : s.device.read n = (d, .ok bytes)) (hsync : s.device.readSync n = (d, .ok bytes)) :
    s.Same env n ↔ Chains env s.filters bytes := by
  constructor
  · rintro ⟨fuel, ⟨t, v⟩, hasync, hs⟩
    rw [read, hread, deliver_ok] at hasync
    rw [readSync, hsync, deliver_ok] at hs
    exact ⟨fuel, _, hasync.2, hs.2⟩
  · rintro ⟨fuel, ⟨gs, v⟩, hasync, hs⟩
    refine ⟨fuel, (⟨d, gs⟩, v), ?_, ?_⟩
    · rw [read, hread, deliver_ok]
      exact ⟨rfl, hasync⟩
    · rw [readSync, hsync, deliver_ok]
      exact ⟨rfl, hs⟩

theorem same_of_error {s : PullStream C} {n : Nat} {d : FilePullDevice} {e : String}
    (hread : s.device.read n = (d, .error e)) (hsync : s.device.readSync n = (d, .error e)) :
    s.Same env n := by
  refine ⟨0, (⟨d, s.filters⟩, .error (.error e)), ?_, ?_⟩
  · rw [read, hread]
    rfl
  · rw [readSync, hsync]
    rfl

theorem not_same_zero {s : PullStream C} (hready : s.device.deviceReady = true) : ¬ s.Same env 0 := by
  rintro ⟨fuel, ⟨t, v⟩, hasync, hsync⟩
  rw [readSync, FilePullDevice.readSync_zero_ready hready] at hsync
  rcases FilePullDevice.read_zero_ready hready with hread | hmoved
  · rw [read, hread] at hasync
    cases hasync
    rcases sync_error (.arrayBuffer []) (deliver_ok.mp hsync).2 with h | h
    · cases h
    · have hne : "must supply read length for non-seekable device" ≠ "bad value for buffer argument" := by
        decide
      exact hne (Failure.error.inj h)
  · exact hmoved ((deliver_device hasync).symm.trans (deliver_device hsync))

theorem same_zero_not_ready {s : PullStream C} (hready : s.device.deviceReady = false) :
    s.Same env 0 ↔ s.device.myStream.eofbit = false ∧ s.device.myError = some .invalidSeek := by
  have hread := FilePullDevice.read_zero_not_ready hready
  have hsync := FilePullDevice.readSync_not_ready hready 0
  constructor
  · rintro ⟨fuel, ⟨t, v⟩, ha, hs⟩
    rw [read, hread] at ha
    rw [readSync, hsync] at hs
    have hdevice := (deliver_device ha).symm.trans (deliver_device hs)
    exact ⟨(congrArg (fun d => d.myStream.eofbit) hdevice).symm,
      (congrArg FilePullDevice.myError hdevice).symm⟩
  · rintro ⟨heof, herror⟩
    have hbad : s.device.myStream.good = false := hready
    have hfail : s.device.myStream.failbit = true := by
      simpa [InputStream.good, heof] using hbad
    have hstream : { s.device.myStream with eofbit := false, failbit := true } = s.device.myStream := by
      rw [← heof, ← hfail]
    have hsame : (⟨{ s.device.myStream with eofbit := false, failbit := true }, some .invalidSeek⟩ :
        FilePullDevice) = s.device := by
      rw [hstream, ← herror]
    rw [hsame] at hread
    exact same_of_error hread hsync

theorem same_iff_agreeing (env : Environment C) (s : PullStream C) (n : Nat) :
    s.Same env n ↔ s.Agreeing env n := by
  cases hready : s.device.deviceReady with
  | true =>
    rw [Agreeing, if_pos hready]
    rcases Nat.eq_zero_or_pos n with rfl | hn
    · exact iff_of_false (not_same_zero hready) (by simp)
    · have hsync := FilePullDevice.readSync_ready hready n
      have hread := (FilePullDevice.read_positive hn).trans hsync
      rw [same_of_read hread hsync, chains_iff]
      exact (and_iff_right hn).symm
  | false =>
    have hnot : ¬ s.device.deviceReady = true := by rw [hready]; exact Bool.false_ne_true
    rw [Agreeing, if_neg hnot]
    rcases Nat.eq_zero_or_pos n with rfl | hn
    · rw [same_zero_not_ready hready]
      simp
    · refine iff_of_true ?_ (.inl hn)
      have hsync := FilePullDevice.readSync_not_ready hready n
      exact same_of_error ((FilePullDevice.read_positive hn).trans hsync) hsync

def copying : Environment Unit where
  convertEx := fun _ _ source _ _ _ => ⟨(), [], source.length, source, .zeroError⟩
  contents := fun block => block.map fun b => b.getD 0
  memory := fun _ => ⟨false, [0]⟩
  null_empty := by rintro _ ⟨⟩

def reading (filters : List (FilterObject Unit)) : PullStream Unit := ⟨⟨.opened [0x61], none⟩, filters⟩

theorem readSync_reads_otherwise :
    ((reading []).read copying 1 0).map Prod.snd = some (.ok (.arrayBuffer [0x61])) ∧
      ((reading []).readSync copying 0).map Prod.snd = some (.ok (.arrayBuffer [])) ∧
      ¬ (reading []).Same copying 0 ∧
      ((reading [.encodingConversion (Encoding.constructed ())]).read copying 1 1).map Prod.snd =
        some (.ok (.arrayBuffer [0x61])) ∧
      ((reading [.encodingConversion (Encoding.constructed ())]).readSync copying 1).map Prod.snd =
        some (.error .notAFunction) ∧
      ¬ (reading [.encodingConversion (Encoding.constructed ())]).Same copying 1 := by
  refine ⟨rfl, rfl, not_same_zero rfl, rfl, rfl, ?_⟩
  intro h
  exact chains_encoding _ _ _ ((same_of_read rfl rfl).mp h)

end PullStream

end Process

end NexusRuntime.Streams.Sync
