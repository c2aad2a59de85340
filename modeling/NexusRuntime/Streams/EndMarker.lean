import Mathlib.Logic.Function.Basic
import NexusRuntime.Devices.SinkWrite
import NexusRuntime.Filters.Encoding
import NexusRuntime.Filters.Filter
import NexusRuntime.Filters.Utf8String

namespace NexusRuntime.Streams.WritableStream

open Memory Devices Filters

-- a JavaScript value other than null
inductive Data where
  | string (s : List Char)
  | buffer (v : View)
  | object
  | primitive

def Data.toJSValue : Data → Utf8String.JSValue
  | .string s => .string s
  | .buffer v => .typedArray v.bytes
  | .object => .object
  | .primitive => .primitive

def ofJSValue : Utf8String.JSValue → Option Data
  | .null => none
  | .string s => some (.string s)
  | .arrayBuffer bytes => some (.buffer (View.arrayBuffer bytes))
  | .typedArray underlying => some (.buffer (View.arrayBuffer underlying))
  | .object => some .object
  | .primitive => some .primitive

inductive Settled where
  | resolved (value : Option Data)
  | rejected (error : String)
  | pending

inductive Installed where
  | utf8String
  | encodingConversion (object : Nat)
deriving DecidableEq

-- the ICU converters of each filter object, what memory that was not written reads as,
-- and how many calls of processBuffer are followed for one payload
structure Environment (C : Type) where
  convertEx : Nat → Encoding.ConvertEx C
  uninitialised : Nat → UInt8
  calls : Nat

abbrev Objects (C : Type) := Nat → Encoding.State C

def inputBuffer : Option Data → Except String (Option (List UInt8))
  | none => .ok none
  | some (.buffer v) => .ok (some v.content)
  | some .object => .error "argument must be TypedArray or ArrayBuffer"
  | some (.string _) => .error "bad value for buffer argument"
  | some .primitive => .error "bad value for buffer argument"

-- without a text: the exception of JavaScriptCore is passed on
def writeArgument : Option Data → Except (Option String) (Option View)
  | none => .ok none
  | some (.buffer v) => .ok (some v)
  | some .object => .error none
  | some (.string _) => .error (some "argument must be TypedArray, ArrayBuffer, or null")
  | some .primitive => .error (some "argument must be TypedArray, ArrayBuffer, or null")

structure Writable (C : Type) where
  objects : Objects C
  received : List (Option (List UInt8))

section Writes
variable {C : Type} (env : Environment C)

def Environment.arrayBuffer (block : Block UInt8) : Data :=
  .buffer (View.arrayBuffer (block.mapIdx (fun i x => x.getD (env.uninitialised i))))

def convert (object : Nat) : Nat → Encoding.State C → Args → Encoding.State C × Settled
  | 0, s, _ => (s, .pending)
  | n + 1, s, a =>
    match Encoding.processBuffer (env.convertEx object) s a.inBuffer a.outRemaining with
    | (s', .error e) => (s', .rejected e)
    | (s', .ok r) =>
      match settle a ⟨s', r.consumed, r.written, r.sizeNeeded⟩ with
      | .pending b => convert object n s' b
      | .resolved block => (s', .resolved (some (env.arrayBuffer block)))
      | .rejected e => (s', .rejected e)

def Installed.process (f : Installed) (value : Option Data) (o : Objects C) :
    Objects C × Settled :=
  match f with
  | .utf8String =>
    match Utf8String.process [(value.map Data.toJSValue).getD .null] with
    | .ok v => (o, .resolved (ofJSValue v))
    | .error e => (o, .rejected e)
  | .encodingConversion object =>
    match inputBuffer value with
    | .error e => (o, .rejected e)
    | .ok buffer =>
      let estimate := length buffer
      let r := convert env object env.calls (o object)
        ⟨buffer, Block.alloc estimate, estimate, 0, estimate⟩
      (Function.update o object r.1, r.2)

def filtered : List Installed → Option Data → Objects C → Objects C × Settled
  | [], value, o => (o, .resolved value)
  | f :: fs, value, o =>
    match f.process env value o with
    | (o', .resolved w) => filtered fs w o'
    | (o', .rejected e) => (o', .rejected e)
    | (o', .pending) => (o', .pending)

-- false: the promise of this write never settles
def write (fs : List Installed) (value : Option Data) (s : Writable C) : Writable C × Bool :=
  match filtered env fs value s.objects with
  | (o, .resolved w) =>
    match writeArgument w with
    | .ok r => (⟨o, s.received ++ [r.map View.content]⟩, true)
    | .error _ => (⟨o, s.received⟩, true)
  | (o, .rejected _) => (⟨o, s.received⟩, true)
  | (o, .pending) => (⟨o, s.received⟩, false)

def writes (fs : List Installed) : List (Option Data) → Writable C → Writable C
  | [], s => s
  | value :: values, s =>
    match write env fs value s with
    | (s', true) => writes fs values s'
    | (s', false) => s'

def Yields (fs : List Installed) : Objects C → List Data → List (List UInt8) → Prop
  | _, [], out => out = []
  | o, d :: data, out => ∃ o' v rest,
    filtered env fs (some d) o = (o', .resolved (some (.buffer v))) ∧ out = v.content :: rest ∧
      Yields fs o' data rest

def EndsWithMarker (fs : List Installed) (data : List Data) (o : Objects C) : Prop :=
  ∃ out flushed, Yields env fs o data out ∧
    (writes env fs (data.map some ++ [none]) ⟨o, []⟩).received =
      (out ++ flushed).map some ++ [none]

end Writes

-- what `n` string filters turn into a buffer
def Carried (n : Nat) : Data → Prop
  | .string _ => n % 2 = 1
  | .buffer _ => n % 2 = 0
  | .object => False
  | .primitive => False

section Marker
variable {C : Type} {env : Environment C} {fs : List Installed} {o o' : Objects C}

theorem convert_data {object n : Nat} {s : Encoding.State C} {a : Args} {value : Option Data}
    (h : (convert env object n s a).2 = .resolved value) : value ≠ none := by
  induction n generalizing s a with
  | zero => simp [convert] at h
  | succ n ih =>
    rw [convert] at h
    split at h
    · cases h
    · split at h
      · exact ih h
      · cases h
        simp
      · cases h

theorem process_data {f : Installed} {d : Data} {value : Option Data}
    (h : (f.process env (some d) o).2 = .resolved value) : value ≠ none := by
  cases f with
  | utf8String =>
    cases d <;> cases h <;> simp [ofJSValue, Utf8String.decode]
  | encodingConversion object =>
    simp only [Installed.process] at h
    split at h
    · cases h
    · exact convert_data h

theorem filtered_data {d : Data} {value : Option Data}
    (h : (filtered env fs (some d) o).2 = .resolved value) : value ≠ none := by
  induction fs generalizing d o with
  | nil =>
    cases h
    simp
  | cons f fs ih =>
    rw [filtered] at h
    split at h
    · next o' w hw =>
      obtain ⟨e, rfl⟩ := Option.ne_none_iff_exists'.mp (process_data (congrArg Prod.snd hw))
      exact ih h
    · cases h
    · cases h

theorem filtered_null (env : Environment C) (o : Objects C) : (∃ o', filtered env fs none o = (o', .resolved none)) ↔
    ∀ f ∈ fs, f = .utf8String := by
  induction fs with
  | nil => simp [filtered]
  | cons f fs ih =>
    cases f with
    | utf8String =>
      have hstep : filtered env (.utf8String :: fs) none o = filtered env fs none o := rfl
      simpa [hstep] using ih
    | encodingConversion object =>
      simp only [List.mem_cons, forall_eq_or_imp, reduceCtorEq, false_and, iff_false, not_exists]
      intro o' h
      rw [filtered] at h
      split at h
      · next o'' w hw =>
        have hne := convert_data (congrArg Prod.snd hw)
        obtain ⟨d, rfl⟩ := Option.ne_none_iff_exists'.mp hne
        exact filtered_data (congrArg Prod.snd h) rfl
      · cases h
      · cases h

theorem utf8String_process (d : Data) : (Installed.utf8String.process env (some d) o) =
    match d with
    | .string s => (o, .resolved (some (.buffer (View.arrayBuffer
        (Utf8String.utf8CString s (Utf8String.maximumUtf8CStringSize s))))))
    | .buffer v => (o, .resolved (some (.string (Utf8String.stringOfUtf8CString v.bytes))))
    | .object => (o, .rejected "argument must be TypedArray or ArrayBuffer")
    | .primitive => (o, .rejected "bad value for buffer argument") := by
  cases d <;> rfl

theorem carried_succ_string (n : Nat) (s : List Char) (v : View) :
    Carried (n + 1) (.string s) ↔ Carried n (.buffer v) := by
  simp only [Carried]
  omega

theorem carried_succ_buffer (n : Nat) (s : List Char) (v : View) :
    Carried (n + 1) (.buffer v) ↔ Carried n (.string s) := by
  simp only [Carried]
  omega

theorem filtered_carried (hfs : ∀ f ∈ fs, f = .utf8String) (d : Data) :
    (∃ o' v, filtered env fs (some d) o = (o', .resolved (some (.buffer v)))) ↔
      Carried fs.length d := by
  induction fs generalizing d with
  | nil => cases d <;> simp [filtered, Carried]
  | cons f fs ih =>
    obtain rfl := hfs f (List.mem_cons_self ..)
    have hrest := ih (fun g hg => hfs g (List.mem_cons_of_mem _ hg))
    simp only [filtered, utf8String_process, List.length_cons]
    cases d with
    | string s => rw [carried_succ_string, hrest]
    | buffer v => rw [carried_succ_buffer, hrest]
    | object | primitive => simp [Carried]

theorem yields_carried (env : Environment C) (o : Objects C) (hfs : ∀ f ∈ fs, f = .utf8String)
    (data : List Data) :
    (∃ out, Yields env fs o data out) ↔ ∀ d ∈ data, Carried fs.length d := by
  induction data generalizing o with
  | nil => simp [Yields]
  | cons d data ih =>
    simp only [Yields, List.mem_cons, forall_eq_or_imp]
    constructor
    · rintro ⟨out, o', v, rest, hd, rfl, hrest⟩
      exact ⟨(filtered_carried hfs d).mp ⟨o', v, hd⟩, (ih o').mp ⟨rest, hrest⟩⟩
    · rintro ⟨hd, hdata⟩
      obtain ⟨o', v, hv⟩ := (filtered_carried hfs d).mpr hd
      obtain ⟨rest, hrest⟩ := (ih o').mpr hdata
      exact ⟨v.content :: rest, o', v, rest, hv, rfl, hrest⟩

theorem writes_yields {data : List Data} {out : List (List UInt8)}
    (h : Yields env fs o data out) : ∃ o', ∀ values received,
      writes env fs (data.map some ++ values) ⟨o, received⟩ =
        writes env fs values ⟨o', received ++ out.map some⟩ := by
  induction data generalizing o out with
  | nil =>
    obtain rfl : out = [] := h
    exact ⟨o, fun values received => by simp⟩
  | cons d data ih =>
    obtain ⟨o', v, rest, hd, rfl, hrest⟩ := h
    obtain ⟨o'', hwrites⟩ := ih hrest
    refine ⟨o'', ?_⟩
    intro values received
    simp only [List.map_cons, List.cons_append, writes, write, hd, writeArgument, hwrites,
      Option.map_some, List.append_assoc, List.nil_append]

theorem write_null (env : Environment C) (fs : List Installed) (s : Writable C) : ∃ last, (writes env fs [none] s).received = s.received ++ last ∧
    (none ∈ last → ∀ f ∈ fs, f = .utf8String) ∧
      ((∀ f ∈ fs, f = .utf8String) → last = [none]) := by
  simp only [← filtered_null env s.objects, writes, write]
  cases hfiltered : filtered env fs none s.objects with
  | mk o' settled =>
    cases settled with
    | rejected e => exact ⟨[], by simp⟩
    | pending => exact ⟨[], by simp⟩
    | resolved w =>
      cases w with
      | none => exact ⟨[none], by simp [writeArgument]⟩
      | some d =>
        cases d with
        | buffer v => exact ⟨[some v.content], by simp [writeArgument]⟩
        | string s | object | primitive => exact ⟨[], by simp [writeArgument]⟩

theorem endsWithMarker_iff (env : Environment C) (fs : List Installed) (data : List Data)
    (o : Objects C) :
    EndsWithMarker env fs data o ↔
      (∀ f ∈ fs, f = .utf8String) ∧ ∀ d ∈ data, Carried fs.length d := by
  constructor
  · rintro ⟨out, flushed, hout, hreceived⟩
    obtain ⟨o', hwrites⟩ := writes_yields hout
    obtain ⟨last, hlast, hall, -⟩ := write_null env fs ⟨o', out.map some⟩
    rw [hwrites, List.nil_append, hlast, List.map_append, List.append_assoc] at hreceived
    have htail := List.append_cancel_left hreceived
    have hfs := hall (by simp [htail])
    exact ⟨hfs, (yields_carried env o hfs data).mp ⟨out, hout⟩⟩
  · rintro ⟨hfs, hdata⟩
    obtain ⟨out, hout⟩ := (yields_carried env o hfs data).mpr hdata
    obtain ⟨o', hwrites⟩ := writes_yields hout
    obtain ⟨last, hlast, -, hend⟩ := write_null env fs ⟨o', out.map some⟩
    refine ⟨out, [], hout, ?_⟩
    rw [hwrites, List.nil_append, hlast, hend hfs, List.append_nil]

end Marker

def swapping : Environment (Option UInt8) where
  convertEx := fun _ => Encoding.reference Encoding.swap
  uninitialised := fun _ => 0
  calls := 1

def opened : Objects (Option UInt8) := fun _ => Encoding.constructed none

theorem marker_swallowed :
    (writes swapping [.encodingConversion 0]
        [some (.buffer (View.arrayBuffer [0x00, 0x41])), none] ⟨opened, []⟩).received =
      [some [0x41, 0x00], some []] ∧
      ¬ EndsWithMarker swapping [.encodingConversion 0] [.buffer (View.arrayBuffer [0x00, 0x41])]
        opened := by
  have hreceived : (writes swapping [.encodingConversion 0]
      [some (.buffer (View.arrayBuffer [0x00, 0x41])), none] ⟨opened, []⟩).received =
        [some [0x41, 0x00], some []] := rfl
  refine ⟨hreceived, ?_⟩
  rintro ⟨out, flushed, -, h⟩
  have hmem := List.mem_append_right ((out ++ flushed).map some)
    (List.mem_singleton_self (none : Option (List UInt8)))
  rw [← hreceived.symm.trans h] at hmem
  simp at hmem

end NexusRuntime.Streams.WritableStream
