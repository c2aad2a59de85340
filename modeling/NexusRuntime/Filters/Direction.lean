import NexusRuntime.Filters.Encoding
import NexusRuntime.Transducer.Compose

namespace NexusRuntime.Filters.Encoding

open Transducer

-- an encoding: reading its bytes into the UTF-16 units of the pivot, and writing them
structure Charset where
  toUnicode : Machine UInt8 UInt16 String
  fromUnicode : Machine UInt16 UInt8 String

def Charset.Spells (c : Charset) (text : List UInt16) (bytes : List UInt8) : Prop :=
  c.fromUnicode.convert text = .ok bytes ∧ c.toUnicode.convert bytes = .ok text

def conversion (target source : Charset) : Conversion :=
  source.toUnicode.compose target.fromUnicode

structure Icu where
  ucnv_open : String → Except String Charset
  Converters : Charset → Charset → Type
  opened : ∀ target source, Converters target source
  -- ucnv_convertEx(targetCnv, sourceCnv, ..)
  ucnv_convertEx : ∀ target source, ConvertEx (Converters target source)

def Icu.Documented (icu : Icu) : Prop :=
  ∀ target source, ∃ view,
    Conforms (icu.ucnv_convertEx target source) (conversion target source) view

structure EncodingConversionFilter (icu : Icu) where
  mySource : Charset
  myTarget : Charset
  state : State (icu.Converters mySource myTarget)

namespace EncodingConversionFilter
variable (icu : Icu)

def construct (fromEncoding toEncoding : String) : Except String (EncodingConversionFilter icu) :=
  match icu.ucnv_open fromEncoding with
  | .error e => .error ("invalid source encoding '" ++ fromEncoding ++ "': " ++ e)
  | .ok source =>
    match icu.ucnv_open toEncoding with
    -- the source names the `from` encoding here too
    | .error e => .error ("invalid target encoding '" ++ fromEncoding ++ "': " ++ e)
    | .ok target => .ok ⟨source, target, constructed (icu.opened source target)⟩

variable {icu}

-- mySource stands in the place of the target converter
def processBuffer (f : EncodingConversionFilter icu) (buffer : Option (List UInt8))
    (outLength : Nat) : EncodingConversionFilter icu × Except String Answer :=
  let r := Encoding.processBuffer (icu.ucnv_convertEx f.mySource f.myTarget) f.state buffer outLength
  (⟨f.mySource, f.myTarget, r.1⟩, r.2)

end EncodingConversionFilter

-- a text that both encodings can spell
structure Representable (source target : Charset) where
  text : List UInt16
  fromBytes : List UInt8
  toBytes : List UInt8
  from_spells : source.Spells text fromBytes
  to_spells : target.Spells text toBytes

section Direction
variable {icu : Icu} {fromEncoding toEncoding : String} {source target : Charset}

def Converts (icu : Icu) (fromEncoding toEncoding : String) (r : Representable source target) :
    Prop :=
  ∃ f, EncodingConversionFilter.construct icu fromEncoding toEncoding = .ok f ∧
    ∃ n, ∀ space ≥ n,
      (f.processBuffer (some r.fromBytes) space).2 = .ok ⟨r.fromBytes.length, r.toBytes, 0⟩

-- the target encoding reads the source bytes as a text that the source encoding
-- writes as the target bytes
def Mirrored (r : Representable source target) : Prop :=
  ∃ mistaken, target.toUnicode.Passes r.fromBytes mistaken ∧
    source.fromUnicode.Passes mistaken r.toBytes

theorem construct_ok (hsource : icu.ucnv_open fromEncoding = .ok source)
    (htarget : icu.ucnv_open toEncoding = .ok target) :
    EncodingConversionFilter.construct icu fromEncoding toEncoding =
      .ok ⟨source, target, constructed (icu.opened source target)⟩ := by
  simp only [EncodingConversionFilter.construct, hsource, htarget]

theorem fresh_processBuffer {C : Type} {convertEx : ConvertEx C} {t : Conversion}
    {view : C → List UInt16 → t.State} (hicu : Conforms convertEx t view) (c : C)
    (source written : List UInt8) :
    (∃ n, ∀ space ≥ n, (processBuffer convertEx (constructed c) (some source) space).2 =
        .ok ⟨source.length, written, 0⟩) ↔ t.Passes source written := by
  have hstart : start t view (constructed c) = t.fresh := rfl
  constructor
  · rintro ⟨n, h⟩
    have hcall := h (max n (t.feed t.fresh source).out.length) (Nat.le_max_left ..)
    have hspace : (t.feed (start t view (constructed c)) source).out.length ≤
        max n (t.feed t.fresh source).out.length := Nat.le_max_right ..
    cases hresult : (t.feed t.fresh source).result with
    | error e =>
      rw [processBuffer_error hicu hspace hresult] at hcall
      cases hcall
    | ok d =>
      obtain ⟨s', hs', -, -⟩ := processBuffer_ok hicu hspace hresult
      rw [hs'] at hcall
      have hout : (t.feed t.fresh source).out = written :=
        congrArg Answer.written (Except.ok.inj hcall)
      exact ⟨d, by rw [Machine.Leads, ← hresult, ← hout]⟩
  · rintro ⟨d, hfeed⟩
    refine ⟨written.length, ?_⟩
    intro space hspace
    rw [Machine.Leads] at hfeed
    have hfits : (t.feed (start t view (constructed c)) source).out.length ≤ space := by
      rw [hstart, hfeed]
      exact hspace
    have hok : (t.feed (start t view (constructed c)) source).result = .ok d := by
      rw [hstart, hfeed]
    obtain ⟨s', hs', -, -⟩ := processBuffer_ok hicu hfits hok
    rw [hs', hstart, hfeed]

theorem converts_iff_passes (hicu : icu.Documented)
    (hsource : icu.ucnv_open fromEncoding = .ok source)
    (htarget : icu.ucnv_open toEncoding = .ok target) (r : Representable source target) :
    Converts icu fromEncoding toEncoding r ↔
      (conversion source target).Passes r.fromBytes r.toBytes := by
  obtain ⟨view, hconforms⟩ := hicu source target
  rw [← fresh_processBuffer hconforms (icu.opened source target), Converts, construct_ok hsource htarget]
  constructor
  · rintro ⟨f, hf, h⟩
    obtain rfl := Except.ok.inj hf
    exact h
  · intro h
    exact ⟨_, rfl, h⟩

theorem converts_iff_mirrored (hicu : icu.Documented)
    (hsource : icu.ucnv_open fromEncoding = .ok source)
    (htarget : icu.ucnv_open toEncoding = .ok target) (r : Representable source target) :
    Converts icu fromEncoding toEncoding r ↔ Mirrored r := by
  rw [converts_iff_passes hicu hsource htarget r, conversion, Machine.passes_compose]
  exact Iff.rfl

end Direction

section Charsets

-- outside the surrogates; an odd byte at the end becomes U+FFFD
def utf16 (bigEndian : Bool) : Charset where
  toUnicode :=
    { State := Option UInt8
      fresh := none
      read := fun pending byte =>
        match pending with
        | none => .ok (some byte, [])
        | some first =>
          let high := if bigEndian then first else byte
          let low := if bigEndian then byte else first
          .ok (none, [high.toUInt16 <<< 8 ||| low.toUInt16])
      finish := fun pending => .ok (if pending.isSome then [0xFFFD] else []) }
  fromUnicode :=
    { State := Unit
      fresh := ()
      read := fun _ unit =>
        let high := (unit >>> 8).toUInt8
        let low := unit.toUInt8
        .ok ((), if bigEndian then [high, low] else [low, high])
      finish := fun _ => .ok [] }

-- a unit outside the encoding becomes SUB
def latin1 : Charset where
  toUnicode :=
    { State := Unit
      fresh := ()
      read := fun _ byte => .ok ((), [byte.toUInt16])
      finish := fun _ => .ok [] }
  fromUnicode :=
    { State := Unit
      fresh := ()
      read := fun _ unit => .ok ((), [if unit < 256 then unit.toUInt8 else 0x1A])
      finish := fun _ => .ok [] }

def someIcu : Icu where
  ucnv_open name :=
    if name = "ISO-8859-1" then .ok latin1
    else if name = "UTF-16LE" then .ok (utf16 false)
    else if name = "UTF-16BE" then .ok (utf16 true)
    else .error "U_FILE_ACCESS_ERROR"
  Converters target source := (conversion target source).State
  opened target source := (conversion target source).fresh
  ucnv_convertEx target source := reference (conversion target source)

theorem someIcu_documented : someIcu.Documented := by
  intro target source
  exact ⟨fun c _ => c, reference_conforms (conversion target source)⟩

def euro : Representable (utf16 true) (utf16 false) where
  text := [0x20AC]
  fromBytes := [0x20, 0xAC]
  toBytes := [0xAC, 0x20]
  from_spells := ⟨by rfl, by rfl⟩
  to_spells := ⟨by rfl, by rfl⟩

def twoLetters : Representable latin1 (utf16 false) where
  text := [0x61, 0x62]
  fromBytes := [0x61, 0x62]
  toBytes := [0x61, 0x00, 0x62, 0x00]
  from_spells := ⟨by rfl, by rfl⟩
  to_spells := ⟨by rfl, by rfl⟩

theorem euro_converted : Converts someIcu "UTF-16BE" "UTF-16LE" euro :=
  (converts_iff_mirrored someIcu_documented (by rfl) (by rfl) euro).mpr
    ⟨[0xAC20], ⟨none, by rfl⟩, ⟨(), by rfl⟩⟩

theorem letters_converted_backwards :
    (∃ f, EncodingConversionFilter.construct someIcu "ISO-8859-1" "UTF-16LE" = .ok f ∧
      (f.processBuffer (some twoLetters.fromBytes) 8).2 = .ok ⟨2, [0x1A], 0⟩) ∧
    ¬ Converts someIcu "ISO-8859-1" "UTF-16LE" twoLetters := by
  have hsource : someIcu.ucnv_open "ISO-8859-1" = .ok latin1 := by rfl
  have htarget : someIcu.ucnv_open "UTF-16LE" = .ok (utf16 false) := by rfl
  refine ⟨⟨_, construct_ok hsource htarget, by rfl⟩, ?_⟩
  rw [converts_iff_passes someIcu_documented hsource htarget]
  rintro ⟨d, h⟩
  have hout : [0x1A] = twoLetters.toBytes := congrArg Fed.out h
  exact absurd hout (by decide)

end Charsets

end NexusRuntime.Filters.Encoding
