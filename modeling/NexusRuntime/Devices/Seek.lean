import NexusRuntime.Globals.Timeouts

namespace NexusRuntime.Devices

open Globals (Number)

inductive Position where
  | beginning
  | current
  | ending
deriving DecidableEq, Repr

inductive SeekArgument where
  | number (x : Number)
  | string (s : List Char)
  | other

-- the conversions of the JavaScript engine and of the compiler
structure Conversions where
  decimal : Rat → List Char
  decimal_numeric : ∀ q, ∀ c ∈ decimal q, c.isDigit = true ∨ c ∈ ['+', '-', '.', 'e']
  parse : List Char → Number
  parse_letter : ∀ c s, c.isAlpha = true → c ≠ 'I' → parse (c :: s) = .nan
  undefinedSize : Number → UInt64

namespace Conversions
variable (e : Conversions)

def text : Number → List Char
  | .nan => ['N', 'a', 'N']
  | .infinity false => ['I', 'n', 'f', 'i', 'n', 'i', 't', 'y']
  | .infinity true => ['-', 'I', 'n', 'f', 'i', 'n', 'i', 't', 'y']
  | .finite q => e.decimal q

def toSize : Number → UInt64
  | .finite q => if -1 < q ∧ q < 18446744073709551616 then UInt64.ofNat q.floor.toNat else e.undefinedSize (.finite q)
  | x => e.undefinedSize x

end Conversions

def iequals (s t : List Char) : Bool := s.map Char.toLower == t.map Char.toLower

def beginText : List Char := ['b', 'e', 'g', 'i', 'n']

def currentText : List Char := ['c', 'u', 'r', 'r', 'e', 'n', 't']

def endText : List Char := ['e', 'n', 'd']

def position (s : List Char) : Position :=
  if iequals s beginText then .beginning
  else if iequals s currentText then .current
  else if iequals s endText then .ending
  else .beginning

-- the offset is read as not-a-number is, from the beginning
def Conversions.Unchanged (e : Conversions) (x : Number) (origin : List Char) : Prop :=
  e.toSize x = e.toSize .nan ∧ iequals beginText origin = true

def validate : List SeekArgument → Except String (Number × List Char)
  | [.number x, .string origin] =>
    if !iequals beginText origin && !iequals currentText origin && !iequals endText origin then
      .error "position argument must be one of ['begin','current','end']"
    else .ok (x, origin)
  | [.number _, _] => .error "value for position argument is not a string"
  | [_, _] => .error "value for offset argument is not a number"
  | _ => .error "must supply stream offset and position"

def Origin (s : List Char) : Prop :=
  iequals beginText s = true ∨ iequals currentText s = true ∨ iequals endText s = true

structure Seeking (S : Type) where
  calls : List (UInt64 × Position)
  device : S
  result : Except String UInt64

-- the device, and the one of its seek functions that a method is about
structure Seek (S : Type) where
  deviceReady : S → Bool
  deviceSeek : S → UInt64 → Position → Except String UInt64 × S

namespace Seek
variable {S : Type} (d : Seek S) (e : Conversions)

def perform (s : S) (offset : UInt64) (pos : Position) : Seeking S :=
  if !d.deviceReady s then ⟨[], s, .error "device not ready"⟩
  else ⟨[(offset, pos)], (d.deviceSeek s offset pos).2, (d.deviceSeek s offset pos).1⟩

def async (arguments : List SeekArgument) (s : S) : Seeking S :=
  match validate arguments with
  | .error message => ⟨[], s, .error message⟩
  | .ok (x, origin) => d.perform s (e.toSize x) (position origin)

-- `position` is made from arguments[0] and `offset` from arguments[1]
def sync (arguments : List SeekArgument) (s : S) : Seeking S :=
  match validate arguments with
  | .error message => ⟨[], s, .error message⟩
  | .ok (x, origin) => d.perform s (e.toSize (e.parse origin)) (position (e.text x))

end Seek

structure SeekableDevice (S : Type) where
  deviceReady : S → Bool
  deviceSeek : S → UInt64 → Position → Except String UInt64 × S

structure DualSeekableDevice (S : Type) where
  deviceReady : S → Bool
  deviceReadSeek : S → UInt64 → Position → Except String UInt64 × S
  deviceWriteSeek : S → UInt64 → Position → Except String UInt64 × S

def SeekableDevice.seek {S : Type} (d : SeekableDevice S) (e : Conversions) :=
  Seek.async ⟨d.deviceReady, d.deviceSeek⟩ e

def SeekableDevice.seekSync {S : Type} (d : SeekableDevice S) (e : Conversions) :=
  Seek.sync ⟨d.deviceReady, d.deviceSeek⟩ e

namespace DualSeekableDevice
variable {S : Type} (d : DualSeekableDevice S) (e : Conversions)

def readSeek := Seek.async ⟨d.deviceReady, d.deviceReadSeek⟩ e

def writeSeek := Seek.async ⟨d.deviceReady, d.deviceWriteSeek⟩ e

def readSeekSync := Seek.sync ⟨d.deviceReady, d.deviceReadSeek⟩ e

def writeSeekSync := Seek.sync ⟨d.deviceReady, d.deviceWriteSeek⟩ e

end DualSeekableDevice

theorem iequals_iff {s t : List Char} : iequals s t = true ↔ s.map Char.toLower = t.map Char.toLower := by
  simp [iequals]

theorem iequals_comm (s t : List Char) : iequals s t = iequals t s := by
  rw [Bool.eq_iff_iff, iequals_iff, iequals_iff]
  exact eq_comm

theorem toLower_of_not_isUpper {c : Char} (h : c.isUpper = false) : c.toLower = c := by
  have hnot : ¬ (c.val ≥ 'A'.val ∧ c.val ≤ 'Z'.val) := of_decide_eq_false h
  exact dif_neg hnot

theorem not_isUpper_of_isLower {c : Char} (h : c.isLower = true) : c.isUpper = false := by
  have hge : c.val ≥ 'a'.val := by simpa using (Bool.and_eq_true_iff.mp h).1
  rw [Bool.eq_false_iff]
  intro hup
  have hle : c.val ≤ 'Z'.val := (of_decide_eq_true hup).2
  have hsmall : 'a'.val ≤ 'Z'.val := UInt32.le_trans hge hle
  revert hsmall
  decide

theorem not_isUpper_of_isDigit {c : Char} (h : c.isDigit = true) : c.isUpper = false := by
  have hle : c.val ≤ '9'.val := by simpa using (Bool.and_eq_true_iff.mp h).2
  rw [Bool.eq_false_iff]
  intro hup
  have hge : c.val ≥ 'A'.val := (of_decide_eq_true hup).1
  have hsmall : 'A'.val ≤ '9'.val := UInt32.le_trans hge hle
  revert hsmall
  decide

theorem not_letter_of_numeric {c : Char} (h : c.isDigit = true ∨ c ∈ ['+', '-', '.', 'e']) :
    c.toLower ≠ 'b' ∧ c.toLower ≠ 'c' ∧ c.toLower ≠ 'n' := by
  rcases h with h | h
  · rw [toLower_of_not_isUpper (not_isUpper_of_isDigit h)]
    refine ⟨?_, ?_, ?_⟩ <;> rintro rfl <;> simp at h
  · have hall : ∀ c ∈ ['+', '-', '.', 'e'], c.toLower ≠ 'b' ∧ c.toLower ≠ 'c' ∧ c.toLower ≠ 'n' := by
      simp
    exact hall c h

theorem mem_of_iequals {s t : List Char} {c : Char} (h : iequals s t = true) (hc : c ∈ t) :
    ∃ d ∈ s, d.toLower = c.toLower := by
  have hmem : c.toLower ∈ s.map Char.toLower := by
    rw [iequals_iff.mp h]
    exact List.mem_map_of_mem hc
  simpa using hmem

namespace Conversions
variable {e : Conversions}

-- no number is written like an origin
theorem position_text (x : Number) : position (e.text x) = .beginning := by
  have hnot : iequals (e.text x) currentText = false ∧ iequals (e.text x) endText = false := by
    cases x with
    | nan => exact ⟨rfl, rfl⟩
    | infinity negative => cases negative <;> exact ⟨rfl, rfl⟩
    | finite q =>
      constructor
      · rw [Bool.eq_false_iff]
        intro h
        obtain ⟨d, hd, hlow⟩ := mem_of_iequals h (show 'c' ∈ currentText by decide)
        exact (not_letter_of_numeric (e.decimal_numeric q d hd)).2.1 hlow
      · rw [Bool.eq_false_iff]
        intro h
        obtain ⟨d, hd, hlow⟩ := mem_of_iequals h (show 'n' ∈ endText by decide)
        exact (not_letter_of_numeric (e.decimal_numeric q d hd)).2.2 hlow
  simp [position, hnot]

theorem parse_of_iequals {a : Char} {t s : List Char} (ha : a.isLower = true) (hi : a ≠ 'i')
    (h : iequals (a :: t) s = true) : e.parse s = .nan := by
  cases s with
  | nil => simp [iequals] at h
  | cons c s =>
    have hc : a.toLower = c.toLower := (List.cons.inj (iequals_iff.mp h)).1
    have hlow : a.toLower = a := toLower_of_not_isUpper (not_isUpper_of_isLower ha)
    rw [hlow] at hc
    apply e.parse_letter
    · cases hup : c.isUpper with
      | true => exact Bool.or_eq_true_iff.mpr (.inl hup)
      | false =>
        rw [toLower_of_not_isUpper hup] at hc
        exact Bool.or_eq_true_iff.mpr (.inr (hc ▸ ha))
    · rintro rfl
      exact hi hc

theorem parse_origin {s : List Char} (h : Origin s) : e.parse s = .nan := by
  rcases h with h | h | h
  · exact parse_of_iequals (by decide) (by decide) h
  · exact parse_of_iequals (by decide) (by decide) h
  · exact parse_of_iequals (by decide) (by decide) h

end Conversions

theorem validate_origin (x : Number) {s : List Char} (h : Origin s) :
    validate [.number x, .string s] = .ok (x, s) := by
  rcases h with h | h | h <;> simp [validate, h]

theorem position_eq_beginning {s : List Char} (h : Origin s) :
    position s = .beginning ↔ iequals beginText s = true := by
  rw [position, iequals_comm s beginText, iequals_comm s currentText, iequals_comm s endText]
  rcases h with h | h | h
  · simp [h]
  · cases iequals beginText s <;> simp [h]
  · cases iequals beginText s <;> cases iequals currentText s <;> simp [h]

namespace Seek
variable {S : Type} (d : Seek S) (e : Conversions)

theorem perform_eq_iff (s : S) (m n : UInt64) (p q : Position) :
    d.perform s m p = d.perform s n q ↔ d.deviceReady s = false ∨ (m = n ∧ p = q) := by
  cases hready : d.deviceReady s with
  | false => simp [perform, hready]
  | true =>
    simp only [perform, hready, Bool.not_true, Bool.false_eq_true, if_false, false_or, Bool.true_eq_false]
    constructor
    · intro h
      have hcalls := congrArg Seeking.calls h
      simpa using hcalls
    · rintro ⟨rfl, rfl⟩
      rfl

theorem sync_eq_async_of_error {arguments : List SeekArgument} {message : String}
    (h : validate arguments = .error message) (s : S) :
    d.sync e arguments s = d.async e arguments s := by
  rw [sync, async, h]

theorem sync_eq_async_iff (x : Number) {origin : List Char} (h : Origin origin) (s : S) :
    d.sync e [.number x, .string origin] s = d.async e [.number x, .string origin] s ↔
      d.deviceReady s = false ∨ e.Unchanged x origin := by
  simp only [sync, async, validate_origin x h, Conversions.parse_origin h, Conversions.position_text]
  rw [perform_eq_iff, Conversions.Unchanged, ← position_eq_beginning h, @eq_comm _ (e.toSize x),
    @eq_comm _ (position origin)]

end Seek

theorem seekSync_eq_seek_iff {S : Type} (e : Conversions) (d : SeekableDevice S)
    (b : DualSeekableDevice S) (s : S) (x : Number) (origin : List Char) (h : Origin origin) :
    (d.seekSync e [.number x, .string origin] s = d.seek e [.number x, .string origin] s ↔
        d.deviceReady s = false ∨ e.Unchanged x origin) ∧
      (b.readSeekSync e [.number x, .string origin] s = b.readSeek e [.number x, .string origin] s ↔
        b.deviceReady s = false ∨ e.Unchanged x origin) ∧
      (b.writeSeekSync e [.number x, .string origin] s = b.writeSeek e [.number x, .string origin] s ↔
        b.deviceReady s = false ∨ e.Unchanged x origin) := by
  refine ⟨?_, ?_, ?_⟩
  · exact Seek.sync_eq_async_iff ⟨d.deviceReady, d.deviceSeek⟩ e x h s
  · exact Seek.sync_eq_async_iff ⟨b.deviceReady, b.deviceReadSeek⟩ e x h s
  · exact Seek.sync_eq_async_iff ⟨b.deviceReady, b.deviceWriteSeek⟩ e x h s

-- whole numbers are written in digits, and no other origin text is a number
def wholeNumbers : Conversions where
  decimal q := (if q.num < 0 then ['-'] else []) ++ Nat.toDigits 10 q.num.natAbs
  decimal_numeric q c hc := by
    rcases List.mem_append.mp hc with hc | hc
    · split at hc <;> simp_all
    · exact Or.inl (Nat.isDigit_of_mem_toDigits (by decide) (by decide) hc)
  parse _ := .nan
  parse_letter _ _ _ _ := rfl
  undefinedSize _ := 9223372036854775808

-- a stream of ten bytes: the state is its position
def tenBytes : SeekableDevice UInt64 where
  deviceReady _ := true
  deviceSeek s offset
    | .beginning => (.ok offset, offset)
    | .current => (.ok (s + offset), s + offset)
    | .ending => (.ok (10 + offset), 10 + offset)

def tenBytesTwice : DualSeekableDevice UInt64 where
  deviceReady _ := true
  deviceReadSeek := tenBytes.deviceSeek
  deviceWriteSeek := tenBytes.deviceSeek

theorem seek_nan_from_beginning :
    tenBytes.seekSync wholeNumbers [.number .nan, .string ['B', 'e', 'g', 'i', 'n']] 3 =
      tenBytes.seek wholeNumbers [.number .nan, .string ['B', 'e', 'g', 'i', 'n']] 3 :=
  (seekSync_eq_seek_iff wholeNumbers tenBytes tenBytesTwice 3 .nan ['B', 'e', 'g', 'i', 'n']
    (Or.inl rfl)).1.mpr (Or.inr ⟨rfl, rfl⟩)

theorem seekSync_swaps_its_arguments :
    tenBytes.seek wholeNumbers [.number (.finite 0), .string endText] 3 = ⟨[(0, .ending)], 10, .ok 10⟩ ∧
      tenBytes.seekSync wholeNumbers [.number (.finite 0), .string endText] 3 =
        ⟨[(9223372036854775808, .beginning)], 9223372036854775808, .ok 9223372036854775808⟩ ∧
      tenBytesTwice.readSeekSync wholeNumbers [.number (.finite 4), .string beginText] 3 ≠
        tenBytesTwice.readSeek wholeNumbers [.number (.finite 4), .string beginText] 3 ∧
      tenBytesTwice.writeSeekSync wholeNumbers [.number (.finite 4), .string beginText] 3 ≠
        tenBytesTwice.writeSeek wholeNumbers [.number (.finite 4), .string beginText] 3 := by
  have hswap : (9223372036854775808 : UInt64) ≠ 4 := by decide
  refine ⟨rfl, rfl, ?_, ?_⟩
  · intro h
    have hcalls : [((9223372036854775808 : UInt64), Position.beginning)] = [(4, .beginning)] :=
      congrArg Seeking.calls h
    exact hswap (congrArg Prod.fst (List.cons.inj hcalls).1)
  · intro h
    have hcalls : [((9223372036854775808 : UInt64), Position.beginning)] = [(4, .beginning)] :=
      congrArg Seeking.calls h
    exact hswap (congrArg Prod.fst (List.cons.inj hcalls).1)

end NexusRuntime.Devices
