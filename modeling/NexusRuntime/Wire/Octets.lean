import Mathlib.Data.Nat.Digits.Defs
import Mathlib.Data.List.Basic

namespace Wire

abbrev Octets := List UInt8

instance decidableAll (xs : Octets) (p : UInt8 → Prop) [DecidablePred p] :
    Decidable (∀ c ∈ xs, p c) := List.decidableBAll p xs

def crlf : Octets := [13, 10]

def lower (c : UInt8) : UInt8 := if 65 ≤ c ∧ c ≤ 90 then c + 32 else c

def iequals (xs ys : Octets) : Bool := xs.map lower == ys.map lower

@[simp] theorem iequals_refl (xs : Octets) : iequals xs xs = true := beq_self_eq_true _

theorem iequals_comm (xs ys : Octets) : iequals xs ys = iequals ys xs := by
  exact Bool.beq_comm

theorem iequals_trans {xs ys zs : Octets} (h : iequals xs ys = true) : iequals xs zs = iequals ys zs := by
  simp only [iequals, beq_iff_eq] at h ⊢
  rw [h]

theorem iequals_length {xs ys : Octets} (h : iequals xs ys = true) : xs.length = ys.length := by
  have hm : xs.map lower = ys.map lower := beq_iff_eq.mp h
  simpa using congrArg List.length hm

def readLine : Octets → Option (Octets × Octets)
  | [] => none
  | c :: rest =>
    if c = 13 ∧ rest.head? = some 10 then some ([], rest.tail)
    else (readLine rest).map fun p => (c :: p.1, p.2)

theorem readLine_encode {line : Octets} (h : ∀ c ∈ line, c ≠ 13) (rest : Octets) :
    readLine (line ++ (crlf ++ rest)) = some (line, rest) := by
  induction line with
  | nil => rfl
  | cons c line ih =>
    have hc : c ≠ 13 := h c (List.mem_cons_self ..)
    rw [List.cons_append, readLine, if_neg (fun hp => hc hp.1),
      ih fun d hd => h d (List.mem_cons_of_mem c hd)]
    rfl

structure Numeral where
  base : Nat
  char : Nat → UInt8
  val : UInt8 → Option Nat
  positive : 1 < base
  val_char : ∀ d, d < base → val (char d) = some d
  ascii : ∀ c d, val c = some d → c ≠ 13 ∧ c ≠ 59

namespace Numeral
variable (b : Numeral)

def readFrom (acc : Nat) : Octets → Option Nat
  | [] => some acc
  | c :: cs => (b.val c).bind fun d => readFrom (acc * b.base + d) cs

def read : Octets → Option Nat
  | [] => none
  | c :: cs => b.readFrom 0 (c :: cs)

def encode (n : Nat) : Octets :=
  if n = 0 then [b.char 0] else (Nat.digits b.base n).reverse.map b.char

theorem readFrom_append (acc : Nat) (xs ys : Octets) :
    b.readFrom acc (xs ++ ys) = (b.readFrom acc xs).bind fun m => b.readFrom m ys := by
  induction xs generalizing acc with
  | nil => rfl
  | cons c xs ih =>
    simp only [List.cons_append, readFrom]
    cases b.val c with
    | none => rfl
    | some d => exact ih _

theorem readFrom_digits (ds : List Nat) (hd : ∀ d ∈ ds, d < b.base) :
    b.readFrom 0 (ds.reverse.map b.char) = some (Nat.ofDigits b.base ds) := by
  induction ds with
  | nil => rfl
  | cons d ds ih =>
    have hrest := ih fun e he => hd e (List.mem_cons_of_mem d he)
    rw [List.reverse_cons, List.map_append, readFrom_append, hrest, Option.bind_some, List.map_cons,
      List.map_nil, readFrom, b.val_char d (hd d (List.mem_cons_self ..)), Option.bind_some, readFrom,
      Nat.ofDigits_cons, Nat.mul_comm, Nat.add_comm]

theorem encode_ne_nil (n : Nat) : b.encode n ≠ [] := by
  simp only [encode]
  split
  · simp
  · rename_i hn
    simpa using Nat.digits_ne_nil_iff_ne_zero.mpr hn

theorem read_encode (n : Nat) : b.read (b.encode n) = some n := by
  have hfrom : b.readFrom 0 (b.encode n) = some n := by
    simp only [encode]
    split
    · rename_i hn
      have hz : (0 : Nat) < b.base := Nat.lt_trans Nat.zero_lt_one b.positive
      simp [readFrom, b.val_char 0 hz, hn]
    · rw [readFrom_digits, Nat.ofDigits_digits]
      exact fun d hd => Nat.digits_lt_base b.positive hd
  cases he : b.encode n with
  | nil => exact absurd he (b.encode_ne_nil n)
  | cons c cs => rw [read, ← he, hfrom]

theorem encode_chars {n : Nat} {c : UInt8} (hc : c ∈ b.encode n) : ∃ d, d < b.base ∧ c = b.char d := by
  simp only [encode] at hc
  split at hc
  · exact ⟨0, Nat.lt_trans Nat.zero_lt_one b.positive, by simpa using hc⟩
  · obtain ⟨d, hd, rfl⟩ := List.mem_map.mp hc
    exact ⟨d, Nat.digits_lt_base b.positive (List.mem_reverse.mp hd), rfl⟩

theorem encode_ascii {n : Nat} {c : UInt8} (hc : c ∈ b.encode n) : c ≠ 13 ∧ c ≠ 59 := by
  obtain ⟨d, hd, rfl⟩ := b.encode_chars hc
  exact b.ascii _ d (b.val_char d hd)

end Numeral

def decimalChar (d : Nat) : UInt8 := UInt8.ofNat (48 + d)

def decimalVal (c : UInt8) : Option Nat :=
  if 48 ≤ c ∧ c ≤ 57 then some (c.toNat - 48) else none

def hexChar (d : Nat) : UInt8 := if d < 10 then UInt8.ofNat (48 + d) else UInt8.ofNat (87 + d)

def hexVal (c : UInt8) : Option Nat :=
  if 48 ≤ c ∧ c ≤ 57 then some (c.toNat - 48)
  else if 97 ≤ c ∧ c ≤ 102 then some (c.toNat - 87)
  else if 65 ≤ c ∧ c ≤ 70 then some (c.toNat - 55)
  else none

theorem decimalVal_char : ∀ d, d < 10 → decimalVal (decimalChar d) = some d := by decide

theorem hexVal_char : ∀ d, d < 16 → hexVal (hexChar d) = some d := by decide

def decimal : Numeral where
  base := 10
  char := decimalChar
  val := decimalVal
  positive := by decide
  val_char := decimalVal_char
  ascii := by
    intro c d h
    constructor
    · rintro rfl
      cases h
    · rintro rfl
      cases h

def hex : Numeral where
  base := 16
  char := hexChar
  val := hexVal
  positive := by decide
  val_char := hexVal_char
  ascii := by
    intro c d h
    constructor
    · rintro rfl
      cases h
    · rintro rfl
      cases h

end Wire
