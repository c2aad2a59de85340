import Mathlib.Data.List.TakeWhile
import NexusRuntime.Modules.Import

namespace NexusRuntime.Modules

open Path

def noneOfUnits (s : String) (c : UInt16) : Bool := !(text s).contains c

-- a class of ASCII characters, seen on the bytes and on the code units
structure Matches (p : UInt8 → Bool) (q : UInt16 → Bool) : Prop where
  ascii : ∀ c : UInt16, c.toNat < 0x80 → p (UInt8.ofNat c.toNat) = q c
  wide : ∀ b : UInt8, 0x80 ≤ b.toNat → p b = true
  high : ∀ c : UInt16, 0x80 ≤ c.toNat → q c = true

theorem utf8Sequence_ascii {code : Nat} (h : code < 0x80) : utf8Sequence code = [UInt8.ofNat code] := by
  rw [utf8Sequence, if_pos h]

theorem utf8Sequence_wide {code : Nat} (h : 0x80 ≤ code) (hmax : code < 0x110000) :
    ∀ b ∈ utf8Sequence code, 0x80 ≤ b.toNat := by
  intro b hb
  rw [utf8Sequence, if_neg (by omega)] at hb
  split at hb
  · simp only [List.mem_cons, List.not_mem_nil, or_false] at hb
    rcases hb with rfl | rfl <;> rw [UInt8.toNat_ofNat'] <;> omega
  · split at hb
    · simp only [List.mem_cons, List.not_mem_nil, or_false] at hb
      rcases hb with rfl | rfl | rfl <;> rw [UInt8.toNat_ofNat'] <;> omega
    · simp only [List.mem_cons, List.not_mem_nil, or_false] at hb
      rcases hb with rfl | rfl | rfl | rfl <;> rw [UInt8.toNat_ofNat'] <;> omega

theorem utf8_pair {c d : UInt16} {rest : WString}
    (h : (isSurrogate true c && isSurrogate false d) = true) :
    utf8 (c :: d :: rest) =
      utf8Sequence (0x10000 + (c.toNat - 0xD800) * 1024 + (d.toNat - 0xDC00)) ++ utf8 rest := by
  rw [utf8, if_pos h]

theorem surrogate_high {high : Bool} {c : UInt16} (h : isSurrogate high c = true) :
    0xD800 ≤ c.toNat ∧ c.toNat < 0xE000 := by
  cases high <;> simp [isSurrogate] at h <;> omega

theorem pair_code {c d : UInt16} (h : (isSurrogate true c && isSurrogate false d) = true) :
    0x80 ≤ 0x10000 + (c.toNat - 0xD800) * 1024 + (d.toNat - 0xDC00) ∧
      0x10000 + (c.toNat - 0xD800) * 1024 + (d.toNat - 0xDC00) < 0x110000 := by
  obtain ⟨hc, hd⟩ := Bool.and_eq_true_iff.mp h
  have hd := surrogate_high hd
  simp only [isSurrogate, if_true, Bool.and_eq_true, decide_eq_true_eq] at hc
  omega

theorem unit_lt (c : UInt16) : c.toNat < 0x110000 := by
  have := c.toNat_lt
  omega

def Unpaired (c : UInt16) (s : WString) : Prop :=
  ∀ d, s.head? = some d → (isSurrogate true c && isSurrogate false d) = false

theorem utf8_cons {c : UInt16} {s : WString} (h : Unpaired c s) :
    utf8 (c :: s) = utf8Sequence c.toNat ++ utf8 s := by
  cases s with
  | nil => exact (List.append_nil _).symm
  | cons d rest => rw [utf8, h d rfl, if_neg (by decide)]

theorem code_points {P : WString → Prop} (nil : P [])
    (single : ∀ c s, Unpaired c s → P s → P (c :: s))
    (pair : ∀ c d s, (isSurrogate true c && isSurrogate false d) = true → P s → P (c :: d :: s))
    (s : WString) : P s := by
  induction s using utf8.induct with
  | case1 => exact nil
  | case2 c => exact single c [] (by rintro d ⟨⟩) nil
  | case3 c d rest hpair ih => exact pair c d rest hpair ih
  | case4 c d rest hpair ih =>
    apply single c (d :: rest) _ ih
    rintro e ⟨⟩
    simpa using hpair

theorem pair_high {c d : UInt16} (h : (isSurrogate true c && isSurrogate false d) = true) :
    0x80 ≤ c.toNat ∧ 0x80 ≤ d.toNat := by
  obtain ⟨hc, hd⟩ := Bool.and_eq_true_iff.mp h
  exact ⟨Nat.le_trans (by decide) (surrogate_high hc).1, Nat.le_trans (by decide) (surrogate_high hd).1⟩

theorem head_takeWhile {q : UInt16 → Bool} {s : WString} {d : UInt16}
    (h : (s.takeWhile q).head? = some d) : s.head? = some d := by
  cases s with
  | nil => simp at h
  | cons c s =>
    rw [List.takeWhile_cons] at h
    split at h
    · exact h
    · cases h

theorem unpaired_takeWhile {c : UInt16} {s : WString} (h : Unpaired c s) (q : UInt16 → Bool) :
    Unpaired c (s.takeWhile q) := fun d hd => h d (head_takeWhile hd)

theorem utf8_append {a b : WString} (h : ∀ d, b.head? = some d → isSurrogate false d = false) :
    utf8 (a ++ b) = utf8 a ++ utf8 b := by
  induction a using code_points with
  | nil => rfl
  | single c s hs ih =>
    have hboth : Unpaired c (s ++ b) := by
      intro d hd
      cases s with
      | nil => rw [h d hd, Bool.and_false]
      | cons e s => exact hs d hd
    rw [List.cons_append, utf8_cons hboth, utf8_cons hs, ih, List.append_assoc]
  | pair c d s hpair ih =>
    rw [List.cons_append, List.cons_append, utf8_pair hpair, utf8_pair hpair, ih, List.append_assoc]

section Matches
variable {p : UInt8 → Bool} {q : UInt16 → Bool}

theorem passes_wide (h : Matches p q) {code : Nat} (hc : 0x80 ≤ code) (hmax : code < 0x110000) :
    ∀ b ∈ utf8Sequence code, p b = true :=
  fun b hb => h.wide b (utf8Sequence_wide hc hmax b hb)

theorem utf8_takeWhile (h : Matches p q) (s : WString) :
    (utf8 s).takeWhile p = utf8 (s.takeWhile q) := by
  induction s using code_points with
  | nil => rfl
  | single c s hs ih =>
    rw [utf8_cons hs]
    rcases Nat.lt_or_ge c.toNat 0x80 with hlow | hhigh
    · rw [utf8Sequence_ascii hlow, List.singleton_append, List.takeWhile_cons, h.ascii c hlow,
        List.takeWhile_cons]
      cases q c with
      | true =>
        rw [if_pos rfl, if_pos rfl, utf8_cons (unpaired_takeWhile hs q), utf8Sequence_ascii hlow, ih]
        rfl
      | false => rfl
    · rw [List.takeWhile_append_of_pos (passes_wide h hhigh (unit_lt c)), ih,
        List.takeWhile_cons_of_pos (h.high c hhigh), utf8_cons (unpaired_takeWhile hs q)]
  | pair c d s hpair ih =>
    obtain ⟨hcode, hmax⟩ := pair_code hpair
    obtain ⟨hc, hd⟩ := pair_high hpair
    rw [utf8_pair hpair, List.takeWhile_append_of_pos (passes_wide h hcode hmax), ih,
      List.takeWhile_cons_of_pos (h.high c hc), List.takeWhile_cons_of_pos (h.high d hd),
      utf8_pair hpair]

theorem utf8_dropWhile (h : Matches p q) (s : WString) :
    (utf8 s).dropWhile p = utf8 (s.dropWhile q) := by
  induction s using code_points with
  | nil => rfl
  | single c s hs ih =>
    rw [utf8_cons hs]
    rcases Nat.lt_or_ge c.toNat 0x80 with hlow | hhigh
    · rw [utf8Sequence_ascii hlow, List.singleton_append, List.dropWhile_cons, h.ascii c hlow,
        List.dropWhile_cons]
      cases q c with
      | true => rw [if_pos rfl, if_pos rfl, ih]
      | false => rw [if_neg (by decide), if_neg (by decide), utf8_cons hs, utf8Sequence_ascii hlow]; rfl
    · rw [List.dropWhile_append_of_pos (passes_wide h hhigh (unit_lt c)), ih,
        List.dropWhile_cons_of_pos (h.high c hhigh)]
  | pair c d s hpair ih =>
    obtain ⟨hcode, hmax⟩ := pair_code hpair
    obtain ⟨hc, hd⟩ := pair_high hpair
    rw [utf8_pair hpair, List.dropWhile_append_of_pos (passes_wide h hcode hmax), ih,
      List.dropWhile_cons_of_pos (h.high c hc), List.dropWhile_cons_of_pos (h.high d hd)]

theorem utf8Sequence_ne_nil (code : Nat) : utf8Sequence code ≠ [] := by
  unfold utf8Sequence
  split
  · simp
  · split
    · simp
    · split <;> simp

theorem utf8_eq_nil {s : WString} : utf8 s = [] ↔ s = [] := by
  induction s using code_points with
  | nil => exact iff_of_true rfl rfl
  | single c s hs ih => simp [utf8_cons hs, utf8Sequence_ne_nil]
  | pair c d s hpair ih => simp [utf8_pair hpair, utf8Sequence_ne_nil]

theorem mem_utf8 (h : Matches p q) {b : UInt8} {c : UInt16} (hb : ∀ x, p x = true ↔ x ≠ b)
    (hc : ∀ x, q x = true ↔ x ≠ c) (s : WString) : b ∈ utf8 s ↔ c ∈ s := by
  have hbytes : b ∉ utf8 s ↔ (utf8 s).dropWhile p = [] := by
    rw [List.dropWhile_eq_nil_iff]
    constructor
    · intro hnot x hx
      rw [hb]
      rintro rfl
      exact hnot hx
    · intro hall hmem
      exact (hb b).mp (hall b hmem) rfl
  have hunits : c ∉ s ↔ s.dropWhile q = [] := by
    rw [List.dropWhile_eq_nil_iff]
    constructor
    · intro hnot x hx
      rw [hc]
      rintro rfl
      exact hnot hx
    · intro hall hmem
      exact (hc c).mp (hall c hmem) rfl
  rw [← not_iff_not, hbytes, hunits, utf8_dropWhile h, utf8_eq_nil]

end Matches

theorem ofNat_inj8 {m n : Nat} (hm : m < 0x80) (hn : n < 0x80) :
    UInt8.ofNat m = UInt8.ofNat n ↔ m = n := by
  rw [← UInt8.toNat_inj, UInt8.toNat_ofNat', UInt8.toNat_ofNat']
  omega

theorem ofNat_eq_unit {m : Nat} {c : UInt16} (hm : m < 0x80) : UInt16.ofNat m = c ↔ m = c.toNat := by
  rw [← UInt16.toNat_inj, UInt16.toNat_ofNat']
  omega

theorem matches_noneOf {s : String} (h : ∀ c ∈ s.toList, c.toNat < 0x80) :
    Matches (noneOf s) (noneOfUnits s) where
  ascii := by
    intro c hc
    rw [noneOf, noneOfUnits, Bool.eq_iff_iff, Bool.not_eq_true', Bool.not_eq_true', ← Bool.not_eq_true,
      ← Bool.not_eq_true, not_iff_not, List.contains_iff_mem, List.contains_iff_mem, text, List.mem_map,
      List.mem_map]
    constructor
    · rintro ⟨d, hd, heq⟩
      exact ⟨d, hd, (ofNat_eq_unit (h d hd)).mpr ((ofNat_inj8 (h d hd) hc).mp heq)⟩
    · rintro ⟨d, hd, heq⟩
      exact ⟨d, hd, (ofNat_inj8 (h d hd) hc).mpr ((ofNat_eq_unit (h d hd)).mp heq)⟩
  wide := by
    intro b hb
    rw [noneOf, Bool.not_eq_true', ← Bool.not_eq_true, List.contains_iff_mem, List.mem_map]
    rintro ⟨d, hd, rfl⟩
    have := h d hd
    rw [byte, UInt8.toNat_ofNat'] at hb
    omega
  high := by
    intro c hc
    rw [noneOfUnits, Bool.not_eq_true', ← Bool.not_eq_true, List.contains_iff_mem, text, List.mem_map]
    rintro ⟨d, hd, heq⟩
    have := h d hd
    have := (ofNat_eq_unit (h d hd)).mp heq
    omega

theorem matches_nonzero : Matches (· != 0) (· != 0) where
  ascii := by
    intro c hc
    rw [Bool.eq_iff_iff, bne_iff_ne, bne_iff_ne, not_iff_not, ← UInt8.toNat_inj, ← UInt16.toNat_inj,
      UInt8.toNat_ofNat']
    have h8 : (0 : UInt8).toNat = 0 := rfl
    have h16 : (0 : UInt16).toNat = 0 := rfl
    omega
  wide := by
    intro b hb
    rw [bne_iff_ne]
    rintro rfl
    exact absurd hb (by decide)
  high := by
    intro c hc
    rw [bne_iff_ne]
    rintro rfl
    exact absurd hc (by decide)

def space : UInt16 := 0x20

def strip (key : WString) : WString := key.takeWhile (noneOfUnits "#?")

def beforeNul (key : WString) : WString := key.takeWhile (· != 0)

-- the text up to the first ':' or '/', then from the first '/' on up to '?' or '#'
def leftOver (key : WString) : WString :=
  let s := beforeNul key
  if space ∈ s then s
  else s.takeWhile (noneOfUnits "/ :") ++
    ((s.dropWhile (noneOfUnits "/ :")).dropWhile (noneOfUnits "/ ")).takeWhile (noneOfUnits " #?")

def reread (s : WString) : WString := fromLatin1 (utf8 s)

theorem data_utf8 (key : WString) : data (utf8 key) = utf8 (beforeNul key) :=
  utf8_takeWhile matches_nonzero key

theorem space_mem_utf8 (s : WString) : byte ' ' ∈ utf8 s ↔ space ∈ s := by
  have hmatches : Matches (noneOf " ") (noneOfUnits " ") := matches_noneOf (by simp)
  apply mem_utf8 hmatches
  · intro x
    simp [noneOf]
  · intro x
    have htext : text " " = [space] := by decide
    simp [noneOfUnits, htext]

theorem head_dropWhile_low {p : UInt8 → Bool} {q : UInt16 → Bool} (h : Matches p q) {s : WString}
    {d : UInt16} (hd : (s.dropWhile q).head? = some d) : isSurrogate false d = false := by
  have hq : q d = false := by
    have := List.head?_dropWhile_not q s
    rw [hd] at this
    simpa using this
  have hlow : d.toNat < 0x80 := by
    by_contra hge
    rw [h.high d (by omega)] at hq
    cases hq
  rw [Bool.eq_false_iff]
  intro hsurrogate
  have := surrogate_high hsurrogate
  omega

theorem keptPart_eq (key : WString) : keptPart key = reread (leftOver key) := by
  have hslashColon : Matches (noneOf "/ :") (noneOfUnits "/ :") := matches_noneOf (by simp)
  have hslash : Matches (noneOf "/ ") (noneOfUnits "/ ") := matches_noneOf (by simp)
  have hmark : Matches (noneOf " #?") (noneOfUnits " #?") := matches_noneOf (by simp)
  rw [keptPart, leftOver, reread, data_utf8]
  by_cases hspace : space ∈ beforeNul key
  · rw [if_pos ((space_mem_utf8 _).mpr hspace), if_pos hspace]
  · rw [if_neg (fun h => hspace ((space_mem_utf8 _).mp h)), if_neg hspace, domainPart, pathPart,
      utf8_takeWhile hslashColon, utf8_dropWhile hslashColon, utf8_dropWhile hslash, utf8_takeWhile hmark,
      utf8_append]
    intro d hd
    exact head_dropWhile_low hslash (head_takeWhile hd)

-- every referrer that is an absolute path
def ResolvesStripped (scriptPath key : WString) : Prop :=
  ∀ referrer : WString, referrer.head? = some pathSeparator → ∃ d, extractDirectoryName referrer = some d ∧
    moduleLoaderResolve scriptPath (.string key) (some (.string referrer)) =
      .ok (.string (resolvePath d (moduleName (strip key))))

structure Plain (key : WString) : Prop where
  ascii : ∀ c ∈ key, c.toNat < 0x80
  noNul : 0 ∉ key
  noSpace : space ∉ key
  first : ∀ c ∈ key.takeWhile (noneOfUnits "/"), noneOfUnits ":?#" c = true

theorem absolute_some {referrer : WString} (h : referrer.head? = some pathSeparator) :
    ∃ d, extractDirectoryName referrer = some d := by
  obtain ⟨q, hq, -⟩ := absolute_directory h
  exact ⟨_, hq⟩

theorem destination_of_resolvesStripped {scriptPath key : WString} (hkey : schemeOf key = [])
    (h : ResolvesStripped scriptPath key) : destination (reread (leftOver key)) = destination (strip key) := by
  apply destination_of_deepReferrer
  intro d n
  obtain ⟨dir, hdir, hresolve⟩ := h (deepReferrer d n) rfl
  rw [moduleLoaderResolve_key, if_pos hkey, keptPart_eq] at hresolve
  rw [hresolve, importModule_some, hdir]

theorem resolvesStripped_of_destination (scriptPath : WString) {key : WString} (hkey : schemeOf key = [])
    (h : destination (reread (leftOver key)) = destination (strip key)) :
    ResolvesStripped scriptPath key := by
  intro referrer hroot
  obtain ⟨d, hd⟩ := absolute_some hroot
  refine ⟨d, hd, ?_⟩
  rw [moduleLoaderResolve_key, if_pos hkey, keptPart_eq, importModule_of_destination h,
    importModule_some, hd]

theorem noneOfUnits_iff {s : String} {c : UInt16} : noneOfUnits s c = true ↔ c ∉ text s := by
  rw [noneOfUnits, Bool.not_eq_true', ← Bool.not_eq_true, List.contains_iff_mem]

theorem reread_ascii {s : WString} (h : ∀ c ∈ s, c.toNat < 0x80) : reread s = s := by
  induction s with
  | nil => rfl
  | cons c s ih =>
    have hlow := h c (List.mem_cons_self ..)
    have hunpaired : Unpaired c s := by
      intro d hd
      rw [Bool.and_eq_false_iff]
      left
      rw [Bool.eq_false_iff]
      intro hsurrogate
      have := surrogate_high hsurrogate
      omega
    have hunit : UInt16.ofNat (UInt8.ofNat c.toNat).toNat = c := by
      rw [← UInt16.toNat_inj, UInt16.toNat_ofNat', UInt8.toNat_ofNat']
      omega
    have hrest := ih fun d hd => h d (List.mem_cons_of_mem c hd)
    rw [reread, fromLatin1] at hrest ⊢
    rw [utf8_cons hunpaired, utf8Sequence_ascii hlow, List.map_append, hrest, List.map_singleton, hunit]
    rfl

theorem takeWhile_congr {p q : UInt16 → Bool} {s : WString} (h : ∀ c ∈ s, p c = q c) :
    s.takeWhile p = s.takeWhile q := by
  induction s with
  | nil => rfl
  | cons c s ih =>
    have hc := h c (List.mem_cons_self ..)
    have hs := ih fun d hd => h d (List.mem_cons_of_mem c hd)
    rw [List.takeWhile_cons, List.takeWhile_cons, hc, hs]

theorem beforeNul_eq {key : WString} (h : 0 ∉ key) : beforeNul key = key := by
  rw [beforeNul, List.takeWhile_eq_self_iff]
  intro c hc
  rw [bne_iff_ne]
  rintro rfl
  exact h hc

-- after the first segment comes nothing or a '/'
theorem rest_stops (key : WString) {q : UInt16 → Bool} (hq : q pathSeparator = false) :
    (key.dropWhile (noneOfUnits "/")).takeWhile q = [] ∧
      (key.dropWhile (noneOfUnits "/")).dropWhile q = key.dropWhile (noneOfUnits "/") := by
  cases hrest : key.dropWhile (noneOfUnits "/") with
  | nil => exact ⟨rfl, rfl⟩
  | cons c rest =>
    have hc : noneOfUnits "/" c = false := by
      have := List.head?_dropWhile_not (noneOfUnits "/") key
      rw [hrest] at this
      simpa using this
    have htext : text "/" = [pathSeparator] := by decide
    obtain rfl : c = pathSeparator := by simpa [noneOfUnits, htext] using hc
    exact ⟨List.takeWhile_cons_of_neg (by simp [hq]), List.dropWhile_cons_of_neg (by simp [hq])⟩

theorem takeWhile_split {p q : UInt16 → Bool} {s : WString} (h : ∀ c ∈ s.takeWhile p, q c = true) :
    s.takeWhile q = s.takeWhile p ++ (s.dropWhile p).takeWhile q := by
  calc s.takeWhile q
      = (s.takeWhile p ++ s.dropWhile p).takeWhile q := by rw [List.takeWhile_append_dropWhile]
    _ = s.takeWhile p ++ (s.dropWhile p).takeWhile q := List.takeWhile_append_of_pos h

theorem dropWhile_split {p q : UInt16 → Bool} {s : WString} (h : ∀ c ∈ s.takeWhile p, q c = true) :
    s.dropWhile q = (s.dropWhile p).dropWhile q := by
  calc s.dropWhile q
      = (s.takeWhile p ++ s.dropWhile p).dropWhile q := by rw [List.takeWhile_append_dropWhile]
    _ = (s.dropWhile p).dropWhile q := List.dropWhile_append_of_pos h

namespace Plain
variable {key : WString}

theorem not_space (h : Plain key) {c : UInt16} (hc : c ∈ key) : c ≠ space := by
  rintro rfl
  exact h.noSpace hc

theorem domain (h : Plain key) : ∀ c ∈ key.takeWhile (noneOfUnits "/"), noneOfUnits "/ :" c = true := by
  have hslash : text "/" = [pathSeparator] := by decide
  have hmarks : text ":?#" = [0x3A, 0x3F, 0x23] := by decide
  have hstops : text "/ :" = [pathSeparator, space, 0x3A] := by decide
  intro c hc
  have hspace := h.not_space ((List.takeWhile_prefix _).subset hc)
  have hnot := noneOfUnits_iff.mp (List.mem_takeWhile_imp hc)
  have hfirst := noneOfUnits_iff.mp (h.first c hc)
  rw [noneOfUnits_iff, hstops]
  rw [hslash] at hnot
  rw [hmarks] at hfirst
  simp only [List.mem_cons, List.not_mem_nil, or_false, not_or] at hnot hfirst ⊢
  exact ⟨hnot, hspace, hfirst.1⟩

theorem kept (h : Plain key) : ∀ c ∈ key.takeWhile (noneOfUnits "/"), noneOfUnits "#?" c = true := by
  have hmarks : text ":?#" = [0x3A, 0x3F, 0x23] := by decide
  have hends : text "#?" = [0x23, 0x3F] := by decide
  intro c hc
  have hfirst := noneOfUnits_iff.mp (h.first c hc)
  rw [noneOfUnits_iff, hends]
  rw [hmarks] at hfirst
  simp only [List.mem_cons, List.not_mem_nil, or_false, not_or] at hfirst ⊢
  exact ⟨hfirst.2.2, hfirst.2.1⟩

theorem ends (h : Plain key) :
    ∀ c ∈ key.dropWhile (noneOfUnits "/"), noneOfUnits " #?" c = noneOfUnits "#?" c := by
  have hspaced : text " #?" = [space, 0x23, 0x3F] := by decide
  have hends : text "#?" = [0x23, 0x3F] := by decide
  intro c hc
  have hspace := h.not_space ((List.dropWhile_suffix _).subset hc)
  rw [Bool.eq_iff_iff, noneOfUnits_iff, noneOfUnits_iff, hspaced, hends]
  simp [hspace]

end Plain

theorem leftOver_of_plain {key : WString} (h : Plain key) : leftOver key = strip key := by
  have hstop := rest_stops key (q := noneOfUnits "/ :") (by decide)
  have hagain := rest_stops key (q := noneOfUnits "/ ") (by decide)
  rw [leftOver, beforeNul_eq h.noNul]
  simp only [h.noSpace, if_false]
  rw [takeWhile_split h.domain, hstop.1, List.append_nil, dropWhile_split h.domain, hstop.2, hagain.2,
    takeWhile_congr h.ends, strip, takeWhile_split h.kept]

theorem plain_resolvesStripped (scriptPath : WString) {key : WString} (hkey : schemeOf key = [])
    (h : Plain key) : ResolvesStripped scriptPath key := by
  apply resolvesStripped_of_destination scriptPath hkey
  rw [leftOver_of_plain h, reread_ascii]
  intro c hc
  exact h.ascii c ((List.takeWhile_prefix _).subset hc)

theorem resolvesStripped_iff (scriptPath key : WString) (hkey : schemeOf key = []) :
    ResolvesStripped scriptPath key ↔
      destination (reread (leftOver key)) = destination (strip key) :=
  ⟨destination_of_resolvesStripped hkey, resolvesStripped_of_destination scriptPath hkey⟩

theorem query_stripped : ResolvesStripped [] (text "./data.mjs?v=1") :=
  (resolvesStripped_iff [] (text "./data.mjs?v=1") (by decide)).mpr (by decide)

theorem specifier_mangled :
    moduleLoaderResolve [] (.string (text "lib:util.mjs")) (some (.string (text "/app/main.mjs"))) =
        .ok (.string (text "/app/lib")) ∧
      moduleLoaderResolve [] (.string (text "data.mjs?v=1")) (some (.string (text "/app/main.mjs"))) =
        .ok (.string (text "/app/data.mjs?v=1")) ∧
      moduleLoaderResolve [] (.string (text "./data.mjs?v=1")) (some (.string (text "/app/main.mjs"))) =
        .ok (.string (text "/app/data.mjs")) ∧
      ¬ ResolvesStripped [] (text "lib:util.mjs") ∧ ¬ ResolvesStripped [] (text "data.mjs?v=1") := by
  refine ⟨by decide, by decide, by decide, ?_, ?_⟩
  · intro h
    exact absurd (destination_of_resolvesStripped (by decide) h) (by decide)
  · intro h
    exact absurd (destination_of_resolvesStripped (by decide) h) (by decide)

end NexusRuntime.Modules
