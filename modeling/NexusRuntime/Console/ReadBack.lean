import NexusRuntime.Console.Inspect

namespace NexusRuntime.Console

open Modules (WString text)

def tokenUnit (c : UInt16) : Bool := wordUnit c || c == 0x2B || c == 0x2D || c == 0x2E

structure Token where
  units : WString
  nonempty : units ≠ []
  plain : ∀ c ∈ units, tokenUnit c = true

mutual

inductive Data where
  | token (t : Token)
  | string (s : WString)
  | array (items : Items)
  | object (fields : Fields)

inductive Items where
  | nil
  | hole (rest : Items)
  | cons (d : Data) (rest : Items)

inductive Fields where
  | nil
  | cons (key : WString) (d : Data) (rest : Fields)

end

section Denotes
variable {n : Nat} (h : Heap n)

def tokenOf : Value n → Option WString
  | .undefined => some (text "undefined")
  | .null => some (text "null")
  | .boolean b => some (boolText b)
  | .number shown => some shown
  | _ => none

mutual

def Denotes : Data → Value n → Prop
  | .token t, v => tokenOf v = some t.units
  | .string s, v => v = .string s
  | .array items, v => ∃ i elements, v = .object i ∧ h i = .array elements ∧ DenotesItems items elements
  | .object fields, v => ∃ i fs, v = .object i ∧ h i = .plain fs ∧ DenotesFields fields fs

def DenotesItems : Items → List (Option (Value n)) → Prop
  | .nil, es => es = []
  | .hole rest, es => ∃ es', es = none :: es' ∧ DenotesItems rest es'
  | .cons d rest, es => ∃ v es', es = some v :: es' ∧ Denotes d v ∧ DenotesItems rest es'

def DenotesFields : Fields → List (WString × Value n) → Prop
  | .nil, fs => fs = []
  | .cons key d rest, fs => ∃ v fs', fs = (key, v) :: fs' ∧ Denotes d v ∧ DenotesFields rest fs'

end

end Denotes

mutual

def Data.shown : Data → WString
  | .token t => t.units
  | .string s => inspectString s
  | .array .nil => text "[]"
  | .array items => text "[ " ++ commas items.shown ++ text " ]"
  | .object .nil => text "\x7b\x7d"
  | .object fields => text "\x7b " ++ commas fields.shown ++ text " \x7d"

def Items.shown : Items → List WString
  | .nil => []
  | .hole rest => [] :: rest.shown
  | .cons d rest => d.shown :: rest.shown

def Fields.shown : Fields → List WString
  | .nil => []
  | .cons key d rest => (keyText key ++ text ": " ++ d.shown) :: rest.shown

end

mutual

def Data.nesting : Data → Nat
  | .token _ => 0
  | .string _ => 0
  | .array items => items.nesting + 1
  | .object fields => fields.nesting + 1

def Items.nesting : Items → Nat
  | .nil => 0
  | .hole rest => rest.nesting
  | .cons d rest => max d.nesting rest.nesting

def Fields.nesting : Fields → Nat
  | .nil => 0
  | .cons _ d rest => max d.nesting rest.nesting

end

section Shows
variable {n : Nat} {h : Heap n}

theorem token_ext {t u : Token} (h : t.units = u.units) : t = u := by
  cases t
  cases u
  cases h
  rfl

mutual

theorem denotes_unique {v : Value n} : ∀ {d e : Data}, Denotes h d v → Denotes h e v → d = e
  | .token t, e, hd, he => by
    rw [Denotes] at hd
    cases e with
    | token u =>
      rw [Denotes, hd] at he
      rw [token_ext (Option.some.inj he)]
    | string s =>
      rw [Denotes] at he
      subst he
      cases hd
    | array items =>
      obtain ⟨i, es, rfl, -⟩ := he
      cases hd
    | object fields =>
      obtain ⟨i, fs, rfl, -⟩ := he
      cases hd
  | .string s, e, hd, he => by
    rw [Denotes] at hd
    subst hd
    cases e with
    | token u => cases he
    | string s' =>
      rw [Denotes] at he
      cases he
      rfl
    | array items =>
      obtain ⟨i, es, hv, -⟩ := he
      cases hv
    | object fields =>
      obtain ⟨i, fs, hv, -⟩ := he
      cases hv
  | .array items, e, hd, he => by
    obtain ⟨i, es, rfl, hi, hitems⟩ := hd
    cases e with
    | token u => cases he
    | string s =>
      rw [Denotes] at he
      cases he
    | array items' =>
      obtain ⟨j, es', hj, hj', hitems'⟩ := he
      cases hj
      rw [hi] at hj'
      cases hj'
      rw [denotesItems_unique hitems hitems']
    | object fields =>
      obtain ⟨j, fs, hj, hj', -⟩ := he
      cases hj
      rw [hi] at hj'
      cases hj'
  | .object fields, e, hd, he => by
    obtain ⟨i, fs, rfl, hi, hfields⟩ := hd
    cases e with
    | token u => cases he
    | string s =>
      rw [Denotes] at he
      cases he
    | array items =>
      obtain ⟨j, es, hj, hj', -⟩ := he
      cases hj
      rw [hi] at hj'
      cases hj'
    | object fields' =>
      obtain ⟨j, fs', hj, hj', hfields'⟩ := he
      cases hj
      rw [hi] at hj'
      cases hj'
      rw [denotesFields_unique hfields hfields']

theorem denotesItems_unique {es : List (Option (Value n))} :
    ∀ {xs ys : Items}, DenotesItems h xs es → DenotesItems h ys es → xs = ys
  | .nil, ys, hx, hy => by
    rw [DenotesItems] at hx
    subst hx
    cases ys with
    | nil => rfl
    | hole rest =>
      obtain ⟨es', hes, -⟩ := hy
      cases hes
    | cons d rest =>
      obtain ⟨v, es', hes, -⟩ := hy
      cases hes
  | .hole xs, ys, hx, hy => by
    obtain ⟨es', rfl, hxs⟩ := hx
    cases ys with
    | nil => cases hy
    | hole rest =>
      obtain ⟨es'', hes, hys⟩ := hy
      cases hes
      rw [denotesItems_unique hxs hys]
    | cons d rest =>
      obtain ⟨v, es'', hes, -⟩ := hy
      cases hes
  | .cons d xs, ys, hx, hy => by
    obtain ⟨v, es', rfl, hd, hxs⟩ := hx
    cases ys with
    | nil => cases hy
    | hole rest =>
      obtain ⟨es'', hes, -⟩ := hy
      cases hes
    | cons e rest =>
      obtain ⟨w, es'', hes, he, hys⟩ := hy
      cases hes
      rw [denotes_unique hd he, denotesItems_unique hxs hys]

theorem denotesFields_unique {fs : List (WString × Value n)} :
    ∀ {xs ys : Fields}, DenotesFields h xs fs → DenotesFields h ys fs → xs = ys
  | .nil, ys, hx, hy => by
    rw [DenotesFields] at hx
    subst hx
    cases ys with
    | nil => rfl
    | cons key d rest =>
      obtain ⟨v, fs', hfs, -⟩ := hy
      cases hfs
  | .cons key d xs, ys, hx, hy => by
    obtain ⟨v, fs', rfl, hd, hxs⟩ := hx
    cases ys with
    | nil => cases hy
    | cons key' e rest =>
      obtain ⟨w, fs'', hfs, he, hys⟩ := hy
      cases hfs
      rw [denotes_unique hd he, denotesFields_unique hxs hys]

end

theorem inspect_mono_le {limit fuel more depth : Nat} {seen : List (Fin n)} {v : Value n}
    {t : WString} (hmore : fuel ≤ more) (hrun : inspect_ h limit fuel depth seen v = some t) :
    inspect_ h limit more depth seen v = some t := by
  induction hmore with
  | refl => exact hrun
  | step _ ih => exact inspect_mono ih

theorem each_mono_le {limit fuel more depth : Nat} {origin : Option (Fin n)} {seen : List (Fin n)}
    {vs : List (Option (Value n))} {ts : List WString} (hmore : fuel ≤ more)
    (heach : inspectEach (inspect_ h limit fuel depth) origin seen vs = some ts) :
    inspectEach (inspect_ h limit more depth) origin seen vs = some ts :=
  each_mono (fun _ _ _ ht => inspect_mono_le hmore ht) heach

-- what has been seen denotes something larger than what is shown inside it
def Around (h : Heap n) (seen : List (Fin n)) (size : Nat) : Prop :=
  ∀ j ∈ seen, ∃ D, Denotes h D (.object j) ∧ size < sizeOf D

def Within (limit depth nesting : Nat) : Prop := limit = 0 ∨ depth + nesting ≤ limit

theorem around_mono {seen : List (Fin n)} {a b : Nat} (h' : Around h seen b) (hab : a ≤ b) :
    Around h seen a := by
  intro j hj
  obtain ⟨D, hD, hlt⟩ := h' j hj
  exact ⟨D, hD, by omega⟩

theorem around_append {seen : List (Fin n)} {i : Fin n} {d : Data} {a : Nat}
    (h' : Around h seen (sizeOf d)) (hd : Denotes h d (.object i)) (ha : a < sizeOf d) :
    Around h (seen ++ [i]) a := by
  intro j hj
  rcases List.mem_append.mp hj with hj | hj
  · obtain ⟨D, hD, hlt⟩ := h' j hj
    exact ⟨D, hD, by omega⟩
  · obtain rfl := List.mem_singleton.mp hj
    exact ⟨d, hd, ha⟩

theorem not_mem_of_around {seen : List (Fin n)} {i : Fin n} {d : Data}
    (h' : Around h seen (sizeOf d)) (hd : Denotes h d (.object i)) : i ∉ seen := by
  intro hmem
  obtain ⟨D, hD, hlt⟩ := h' i hmem
  rw [denotes_unique hd hD] at hlt
  omega

theorem not_limited {limit depth nesting : Nat} {p : Prop} (hfits : Within limit depth (nesting + 1)) :
    ¬ (limit ≤ depth ∧ 0 < limit ∧ p) := by
  rcases hfits with rfl | hle
  · omega
  · omega

theorem around_again {seen : List (Fin n)} {i : Fin n} {a b : Nat}
    (h' : Around h (seen ++ [i]) b) (hab : a ≤ b) : Around h (seen ++ [i] ++ [i]) a := by
  intro j hj
  apply around_mono h' hab
  rcases List.mem_append.mp hj with hj | hj
  · exact hj
  · exact List.mem_append_right _ hj

theorem within_left {limit depth a b : Nat} (hfits : Within limit depth (max a b)) :
    Within limit depth a := by
  rcases hfits with hzero | hle
  · exact .inl hzero
  · exact .inr (by omega)

theorem within_right {limit depth a b : Nat} (hfits : Within limit depth (max a b)) :
    Within limit depth b := by
  rw [Nat.max_comm] at hfits
  exact within_left hfits

theorem within_inner {limit depth a : Nat} (hfits : Within limit depth (a + 1)) :
    Within limit (depth + 1) a := by
  rcases hfits with hzero | hle
  · exact .inl hzero
  · exact .inr (by omega)

theorem inspect_token {limit fuel depth : Nat} {seen : List (Fin n)} {v : Value n} {t : WString}
    (hv : tokenOf v = some t) : inspect_ h limit (fuel + 1) depth seen v = some t := by
  cases v with
  | string s => cases hv
  | symbol shown => cases hv
  | object i => cases hv
  | undefined => exact hv
  | null => exact hv
  | boolean b => exact hv
  | number shown => exact hv

theorem array_shown (xs : Items) {es : List (Option (Value n))} (hes : DenotesItems h xs es) :
    (Data.array xs).shown = (Object.array es).render xs.shown := by
  cases xs with
  | nil =>
    rw [DenotesItems] at hes
    subst hes
    rfl
  | hole rest =>
    obtain ⟨es', rfl, -⟩ := hes
    rfl
  | cons d rest =>
    obtain ⟨v, es', rfl, -⟩ := hes
    rfl

theorem object_shown (xs : Fields) {fs : List (WString × Value n)} {ts : List WString}
    (hts : labelled (fs.map Prod.fst) ts = xs.shown) :
    (Data.object xs).shown = (Object.plain fs).render ts := by
  rw [Object.render, hts]
  cases xs <;> rfl

mutual

theorem inspect_shown {limit : Nat} : ∀ (d : Data) {v : Value n} {depth : Nat} {seen : List (Fin n)},
    Denotes h d v → Within limit depth d.nesting → Around h seen (sizeOf d) →
    ∃ fuel, inspect_ h limit fuel depth seen v = some d.shown
  | .token t, v, depth, seen, hd, _, _ => ⟨1, inspect_token hd⟩
  | .string s, v, depth, seen, hd, _, _ => by
    rw [Denotes] at hd
    subst hd
    exact ⟨1, rfl⟩
  | .array xs, v, depth, seen, hd, hfits, hseen => by
    obtain ⟨i, es, rfl, hi, hes⟩ := id hd
    obtain ⟨fuel, hfuel⟩ := items_shown xs hes (within_inner hfits)
      (around_append hseen hd (by simp))
    refine ⟨fuel + 1, ?_⟩
    rw [inspect_object (not_limited hfits) (not_mem_of_around hseen hd), hi, array_shown xs hes]
    exact Option.map_eq_some_iff.mpr ⟨_, hfuel, rfl⟩
  | .object xs, v, depth, seen, hd, hfits, hseen => by
    obtain ⟨i, fs, rfl, hi, hfs⟩ := id hd
    obtain ⟨fuel, ts, hfuel, hts⟩ := fields_shown xs hfs (within_inner hfits)
      (around_append hseen hd (by simp))
    refine ⟨fuel + 1, ?_⟩
    rw [inspect_object (not_limited hfits) (not_mem_of_around hseen hd), hi, object_shown xs hts]
    exact Option.map_eq_some_iff.mpr ⟨_, hfuel, rfl⟩

theorem items_shown {limit : Nat} : ∀ (xs : Items) {es : List (Option (Value n))} {depth : Nat}
    {seen : List (Fin n)} {i : Fin n},
    DenotesItems h xs es → Within limit depth xs.nesting → Around h (seen ++ [i]) (sizeOf xs) →
    ∃ fuel, inspectEach (inspect_ h limit fuel depth) (some i) seen es = some xs.shown
  | .nil, es, depth, seen, i, hes, _, _ => by
    rw [DenotesItems] at hes
    subst hes
    exact ⟨0, rfl⟩
  | .hole xs, es, depth, seen, i, hes, hfits, hseen => by
    obtain ⟨es', rfl, hes'⟩ := hes
    obtain ⟨fuel, hfuel⟩ := items_shown xs hes' hfits (around_mono hseen (by simp))
    refine ⟨fuel, ?_⟩
    rw [inspectEach, hfuel]
    rfl
  | .cons d xs, es, depth, seen, i, hes, hfits, hseen => by
    obtain ⟨v, es', rfl, hd, hes'⟩ := hes
    obtain ⟨f₁, hf₁⟩ := inspect_shown d hd (within_left hfits) (around_mono hseen (by simp; omega))
    obtain ⟨f₂, hf₂⟩ := items_shown xs hes' (within_right hfits) (around_again hseen (by simp))
    refine ⟨max f₁ f₂, ?_⟩
    have h₁ := inspect_mono_le (Nat.le_max_left f₁ f₂) hf₁
    have h₂ := each_mono_le (Nat.le_max_right f₁ f₂) hf₂
    simp only [inspectEach, Option.toList_some, h₁, h₂, Option.bind_some, Option.map_some]
    rfl

theorem fields_shown {limit : Nat} : ∀ (xs : Fields) {fs : List (WString × Value n)} {depth : Nat}
    {seen : List (Fin n)} {i : Fin n},
    DenotesFields h xs fs → Within limit depth xs.nesting → Around h (seen ++ [i]) (sizeOf xs) →
    ∃ fuel ts, inspectEach (inspect_ h limit fuel depth) (some i) seen (fs.map fun f => some f.2) =
      some ts ∧ labelled (fs.map Prod.fst) ts = xs.shown
  | .nil, fs, depth, seen, i, hfs, _, _ => by
    rw [DenotesFields] at hfs
    subst hfs
    exact ⟨0, [], rfl, rfl⟩
  | .cons key d xs, fs, depth, seen, i, hfs, hfits, hseen => by
    obtain ⟨v, fs', rfl, hd, hfs'⟩ := hfs
    obtain ⟨f₁, hf₁⟩ := inspect_shown d hd (within_left hfits) (around_mono hseen (by simp; omega))
    obtain ⟨f₂, ts, hf₂, hts⟩ :=
      fields_shown xs hfs' (within_right hfits) (around_again hseen (by simp))
    have h₁ := inspect_mono_le (Nat.le_max_left f₁ f₂) hf₁
    have h₂ := each_mono_le (Nat.le_max_right f₁ f₂) hf₂
    refine ⟨max f₁ f₂, d.shown :: ts, ?_, ?_⟩
    · simp only [List.map_cons, inspectEach, Option.toList_some, h₁, h₂, Option.bind_some,
        Option.map_some]
    · rw [List.map_cons, labelled, List.zipWith_cons_cons]
      exact congrArg _ hts

end

end Shows

def strip (lit s : WString) : Option WString :=
  if s.take lit.length = lit then some (s.drop lit.length) else none

def hexUnit (c : UInt16) : Option Nat :=
  let n := c.toNat
  if 0x30 ≤ n ∧ n ≤ 0x39 then some (n - 0x30)
  else if 0x61 ≤ n ∧ n ≤ 0x66 then some (n - 0x61 + 10)
  else none

-- \b, \t, \n, \f and \r; any other unit stands for itself
def unescape (c : UInt16) : UInt16 :=
  if c = 0x62 then 8 else if c = 0x74 then 9 else if c = 0x6E then 10 else if c = 0x66 then 12
  else if c = 0x72 then 13 else c

def hexEscape : UInt16 := 0x78

-- what follows the opening quote of a literal
def readString : WString → Option (WString × WString)
  | [] => none
  | c :: rest =>
    if c = quote then some ([], rest)
    else if c = backslash then
      match rest with
      | [] => none
      | e :: rest =>
        if e = hexEscape then
          match rest with
          | a :: b :: rest =>
            (hexUnit a).bind fun x => (hexUnit b).bind fun y =>
              (readString rest).map fun r => (UInt16.ofNat (16 * x + y) :: r.1, r.2)
          | _ => none
        else (readString rest).map fun r => (unescape e :: r.1, r.2)
    else (readString rest).map fun r => (c :: r.1, r.2)

def readToken (s : WString) : Option (Data × WString) :=
  if h : s.takeWhile tokenUnit ≠ [] then
    some (.token ⟨s.takeWhile tokenUnit, h, fun _ hc => List.all_eq_true.mp List.all_takeWhile _ hc⟩, s.dropWhile tokenUnit)
  else none

def readKey (s : WString) : Option (WString × WString) :=
  match strip [quote] s with
  | some rest => readString rest
  | none => some (s.takeWhile wordUnit, s.dropWhile wordUnit)

mutual

def readValue : Nat → WString → Option (Data × WString)
  | 0, _ => none
  | fuel + 1, s =>
    match strip [quote] s with
    | some rest => (readString rest).map fun r => (.string r.1, r.2)
    | none =>
      match strip (text "[]") s with
      | some rest => some (.array .nil, rest)
      | none =>
        match strip (text "[ ") s with
        | some rest => (readItems fuel rest).map fun r => (.array r.1, r.2)
        | none =>
          match strip (text "\x7b\x7d") s with
          | some rest => some (.object .nil, rest)
          | none =>
            match strip (text "\x7b ") s with
            | some rest => (readFields fuel rest).map fun r => (.object r.1, r.2)
            | none => readToken s

def readItems : Nat → WString → Option (Items × WString)
  | 0, _ => none
  | fuel + 1, s =>
    match strip (text ", ") s with
    | some rest => (readItems fuel rest).map fun r => (.hole r.1, r.2)
    | none =>
      match strip (text " ]") s with
      | some rest => some (.hole .nil, rest)
      | none =>
        (readValue fuel s).bind fun r =>
          match strip (text ", ") r.2 with
          | some rest => (readItems fuel rest).map fun q => (.cons r.1 q.1, q.2)
          | none => (strip (text " ]") r.2).map fun rest => (.cons r.1 .nil, rest)

def readFields : Nat → WString → Option (Fields × WString)
  | 0, _ => none
  | fuel + 1, s =>
    (readKey s).bind fun k => (strip (text ": ") k.2).bind fun rest =>
      (readValue fuel rest).bind fun r =>
        match strip (text ", ") r.2 with
        | some rest => (readFields fuel rest).map fun q => (.cons k.1 r.1 q.1, q.2)
        | none => (strip (text " \x7d") r.2).map fun rest => (.cons k.1 r.1 .nil, rest)

end

def read (s : WString) : Option (Data × WString) := readValue s.length s

section Strings

def escaped (c : UInt16) : WString :=
  if c == quote || c == backslash then [backslash, c]
  else if c.toNat ≤ 0x1F then lowbyte c
  else [c]

theorem inspectString_eq (s : WString) : inspectString s = quote :: s.flatMap escaped ++ [quote] := by
  have hstep : ∀ c : UInt16,
      (if c == quote || c == backslash then [backslash, c] else [c]).flatMap
        (fun d => if decide (d.toNat ≤ 0x1F) then lowbyte d else [d]) = escaped c := by
    intro c
    unfold escaped
    by_cases hq : (c == quote || c == backslash) = true
    · have hc : ¬ c.toNat ≤ 0x1F := by
        rcases Bool.or_eq_true_iff.mp hq with h | h
        · rw [eq_of_beq h]
          decide
        · rw [eq_of_beq h]
          decide
      have hb : ¬ backslash.toNat ≤ 0x1F := by decide
      simp [hq, hc, hb]
    · simp [hq]
  simp only [inspectString, replace, List.flatMap_assoc, hstep]

def readsBack (t : WString) (c : UInt16) : Bool :=
  match t with
  | [a, e] => a == backslash && e != hexEscape && unescape e == c
  | [a, x, d, e] => a == backslash && x == hexEscape &&
      (((hexUnit d).bind fun u => (hexUnit e).map fun v => UInt16.ofNat (16 * u + v)) == some c)
  | _ => false

theorem lowbyte_readsBack {c : UInt16} (hc : c.toNat ≤ 0x1F) : readsBack (lowbyte c) c = true := by
  have hall : ∀ n : Fin 32, readsBack (lowbyte (UInt16.ofNat n.val)) (UInt16.ofNat n.val) = true := by
    decide
  have := hall ⟨c.toNat, by omega⟩
  rwa [UInt16.ofNat_toNat] at this

theorem readString_readsBack {t : WString} {c : UInt16} (ht : readsBack t c = true) (s : WString) :
    readString (t ++ s) = (readString s).map fun r => (c :: r.1, r.2) := by
  have hquote : backslash ≠ quote := by decide
  unfold readsBack at ht
  split at ht
  · next a e =>
    simp only [Bool.and_eq_true, beq_iff_eq, bne_iff_ne] at ht
    obtain ⟨⟨rfl, he⟩, rfl⟩ := ht
    rw [List.cons_append, List.cons_append, List.nil_append, readString.eq_def]
    simp [hquote, he]
  · next a x d e =>
    simp only [Bool.and_eq_true, beq_iff_eq] at ht
    obtain ⟨⟨rfl, rfl⟩, ht⟩ := ht
    obtain ⟨u, hu, ht⟩ := Option.bind_eq_some_iff.mp ht
    obtain ⟨v, hv, rfl⟩ := Option.map_eq_some_iff.mp ht
    simp [readString, hquote, hu, hv]
  · cases ht

theorem readString_escaped (c : UInt16) (s : WString) :
    readString (escaped c ++ s) = (readString s).map fun r => (c :: r.1, r.2) := by
  by_cases hq : (c == quote || c == backslash) = true
  · rw [escaped, if_pos hq]
    apply readString_readsBack
    rcases Bool.or_eq_true_iff.mp hq with h | h
    · rw [eq_of_beq h]
      decide
    · rw [eq_of_beq h]
      decide
  · rw [escaped, if_neg hq]
    split
    · next hc => exact readString_readsBack (lowbyte_readsBack hc) s
    · simp only [Bool.or_eq_true, beq_iff_eq, not_or] at hq
      rw [List.singleton_append, readString.eq_def]
      simp [hq.1, hq.2]

theorem readString_inspectString (s rest : WString) :
    readString (s.flatMap escaped ++ quote :: rest) = some (s, rest) := by
  induction s with
  | nil =>
    rw [List.flatMap_nil, List.nil_append, readString.eq_def]
    simp
  | cons c s ih =>
    rw [List.flatMap_cons, List.append_assoc, readString_escaped, ih]
    rfl

end Strings

section Read

theorem strip_append (lit s : WString) : strip lit (lit ++ s) = some s := by
  rw [strip, List.take_left, if_pos rfl, List.drop_left]

theorem strip_cons (a c : UInt16) (lit s : WString) :
    strip (a :: lit) (c :: s) = if c = a then strip lit s else none := by
  simp only [strip, List.length_cons, List.take_succ_cons, List.drop_succ_cons, List.cons.injEq]
  split <;> simp_all

theorem strip_head {a c : UInt16} (h : c ≠ a) (lit s : WString) : strip (a :: lit) (c :: s) = none := by
  rw [strip_cons, if_neg h]

theorem emptyArray_eq : text "[]" = [0x5B, 0x5D] := by decide

theorem openArray_eq : text "[ " = [0x5B, 0x20] := by decide

theorem closeArray_eq : text " ]" = [0x20, 0x5D] := by decide

theorem emptyObject_eq : text "\x7b\x7d" = [0x7B, 0x7D] := by decide

theorem openObject_eq : text "\x7b " = [0x7B, 0x20] := by decide

theorem closeObject_eq : text " \x7d" = [0x20, 0x7D] := by decide

theorem comma_eq : text ", " = [0x2C, 0x20] := by decide

theorem colon_eq : text ": " = [0x3A, 0x20] := by decide

def Ends (rest : WString) : Prop := ∀ c ∈ rest.head?, tokenUnit c = false

theorem takeWhile_units {p : UInt16 → Bool} {s rest : WString} (hs : ∀ c ∈ s, p c = true)
    (hrest : ∀ c ∈ rest.head?, p c = false) :
    (s ++ rest).takeWhile p = s ∧ (s ++ rest).dropWhile p = rest := by
  rw [List.takeWhile_append_of_pos hs, List.dropWhile_append_of_pos hs]
  cases rest with
  | nil => simp
  | cons c rest =>
    have hc := hrest c rfl
    simp [hc]

theorem readToken_units (t : Token) {rest : WString} (hrest : Ends rest) :
    readToken (t.units ++ rest) = some (.token t, rest) := by
  obtain ⟨htake, hdrop⟩ := takeWhile_units t.plain hrest
  simp only [readToken, htake, hdrop, t.nonempty, ne_eq, not_false_eq_true, dite_true]

theorem readKey_keyText (key rest : WString) :
    readKey (keyText key ++ (text ": " ++ rest)) = some (key, text ": " ++ rest) := by
  rw [colon_eq, keyText]
  by_cases hkey : key.all wordUnit = true
  · have hplain : ∀ c ∈ key, wordUnit c = true := List.all_eq_true.mp hkey
    have hcolon : ∀ c ∈ ([0x3A, 0x20] ++ rest : WString).head?, wordUnit c = false := by
      intro c hc
      obtain rfl : 0x3A = c := Option.some.inj hc
      decide
    have hstrip : strip [quote] (key ++ ([0x3A, 0x20] ++ rest)) = none := by
      cases key with
      | nil => exact strip_head (by decide) _ _
      | cons c key =>
        apply strip_head
        rintro rfl
        have := hplain quote (List.mem_cons_self ..)
        revert this
        decide
    obtain ⟨htake, hdrop⟩ := takeWhile_units hplain hcolon
    rw [if_pos hkey, readKey, hstrip]
    simp only [htake, hdrop]
  · rw [if_neg hkey, inspectString_eq, readKey, List.cons_append, List.cons_append, strip_cons,
      if_pos rfl]
    have hnil : ∀ s : WString, strip [] s = some s := strip_append []
    rw [hnil, List.append_assoc]
    exact readString_inspectString key _

theorem filled_array {xs : Items} (h : xs ≠ .nil) :
    (Data.array xs).shown = text "[ " ++ (commas xs.shown ++ text " ]") := by
  rw [Data.shown, List.append_assoc]
  rintro rfl
  exact h rfl

theorem filled_object {xs : Fields} (h : xs ≠ .nil) :
    (Data.object xs).shown = text "\x7b " ++ (commas xs.shown ++ text " \x7d") := by
  rw [Data.shown, List.append_assoc]
  rintro rfl
  exact h rfl

theorem shown_head (d : Data) : ∃ c s, d.shown = c :: s ∧ c ≠ 0x2C ∧ c ≠ 0x20 := by
  cases d with
  | token t =>
    obtain ⟨c, s, hs⟩ := List.exists_cons_of_ne_nil t.nonempty
    have hc := t.plain c (by simp [hs])
    refine ⟨c, s, hs, ?_, ?_⟩
    · rintro rfl
      revert hc
      decide
    · rintro rfl
      revert hc
      decide
  | string s => exact ⟨quote, s.flatMap escaped ++ [quote], inspectString_eq s, by decide, by decide⟩
  | array xs =>
    by_cases h : xs = .nil
    · subst h
      exact ⟨0x5B, _, emptyArray_eq, by decide, by decide⟩
    · rw [filled_array h, openArray_eq]
      exact ⟨0x5B, _, rfl, by decide, by decide⟩
  | object xs =>
    by_cases h : xs = .nil
    · subst h
      exact ⟨0x7B, _, emptyObject_eq, by decide, by decide⟩
    · rw [filled_object h, openObject_eq]
      exact ⟨0x7B, _, rfl, by decide, by decide⟩

theorem commas_cons (t : WString) {ts : List WString} (h : ts ≠ []) :
    commas (t :: ts) = t ++ (text ", " ++ commas ts) := by
  rw [commas, List.intercalate_cons_of_ne_nil h, List.append_assoc]
  rfl

theorem commas_singleton (t : WString) : commas [t] = t := List.intercalate_singleton

theorem items_shown_ne {xs : Items} (h : xs ≠ .nil) : xs.shown ≠ [] := by
  cases xs with
  | nil => exact absurd rfl h
  | hole rest => exact List.cons_ne_nil _ _
  | cons d rest => exact List.cons_ne_nil _ _

theorem fields_shown_ne {xs : Fields} (h : xs ≠ .nil) : xs.shown ≠ [] := by
  cases xs with
  | nil => exact absurd rfl h
  | cons key d rest => exact List.cons_ne_nil _ _

theorem ends_comma (rest : WString) : Ends (text ", " ++ rest) := by
  intro c hc
  rw [comma_eq] at hc
  obtain rfl : 0x2C = c := Option.some.inj hc
  decide

theorem ends_space {lit : WString} (h : lit.head? = some 0x20) (rest : WString) : Ends (lit ++ rest) := by
  intro c hc
  cases lit with
  | nil => cases h
  | cons a lit =>
    obtain rfl : a = c := Option.some.inj hc
    obtain rfl : a = 0x20 := Option.some.inj h
    decide

mutual

theorem readValue_shown : ∀ (d : Data) (fuel : Nat) (rest : WString), d.shown.length ≤ fuel →
    Ends rest → readValue fuel (d.shown ++ rest) = some (d, rest)
  | .token t, fuel, rest, hfuel, hrest => by
    obtain ⟨c, s, hs⟩ := List.exists_cons_of_ne_nil t.nonempty
    have hc := t.plain c (by simp [hs])
    have hno {a : UInt16} (ha : tokenUnit a = false) (lit : WString) :
        strip (a :: lit) (t.units ++ rest) = none := by
      rw [hs]
      apply strip_head
      rintro rfl
      rw [ha] at hc
      cases hc
    rw [Data.shown, hs] at hfuel
    obtain ⟨fuel, rfl⟩ : ∃ k, fuel = k + 1 := ⟨fuel - 1, by rw [List.length_cons] at hfuel; omega⟩
    rw [readValue, Data.shown, hno (by decide), emptyArray_eq, hno (by decide), openArray_eq,
      hno (by decide), emptyObject_eq, hno (by decide), openObject_eq, hno (by decide)]
    exact readToken_units t hrest
  | .string s, fuel, rest, hfuel, _ => by
    rw [Data.shown, inspectString_eq] at hfuel
    obtain ⟨fuel, rfl⟩ : ∃ k, fuel = k + 1 :=
      ⟨fuel - 1, by rw [List.cons_append, List.length_cons] at hfuel; omega⟩
    have hnil : ∀ s : WString, strip [] s = some s := strip_append []
    rw [readValue, Data.shown, inspectString_eq, List.cons_append, List.cons_append, strip_cons,
      if_pos rfl, hnil, List.append_assoc]
    simp only [List.singleton_append, readString_inspectString, Option.map_some]
  | .array xs, fuel, rest, hfuel, _ => by
    by_cases h : xs = .nil
    · subst h
      have hempty : (Data.array .nil).shown = [0x5B, 0x5D] := emptyArray_eq
      rw [hempty] at hfuel ⊢
      obtain ⟨fuel, rfl⟩ : ∃ k, fuel = k + 1 := ⟨fuel - 1, by simp only [List.length_cons] at hfuel; omega⟩
      rw [readValue, emptyArray_eq, strip_append]
      rfl
    · rw [filled_array h] at hfuel ⊢
      rw [openArray_eq, closeArray_eq] at hfuel
      simp only [List.length_append, List.length_cons, List.length_nil] at hfuel
      obtain ⟨fuel, rfl⟩ : ∃ k, fuel = k + 1 := ⟨fuel - 1, by omega⟩
      have hread := readItems_shown xs h fuel rest (by omega)
      have hquote : strip [quote] (text "[ " ++ (commas xs.shown ++ (text " ]" ++ rest))) = none := by
        rw [openArray_eq]
        exact strip_head (by decide) _ _
      have hempty : strip (text "[]") (text "[ " ++ (commas xs.shown ++ (text " ]" ++ rest))) = none := by
        rw [openArray_eq, emptyArray_eq, List.cons_append, strip_cons, if_pos rfl]
        exact strip_head (by decide) _ _
      rw [List.append_assoc, List.append_assoc, readValue, hquote, hempty, strip_append]
      simp only [hread, Option.map_some]
  | .object xs, fuel, rest, hfuel, _ => by
    by_cases h : xs = .nil
    · subst h
      have hempty : (Data.object .nil).shown = [0x7B, 0x7D] := emptyObject_eq
      rw [hempty] at hfuel ⊢
      obtain ⟨fuel, rfl⟩ : ∃ k, fuel = k + 1 := ⟨fuel - 1, by simp only [List.length_cons] at hfuel; omega⟩
      have hno {a : UInt16} (ha : 0x7B ≠ a) (lit : WString) :
          strip (a :: lit) ([0x7B, 0x7D] ++ rest) = none := strip_head ha _ _
      rw [readValue, hno (by decide), emptyArray_eq, hno (by decide), openArray_eq, hno (by decide),
        emptyObject_eq, strip_append]
    · rw [filled_object h] at hfuel ⊢
      rw [openObject_eq, closeObject_eq] at hfuel
      simp only [List.length_append, List.length_cons, List.length_nil] at hfuel
      obtain ⟨fuel, rfl⟩ : ∃ k, fuel = k + 1 := ⟨fuel - 1, by omega⟩
      have hread := readFields_shown xs h fuel rest (by omega)
      have hno {a : UInt16} (ha : 0x7B ≠ a) (lit : WString) :
          strip (a :: lit) (text "\x7b " ++ (commas xs.shown ++ (text " \x7d" ++ rest))) = none := by
        rw [openObject_eq]
        exact strip_head ha _ _
      have hempty : strip (text "\x7b\x7d")
          (text "\x7b " ++ (commas xs.shown ++ (text " \x7d" ++ rest))) = none := by
        rw [openObject_eq, emptyObject_eq, List.cons_append, strip_cons, if_pos rfl]
        exact strip_head (by decide) _ _
      rw [List.append_assoc, List.append_assoc, readValue, hno (by decide), emptyArray_eq,
        hno (by decide), openArray_eq, hno (by decide), hempty, strip_append]
      simp only [hread, Option.map_some]

theorem readItems_shown : ∀ (xs : Items), xs ≠ .nil → ∀ (fuel : Nat) (rest : WString),
    (commas xs.shown).length + 2 ≤ fuel →
    readItems fuel (commas xs.shown ++ (text " ]" ++ rest)) = some (xs, rest)
  | .nil, h, _, _, _ => absurd rfl h
  | .hole xs, _, fuel, rest, hfuel => by
    obtain ⟨fuel, rfl⟩ : ∃ k, fuel = k + 1 := ⟨fuel - 1, by omega⟩
    by_cases h : xs = .nil
    · subst h
      have hcomma : strip (text ", ") (text " ]" ++ rest) = none := by
        rw [comma_eq, closeArray_eq]
        exact strip_head (by decide) _ _
      have hshown : commas (Items.hole .nil).shown = [] := rfl
      rw [hshown, List.nil_append, readItems, hcomma, strip_append]
    · rw [Items.shown, commas_cons _ (items_shown_ne h), List.nil_append] at hfuel ⊢
      rw [List.length_append, comma_eq] at hfuel
      simp only [List.length_cons, List.length_nil] at hfuel
      rw [List.append_assoc, readItems, strip_append]
      simp only [readItems_shown xs h fuel rest (by omega), Option.map_some]
  | .cons d xs, _, fuel, rest, hfuel => by
    obtain ⟨fuel, rfl⟩ : ∃ k, fuel = k + 1 := ⟨fuel - 1, by omega⟩
    obtain ⟨c, s, hd, hcomma, hspace⟩ := shown_head d
    have hno₁ (tail : WString) : strip (text ", ") (d.shown ++ tail) = none := by
      rw [hd, comma_eq]
      exact strip_head hcomma _ _
    have hno₂ (tail : WString) : strip (text " ]") (d.shown ++ tail) = none := by
      rw [hd, closeArray_eq]
      exact strip_head hspace _ _
    by_cases h : xs = .nil
    · subst h
      have hshown : commas (Items.cons d .nil).shown = d.shown := by
        rw [Items.shown, Items.shown]
        exact commas_singleton _
      rw [hshown] at hfuel ⊢
      have hvalue := readValue_shown d fuel (text " ]" ++ rest) (by omega)
        (ends_space (by decide) rest)
      have hlast : strip (text ", ") (text " ]" ++ rest) = none := by
        rw [comma_eq, closeArray_eq]
        exact strip_head (by decide) _ _
      rw [readItems, hno₁, hno₂]
      simp only [hvalue, Option.bind_some, hlast, strip_append, Option.map_some]
    · rw [Items.shown, commas_cons _ (items_shown_ne h)] at hfuel ⊢
      rw [List.length_append, List.length_append, comma_eq] at hfuel
      simp only [List.length_cons, List.length_nil] at hfuel
      have hvalue := readValue_shown d fuel (text ", " ++ (commas xs.shown ++ (text " ]" ++ rest))) (by omega) (ends_comma _)
      have hrest := readItems_shown xs h fuel rest (by omega)
      rw [List.append_assoc, List.append_assoc, readItems, hno₁, hno₂]
      simp only [hvalue, Option.bind_some, strip_append, hrest, Option.map_some]

theorem readFields_shown : ∀ (xs : Fields), xs ≠ .nil → ∀ (fuel : Nat) (rest : WString),
    (commas xs.shown).length + 2 ≤ fuel →
    readFields fuel (commas xs.shown ++ (text " \x7d" ++ rest)) = some (xs, rest)
  | .nil, h, _, _, _ => absurd rfl h
  | .cons key d xs, _, fuel, rest, hfuel => by
    obtain ⟨fuel, rfl⟩ : ∃ k, fuel = k + 1 := ⟨fuel - 1, by omega⟩
    by_cases h : xs = .nil
    · subst h
      have hshown : commas (Fields.cons key d .nil).shown = keyText key ++ text ": " ++ d.shown := by
        rw [Fields.shown, Fields.shown]
        exact commas_singleton _
      rw [hshown] at hfuel ⊢
      rw [List.length_append] at hfuel
      have hvalue := readValue_shown d fuel (text " \x7d" ++ rest) (by omega)
        (ends_space (by decide) rest)
      have hlast : strip (text ", ") (text " \x7d" ++ rest) = none := by
        rw [comma_eq, closeObject_eq]
        exact strip_head (by decide) _ _
      rw [List.append_assoc, List.append_assoc, readFields, readKey_keyText]
      simp only [Option.bind_some, strip_append, hvalue, hlast, Option.map_some]
    · rw [Fields.shown, commas_cons _ (fields_shown_ne h)] at hfuel ⊢
      simp only [List.length_append, comma_eq, List.length_cons, List.length_nil] at hfuel
      have hvalue := readValue_shown d fuel (text ", " ++ (commas xs.shown ++ (text " \x7d" ++ rest))) (by omega) (ends_comma _)
      have hrest := readFields_shown xs h fuel rest (by omega)
      simp only [List.append_assoc]
      rw [readFields, readKey_keyText]
      simp only [Option.bind_some, strip_append, hvalue, hrest, Option.map_some]

end

theorem read_shown (d : Data) : read d.shown = some (d, []) := by
  have h := readValue_shown d d.shown.length [] (Nat.le_refl _) (by simp [Ends])
  rwa [List.append_nil] at h

theorem inspect_reads_back {n : Nat} {h : Heap n} {depth : Option Nat} {v : Value n} {d : Data}
    (hd : Denotes h d v) (hfits : Within (maxDepth depth) 0 d.nesting) :
    ∃ shown, Inspects h depth v shown ∧ read shown = some (d, []) := by
  obtain ⟨fuel, hfuel⟩ := inspect_shown d hd hfits fun j hj => absurd hj List.not_mem_nil
  exact ⟨d.shown, ⟨fuel, hfuel⟩, read_shown d⟩

def quoted : WString := text "it's\n"

def nullToken : Token where
  units := text "null"
  nonempty := by decide
  plain := List.all_eq_true.mp rfl

def sharedHeap : Heap 2 := fun i =>
  if i = 0 then .plain [(text "a b", .object 1), (text "c", .object 1)]
  else .array [some (.string quoted), none, some .null]

def sharedData : Data :=
  let items := .array (.cons (.string quoted) (.hole (.cons (.token nullToken) .nil)))
  .object (.cons (text "a b") items (.cons (text "c") items .nil))

theorem inspect_reads_back_shared :
    ∃ shown, Inspects sharedHeap none (.object 0) shown ∧ read shown = some (sharedData, []) := by
  have hitems : Denotes sharedHeap (.array (.cons (.string quoted)
      (.hole (.cons (.token nullToken) .nil)))) (.object 1) :=
    ⟨1, _, rfl, rfl, _, _, rfl, rfl, _, rfl, _, _, rfl, rfl, rfl⟩
  exact inspect_reads_back ⟨0, _, rfl, rfl, _, _, rfl, hitems, _, _, rfl, hitems, rfl⟩ (.inr (by decide))

end Read

end NexusRuntime.Console
