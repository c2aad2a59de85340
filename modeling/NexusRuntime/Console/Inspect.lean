import NexusRuntime.Modules.Resolve
import NexusRuntime.Transition.Cycles
import Mathlib.Data.Fintype.EquivFin

namespace NexusRuntime.Console

open Modules (WString text)
open Relation Transition

inductive Value (n : Nat) where
  | undefined
  | null
  | boolean (b : Bool)
  | number (shown : WString)
  | string (s : WString)
  | symbol (shown : WString)
  | object (i : Fin n)
deriving DecidableEq, Repr

-- one constructor a branch; the fields are the own properties a for-in loop comes by
inductive Object (n : Nat) where
  | function (name : WString) (declared : Option WString)
  | symbol (shown : WString)
  | array (elements : List (Option (Value n)))
  | error (shown : WString) (fields : List (WString × Value n))
  | inspectable (result : WString)
  | map (entries : List (Value n × Value n))
  | set (values : List (Value n))
  | number (shown : WString)
  | boolean (b : Bool)
  | string (s : WString)
  | plain (fields : List (WString × Value n))
  | dateOrRegExp (s : WString)
deriving DecidableEq, Repr

abbrev Heap (n : Nat) : Type := Fin n → Object n

def replace (p : UInt16 → Bool) (f : UInt16 → WString) (s : WString) : WString :=
  s.flatMap fun c => if p c then f c else [c]

def quote : UInt16 := 0x27

def backslash : UInt16 := 0x5C

def lowbyte (c : UInt16) : WString :=
  match c.toNat with
  | 8 => text "\\b"
  | 9 => text "\\t"
  | 10 => text "\\n"
  | 12 => text "\\f"
  | 13 => text "\\r"
  | n => text "\\x" ++ (if n < 0x10 then text "0" else []) ++
      (Nat.toDigits 16 n).map fun d => UInt16.ofNat d.toNat

def inspectString (str : WString) : WString :=
  let s := replace (fun c => decide (c.toNat ≤ 0x1F)) lowbyte
    (replace (fun c => c == quote || c == backslash) (fun c => [backslash, c]) str)
  quote :: s ++ [quote]

-- [\w$]
def wordUnit (c : UInt16) : Bool :=
  let n := c.toNat
  decide (0x61 ≤ n ∧ n ≤ 0x7A) || decide (0x41 ≤ n ∧ n ≤ 0x5A) || decide (0x30 ≤ n ∧ n ≤ 0x39) ||
    n == 0x5F || n == 0x24

def keyText (key : WString) : WString := if key.all wordUnit then key else inspectString key

def commas (parts : List WString) : WString := (text ", ").intercalate parts

def labelled (keys : List WString) (ts : List WString) : List WString :=
  List.zipWith (fun key t => keyText key ++ text ": " ++ t) keys ts

def arrows : List WString → List WString
  | key :: value :: ts => (key ++ text " => " ++ value) :: arrows ts
  | _ => []

def boxed (s : WString) : WString := text "Object(" ++ s ++ text ")"

section Inspect
variable {n : Nat}

def Object.isObject : Object n → Bool
  | .function _ _ => false
  | _ => true

def boolText (b : Bool) : WString := if b then text "true" else text "false"

-- the inner inspect: what is seen grows with every call that says where it comes from
def inspectEach (inspect_ : List (Fin n) → Value n → Option WString) (origin : Option (Fin n)) :
    List (Fin n) → List (Option (Value n)) → Option (List WString)
  | _, [] => some []
  | seen, none :: vs => (inspectEach inspect_ origin seen vs).map ([] :: ·)
  | seen, some v :: vs =>
    let seen := seen ++ origin.toList
    (inspect_ seen v).bind fun t => (inspectEach inspect_ origin seen vs).map (t :: ·)

def inspect_ (h : Heap n) (maxDepth : Nat) :
    Nat → Nat → List (Fin n) → Value n → Option WString
  | 0, _, _, _ => none
  | fuel + 1, depth, seen, v =>
    match v with
    | .undefined => some (text "undefined")
    | .null => some (text "null")
    | .boolean b => some (boolText b)
    | .number shown => some shown
    | .string s => some (inspectString s)
    | .symbol shown => some shown
    | .object i =>
      if maxDepth ≤ depth ∧ 0 < maxDepth ∧ (h i).isObject = true then some (text "[Object]")
      else if i ∈ seen then some (text "[Circular]")
      else
        let inspect := fun origin vs =>
          inspectEach (inspect_ h maxDepth fuel (depth + 1)) origin seen vs
        match h i with
        | .function name declared =>
          let name := if name.isEmpty then declared.getD [] else name
          some (text "[Function" ++ (if name.isEmpty then [] else text ": " ++ name) ++ text "]")
        | .symbol shown => some (boxed shown)
        | .array elements =>
          if elements.isEmpty then some (text "[]")
          else (inspect (some i) elements).map fun xs => text "[ " ++ commas xs ++ text " ]"
        | .error shown fields =>
          (inspect none (fields.map fun f => some f.2)).map fun ts =>
            let parts := labelled (fields.map Prod.fst) ts
            if parts.isEmpty then text "[" ++ shown ++ text "]"
            else text "\x7b [" ++ shown ++ text "] " ++ commas parts ++ text " \x7d"
        | .inspectable result => some result
        | .map entries =>
          (inspect (some i) (entries.flatMap fun e => [some e.1, some e.2])).map fun ts =>
            text "Map (" ++ text (toString entries.length) ++ text ") \x7b" ++ commas (arrows ts) ++
              text "\x7d"
        | .set values =>
          (inspect (some i) (values.map some)).map fun ts =>
            text "Set (" ++ text (toString values.length) ++ text ") \x7b" ++ commas ts ++ text "\x7d"
        | .number shown => some (boxed shown)
        | .boolean b => some (boxed (boolText b))
        | .string s => some (boxed (inspectString s))
        | .plain fields =>
          (inspect (some i) (fields.map fun f => some f.2)).map fun ts =>
            let xs := labelled (fields.map Prod.fst) ts
            if xs.isEmpty then text "\x7b\x7d"
            else text "\x7b " ++ commas xs ++ text " \x7d"
        | .dateOrRegExp s => some s

def maxDepth (depth : Option Nat) : Nat := depth.getD 5

def Inspects (h : Heap n) (depth : Option Nat) (v : Value n) (shown : WString) : Prop :=
  ∃ fuel, inspect_ h (maxDepth depth) fuel 0 [] v = some shown

namespace Object

def isError : Object n → Bool
  | .error _ _ => true
  | _ => false

def children : Object n → List (Option (Value n))
  | .array elements => elements
  | .error _ fields => fields.map fun f => some f.2
  | .map entries => entries.flatMap fun e => [some e.1, some e.2]
  | .set values => values.map some
  | .plain fields => fields.map fun f => some f.2
  | _ => []

def origin (i : Fin n) (o : Object n) : Option (Fin n) := if o.isError then none else some i

def render : Object n → List WString → WString
  | .function name declared, _ =>
    let name := if name.isEmpty then declared.getD [] else name
    text "[Function" ++ (if name.isEmpty then [] else text ": " ++ name) ++ text "]"
  | .symbol shown, _ => boxed shown
  | .array elements, xs =>
    if elements.isEmpty then text "[]" else text "[ " ++ commas xs ++ text " ]"
  | .error shown fields, ts =>
    let parts := labelled (fields.map Prod.fst) ts
    if parts.isEmpty then text "[" ++ shown ++ text "]"
    else text "\x7b [" ++ shown ++ text "] " ++ commas parts ++ text " \x7d"
  | .inspectable result, _ => result
  | .map entries, ts =>
    text "Map (" ++ text (toString entries.length) ++ text ") \x7b" ++ commas (arrows ts) ++
      text "\x7d"
  | .set values, ts =>
    text "Set (" ++ text (toString values.length) ++ text ") \x7b" ++ commas ts ++ text "\x7d"
  | .number shown, _ => boxed shown
  | .boolean b, _ => boxed (boolText b)
  | .string s, _ => boxed (inspectString s)
  | .plain fields, ts =>
    let xs := labelled (fields.map Prod.fst) ts
    if xs.isEmpty then text "\x7b\x7d"
    else text "\x7b " ++ commas xs ++ text " \x7d"
  | .dateOrRegExp s, _ => s

end Object

variable {h : Heap n} {limit fuel depth : Nat} {seen : List (Fin n)} {i j : Fin n} {v : Value n}

theorem inspect_limited (hlimit : limit ≤ depth ∧ 0 < limit ∧ (h i).isObject = true) :
    inspect_ h limit (fuel + 1) depth seen (.object i) = some (text "[Object]") := by
  rw [inspect_, if_pos hlimit]

theorem inspect_seen (hlimit : ¬ (limit ≤ depth ∧ 0 < limit ∧ (h i).isObject = true))
    (hseen : i ∈ seen) :
    inspect_ h limit (fuel + 1) depth seen (.object i) = some (text "[Circular]") := by
  rw [inspect_, if_neg hlimit, if_pos hseen]

theorem inspect_object (hlimit : ¬ (limit ≤ depth ∧ 0 < limit ∧ (h i).isObject = true))
    (hseen : i ∉ seen) :
    inspect_ h limit (fuel + 1) depth seen (.object i) =
      (inspectEach (inspect_ h limit fuel (depth + 1)) ((h i).origin i) seen (h i).children).map
        (h i).render := by
  rw [inspect_, if_neg hlimit, if_neg hseen]
  cases ho : h i with
  | array elements =>
    cases elements with
    | nil => rfl
    | cons x xs => rfl
  | function => rfl
  | symbol => rfl
  | error => rfl
  | inspectable => rfl
  | map => rfl
  | set => rfl
  | number => rfl
  | boolean => rfl
  | string => rfl
  | plain => rfl
  | dateOrRegExp => rfl

theorem inspect_primitive (h : Heap n) (limit fuel depth : Nat) (seen : List (Fin n))
    (hv : ∀ i, v ≠ .object i) :
    ∃ shown, inspect_ h limit (fuel + 1) depth seen v = some shown := by
  cases v with
  | object i => exact absurd rfl (hv i)
  | undefined => exact ⟨_, rfl⟩
  | null => exact ⟨_, rfl⟩
  | boolean => exact ⟨_, rfl⟩
  | number => exact ⟨_, rfl⟩
  | string => exact ⟨_, rfl⟩
  | symbol => exact ⟨_, rfl⟩

section Each
variable {call call' : List (Fin n) → Value n → Option WString} {origin : Option (Fin n)}
  {vs : List (Option (Value n))}

-- what an inner call has seen
def Sees (origin : Option (Fin n)) (seen seen' : List (Fin n)) : Prop :=
  ∀ j, j ∈ seen' ↔ j ∈ seen ∨ origin = some j

theorem sees_append (origin : Option (Fin n)) (seen : List (Fin n)) :
    Sees origin seen (seen ++ origin.toList) := by
  intro j
  cases origin <;> simp [eq_comm]

theorem sees_again {seen' : List (Fin n)} (h : Sees origin (seen ++ origin.toList) seen') :
    Sees origin seen seen' := by
  intro j
  rw [h j, sees_append origin seen j, or_assoc, or_self]

theorem each_isSome
    (hcall : ∀ v seen', some v ∈ vs → Sees origin seen seen' → (call seen' v).isSome = true) :
    (inspectEach call origin seen vs).isSome = true := by
  induction vs generalizing seen with
  | nil => rfl
  | cons x vs ih =>
    cases x with
    | none =>
      rw [inspectEach, Option.isSome_map]
      exact ih fun v seen' hv hseen => hcall v seen' (List.mem_cons_of_mem _ hv) hseen
    | some v =>
      rw [inspectEach]
      obtain ⟨t, ht⟩ := Option.isSome_iff_exists.mp
        (hcall v _ (List.mem_cons_self ..) (sees_append origin seen))
      simp only [ht, Option.bind_some, Option.isSome_map]
      apply ih
      intro w seen' hw hseen
      exact hcall w seen' (List.mem_cons_of_mem _ hw) (sees_again hseen)

theorem of_each_isSome (heach : (inspectEach call origin seen vs).isSome = true) (hv : some v ∈ vs) :
    ∃ seen', Sees origin seen seen' ∧ (call seen' v).isSome = true := by
  induction vs generalizing seen with
  | nil => cases hv
  | cons x vs ih =>
    cases x with
    | none =>
      rw [inspectEach, Option.isSome_map] at heach
      rcases List.mem_cons.mp hv with hv | hv
      · cases hv
      · exact ih heach hv
    | some w =>
      simp only [inspectEach] at heach
      cases ht : call (seen ++ origin.toList) w with
      | none => simp [ht] at heach
      | some t =>
        rcases List.mem_cons.mp hv with hv | hv
        · cases hv
          exact ⟨_, sees_append origin seen, by rw [ht]; rfl⟩
        · rw [ht, Option.bind_some, Option.isSome_map] at heach
          obtain ⟨seen', hseen, hcall⟩ := ih heach hv
          exact ⟨seen', sees_again hseen, hcall⟩

theorem each_mono (hcall : ∀ seen v t, call seen v = some t → call' seen v = some t)
    {ts : List WString} (heach : inspectEach call origin seen vs = some ts) :
    inspectEach call' origin seen vs = some ts := by
  induction vs generalizing seen ts with
  | nil => exact heach
  | cons x vs ih =>
    cases x with
    | none =>
      obtain ⟨us, hus, rfl⟩ := Option.map_eq_some_iff.mp heach
      rw [inspectEach, ih hus]
      rfl
    | some v =>
      obtain ⟨t, ht, hrest⟩ := Option.bind_eq_some_iff.mp heach
      obtain ⟨us, hus, rfl⟩ := Option.map_eq_some_iff.mp hrest
      simp only [inspectEach, hcall _ _ _ ht, ih hus, Option.bind_some, Option.map_some]

end Each

theorem inspect_mono {t : WString} (hrun : inspect_ h limit fuel depth seen v = some t) :
    inspect_ h limit (fuel + 1) depth seen v = some t := by
  induction fuel generalizing depth seen v t with
  | zero => cases hrun
  | succ fuel ih =>
    cases v with
    | object i =>
      by_cases hlimit : limit ≤ depth ∧ 0 < limit ∧ (h i).isObject = true
      · rw [inspect_limited hlimit] at hrun ⊢
        exact hrun
      · by_cases hseen : i ∈ seen
        · rw [inspect_seen hlimit hseen] at hrun ⊢
          exact hrun
        · rw [inspect_object hlimit hseen] at hrun ⊢
          obtain ⟨ts, hts, rfl⟩ := Option.map_eq_some_iff.mp hrun
          rw [each_mono (fun seen' w u hu => ih hu) hts]
          rfl
    | undefined => exact hrun
    | null => exact hrun
    | boolean => exact hrun
    | number => exact hrun
    | string => exact hrun
    | symbol => exact hrun

theorem isSome_mono {more : Nat} (hmore : fuel ≤ more)
    (hrun : (inspect_ h limit fuel depth seen v).isSome = true) :
    (inspect_ h limit more depth seen v).isSome = true := by
  induction hmore with
  | refl => exact hrun
  | step _ ih =>
    obtain ⟨t, ht⟩ := Option.isSome_iff_exists.mp ih
    rw [inspect_mono ht]
    rfl

def Child (h : Heap n) (i j : Fin n) : Prop := some (.object j) ∈ (h i).children

-- an error object is not remembered as seen
def ErrorLink (h : Heap n) (i j : Fin n) : Prop := (h i).isError = true ∧ Child h i j

def Unlooped (h : Heap n) (i : Fin n) : Prop :=
  ∀ e, ReflTransGen (Child h) i e → ¬ OnCycle (ErrorLink h) e

theorem limited_isSome (hlimit : 0 < limit) (hfuel : limit - depth < fuel) :
    (inspect_ h limit fuel depth seen v).isSome = true := by
  induction fuel generalizing depth seen v with
  | zero => omega
  | succ fuel ih =>
    by_cases hv : ∃ i, v = .object i
    · obtain ⟨i, rfl⟩ := hv
      by_cases hdepth : limit ≤ depth ∧ 0 < limit ∧ (h i).isObject = true
      · rw [inspect_limited hdepth]
        rfl
      · by_cases hseen : i ∈ seen
        · rw [inspect_seen hdepth hseen]
          rfl
        · rw [inspect_object hdepth hseen, Option.isSome_map]
          apply each_isSome
          intro w seen' hw _
          by_cases hdeep : limit ≤ depth
          · -- only a function gets this far, and it has no children
            cases ho : h i with
            | function name declared =>
              rw [ho] at hw
              cases hw
            | _ =>
              rw [ho] at hdepth
              exact absurd ⟨hdeep, hlimit, rfl⟩ hdepth
          · apply ih
            omega
    · obtain ⟨t, ht⟩ := inspect_primitive h limit fuel depth seen (not_exists.mp hv)
      rw [ht]
      rfl

theorem origin_eq_some {o : Object n} : o.origin i = some j ↔ o.isError = false ∧ i = j := by
  rw [Object.origin]
  cases o.isError <;> simp

def noted (h : Heap n) (i : Fin n) (seen : Finset (Fin n)) : Finset (Fin n) :=
  if (h i).isError then seen else insert i seen

def Ready (h : Heap n) (seen : Finset (Fin n)) (fuel : Nat) (v : Value n) : Prop :=
  ∀ depth (list : List (Fin n)), (∀ j, j ∈ list ↔ j ∈ seen) →
    (inspect_ h 0 fuel depth list v).isSome = true

theorem exists_ready_each {seen : Finset (Fin n)} {vs : List (Option (Value n))}
    (hvs : ∀ v, some v ∈ vs → ∃ fuel, Ready h seen fuel v) :
    ∃ fuel, ∀ v, some v ∈ vs → Ready h seen fuel v := by
  induction vs with
  | nil => exact ⟨0, fun v hv => absurd hv List.not_mem_nil⟩
  | cons x vs ih =>
    obtain ⟨fuel, hfuel⟩ := ih fun v hv => hvs v (List.mem_cons_of_mem x hv)
    cases x with
    | none =>
      refine ⟨fuel, ?_⟩
      intro v hv
      exact hfuel v ((List.mem_cons.mp hv).resolve_left (Option.some_ne_none v))
    | some w =>
      obtain ⟨more, hmore⟩ := hvs w (List.mem_cons_self ..)
      refine ⟨max fuel more, ?_⟩
      intro v hv depth list hlist
      rcases List.mem_cons.mp hv with hv | hv
      · cases hv
        exact isSome_mono (Nat.le_max_right ..) (hmore depth list hlist)
      · exact isSome_mono (Nat.le_max_left ..) (hfuel v hv depth list hlist)

theorem ready_object {seen : Finset (Fin n)} (hi : i ∉ seen)
    (hready : ∀ v, some v ∈ (h i).children → Ready h (noted h i seen) fuel v) :
    Ready h seen (fuel + 1) (.object i) := by
  intro depth list hlist
  rw [inspect_object (by omega) fun hmem => hi ((hlist i).mp hmem), Option.isSome_map]
  apply each_isSome
  intro v seen' hv hsees
  apply hready v hv
  intro j
  rw [hsees j, hlist j, origin_eq_some, noted]
  cases (h i).isError <;> simp [eq_comm, or_comm]

theorem ready_of_mem {seen : Finset (Fin n)} (hi : i ∈ seen) : Ready h seen 1 (.object i) := by
  intro depth list hlist
  rw [inspect_seen (by omega) ((hlist i).mpr hi)]
  rfl

theorem unlooped_child (hi : Unlooped h i) (hchild : Child h i j) : Unlooped h j :=
  fun e he => hi e (.head hchild he)

-- a step either remembers one more object or goes along a link out of an error object
theorem exists_ready (hi : Unlooped h i) (seen : Finset (Fin n)) :
    ∃ fuel, Ready h seen fuel (.object i) := by
  have hwf : WellFounded fun j i => Unlooped h i ∧ ErrorLink h i j := by
    apply wellFounded_of_no_cycle
    intro e he
    obtain ⟨-, ⟨hun, -⟩, -⟩ := exists_next he
    exact hun e .refl (TransGen.mono (fun _ _ hlink => hlink.2) _ _ he)
  induction hk : seenᶜ.card using Nat.strong_induction_on generalizing seen i with
  | _ k outer =>
    induction i using hwf.induction with
    | _ i inner =>
      by_cases hmem : i ∈ seen
      · exact ⟨1, ready_of_mem hmem⟩
      · obtain ⟨fuel, hfuel⟩ : ∃ fuel, ∀ v, some v ∈ (h i).children →
            Ready h (noted h i seen) fuel v := by
          apply exists_ready_each
          intro v hv
          by_cases hobject : ∃ j, v = .object j
          · obtain ⟨j, rfl⟩ := hobject
            cases herr : (h i).isError with
            | true =>
              rw [noted, herr, if_pos rfl]
              exact inner j ⟨hi, herr, hv⟩ (unlooped_child hi hv)
            | false =>
              rw [noted, herr, if_neg Bool.false_ne_true]
              apply outer _ _ (unlooped_child hi hv) (insert i seen) rfl
              rw [← hk]
              apply Finset.card_lt_card
              rw [Finset.compl_ssubset_compl]
              exact Finset.ssubset_insert hmem
          · refine ⟨1, ?_⟩
            intro depth list _
            obtain ⟨t, ht⟩ := inspect_primitive h 0 0 depth list (not_exists.mp hobject)
            rw [ht]
            rfl
        exact ⟨fuel + 1, ready_object hmem hfuel⟩

theorem looped_none {e : Fin n} (he : OnCycle (ErrorLink h) e)
    (hseen : ∀ j ∈ seen, (h j).isError = false) (hi : i ∉ seen)
    (hpath : ReflTransGen (fun a b => Child h a b ∧ b ∉ seen) i e) :
    inspect_ h 0 fuel depth seen (.object i) = none := by
  induction fuel generalizing depth seen i e with
  | zero => rfl
  | succ fuel ih =>
    rw [inspect_object (by omega) hi, Option.map_eq_none_iff]
    apply Decidable.byContradiction
    intro hsome
    have heach := Option.ne_none_iff_isSome.mp hsome
    have herrors {seen' : List (Fin n)} (hsees : Sees ((h i).origin i) seen seen') :
        ∀ j ∈ seen', (h j).isError = false := by
      intro j hj
      rcases (hsees j).mp hj with hj | hj
      · exact hseen j hj
      · obtain ⟨herr, rfl⟩ := origin_eq_some.mp hj
        exact herr
    rcases leaves_start hpath with rfl | ⟨c, hc, ⟨hchild, hfresh⟩, hrest⟩
    · obtain ⟨e', ⟨-, hchild⟩, he'⟩ := exists_next he
      obtain ⟨seen', hsees, hcall⟩ := of_each_isSome heach hchild
      obtain ⟨-, ⟨herr, -⟩, -⟩ := exists_next he'
      have hnot : e' ∉ seen' := by
        intro hmem
        have := herrors hsees e' hmem
        rw [herr] at this
        cases this
      rw [ih he' (herrors hsees) hnot .refl] at hcall
      cases hcall
    · obtain ⟨seen', hsees, hcall⟩ := of_each_isSome heach hchild
      have hout {j : Fin n} (hj : j ∉ seen) (hne : j ≠ i) : j ∉ seen' := by
        intro hmem
        rcases (hsees j).mp hmem with hmem | hmem
        · exact hj hmem
        · exact hne (origin_eq_some.mp hmem).2.symm
      rw [ih he (herrors hsees) (hout hfresh hc)
        (ReflTransGen.mono (fun a b hab => ⟨hab.1.1, hout hab.1.2 hab.2⟩) _ _ hrest)] at hcall
      cases hcall

theorem inspects_iff (h : Heap n) (depth : Option Nat) (v : Value n) :
    (∃ shown, Inspects h depth v shown) ↔
      0 < maxDepth depth ∨ ∀ i, v = .object i → Unlooped h i := by
  have hsome : (∃ shown, Inspects h depth v shown) ↔
      ∃ fuel, (inspect_ h (maxDepth depth) fuel 0 [] v).isSome = true := by
    simp only [Inspects, Option.isSome_iff_exists]
    exact exists_comm
  rw [hsome]
  rcases Nat.eq_zero_or_pos (maxDepth depth) with hzero | hpos
  · rw [hzero]
    simp only [Nat.lt_irrefl, false_or]
    constructor
    · rintro ⟨fuel, hfuel⟩ i rfl e he hcycle
      have hpath : ReflTransGen (fun a b => Child h a b ∧ b ∉ ([] : List (Fin n))) i e :=
        ReflTransGen.mono (fun a b hab => ⟨hab, List.not_mem_nil⟩) _ _ he
      rw [looped_none hcycle (by simp) List.not_mem_nil hpath] at hfuel
      cases hfuel
    · intro hun
      by_cases hobject : ∃ i, v = .object i
      · obtain ⟨i, rfl⟩ := hobject
        obtain ⟨fuel, hfuel⟩ := exists_ready (hun i rfl) ∅
        exact ⟨fuel, hfuel 0 [] (by simp)⟩
      · refine ⟨1, ?_⟩
        obtain ⟨t, ht⟩ := inspect_primitive h 0 0 0 [] (not_exists.mp hobject)
        rw [ht]
        rfl
  · exact iff_of_true ⟨maxDepth depth + 1, limited_isSome hpos (by omega)⟩ (.inl hpos)

end Inspect

end NexusRuntime.Console
