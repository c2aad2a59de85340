import NexusRuntime.EventEmitter.Delivery
import NexusRuntime.Sequence.Place

namespace NexusRuntime.EventEmitter

open Transition Sequence

variable {H A V E : Type}

inductive Count where
  | infinity
  | finite (n : Int)
deriving DecidableEq, Repr

structure Entry (H : Type) where
  functor : H
  count : Count
deriving DecidableEq, Repr

-- what {} inherits from Object.prototype: a function with its length, or the prototype itself
inductive Inherited where
  | function (length : Nat)
  | prototype
deriving DecidableEq, Repr

def inherited : String → Option Inherited
  | "toString" | "toLocaleString" | "valueOf" => some (.function 0)
  | "constructor" | "hasOwnProperty" | "isPrototypeOf" | "propertyIsEnumerable"
  | "__lookupGetter__" | "__lookupSetter__" => some (.function 1)
  | "__defineGetter__" | "__defineSetter__" => some (.function 2)
  | "__proto__" => some .prototype
  | _ => none

inductive Held (H : Type) where
  | listeners (events : List (Entry H))
  | inherited (p : Inherited)

structure EventEmitter2 (H : Type) where
  own : String → Option (Held H)

inductive Thrown (E : Type) where
  | handler (x : E)
  | typeError
deriving DecidableEq, Repr

inductive Result (V E : Type) where
  | promise (settled : Except E (List V))
  | thrown (x : Thrown E)

structure Emitted (H A V E : Type) where
  calls : List (H × List A)
  result : Result V E

def promiseAll : List (Except E V) → Except E (List V)
  | [] => .ok []
  | .ok v :: rest => (promiseAll rest).map (v :: ·)
  | .error x :: _ => .error x

namespace Inherited

-- event[0] is undefined, so reading its count throws
def indexed : Inherited → Bool
  | .function length => decide (length ≠ 0)
  | .prototype => false

end Inherited

namespace Count

def positive : Count → Bool
  | .infinity => true
  | .finite n => decide (0 < n)

def pred : Count → Count
  | .infinity => .infinity
  | .finite n => .finite (n - 1)

end Count

def Entry.spent (x : Entry H) : Entry H := { x with count := x.count.pred }

structure Looped (H V E : Type) where
  events : List (Entry H)
  calls : List H
  settled : Except E (List V)

-- behave k h: what the k-th handler called in this emission returns or throws, if it is h
def emitLoop (behave : Nat → H → Except E V) : Nat → List (Entry H) → Looped H V E
  | _, [] => ⟨[], [], .ok []⟩
  | k, x :: rest =>
    if x.count.positive then
      match behave k x.functor with
      | .ok v =>
        let r := emitLoop behave (k + 1) rest
        ⟨x.spent :: r.events, x.functor :: r.calls, r.settled.map (v :: ·)⟩
      | .error e => ⟨x.spent :: rest, [x.functor], .error e⟩
    else
      let r := emitLoop behave k rest
      ⟨x.spent :: r.events, r.calls, r.settled⟩

namespace EventEmitter2

def empty : EventEmitter2 H := ⟨fun _ => none⟩

def get (em : EventEmitter2 H) (e : String) : Option (Held H) :=
  (em.own e).or ((inherited e).map .inherited)

def set (em : EventEmitter2 H) (e : String) (p : Held H) : EventEmitter2 H :=
  ⟨Function.update em.own e (some p)⟩

def many (em : EventEmitter2 H) (e : String) (functor : H) (count : Count) : EventEmitter2 H :=
  match em.get e with
  | none => em.set e (.listeners [⟨functor, count⟩])
  | some (.listeners events) => em.set e (.listeners (events ++ [⟨functor, count⟩]))
  -- the assignment is made, then push is not a function
  | some (.inherited (.function length)) => em.set e (.inherited (.function length))
  | some (.inherited .prototype) => em

def on (em : EventEmitter2 H) (e : String) (functor : H) : EventEmitter2 H :=
  em.many e functor .infinity

def once (em : EventEmitter2 H) (e : String) (functor : H) : EventEmitter2 H :=
  em.many e functor (.finite 1)

def emit (em : EventEmitter2 H) (e : String) (args : List A) (behave : Nat → H → Except E V) :
    EventEmitter2 H × Emitted H A V E :=
  match em.get e with
  | none => (em, ⟨[], .promise (.ok [])⟩)
  | some (.listeners events) =>
    let r := emitLoop behave 0 events
    (em.set e (.listeners r.events), ⟨r.calls.map fun h => (h, args), match r.settled with
      | .ok values => .promise (.ok values)
      | .error x => .thrown (.handler x)⟩)
  | some (.inherited p) =>
    (em, ⟨[], if p.indexed then .thrown .typeError else .promise (.ok [])⟩)

def off [DecidableEq H] (em : EventEmitter2 H) (e : String) (target : H) : EventEmitter2 H :=
  match em.get e with
  | some (.listeners events) => em.set e (.listeners (events.filter fun x => x.functor ≠ target))
  -- filter is not a function
  | some (.inherited _) => em
  | none => em

def allOff (em : EventEmitter2 H) (e : String) : EventEmitter2 H :=
  ⟨Function.update em.own e none⟩

def events (em : EventEmitter2 H) (e : String) : List (Entry H) :=
  match em.own e with
  | some (.listeners events) => events
  | _ => []

end EventEmitter2

namespace Emitter

def outcome (em : Emitter H) (e : String) (args : List A) (behave : Nat → H → Except E V) :
    Emitted H A V E where
  calls := (em.emit e args).2.map fun d => (d.call.handler, d.call.args)
  result := .promise (promiseAll ((em.emit e args).2.mapIdx fun k d => behave k d.call.handler))

end Emitter

inductive Request (H A V E : Type) where
  | on (e : String) (h : H)
  | once (e : String) (h : H)
  | many (e : String) (h : H) (count : Int)
  | off (e : String) (h : H)
  | allOff (e : String)
  | emit (e : String) (args : List A) (behave : Nat → H → Except E V)

structure Answer (H A V E : Type) where
  behave : Nat → H → Except E V
  native : Emitted H A V E
  stream : Emitted H A V E

structure Twins (H A V E : Type) where
  native : Option (Emitter H)
  stream : EventEmitter2 H
  answers : List (Answer H A V E)

def intMax : Int := 2147483647

-- many passes a double where addManyListener takes an int
def toInt (undefined : Int → Int) (n : Int) : Int :=
  if -intMax - 1 ≤ n ∧ n ≤ intMax then n else undefined n

namespace Twins

def start : Twins H A V E := ⟨some Emitter.empty, EventEmitter2.empty, []⟩

variable [DecidableEq H]

def step (undefined : Int → Int) (s : Twins H A V E) (r : Request H A V E) :
    Option (Twins H A V E) :=
  s.native.map fun em =>
    match r with
    | .on e h => { s with native := some (em.addListener e h), stream := s.stream.on e h }
    | .once e h => { s with native := some (em.addOnceListener e h), stream := s.stream.once e h }
    | .many e h n => { s with
      native := some (em.addManyListener e h (toInt undefined n))
      stream := s.stream.many e h (.finite n) }
    | .off e h => { s with native := some (em.removeListener e h), stream := s.stream.off e h }
    | .allOff e => { s with native := some (em.removeAllListeners e), stream := s.stream.allOff e }
    | .emit e args behave =>
      { native := (em.emit e args).1
        stream := (s.stream.emit e args behave).1
        answers := s.answers ++
          [⟨behave, em.outcome e args behave, (s.stream.emit e args behave).2⟩] }

def Agreed (s : Twins H A V E) : Prop :=
  ∀ a ∈ s.answers, a.stream = a.native ∧
    a.native.result = .promise (promiseAll (a.native.calls.mapIdx fun k c => a.behave k c.1))

def shared (s : Twins H A V E) : Request H A V E → Prop
  | .on e _ | .once e _ => inherited e = none
  | .many e _ n => inherited e = none ∧ 1 ≤ n ∧ n ≤ intMax
  | .off _ _ | .allOff _ => True
  | .emit e _ behave => (∀ p ∈ inherited e, p.indexed = false) ∧ ∀ em ∈ s.native,
    (em.listeners e).countP (fun i => i.count == 1) ≤ 1 ∧
      ∀ r ∈ (em.listeners e).mapIdx (fun k i => behave k i.handler), r.isOk = true

instance decidableShared (s : Twins H A V E) : (r : Request H A V E) → Decidable (s.shared r)
  | .on e _ | .once e _ => inferInstanceAs (Decidable (inherited e = none))
  | .many e _ n => inferInstanceAs (Decidable (inherited e = none ∧ 1 ≤ n ∧ n ≤ intMax))
  | .off _ _ | .allOff _ => .isTrue trivial
  | .emit e _ behave => inferInstanceAs (Decidable ((∀ p ∈ inherited e, p.indexed = false) ∧
    ∀ em ∈ s.native, (em.listeners e).countP (fun i => i.count == 1) ≤ 1 ∧
      ∀ r ∈ (em.listeners e).mapIdx (fun k i => behave k i.handler), r.isOk = true))

end Twins

def twins (undefined : Int → Int) (H A V E : Type) [DecidableEq H] :
    System (Twins H A V E) (Request H A V E) := ⟨Twins.step undefined⟩

def Event.key (i : Event H) : H × Int := (i.handler, i.count)

def Entry.live (x : Entry H) : Option (H × Int) :=
  match x.count with
  | .infinity => some (x.functor, -1)
  | .finite n => if 0 < n then some (x.functor, n) else none

def spendKey (p : H × Int) : Option (H × Int) :=
  if p.2 = -1 then some p else if 1 < p.2 then some (p.1, p.2 - 1) else none

structure Alike (em : Emitter H) (js : EventEmitter2 H) : Prop where
  listeners : ∀ e, (em.listeners e).map Event.key = (js.events e).filterMap Entry.live
  held : ∀ e p, js.own e ≠ some (.inherited p)
  unset : ∀ e, inherited e ≠ none → js.own e = none

theorem live_spent (x : Entry H) : x.spent.live = x.live.bind spendKey := by
  obtain ⟨f, c⟩ := x
  cases c with
  | infinity => rfl
  | finite n =>
    simp only [Entry.spent, Entry.live, Count.pred]
    by_cases hn : 0 < n
    · have hne : n ≠ -1 := by omega
      rw [if_pos hn, Option.bind_some, spendKey, if_neg hne]
      by_cases h1 : 1 < n
      · rw [if_pos h1, if_pos (by omega)]
      · rw [if_neg h1, if_neg (by omega)]
    · rw [if_neg hn, if_neg (by omega)]
      rfl

theorem live_counted {x : Entry H} {p : H × Int} (h : x.live = some p) : p.2 = -1 ∨ 1 ≤ p.2 := by
  obtain ⟨f, c⟩ := x
  cases c with
  | infinity =>
    cases h
    exact .inl rfl
  | finite n =>
    simp only [Entry.live] at h
    split at h
    · cases h
      exact .inr (by omega)
    · cases h

theorem live_functor (x : Entry H) :
    if x.count.positive then ∃ n, x.live = some (x.functor, n) else x.live = none := by
  obtain ⟨f, c⟩ := x
  cases c with
  | infinity => exact ⟨-1, rfl⟩
  | finite n =>
    by_cases hn : 0 < n
    · simp [Entry.live, Count.positive, hn]
    · simp [Entry.live, Count.positive, hn]

theorem emitLoop_ok (behave : Nat → H → Except E V) (k : Nat) (events : List (Entry H))
    (hok : ∀ r ∈ (events.filterMap Entry.live).mapIdx (fun j p => behave (k + j) p.1),
      r.isOk = true) :
    ∃ values,
      promiseAll ((events.filterMap Entry.live).mapIdx fun j p => behave (k + j) p.1) = .ok values ∧
      emitLoop behave k events =
        ⟨events.map Entry.spent, (events.filterMap Entry.live).map Prod.fst, .ok values⟩ := by
  induction events generalizing k with
  | nil => exact ⟨[], rfl, rfl⟩
  | cons x rest ih =>
    have hlive := live_functor x
    split at hlive
    · next hpositive =>
      obtain ⟨n, hn⟩ := hlive
      have hshift : (fun (j : Nat) (p : H × Int) => behave (k + (j + 1)) p.1) =
          fun j p => behave (k + 1 + j) p.1 := by
        funext j p
        rw [Nat.add_assoc, Nat.add_comm 1 j]
      rw [List.filterMap_cons_some hn, List.mapIdx_cons, hshift] at hok ⊢
      obtain ⟨values, hall, hloop⟩ := ih (k + 1) fun r hr => hok r (List.mem_cons_of_mem _ hr)
      have hfirst := hok _ (List.mem_cons_self ..)
      rw [Nat.add_zero] at hfirst ⊢
      simp only at hfirst ⊢
      cases hb : behave k x.functor with
      | error e =>
        rw [hb] at hfirst
        cases hfirst
      | ok v =>
        refine ⟨v :: values, ?_, ?_⟩
        · rw [promiseAll, hall]
          rfl
        · rw [emitLoop, if_pos hpositive, hb]
          simp only [hloop, List.map_cons]
          rfl
    · next hpositive =>
      rw [List.filterMap_cons_none hlive] at hok ⊢
      obtain ⟨values, hall, hloop⟩ := ih k hok
      refine ⟨values, hall, ?_⟩
      rw [emitLoop, if_neg hpositive, hloop, List.map_cons]

namespace Alike
variable {em : Emitter H} {js : EventEmitter2 H}

theorem empty : Alike (Emitter.empty : Emitter H) EventEmitter2.empty :=
  ⟨fun _ => rfl, nofun, fun _ _ => rfl⟩

theorem counted (ha : Alike em js) {e : String} {i : Event H} (hi : i ∈ em.listeners e) :
    i.count = -1 ∨ 1 ≤ i.count := by
  have hkey : i.key ∈ (js.events e).filterMap Entry.live := ha.listeners e ▸ List.mem_map_of_mem hi
  obtain ⟨x, -, hx⟩ := List.mem_filterMap.mp hkey
  exact live_counted hx

theorem own_cases (ha : Alike em js) (e : String) :
    js.own e = none ∧ js.events e = [] ∨
      inherited e = none ∧ js.own e = some (.listeners (js.events e)) := by
  cases hown : js.own e with
  | none => exact .inl ⟨rfl, by simp [EventEmitter2.events, hown]⟩
  | some p =>
    cases p with
    | listeners events =>
      refine .inr ⟨?_, by simp [EventEmitter2.events, hown]⟩
      cases hin : inherited e with
      | none => rfl
      | some p =>
        rw [ha.unset e (by simp [hin])] at hown
        cases hown
    | inherited p => exact absurd hown (ha.held e p)

end Alike

theorem events_set (js : EventEmitter2 H) (e f : String) (events : List (Entry H)) :
    (js.set e (.listeners events)).events f = if f = e then events else js.events f := by
  by_cases hf : f = e
  · simp [EventEmitter2.set, EventEmitter2.events, hf]
  · simp [EventEmitter2.set, EventEmitter2.events, hf]

namespace Alike
variable {em em' : Emitter H} {js : EventEmitter2 H}

theorem set (ha : Alike em js) {e : String} {events : List (Entry H)} (hin : inherited e = none)
    (hothers : ∀ f, f ≠ e → em'.listeners f = em.listeners f)
    (hself : (em'.listeners e).map Event.key = events.filterMap Entry.live) :
    Alike em' (js.set e (.listeners events)) := by
  refine ⟨fun f => ?_, fun f p h => ?_, fun f hf => ?_⟩
  · rw [events_set]
    split
    · next h => rw [h, hself]
    · next h => rw [hothers f h, ha.listeners f]
  · by_cases h' : f = e
    · simp [EventEmitter2.set, h'] at h
    · simp only [EventEmitter2.set, Function.update_of_ne h'] at h
      exact ha.held f p h
  · have h' : f ≠ e := by
      rintro rfl
      exact hf hin
    simp only [EventEmitter2.set, Function.update_of_ne h']
    exact ha.unset f hf

theorem many (ha : Alike em js) {e : String} {h : H} {c : Count} {n : Int}
    (hin : inherited e = none) (hlive : Entry.live ⟨h, c⟩ = some (h, n)) :
    Alike (em.addManyListener e h n) (js.many e h c) := by
  have hothers (f : String) (hf : f ≠ e) :
      (em.addManyListener e h n).listeners f = em.listeners f := by
    rw [listeners_addManyListener, if_neg hf, List.append_nil]
  have hself : ((em.addManyListener e h n).listeners e).map Event.key =
      (js.events e ++ [Entry.mk h c]).filterMap Entry.live := by
    rw [listeners_addManyListener, if_pos rfl, List.map_append, List.filterMap_append, ha.listeners e,
      List.filterMap_cons_some hlive]
    rfl
  rcases ha.own_cases e with ⟨hown, hevents⟩ | ⟨-, hown⟩
  · rw [hevents, List.nil_append] at hself
    simp only [EventEmitter2.many, EventEmitter2.get, hown, hin, Option.map_none, Option.or_none]
    exact ha.set hin hothers hself
  · simp only [EventEmitter2.many, EventEmitter2.get, hown, Option.some_or]
    exact ha.set hin hothers hself

theorem off [DecidableEq H] (ha : Alike em js) (e : String) (h : H) :
    Alike (em.removeListener e h) (js.off e h) := by
  have hothers (f : String) (hf : f ≠ e) : (em.removeListener e h).listeners f = em.listeners f := by
    rw [listeners_removeListener, if_neg hf]
  have hself : ((em.removeListener e h).listeners e).map Event.key =
      ((js.events e).filter fun x => x.functor ≠ h).filterMap Entry.live := by
    have hkey : (fun i : Event H => decide (i.handler ≠ h)) = (fun p => decide (p.1 ≠ h)) ∘ Event.key :=
      rfl
    rw [listeners_removeListener, if_pos rfl, hkey, ← List.filter_map, ha.listeners e,
      List.filter_filterMap, List.filterMap_filter]
    apply List.filterMap_congr
    intro x _
    have hlive := live_functor x
    split at hlive
    · obtain ⟨n, hn⟩ := hlive
      rw [hn, Option.filter_some]
    · rw [hlive, Option.filter_none, ite_self]
  rcases ha.own_cases e with ⟨hown, hevents⟩ | ⟨hin, hown⟩
  · have hsame : js.off e h = js := by
      simp only [EventEmitter2.off, EventEmitter2.get, hown, Option.none_or]
      cases inherited e <;> rfl
    rw [hsame]
    refine ⟨fun f => ?_, ha.held, ha.unset⟩
    by_cases hf : f = e
    · rw [hf, hself, hevents]
      rfl
    · rw [hothers f hf, ha.listeners f]
  · simp only [EventEmitter2.off, EventEmitter2.get, hown, Option.some_or]
    exact ha.set hin hothers hself

theorem allOff (ha : Alike em js) (e : String) : Alike (em.removeAllListeners e) (js.allOff e) := by
  have hown (f : String) : (js.allOff e).own f = if f = e then none else js.own f := by
    simp only [EventEmitter2.allOff, Function.update_apply]
  refine ⟨fun f => ?_, fun f p h => ?_, fun f hf => ?_⟩
  · rw [listeners_removeAllListeners, EventEmitter2.events, hown f]
    split
    · rfl
    · exact ha.listeners f
  · rw [hown f] at h
    split at h
    · cases h
    · exact ha.held f p h
  · rw [hown f, ha.unset f hf, ite_self]

end Alike

theorem fire_key (i : Event H) (hi : i.count = -1 ∨ 1 ≤ i.count) :
    spendKey i.key = if i.fire.expired then none else some i.fire.key := by
  rcases hi with hi | hi
  · have hsame : i.fire = i := if_neg (by omega)
    have hleft : i.expired = false := by simp [Event.expired, hi]
    rw [hsame, hleft, spendKey, Event.key, if_pos hi]
    rfl
  · have hfire : i.fire = { i with count := i.count - 1 } := if_pos (by omega)
    have hne : i.count ≠ -1 := by omega
    rw [hfire, spendKey, Event.key, if_neg hne]
    by_cases h1 : 1 < i.count
    · have hleft : ¬ i.count - 1 = 0 := by omega
      simp [h1, hleft, Event.expired, Event.key]
    · have hleft : i.count - 1 = 0 := by omega
      simp [h1, hleft, Event.expired]

theorem fired_keys {vec : List (Event H)} (h : ∀ i ∈ vec, i.count = -1 ∨ 1 ≤ i.count) :
    ((vec.map Event.fire).filter fun i => !i.expired).map Event.key =
      (vec.map Event.key).filterMap spendKey := by
  induction vec with
  | nil => rfl
  | cons i vec ih =>
    have hi := fire_key i (h i (List.mem_cons_self ..))
    have ih := ih fun j hj => h j (List.mem_cons_of_mem i hj)
    rw [List.map_cons, List.map_cons, List.filter_cons]
    cases hx : i.fire.expired with
    | true =>
      rw [hx, if_pos rfl] at hi
      rw [List.filterMap_cons_none hi]
      simpa using ih
    | false =>
      rw [hx, if_neg Bool.false_ne_true] at hi
      rw [List.filterMap_cons_some hi, ← ih]
      rfl

theorem expired_count {vec : List (Event H)} (h : ∀ i ∈ vec, i.count = -1 ∨ 1 ≤ i.count) :
    (vec.map Event.fire).countP Event.expired = vec.countP fun i => i.count == 1 := by
  rw [List.countP_map]
  apply List.countP_congr
  intro i hi
  have hcount := h i hi
  simp only [Function.comp_apply, Event.fire, Event.expired, beq_iff_eq]
  split
  · show i.count - 1 = 0 ↔ _
    omega
  · show i.count = 0 ↔ _
    omega

theorem outcome_eq (em : Emitter H) (e : String) (args : List A) (behave : Nat → H → Except E V) :
    em.outcome e args behave =
      ⟨(((em.listeners e).map Event.key).map Prod.fst).map fun h => (h, args),
        .promise (promiseAll (((em.listeners e).map Event.key).mapIdx fun k p => behave k p.1))⟩ := by
  simp only [Emitter.outcome, Emitter.emit, emission_deliveries, List.map_map, mapIdx_map]
  rfl

theorem alike_emit {em : Emitter H} {js : EventEmitter2 H} (ha : Alike em js) {e : String}
    (hin : ∀ p ∈ inherited e, p.indexed = false)
    (hfew : (em.listeners e).countP (fun i => i.count == 1) ≤ 1) (args : List A)
    {behave : Nat → H → Except E V}
    (hok : ∀ r ∈ (em.listeners e).mapIdx (fun k i => behave k i.handler), r.isOk = true) :
    (∃ em', (em.emit e args).1 = some em' ∧ Alike em' (js.emit e args behave).1) ∧
      (js.emit e args behave).2 = em.outcome e args behave := by
  have hcounts (i : Event H) (hi : i ∈ em.listeners e) := ha.counted hi
  rw [← expired_count hcounts] at hfew
  have hsweep := eraseEach_of_few hfew
  have hsome : (em.emission Delivery.promise e args).1.isSome = true := by
    rw [emission_isSome, hsweep]
    rfl
  obtain ⟨em', hem'⟩ := Option.isSome_iff_exists.mp hsome
  obtain ⟨herase, hothers, -⟩ := emission_listeners hem'
  rw [hsweep] at herase
  have hkeys : (em'.listeners e).map Event.key = ((js.events e).map Entry.spent).filterMap Entry.live := by
    rw [← Option.some.inj herase, fired_keys hcounts, ha.listeners e, List.filterMap_filterMap,
      List.filterMap_map]
    exact List.filterMap_congr fun x _ => (live_spent x).symm
  rw [outcome_eq, ha.listeners e]
  rcases ha.own_cases e with ⟨hown, hevents⟩ | ⟨hname, hown⟩
  · have hsame : js.emit e args behave = (js, ⟨[], .promise (.ok [])⟩) := by
      cases hp : inherited e with
      | none => simp [EventEmitter2.emit, EventEmitter2.get, hown, hp]
      | some p => simp [EventEmitter2.emit, EventEmitter2.get, hown, hp, hin p hp]
    rw [hsame, hevents]
    refine ⟨⟨em', hem', fun f => ?_, ha.held, ha.unset⟩, rfl⟩
    by_cases hf : f = e
    · rw [hf, hkeys, hevents]
      rfl
    · rw [hothers f hf, ha.listeners f]
  · have hlive : ∀ r ∈ ((js.events e).filterMap Entry.live).mapIdx (fun j p => behave (0 + j) p.1),
        r.isOk = true := by
      rw [← ha.listeners e, mapIdx_map]
      simp only [Nat.zero_add]
      exact hok
    obtain ⟨values, hall, hloop⟩ := emitLoop_ok behave 0 (js.events e) hlive
    simp only [Nat.zero_add] at hall
    have hjs : js.emit e args behave = (js.set e (.listeners ((js.events e).map Entry.spent)),
        ⟨(((js.events e).filterMap Entry.live).map Prod.fst).map fun h => (h, args),
          .promise (.ok values)⟩) := by
      simp only [EventEmitter2.emit, EventEmitter2.get, hown, Option.some_or, hloop]
    rw [hjs, hall]
    exact ⟨⟨em', hem', ha.set hname hothers hkeys⟩, rfl⟩

namespace Twins

structure Inv (s : Twins H A V E) : Prop where
  alike : ∀ em ∈ s.native, Alike em s.stream
  agreed : s.Agreed

theorem start_inv : (start : Twins H A V E).Inv := by
  refine ⟨?_, nofun⟩
  rintro _ ⟨⟩
  exact Alike.empty

theorem toInt_counted (undefined : Int → Int) {n : Int} (h : 1 ≤ n ∧ n ≤ intMax) :
    toInt undefined n = n := if_pos ⟨by simp only [intMax]; omega, h.2⟩

theorem twins_step [DecidableEq H] (undefined : Int → Int) (s : Twins H A V E)
    (r : Request H A V E) (s' : Twins H A V E) (hs : s.Inv) (hr : s.shared r)
    (h : (twins undefined H A V E).step s r = some s') : s'.Inv := by
  obtain ⟨em, hem, h⟩ := Option.map_eq_some_iff.mp h
  have ha := hs.alike em hem
  cases r with
  | on e h₁ =>
    cases h
    refine ⟨?_, hs.agreed⟩
    rintro _ ⟨⟩
    exact ha.many hr rfl
  | once e h₁ =>
    cases h
    refine ⟨?_, hs.agreed⟩
    rintro _ ⟨⟩
    exact ha.many hr rfl
  | many e h₁ n =>
    cases h
    refine ⟨?_, hs.agreed⟩
    rintro _ ⟨⟩
    obtain ⟨hname, hcount⟩ := hr
    rw [toInt_counted undefined hcount]
    exact ha.many hname (if_pos hcount.1)
  | off e h₁ =>
    cases h
    refine ⟨?_, hs.agreed⟩
    rintro _ ⟨⟩
    exact ha.off e h₁
  | allOff e =>
    cases h
    refine ⟨?_, hs.agreed⟩
    rintro _ ⟨⟩
    exact ha.allOff e
  | emit e args behave =>
    cases h
    obtain ⟨hfew, hok⟩ := hr.2 em hem
    obtain ⟨⟨em', hem', halike⟩, hanswer⟩ := alike_emit ha hr.1 hfew args hok
    refine ⟨fun em₁ hem₁ => ?_, fun a hin => ?_⟩
    · cases hem'.symm.trans hem₁
      exact halike
    · rcases List.mem_append.mp hin with hin | hin
      · exact hs.agreed a hin
      · cases List.mem_singleton.mp hin
        refine ⟨hanswer, ?_⟩
        simp only [outcome_eq, mapIdx_map]

theorem agreed_of_shared [DecidableEq H] (undefined : Int → Int) (rs : List (Request H A V E))
    (h : (twins undefined H A V E).meets shared start rs) :
    (twins undefined H A V E).always Agreed start rs :=
  (twins undefined H A V E).always_of_meets (fun _ hs => hs.agreed) (twins_step undefined) start_inv h

def answering (k h : Nat) : Except Nat Nat := .ok (10 * k + h)

def mixedRequests : List (Request Nat Nat Nat Nat) :=
  [.on "data" 1, .once "data" 2, .many "data" 3 2, .emit "data" [7] answering, .off "data" 1,
    .emit "data" [] answering, .emit "toString" [] answering, .allOff "data",
    .emit "data" [8] answering]

theorem agreed_of_shared_mixed :
    (twins (fun _ => 0) Nat Nat Nat Nat).meets shared start mixedRequests ∧
      (twins (fun _ => 0) Nat Nat Nat Nat).always Agreed start mixedRequests := by
  have h : (twins (fun _ => 0) Nat Nat Nat Nat).meets shared start mixedRequests := by decide
  exact ⟨h, agreed_of_shared (fun _ => 0) mixedRequests h⟩

theorem not_agreed [DecidableEq H] {undefined : Int → Int} {rs : List (Request H A V E)}
    {s : Twins H A V E} (hs : (twins undefined H A V E).run start rs = some s)
    (hcalls : s.answers.map (fun a => a.stream.calls) ≠ s.answers.map fun a => a.native.calls) :
    ¬ (twins undefined H A V E).always Agreed start rs := by
  intro h
  have hagreed := ((twins undefined H A V E).always_iff_prefixes _ _ _).mp h _ List.prefix_rfl s hs
  exact hcalls (List.map_congr_left fun a ha => by rw [(hagreed a ha).1])

def throwing (_ h : Nat) : Except Nat Nat := if h = 1 then .error 5 else .ok h

theorem streams_disagree :
    ¬ (twins (fun _ => 0) Nat Nat Nat Nat).always Agreed start
        [.on "data" 1, .on "data" 2, .emit "data" [] throwing] ∧
      ¬ (twins (fun _ => 0) Nat Nat Nat Nat).always Agreed start
        [.many "data" 1 0, .emit "data" [] answering] ∧
      ¬ (twins (fun _ => 0) Nat Nat Nat Nat).always Agreed start
        [.on "toString" 1, .emit "toString" [] answering] ∧
      ¬ (twins (fun _ => 0) Nat Nat Nat Nat).always Agreed start
        [.once "data" 1, .once "data" 2, .on "data" 3, .emit "data" [] answering,
          .emit "data" [] answering] := by
  exact ⟨not_agreed rfl (by decide), not_agreed rfl (by decide), not_agreed rfl (by decide),
    not_agreed rfl (by decide)⟩

end Twins

end NexusRuntime.EventEmitter
