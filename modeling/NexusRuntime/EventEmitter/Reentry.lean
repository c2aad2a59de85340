import NexusRuntime.EventEmitter.Delivery
import NexusRuntime.Sequence.Place

namespace NexusRuntime.EventEmitter

open Transition Sequence

variable {H : Type}

-- the range-for of one emit or emitFast call; missed: what was removed before its turn
structure Pass where
  event : String
  began : List Nat
  pos : Nat
  valid : Bool
  visited : List Nat
  missed : List Nat
deriving DecidableEq, Repr

inductive Action (H : Type) where
  | on (e : String) (h : H)
  | once (e : String) (h : H)
  | many (e : String) (h : H) (count : Int)
  | off (e : String) (h : H)
  | allOff (e : String)
  | emit (e : String)
  | returns
deriving DecidableEq, Repr

namespace Pass

def stop (f : Pass) : Nat := f.began.length

-- erase() invalidates the iterators at and after the first element it takes out
def erase (e : String) (vec : List (Event H)) (gone : Event H → Bool) (f : Pass) : Pass :=
  if f.event = e then { f with
    valid := f.valid && !(vec.take (f.pos + 1)).any gone
    missed := f.missed ++ ((vec.filter gone).map Event.id).filter fun i => i ∉ f.visited }
  else f

def relocate (e : String) (f : Pass) : Pass := if f.event = e then { f with valid := false } else f

def exact (f : Pass) : Prop := ∀ i ∈ f.began, i ∉ f.missed → f.visited.count i = 1

end Pass

namespace Emitter

def fireAt (em : Emitter H) (e : String) (p : Nat) : Emitter H :=
  { em with myMap := Function.update em.myMap e (some ((em.listeners e).modify p Event.fire)) }

structure Distinct (em : Emitter H) : Prop where
  nodup : ∀ e, ((em.listeners e).map Event.id).Nodup
  allocated : ∀ e, ∀ i ∈ em.listeners e, i.id < em.allocated

end Emitter

-- stack: the emissions whose handlers are running, the innermost first
structure Reentry (H : Type) where
  emitter : Option (Emitter H)
  capacity : String → Nat
  stack : List Pass
  finished : List Pass
  invalid : Bool

namespace Reentry

def start : Reentry H := ⟨some Emitter.empty, fun _ => 0, [], [], false⟩

def insert (growth : Nat → Nat) (s : Reentry H) (em em' : Emitter H) (e : String) : Reentry H :=
  if (em.listeners e).length < s.capacity e then { s with emitter := some em' }
  else { s with
    emitter := some em'
    capacity := Function.update s.capacity e (growth (em.listeners e).length)
    stack := s.stack.map (Pass.relocate e) }

def tidied (s : Reentry H) (em : Emitter H) (e : String) : Reentry H :=
  { s with
    emitter := em.tidy e
    capacity := if (em.tidy e).any fun em' => (em'.myMap e).isNone then
      Function.update s.capacity e 0 else s.capacity
    stack := s.stack.map (Pass.erase e (em.listeners e) Event.expired) }

def enter (s : Reentry H) (em : Emitter H) (e : String) : Reentry H :=
  match em.myMap e with
  | none => s
  | some [] => s.tidied em e
  | some (i :: vec) => { s with
    emitter := some (em.fireAt e 0)
    stack := ⟨e, (i :: vec).map Event.id, 0, true, [i.id], []⟩ :: s.stack }

def advance (s : Reentry H) (em : Emitter H) (f : Pass) (rest : List Pass) : Reentry H :=
  if f.valid = false then { s with invalid := true }
  else if f.pos + 1 = f.stop then
    { s with stack := rest, finished := s.finished ++ [f] : Reentry H }.tidied em f.event
  else match (em.listeners f.event)[f.pos + 1]? with
    | none => { s with invalid := true }
    | some i => { s with
      emitter := some (em.fireAt f.event (f.pos + 1))
      stack := { f with pos := f.pos + 1, visited := f.visited ++ [i.id] } :: rest }

variable [DecidableEq H]

-- what the running program does next; once an emission has used a bad iterator nothing is known
def step (growth : Nat → Nat) (s : Reentry H) (a : Action H) : Option (Reentry H) :=
  if s.invalid then none else s.emitter.bind fun em =>
    match a with
    | .on e h => some (s.insert growth em (em.addListener e h) e)
    | .once e h => some (s.insert growth em (em.addOnceListener e h) e)
    | .many e h n => some (s.insert growth em (em.addManyListener e h n) e)
    | .off e h => some { s with
      emitter := some (em.removeListener e h)
      stack := s.stack.map (Pass.erase e (em.listeners e) fun i => i.handler = h) }
    | .allOff e => some { s with
      emitter := some (em.removeAllListeners e)
      capacity := Function.update s.capacity e 0
      stack := (s.stack.map (Pass.erase e (em.listeners e) fun _ => true)).map (Pass.relocate e) }
    | .emit e => some (s.enter em e)
    | .returns =>
      match s.stack with
      | [] => none
      | f :: rest => some (s.advance em f rest)

structure Sound (s : Reentry H) : Prop where
  defined : s.invalid = false
  exact : ∀ f ∈ s.finished, f.exact

def quiet (s : Reentry H) (e : String) : Prop := ∀ f ∈ s.stack, f.event ≠ e

def keeps (em : Emitter H) (gone : Event H → Bool) (f : Pass) : Prop :=
  ∀ i ∈ (em.listeners f.event).take (f.pos + 1), gone i = false

def steadyIn (s : Reentry H) (em : Emitter H) : Action H → Prop
  | .on e _ | .once e _ | .many e _ _ => s.quiet e ∨ (em.listeners e).length < s.capacity e
  | .off e h => ∀ f ∈ s.stack, f.event = e → keeps em (fun i => i.handler = h) f
  | .allOff e => s.quiet e
  | .emit _ => True
  | .returns => ∀ f ∈ s.stack.head?,
    if f.pos + 1 = f.stop then
      ∀ g ∈ s.stack.tail, g.event = f.event →
        (em.listeners f.event).countP Event.expired ≤ 1 ∧ keeps em Event.expired g
    else f.pos + 1 < (em.listeners f.event).length

def steady (s : Reentry H) (a : Action H) : Prop := ∀ em ∈ s.emitter, s.steadyIn em a

instance decidableQuiet (s : Reentry H) (e : String) : Decidable (s.quiet e) :=
  inferInstanceAs (Decidable (∀ f ∈ s.stack, f.event ≠ e))

instance decidableKeeps (em : Emitter H) (gone : Event H → Bool) (f : Pass) :
    Decidable (keeps em gone f) :=
  inferInstanceAs (Decidable (∀ i ∈ (em.listeners f.event).take (f.pos + 1), gone i = false))

instance decidableSteadyIn (s : Reentry H) (em : Emitter H) :
    (a : Action H) → Decidable (s.steadyIn em a)
  | .on e _ | .once e _ | .many e _ _ =>
    inferInstanceAs (Decidable (s.quiet e ∨ (em.listeners e).length < s.capacity e))
  | .off e h => inferInstanceAs
    (Decidable (∀ f ∈ s.stack, f.event = e → keeps em (fun i => i.handler = h) f))
  | .allOff e => inferInstanceAs (Decidable (s.quiet e))
  | .emit _ => .isTrue trivial
  | .returns => inferInstanceAs (Decidable (∀ f ∈ s.stack.head?,
    if f.pos + 1 = f.stop then
      ∀ g ∈ s.stack.tail, g.event = f.event →
        (em.listeners f.event).countP Event.expired ≤ 1 ∧ keeps em Event.expired g
    else f.pos + 1 < (em.listeners f.event).length))

instance decidableSteady (s : Reentry H) (a : Action H) : Decidable (s.steady a) :=
  inferInstanceAs (Decidable (∀ em ∈ s.emitter, s.steadyIn em a))

end Reentry

structure Pass.Holds (f : Pass) (vec : List (Event H)) (allocated : Nat) : Prop where
  valid : f.valid = true
  before : f.pos < f.stop
  inside : f.pos < vec.length
  old : ∀ i ∈ f.began, i < allocated
  split : ∃ rest fresh, (vec.map Event.id).drop (f.pos + 1) = rest ++ fresh ∧
    rest.length + f.pos + 1 ≤ f.stop ∧ (∀ i ∈ rest, i ∉ f.visited) ∧ (∀ i ∈ fresh, i ∉ f.began) ∧
    ∀ i ∈ f.began, i ∈ f.missed ∨ i ∈ rest ∨ f.visited.count i = 1

namespace Pass
variable {f : Pass} {vec vec' : List (Event H)} {n : Nat}

theorem Holds.same (h : f.Holds vec n) (hids : vec'.map Event.id = vec.map Event.id) :
    f.Holds vec' n := by
  have hlen : vec'.length = vec.length := by
    rw [← List.length_map Event.id, hids, List.length_map]
  exact ⟨h.valid, h.before, hlen ▸ h.inside, h.old, hids ▸ h.split⟩

theorem Holds.insert (h : f.Holds vec n) {i : Event H} (hi : i.id = n) :
    f.Holds (vec ++ [i]) (n + 1) := by
  obtain ⟨rest, fresh, hdrop, hlen, hrest, hfresh, hbegan⟩ := h.split
  refine ⟨h.valid, h.before, ?_, fun j hj => Nat.lt_succ_of_lt (h.old j hj), ?_⟩
  · rw [List.length_append]
    exact Nat.lt_add_right _ h.inside
  · refine ⟨rest, fresh ++ [n], ?_, hlen, hrest, fun j hj => ?_, hbegan⟩
    · have hin : f.pos + 1 ≤ (vec.map Event.id).length := by
        rw [List.length_map]
        exact h.inside
      rw [List.map_append, List.drop_append_of_le_length hin, hdrop, List.append_assoc]
      simp [hi]
    · rcases List.mem_append.mp hj with hj | hj
      · exact hfresh j hj
      · cases List.mem_singleton.mp hj
        exact fun hb => Nat.lt_irrefl _ (h.old _ hb)

theorem Holds.erase (h : f.Holds vec n) {gone : Event H → Bool}
    (hkeep : ∀ i ∈ vec.take (f.pos + 1), gone i = false) :
    (f.erase f.event vec gone).Holds (vec.filter fun i => !gone i) n := by
  obtain ⟨rest, fresh, hdrop, hlen, hrest, hfresh, hbegan⟩ := h.split
  rw [← List.map_drop] at hdrop
  obtain ⟨as, bs, hvec, rfl, rfl⟩ := List.map_eq_append_iff.mp hdrop
  have hnone : (vec.take (f.pos + 1)).any gone = false := by simpa using hkeep
  have hpre : (vec.take (f.pos + 1)).length = f.pos + 1 := by
    rw [List.length_take]
    exact Nat.min_eq_left h.inside
  have hfilter : vec.filter (fun i => !gone i) =
      vec.take (f.pos + 1) ++ ((as ++ bs).filter fun i => !gone i) := by
    have hself : (vec.take (f.pos + 1)).filter (fun i => !gone i) = vec.take (f.pos + 1) :=
      List.filter_eq_self.mpr fun i hi => by simp [hkeep i hi]
    calc vec.filter (fun i => !gone i)
        = (vec.take (f.pos + 1) ++ vec.drop (f.pos + 1)).filter fun i => !gone i := by
          rw [List.take_append_drop]
      _ = vec.take (f.pos + 1) ++ ((as ++ bs).filter fun i => !gone i) := by
          rw [List.filter_append, hself, hvec]
  have hf : f.erase f.event vec gone = { f with
      missed := f.missed ++ ((vec.filter gone).map Event.id).filter fun i => i ∉ f.visited } := by
    rw [Pass.erase, if_pos rfl, hnone, Bool.not_false, Bool.and_true]
  rw [hf]
  refine ⟨h.valid, h.before, ?_, h.old, ?_⟩
  · rw [hfilter, List.length_append, hpre]
    exact Nat.lt_add_right _ (Nat.lt_succ_self _)
  · refine ⟨(as.filter fun i => !gone i).map Event.id, (bs.filter fun i => !gone i).map Event.id,
      ?_, ?_, fun i hi => ?_, fun i hi => ?_, fun i hi => ?_⟩
    · rw [hfilter, ← List.map_drop, List.drop_left' hpre, List.filter_append, List.map_append]
    · have hle := List.length_filter_le (fun i => !gone i) as
      rw [List.length_map] at hlen ⊢
      show _ + f.pos + 1 ≤ f.stop
      omega
    · exact hrest i (List.map_subset _ (List.filter_subset_self _) hi)
    · exact hfresh i (List.map_subset _ (List.filter_subset_self _) hi)
    · rcases hbegan i hi with hmissed | hin | hcount
      · exact .inl (List.mem_append_left _ hmissed)
      · obtain ⟨a, ha, rfl⟩ := List.mem_map.mp hin
        cases hgone : gone a with
        | false => exact .inr (.inl (List.mem_map_of_mem (List.mem_filter.mpr ⟨ha, by simp [hgone]⟩)))
        | true =>
          have hmem : a ∈ vec := List.mem_of_mem_drop (hvec ▸ List.mem_append_left _ ha)
          refine .inl (List.mem_append_right _ (List.mem_filter.mpr ⟨?_, by simpa using hrest _ hin⟩))
          exact List.mem_map_of_mem (List.mem_filter.mpr ⟨hmem, hgone⟩)
      · exact .inr (.inr hcount)

theorem Holds.advance (h : f.Holds vec n) (hnodup : (vec.map Event.id).Nodup)
    (hnext : f.pos + 1 ≠ f.stop) {i : Event H} (hi : vec[f.pos + 1]? = some i) :
    Holds { f with pos := f.pos + 1, visited := f.visited ++ [i.id] } vec n := by
  obtain ⟨rest, fresh, hdrop, hlen, hrest, hfresh, hbegan⟩ := h.split
  have hbefore := h.before
  have hat := (List.getElem?_eq_some_iff.mp hi).1
  have hhead : (vec.map Event.id).drop (f.pos + 1) =
      i.id :: (vec.map Event.id).drop (f.pos + 1 + 1) := by
    rw [List.drop_eq_getElem_cons (by rw [List.length_map]; exact hat), List.getElem_map,
      (List.getElem?_eq_some_iff.mp hi).2]
  have hcount (j : Nat) : (f.visited ++ [i.id]).count j =
      f.visited.count j + if i.id = j then 1 else 0 := count_snoc _ _ _
  have hsplit := hdrop
  rw [hhead] at hsplit
  refine ⟨h.valid, ?_, hat, h.old, ?_⟩
  · show f.pos + 1 < f.stop
    omega
  cases rest with
  | nil =>
    cases fresh with
    | nil => cases hsplit
    | cons x fresh =>
      obtain ⟨hx, htail⟩ := List.cons.inj hsplit
      refine ⟨[], fresh, htail, ?_, nofun, fun j hj => hfresh j (List.mem_cons_of_mem x hj),
        fun j hj => ?_⟩
      · show 0 + (f.pos + 1) + 1 ≤ f.stop
        omega
      · have hne : i.id ≠ j := by
          rintro rfl
          exact hfresh _ (hx ▸ List.mem_cons_self ..) hj
        rcases hbegan j hj with hmissed | hin | hone
        · exact .inl hmissed
        · cases hin
        · refine .inr (.inr ?_)
          rw [hcount j, if_neg hne, hone]
  | cons x rest =>
    obtain ⟨hx, htail⟩ := List.cons.inj hsplit
    have hdistinct : (x :: rest).Nodup :=
      (List.nodup_append.mp (hdrop ▸ hnodup.sublist (List.drop_sublist _ _))).1
    rw [List.nodup_cons] at hdistinct
    refine ⟨rest, fresh, htail, ?_, fun j hj hin => ?_, hfresh, fun j hj => ?_⟩
    · simp only [List.length_cons] at hlen
      show rest.length + (f.pos + 1) + 1 ≤ f.stop
      omega
    · rcases List.mem_append.mp hin with hin | hin
      · exact hrest j (List.mem_cons_of_mem x hj) hin
      · cases List.mem_singleton.mp hin
        exact hdistinct.1 (hx ▸ hj)
    · rcases hbegan j hj with hmissed | hin | hone
      · exact .inl hmissed
      · rcases List.mem_cons.mp hin with rfl | hin
        · refine .inr (.inr ?_)
          rw [hcount j, if_pos hx, List.count_eq_zero.mpr (hrest j (List.mem_cons_self ..))]
        · exact .inr (.inl hin)
      · refine .inr (.inr ?_)
        have hne : i.id ≠ j := by
          rintro rfl
          have hnone : f.visited.count i.id = 0 :=
            List.count_eq_zero.mpr (hrest _ (hx ▸ List.mem_cons_self ..))
          omega
        rw [hcount j, if_neg hne, hone]

theorem Holds.finish (h : f.Holds vec n) (hlast : f.pos + 1 = f.stop) : f.exact := by
  obtain ⟨rest, fresh, -, hlen, -, -, hbegan⟩ := h.split
  have hnil : rest = [] := List.length_eq_zero_iff.mp (by omega)
  intro i hi hmissed
  rcases hbegan i hi with hin | hin | hcount
  · exact absurd hin hmissed
  · rw [hnil] at hin
    cases hin
  · exact hcount

theorem Holds.later (h : f.Holds vec n) : f.Holds vec (n + 1) :=
  ⟨h.valid, h.before, h.inside, fun i hi => Nat.lt_succ_of_lt (h.old i hi), h.split⟩

end Pass

namespace Emitter
variable {em em' : Emitter H}

theorem Distinct.of_sublist (h : em.Distinct) (hallocated : em'.allocated = em.allocated)
    (hsub : ∀ e, ((em'.listeners e).map Event.id).Sublist ((em.listeners e).map Event.id)) :
    em'.Distinct := by
  refine ⟨fun e => (h.nodup e).sublist (hsub e), fun e i hi => ?_⟩
  obtain ⟨j, hj, hid⟩ := List.mem_map.mp ((hsub e).subset (List.mem_map_of_mem hi))
  rw [hallocated, ← hid]
  exact h.allocated e j hj

theorem Distinct.add (h : em.Distinct) (e : String) (callback : H) (count : Int) :
    (em.addManyListener e callback count).Distinct := by
  refine ⟨fun f => ?_, fun f i hi => ?_⟩
  · rw [listeners_addManyListener]
    split
    · rw [List.map_append, List.nodup_append]
      refine ⟨h.nodup f, List.pairwise_singleton _ _, fun a ha b hb => ?_⟩
      obtain ⟨i, hi, rfl⟩ := List.mem_map.mp ha
      cases List.mem_singleton.mp hb
      exact Nat.ne_of_lt (h.allocated f i hi)
    · rw [List.append_nil]
      exact h.nodup f
  · rw [listeners_addManyListener] at hi
    rcases List.mem_append.mp hi with hi | hi
    · exact Nat.lt_succ_of_lt (h.allocated f i hi)
    · split at hi
      · cases List.mem_singleton.mp hi
        exact Nat.lt_succ_self _
      · cases hi

theorem Distinct.tidy (h : em.Distinct) {e : String} (ht : em.tidy e = some em') : em'.Distinct := by
  obtain ⟨herase, hothers, hallocated⟩ := tidy_listeners ht
  apply h.of_sublist hallocated
  intro f
  by_cases hf : f = e
  · rw [hf]
    exact (eraseEach_sublist herase).map _
  · rw [hothers f hf]

end Emitter

namespace Reentry

structure Inv (s : Reentry H) : Prop where
  defined : s.invalid = false
  exact : ∀ f ∈ s.finished, f.exact
  holds : ∀ em ∈ s.emitter, em.Distinct ∧
    ∀ f ∈ s.stack, f.Holds (em.listeners f.event) em.allocated

variable {s : Reentry H} {em : Emitter H}

theorem start_inv : (start : Reentry H).Inv := by
  refine ⟨rfl, nofun, ?_⟩
  rintro _ ⟨⟩
  exact ⟨⟨fun _ => List.nodup_nil, nofun⟩, nofun⟩

variable [DecidableEq H]

end Reentry

end NexusRuntime.EventEmitter
