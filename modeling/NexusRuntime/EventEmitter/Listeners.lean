import Mathlib.Logic.Function.Basic
import NexusRuntime.Sequence.Erase

namespace NexusRuntime.EventEmitter

open Sequence

variable {H A : Type}

structure Event (H : Type) where
  id : Nat
  name : String
  handler : H
  count : Int
deriving DecidableEq, Repr

structure Emitter (H : Type) where
  myMap : String → Option (List (Event H))
  allocated : Nat

def Emitter.empty : Emitter H := ⟨fun _ => none, 0⟩

def Emitter.listeners (em : Emitter H) (e : String) : List (Event H) := (em.myMap e).getD []

structure Call (H A : Type) where
  listener : Nat
  handler : H
  args : List A
deriving DecidableEq, Repr

inductive Delivery (H A : Type) where
  | promise (c : Call H A)
  | direct (c : Call H A)
  | task (c : Call H A)
deriving DecidableEq, Repr

def Delivery.call : Delivery H A → Call H A
  | .promise c => c
  | .direct c => c
  | .task c => c

def Emitter.addManyListener (em : Emitter H) (e : String) (callback : H) (count : Int) :
    Emitter H where
  myMap := Function.update em.myMap e (some (em.listeners e ++ [⟨em.allocated, e, callback, count⟩]))
  allocated := em.allocated + 1

def Emitter.addListener (em : Emitter H) (e : String) (callback : H) : Emitter H :=
  em.addManyListener e callback (-1)

def Emitter.addOnceListener (em : Emitter H) (e : String) (callback : H) : Emitter H :=
  em.addManyListener e callback 1

def Emitter.removeAllListeners (em : Emitter H) (e : String) : Emitter H :=
  { em with myMap := Function.update em.myMap e none }

def Emitter.removeListener [DecidableEq H] (em : Emitter H) (e : String) (callback : H) :
    Emitter H :=
  match em.myMap e with
  | some vec =>
    { em with myMap := Function.update em.myMap e (some (vec.filter fun i => i.handler ≠ callback)) }
  | none => em

def Event.fire (i : Event H) : Event H :=
  if i.count > 0 then { i with count := i.count - 1 } else i

def Event.expired (i : Event H) : Bool := i.count == 0

def Emitter.tidy (em : Emitter H) (e : String) : Option (Emitter H) :=
  match em.myMap e with
  | some vec => do
    let vec' ← eraseEach vec (vec.findIdxs Event.expired)
    pure { em with myMap := Function.update em.myMap e (if vec'.isEmpty then none else some vec') }
  | none => some em

def Emitter.emission (deliver : Call H A → Delivery H A) (em : Emitter H) (e : String)
    (args : List A) : Option (Emitter H) × List (Delivery H A) :=
  match em.myMap e with
  | some vec =>
    (Emitter.tidy { em with myMap := Function.update em.myMap e (some (vec.map Event.fire)) } e,
      vec.map fun i => deliver ⟨i.id, i.handler, args⟩)
  | none => (some em, [])

def Emitter.emit (em : Emitter H) (e : String) (args : List A) :
    Option (Emitter H) × List (Delivery H A) := em.emission .promise e args

def Emitter.emitFast (em : Emitter H) (e : String) (args : List A) :
    Option (Emitter H) × List (Delivery H A) := em.emission .direct e args

def Emitter.emitFastAndSchedule (em : Emitter H) (e : String) (args : List A) :
    Option (Emitter H) × List (Delivery H A) := em.emission .task e args

@[simp] theorem listeners_empty (e : String) : (Emitter.empty : Emitter H).listeners e = [] := rfl

theorem listeners_addManyListener (em : Emitter H) (e f : String) (h : H) (n : Int) :
    (em.addManyListener e h n).listeners f =
      em.listeners f ++ if f = e then [⟨em.allocated, e, h, n⟩] else [] := by
  by_cases hf : f = e
  · subst hf
    simp [Emitter.addManyListener, Emitter.listeners]
  · simp [Emitter.addManyListener, Emitter.listeners, hf]

theorem listeners_removeAllListeners (em : Emitter H) (e f : String) :
    (em.removeAllListeners e).listeners f = if f = e then [] else em.listeners f := by
  by_cases hf : f = e
  · subst hf
    simp [Emitter.removeAllListeners, Emitter.listeners]
  · simp [Emitter.removeAllListeners, Emitter.listeners, hf]

theorem listeners_removeListener [DecidableEq H] (em : Emitter H) (e f : String) (h : H) :
    (em.removeListener e h).listeners f =
      if f = e then (em.listeners f).filter (fun i => i.handler ≠ h) else em.listeners f := by
  simp only [Emitter.removeListener]
  by_cases hf : f = e
  · subst hf
    cases hm : em.myMap f <;> simp [Emitter.listeners, hm]
  · cases hm : em.myMap e <;> simp [Emitter.listeners, hf]

theorem tidy_listeners {em em' : Emitter H} {e : String} (h : em.tidy e = some em') :
    eraseEach (em.listeners e) ((em.listeners e).findIdxs Event.expired) = some (em'.listeners e) ∧
      (∀ f, f ≠ e → em'.listeners f = em.listeners f) ∧ em'.allocated = em.allocated := by
  simp only [Emitter.tidy] at h
  cases hm : em.myMap e with
  | none =>
    obtain rfl : em = em' := by simpa [hm] using h
    simp [Emitter.listeners, hm]
  | some vec =>
    simp only [hm, Option.bind_eq_bind, Option.bind_eq_some_iff, Option.pure_def,
      Option.some.injEq] at h
    obtain ⟨vec', hv, rfl⟩ := h
    refine ⟨?_, ?_, rfl⟩
    · rw [show em.listeners e = vec by simp [Emitter.listeners, hm], hv]
      cases vec' <;> simp [Emitter.listeners]
    · intro f hf
      simp [Emitter.listeners, hf]

theorem tidy_isSome (em : Emitter H) (e : String) :
    (em.tidy e).isSome =
      (eraseEach (em.listeners e) ((em.listeners e).findIdxs Event.expired)).isSome := by
  simp only [Emitter.tidy]
  cases hm : em.myMap e with
  | none => simp [Emitter.listeners, hm]
  | some vec =>
    simp only [Emitter.listeners, hm, Option.getD_some]
    cases eraseEach vec (vec.findIdxs Event.expired) <;> rfl

theorem emission_deliveries (deliver : Call H A → Delivery H A) (em : Emitter H) (e : String)
    (args : List A) : (em.emission deliver e args).2 =
      (em.listeners e).map fun i => deliver ⟨i.id, i.handler, args⟩ := by
  simp only [Emitter.emission]
  cases hm : em.myMap e with
  | none => simp [Emitter.listeners, hm]
  | some vec => simp [Emitter.listeners, hm]

theorem emission_isSome (deliver : Call H A → Delivery H A) (em : Emitter H) (e : String)
    (args : List A) : (em.emission deliver e args).1.isSome =
      (eraseEach ((em.listeners e).map Event.fire)
        (((em.listeners e).map Event.fire).findIdxs Event.expired)).isSome := by
  simp only [Emitter.emission]
  cases hm : em.myMap e with
  | none => simp [Emitter.listeners, hm]
  | some vec => simp [tidy_isSome, Emitter.listeners, hm]

theorem emission_listeners {deliver : Call H A → Delivery H A} {em em' : Emitter H} {e : String}
    {args : List A} (h : (em.emission deliver e args).1 = some em') :
    eraseEach ((em.listeners e).map Event.fire)
        (((em.listeners e).map Event.fire).findIdxs Event.expired) = some (em'.listeners e) ∧
      (∀ f, f ≠ e → em'.listeners f = em.listeners f) ∧ em'.allocated = em.allocated := by
  simp only [Emitter.emission] at h
  cases hm : em.myMap e with
  | none =>
    obtain rfl : em = em' := by simpa [hm] using h
    simp [Emitter.listeners, hm]
  | some vec =>
    obtain ⟨he, ho, ha⟩ := tidy_listeners (by simpa only [hm] using h)
    refine ⟨by simpa [Emitter.listeners, hm] using he, ?_, ha⟩
    intro f hf
    rw [ho f hf]
    simp [Emitter.listeners, hf]

end NexusRuntime.EventEmitter
