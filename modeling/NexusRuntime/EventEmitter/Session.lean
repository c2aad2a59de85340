import NexusRuntime.EventEmitter.Delivery

namespace NexusRuntime.EventEmitter

open Transition

variable {H A : Type} [DecidableEq H]

structure Emission (H A : Type) where
  history : List (Op H A)
  event : String
  args : List A
  deliveries : List (Delivery H A)

def Emission.exact (m : Emission H A) : Prop :=
  m.deliveries.map Delivery.call = owed m.history m.event m.args

structure Session (H A : Type) where
  emitter : Option (Emitter H)
  history : List (Op H A)
  emissions : List (Emission H A)

def Session.start : Session H A := ⟨some Emitter.empty, [], []⟩

def Session.apply (s : Session H A) (op : Op H A) : Option (Session H A) :=
  s.emitter.map fun em =>
    { emitter := (em.apply op).1
      history := s.history ++ [op]
      emissions := s.emissions ++ op.emission.toList.map fun p =>
        ⟨s.history, p.1, p.2, (em.apply op).2⟩ }

structure Session.Exact (s : Session H A) : Prop where
  past : ∀ m ∈ s.emissions, m.exact
  next : ∃ em, s.emitter = some em ∧ ∀ e args, em.calls e args = owed s.history e args

structure Session.Inv (s : Session H A) : Prop where
  past : ∀ m ∈ s.emissions, m.exact
  tracks : ∃ em, s.emitter = some em ∧ Tracks em s.history

end NexusRuntime.EventEmitter
