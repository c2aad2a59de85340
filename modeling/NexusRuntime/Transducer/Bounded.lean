import NexusRuntime.Transducer.Feed

namespace Transducer.Machine

variable {α β ε : Type} (t : Machine α β ε)

-- a machine's state together with the output it has produced but not handed over
structure Holding where
  state : t.State
  out : List β

def clean : t.Holding := ⟨t.fresh, []⟩

def outputs (h : t.Holding) (xs : List α) : List β := h.out ++ (t.feed h.state xs).out

-- one call with room for `capacity` outputs; `full` when it stops for want of room
structure Writes (h : t.Holding) (xs : List α) (capacity consumed : Nat) (written : List β)
    (left : t.Holding) (full : Bool) : Prop where
  within : consumed ≤ xs.length
  reads : (t.feed h.state (xs.take consumed)).result = .ok left.state
  handed : written ++ left.out = h.out ++ (t.feed h.state (xs.take consumed)).out
  fills : full = true → written.length = capacity
  finishes : full = false → consumed = xs.length ∧ left.out = []

variable {t}
variable {h left : t.Holding} {xs : List α} {capacity consumed : Nat} {written : List β} {full : Bool}

theorem Writes.feed_split (hw : t.Writes h xs capacity consumed written left full) :
    t.feed h.state xs =
      ⟨(t.feed h.state (xs.take consumed)).out ++ (t.feed left.state (xs.drop consumed)).out,
        (t.feed left.state (xs.drop consumed)).result⟩ := by
  have := t.feed_append_ok hw.reads (xs.drop consumed)
  rwa [List.take_append_drop] at this

theorem Writes.result_eq (hw : t.Writes h xs capacity consumed written left full) :
    (t.feed left.state (xs.drop consumed)).result = (t.feed h.state xs).result := by
  rw [hw.feed_split]

theorem Writes.outputs_eq (hw : t.Writes h xs capacity consumed written left full) :
    written ++ t.outputs left (xs.drop consumed) = t.outputs h xs := by
  rw [outputs, outputs, hw.feed_split, ← List.append_assoc, hw.handed, List.append_assoc]

theorem Writes.done (hw : t.Writes h xs capacity consumed written left false) :
    xs.drop consumed = [] ∧ written = t.outputs h xs ∧ (t.feed h.state xs).result = .ok left.state ∧
      left.out = [] := by
  obtain ⟨hall, hnil⟩ := hw.finishes rfl
  have hdrop : xs.drop consumed = [] := by rw [hall, List.drop_length]
  have hresult := hw.result_eq
  have houtputs := hw.outputs_eq
  rw [hdrop] at hresult houtputs
  refine ⟨hdrop, ?_, hresult.symm, hnil⟩
  rw [← houtputs, outputs, hnil]
  simp [feed]

theorem Writes.room (hw : t.Writes h xs capacity consumed written left true) :
    capacity + (t.outputs left (xs.drop consumed)).length = (t.outputs h xs).length := by
  rw [← hw.outputs_eq, List.length_append, hw.fills rfl]

end Transducer.Machine
