import Mathlib.Data.List.Count
import NexusRuntime.Objects.Protect

namespace NexusRuntime.Objects

open Transition Sequence

variable {J : Type}

-- the instances a program has made, `none` when destroyed; `pushed` only records
structure Program (J : Type) where
  instances : List (Option (List J))
  calls : List (ProtectCall J)
  pushed : List J
deriving DecidableEq, Repr

inductive Statement (J : Type) where
  | construct (arguments : List J)
  | constructValues (values : List J)
  | copy (other : Nat)
  | move (other : Nat)
  | pushBack (this : Nat) (value : J)
  | destroy (this : Nat)
deriving DecidableEq, Repr

namespace Program

def live (s : Program J) (i : Nat) : Option (List J) := s.instances[i]?.join

def add (s : Program J) (values : List J) (calls : List (ProtectCall J)) : Program J :=
  { s with instances := s.instances ++ [some values], calls := s.calls ++ calls }

def put (s : Program J) (i : Nat) (values : Option (List J)) (calls : List (ProtectCall J)) : Program J :=
  { s with instances := s.instances.set i values, calls := s.calls ++ calls }

def step (s : Program J) : Statement J → Option (Program J)
  | .construct arguments => some (s.add arguments (arguments.map .protect))
  | .constructValues values => some (s.add values (values.map .protect))
  | .copy j => (s.live j).map fun other => s.add other (other.map .protect)
  | .move j => (s.live j).map fun other => (s.put j (some []) []).add other []
  | .pushBack i value => (s.live i).map fun this =>
      { s.put i (some (this ++ [value])) [] with pushed := s.pushed ++ [value] }
  | .destroy i => (s.live i).map fun this => s.put i none (this.map .unprotect)

def system (J : Type) : System (Program J) (Statement J) := ⟨step⟩

def empty : Program J := ⟨[], [], []⟩

def pushes : Statement J → Bool
  | .pushBack _ _ => true
  | _ => false

def Unpushed (_ : Program J) (l : Statement J) : Prop := pushes l = false

theorem live_at {s : Program J} {i : Nat} {values : List J} (h : s.live i = some values) :
    s.instances[i]? = some (some values) := by
  rw [live, Option.join_eq_some_iff] at h
  exact h

theorem pushed_step {s t : Program J} {l : Statement J} (h : step s l = some t) :
    t.pushed = [] ↔ s.pushed = [] ∧ pushes l = false := by
  cases l with
  | construct arguments =>
    cases h
    simp [add, pushes]
  | constructValues values =>
    cases h
    simp [add, pushes]
  | copy j | move j | destroy j =>
    obtain ⟨other, -, rfl⟩ := Option.map_eq_some_iff.mp h
    simp [add, put, pushes]
  | pushBack i value =>
    obtain ⟨this, -, rfl⟩ := Option.map_eq_some_iff.mp h
    simp [pushes]

section Count
variable [DecidableEq J]

def occurs (x : J) (values : Option (List J)) : Nat := (values.getD []).count x

def protects (s : Program J) (x : J) : Nat := s.calls.count (.protect x)

def unprotects (s : Program J) (x : J) : Nat := s.calls.count (.unprotect x)

def occurrences (s : Program J) (x : J) : Nat := total (occurs x) s.instances

def Balanced (s : Program J) : Prop := ∀ x, s.protects x = s.unprotects x + s.occurrences x

def Accounted (s : Program J) : Prop :=
  ∀ x, s.protects x + s.pushed.count x = s.unprotects x + s.occurrences x

theorem balanced_of_unpushed {s : Program J} (hs : s.Accounted) (h : s.pushed = []) : s.Balanced := by
  intro x
  have := hs x
  rw [h, List.count_nil] at this
  omega

theorem unpushed_of_balanced {s : Program J} (hs : s.Accounted) (h : s.Balanced) : s.pushed = [] := by
  rw [List.eq_nil_iff_forall_not_mem]
  intro x hx
  have hpos := List.count_pos_iff.mpr hx
  have := hs x
  have := h x
  omega

theorem count_protect_map (values : List J) (x : J) :
    (values.map ProtectCall.protect).count (.protect x) = values.count x :=
  List.count_map_of_injective values ProtectCall.protect (fun _ _ => ProtectCall.protect.inj) x

theorem count_unprotect_map (values : List J) (x : J) :
    (values.map ProtectCall.unprotect).count (.unprotect x) = values.count x :=
  List.count_map_of_injective values ProtectCall.unprotect (fun _ _ => ProtectCall.unprotect.inj) x

theorem count_unprotect_protects (values : List J) (x : J) :
    (values.map ProtectCall.protect).count (.unprotect x) = 0 :=
  List.count_eq_zero.mpr (by simp)

theorem count_protect_unprotects (values : List J) (x : J) :
    (values.map ProtectCall.unprotect).count (.protect x) = 0 :=
  List.count_eq_zero.mpr (by simp)

theorem add_occurrences (s : Program J) (values : List J) (calls : List (ProtectCall J)) (x : J) :
    (s.add values calls).occurrences x = s.occurrences x + values.count x := by
  rw [occurrences, add, total_append]
  rfl

theorem put_occurrences {s : Program J} {i : Nat} {old : List J} (h : s.live i = some old)
    (values : Option (List J)) (calls : List (ProtectCall J)) (x : J) :
    (s.put i values calls).occurrences x + old.count x = s.occurrences x + occurs x values :=
  total_replace (occurs x) (live_at h) values

theorem add_accounted {s : Program J} (hs : s.Accounted) (values : List J) :
    (s.add values (values.map .protect)).Accounted := by
  intro x
  have hsum := hs x
  rw [add_occurrences]
  simp only [add, protects, unprotects, List.count_append, count_protect_map,
    count_unprotect_protects] at hsum ⊢
  omega

theorem move_accounted {s : Program J} (hs : s.Accounted) {j : Nat} {other : List J}
    (h : s.live j = some other) : ((s.put j (some []) []).add other []).Accounted := by
  intro x
  have hsum := hs x
  have hput := put_occurrences h (some []) [] x
  rw [add_occurrences]
  simp only [add, put, protects, unprotects, List.append_nil, occurs, Option.getD_some,
    List.count_nil] at hsum hput ⊢
  omega

theorem push_accounted {s : Program J} (hs : s.Accounted) {i : Nat} {this : List J}
    (h : s.live i = some this) (value : J) :
    Accounted { s.put i (some (this ++ [value])) [] with pushed := s.pushed ++ [value] } := by
  intro x
  have hsum := hs x
  have hput := put_occurrences h (some (this ++ [value])) [] x
  simp only [occurrences, put, protects, unprotects, List.append_nil, List.count_append, occurs,
    Option.getD_some] at hsum hput ⊢
  omega

theorem destroy_accounted {s : Program J} (hs : s.Accounted) {i : Nat} {this : List J}
    (h : s.live i = some this) : (s.put i none (this.map .unprotect)).Accounted := by
  intro x
  have hsum := hs x
  have hput := put_occurrences h none (this.map .unprotect) x
  simp only [put, protects, unprotects, List.count_append, count_unprotect_map,
    count_protect_unprotects, occurrences, occurs, Option.getD_none, List.count_nil] at hsum hput ⊢
  omega

theorem accounted_step {s t : Program J} {l : Statement J} (hs : s.Accounted) (h : step s l = some t) :
    t.Accounted := by
  cases l with
  | construct arguments =>
    cases h
    exact add_accounted hs arguments
  | constructValues values =>
    cases h
    exact add_accounted hs values
  | copy j =>
    obtain ⟨other, -, rfl⟩ := Option.map_eq_some_iff.mp h
    exact add_accounted hs other
  | move j =>
    obtain ⟨other, hj, rfl⟩ := Option.map_eq_some_iff.mp h
    exact move_accounted hs hj
  | pushBack i value =>
    obtain ⟨this, hi, rfl⟩ := Option.map_eq_some_iff.mp h
    exact push_accounted hs hi value
  | destroy i =>
    obtain ⟨this, hi, rfl⟩ := Option.map_eq_some_iff.mp h
    exact destroy_accounted hs hi

theorem accounted_start : (empty : Program J).Accounted := fun _ => rfl

theorem accounted (ls : List (Statement J)) : (system J).always Accounted empty ls :=
  (system J).always_of_steps (fun _ hs => hs) (fun _ _ _ hs h => accounted_step hs h) accounted_start ls

-- once every instance is gone, each push has cost one release too many
theorem released_beyond {ls : List (Statement J)} {t : Program J}
    (h : (system J).run empty ls = some t) (hgone : ∀ x ∈ t.instances, x = none) (x : J) :
    t.unprotects x = t.protects x + t.pushed.count x := by
  have hsum := ((system J).always_iff_prefixes _ _ _).mp (accounted ls) ls (List.prefix_refl _) t h x
  have hzero : t.occurrences x = 0 := by
    rw [occurrences, List.eq_replicate_of_mem hgone, total_replicate]
    exact Nat.mul_zero _
  omega

structure Inv (s : Program J) : Prop where
  accounted : s.Accounted
  unpushed : s.pushed = []

theorem balanced_iff_unpushed (ls : List (Statement J)) :
    (system J).always Balanced empty ls ↔ (system J).meets Unpushed empty ls :=
  (system J).always_iff_meets (fun s (hs : s.Inv) => balanced_of_unpushed hs.accounted hs.unpushed)
    (fun _ _ _ hs h ht =>
      ((pushed_step h).mp (unpushed_of_balanced (accounted_step hs.accounted h) ht)).2)
    (fun _ _ _ hs hl h => ⟨accounted_step hs.accounted h, (pushed_step h).mpr ⟨hs.unpushed, hl⟩⟩)
    ⟨accounted_start, rfl⟩ ls

end Count

-- handleAccept: two arguments, a third is pushed, a handler's capture copies them
theorem pushed_argument_released_twice :
    ((system Nat).run empty [Statement.construct [1, 2], Statement.pushBack 0 3, Statement.copy 0,
        Statement.destroy 0, Statement.destroy 1]).map
          (fun t => (t.protects 3, t.unprotects 3)) = some (1, 2) ∧
      ¬ (system Nat).always Balanced empty [Statement.construct [1, 2], Statement.pushBack 0 3,
        Statement.copy 0, Statement.destroy 0, Statement.destroy 1] := by
  refine ⟨rfl, ?_⟩
  intro h
  have hend := ((system Nat).always_iff_prefixes _ _ _).mp h _ (List.prefix_refl _) _ rfl 3
  exact absurd hend (by decide)

end Program
end NexusRuntime.Objects
