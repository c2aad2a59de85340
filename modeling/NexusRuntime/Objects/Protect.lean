import NexusRuntime.Sequence.Place
import NexusRuntime.Transition.System

namespace NexusRuntime.Objects

open Transition Sequence

variable {C J : Type}

structure Object (C J : Type) where
  myContext : Option C
  myObject : Option J
deriving DecidableEq, Repr

inductive ProtectCall (J : Type) where
  | protect (value : J)
  | unprotect (value : J)
deriving DecidableEq, Repr

-- the results of the JavaScriptCore calls the constructors make
inductive Construction (C J : Type) where
  | default
  | make (context : Option C) (made : Option J)
  | object (context : Option C) (obj : Option J)
  | value (context : Option C) (converted : Except String (Option J))
  | array (context : Option C) (made : Except String (Option J))
  | date (context : Option C) (made : Except String (Option J))
  | exception (context : Option C) (made : Option J)
  | errorCode (context : Option C) (made : Option J)

def constructed : Construction C J → Except String (Object C J)
  | .default => .ok ⟨none, none⟩
  | .make context made => .ok ⟨context, made⟩
  | .object context obj => .ok ⟨context, obj⟩
  | .value context converted => converted.map fun obj => ⟨context, obj⟩
  | .array context made => made.map fun obj => ⟨context, obj⟩
  | .date context made => made.map fun obj => ⟨context, obj⟩
  | .exception context made => .ok ⟨context, made⟩
  | .errorCode context made => .ok ⟨context, made⟩

namespace Object

def attach (o : Object C J) : List (ProtectCall J) :=
  match o.myContext, o.myObject with
  | some _, some obj => [.protect obj]
  | _, _ => []

def release (o : Object C J) : List (ProtectCall J) :=
  match o.myContext, o.myObject with
  | some _, some obj => [.unprotect obj]
  | _, _ => []

def cleared : Object C J := ⟨none, none⟩

def Attached (o : Object C J) : Prop := o.myObject.isSome → o.myContext.isSome

instance (o : Object C J) : Decidable o.Attached := inferInstanceAs (Decidable (_ → _))

end Object

structure Heap (C J : Type) where
  instances : List (Option (Object C J))
  calls : List (ProtectCall J)

inductive Operation (C J : Type) where
  | construct (c : Construction C J)
  | copy (other : Nat)
  | move (other : Nat)
  | assign (this other : Nat)
  | clear (this : Nat)
  | destroy (this : Nat)

namespace Heap

def live (s : Heap C J) (i : Nat) : Option (Object C J) := s.instances[i]?.join

def add (s : Heap C J) (o : Object C J) : Heap C J :=
  ⟨s.instances ++ [some o], s.calls ++ o.attach⟩

def put (s : Heap C J) (i : Nat) (o : Option (Object C J)) (calls : List (ProtectCall J)) :
    Heap C J :=
  ⟨s.instances.set i o, s.calls ++ calls⟩

def step (s : Heap C J) : Operation C J → Option (Heap C J)
  | .construct c =>
    match constructed c with
    | .ok o => some (s.add o)
    | .error _ => some s
  | .copy j => (s.live j).map fun other => s.add ⟨other.myContext, other.myObject⟩
  | .move j => (s.live j).map fun other =>
      (s.put j (some ⟨none, none⟩) []).add ⟨other.myContext, other.myObject⟩
  | .assign i j => (s.live i).bind fun _ => (s.live j).map fun other =>
      s.put i (some ⟨other.myContext, other.myObject⟩) other.attach
  | .clear i => (s.live i).map fun this => s.put i (some .cleared) this.release
  | .destroy i => (s.live i).map fun this => s.put i none this.release

def system (C J : Type) : System (Heap C J) (Operation C J) := ⟨step⟩

def empty : Heap C J := ⟨[], []⟩

section Count
variable [DecidableEq J]

def refersTo (o : J) : Option (Object C J) → Bool
  | some x => x.myObject = some o
  | none => false

def protects (s : Heap C J) (o : J) : Nat := s.calls.count (.protect o)

def unprotects (s : Heap C J) (o : J) : Nat := s.calls.count (.unprotect o)

def references (s : Heap C J) (o : J) : Nat := s.instances.countP (refersTo o)

def Balanced (s : Heap C J) : Prop := ∀ o, s.protects o = s.unprotects o + s.references o

end Count

def Careful (s : Heap C J) : Operation C J → Prop
  | .construct c => ∀ o, constructed c = .ok o → o.Attached
  | .move j => ∀ o, s.live j = some o → o.myObject = none
  | .assign i _ => ∀ o, s.live i = some o → o.myObject = none
  | _ => True

structure Inv [DecidableEq J] (s : Heap C J) : Prop where
  balanced : s.Balanced
  attached : ∀ x ∈ s.instances, ∀ o, x = some o → o.Attached

theorem live_at {s : Heap C J} {i : Nat} {o : Object C J} (h : s.live i = some o) :
    s.instances[i]? = some (some o) := by
  rw [live, Option.join_eq_some_iff] at h
  exact h

theorem attached_add {s : Heap C J} (hs : ∀ x ∈ s.instances, ∀ o, x = some o → o.Attached)
    {o : Object C J} (ho : o.Attached) :
    ∀ x ∈ (s.add o).instances, ∀ y, x = some y → y.Attached :=
  forall_snoc hs (by rintro y ⟨⟩; exact ho)

theorem attached_put {s : Heap C J} (hs : ∀ x ∈ s.instances, ∀ o, x = some o → o.Attached)
    {i : Nat} {o : Option (Object C J)} (ho : ∀ y, o = some y → y.Attached)
    (calls : List (ProtectCall J)) :
    ∀ x ∈ (s.put i o calls).instances, ∀ y, x = some y → y.Attached :=
  forall_replace hs ho

section Balance
variable [DecidableEq J]

def weight (x : J) (o : Option (Object C J)) : Nat := if refersTo x o then 1 else 0

theorem weight_refers {o : Object C J} {x : J} (h : o.myObject = some x) : weight x (some o) = 1 := by
  simp [weight, refersTo, h]

theorem weight_empty {o : Object C J} (h : o.myObject = none) (x : J) : weight x (some o) = 0 := by
  simp [weight, refersTo, h]

theorem attach_protects {o : Object C J} (h : o.Attached) (x : J) :
    o.attach.count (.protect x) = weight x (some o) := by
  obtain ⟨context, obj⟩ := o
  cases obj with
  | none => simp [Object.attach, weight, refersTo]
  | some y =>
    obtain ⟨c, rfl⟩ := Option.isSome_iff_exists.mp (h rfl)
    simp [Object.attach, weight, refersTo, List.count_singleton]

theorem attach_unprotects (o : Object C J) (x : J) : o.attach.count (.unprotect x) = 0 := by
  obtain ⟨context, obj⟩ := o
  cases context <;> cases obj <;> simp [Object.attach]

theorem release_unprotects {o : Object C J} (h : o.Attached) (x : J) :
    o.release.count (.unprotect x) = weight x (some o) := by
  obtain ⟨context, obj⟩ := o
  cases obj with
  | none => simp [Object.release, weight, refersTo]
  | some y =>
    obtain ⟨c, rfl⟩ := Option.isSome_iff_exists.mp (h rfl)
    simp [Object.release, weight, refersTo, List.count_singleton]

theorem release_protects (o : Object C J) (x : J) : o.release.count (.protect x) = 0 := by
  obtain ⟨context, obj⟩ := o
  cases context <;> cases obj <;> simp [Object.release]

theorem add_references (s : Heap C J) (o : Object C J) (x : J) :
    (s.add o).references x = s.references x + weight x (some o) := by
  rw [references, add, List.countP_append, List.countP_singleton]
  rfl

theorem put_references {s : Heap C J} {i : Nat} {old : Object C J} (h : s.live i = some old)
    (o : Option (Object C J)) (calls : List (ProtectCall J)) (x : J) :
    (s.put i o calls).references x + weight x (some old) = s.references x + weight x o :=
  countP_replace (refersTo x) (live_at h) o

theorem add_protects (s : Heap C J) (o : Object C J) (x : J) :
    (s.add o).protects x = s.protects x + o.attach.count (.protect x) :=
  List.count_append ..

theorem add_unprotects (s : Heap C J) (o : Object C J) (x : J) :
    (s.add o).unprotects x = s.unprotects x := by
  rw [unprotects, add, List.count_append, attach_unprotects]
  rfl

theorem put_protects (s : Heap C J) (i : Nat) (o : Option (Object C J))
    (calls : List (ProtectCall J)) (x : J) :
    (s.put i o calls).protects x = s.protects x + calls.count (.protect x) :=
  List.count_append ..

theorem put_unprotects (s : Heap C J) (i : Nat) (o : Option (Object C J))
    (calls : List (ProtectCall J)) (x : J) :
    (s.put i o calls).unprotects x = s.unprotects x + calls.count (.unprotect x) :=
  List.count_append ..

theorem attached_live {s : Heap C J} (hs : s.Inv) {i : Nat} {o : Object C J}
    (h : s.live i = some o) : o.Attached :=
  hs.attached _ (List.mem_of_getElem? (live_at h)) o rfl

theorem add_inv {s : Heap C J} (hs : s.Inv) {o : Object C J} (ho : o.Attached) : (s.add o).Inv where
  balanced := by
    intro x
    have := hs.balanced x
    rw [add_protects, add_unprotects, add_references, attach_protects ho]
    omega
  attached := attached_add hs.attached ho

-- an object is dropped: by clear() the instance stays, by the destructor it goes
theorem release_inv {s : Heap C J} (hs : s.Inv) {i : Nat} {o : Object C J} (h : s.live i = some o)
    {left : Option (Object C J)} (hleft : ∀ y, left = some y → y.myObject = none) :
    (s.put i left o.release).Inv where
  balanced := by
    intro x
    have hbalanced := hs.balanced x
    have href := put_references h left o.release x
    have hzero : weight x left = 0 := by
      cases left with
      | none => rfl
      | some y => exact weight_empty (hleft y rfl) x
    rw [put_protects, put_unprotects, release_protects, release_unprotects (attached_live hs h)]
    omega
  attached := by
    apply attached_put hs.attached
    intro y hy
    simp [Object.Attached, hleft y hy]

theorem assign_inv {s : Heap C J} (hs : s.Inv) {i : Nat} {this other : Object C J}
    (hi : s.live i = some this) (hnone : this.myObject = none) (hother : other.Attached) :
    (s.put i (some other) other.attach).Inv where
  balanced := by
    intro x
    have hbalanced := hs.balanced x
    have href := put_references hi (some other) other.attach x
    rw [weight_empty hnone] at href
    rw [put_protects, put_unprotects, attach_unprotects, attach_protects hother]
    omega
  attached := by
    apply attached_put hs.attached
    rintro y ⟨⟩
    exact hother

theorem inv_step {s t : Heap C J} {op : Operation C J} (hs : s.Inv) (hop : s.Careful op)
    (h : step s op = some t) : t.Inv := by
  cases op with
  | construct c =>
    simp only [step] at h
    cases hc : constructed c with
    | ok o =>
      rw [hc] at h
      cases h
      exact add_inv hs (hop o hc)
    | error e =>
      rw [hc] at h
      cases h
      exact hs
  | copy j =>
    obtain ⟨other, hj, rfl⟩ := Option.map_eq_some_iff.mp h
    exact add_inv hs (attached_live hs hj)
  | move j =>
    obtain ⟨other, hj, rfl⟩ := Option.map_eq_some_iff.mp h
    have hnone := hop other hj
    have hrelease : other.release = [] := by
      simp [Object.release, hnone]
    have hempty : ∀ y : Object C J, some ⟨none, none⟩ = some y → y.myObject = none := by
      rintro y ⟨⟩
      rfl
    have hput := release_inv hs hj hempty
    rw [hrelease] at hput
    exact add_inv hput (attached_live hs hj)
  | assign i j =>
    obtain ⟨this, hi, h⟩ := Option.bind_eq_some_iff.mp h
    obtain ⟨other, hj, rfl⟩ := Option.map_eq_some_iff.mp h
    exact assign_inv hs hi (hop this hi) (attached_live hs hj)
  | clear i =>
    obtain ⟨this, hi, rfl⟩ := Option.map_eq_some_iff.mp h
    exact release_inv hs hi (by rintro y ⟨⟩; rfl)
  | destroy i =>
    obtain ⟨this, hi, rfl⟩ := Option.map_eq_some_iff.mp h
    exact release_inv hs hi (by simp)

theorem careful_of_balanced {s t : Heap C J} {op : Operation C J} (hs : s.Inv)
    (h : step s op = some t) (ht : t.Balanced) : s.Careful op := by
  cases op with
  | construct c =>
    intro o hc hsome
    simp only [step, hc] at h
    cases h
    obtain ⟨context, obj⟩ := o
    obtain ⟨x, rfl⟩ := Option.isSome_iff_exists.mp hsome
    cases context with
    | some c => rfl
    | none =>
      have hbefore := hs.balanced x
      have hafter := ht x
      rw [add_protects, add_unprotects, add_references, weight_refers rfl] at hafter
      simp only [Object.attach, List.count_nil] at hafter
      omega
  | move j =>
    intro o hj
    simp only [step, hj, Option.map_some, Option.some.injEq] at h
    subst h
    cases hobj : o.myObject with
    | none => rfl
    | some x =>
      have hbefore := hs.balanced x
      have hafter := ht x
      have href := put_references hj (some ⟨none, none⟩) [] x
      rw [weight_refers hobj, weight_empty rfl] at href
      rw [add_protects, add_unprotects, add_references, put_protects, put_unprotects,
        attach_protects (attached_live hs hj), weight_refers hobj] at hafter
      simp only [List.count_nil] at hafter
      omega
  | assign i j =>
    intro o hi
    simp only [step, hi, Option.bind_some] at h
    obtain ⟨other, hj, rfl⟩ := Option.map_eq_some_iff.mp h
    cases hobj : o.myObject with
    | none => rfl
    | some x =>
      have hbefore := hs.balanced x
      have hafter : (s.put i (some other) other.attach).Balanced := ht
      have hafter := hafter x
      have href := put_references hi (some other) other.attach x
      rw [weight_refers hobj] at href
      rw [put_protects, put_unprotects, attach_unprotects,
        attach_protects (attached_live hs hj)] at hafter
      omega
  | copy j | clear i | destroy i => trivial

theorem inv_start : (empty : Heap C J).Inv where
  balanced := fun _ => rfl
  attached := by simp [empty]

theorem balanced_iff_careful (ops : List (Operation C J)) :
    (system C J).always Balanced empty ops ↔ (system C J).meets Careful empty ops :=
  (system C J).always_iff_meets (fun s (hs : s.Inv) => hs.balanced)
    (fun _ _ _ hs h ht => careful_of_balanced hs h ht)
    (fun _ _ _ hs hop h => inv_step hs hop h) inv_start ops

end Balance

theorem move_protects_twice :
    ¬ (system Nat Nat).always Balanced empty
      [.construct (.object (some 0) (some 7)), .move 0, .destroy 1, .destroy 0] := by
  intro h
  have hend := ((system Nat Nat).always_iff_prefixes _ _ _).mp h _ (List.prefix_refl _) _ rfl 7
  exact absurd hend (by decide)

end Heap
end NexusRuntime.Objects
