import NexusRuntime.Objects.Protect

namespace NexusRuntime.Globals

open Objects (ProtectCall)

variable {V : Type}

inductive Settled (V : Type) where
  | resolved (value : V)
  | rejected (error : V)
deriving DecidableEq, Repr

def Settled.content : Settled V → V
  | .resolved v => v
  | .rejected v => v

inductive Ref (V : Type) where
  | resolve
  | reject
  | carrier
  | value (v : V)
deriving DecidableEq, Repr

-- one call of a ResolveRejectHandler, from a coroutine that can yield or not
structure HandlerCall (V : Type) where
  settles : Settled V
  canYield : Bool
deriving DecidableEq, Repr

structure Executor (V : Type) where
  calls : List (HandlerCall V)
  throws : Option V
  later : List (HandlerCall V)
deriving DecidableEq, Repr

structure PromiseRun (V : Type) where
  promise : Option (Settled V)
  calls : List (ProtectCall (Ref V))
deriving DecidableEq, Repr

-- the resolving functions of a promise act once and raise nothing
def settle (p : Option (Settled V)) (s : Settled V) : Option (Settled V) × Option V :=
  (some (p.getD s), none)

def callHandler (p : Option (Settled V)) : Settled V → Option (Settled V)
  | .resolved v =>
    match settle p (.resolved v) with
    | (q, some exp) => (settle q (.rejected exp)).1
    | (q, none) => q
  | .rejected v => (settle p (.rejected v)).1

def HandlerCall.protections (c : HandlerCall V) : List (ProtectCall (Ref V)) :=
  if c.canYield then
    [.protect (.value c.settles.content), .unprotect .resolve, .unprotect .reject,
      .unprotect (.value c.settles.content), .unprotect .carrier]
  else [.unprotect .resolve, .unprotect .reject, .unprotect .carrier]

namespace PromiseRun

def perform (r : PromiseRun V) (c : HandlerCall V) : PromiseRun V :=
  ⟨callHandler r.promise c.settles, r.calls ++ c.protections⟩

def caught (r : PromiseRun V) (error : V) : PromiseRun V :=
  ⟨(settle r.promise (.rejected error)).1,
    r.calls ++ [.unprotect .resolve, .unprotect .reject, .unprotect .carrier]⟩

end PromiseRun

def acquired : List (ProtectCall (Ref V)) := [.protect .carrier, .protect .resolve, .protect .reject]

def createPromise (nullExecutor : V) : Option (Executor V) → PromiseRun V
  | none => ⟨some (.rejected nullExecutor), []⟩
  | some executor =>
    let r := executor.calls.foldl PromiseRun.perform ⟨none, acquired⟩
    let r := match executor.throws with
      | some error => r.caught error
      | none => r
    executor.later.foldl PromiseRun.perform r

namespace Executor

def settles (e : Executor V) : List (Settled V) :=
  e.calls.map HandlerCall.settles ++ (e.throws.map Settled.rejected).toList ++
    e.later.map HandlerCall.settles

def released (e : Executor V) : List (ProtectCall (Ref V)) :=
  e.calls.flatMap HandlerCall.protections ++
    (if e.throws.isSome then [.unprotect .resolve, .unprotect .reject, .unprotect .carrier] else []) ++
    e.later.flatMap HandlerCall.protections

end Executor

def NeverOutnumbered [DecidableEq V] (calls : List (ProtectCall (Ref V))) : Prop :=
  ∀ x ∈ [Ref.resolve, Ref.reject, Ref.carrier], ∀ prior, prior <+: calls →
    prior.count (.unprotect x) ≤ prior.count (.protect x)

def KeepsItsWord [DecidableEq V] (e : Executor V) (r : PromiseRun V) : Prop :=
  NeverOutnumbered r.calls ∧ r.promise = e.settles.head?

@[simp] theorem callHandler_eq (p : Option (Settled V)) (s : Settled V) :
    callHandler p s = some (p.getD s) := by
  cases s <;> rfl

theorem performs_calls (r : PromiseRun V) (cs : List (HandlerCall V)) :
    (cs.foldl PromiseRun.perform r).calls = r.calls ++ cs.flatMap HandlerCall.protections := by
  induction cs generalizing r with
  | nil => simp
  | cons c cs ih =>
    rw [List.foldl_cons, ih, List.flatMap_cons, PromiseRun.perform, List.append_assoc]

theorem performs_promise (r : PromiseRun V) (cs : List (HandlerCall V)) :
    (cs.foldl PromiseRun.perform r).promise = r.promise.or (cs.map HandlerCall.settles).head? := by
  induction cs generalizing r with
  | nil => simp
  | cons c cs ih =>
    rw [List.foldl_cons, ih, PromiseRun.perform, callHandler_eq]
    cases r.promise <;> simp

theorem createPromise_calls (n : V) (e : Executor V) :
    (createPromise n (some e)).calls = acquired ++ e.released := by
  obtain ⟨calls, throws, later⟩ := e
  cases throws with
  | none => simp [createPromise, performs_calls, Executor.released]
  | some error => simp [createPromise, performs_calls, PromiseRun.caught, Executor.released]

theorem createPromise_promise (n : V) (e : Executor V) :
    (createPromise n (some e)).promise = e.settles.head? := by
  obtain ⟨calls, throws, later⟩ := e
  cases throws with
  | none =>
    simp only [createPromise, performs_promise, Executor.settles]
    cases calls <;> simp
  | some error =>
    simp only [createPromise, performs_promise, PromiseRun.caught, settle, Executor.settles]
    cases calls <;> simp

section Count
variable [DecidableEq V] {x : Ref V}

theorem protections_unprotects (hx : x ∈ [Ref.resolve, Ref.reject, Ref.carrier]) (c : HandlerCall V) :
    c.protections.count (.unprotect x) = 1 := by
  obtain ⟨s, canYield⟩ := c
  simp only [List.mem_cons, List.not_mem_nil, or_false] at hx
  rcases hx with rfl | rfl | rfl <;> cases canYield <;> simp [HandlerCall.protections]

theorem protections_protects (hx : x ∈ [Ref.resolve, Ref.reject, Ref.carrier]) (c : HandlerCall V) :
    c.protections.count (.protect x) = 0 := by
  obtain ⟨s, canYield⟩ := c
  simp only [List.mem_cons, List.not_mem_nil, or_false] at hx
  rcases hx with rfl | rfl | rfl <;> cases canYield <;> simp [HandlerCall.protections]

theorem flatMap_count {p : ProtectCall (Ref V)} {n : Nat}
    (h : ∀ c : HandlerCall V, c.protections.count p = n) (cs : List (HandlerCall V)) :
    (cs.flatMap HandlerCall.protections).count p = n * cs.length := by
  induction cs with
  | nil => simp
  | cons c cs ih => rw [List.flatMap_cons, List.count_append, h, ih, List.length_cons, Nat.mul_succ, Nat.add_comm]

theorem released_unprotects (hx : x ∈ [Ref.resolve, Ref.reject, Ref.carrier]) (e : Executor V) :
    e.released.count (.unprotect x) = e.settles.length := by
  obtain ⟨calls, throws, later⟩ := e
  have hcalls := flatMap_count (protections_unprotects hx)
  simp only [Executor.released, Executor.settles, List.count_append, hcalls, List.length_append,
    List.length_map, Nat.one_mul]
  simp only [List.mem_cons, List.not_mem_nil, or_false] at hx
  cases throws with
  | none => simp
  | some error => rcases hx with rfl | rfl | rfl <;> simp

theorem released_protects (hx : x ∈ [Ref.resolve, Ref.reject, Ref.carrier]) (e : Executor V) :
    e.released.count (.protect x) = 0 := by
  obtain ⟨calls, throws, later⟩ := e
  have hcalls := flatMap_count (protections_protects hx)
  simp only [Executor.released, List.count_append, hcalls, Nat.zero_mul]
  cases throws <;> simp

theorem acquired_protects (hx : x ∈ [Ref.resolve, Ref.reject, Ref.carrier]) :
    acquired.count (.protect x) = 1 := by
  simp only [List.mem_cons, List.not_mem_nil, or_false] at hx
  rcases hx with rfl | rfl | rfl <;> simp [acquired]

theorem acquired_unprotects : acquired.count (.unprotect x) = 0 := by
  simp [acquired]

theorem neverOutnumbered_iff (e : Executor V) :
    NeverOutnumbered (acquired ++ e.released) ↔ e.settles.length ≤ 1 := by
  constructor
  · intro h
    have hx : Ref.resolve ∈ [Ref.resolve, Ref.reject, (Ref.carrier : Ref V)] := List.mem_cons_self
    have hall := h _ hx _ List.prefix_rfl
    rw [List.count_append, List.count_append, acquired_unprotects, acquired_protects hx,
      released_unprotects hx, released_protects hx] at hall
    omega
  · intro h x hx prior hprior
    rcases List.prefix_or_prefix_of_prefix hprior (List.prefix_append ..) with hshort | hlong
    · have hle := hshort.sublist.count_le (.unprotect x)
      rw [acquired_unprotects] at hle
      omega
    · have hge := hlong.sublist.count_le (.protect x)
      have hle := hprior.sublist.count_le (.unprotect x)
      rw [acquired_protects hx] at hge
      rw [List.count_append, acquired_unprotects, released_unprotects hx] at hle
      omega

end Count

theorem keepsItsWord_iff_settles_once [DecidableEq V] (nullExecutor : V) (e : Executor V) :
    KeepsItsWord e (createPromise nullExecutor (some e)) ↔ e.settles.length ≤ 1 := by
  rw [KeepsItsWord, createPromise_calls, createPromise_promise, neverOutnumbered_iff]
  exact and_iff_left rfl

def resolvesTwice : Executor Nat := ⟨[⟨.resolved 1, false⟩, ⟨.resolved 2, true⟩], none, []⟩

def resolvesThenThrows : Executor Nat := ⟨[⟨.resolved 1, false⟩], some 3, []⟩

theorem second_call_releases_again :
    (createPromise 0 (some resolvesTwice)).calls.count (.protect .reject) = 1 ∧
      (createPromise 0 (some resolvesTwice)).calls.count (.unprotect .reject) = 2 ∧
      ¬ KeepsItsWord resolvesTwice (createPromise 0 (some resolvesTwice)) ∧
      ¬ KeepsItsWord resolvesThenThrows (createPromise 0 (some resolvesThenThrows)) := by
  have hx : Ref.reject ∈ [Ref.resolve, Ref.reject, (Ref.carrier : Ref Nat)] := by decide
  refine ⟨by decide, by decide, ?_, ?_⟩
  · rintro ⟨h, -⟩
    exact absurd (h .reject hx _ List.prefix_rfl) (by decide)
  · rintro ⟨h, -⟩
    exact absurd (h .reject hx _ List.prefix_rfl) (by decide)

end NexusRuntime.Globals
