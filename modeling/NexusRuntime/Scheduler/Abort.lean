import NexusRuntime.Scheduler.Pool
import Mathlib.Data.List.TakeWhile

namespace NexusRuntime.Tasks

open Transition Sequence

namespace Task

def afterAbort (k : Task) : List Action := (k.log.dropWhile (· ≠ .store .aborted)).tail

structure AbortFinal (k : Task) : Prop where
  status : .store .aborted ∈ k.log → k.myStatus = .aborted
  stores : ∀ status, .store status ∈ k.afterAbort → status = .aborted
  handler : .start ∉ k.afterAbort
  cancelled : .store .aborted ∈ k.log → k.log.count .cancellationHandlers + k.aborting = 1
  completion : .store .aborted ∈ k.log → .completionHandlers ∉ k.log

structure Unaborted (k : Task) : Prop where
  stored : .store .aborted ∉ k.log
  cancelled : .cancellationHandlers ∉ k.log
  aborting : k.aborting = 0

structure Aborted (k : Task) : Prop where
  status : k.myStatus = .aborted
  split : ∃ before, .store .aborted ∉ before ∧ .cancellationHandlers ∉ before ∧
    .completionHandlers ∉ before ∧
      (k.log = before ++ [.store .aborted] ∧ k.aborting = 1 ∨
        k.log = before ++ [.store .aborted, .cancellationHandlers] ∧ k.aborting = 0)

theorem afterAbort_append {k : Task} {before after : List Action} (h : .store .aborted ∉ before)
    (hk : k.log = before ++ .store .aborted :: after) : k.afterAbort = after := by
  have hbefore : ∀ a ∈ before, decide (a ≠ .store .aborted) = true := by
    intro a ha
    exact decide_eq_true fun heq => h (heq ▸ ha)
  rw [afterAbort, hk, List.dropWhile_append_of_pos hbefore]
  rfl

theorem Unaborted.final {k : Task} (hk : k.Unaborted) : k.AbortFinal := by
  have hnone : k.afterAbort = [] := by
    have hall : ∀ a ∈ k.log, decide (a ≠ .store .aborted) = true := by
      intro a ha
      exact decide_eq_true fun heq => hk.stored (heq ▸ ha)
    rw [afterAbort, List.dropWhile_eq_nil_iff.mpr hall]
    rfl
  exact ⟨fun h => absurd h hk.stored, by simp [hnone], by simp [hnone],
    fun h => absurd h hk.stored, fun h => absurd h hk.stored⟩

theorem Aborted.final {k : Task} (hk : k.Aborted) : k.AbortFinal := by
  obtain ⟨before, hs, hc, he, ⟨hlog, ha⟩ | ⟨hlog, ha⟩⟩ := hk.split
  · have hafter := afterAbort_append hs hlog
    refine ⟨fun _ => hk.status, by simp [hafter], by simp [hafter], fun _ => ?_, fun _ => ?_⟩
    · rw [hlog, ha, List.count_append, List.count_eq_zero.mpr hc]
      rfl
    · simp [hlog, he]
  · have hafter := afterAbort_append hs hlog
    refine ⟨fun _ => hk.status, by simp [hafter], by simp [hafter], fun _ => ?_, fun _ => ?_⟩
    · rw [hlog, ha, List.count_append, List.count_eq_zero.mpr hc]
      rfl
    · simp [hlog, he]

theorem Aborted.stored {k : Task} (hk : k.Aborted) : .store .aborted ∈ k.log := by
  rcases hk.split with ⟨before, -, -, -, ⟨hlog, -⟩ | ⟨hlog, -⟩⟩ <;> simp [hlog]

theorem Unaborted.abort {k : Task} (hk : k.Unaborted) (hc : .completionHandlers ∉ k.log) :
    k.abort.Aborted :=
  ⟨rfl, k.log, hk.stored, hk.cancelled, hc, .inl ⟨rfl, congrArg (· + 1) hk.aborting⟩⟩

theorem Aborted.cancelled {k : Task} (hk : k.Aborted) (h : 0 < k.aborting) :
    k.cancelled.Aborted := by
  obtain ⟨before, hs, hc, he, ⟨hlog, ha⟩ | ⟨-, ha⟩⟩ := hk.split
  · refine ⟨hk.status, before, hs, hc, he, .inr ⟨?_, ?_⟩⟩
    · simp [Task.cancelled, record, hlog]
    · simp [Task.cancelled, record, ha]
  · omega

theorem Unaborted.extend {k k' : Task} (hk : k.Unaborted) {as : List Action}
    (hlog : k'.log = k.log ++ as) (has : ∀ a ∈ as, a.ordinary = true)
    (ha : k'.aborting = k.aborting) : k'.Unaborted := by
  refine ⟨fun h => ?_, fun h => ?_, ha.trans hk.aborting⟩
  · rw [hlog] at h
    exact (List.mem_append.mp h).elim hk.stored fun h => absurd (has _ h) (by decide)
  · rw [hlog] at h
    exact (List.mem_append.mp h).elim hk.cancelled fun h => absurd (has _ h) (by decide)

end Task

namespace Point

def early : Point → Bool
  | .activate | .discount | .reset | .run .testAborted => true
  | .push | .recount | .deactivate | .testPause => true
  | _ => false

end Point

namespace Worker

def early (t : Nat) (w : Worker) : Bool :=
  match w.frame with
  | .iteration u p _ => decide (u ≠ t) || p.early
  | _ => true

def exits (t : Nat) (w : Worker) : Bool :=
  match w.frame with
  | .iteration _ (.delete u) _ => decide (u = t)
  | _ => false

theorem exits_early {t : Nat} {w : Worker} (hc : w.Coherent) (h : w.exits t = true) :
    w.early t ≠ true := by
  obtain ⟨c, frame⟩ := w
  cases frame with
  | iteration u p f =>
    cases p with
    | delete v =>
      have hv : v = u := hc.2 v rfl
      have ht : v = t := by simpa [exits] using h
      simp [early, Point.early, ← ht, ← hv]
    | _ => cases h
  | _ => cases h

end Worker

namespace Scheduler

def timely (s : Scheduler) : Label → Prop
  | .abort t => (∀ k ∈ s.object t, k.myStatus ≠ .aborted) ∧ ∀ w ∈ s.workers, w.early t = true
  | _ => True

instance decidableTimely (s : Scheduler) : (l : Label) → Decidable (s.timely l)
  | .abort t => inferInstanceAs (Decidable
      ((∀ k ∈ s.object t, k.myStatus ≠ .aborted) ∧ ∀ w ∈ s.workers, w.early t = true))
  | .scheduleTask _ | .scheduleCoroutine _ | .fire _ | .count _ | .push _ | .cancel _ | .hold
  | .release | .addThread | .pause | .resume | .poll _ _ | .thread _ | .yield _ | .finish _ =>
    .isTrue trivial

def exiting (s : Scheduler) (t : Nat) : Prop := ∃ w ∈ s.workers, w.exits t = true

end Scheduler

end NexusRuntime.Tasks
