import NexusRuntime.Scheduler.Events

namespace NexusRuntime.Tasks

open Transition Sequence

theorem Worker.early_of_point {t u : Nat} {c : Option Nat} {p : Point} {f : List Fate}
    (h : u = t → p.early = true) : (Worker.mk c (.iteration u p f)).early t = true := by
  by_cases hu : u = t
  · simp [Worker.early, hu, h hu]
  · simp [Worker.early, hu]

theorem Worker.point_of_early {t : Nat} {c : Option Nat} {p : Point} {f : List Fate}
    (h : (Worker.mk c (.iteration t p f)).early t = true) : p.early = true := by
  simpa [Worker.early] using h

theorem Worker.idle_early {w : Worker} (h : w.idle = true) (t : Nat) : w.early t = true := by
  obtain ⟨c, frame⟩ := w
  cases frame with
  | iteration u p f => cases h
  | _ => rfl

namespace Scheduler

def Settled (s : Scheduler) (t : Nat) (k : Task) : Prop :=
  k.Unaborted ∨ k.Aborted ∧ ∀ w ∈ s.workers, w.early t = true

theorem moves_early {s s' : Scheduler} {l : Label} (h : s.Moves l s') {t : Nat} {k : Task}
    (hk : s.tasks[t]? = some k) (ha : k.myStatus = .aborted)
    (he : ∀ w ∈ s.workers, w.early t = true) : ∀ w ∈ s'.workers, w.early t = true := by
  have hpoint {i : Nat} {c : Option Nat} {u : Nat} {p : Point} {f : List Fate}
      (hw : s.workers[i]? = some ⟨c, .iteration u p f⟩) (hu : u = t) : p.early = true := by
    subst hu
    exact Worker.point_of_early (he _ (List.mem_of_getElem? hw))
  cases h with
  | schedule =>
    rw [schedule_eq]
    exact he
  | addThread => exact forall_snoc he rfl
  | idle hl hw hi hi' => exact forall_replace he (Worker.idle_early hi' t)
  | finish hw hi => exact forall_replace he (Worker.idle_early hi t)
  | pop | activate | discount | reset | requeue | recount | deactivate =>
    exact forall_replace he (Worker.early_of_point fun _ => rfl)
  | @run i u c f k₁ hw hu =>
    refine forall_replace he (Worker.early_of_point fun hut => ?_)
    have hc := hpoint hw hut
    subst hut
    cases hk.symm.trans (object_some hu).1
    cases c with
    | testAborted => simp [Task.proceed, ha, Point.early]
    | _ => cases hc
  | exit hw => exact forall_replace he (Worker.early_of_point fun hut => by cases hpoint hw hut)
  | delete hw =>
    rw [destroy_eq]
    exact forall_replace he (Worker.early_of_point fun _ => rfl)
  | handled hl hc hw =>
    exact forall_replace he (Worker.early_of_point fun hut => by cases hpoint hw hut)
  | _ => exact he

theorem open_of_timely {s : Scheduler} (hs : s.Custody) {t : Nat} {k : Task}
    (hk : s.object t = some k) (he : ∀ w ∈ s.workers, w.early t = true) :
    .completionHandlers ∉ k.log := by
  intro hlog
  obtain ⟨hkt, hlive⟩ := object_some hk
  rcases hs.exited t k hkt hlog with hd | ⟨w, hw, hx⟩
  · rw [hlive] at hd
    cases hd
  · exact Worker.exits_early (hs.coherent w hw) hx (he w hw)

theorem abort_workers {s s' : Scheduler} {t : Nat} (h : s.Moves (.abort t) s') :
    s'.workers = s.workers := by
  cases h with
  | schedule hl | idle hl | handled hl => cases hl
  | abort => rfl

theorem settled_open {s : Scheduler} {t i : Nat} {k : Task} {c : Option Nat} {p : Point}
    {f : List Fate} (hset : s.Settled t k) (hw : s.workers[i]? = some ⟨c, .iteration t p f⟩)
    (hp : p.early = false) : k.Unaborted := by
  rcases hset with hun | ⟨-, hearly⟩
  · exact hun
  · have hc := Worker.point_of_early (hearly _ (List.mem_of_getElem? hw))
    rw [hp] at hc
    cases hc

theorem moves_settled {s s' : Scheduler} {l : Label} (hs : s.Custody) (h : s.Moves l s') {t : Nat}
    {k : Task} (hk : s.tasks[t]? = some k) (hset : s.Settled t k)
    (hl : l = .abort t → s.timely l) : ∀ k' ∈ s'.tasks[t]?, s'.Settled t k' := by
  intro k' hk'
  have he (ha : k.Aborted) (hearly : ∀ w ∈ s.workers, w.early t = true) :
      ∀ w ∈ s'.workers, w.early t = true := moves_early h hk ha.status hearly
  cases touched h hk hk' with
  | same => exact hset.imp_right fun ha => ⟨ha.1, he ha.1 ha.2⟩
  | abort habort hu =>
    subst habort
    have htimely := hl rfl
    rcases hset with hun | ⟨ha, -⟩
    · exact .inr ⟨hun.abort (open_of_timely hs hu htimely.2), abort_workers h ▸ htimely.2⟩
    · exact absurd ha.status (htimely.1 k hu)
  | cancel hcancel hu hpos =>
    rcases hset with hun | ⟨ha, hearly⟩
    · exact absurd hun.aborting (Nat.ne_of_gt hpos)
    · exact .inr ⟨ha.cancelled hpos, he ha hearly⟩
  | @run i c f hthread hw hu =>
    rcases hset with hun | ⟨ha, hearly⟩
    · obtain ⟨status, suspended, as, hframe, has⟩ := k.proceed_frame c
      exact .inl (hun.extend (by rw [hframe]) has (by rw [hframe]))
    · -- the first test of the iteration is all that a worker still reads of an aborted task
      have hc := Worker.point_of_early (hearly _ (List.mem_of_getElem? hw))
      cases c with
      | testAborted => exact .inr ⟨ha, he ha hearly⟩
      | _ => cases hc
  | exit hthread hw hu =>
    have hun := settled_open hset hw rfl
    exact .inl ⟨by simpa [Task.exit, Task.record] using hun.stored,
      by simpa [Task.exit, Task.record] using hun.cancelled, hun.aborting⟩
  | delete hthread hw hu =>
    have hun := settled_open hset hw rfl
    exact .inl ⟨hun.stored, hun.cancelled, hun.aborting⟩

theorem moves_fresh {s s' : Scheduler} {l : Label} (h : s.Moves l s') {t : Nat} {k' : Task}
    (hnone : s.tasks[t]? = none) (hk' : s'.tasks[t]? = some k') : ∃ kind hold, k' = .new kind hold := by
  have hle := List.getElem?_eq_none_iff.mp hnone
  have hlt := (List.getElem?_eq_some_iff.mp hk').1
  have hsame (hlen : s'.tasks.length = s.tasks.length) : ∃ kind hold, k' = .new kind hold :=
    absurd hlt (by omega)
  cases h with
  | @schedule l kind hold delayed =>
    rw [schedule_eq, List.getElem?_append_right hle] at hk'
    exact ⟨kind, hold, List.mem_singleton.mp (List.mem_of_getElem? hk')⟩
  | abort | cancel | run | exit => exact hsame List.length_set
  | delete =>
    rw [setWorker, destroy_tasks] at hsame
    exact hsame List.length_set
  | _ => exact hsame rfl

structure Final (s : Scheduler) : Prop where
  coherent : s.Coherent
  tasks : ∀ t, ∀ k ∈ s.tasks[t]?, k.Unaborted ∨ k.Aborted ∧ ∀ w ∈ s.workers, w.early t = true
  completed : ∀ t, ∀ k ∈ s.tasks[t]?, .completionHandlers ∈ k.log → k.deleted = true ∨ s.exiting t

theorem final_step (s : Scheduler) (l : Label) (s' : Scheduler) (hs : s.Custody ∧ s.Final)
    (hl : s.timely l) (h : pools.step s l = some s') : s'.Custody ∧ s'.Final := by
  have hc := custody_step s l s' hs.1 h
  have hmoves := step_moves hs.1.coherent h
  refine ⟨hc, hc.coherent, fun t k' hk' => ?_, hc.exited⟩
  cases hk : s.tasks[t]? with
  | some k => exact moves_settled hs.1 hmoves hk (hs.2.tasks t k hk) (fun _ => hl) k' hk'
  | none =>
    obtain ⟨kind, hold, rfl⟩ := moves_fresh hmoves hk hk'
    exact .inl ⟨nofun, nofun, rfl⟩

def AbortFinal (s : Scheduler) : Prop := ∀ k ∈ s.tasks, k.AbortFinal

theorem final_abortFinal (s : Scheduler) (hs : s.Custody ∧ s.Final) : s.AbortFinal := by
  intro k hk
  obtain ⟨t, ht⟩ := List.mem_iff_getElem?.mp hk
  exact (hs.2.tasks t k ht).elim Task.Unaborted.final fun ha => ha.1.final

theorem final_start (myMaxThreads : Nat) :
    (start myMaxThreads).Custody ∧ (start myMaxThreads).Final :=
  ⟨start_custody myMaxThreads, start_coherent myMaxThreads, nofun, nofun⟩

theorem abortFinal_of_timely (myMaxThreads : Nat) (ls : List Label)
    (h : pools.meets timely (start myMaxThreads) ls) :
    pools.always AbortFinal (start myMaxThreads) ls :=
  pools.always_of_meets final_abortFinal final_step (final_start myMaxThreads) h

def abortedWhileArmed : List Label :=
  [.scheduleTask true, .abort 0, .cancel 0, .fire 0, .count 0, .push 0, .poll 0 false] ++
    List.replicate 8 (.thread 0)

theorem abortFinal_of_timely_armed :
    pools.meets timely (start 4) abortedWhileArmed ∧
      pools.always AbortFinal (start 4) abortedWhileArmed := by
  have h : pools.meets timely (start 4) abortedWhileArmed := by decide
  exact ⟨h, abortFinal_of_timely 4 abortedWhileArmed h⟩

def abortedBeforeCreate : List Label :=
  [.scheduleTask false, .count 0, .push 0, .poll 0 false] ++ List.replicate 7 (.thread 0) ++
    [.abort 0, .cancel 0] ++ List.replicate 5 (.thread 0) ++ [.finish 0] ++
    List.replicate 4 (.thread 0)

theorem aborted_task_runs :
    ¬ pools.always AbortFinal (start 4) abortedBeforeCreate ∧
      ∃ s, pools.run (start 4) abortedBeforeCreate = some s ∧ s.tasks.map Task.log =
        [[.store .aborted, .cancellationHandlers, .store .created, .store .active, .start,
          .store .finished, .completionHandlers]] := by
  have hlast : ∃ s, pools.run (start 4) abortedBeforeCreate = some s ∧ s.tasks.map Task.log =
      [[.store .aborted, .cancellationHandlers, .store .created, .store .active, .start,
        .store .finished, .completionHandlers]] :=
    ⟨_, rfl, rfl⟩
  refine ⟨fun h => ?_, hlast⟩
  obtain ⟨s, hs, hlog⟩ := hlast
  have hall := (pools.always_iff_prefixes _ _ _).mp h _ List.prefix_rfl s hs
  obtain ⟨k, hk, hkl⟩ := List.exists_of_mem_map (hlog ▸ List.mem_singleton_self _)
  have hc := (hall k hk).completion (by simp [hkl])
  exact hc (by simp [hkl])

end Scheduler
end NexusRuntime.Tasks
