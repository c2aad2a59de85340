import NexusRuntime.Scheduler.Accounts

namespace NexusRuntime.Tasks

open Transition Sequence

namespace Scheduler

def leaves (s : Scheduler) (i : Nat) : Prop :=
  ∃ w s', s.workers[i]? = some w ∧ w.frame = .joinPool ∧ machine.step s (.thread i) = some s' ∧
    s'.workers[i]? = some { w with frame := .left }

structure Dismissed (s : Scheduler) (t : Nat) (k : Task) : Prop where
  ended : k.Ended
  destroyed : k.deleted = true
  nowhere : t ∉ s.timers ∧ t ∉ s.entering ∧ t ∉ s.arriving ∧ t ∉ s.myTaskQueue
  unheld : ∀ w ∈ s.workers, w.hand ≠ some t

def NothingDropped (s : Scheduler) : Prop :=
  ∀ i, s.leaves i → ∀ t k, s.tasks[t]? = some k → k.kind = .task → s.Dismissed t k

theorem leaves_released {s : Scheduler} {i : Nat} (h : s.leaves i) : s.myHoldCount = 0 := by
  obtain ⟨w, s', hw, hframe, hstep, hleft⟩ := h
  have hi := (List.getElem?_eq_some_iff.mp hw).1
  obtain ⟨v, hv, hstep⟩ := Option.bind_eq_some_iff.mp (machine_step hstep).1
  cases hw.symm.trans hv
  simp only [thread, hframe] at hstep
  cases hstep
  simp only [setWorker, List.getElem?_set_self hi, Option.some.injEq, Worker.mk.injEq,
    true_and] at hleft
  by_contra hne
  rw [if_pos hne] at hleft
  cases hleft

def held (s : Scheduler) : Nat := s.holders + s.tasks.countP Task.holds

theorem held_toNat {s : Scheduler} (hs : s.Sized) : s.myHoldCount.toNat = s.held := by
  have hle : s.tasks.countP Task.holds ≤ s.tasks.countP Task.live :=
    List.countP_mono_left fun k _ hk => (Bool.and_eq_true _ _ ▸ hk : k.held = true ∧ _).2
  have hbound := hs.bounded
  simp only [objects] at hbound
  rw [hs.custody.counted, UInt64.toNat_ofNat_of_lt' (by omega), held]

theorem held_ne_zero {s : Scheduler} (hs : s.Sized) : s.myHoldCount ≠ 0 ↔ 0 < s.held := by
  rw [← held_toNat hs, Nat.pos_iff_ne_zero, ne_eq, ne_eq, ← UInt64.toNat_inj, UInt64.toNat_zero]

theorem no_holders {s : Scheduler} (hs : s.Sized) (h : s.myHoldCount = 0) :
    ∀ k ∈ s.tasks, k.holds = false := by
  have hcount := held_toNat hs
  rw [h, UInt64.toNat_zero, held] at hcount
  have hzero : s.tasks.countP Task.holds = 0 := by omega
  intro k hk
  simpa using List.countP_eq_zero.mp hzero k hk

theorem dismissed_of_released {s : Scheduler} (hs : s.Sized) (h : s.myHoldCount = 0) {t : Nat}
    {k : Task} (hk : s.tasks[t]? = some k) (hkind : k.kind = .task) : s.Dismissed t k := by
  have hmem := List.mem_of_getElem? hk
  have hl := hs.custody.lawful k hmem
  have hdel : k.deleted = true := by
    simpa [Task.holds, hl.held hkind] using no_holders hs h k hmem
  obtain ⟨hwait, hhand⟩ := dead_places hs.custody hk hdel
  have habsent := List.count_eq_zero.mp hwait
  simp only [waiting, List.mem_append, not_or] at habsent
  refine ⟨hl.ended (hl.deleted hdel), hdel, ?_, fun w hw hin => ?_⟩
  · exact ⟨habsent.1.1.1, habsent.1.1.2, habsent.1.2, habsent.2⟩
  · refine absurd ?_ (List.countP_eq_zero.mp hhand w hw)
    obtain ⟨c, frame⟩ := w
    cases frame with
    | iteration u p f =>
      simp only [Worker.hand] at hin
      split at hin
      · next hp =>
        cases hin
        simp [Worker.inHand, hp]
      · cases hin
    | _ => cases hin

theorem nothing_dropped (myMaxThreads : Nat) (ls : List Label) :
    machine.always NothingDropped (start myMaxThreads) ls :=
  machine.always_of_steps (fun _ hs _ hleave _ _ hk => dismissed_of_released hs (leaves_released hleave) hk)
    sized_step (start_sized myMaxThreads) ls

def delayedToTheEnd : List Label :=
  [.scheduleTask true, .poll 0 false, .thread 0, .fire 0, .count 0, .push 0, .poll 0 true] ++
    List.replicate 12 (.thread 0) ++ [.finish 0] ++ List.replicate 7 (.thread 0) ++ [.poll 0 false]

example : ((machine.run (start 4) delayedToTheEnd).bind fun s => machine.run s [.thread 0]).map
    (fun s => (s.workers, s.tasks.map Task.deleted)) = some ([⟨none, .left⟩], [true]) := by decide

end Scheduler

end NexusRuntime.Tasks
