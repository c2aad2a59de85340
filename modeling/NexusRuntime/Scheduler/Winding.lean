import NexusRuntime.Scheduler.Doomed
import NexusRuntime.Transition.Settles

namespace NexusRuntime.Tasks

open Transition Sequence

def Code.rank : Code → Nat
  | .testAborted => 22
  | .testInactive => 21
  | .create => 20
  | .createStore => 19
  | .testCreated => 18
  | .testPending => 17
  | .enter => 16
  | .enterStore => 15
  | .coroutine => 14
  | .coroutineStore => 13
  | .start | .resumeStore | .yieldTest => 12
  | .yieldStore | .finish => 10
  | .testYielded => 9

def Point.rank : Point → Nat
  | .activate => 25
  | .discount => 24
  | .reset => 23
  | .run c => c.rank
  | .handler => 11
  | .push | .exit => 8
  | .recount | .delete _ => 7
  | .deactivate => 6
  | .testPause => 5

-- not on the way back to the queue
def Point.onward : Point → Bool
  | .run .yieldTest | .run .yieldStore | .push | .recount => false
  | _ => true

def Worker.rank (w : Worker) : Nat :=
  match w.frame with
  | .iteration _ p _ => p.rank
  | _ => 0

theorem Worker.idle_rank {w : Worker} (h : w.idle = true) : w.rank = 0 := by
  obtain ⟨c, frame⟩ := w
  cases frame with
  | iteration t p f => cases h
  | _ => rfl

namespace Task

theorem proceed_rank (k : Task) (c : Code) : (k.proceed c).1.rank < c.rank := by
  cases c with
  | create =>
    simp only [proceed, create]
    cases k.kind with
    | task => simp [Point.rank, Code.rank]
    | coroutine =>
      dsimp only
      split <;> simp [Point.rank, Code.rank]
  | enterStore =>
    simp only [proceed, enterStore]
    cases k.kind with
    | task => simp [Point.rank, Code.rank]
    | coroutine =>
      dsimp only
      split <;> simp [Point.rank, Code.rank]
  | createStore | coroutineStore | start | yieldStore | resumeStore | finish =>
    simp [proceed, Point.rank, Code.rank]
  | _ =>
    simp only [proceed]
    split <;> simp [Point.rank, Code.rank]

theorem proceed_onward {k : Task} {c : Code} (h : (Point.run c).onward = true)
    (hy : c = .testYielded → k.myStatus ≠ .pending) :
    (k.proceed c).1.onward = true ∧
      ((k.proceed c).1 = .run .testYielded → (k.proceed c).2.myStatus ≠ .pending) := by
  cases c with
  | yieldTest | yieldStore => cases h
  | create =>
    simp only [proceed, create]
    cases k.kind with
    | task => exact ⟨rfl, by rintro ⟨⟩⟩
    | coroutine =>
      dsimp only
      split <;> exact ⟨rfl, by rintro ⟨⟩⟩
  | enterStore =>
    simp only [proceed, enterStore]
    cases k.kind with
    | task => exact ⟨rfl, by rintro ⟨⟩⟩
    | coroutine =>
      dsimp only
      split <;> exact ⟨rfl, by rintro ⟨⟩⟩
  | testAborted | testInactive | testCreated =>
    simp only [proceed]
    split <;> exact ⟨rfl, by rintro ⟨⟩⟩
  | testPending =>
    simp only [proceed]
    split
    · exact ⟨rfl, by rintro ⟨⟩⟩
    · next hne => exact ⟨rfl, fun _ => hne⟩
  | enter | coroutine =>
    simp only [proceed]
    split
    · next ha => exact ⟨rfl, fun _ => by rw [ha]; rintro ⟨⟩⟩
    · exact ⟨rfl, by rintro ⟨⟩⟩
  | testYielded =>
    simp only [proceed, if_neg (hy rfl)]
    exact ⟨rfl, by rintro ⟨⟩⟩
  | finish => exact ⟨rfl, fun _ => by rintro ⟨⟩⟩
  | createStore | coroutineStore | start | resumeStore => exact ⟨rfl, by rintro ⟨⟩⟩

end Task

namespace Scheduler

def Fresh (s : Scheduler) (w : Worker) : Prop :=
  match w.frame with
  | .iteration t p _ =>
    p.onward = true ∧ (p = .run .testYielded → ∀ k ∈ s.object t, k.myStatus ≠ .pending)
  | _ => True

structure Advance (s : Scheduler) (i : Nat) (w w' : Worker) (s' : Scheduler) : Prop where
  workers : s'.workers = s.workers.set i w'
  rank : w'.rank < w.rank
  timers : s'.timers = s.timers
  entering : s'.entering = s.entering
  arriving : s'.arriving = s.arriving
  holders : s'.holders = s.holders
  paused : s'.myPauseTasks = s.myPauseTasks
  fresh : s.Fresh w → s'.Fresh w' ∧ s'.myTaskQueue = s.myTaskQueue

theorem idle_fresh (s : Scheduler) {w : Worker} (h : w.idle = true) : s.Fresh w := by
  obtain ⟨c, frame⟩ := w
  cases frame with
  | iteration t p f => cases h
  | _ => trivial

theorem machine_winds {s : Scheduler} {l : Label} (h : l.winds = true) :
    machine.step s l = pools.step s l := by
  refine if_neg fun hfull => ?_
  cases l with
  | scheduleTask | scheduleCoroutine | hold => cases h
  | _ => cases hfull.1

section Steps
variable {s : Scheduler} {i : Nat} {w : Worker} (hw : s.workers[i]? = some w)
include hw

theorem worker_step {l : Label} (act : Worker → Option Scheduler) (hl : l.winds = true)
    (h : pools.step s l = (s.workers[i]?).bind act) : machine.step s l = act w := by
  rw [machine_winds hl, h, hw]
  rfl

theorem thread_step : machine.step s (.thread i) = s.thread i w :=
  worker_step hw (s.thread i) rfl rfl

theorem finish_step : machine.step s (.finish i) = s.finish i w :=
  worker_step hw (s.finish i) rfl rfl

theorem poll_step : machine.step s (.poll i false) = s.poll i w false :=
  worker_step hw (s.poll i · false) rfl rfl

end Steps

theorem advances {s : Scheduler} (hs : s.Custody) {i : Nat} {c : Option Nat} {t : Nat} {p : Point}
    {f : List Fate} (hw : s.workers[i]? = some ⟨c, .iteration t p f⟩) :
    ∃ l s' w', l.winds = true ∧ machine.step s l = some s' ∧
      s.Advance i ⟨c, .iteration t p f⟩ w' s' := by
  have hcur : p.current = true → c = some t := current_at hs.coherent hw
  have hobject (hin : p.inHand = true) : ∃ k, s.object t = some k :=
    Option.isSome_iff_exists.mp (in_hand hs hw (by simp [Worker.inHand, hin])).2.2
  have hthread {s' : Scheduler} {w' : Worker} (h : s.thread i ⟨c, .iteration t p f⟩ = some s')
      (ha : s.Advance i ⟨c, .iteration t p f⟩ w' s') : ∃ l s' w', l.winds = true ∧
        machine.step s l = some s' ∧ s.Advance i ⟨c, .iteration t p f⟩ w' s' :=
    ⟨.thread i, s', w', rfl, (thread_step hw).trans h, ha⟩
  cases p with
  | activate | discount | reset =>
    refine hthread rfl ⟨rfl, ?_, rfl, rfl, rfl, rfl, rfl, fun _ => ⟨⟨rfl, by rintro ⟨⟩⟩, rfl⟩⟩
    simp [Worker.rank, Worker.moved, Point.rank, Code.rank]
  | recount | deactivate =>
    refine hthread rfl ⟨rfl, ?_, rfl, rfl, rfl, rfl, rfl, fun _ => ⟨⟨rfl, by rintro ⟨⟩⟩, rfl⟩⟩
    simp [Worker.rank, Worker.moved, Point.rank]
  | run code =>
    cases hcur rfl
    obtain ⟨k, hk⟩ := hobject rfl
    have hstep : s.thread i ⟨some t, .iteration t (.run code) f⟩ =
        some ((s.setTask t (k.proceed code).2).setWorker i
          ⟨some t, .iteration t (k.proceed code).1 f⟩) := by
      change s.iterate i _ t f (.run code) = _
      rw [iterate, runCode_current s i rfl, hk]
      rfl
    refine hthread hstep ⟨rfl, k.proceed_rank code, rfl, rfl, rfl, rfl, rfl, fun hfresh => ⟨?_, rfl⟩⟩
    obtain ⟨honward, hyield⟩ := Task.proceed_onward hfresh.1 fun hc => hfresh.2 (hc ▸ rfl) k hk
    refine ⟨honward, fun hp k' hk' => ?_⟩
    have hset := (object_some (show (s.setTask t (k.proceed code).2).object t = some k' from hk')).1
    rw [setTask, List.getElem?_set_self (List.getElem?_eq_some_iff.mp (object_some hk).1).1] at hset
    cases hset
    exact hyield hp
  | handler =>
    refine ⟨.finish i, _, _, rfl, (finish_step hw).trans rfl, rfl, ?_, rfl, rfl, rfl, rfl, rfl,
      fun _ => ⟨⟨rfl, by rintro ⟨⟩⟩, rfl⟩⟩
    simp [Worker.rank, Worker.moved, Point.rank, Code.rank]
  | push =>
    cases hcur rfl
    refine hthread rfl ⟨rfl, ?_, rfl, rfl, rfl, rfl, rfl, fun hfresh => by cases hfresh.1⟩
    simp [Worker.rank, Worker.moved, Point.rank]
  | exit =>
    cases hcur rfl
    obtain ⟨k, hk⟩ := hobject rfl
    have hstep : s.thread i ⟨some t, .iteration t .exit f⟩ =
        some ((s.setTask t k.exit).setWorker i ⟨none, .iteration t (.delete t) f⟩) := by
      simp only [thread, iterate, hk, Option.map_some]
      rfl
    refine hthread hstep ⟨rfl, ?_, rfl, rfl, rfl, rfl, rfl, fun _ => ⟨⟨rfl, by rintro ⟨⟩⟩, rfl⟩⟩
    simp [Worker.rank, Point.rank]
  | delete u =>
    obtain rfl := delete_at hs.coherent hw
    obtain ⟨k, hk⟩ := hobject rfl
    have hstep : s.thread i ⟨c, .iteration u (.delete u) f⟩ =
        some ((s.destroy u k).setWorker i ⟨c, .iteration u .deactivate (f ++ [.destroyed])⟩) := by
      simp only [thread, iterate, hk, Option.map_some]
      rfl
    rw [destroy_eq] at hstep
    refine hthread hstep ⟨rfl, ?_, rfl, rfl, rfl, rfl, rfl, fun _ => ⟨⟨rfl, by rintro ⟨⟩⟩, rfl⟩⟩
    simp [Worker.rank, Point.rank]
  | testPause =>
    have hidle : (Worker.mk c (if s.myPauseTasks then .dispatcher else .pop)).idle = true :=
      Worker.idle_ite c _ rfl rfl
    refine hthread rfl ⟨rfl, ?_, rfl, rfl, rfl, rfl, rfl, fun _ => ⟨idle_fresh _ hidle, rfl⟩⟩
    rw [Worker.idle_rank hidle]
    simp [Worker.rank, Point.rank]

structure Manned (s : Scheduler) : Prop extends Sized s where
  tallies : s.Tallies
  staffed : s.workers ≠ []

theorem moves_staffed {s s' : Scheduler} {l : Label} (h : s.Moves l s') (hs : s.workers ≠ []) :
    s'.workers ≠ [] := by
  have hset {i : Nat} {w : Worker} : s.workers.set i w ≠ [] := by simpa using hs
  cases h with
  | schedule =>
    rw [schedule_eq]
    exact hs
  | addThread => simp
  | delete =>
    rw [setWorker, destroy_workers]
    exact hset
  | fire | count | push | abort | cancel | hold | release | pause | resume | stay => exact hs
  | _ => exact hset

theorem manned_step (s : Scheduler) (l : Label) (s' : Scheduler) (hs : s.Manned) (_ : True)
    (h : machine.step s l = some s') : s'.Manned := by
  have hm := step_moves hs.custody.coherent (machine_step h).1
  exact ⟨sized_step s l s' hs.toSized h, tallies_step hs.tallies hm, moves_staffed hm hs.staffed⟩

theorem start_manned (myMaxThreads : Nat) : (start myMaxThreads).Manned :=
  ⟨start_sized myMaxThreads, ⟨rfl, rfl⟩, List.cons_ne_nil _ _⟩

structure Steady (s : Scheduler) : Prop extends Manned s where
  hopeful : ∀ t k, ¬ s.Doomed t k

theorem steady_step (s : Scheduler) (l : Label) (s' : Scheduler) (hs : s.Steady)
    (hl : l.winds = true) (h : machine.step s l = some s') : s'.Steady := by
  have hm := step_moves hs.custody.coherent (machine_step h).1
  refine ⟨manned_step s l s' hs.toManned trivial h, ?_⟩
  intro t k' hd
  obtain ⟨k, hd⟩ := doomed_before hs.custody hm hl hd
  exact hs.hopeful t k hd

def Resting (s : Scheduler) : Prop := ∀ w ∈ s.workers, w.idle = true

def winding (s s' : Scheduler) : Prop := machine.Reaches (fun l => l.winds = true) s s'

theorem rests {s : Scheduler} (hs : s.Steady) : ∃ s', s.winding s' ∧ s'.Steady ∧ s'.Resting := by
  refine System.reaches_of_progress (μ := fun s => total Worker.rank s.workers) ?_ hs
  intro s hs hbusy
  unfold Resting at hbusy
  push Not at hbusy
  obtain ⟨w, hmem, hidle⟩ := hbusy
  obtain ⟨i, hw⟩ := List.mem_iff_getElem?.mp hmem
  obtain ⟨c, frame⟩ := w
  cases frame with
  | iteration t p f =>
    obtain ⟨l, s', w', hl, hstep, ha⟩ := advances hs.custody hw
    refine ⟨l, s', hl, hstep, steady_step s l s' hs hl hstep, ?_⟩
    have htotal := total_replace Worker.rank hw w'
    have hlt := ha.rank
    simp only [ha.workers]
    omega
  | _ => exact absurd rfl hidle

structure Drained (s : Scheduler) : Prop where
  running : s.myPauseTasks = false
  timers : s.timers = []
  entering : s.entering = []
  arriving : s.arriving = []
  holders : s.holders = 0

theorem Drained.same {s : Scheduler} (hs : s.Drained) {queue : List Nat} {i : Nat} {w : Worker} :
    ({ s with myTaskQueue := queue : Scheduler }.setWorker i w).Drained :=
  ⟨hs.running, hs.timers, hs.entering, hs.arriving, hs.holders⟩

def due (s : Scheduler) : Nat :=
  3 * s.timers.length + 2 * s.entering.length + s.arriving.length + s.holders +
    if s.myPauseTasks then 1 else 0

theorem undrained {s : Scheduler} (h : ¬ s.Drained) : s.myPauseTasks = true ∨ (∃ t, t ∈ s.timers) ∨
    (∃ t, t ∈ s.entering) ∨ (∃ t, t ∈ s.arriving) ∨ 0 < s.holders := by
  by_contra hnone
  push Not at hnone
  obtain ⟨hp, ht, he, ha, hh⟩ := hnone
  exact h ⟨by simpa using hp, List.eq_nil_iff_forall_not_mem.mpr ht,
    List.eq_nil_iff_forall_not_mem.mpr he, List.eq_nil_iff_forall_not_mem.mpr ha, Nat.le_zero.mp hh⟩

theorem due_step {s : Scheduler} (h : ¬ s.Drained) : ∃ l s', l.winds = true ∧
    machine.step s l = some s' ∧ s'.workers = s.workers ∧ s'.due < s.due := by
  rcases undrained h with hp | ⟨t, hin⟩ | ⟨t, hin⟩ | ⟨t, hin⟩ | hpos
  · refine ⟨.resume, _, rfl, machine_winds rfl, rfl, ?_⟩
    simp [due, hp]
  · refine ⟨.fire t, _, rfl, (machine_winds rfl).trans (if_pos hin), rfl, ?_⟩
    have hpos := List.length_pos_of_mem hin
    simp only [due, List.length_erase_of_mem hin, List.length_append, List.length_singleton]
    omega
  · refine ⟨.count t, _, rfl, (machine_winds rfl).trans (if_pos hin), rfl, ?_⟩
    have hpos := List.length_pos_of_mem hin
    simp only [due, List.length_erase_of_mem hin, List.length_append, List.length_singleton]
    omega
  · refine ⟨.push t, _, rfl, (machine_winds rfl).trans (if_pos hin), rfl, ?_⟩
    have hpos := List.length_pos_of_mem hin
    simp only [due, List.length_erase_of_mem hin]
    omega
  · refine ⟨.release, _, rfl, (machine_winds rfl).trans (if_pos hpos), rfl, ?_⟩
    exact Nat.add_lt_add_right (Nat.add_lt_add_left (Nat.sub_lt hpos Nat.zero_lt_one) _) _

theorem drains {s : Scheduler} (hs : s.Steady ∧ s.Resting) :
    ∃ s', s.winding s' ∧ (s'.Steady ∧ s'.Resting) ∧ s'.Drained := by
  refine System.reaches_of_progress (μ := due) ?_ hs
  rintro s ⟨hs, hrest⟩ h
  obtain ⟨l, s', hl, hstep, hworkers, hlt⟩ := due_step h
  refine ⟨l, s', hl, hstep, ⟨steady_step s l s' hs hl hstep, ?_⟩, hlt⟩
  rw [Resting, hworkers]
  exact hrest

-- the thread in joinPool is the only one that still runs the tasks of the queue
structure Alone (s : Scheduler) : Prop extends Steady s, Drained s where
  others : ∀ i w, s.workers[i]? = some w → i ≠ 0 → w.idle = true
  fresh : ∀ w ∈ s.workers[0]?, s.Fresh w

theorem alone_resting {s : Scheduler} (hs : s.Alone) {w : Worker} (hw : s.workers[0]? = some w)
    (hidle : w.idle = true) : s.Resting := by
  intro v hv
  obtain ⟨i, hi⟩ := List.mem_iff_getElem?.mp hv
  by_cases h : i = 0
  · subst h
    cases hw.symm.trans hi
    exact hidle
  · exact hs.others i v hi h

theorem resting_none {s : Scheduler} (h : s.Resting) {p : Worker → Bool}
    (hp : ∀ w, w.idle = true → p w = false) : s.workers.countP p = 0 := by
  apply List.countP_eq_zero.mpr
  intro w hw
  rw [hp w (h w hw)]
  rintro ⟨⟩

theorem idle_paired {w : Worker} (h : w.idle = true) : w.paired = false := by
  obtain ⟨c, frame⟩ := w
  cases frame with
  | iteration t p f => cases h
  | _ => rfl

theorem alone_counts {s : Scheduler} (hs : s.Alone) (h : s.Resting) :
    s.myTaskCount = 0 ↔ s.myTaskQueue = [] := by
  have hlevel : 0 ≤ s.level := by
    simp only [level, requeued, resting_none h fun w hw => (idle_tallied hw).2.1]
    omega
  have hbalanced := accounts_balanced s ⟨hs.toSized, hs.tallies, hlevel⟩
    ⟨hs.arriving, fun w hw => idle_paired (h w hw)⟩
  rw [← UInt64.toNat_inj, hbalanced.1, UInt64.toNat_zero, List.length_eq_zero_iff]

theorem alone_released {s : Scheduler} (hs : s.Alone) (h : s.Resting) (hq : s.myTaskQueue = []) :
    s.myHoldCount = 0 := by
  by_contra hheld
  have hpos := (held_ne_zero hs.toSized).mp hheld
  rw [held, hs.holders, Nat.zero_add, List.countP_pos_iff] at hpos
  obtain ⟨k, hmem, hholds⟩ := hpos
  obtain ⟨t, ht⟩ := List.mem_iff_getElem?.mp hmem
  simp only [Task.holds, Bool.and_eq_true, Bool.not_eq_true'] at hholds
  refine hs.hopeful t k ⟨by simp [object, ht, hholds.2, Option.filter], hholds.1, .inl ?_⟩
  have hhands := resting_none h fun w hw => Worker.idle_inHand hw t
  simp [Scheduler.places, waiting, hs.timers, hs.entering, hs.arriving, hq, hhands]

def turn (queue : List Nat) : Frame → Nat
  | .iteration _ p _ => p.rank
  | .drainTasks => if queue = [] then 4 else 1
  | .pop => if queue = [] then 3 else 0
  | .dispatcher => 2
  | .joinPool => if queue = [] then 1 else 3
  | .left => 0

theorem turn_of_rank {queue : List Nat} {w : Worker} {p : Point} (h : w.rank < p.rank) :
    turn queue w.frame < p.rank := by
  have hmin : 5 ≤ p.rank := by
    cases p with
    | run c => cases c <;> simp [Point.rank, Code.rank]
    | _ => simp [Point.rank]
  obtain ⟨c, frame⟩ := w
  cases frame with
  | iteration t p' f => exact h
  | dispatcher | left => simp only [turn]; omega
  | drainTasks | pop | joinPool =>
    simp only [turn]
    split <;> omega

def ahead (s : Scheduler) : Nat :=
  26 * s.myTaskQueue.length + (s.workers[0]?).elim 0 fun w => turn s.myTaskQueue w.frame

theorem ahead_eq {s : Scheduler} {w : Worker} (hw : s.workers[0]? = some w) :
    s.ahead = 26 * s.myTaskQueue.length + turn s.myTaskQueue w.frame := by
  rw [ahead, hw]
  rfl

theorem replaced {s s' : Scheduler} {w w' : Worker} (hw : s.workers[0]? = some w)
    (h : s'.workers = s.workers.set 0 w') : s'.workers[0]? = some w' := by
  rw [h, List.getElem?_set_self (List.getElem?_eq_some_iff.mp hw).1]

theorem alone_set {s s' : Scheduler} (hs : s.Alone) {l : Label} (hl : l.winds = true)
    (hstep : machine.step s l = some s') {w w' : Worker} (hw : s.workers[0]? = some w)
    (hworkers : s'.workers = s.workers.set 0 w') (hd : s'.Drained) (hf : s'.Fresh w') :
    s'.Alone := by
  refine { steady_step s l s' hs.toSteady hl hstep, hd with others := ?_, fresh := ?_ }
  · intro i v hv hi
    rw [hworkers] at hv
    rcases getElem?_replace hv with ⟨h, -⟩ | ⟨-, hv⟩
    · exact absurd h.symm hi
    · exact hs.others i v hv hi
  · rw [replaced hw hworkers]
    rintro v ⟨⟩
    exact hf

theorem ahead_set {s s' : Scheduler} {w w' : Worker} (hw : s.workers[0]? = some w)
    (hworkers : s'.workers = s.workers.set 0 w')
    (h : 26 * s'.myTaskQueue.length + turn s'.myTaskQueue w'.frame <
      26 * s.myTaskQueue.length + turn s.myTaskQueue w.frame) : s'.ahead < s.ahead := by
  rwa [ahead_eq hw, ahead_eq (replaced hw hworkers)]

theorem alone_step {s : Scheduler} (hs : s.Alone) (hin : ¬ s.joined) :
    ∃ l s', l.winds = true ∧ machine.step s l = some s' ∧ s'.Alone ∧ s'.ahead < s.ahead := by
  have hlen : 0 < s.workers.length := List.length_pos_iff.mpr hs.staffed
  obtain ⟨w, hw⟩ : ∃ w, s.workers[0]? = some w := ⟨_, List.getElem?_eq_getElem hlen⟩
  have hmoved (s' : Scheduler) (l : Label) (w' : Worker) (hl : l.winds = true)
      (hstep : machine.step s l = some s') (hworkers : s'.workers = s.workers.set 0 w')
      (hd : s'.Drained) (hf : s'.Fresh w')
      (h : 26 * s'.myTaskQueue.length + turn s'.myTaskQueue w'.frame <
        26 * s.myTaskQueue.length + turn s.myTaskQueue w.frame) :
      ∃ l s', l.winds = true ∧ machine.step s l = some s' ∧ s'.Alone ∧ s'.ahead < s.ahead :=
    ⟨l, s', hl, hstep, alone_set hs hl hstep hw hworkers hd hf, ahead_set hw hworkers h⟩
  have hd : s.Drained := hs.toDrained
  obtain ⟨c, frame⟩ := w
  cases frame with
  | iteration t p f =>
    obtain ⟨l, s', w', hl, hstep, ha⟩ := advances hs.custody hw
    obtain ⟨hfresh, hqueue⟩ := ha.fresh (hs.fresh _ hw)
    refine hmoved s' l w' hl hstep ha.workers ?_ hfresh ?_
    · exact ⟨ha.paused.trans hd.running, ha.timers.trans hd.timers, ha.entering.trans hd.entering,
        ha.arriving.trans hd.arriving, ha.holders.trans hd.holders⟩
    · rw [hqueue]
      exact Nat.add_lt_add_left (turn_of_rank ha.rank) _
  | dispatcher =>
    have hcount := alone_counts hs (alone_resting hs hw rfl)
    by_cases hq : s.myTaskQueue = []
    · refine hmoved (s.setWorker 0 ⟨c, .joinPool⟩) (.poll 0 false) ⟨c, .joinPool⟩ rfl
        ((poll_step hw).trans ?_) rfl hd.same trivial ?_
      · simp [poll, hcount.mpr hq]
      · simp [setWorker, hq, turn]
    · refine hmoved (s.setWorker 0 ⟨c, .drainTasks⟩) (.poll 0 false) ⟨c, .drainTasks⟩ rfl
        ((poll_step hw).trans ?_) rfl hd.same trivial ?_
      · simp [poll, hcount, hq]
      · simp [setWorker, hq, turn]
  | drainTasks =>
    refine hmoved (s.setWorker 0 ⟨c, .pop⟩) (.thread 0) ⟨c, .pop⟩ rfl ((thread_step hw).trans ?_) rfl
      hd.same trivial ?_
    · simp [thread, hd.running]
    · by_cases hq : s.myTaskQueue = [] <;> simp [setWorker, hq, turn]
  | pop =>
    cases hq : s.myTaskQueue with
    | nil =>
      refine hmoved (s.setWorker 0 ⟨c, .dispatcher⟩) (.thread 0) ⟨c, .dispatcher⟩ rfl
        ((thread_step hw).trans ?_) rfl hd.same trivial ?_
      · simp [thread, hq]
      · simp [setWorker, hq, turn]
    | cons t queue =>
      refine hmoved ({ s with myTaskQueue := queue : Scheduler }.setWorker 0 ⟨c, .iteration t .activate []⟩)
        (.thread 0) ⟨c, .iteration t .activate []⟩ rfl ((thread_step hw).trans ?_) rfl hd.same
        ⟨rfl, by rintro ⟨⟩⟩ ?_
      · simp [thread, hq, Worker.moved]
      · simp only [setWorker, hq, turn, Point.rank, List.length_cons]
        simp only [reduceCtorEq, if_false]
        omega
  | joinPool =>
    by_cases hzero : s.myHoldCount = 0
    · refine hmoved (s.setWorker 0 ⟨c, .left⟩) (.thread 0) ⟨c, .left⟩ rfl ((thread_step hw).trans ?_)
        rfl hd.same trivial ?_
      · simp [thread, hzero]
      · by_cases hq : s.myTaskQueue = [] <;> simp [setWorker, hq, turn]
    · have hq : s.myTaskQueue ≠ [] := fun hq =>
        hzero (alone_released hs (alone_resting hs hw rfl) hq)
      refine hmoved (s.setWorker 0 ⟨c, .dispatcher⟩) (.thread 0) ⟨c, .dispatcher⟩ rfl
        ((thread_step hw).trans ?_) rfl hd.same trivial ?_
      · simp [thread, hzero]
      · simp [setWorker, hq, turn]
  | left => exact absurd ⟨_, hw, rfl⟩ hin

theorem winds_down {s : Scheduler} (hs : s.Steady) : ∃ s', s.winding s' ∧ s'.joined := by
  obtain ⟨s₁, h₁, hs₁, hrest⟩ := rests hs
  obtain ⟨s₂, h₂, ⟨hs₂, hrest⟩, hd⟩ := drains ⟨hs₁, hrest⟩
  have halone : s₂.Alone := by
    refine { hs₂, hd with others := fun i w hw _ => hrest w (List.mem_of_getElem? hw), fresh := ?_ }
    intro w hw
    have hidle := hrest w (List.mem_of_getElem? hw)
    obtain ⟨c, frame⟩ := w
    cases frame with
    | iteration t p f => cases hidle
    | _ => trivial
  obtain ⟨s₃, h₃, -, hjoined⟩ := System.reaches_of_progress (P := joined) (μ := ahead)
    (fun s hs hin => alone_step hs hin) halone
  exact ⟨s₃, (h₁.trans h₂).trans h₃, hjoined⟩

theorem joins_unless_doomed (myMaxThreads : Nat) {ls : List Label} {s : Scheduler}
    (hrun : machine.run (start myMaxThreads) ls = some s) (hin : ¬ s.joined) :
    ((∀ t k, ¬ s.Doomed t k) → ∃ ms s', (∀ l ∈ ms, l.winds = true) ∧
      machine.run s ms = some s' ∧ s'.joined) ∧
    ∀ t k, s.Doomed t k → ∀ ms s', machine.run s ms = some s' → ¬ s'.joined := by
  have hs := machine.run_keeps manned_step (start_manned myMaxThreads) (fun _ _ => trivial) hrun
  constructor
  · intro hhope
    obtain ⟨s', ⟨ms, hms, hrun'⟩, hjoined⟩ := winds_down ⟨hs, hhope⟩
    exact ⟨ms, s', hms, hrun', hjoined⟩
  · intro t k hd ms s' hrun'
    exact stranded_forever ⟨hs.toSized, ⟨t, k, hd⟩, hin⟩ hrun'

def abortedInQueue : List Label :=
  [.scheduleTask false, .count 0, .push 0, .abort 0, .cancel 0, .hold]

theorem joins_unless_doomed_aborted :
    (∃ s, machine.run (start 4) [.scheduleTask true] = some s ∧ ∃ ms s', (∀ l ∈ ms, l.winds = true) ∧
      machine.run s ms = some s' ∧ s'.joined) ∧
    ∃ s, machine.run (start 4) abortedInQueue = some s ∧
      ∀ ms s', machine.run s ms = some s' → ¬ s'.joined := by
  have harmed : ∃ s, machine.run (start 4) [.scheduleTask true] = some s ∧ ¬ s.joined ∧
      ∀ t k, ¬ s.Doomed t k := by
    refine ⟨_, rfl, ?_, ?_⟩
    · rintro ⟨w, ⟨⟩, ⟨⟩⟩
    · rintro t k ⟨hobject, -, hlost⟩
      cases t with
      | zero =>
        cases hobject
        rcases hlost with hzero | ⟨ha, -⟩
        · cases hzero
        · cases ha
      | succ t => cases hobject
  have hqueued : ∃ s, machine.run (start 4) abortedInQueue = some s ∧ ¬ s.joined ∧
      ∃ k, s.Doomed 0 k := by
    refine ⟨_, rfl, ?_, _, rfl, rfl, .inr ⟨rfl, by decide⟩⟩
    rintro ⟨w, ⟨⟩, ⟨⟩⟩
  obtain ⟨s, hs, hin, hhope⟩ := harmed
  obtain ⟨s', hs', hin', k, hd⟩ := hqueued
  exact ⟨⟨s, hs, (joins_unless_doomed 4 hs hin).1 hhope⟩,
    s', hs', (joins_unless_doomed 4 hs' hin').2 0 k hd⟩

end Scheduler
end NexusRuntime.Tasks
