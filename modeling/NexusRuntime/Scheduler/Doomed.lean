import NexusRuntime.Scheduler.Settled
import NexusRuntime.Scheduler.Shutdown

namespace NexusRuntime.Tasks

open Transition Sequence

-- what is left to happen when nothing more is asked of the pool
def Label.winds : Label → Bool
  | .fire _ | .count _ | .push _ | .release | .resume | .thread _ | .finish _ => true
  | .poll _ ran => !ran
  | _ => false

namespace Worker

theorem early_of_away {w : Worker} {t : Nat} (h : w.inHand t = false) : w.early t = true := by
  obtain ⟨c, frame⟩ := w
  cases frame with
  | iteration u p f =>
    by_cases hu : u = t
    · subst hu
      cases p with
      | recount | deactivate | testPause => simp [early, Point.early]
      | _ => simp [inHand, Point.inHand] at h
    · simp [early, hu]
  | _ => rfl

theorem inHand_point {t u : Nat} {c c' : Option Nat} {p p' : Point} {f f' : List Fate}
    (h : p'.inHand = p.inHand) : (Worker.mk c' (.iteration u p' f')).inHand t =
      (Worker.mk c (.iteration u p f)).inHand t := by
  simp only [inHand, h]

theorem inHand_other {t u : Nat} (h : u ≠ t) (c : Option Nat) (p : Point) (f : List Fate) :
    (Worker.mk c (.iteration u p f)).inHand t = false := by
  simp [inHand, h]

end Worker

namespace Scheduler

-- a task that counts as a holder and that no worker will delete any more
structure Doomed (s : Scheduler) (t : Nat) (k : Task) : Prop where
  object : s.object t = some k
  held : k.held = true
  lost : s.places t = 0 ∨ k.myStatus = .aborted ∧ ∀ w ∈ s.workers, w.early t = true

def joined (s : Scheduler) : Prop := ∃ w ∈ s.workers[0]?, w.frame = .left

-- drainTasks finds the task aborted at its first test, and lets the pointer go
def dropped (s : Scheduler) (t : Nat) : Prop :=
  ∃ w ∈ s.workers, (∃ f, w.frame = .iteration t (.run .testAborted) f) ∧
    ∃ k, s.object t = some k ∧ k.myStatus = .aborted

theorem hand_pos {s : Scheduler} {i t : Nat} {w : Worker} (hw : s.workers[i]? = some w)
    (h : w.inHand t = true) : 0 < s.places t :=
  Nat.lt_of_lt_of_le (List.countP_pos_iff.mpr ⟨w, List.mem_of_getElem? hw, h⟩)
    (Nat.le_add_left _ _)

theorem places_same {s : Scheduler} {i t : Nat} {w w' : Worker} (hw : s.workers[i]? = some w)
    (h : w'.inHand t = w.inHand t) : (s.setWorker i w').places t = s.places t := by
  have hp := places_setWorker s hw w' t
  rw [h] at hp
  omega

theorem proceed_inHand (k : Task) (c : Code) :
    (k.proceed c).1.inHand = true ∨ c = .testAborted ∧ k.myStatus = .aborted := by
  rcases k.proceed_point c with h | ⟨hc, ha, -⟩
  · left
    revert h
    generalize (k.proceed c).1 = p
    cases p with
    | run | handler | push | exit => exact fun _ => rfl
    | _ => rintro ⟨⟩
  · exact .inr ⟨hc, ha⟩

theorem places_after {s s' : Scheduler} {l : Label} (h : s.Moves l s') {t : Nat}
    (ht : t < s.tasks.length) : s'.places t = s.places t ∨
      s'.places t ≤ s.places t ∧ (s'.object t = none ∨ s.dropped t) := by
  have hcount {n m : Nat} (hn : n = s.waiting.count t) (hm : m = s.workers.countP (Worker.inHand t)) :
      n + m = s.places t := by rw [hn, hm, Scheduler.places]
  cases h with
  | @schedule l kind hold delayed hl =>
    left
    rw [schedule_eq]
    refine hcount ?_ rfl
    cases delayed <;> simp [waiting, List.count_append, Nat.ne_of_gt ht]
  | fire hu | count hu | push hu =>
    refine .inl (hcount ?_ rfl)
    have hc := count_erase_add hu t
    simp only [waiting, List.count_append, List.count_singleton, beq_iff_eq]
    omega
  | addThread =>
    refine .inl (hcount rfl ?_)
    simp [List.countP_append, Worker.inHand, Worker.new]
  | idle hl hw hi hi' =>
    exact .inl (places_same hw (by rw [Worker.idle_inHand hi, Worker.idle_inHand hi']))
  | @pop i c u queue hw hq =>
    left
    have hc := countP_replace (Worker.inHand t) hw ⟨c, .iteration u .activate []⟩
    simp only [Worker.inHand, Point.inHand, Bool.and_true, decide_eq_true_eq] at hc
    simp only [Scheduler.places, waiting, setWorker, hq, List.count_append, List.count_cons,
      beq_iff_eq]
    simp only [Bool.false_eq_true, if_false] at hc
    omega
  | activate hw | discount hw | reset hw =>
    exact .inl (places_same hw (Worker.inHand_point rfl))
  | handled hl hc hw => exact .inl (places_same hw (Worker.inHand_point rfl))
  | recount hw | deactivate hw => exact .inl (places_same hw (Worker.inHand_point rfl))
  | finish hw hi =>
    refine .inl (places_same hw ?_)
    rw [Worker.idle_inHand hi]
    simp [Worker.inHand, Point.inHand]
  | @run i u c f k hw hk =>
    rcases proceed_inHand k c with hin | ⟨rfl, ha⟩
    · exact .inl (places_same hw (Worker.inHand_point hin))
    · by_cases hu : u = t
      · subst hu
        refine .inr ⟨?_, .inr ⟨_, List.mem_of_getElem? hw, ⟨f, rfl⟩, k, hk, ha⟩⟩
        have hp := places_setWorker s hw ⟨some u, .iteration u (k.proceed .testAborted).1 f⟩ u
        have hone : (Worker.mk (some u) (.iteration u (.run .testAborted) f)).inHand u = true := by
          simp [Worker.inHand, Point.inHand]
        rw [if_pos hone] at hp
        have hle : (if (Worker.mk (some u) (.iteration u (k.proceed .testAborted).1 f)).inHand u = true
            then 1 else 0) ≤ 1 := by split <;> simp
        exact Nat.le_of_add_le_add_right (hp.trans_le (Nat.add_le_add_left hle _))
      · exact .inl (places_same hw (by rw [Worker.inHand_other hu, Worker.inHand_other hu]))
  | @requeue i u f hw =>
    left
    have hc := countP_replace (Worker.inHand t) hw ⟨none, .iteration u .recount (f ++ [.pushedBack])⟩
    simp only [Worker.inHand, Point.inHand, Bool.and_true, Bool.and_false, decide_eq_true_eq,
      Bool.false_eq_true, if_false] at hc
    simp only [Scheduler.places, waiting, setWorker, List.count_append, List.count_singleton,
      beq_iff_eq]
    omega
  | exit hw hk => exact .inl (places_same hw (Worker.inHand_point rfl))
  | @delete i c u f k hw hk =>
    have hplaces : ((s.destroy u k).setWorker i ⟨c, .iteration u .deactivate (f ++ [.destroyed])⟩).places t =
        (s.setWorker i ⟨c, .iteration u .deactivate (f ++ [.destroyed])⟩).places t := by
      rw [destroy_eq]
      rfl
    rw [hplaces]
    by_cases hu : u = t
    · subst hu
      refine .inr ⟨?_, .inl ?_⟩
      · have hp := places_setWorker s hw ⟨c, .iteration u .deactivate (f ++ [.destroyed])⟩ u
        simp only [Worker.inHand, Point.inHand, Bool.and_false, Bool.false_eq_true, if_false,
          decide_true, Bool.and_true, if_true] at hp
        omega
      · have hlen := (List.getElem?_eq_some_iff.mp (object_some hk).1).1
        simp [object, setWorker, destroy_tasks, List.getElem?_set_self hlen, Option.filter]
    · exact .inl (places_same hw (by rw [Worker.inHand_other hu, Worker.inHand_other hu]))
  | abort | cancel | hold | release | pause | resume | stay => exact .inl rfl

theorem lost_away {s : Scheduler} {t i : Nat} {k : Task} {c : Option Nat} {p : Point} {f : List Fate}
    (hd : s.Doomed t k) (hw : s.workers[i]? = some ⟨c, .iteration t p f⟩) (hin : p.inHand = true) :
    k.myStatus = .aborted ∧ p.early = true := by
  rcases hd.lost with hzero | ⟨ha, he⟩
  · have hpos := hand_pos (t := t) hw (by simp [Worker.inHand, hin])
    omega
  · exact ⟨ha, Worker.point_of_early (he _ (List.mem_of_getElem? hw))⟩

theorem doomed_step {s s' : Scheduler} {l : Label} (h : s.Moves l s') {t : Nat} {k : Task}
    (hd : s.Doomed t k) : ∃ k', s'.Doomed t k' := by
  obtain ⟨hk, hlive⟩ := object_some hd.object
  obtain ⟨k', hk', ht⟩ := moves_touches h hk
  have hkeeps : k'.deleted = false ∧ k'.held = true ∧
      (k.myStatus = .aborted → k'.myStatus = .aborted) := by
    cases ht with
    | same => exact ⟨hlive, hd.held, id⟩
    | abort => exact ⟨hlive, hd.held, fun _ => rfl⟩
    | cancel => exact ⟨hlive, hd.held, id⟩
    | @run i c f hl hw =>
      obtain ⟨-, hearly⟩ := lost_away hd hw rfl
      cases c with
      | testAborted => exact ⟨hlive, hd.held, id⟩
      | _ => cases hearly
    | exit hl hw => cases (lost_away hd hw rfl).2
    | delete hl hw => cases (lost_away hd hw rfl).2
  obtain ⟨hlive', hheld, hstatus⟩ := hkeeps
  refine ⟨k', by simp [object, hk', hlive', Option.filter], hheld, ?_⟩
  rcases hd.lost with hzero | ⟨ha, he⟩
  · left
    rcases places_after h (List.getElem?_eq_some_iff.mp hk).1 with hsame | ⟨hle, -⟩ <;> omega
  · exact .inr ⟨hstatus ha, moves_early h hk ha he⟩

-- a worker that sees an aborted task back at the start of an iteration has only made the first test
theorem proceed_early {k : Task} {c : Code} (ha : (k.proceed c).2.myStatus = .aborted)
    (he : (k.proceed c).1.early = true) : c = .testAborted := by
  revert ha he
  cases c with
  | testAborted => exact fun _ _ => rfl
  | create =>
    simp only [Task.proceed, Task.create]
    cases k.kind with
    | task => rintro ⟨⟩
    | coroutine =>
      intro _ he
      dsimp only at he
      split at he <;> cases he
  | enterStore =>
    simp only [Task.proceed, Task.enterStore]
    cases k.kind <;> rintro ⟨⟩
  | testYielded =>
    intro ha he
    have hpend : k.myStatus ≠ .pending := by
      rintro hpend
      cases hpend.symm.trans ha
    simp only [Task.proceed, if_neg hpend] at he
    cases he
  | testInactive | testCreated | testPending | enter | coroutine | yieldTest =>
    intro _ he
    simp only [Task.proceed] at he
    split at he <;> cases he
  | createStore | coroutineStore | start | yieldStore | resumeStore | finish =>
    intro _ he
    cases he

theorem early_before {s s' : Scheduler} {l : Label} (h : s.Moves l s') {t : Nat} {k' : Task}
    (hk' : s'.object t = some k') (ha : k'.myStatus = .aborted)
    (he : ∀ w ∈ s'.workers, w.early t = true) : ∀ w ∈ s.workers, w.early t = true := by
  have hback {i : Nat} {w w' : Worker} (hw : s.workers[i]? = some w)
      (hworkers : s'.workers = s.workers.set i w') (h : w'.early t = true → w.early t = true) :
      ∀ w ∈ s.workers, w.early t = true := by
    rw [hworkers] at he
    have hi := (List.getElem?_eq_some_iff.mp hw).1
    have hwe := h (he _ (List.mem_set hi w'))
    by_contra hnone
    push Not at hnone
    obtain ⟨v, hv, hne⟩ := exists_replace hw (fun hn => hn hwe) hnone w'
    exact hne (he v hv)
  cases h with
  | schedule =>
    rw [schedule_eq] at he
    exact he
  | addThread => exact fun w hw => he w (List.mem_append_left _ hw)
  | idle hl hw hi => exact hback hw rfl fun _ => Worker.idle_early hi t
  | pop hw => exact hback hw rfl fun _ => rfl
  | activate hw | discount hw | reset hw | requeue hw | recount hw | deactivate hw | finish hw =>
    exact hback hw rfl fun _ => Worker.early_of_point fun _ => rfl
  | @run i u c f k hw hk =>
    refine hback hw rfl fun hearly => Worker.early_of_point fun hu => ?_
    subst hu
    have hp := Worker.point_of_early hearly
    have hkt := (object_some hk).1
    have hset : (s.setTask u (k.proceed c).2).object u = some k' := hk'
    have hk₁ := (object_some hset).1
    rw [setTask, List.getElem?_set_self (List.getElem?_eq_some_iff.mp hkt).1] at hk₁
    cases hk₁
    obtain rfl := proceed_early ha hp
    rfl
  | exit hw hk =>
    refine hback hw rfl fun hearly => Worker.early_of_point fun hu => ?_
    subst hu
    cases Worker.point_of_early hearly
  | @delete i c u f k hw hk =>
    refine hback hw (by rw [destroy_eq]; rfl) fun hearly => Worker.early_of_point fun hu => ?_
    subst hu
    obtain ⟨hk₁, hlive⟩ := object_some hk'
    rw [setWorker, destroy_tasks, List.getElem?_set_self (List.getElem?_eq_some_iff.mp (object_some hk).1).1] at hk₁
    cases hk₁
    cases hlive
  | handled hl hc hw =>
    refine hback hw rfl fun hearly => Worker.early_of_point fun hu => ?_
    subst hu
    rcases hc with ⟨rfl, -⟩ | rfl <;> cases Worker.point_of_early hearly
  | _ => exact he

theorem winds_length {s s' : Scheduler} {l : Label} (h : s.Moves l s') (hl : l.winds = true) :
    s'.tasks.length = s.tasks.length := by
  cases h with
  | @schedule l kind hold delayed hs =>
    cases l with
    | scheduleTask | scheduleCoroutine => cases hl
    | _ => cases hs
  | run | exit => exact List.length_set
  | delete =>
    rw [setWorker, destroy_tasks]
    exact List.length_set
  | abort | cancel => cases hl
  | _ => rfl

theorem doomed_before {s s' : Scheduler} {l : Label} (hs : s.Custody) (h : s.Moves l s')
    (hl : l.winds = true) {t : Nat} {k' : Task} (hd : s'.Doomed t k') : ∃ k, s.Doomed t k := by
  obtain ⟨hk', hlive'⟩ := object_some hd.object
  have hold : ∃ k, s.tasks[t]? = some k := by
    cases hk : s.tasks[t]? with
    | some k => exact ⟨k, rfl⟩
    | none =>
      have hlen := winds_length h hl
      rw [List.getElem?_eq_none_iff] at hk
      have hlt := (List.getElem?_eq_some_iff.mp hk').1
      omega
  obtain ⟨k, hk⟩ := hold
  have ht := touched h hk hk'
  have hlt := (List.getElem?_eq_some_iff.mp hk).1
  have hbefore : k.deleted = false ∧ k.held = true := by
    cases ht with
    | same | abort | cancel | exit => exact ⟨hlive', hd.held⟩
    | @run i c =>
      obtain ⟨status, suspended, as, hframe, -⟩ := k.proceed_frame c
      have hheld := hd.held
      rw [hframe] at hlive' hheld
      exact ⟨hlive', hheld⟩
    | delete => cases hlive'
  obtain ⟨hlive, hheld⟩ := hbefore
  have hobject : s.object t = some k := by simp [object, hk, hlive, Option.filter]
  refine ⟨k, hobject, hheld, ?_⟩
  rcases hd.lost with hzero | ⟨ha, he⟩
  · rcases places_after h hlt with hsame | ⟨-, hnone | ⟨v, hv, ⟨f, hframe⟩, k₁, hk₁, ha⟩⟩
    · exact .inl (hsame ▸ hzero)
    · cases hnone.symm.trans hd.object
    · cases hobject.symm.trans hk₁
      obtain ⟨i, hi⟩ := List.mem_iff_getElem?.mp hv
      obtain ⟨c, frame⟩ := v
      cases hframe
      have hin : (Worker.mk c (.iteration t (.run .testAborted) f)).inHand t = true := by
        simp [Worker.inHand, Point.inHand]
      refine .inr ⟨ha, fun w hw => ?_⟩
      rcases sole_holder hs hi hin w hw with rfl | haway
      · exact Worker.early_of_point fun _ => rfl
      · exact Worker.early_of_away haway
  · have he' := early_before h hd.object ha he
    refine .inr ⟨?_, he'⟩
    cases ht with
    | same | cancel | exit => exact ha
    | abort habort =>
      subst habort
      cases hl
    | @run i c f hl hw =>
      have hp := Worker.point_of_early (he' _ (List.mem_of_getElem? hw))
      cases c with
      | testAborted => exact ha
      | _ => cases hp
    | delete => cases hlive'

theorem iterate_frame {s s' : Scheduler} (hs : s.Coherent) {i : Nat} {c : Option Nat} {t : Nat}
    {p : Point} {f : List Fate} (hw : s.workers[i]? = some ⟨c, .iteration t p f⟩)
    (h : s.iterate i ⟨c, .iteration t p f⟩ t f p = some s') :
    ∃ w, s'.workers = s.workers.set i w ∧ w.frame ≠ .left := by
  have hcur : p.current = true → c = some t := current_at hs hw
  cases p with
  | run code =>
    cases hcur rfl
    rw [iterate, runCode_current s i rfl] at h
    obtain ⟨k, hk, rfl⟩ := Option.map_eq_some_iff.mp h
    exact ⟨_, rfl, by rintro ⟨⟩⟩
  | handler => cases h
  | push =>
    obtain ⟨u, -, rfl⟩ := Option.map_eq_some_iff.mp h
    exact ⟨_, rfl, by rintro ⟨⟩⟩
  | exit =>
    cases hcur rfl
    obtain ⟨k, hk, rfl⟩ := Option.map_eq_some_iff.mp h
    exact ⟨_, rfl, by rintro ⟨⟩⟩
  | delete u =>
    obtain ⟨k, hk, rfl⟩ := Option.map_eq_some_iff.mp h
    refine ⟨⟨c, .iteration t .deactivate (f ++ [.destroyed])⟩, ?_, by rintro ⟨⟩⟩
    rw [setWorker, destroy_workers]
    rfl
  | testPause =>
    cases h
    refine ⟨_, rfl, ?_⟩
    dsimp only
    split <;> rintro ⟨⟩
  | activate | discount | reset | recount | deactivate =>
    cases h
    exact ⟨_, rfl, by rintro ⟨⟩⟩

theorem thread_frame {s s' : Scheduler} (hs : s.Coherent) (hheld : s.myHoldCount ≠ 0) {i : Nat}
    {w : Worker} (hw : s.workers[i]? = some w) (h : s.thread i w = some s') :
    ∃ w', s'.workers = s.workers.set i w' ∧ w'.frame ≠ .left := by
  obtain ⟨c, frame⟩ := w
  cases frame with
  | dispatcher | left => cases h
  | drainTasks =>
    cases h
    refine ⟨_, rfl, ?_⟩
    dsimp only
    split <;> rintro ⟨⟩
  | pop =>
    cases h
    split <;> exact ⟨_, rfl, by rintro ⟨⟩⟩
  | joinPool =>
    cases h
    rw [if_pos hheld]
    exact ⟨_, rfl, by rintro ⟨⟩⟩
  | iteration t p f => exact iterate_frame hs hw h

theorem stays_out {s s' : Scheduler} (hin : ¬ s.joined) {i : Nat} {w : Worker}
    (hs' : s'.workers = s.workers.set i w) (hw : i = 0 → w.frame ≠ .left) : ¬ s'.joined := by
  rintro ⟨v, hv, hleft⟩
  rw [hs'] at hv
  rcases getElem?_replace hv with ⟨hi, rfl⟩ | ⟨-, hv⟩
  · exact hw hi hleft
  · exact hin ⟨v, hv, hleft⟩

theorem held_stays {s s' : Scheduler} {l : Label} (hs : s.Coherent) (hheld : s.myHoldCount ≠ 0)
    (hin : ¬ s.joined) (h : pools.step s l = some s') : ¬ s'.joined := by
  cases l with
  | scheduleTask delayed | scheduleCoroutine delayed =>
    cases h
    simp only [scheduleTask, scheduleCoroutine, schedule_eq]
    exact hin
  | fire t | count t | push t | release =>
    obtain ⟨-, h⟩ := Option.ite_none_right_eq_some.mp h
    cases h
    exact hin
  | abort t =>
    obtain ⟨k, -, rfl⟩ := Option.map_eq_some_iff.mp h
    exact hin
  | cancel t =>
    obtain ⟨k, -, h⟩ := Option.bind_eq_some_iff.mp h
    obtain ⟨-, h⟩ := Option.ite_none_right_eq_some.mp h
    cases h
    exact hin
  | hold | pause | resume =>
    cases h
    exact hin
  | addThread =>
    cases h
    rintro ⟨v, hv, hleft⟩
    rcases getElem?_snoc hv with hv | ⟨-, rfl⟩
    · exact hin ⟨v, hv, hleft⟩
    · cases hleft
  | poll i ran =>
    obtain ⟨w, hw, h⟩ := Option.bind_eq_some_iff.mp h
    obtain ⟨c, frame⟩ := w
    cases frame with
    | dispatcher =>
      cases h
      refine stays_out hin rfl fun hi => ?_
      rw [if_pos hi]
      dsimp only
      split <;> rintro ⟨⟩
    | _ => cases h
  | thread i =>
    obtain ⟨w, hw, h⟩ := Option.bind_eq_some_iff.mp h
    obtain ⟨w', hs', hw'⟩ := thread_frame hs hheld hw h
    exact stays_out hin hs' fun _ => hw'
  | yield i =>
    obtain ⟨w, -, h⟩ := Option.bind_eq_some_iff.mp h
    rcases yield_cases h with rfl | ⟨u, t, f, rfl, -, rfl⟩
    · exact hin
    · exact stays_out hin rfl fun _ => by rintro ⟨⟩
  | finish i =>
    obtain ⟨w, -, h⟩ := Option.bind_eq_some_iff.mp h
    obtain ⟨c, t, f, rfl, rfl⟩ := finish_cases h
    exact stays_out hin rfl fun _ => by rintro ⟨⟩

theorem doomed_held {s : Scheduler} (hs : s.Sized) {t : Nat} {k : Task} (hd : s.Doomed t k) :
    s.myHoldCount ≠ 0 := by
  apply (held_ne_zero hs).mpr
  obtain ⟨hk, hlive⟩ := object_some hd.object
  have hholds : k.holds = true := by simp [Task.holds, hd.held, hlive]
  have hpos : 0 < s.tasks.countP Task.holds :=
    List.countP_pos_iff.mpr ⟨k, List.mem_of_getElem? hk, hholds⟩
  rw [held]
  omega

structure Stranded (s : Scheduler) : Prop where
  sized : s.Sized
  doomed : ∃ t k, s.Doomed t k
  inside : ¬ s.joined

theorem stranded_step (s : Scheduler) (l : Label) (s' : Scheduler) (hs : s.Stranded) (_ : True)
    (h : machine.step s l = some s') : s'.Stranded := by
  obtain ⟨t, k, hd⟩ := hs.doomed
  have hc := hs.sized.custody.coherent
  have hstep := (machine_step h).1
  refine ⟨sized_step s l s' hs.sized h, ⟨t, doomed_step (step_moves hc hstep) hd⟩, ?_⟩
  exact held_stays hc (doomed_held hs.sized hd) hs.inside hstep

theorem stranded_forever {s s' : Scheduler} (hs : s.Stranded) {ls : List Label}
    (hrun : machine.run s ls = some s') : ¬ s'.joined :=
  (machine.run_keeps stranded_step hs (fun _ _ => trivial) hrun).inside

end Scheduler
end NexusRuntime.Tasks
