import NexusRuntime.Scheduler.Abort
import NexusRuntime.Scheduler.Moves
import NexusRuntime.Scheduler.Release

namespace NexusRuntime.Tasks

open Transition Sequence

def Status.final : Status → Bool
  | .finished | .aborted => true
  | _ => false

def Status.ready : Status → Bool
  | .inactive | .pending | .aborted => true
  | _ => false

def Point.admits : Point → Status → Bool
  | .activate, status | .discount, status | .reset, status => status.ready
  | .run .testAborted, status | .run .testInactive, status => status.ready
  | .run .testCreated, status => status = .created || status = .pending || status = .aborted
  | .run .testPending, status | .push, status => status = .pending || status = .aborted
  | .run .testYielded, status => status = .pending || status.final
  | .exit, status | .delete _, status => status.final
  | _, _ => true

namespace Task

def everAborted (k : Task) : Prop := .store .aborted ∈ k.log

def ranToEnd (k : Task) : Prop := .store .finished ∈ k.log

def Ended (k : Task) : Prop := k.ranToEnd ∨ k.everAborted

structure Lawful (k : Task) : Prop where
  held : k.kind = .task → k.held = true
  ended : k.myStatus.final = true → k.Ended
  deleted : k.deleted = true → k.myStatus.final = true
  once : k.log.count .completionHandlers ≤ 1
  untouched : ¬ k.everAborted → k.Unaborted

def follows (k k' : Task) : Prop := k'.myStatus = k.myStatus ∨ k'.myStatus = .aborted

end Task

namespace Worker

def inHand (t : Nat) (w : Worker) : Bool :=
  match w.frame with
  | .iteration u p _ => decide (u = t) && p.inHand
  | _ => false

def Phase (t : Nat) (k : Task) (w : Worker) : Prop :=
  match w.frame with
  | .iteration u p _ => u = t → p.admits k.myStatus = true
  | _ => True

end Worker

theorem Point.admits_aborted (p : Point) : p.admits .aborted = true := by
  cases p with
  | run c => cases c <;> rfl
  | _ => rfl

theorem Point.push_ready {status : Status} (h : Point.push.admits status = true) :
    status.ready = true := by
  cases status with
  | pending | aborted => rfl
  | _ => simp [Point.admits] at h

namespace Task
variable {k k' : Task}

theorem follows.admits (h : k.follows k') {p : Point} (hp : p.admits k.myStatus = true) :
    p.admits k'.myStatus = true := by
  rcases h with h | h
  · rwa [h]
  · rw [h]
    exact p.admits_aborted

theorem follows.ready (h : k.follows k') (hr : k.myStatus.ready = true) :
    k'.myStatus.ready = true := by
  rcases h with h | h
  · rwa [h]
  · rw [h]
    rfl

theorem proceed_admits (k : Task) {c : Code} (hp : (Point.run c).admits k.myStatus = true) :
    (k.proceed c).1.admits (k.proceed c).2.myStatus = true := by
  cases c with
  | testAborted =>
    simp only [proceed]
    split
    · rfl
    · exact hp
  | testInactive =>
    simp only [proceed]
    split
    · rfl
    · next hne =>
      revert hp hne
      cases k.myStatus <;> simp [Point.admits, Status.ready]
  | create =>
    simp only [proceed, create]
    cases k.kind with
    | task => rfl
    | coroutine =>
      dsimp only
      split
      · next ha => rw [ha, Point.admits_aborted]
      · rfl
  | testCreated =>
    simp only [proceed]
    split
    · rfl
    · next hne =>
      revert hp hne
      cases k.myStatus <;> simp [Point.admits]
  | testPending =>
    simp only [proceed]
    split
    · rfl
    · next hne =>
      revert hp hne
      cases k.myStatus <;> simp [Point.admits, Status.final]
  | enter | coroutine =>
    simp only [proceed]
    split
    · next ha => rw [ha, Point.admits_aborted]
    · rfl
  | enterStore =>
    simp only [proceed, enterStore]
    cases k.kind with
    | task => rfl
    | coroutine =>
      dsimp only
      split <;> rfl
  | yieldTest =>
    simp only [proceed]
    split <;> rfl
  | testYielded =>
    simp only [proceed]
    split
    · next hpend => rw [hpend]; rfl
    · next hne =>
      revert hp hne
      cases k.myStatus <;> simp [Point.admits, Status.final]
  | createStore | coroutineStore | start | yieldStore | resumeStore | finish => rfl

theorem proceed_final (k : Task) (c : Code) (h : (k.proceed c).2.myStatus.final = true) :
    k.myStatus.final = true ∨ (k.proceed c).2.ranToEnd := by
  cases c with
  | create =>
    simp only [proceed, create] at h
    cases hkind : k.kind with
    | task => simp [hkind, store, record, Status.final] at h
    | coroutine => exact .inl (by simpa [hkind] using h)
  | enterStore =>
    simp only [proceed, enterStore] at h
    cases hkind : k.kind <;> simp [hkind, store, record, Status.final] at h
  | finish => exact .inr (by simp [ranToEnd, proceed, store, record])
  | createStore | coroutineStore | yieldStore | resumeStore => cases h
  | _ => exact .inl h

theorem Lawful.proceed (hk : k.Lawful) (hlive : k.deleted = false) (c : Code) :
    (k.proceed c).2.Lawful := by
  have hfinal := k.proceed_final c
  obtain ⟨status, suspended, as, hframe, has⟩ := k.proceed_frame c
  have hnone : as.count .completionHandlers = 0 :=
    List.count_eq_zero.mpr fun hin => absurd (has _ hin) (by decide)
  rw [hframe] at hfinal ⊢
  refine ⟨hk.held, fun h => ?_, fun h => ?_, ?_, fun h => ?_⟩
  · rcases hfinal h with h | h
    · exact (hk.ended h).imp (List.mem_append_left _) (List.mem_append_left _)
    · exact .inl h
  · rw [hlive] at h
    cases h
  · rw [List.count_append, hnone]
    exact hk.once
  · exact (hk.untouched fun ha => h (List.mem_append_left _ ha)).extend rfl has rfl

theorem Lawful.abort (hk : k.Lawful) : k.abort.Lawful where
  held := hk.held
  ended _ := .inr (by simp [everAborted, Task.abort, store, record])
  deleted _ := rfl
  once := by
    simpa [Task.abort, store, record, List.count_append] using hk.once
  untouched h := absurd (by simp [everAborted, Task.abort, store, record]) h

theorem Lawful.cancelled (hk : k.Lawful) (ha : 0 < k.aborting) : k.cancelled.Lawful where
  held := hk.held
  ended h := (hk.ended h).imp (List.mem_append_left _) (List.mem_append_left _)
  deleted := hk.deleted
  once := by
    simpa [Task.cancelled, record, List.count_append] using hk.once
  untouched h := by
    have hzero := (hk.untouched fun hin => h (List.mem_append_left _ hin)).aborting
    omega

theorem Lawful.exit (hk : k.Lawful) (hnone : .completionHandlers ∉ k.log) : k.exit.Lawful where
  held := hk.held
  ended h := (hk.ended h).imp (List.mem_append_left _) (List.mem_append_left _)
  deleted := hk.deleted
  once := by
    simp [Task.exit, record, List.count_append, List.count_eq_zero.mpr hnone]
  untouched h := by
    have hk := hk.untouched fun hin => h (List.mem_append_left _ hin)
    exact ⟨by simpa [Task.exit, record] using hk.stored,
      by simpa [Task.exit, record] using hk.cancelled, hk.aborting⟩

theorem Lawful.destroyed (hk : k.Lawful) (hf : k.myStatus.final = true) :
    Lawful { k with deleted := true } :=
  ⟨hk.held, hk.ended, fun _ => hf, hk.once, fun h =>
    ⟨(hk.untouched h).stored, (hk.untouched h).cancelled, (hk.untouched h).aborting⟩⟩

end Task

namespace Worker
variable {w : Worker}

theorem idle_inHand (h : w.idle = true) (t : Nat) : w.inHand t = false := by
  obtain ⟨c, frame⟩ := w
  cases frame with
  | iteration u p f => cases h
  | _ => rfl

theorem idle_phase (h : w.idle = true) (t : Nat) (k : Task) : w.Phase t k := by
  obtain ⟨c, frame⟩ := w
  cases frame with
  | iteration u p f => cases h
  | _ => trivial

theorem idle_exits (h : w.idle = true) (t : Nat) : w.exits t = false := by
  obtain ⟨c, frame⟩ := w
  cases frame with
  | iteration u p f => cases h
  | _ => rfl

theorem Phase.follows {t : Nat} {k k' : Task} (hp : w.Phase t k) (h : k.follows k') :
    w.Phase t k' := by
  obtain ⟨c, frame⟩ := w
  cases frame with
  | iteration u p f => exact fun hu => h.admits (hp hu)
  | _ => trivial

theorem phase_of_away {t : Nat} (h : w.inHand t = false) (k : Task) : w.Phase t k := by
  obtain ⟨c, frame⟩ := w
  cases frame with
  | iteration u p f =>
    intro hu
    simp only [inHand, hu, decide_true, Bool.true_and] at h
    cases p with
    | recount | deactivate | testPause => rfl
    | _ => cases h
  | _ => trivial

end Worker

namespace Scheduler

def places (s : Scheduler) (t : Nat) : Nat :=
  s.waiting.count t + s.workers.countP (Worker.inHand t)

structure Custody (s : Scheduler) : Prop where
  coherent : s.Coherent
  places : ∀ t, s.places t ≤ if (s.object t).isSome then 1 else 0
  counted : s.myHoldCount = UInt64.ofNat (s.holders + s.tasks.countP Task.holds)
  lawful : ∀ k ∈ s.tasks, k.Lawful
  ready : ∀ t ∈ s.waiting, ∀ k ∈ s.tasks[t]?, k.myStatus.ready = true
  phases : ∀ w ∈ s.workers, ∀ t, ∀ k ∈ s.tasks[t]?, w.Phase t k
  exited : ∀ t, ∀ k ∈ s.tasks[t]?, .completionHandlers ∈ k.log → k.deleted = true ∨ s.exiting t

theorem places_setWorker (s : Scheduler) {i : Nat} {w : Worker} (h : s.workers[i]? = some w)
    (w' : Worker) (t : Nat) :
    (s.setWorker i w').places t + (if w.inHand t then 1 else 0) =
      s.places t + if w'.inHand t then 1 else 0 := by
  have hc := countP_replace (Worker.inHand t) h w'
  simp only [Scheduler.places, waiting, setWorker] at hc ⊢
  omega

theorem object_setTask {s : Scheduler} {t : Nat} {k k' : Task} (h : s.tasks[t]? = some k)
    (hd : k'.deleted = k.deleted) (u : Nat) :
    ((s.setTask t k').object u).isSome = (s.object u).isSome := by
  obtain ⟨hi, rfl⟩ := List.getElem?_eq_some_iff.mp h
  by_cases hu : t = u
  · subst hu
    simp only [object, setTask, List.getElem?_set_self hi, List.getElem?_eq_getElem hi,
      Option.filter_some, hd]
    split <;> rfl
  · simp [object, setTask, List.getElem?_set_ne hu]

theorem in_hand {s : Scheduler} (hs : s.Custody) {i t : Nat} {w : Worker}
    (hw : s.workers[i]? = some w) (hin : w.inHand t = true) :
    s.waiting.count t = 0 ∧ s.workers.countP (Worker.inHand t) ≤ 1 ∧ (s.object t).isSome := by
  have hp := hs.places t
  have hpos : 0 < s.workers.countP (Worker.inHand t) :=
    List.countP_pos_iff.mpr ⟨w, List.mem_of_getElem? hw, hin⟩
  simp only [Scheduler.places] at hp
  split at hp
  · next ho => exact ⟨by omega, by omega, ho⟩
  · omega

theorem free_places {s : Scheduler} (hs : s.Custody) {t : Nat} (hnone : s.object t = none) :
    s.waiting.count t = 0 ∧ s.workers.countP (Worker.inHand t) = 0 := by
  have hplaces := hs.places t
  rw [hnone] at hplaces
  exact Nat.add_eq_zero_iff.mp (Nat.le_zero.mp hplaces)

theorem fresh_places {s : Scheduler} (hs : s.Custody) :
    s.waiting.count s.tasks.length = 0 ∧ s.workers.countP (Worker.inHand s.tasks.length) = 0 :=
  free_places hs (by simp [object])

theorem dead_places {s : Scheduler} (hs : s.Custody) {t : Nat} {k : Task}
    (hk : s.tasks[t]? = some k) (hd : k.deleted = true) :
    s.waiting.count t = 0 ∧ s.workers.countP (Worker.inHand t) = 0 :=
  free_places hs (by simp [object, hk, Option.filter, hd])

theorem waiting_custody {s : Scheduler} (hs : s.Custody) {timers entering arriving queue : List Nat}
    {count : UInt64}
    (h : ∀ t, timers.count t + entering.count t + arriving.count t + queue.count t =
      s.timers.count t + s.entering.count t + s.arriving.count t + s.myTaskQueue.count t) :
    Custody { s with
      timers := timers
      entering := entering
      arriving := arriving
      myTaskQueue := queue
      myTaskCount := count } := by
  have hcount (t : Nat) : List.count t (timers ++ entering ++ arriving ++ queue) =
      s.waiting.count t := by
    simp only [waiting, List.count_append]
    exact h t
  refine ⟨hs.coherent, fun t => ?_, hs.counted, hs.lawful, fun t ht => ?_, hs.phases, hs.exited⟩
  · refine Nat.le_trans (Nat.le_of_eq ?_) (hs.places t)
    exact congrArg (· + _) (hcount t)
  · refine hs.ready t (List.count_pos_iff.mp ?_)
    rw [← hcount t]
    exact List.count_pos_iff.mpr ht

theorem queue_custody {s : Scheduler} (hs : s.Custody) {i : Nat} {w w' : Worker} {queue : List Nat}
    (hw : s.workers[i]? = some w) (hc : w'.Coherent)
    (hq : ∀ t, queue.count t + (if w'.inHand t then 1 else 0) ≤
      s.myTaskQueue.count t + if w.inHand t then 1 else 0)
    (hr : ∀ t ∈ queue, t ∉ s.myTaskQueue → ∀ k ∈ s.tasks[t]?, k.myStatus.ready = true)
    (hp : ∀ t, ∀ k ∈ s.tasks[t]?, w'.Phase t k)
    (hx : ∀ t, w.exits t = true → ∀ k ∈ s.tasks[t]?, k.deleted = true) :
    ({ s with myTaskQueue := queue : Scheduler }.setWorker i w').Custody where
  coherent := setWorker_coherent hs.coherent i hc
  places t := by
    have hr := countP_replace (Worker.inHand t) hw w'
    have hq := hq t
    have hold := hs.places t
    simp only [Scheduler.places, waiting, setWorker, List.count_append] at hr hold ⊢
    exact Nat.le_trans (by omega) hold
  counted := hs.counted
  lawful := hs.lawful
  ready t ht k hk := by
    by_cases hold : t ∈ s.myTaskQueue
    · exact hs.ready t (List.mem_append_right _ hold) k hk
    · simp only [waiting, setWorker, List.mem_append] at ht
      rcases ht with ht | ht
      · exact hs.ready t (by simp only [waiting, List.mem_append]; exact .inl ht) k hk
      · exact hr t ht hold k hk
  phases v hv t k hk := by
    rcases List.mem_or_eq_of_mem_set hv with hv | rfl
    · exact hs.phases v hv t k hk
    · exact hp t k hk
  exited t k hk hin := by
    rcases hs.exited t k hk hin with hd | he
    · exact .inl hd
    · by_cases hwx : w.exits t = true
      · exact .inl (hx t hwx k hk)
      · exact .inr (exists_replace hw hwx he w')

theorem setWorker_custody {s : Scheduler} (hs : s.Custody) {i : Nat} {w w' : Worker}
    (hw : s.workers[i]? = some w) (hc : w'.Coherent)
    (hin : ∀ t, w'.inHand t = true → w.inHand t = true) (hp : ∀ t, ∀ k ∈ s.tasks[t]?, w'.Phase t k)
    (hx : ∀ t, w.exits t = true → ∀ k ∈ s.tasks[t]?, k.deleted = true) :
    (s.setWorker i w').Custody := by
  refine queue_custody hs hw hc (fun t => ?_) (fun t ht hn => absurd ht hn) hp hx
  have hin := hin t
  split
  · next h => rw [if_pos (hin h)]
  · exact Nat.le_add_right _ _

theorem counters_custody {s : Scheduler} (hs : s.Custody) (count active : UInt64)
    (ended : List (Nat × List Fate)) :
    Custody { s with myTaskCount := count, myActiveTaskCount := active, ended := ended } :=
  ⟨hs.coherent, hs.places, hs.counted, hs.lawful, hs.ready, hs.phases, hs.exited⟩

theorem setTask_custody {s : Scheduler} (hs : s.Custody) {t : Nat} {k k' : Task}
    (hk : s.tasks[t]? = some k) (hl : k'.Lawful) (hext : k.follows k') (hheld : k'.held = k.held)
    (hdel : k'.deleted = k.deleted)
    (hnew : .completionHandlers ∈ k'.log → .completionHandlers ∈ k.log) :
    (s.setTask t k').Custody where
  coherent := hs.coherent
  places u := by
    rw [object_setTask hk hdel]
    exact hs.places u
  counted := by
    have hsame : k'.holds = k.holds := by simp only [Task.holds, hheld, hdel]
    simp only [setTask, countP_replace_same hk hsame]
    exact hs.counted
  lawful := forall_replace hs.lawful hl
  ready u hu k'' hk'' := by
    rcases getElem?_replace hk'' with ⟨rfl, rfl⟩ | ⟨-, hk''⟩
    · exact hext.ready (hs.ready t hu k hk)
    · exact hs.ready u hu k'' hk''
  phases w hw u k'' hk'' := by
    rcases getElem?_replace hk'' with ⟨rfl, rfl⟩ | ⟨-, hk''⟩
    · exact (hs.phases w hw t k hk).follows hext
    · exact hs.phases w hw u k'' hk''
  exited u k'' hk'' hin := by
    rcases getElem?_replace hk'' with ⟨rfl, rfl⟩ | ⟨-, hk''⟩
    · rw [hdel]
      exact hs.exited t k hk (hnew hin)
    · exact hs.exited u k'' hk'' hin

theorem sole_holder {s : Scheduler} (hs : s.Custody) {i t : Nat} {w : Worker}
    (hw : s.workers[i]? = some w) (hin : w.inHand t = true) :
    ∀ v ∈ s.workers, v = w ∨ v.inHand t = false := by
  have hself : s.workers.set i w = s.workers := by
    obtain ⟨hi, rfl⟩ := List.getElem?_eq_some_iff.mp hw
    exact List.set_getElem_self hi
  have hothers := replace_others hw hin (in_hand hs hw hin).2.1 w
  rwa [hself] at hothers

theorem exits_inHand {s : Scheduler} (hs : s.Coherent) {w : Worker} (hw : w ∈ s.workers) {t : Nat}
    (h : w.exits t = true) : w.inHand t = true := by
  have hc := hs w hw
  obtain ⟨c, frame⟩ := w
  cases frame with
  | iteration u p f =>
    cases p with
    | delete v =>
      have hvu : v = u := hc.2 v rfl
      simpa [Worker.inHand, Point.inHand, Worker.exits, hvu] using h
    | _ => cases h
  | _ => cases h

section Iteration
variable {s : Scheduler} (hs : s.Custody) {i t : Nat} {cur : Option Nat} {f : List Fate}
include hs

theorem hand_custody {p p' : Point} {k k' : Task} {cur' : Option Nat} {f' : List Fate}
    (hw : s.workers[i]? = some ⟨cur, .iteration t p f⟩) (hin : p.inHand = true)
    (hk : s.object t = some k) (hl : k'.Lawful) (hheld : k'.held = k.held)
    (hdel : k'.deleted = k.deleted) (hc : (Worker.mk cur' (.iteration t p' f')).Coherent)
    (hp : p'.admits k'.myStatus = true) (hx : ∀ u, p ≠ .delete u)
    (hnew : .completionHandlers ∈ k'.log → .completionHandlers ∈ k.log ∨ p' = .delete t) :
    ((s.setTask t k').setWorker i ⟨cur', .iteration t p' f'⟩).Custody := by
  have hkt := (object_some hk).1
  have hi := (List.getElem?_eq_some_iff.mp hw).1
  have hhand : (Worker.mk cur (.iteration t p f)).inHand t = true := by
    simp [Worker.inHand, hin]
  obtain ⟨hwait, hone, -⟩ := in_hand hs hw hhand
  have hothers := replace_others hw hhand hone ⟨cur', .iteration t p' f'⟩
  have hexits (u : Nat) : (Worker.mk cur (.iteration t p f)).exits u ≠ true := by
    cases p with
    | delete v => exact absurd rfl (hx v)
    | _ => exact nofun
  refine ⟨setWorker_coherent hs.coherent i hc, fun u => ?_, ?_, forall_replace hs.lawful hl,
    fun u hu k'' hk'' => ?_, fun v hv u k'' hk'' => ?_, fun u k'' hk'' hlog => ?_⟩
  · have hr := countP_replace (Worker.inHand u) hw ⟨cur', .iteration t p' f'⟩
    have hle : (Worker.mk cur' (.iteration t p' f')).inHand u = true →
        (Worker.mk cur (.iteration t p f)).inHand u = true := by
      simp only [Worker.inHand, hin, Bool.and_true, Bool.and_eq_true]
      exact And.left
    have hobject := object_setTask hkt hdel u
    have hold := hs.places u
    rw [← hobject] at hold
    refine Nat.le_trans ?_ hold
    simp only [Scheduler.places, waiting, setWorker, setTask] at hr ⊢
    split at hr
    · split at hr <;> omega
    · next hn =>
      rw [if_neg fun h => hn (hle h)] at hr
      omega
  · have hsame : k'.holds = k.holds := by simp only [Task.holds, hheld, hdel]
    simp only [setWorker, setTask, countP_replace_same hkt hsame]
    exact hs.counted
  · rcases getElem?_replace hk'' with ⟨rfl, rfl⟩ | ⟨-, hk''⟩
    · exact absurd hu (List.count_eq_zero.mp hwait)
    · exact hs.ready u hu k'' hk''
  · rcases getElem?_replace hk'' with ⟨rfl, rfl⟩ | ⟨hne, hk''⟩
    · rcases hothers v hv with rfl | haway
      · exact fun _ => hp
      · exact Worker.phase_of_away haway _
    · rcases List.mem_or_eq_of_mem_set hv with hv | rfl
      · exact hs.phases v hv u k'' hk''
      · exact fun h => absurd h hne
  · rcases getElem?_replace hk'' with ⟨rfl, rfl⟩ | ⟨-, hk''⟩
    · rcases hnew hlog with hlog | rfl
      · rw [hdel]
        exact (hs.exited t k hkt hlog).imp_right fun he => exists_replace hw (hexits t) he _
      · exact .inr ⟨_, List.mem_set hi _, by simp [Worker.exits]⟩
    · exact (hs.exited u k'' hk'' hlog).imp_right fun he => exists_replace hw (hexits u) he _

theorem run_custody {c : Code} {k : Task}
    (hw : s.workers[i]? = some ⟨some t, .iteration t (.run c) f⟩) (hk : s.object t = some k) :
    ((s.setTask t (k.proceed c).2).setWorker i ⟨some t, .iteration t (k.proceed c).1 f⟩).Custody := by
  have hkt := (object_some hk).1
  have hl := hs.lawful k (List.mem_of_getElem? hkt)
  have hp := hs.phases _ (List.mem_of_getElem? hw) t k hkt rfl
  obtain ⟨status, suspended, as, hframe, has⟩ := k.proceed_frame c
  have hc : (Worker.mk (some t) (.iteration t (k.proceed c).1 f)).Coherent :=
    ⟨fun _ => rfl, fun u hu => absurd hu (k.proceed_keeps c u)⟩
  refine hand_custody hs hw rfl hk (hl.proceed (object_some hk).2 c) (by rw [hframe]) (by rw [hframe]) hc
    (k.proceed_admits hp) nofun fun hlog => .inl ?_
  rw [hframe] at hlog
  rcases List.mem_append.mp hlog with hlog | hlog
  · exact hlog
  · exact absurd (has _ hlog) (by decide)

theorem open_in_hand {p : Point} {k : Task} (hw : s.workers[i]? = some ⟨cur, .iteration t p f⟩)
    (hin : p.inHand = true) (hx : ∀ u, p ≠ .delete u) (hk : s.object t = some k) :
    .completionHandlers ∉ k.log := by
  intro hlog
  obtain ⟨hkt, hlive⟩ := object_some hk
  have hhand : (Worker.mk cur (.iteration t p f)).inHand t = true := by
    simp [Worker.inHand, hin]
  rcases hs.exited t k hkt hlog with hd | ⟨v, hv, hexits⟩
  · rw [hlive] at hd
    cases hd
  · rcases sole_holder hs hw hhand v hv with rfl | haway
    · cases p with
      | delete u => exact hx u rfl
      | _ => cases hexits
    · rw [exits_inHand hs.coherent hv hexits] at haway
      cases haway

theorem exit_custody {k : Task} (hw : s.workers[i]? = some ⟨some t, .iteration t .exit f⟩)
    (hk : s.object t = some k) :
    ((s.setTask t k.exit).setWorker i ⟨none, .iteration t (.delete t) f⟩).Custody := by
  have hkt := (object_some hk).1
  have hl := hs.lawful k (List.mem_of_getElem? hkt)
  have hp : k.myStatus.final = true := hs.phases _ (List.mem_of_getElem? hw) t k hkt rfl
  have hnone := open_in_hand hs hw rfl nofun hk
  have hc : (Worker.mk none (.iteration t (.delete t) f)).Coherent :=
    ⟨nofun, fun u hu => (Point.delete.inj hu).symm⟩
  exact hand_custody hs hw rfl hk (hl.exit hnone) rfl rfl hc hp nofun
    fun _ => .inr rfl

theorem delete_custody {k : Task} (hw : s.workers[i]? = some ⟨cur, .iteration t (.delete t) f⟩)
    (hk : s.object t = some k) :
    ((s.destroy t k).setWorker i ⟨cur, .iteration t .deactivate (f ++ [.destroyed])⟩).Custody := by
  have hkt := (object_some hk).1
  have hi := (List.getElem?_eq_some_iff.mp hkt).1
  have hl := hs.lawful k (List.mem_of_getElem? hkt)
  have he : k.myStatus.final = true := hs.phases _ (List.mem_of_getElem? hw) t k hkt rfl
  have hhand : (Worker.mk cur (.iteration t (.delete t) f)).inHand t = true := by
    simp [Worker.inHand, Point.inHand]
  obtain ⟨hwait, hone, -⟩ := in_hand hs hw hhand
  have hothers := replace_others hw hhand hone ⟨cur, .iteration t .deactivate (f ++ [.destroyed])⟩
  rw [destroy_eq]
  refine ⟨setWorker_coherent hs.coherent i ⟨by rintro ⟨⟩, by simp⟩, fun u => ?_,
    destroy_counted hs.counted hk,
    forall_replace hs.lawful (hl.destroyed he), fun u hu k'' hk'' => ?_, fun v hv u k'' hk'' => ?_,
    fun u k'' hk'' hlog => ?_⟩
  · have hr := countP_replace (Worker.inHand u) hw
      ⟨cur, .iteration t .deactivate (f ++ [.destroyed])⟩
    have haway : (Worker.mk cur (.iteration t .deactivate (f ++ [.destroyed]))).inHand u = false := by
      simp [Worker.inHand, Point.inHand]
    by_cases hu : t = u
    · subst hu
      rw [haway, hhand] at hr
      simp only [Scheduler.places, waiting, setWorker] at hr hwait ⊢
      simp only [Bool.false_eq_true, if_false, if_true] at hr
      omega
    · have hold := hs.places u
      have hsame : (Worker.mk cur (.iteration t (.delete t) f)).inHand u = false := by
        simp [Worker.inHand, hu]
      rw [haway, hsame] at hr
      simp only [Scheduler.places, waiting, setWorker, object, List.getElem?_set_ne hu] at hr hold ⊢
      exact Nat.le_trans (by omega) hold
  · rcases getElem?_replace hk'' with ⟨rfl, rfl⟩ | ⟨-, hk''⟩
    · exact absurd hu (List.count_eq_zero.mp hwait)
    · exact hs.ready u hu k'' hk''
  · rcases getElem?_replace hk'' with ⟨rfl, rfl⟩ | ⟨-, hk''⟩
    · rcases hothers v hv with rfl | haway
      · exact fun _ => rfl
      · exact Worker.phase_of_away haway _
    · rcases List.mem_or_eq_of_mem_set hv with hv | rfl
      · exact hs.phases v hv u k'' hk''
      · exact fun _ => rfl
  · rcases getElem?_replace hk'' with ⟨rfl, rfl⟩ | ⟨hne, hk''⟩
    · exact .inl rfl
    · refine (hs.exited u k'' hk'' hlog).imp_right fun hex => exists_replace hw ?_ hex _
      simpa [Worker.exits] using hne

end Iteration

theorem schedule_waiting (s : Scheduler) (kind : Kind) (hold delayed : Bool) (t : Nat) :
    (s.schedule kind hold delayed).waiting.count t =
      s.waiting.count t + if s.tasks.length = t then 1 else 0 := by
  rw [schedule_eq]
  cases delayed with
  | true =>
    simp only [waiting, if_true, List.append_nil, List.count_append, List.count_singleton,
      beq_iff_eq]
    omega
  | false =>
    simp only [waiting, Bool.false_eq_true, if_false, List.append_nil, List.count_append,
      List.count_singleton, beq_iff_eq]
    omega

theorem schedule_custody {s : Scheduler} (hs : s.Custody) {kind : Kind} {hold : Bool}
    (hkind : kind = .task → hold = true) (delayed : Bool) : (s.schedule kind hold delayed).Custody := by
  have hwait (t : Nat) := s.schedule_waiting kind hold delayed t
  obtain ⟨hout, haway⟩ := fresh_places hs
  have heq := schedule_eq s kind hold delayed
  refine ⟨?_, fun t => ?_, ?_, fun k hk => ?_, fun t ht k hk => ?_, fun w hw t k hk => ?_,
    fun t k hk hlog => ?_⟩
  · rw [heq]
    exact hs.coherent
  · have hworkers : (s.schedule kind hold delayed).workers = s.workers := by rw [heq]
    have hobject : ((s.schedule kind hold delayed).object t).isSome =
        ((s.object t).isSome || decide (s.tasks.length = t)) := by
      rw [heq]
      simp only [object]
      rcases Nat.lt_trichotomy t s.tasks.length with h | h | h
      · rw [List.getElem?_append_left h]
        simp [Nat.ne_of_gt h]
      · subst h
        simp [Task.new, Option.filter]
      · rw [List.getElem?_eq_none (by simp; omega), List.getElem?_eq_none (by omega)]
        simp [Nat.ne_of_lt h]
    have hp := hs.places t
    rw [Scheduler.places, hwait t, hworkers, hobject]
    by_cases ht : s.tasks.length = t
    · subst ht
      simp only [decide_true, Bool.or_true, if_true]
      omega
    · simp only [Scheduler.places] at hp
      simp only [ht, decide_false, Bool.or_false, if_false]
      exact hp
  · rw [heq]
    have hnew : [Task.new kind hold].countP Task.holds = if hold then 1 else 0 := by
      cases hold <;> rfl
    simp only [List.countP_append, hnew]
    cases hold with
    | true => exact ofNat_hold hs.counted
    | false => exact hs.counted
  · rw [heq] at hk
    rcases List.mem_append.mp hk with hk | hk
    · exact hs.lawful k hk
    · rcases List.mem_singleton.mp hk with rfl
      exact ⟨hkind, by rintro ⟨⟩, by rintro ⟨⟩, Nat.zero_le 1,
        fun _ => ⟨by rintro ⟨⟩, by rintro ⟨⟩, rfl⟩⟩
  · rw [heq] at hk
    rcases getElem?_snoc hk with hk | ⟨-, rfl⟩
    · refine hs.ready t (List.count_pos_iff.mp ?_) k hk
      have hpos := List.count_pos_iff.mpr ht
      have hlt := (List.getElem?_eq_some_iff.mp hk).1
      rw [hwait t, if_neg (Nat.ne_of_gt hlt)] at hpos
      exact hpos
    · exact rfl
  · rw [heq] at hw hk
    rcases getElem?_snoc hk with hk | ⟨rfl, rfl⟩
    · exact hs.phases w hw t k hk
    · refine Worker.phase_of_away ?_ _
      simpa using List.countP_eq_zero.mp haway w hw
  · rw [heq] at hk
    rcases getElem?_snoc hk with hk | ⟨-, rfl⟩
    · have hex := hs.exited t k hk hlog
      rwa [heq]
    · cases hlog

theorem pop_custody {s : Scheduler} (hs : s.Custody) {i t : Nat} {cur : Option Nat}
    {queue : List Nat} (hw : s.workers[i]? = some ⟨cur, .pop⟩) (hq : s.myTaskQueue = t :: queue) :
    ({ s with myTaskQueue := queue : Scheduler }.setWorker i
      ⟨cur, .iteration t .activate []⟩).Custody := by
  refine queue_custody hs hw ⟨nofun, nofun⟩ (fun u => ?_) (fun u hu hn => ?_) (fun u k hk => ?_) nofun
  · rw [hq, List.count_cons]
    simp [Worker.inHand, Point.inHand]
  · exact absurd (hq ▸ List.mem_cons_of_mem t hu) hn
  · rintro rfl
    exact hs.ready t (by simp [waiting, hq]) k hk

theorem requeue_custody {s : Scheduler} (hs : s.Custody) {i t : Nat} {f : List Fate}
    (hw : s.workers[i]? = some ⟨some t, .iteration t .push f⟩) :
    ({ s with myTaskQueue := s.myTaskQueue ++ [t] : Scheduler }.setWorker i
      ⟨none, .iteration t .recount (f ++ [.pushedBack])⟩).Custody := by
  refine queue_custody hs hw ⟨nofun, nofun⟩ (fun u => ?_) (fun u hu hn k hk => ?_)
    (fun _ _ _ _ => rfl) nofun
  · rw [count_snoc]
    simp [Worker.inHand, Point.inHand]
  · rcases List.mem_append.mp hu with hu | hu
    · exact absurd hu hn
    · rcases List.mem_singleton.mp hu with rfl
      have hp := hs.phases _ (List.mem_of_getElem? hw) u k hk rfl
      exact Point.push_ready hp

theorem moves_custody {s s' : Scheduler} {l : Label} (hs : s.Custody) (h : s.Moves l s') :
    s'.Custody := by
  cases h with
  | schedule hl =>
    refine schedule_custody hs ?_ _
    cases l with
    | scheduleTask => cases hl; exact fun _ => rfl
    | scheduleCoroutine =>
      cases hl
      simp
    | _ => cases hl
  | fire ht | count ht | push ht =>
    apply waiting_custody hs
    intro x
    have hc := count_erase_add ht x
    rw [count_snoc]
    omega
  | abort hk =>
    obtain ⟨hkt, -⟩ := object_some hk
    have hl := hs.lawful _ (List.mem_of_getElem? hkt)
    apply setTask_custody hs hkt hl.abort (.inr rfl) rfl rfl
    intro hlog
    simpa [Task.abort, Task.store, Task.record] using hlog
  | cancel hk ha =>
    obtain ⟨hkt, -⟩ := object_some hk
    have hl := hs.lawful _ (List.mem_of_getElem? hkt)
    apply setTask_custody hs hkt (hl.cancelled ha) (.inl rfl) rfl rfl
    intro hlog
    simpa [Task.cancelled, Task.record] using hlog
  | hold =>
    refine ⟨hs.coherent, hs.places, ?_, hs.lawful, hs.ready, hs.phases, hs.exited⟩
    rw [Nat.add_right_comm]
    exact ofNat_hold hs.counted
  | release hh =>
    refine ⟨hs.coherent, hs.places, ofNat_release ?_, hs.lawful, hs.ready, hs.phases, hs.exited⟩
    rw [Nat.add_right_comm, Nat.sub_add_cancel hh]
    exact hs.counted
  | addThread =>
    refine ⟨?_, fun t => ?_, hs.counted, hs.lawful, hs.ready, ?_, fun t k hk hlog => ?_⟩
    · exact forall_snoc hs.coherent trivial
    · refine Nat.le_trans (Nat.le_of_eq ?_) (hs.places t)
      simp only [Scheduler.places, List.countP_append]
      rfl
    · refine forall_snoc hs.phases ?_
      exact fun t k hk => trivial
    · apply (hs.exited t k hk hlog).imp_right
      rintro ⟨w, hw, hx⟩
      exact ⟨w, List.mem_append_left _ hw, hx⟩
  | pause | resume => exact ⟨hs.coherent, hs.places, hs.counted, hs.lawful, hs.ready, hs.phases, hs.exited⟩
  | stay => exact hs
  | idle hl hw hi hi' =>
    refine setWorker_custody hs hw (Worker.idle_coherent hi') (fun t ht => ?_)
      (fun t k _ => Worker.idle_phase hi' t k) fun t ht => ?_
    · rw [Worker.idle_inHand hi'] at ht
      cases ht
    · rw [Worker.idle_exits hi] at ht
      cases ht
  | pop hw hq => exact pop_custody hs hw hq
  | activate hw | discount hw =>
    have hp := hs.phases _ (List.mem_of_getElem? hw)
    exact setWorker_custody (counters_custody hs _ _ _) hw ⟨by rintro ⟨⟩, by simp⟩
      (fun _ ht => ht) hp (by rintro _ ⟨⟩)
  | reset hw =>
    have hp := hs.phases _ (List.mem_of_getElem? hw)
    exact setWorker_custody hs hw ⟨fun _ => rfl, by simp⟩ (fun _ ht => ht) hp
      (by rintro _ ⟨⟩)
  | run hw hk => exact run_custody hs hw hk
  | requeue hw => exact requeue_custody hs hw
  | exit hw hk => exact exit_custody hs hw hk
  | delete hw hk => exact delete_custody hs hw hk
  | recount hw | deactivate hw =>
    exact setWorker_custody (counters_custody hs _ _ _) hw ⟨by rintro ⟨⟩, by simp⟩ (fun _ ht => ht)
      (fun _ _ _ _ => rfl) (by rintro _ ⟨⟩)
  | finish hw hi =>
    refine setWorker_custody (counters_custody hs _ _ _) hw (Worker.idle_coherent hi) (fun t ht => ?_)
      (fun t k _ => Worker.idle_phase hi t k) (by rintro _ ⟨⟩)
    rw [Worker.idle_inHand hi] at ht
    cases ht
  | handled hl hc hw =>
    refine setWorker_custody hs hw ⟨fun _ => rfl, by simp⟩ (fun _ ht => ht)
      (fun t k hk => ?_) (by rintro _ ⟨⟩)
    rcases hc with ⟨rfl, -⟩ | rfl <;> exact fun _ => rfl

theorem custody_step (s : Scheduler) (l : Label) (s' : Scheduler) (hs : s.Custody)
    (h : pools.step s l = some s') : s'.Custody := moves_custody hs (step_moves hs.coherent h)

theorem start_custody (myMaxThreads : Nat) : (start myMaxThreads).Custody := by
  refine ⟨start_coherent myMaxThreads, fun t => Nat.zero_le _, rfl, nofun, nofun, ?_, nofun⟩
  intro w hw t k hk
  cases hk

end Scheduler
end NexusRuntime.Tasks
