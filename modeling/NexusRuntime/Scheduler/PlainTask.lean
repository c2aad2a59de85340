import NexusRuntime.Scheduler.Events

namespace NexusRuntime.Tasks

open Transition Sequence

def Point.plain : Point → Bool
  | .push | .run .yieldTest | .run .yieldStore => false
  | _ => true

def Worker.plain (t : Nat) (w : Worker) : Bool :=
  match w.frame with
  | .iteration u p _ => decide (u ≠ t) || p.plain
  | _ => true

-- between the pop of a task and the store of FINISHED
def Point.calling : Point → Bool
  | .activate | .discount | .reset | .handler => true
  | .run c => decide (c ≠ .testYielded)
  | _ => false

def Worker.calling (t : Nat) (w : Worker) : Bool :=
  match w.frame with
  | .iteration u p _ => decide (u = t) && p.calling
  | _ => false

def Code.logs : Code → Option Action
  | .start => some .start
  | .finish => some (.store .finished)
  | _ => none

theorem Code.logs_inj {a : Action} (c : Code) {c' : Code} (h : c.logs = some a)
    (h' : c'.logs = some a) : c = c' := by
  cases c with
  | start =>
    cases h
    cases c' <;> first | rfl | cases h'
  | finish =>
    cases h
    cases c' <;> first | rfl | cases h'
  | _ => cases h

theorem Worker.plain_of_point {t u : Nat} {c : Option Nat} {p : Point} {f : List Fate}
    (h : u = t → p.plain = true) : (Worker.mk c (.iteration u p f)).plain t = true := by
  by_cases hu : u = t
  · simp [Worker.plain, h hu]
  · simp [Worker.plain, hu]

theorem Worker.point_of_plain {t : Nat} {c : Option Nat} {p : Point} {f : List Fate}
    (h : (Worker.mk c (.iteration t p f)).plain t = true) : p.plain = true := by
  simpa [Worker.plain] using h

theorem Worker.idle_plain {w : Worker} (h : w.idle = true) (t : Nat) : w.plain t = true := by
  obtain ⟨c, frame⟩ := w
  cases frame with
  | iteration u p f => cases h
  | _ => rfl

theorem Worker.plain_of_away {w : Worker} {t : Nat} (h : w.inHand t = false) : w.plain t = true := by
  obtain ⟨c, frame⟩ := w
  cases frame with
  | iteration u p f =>
    apply plain_of_point
    intro hu
    cases p with
    | recount | deactivate | testPause => rfl
    | _ => simp [Worker.inHand, Point.inHand, hu] at h
  | _ => rfl

namespace Task

structure Ordinary (k : Task) : Prop where
  kind : k.kind = .task
  unaborted : ¬ k.everAborted
  pending : k.myStatus ≠ .pending
  aborted : k.myStatus ≠ .aborted

variable {k : Task}

theorem Ordinary.new (hold : Bool) : (new .task hold).Ordinary := ⟨rfl, nofun, nofun, nofun⟩

theorem Ordinary.proceed (hk : k.Ordinary) {c : Code} (hc : (Point.run c).plain = true) :
    (k.proceed c).2.Ordinary ∧ (k.proceed c).1.plain = true := by
  have hstored {status : Status} (hp : status ≠ .pending) (ha : status ≠ .aborted) :
      (k.store status).Ordinary := by
    refine ⟨hk.kind, fun h => ?_, hp, ha⟩
    rcases List.mem_append.mp h with h | h
    · exact hk.unaborted h
    · exact ha (Action.store.inj (List.mem_singleton.mp h)).symm
  have hsame {p q : Point} {b : Prop} [Decidable b] (hp : p.plain = true) (hq : q.plain = true) :
      k.Ordinary ∧ (if b then p else q).plain = true := by
    split
    · exact ⟨hk, hp⟩
    · exact ⟨hk, hq⟩
  cases c with
  | testAborted | testInactive | testCreated | testPending | enter | coroutine => exact hsame rfl rfl
  | create =>
    simp only [Task.proceed, create, hk.kind]
    exact ⟨hstored (by simp) (by simp), rfl⟩
  | enterStore =>
    simp only [Task.proceed, enterStore, hk.kind]
    exact ⟨hstored (by simp) (by simp), rfl⟩
  | createStore | coroutineStore | finish => exact ⟨hstored (by simp) (by simp), rfl⟩
  | resumeStore =>
    have h : (k.store .active).Ordinary := hstored (by simp) (by simp)
    exact ⟨⟨h.kind, h.unaborted, h.pending, h.aborted⟩, rfl⟩
  | start =>
    refine ⟨⟨hk.kind, fun h => ?_, hk.pending, hk.aborted⟩, rfl⟩
    rcases List.mem_append.mp h with h | h
    · exact hk.unaborted h
    · cases List.mem_singleton.mp h
  | testYielded =>
    simp only [Task.proceed, if_neg hk.pending]
    exact ⟨hk, rfl⟩
  | yieldTest | yieldStore => cases hc

theorem Ordinary.exit (hk : k.Ordinary) : k.exit.Ordinary := by
  refine ⟨hk.kind, fun h => ?_, hk.pending, hk.aborted⟩
  rcases List.mem_append.mp h with h | h
  · exact hk.unaborted h
  · cases List.mem_singleton.mp h

theorem Ordinary.cancelled (hk : k.Ordinary) : k.cancelled.Ordinary := by
  refine ⟨hk.kind, fun h => ?_, hk.pending, hk.aborted⟩
  rcases List.mem_append.mp h with h | h
  · exact hk.unaborted h
  · cases List.mem_singleton.mp h

theorem proceed_logs (k : Task) {c c' : Code} {a : Action} (ha : c'.logs = some a)
    (h : a ∈ (k.proceed c).2.log) : a ∈ k.log ∨ c = c' := by
  have hstored {status : Status} (hne : status ≠ .finished) (h : a ∈ k.log ++ [.store status]) :
      a ∈ k.log := by
    rcases List.mem_append.mp h with h | h
    · exact h
    · cases List.mem_singleton.mp h
      cases c' with
      | finish =>
        cases ha
        exact absurd rfl hne
      | _ => cases ha
  have hcode {c : Code} {b : Action} (hc : c.logs = some b) (h : a ∈ k.log ++ [b]) :
      a ∈ k.log ∨ c = c' := by
    apply (List.mem_append.mp h).imp_right
    intro h
    cases List.mem_singleton.mp h
    exact c.logs_inj hc ha
  cases c with
  | start | finish => exact hcode rfl h
  | create =>
    simp only [Task.proceed, create] at h
    split at h
    · exact .inl (hstored (by decide) h)
    · exact .inl h
  | enterStore =>
    simp only [Task.proceed, enterStore] at h
    split at h <;> exact .inl (hstored (by decide) h)
  | createStore | coroutineStore | yieldStore | resumeStore => exact .inl (hstored (by decide) h)
  | _ => exact .inl h

end Task

namespace Scheduler

theorem calling_point {t u : Nat} {c : Option Nat} {p : Point} {f : List Fate}
    (h : u = t → p.calling = false) : (Worker.mk c (.iteration u p f)).calling t = false := by
  by_cases hu : u = t
  · simp [Worker.calling, h hu]
  · simp [Worker.calling, hu]

theorem idle_calling {w : Worker} (h : w.idle = true) (t : Nat) : w.calling t = false := by
  obtain ⟨c, frame⟩ := w
  cases frame with
  | iteration u p f => cases h
  | _ => rfl

theorem calling_inHand {w : Worker} {t : Nat} (h : w.calling t = true) : w.inHand t = true := by
  obtain ⟨c, frame⟩ := w
  cases frame with
  | iteration u p f =>
    simp only [Worker.calling, Bool.and_eq_true] at h
    cases p with
    | push | recount | exit | delete | deactivate | testPause => cases h.2
    | _ => simpa [Worker.inHand, Point.inHand] using h.1
  | _ => cases h

-- once FINISHED is stored, no thread is still to call the handler
def Returned (s : Scheduler) (t : Nat) : Prop :=
  t ∉ s.waiting ∧ ∀ w ∈ s.workers, w.calling t = false

-- a task of scheduleTask that nobody aborts: it never goes back into the queue
structure Plain (s : Scheduler) (t : Nat) (k : Task) : Prop where
  ordinary : k.Ordinary
  workers : ∀ w ∈ s.workers, w.plain t = true
  placed : k.deleted = false → 0 < s.places t
  returned : k.ranToEnd → s.Returned t

theorem queue_places {s : Scheduler} {i : Nat} {w w' : Worker} (hw : s.workers[i]? = some w)
    {queue : List Nat} {t : Nat}
    (h : s.myTaskQueue.count t + (if w.inHand t then 1 else 0) ≤
      queue.count t + if w'.inHand t then 1 else 0) :
    s.places t ≤ ({ s with myTaskQueue := queue : Scheduler }.setWorker i w').places t := by
  have hc := countP_replace (Worker.inHand t) hw w'
  simp only [Scheduler.places, waiting, setWorker, List.count_append] at hc ⊢
  omega

theorem worker_places {s : Scheduler} {i : Nat} {w w' : Worker} (hw : s.workers[i]? = some w)
    {t : Nat} (h : w.inHand t = true → w'.inHand t = true) :
    s.places t ≤ (s.setWorker i w').places t := by
  have hc := s.places_setWorker hw w' t
  cases hin : w.inHand t with
  | false =>
    simp only [hin, Bool.false_eq_true, if_false] at hc
    omega
  | true =>
    simp only [hin, h hin, if_true] at hc
    omega

theorem moves_places {s s' : Scheduler} {l : Label} (h : s.Moves l s') {t : Nat} {k : Task}
    (hk : s.tasks[t]? = some k) (ha : k.myStatus ≠ .aborted) :
    s.places t ≤ s'.places t ∨ ∀ k' ∈ s'.tasks[t]?, k'.deleted = true := by
  cases h with
  | @schedule l kind hold delayed hl =>
    have hworkers : (s.schedule kind hold delayed).workers = s.workers := by rw [schedule_eq]
    refine .inl ?_
    simp only [Scheduler.places, schedule_waiting, hworkers]
    omega
  | fire ht | count ht | push ht =>
    have hc := count_erase_add ht t
    refine .inl ?_
    simp only [Scheduler.places, waiting, List.count_append, List.count_singleton, beq_iff_eq]
    omega
  | addThread =>
    refine .inl ?_
    simp only [Scheduler.places, List.countP_append]
    exact Nat.add_le_add_left (Nat.le_add_right _ _) _
  | idle hl hw hi =>
    refine .inl (worker_places hw fun h => ?_)
    rw [Worker.idle_inHand hi] at h
    cases h
  | pop hw hq =>
    refine .inl (queue_places hw ?_)
    rw [hq, List.count_cons]
    simp [Worker.inHand, Point.inHand]
  | activate hw | discount hw | reset hw | handled _ _ hw => exact .inl (worker_places hw fun h => h)
  | @run i u c f k₁ hw hu =>
    refine .inl (worker_places hw fun h => ?_)
    have hut : u = t := by simpa [Worker.inHand, Point.inHand] using h
    subst hut
    cases hk.symm.trans (object_some hu).1
    rcases k.proceed_point c with hcur | ⟨-, haborted, -⟩
    · simp [Worker.inHand, current_inHand hcur]
    · exact absurd haborted ha
  | requeue hw =>
    refine .inl (queue_places hw ?_)
    rw [count_snoc]
    simp [Worker.inHand, Point.inHand]
  | recount hw | deactivate hw =>
    refine .inl (worker_places hw fun h => ?_)
    simp [Worker.inHand, Point.inHand] at h
  | exit hw =>
    refine .inl (worker_places hw fun h => ?_)
    simpa [Worker.inHand, Point.inHand] using h
  | @delete i cur u f k₁ hw hu =>
    by_cases hut : u = t
    · subst hut
      refine .inr fun k' hk' => ?_
      rw [destroy_eq] at hk'
      have hlt := (List.getElem?_eq_some_iff.mp hk).1
      simp only [setWorker, List.getElem?_set_self hlt, Option.mem_def, Option.some.injEq] at hk'
      rw [← hk']
    · refine .inl ?_
      rw [destroy_eq]
      apply worker_places hw
      intro h
      simp [Worker.inHand, hut] at h
  | finish hw =>
    refine .inl (worker_places hw fun h => ?_)
    simp [Worker.inHand, Point.inHand] at h
  | _ => exact .inl (Nat.le_refl _)

theorem schedule_plain {s : Scheduler} (hs : s.Custody) :
    (s.schedule .task true false).Plain s.tasks.length (.new .task true) := by
  refine ⟨.new true, fun w hw => ?_, fun _ => ?_, by rintro ⟨⟩⟩
  · rw [schedule_eq] at hw
    apply Worker.plain_of_away
    simpa using List.countP_eq_zero.mp (fresh_places hs).2 w hw
  · simp only [Scheduler.places, schedule_waiting, if_true]
    omega

theorem touches_ordinary {s : Scheduler} {l : Label} {t : Nat} {k k' : Task}
    (h : s.Touches l t k k') (hl : l ≠ .abort t) (ho : k.Ordinary)
    (hp : ∀ w ∈ s.workers, w.plain t = true) : k'.Ordinary := by
  cases h with
  | same => exact ho
  | abort habort => exact absurd habort hl
  | cancel => exact ho.cancelled
  | run hthread hw =>
    exact (ho.proceed (Worker.point_of_plain (hp _ (List.mem_of_getElem? hw)))).1
  | exit => exact ho.exit
  | delete => exact ⟨ho.kind, ho.unaborted, ho.pending, ho.aborted⟩

theorem moves_workers {s s' : Scheduler} {l : Label} (h : s.Moves l s') {t : Nat} {k : Task}
    (hk : s.tasks[t]? = some k) (ho : k.Ordinary) (hp : ∀ w ∈ s.workers, w.plain t = true) :
    ∀ w ∈ s'.workers, w.plain t = true := by
  cases h with
  | schedule =>
    rw [schedule_eq]
    exact hp
  | addThread => exact forall_snoc hp rfl
  | idle hl hw hi hi' => exact forall_replace hp (Worker.idle_plain hi' t)
  | finish hw hi => exact forall_replace hp (Worker.idle_plain hi t)
  | @run i u c f k₁ hw hu =>
    refine forall_replace hp (Worker.plain_of_point fun hut => ?_)
    subst hut
    cases hk.symm.trans (object_some hu).1
    exact (ho.proceed (Worker.point_of_plain (hp _ (List.mem_of_getElem? hw)))).2
  | delete =>
    rw [setWorker, destroy_workers]
    exact forall_replace hp (Worker.plain_of_point fun _ => rfl)
  | @handled l i u f c hl hc hw =>
    refine forall_replace hp (Worker.plain_of_point fun hut => ?_)
    subst hut
    rcases hc with ⟨-, k₁, hk₁, hkind⟩ | rfl
    · cases hk.symm.trans (object_some hk₁).1
      rw [ho.kind] at hkind
      cases hkind
    · rfl
  | pop | activate | discount | reset | requeue | recount | exit | deactivate =>
    exact forall_replace hp (Worker.plain_of_point fun _ => rfl)
  | _ => exact hp

theorem moves_deleted {s s' : Scheduler} {l : Label} (h : s.Moves l s') {t : Nat} {k : Task}
    (hk : s.tasks[t]? = some k) (hd : k.deleted = true) : ∀ k' ∈ s'.tasks[t]?, k'.deleted = true := by
  intro k' hk'
  have hgone : s.object t ≠ some k := by
    intro hu
    have hlive := (object_some hu).2
    rw [hd] at hlive
    cases hlive
  cases touched h hk hk' with
  | same => exact hd
  | abort _ hu | cancel _ hu | run _ _ hu | exit _ _ hu | delete _ _ hu => exact absurd hu hgone

theorem moves_logs {s s' : Scheduler} {l : Label} (h : s.Moves l s') {t : Nat} {k k' : Task}
    (hk : s.tasks[t]? = some k) (hk' : s'.tasks[t]? = some k') {c : Code} {a : Action}
    (ha : c.logs = some a) (hlog : a ∈ k'.log) :
    a ∈ k.log ∨ ∃ i f, l = .thread i ∧ s.workers[i]? = some ⟨some t, .iteration t (.run c) f⟩ := by
  have hother {b : Action} (hb : ∀ c : Code, c.logs ≠ some b) (h : a ∈ k.log ++ [b]) : a ∈ k.log := by
    rcases List.mem_append.mp h with h | h
    · exact h
    · cases List.mem_singleton.mp h
      exact absurd ha (hb c)
  cases touched h hk hk' with
  | same | delete => exact .inl hlog
  | abort | cancel | exit => exact .inl (hother (fun c => by cases c <;> decide) hlog)
  | @run i c₁ f hl hw =>
    apply (k.proceed_logs ha hlog).imp_right
    intro hc
    subst hc
    exact ⟨i, f, hl, hw⟩

theorem moves_waiting {s s' : Scheduler} {l : Label} (h : s.Moves l s') {t : Nat} {k : Task}
    (hk : s.tasks[t]? = some k) (hp : ∀ w ∈ s.workers, w.plain t = true) (hw : t ∈ s'.waiting) :
    t ∈ s.waiting := by
  have hcount (hc : s'.waiting.count t = s.waiting.count t) : t ∈ s.waiting := by
    rwa [← List.count_pos_iff, ← hc, List.count_pos_iff]
  cases h with
  | schedule =>
    apply hcount
    rw [schedule_waiting, if_neg (Nat.ne_of_gt (List.getElem?_eq_some_iff.mp hk).1), Nat.add_zero]
  | fire ht | count ht | push ht =>
    have hc := count_erase_add ht t
    apply hcount
    simp only [waiting, List.count_append, List.count_singleton, beq_iff_eq]
    omega
  | pop hi hq =>
    simp only [waiting, setWorker, List.mem_append, hq, List.mem_cons] at hw ⊢
    exact hw.imp_right .inr
  | requeue hi =>
    simp only [waiting, setWorker, List.mem_append, List.mem_singleton] at hw ⊢
    rcases hw with hw | hw | rfl
    · exact .inl hw
    · exact .inr hw
    · cases Worker.point_of_plain (hp _ (List.mem_of_getElem? hi))
  | delete =>
    rw [destroy_eq] at hw
    exact hw
  | _ => exact hw

theorem moves_returned {s s' : Scheduler} {l : Label} (h : s.Moves l s') {t : Nat} {k : Task}
    (hk : s.tasks[t]? = some k) (hp : s.Plain t k) (hr : s.Returned t) : s'.Returned t := by
  refine ⟨fun hw => hr.1 (moves_waiting h hk hp.workers hw), ?_⟩
  have hpoint {i : Nat} {c : Option Nat} {u : Nat} {p : Point} {f : List Fate}
      (hw : s.workers[i]? = some ⟨c, .iteration u p f⟩) (hu : u = t) : p.calling = false := by
    have h := hr.2 _ (List.mem_of_getElem? hw)
    simpa [Worker.calling, hu] using h
  cases h with
  | schedule =>
    rw [schedule_eq]
    exact hr.2
  | addThread => exact forall_snoc hr.2 rfl
  | idle hl hw hi hi' => exact forall_replace hr.2 (idle_calling hi' t)
  | finish hw hi => exact forall_replace hr.2 (idle_calling hi t)
  | pop hw hq =>
    refine forall_replace hr.2 (calling_point ?_)
    rintro rfl
    exact absurd (List.mem_append_right _ (hq ▸ List.mem_cons_self ..)) hr.1
  | activate hw | discount hw | reset hw =>
    exact forall_replace hr.2 (calling_point fun hu => by cases hpoint hw hu)
  | @run i u c f k₁ hw hu =>
    refine forall_replace hr.2 (calling_point fun hut => ?_)
    subst hut
    have hc : c = .testYielded := by simpa [Point.calling] using hpoint hw rfl
    cases hk.symm.trans (object_some hu).1
    simp [hc, Task.proceed, hp.ordinary.pending, Point.calling]
  | handled hl hc hw => exact forall_replace hr.2 (calling_point fun hu => by cases hpoint hw hu)
  | delete =>
    rw [setWorker, destroy_workers]
    exact forall_replace hr.2 (calling_point fun _ => rfl)
  | exit | requeue | recount | deactivate => exact forall_replace hr.2 (calling_point fun _ => rfl)
  | _ => exact hr.2

theorem run_of_moves {s s' : Scheduler} {i t : Nat} {c : Code} {f : List Fate}
    (hw : s.workers[i]? = some ⟨some t, .iteration t (.run c) f⟩) (h : s.Moves (.thread i) s') :
    ∃ k, s.object t = some k ∧ s' = (s.setTask t (k.proceed c).2).setWorker i
      ⟨some t, .iteration t (k.proceed c).1 f⟩ := by
  cases h with
  | schedule hl => cases hl
  | run hw' hk =>
    cases hw.symm.trans hw'
    exact ⟨_, hk, rfl⟩
  | idle hl hw' hi =>
    cases hl
    cases hw.symm.trans hw'
    cases hi
  | handled hl _ hw' =>
    cases hl
    cases hw.symm.trans hw'
  | finish hw' | pop hw' | activate hw' | discount hw' | reset hw' | requeue hw'
  | recount hw' | exit hw' | delete hw' | deactivate hw' => cases hw.symm.trans hw'

theorem finish_returned {s s' : Scheduler} (hs : s.Custody) {i t : Nat} {f : List Fate} {k : Task}
    (hw : s.workers[i]? = some ⟨some t, .iteration t (.run .finish) f⟩)
    (h : s.Moves (.thread i) s') (hk : s.tasks[t]? = some k) (hp : s.Plain t k) : s'.Returned t := by
  have hin : (Worker.mk (some t) (.iteration t (.run .finish) f)).inHand t = true := by
    simp [Worker.inHand, Point.inHand]
  obtain ⟨hout, hone, -⟩ := in_hand hs hw hin
  refine ⟨fun hwait => List.count_eq_zero.mp hout (moves_waiting h hk hp.workers hwait), ?_⟩
  obtain ⟨k₁, -, rfl⟩ := run_of_moves hw h
  intro w hw₁
  rcases replace_others hw hin hone _ w hw₁ with rfl | haway
  · exact calling_point fun _ => rfl
  · cases hc : w.calling t with
    | false => rfl
    | true =>
      rw [calling_inHand hc] at haway
      cases haway

theorem start_logged {s s' : Scheduler} {i t : Nat} {f : List Fate}
    (hw : s.workers[i]? = some ⟨some t, .iteration t (.run .start) f⟩)
    (h : s.Moves (.thread i) s') : ∃ k ∈ s'.tasks[t]?, .start ∈ k.log := by
  obtain ⟨k, hk, rfl⟩ := run_of_moves hw h
  refine ⟨_, List.getElem?_set_self (List.getElem?_eq_some_iff.mp (object_some hk).1).1, ?_⟩
  exact List.mem_append_right _ (List.mem_singleton_self _)

theorem moves_plain {s s' : Scheduler} {l : Label} (hs : s.Custody) (h : s.Moves l s') {t : Nat} {k : Task}
    (hk : s.tasks[t]? = some k) (hl : l ≠ .abort t) (hp : s.Plain t k) :
    ∀ k' ∈ s'.tasks[t]?, s'.Plain t k' := by
  intro k' hk'
  refine ⟨touches_ordinary (touched h hk hk') hl hp.ordinary hp.workers,
    moves_workers h hk hp.ordinary hp.workers, fun hlive => ?_, fun hran => ?_⟩
  · rcases moves_places h hk hp.ordinary.aborted with hplaces | hdeleted
    · refine Nat.lt_of_lt_of_le (hp.placed ?_) hplaces
      cases hd : k.deleted with
      | false => rfl
      | true =>
        rw [moves_deleted h hk hd k' hk'] at hlive
        cases hlive
    · rw [hdeleted k' hk'] at hlive
      cases hlive
  · rcases moves_logs h hk hk' (c := .finish) rfl hran with hran | ⟨i, f, rfl, hw⟩
    · exact moves_returned h hk hp (hp.returned hran)
    · exact finish_returned hs hw h hk hp

theorem called_of_hand {s : Scheduler} (hs : s.Custody) {t : Nat} {k : Task}
    (hk : s.tasks[t]? = some k) (hp : s.Plain t k) {w : Worker} (hw : w ∈ s.workers)
    (hin : w.inHand t = true) (hc : w.calling t = false) : k.ranToEnd := by
  have hphase := hs.phases w hw t k hk
  have hplain := hp.workers w hw
  have hl := hs.lawful k (List.mem_of_getElem? hk)
  obtain ⟨c, frame⟩ := w
  cases frame with
  | iteration u p f =>
    have hut : u = t := by
      simp only [Worker.inHand, Bool.and_eq_true, decide_eq_true_eq] at hin
      exact hin.1
    subst hut
    have hadmits := hphase rfl
    have hfinal : k.myStatus.final = true := by
      cases p with
      | exit | delete => exact hadmits
      | run c =>
        have hcode : c = .testYielded := by simpa [Worker.calling, Point.calling] using hc
        subst hcode
        simpa [Point.admits, hp.ordinary.pending] using hadmits
      | push => cases Worker.point_of_plain hplain
      | activate | discount | reset | handler => simp [Worker.calling, Point.calling] at hc
      | recount | deactivate | testPause => simp [Worker.inHand, Point.inHand] at hin
    exact (hl.ended hfinal).resolve_right hp.ordinary.unaborted
  | _ => cases hin

theorem plain_called {s : Scheduler} (hs : s.Custody) {t : Nat} {k : Task}
    (hk : s.tasks[t]? = some k) (hp : s.Plain t k) (hw : t ∉ s.waiting) :
    k.ranToEnd ∨ ∃ w ∈ s.workers, w.calling t = true := by
  cases hd : k.deleted with
  | true =>
    have hl := hs.lawful k (List.mem_of_getElem? hk)
    exact .inl ((hl.ended (hl.deleted hd)).resolve_right hp.ordinary.unaborted)
  | false =>
    have hpos := hp.placed hd
    rw [Scheduler.places, List.count_eq_zero.mpr hw, Nat.zero_add] at hpos
    obtain ⟨w, hw, hin⟩ := List.countP_pos_iff.mp hpos
    cases hc : w.calling t with
    | false => exact .inl (called_of_hand hs hk hp hw hin hc)
    | true => exact .inr ⟨w, hw, hc⟩

end Scheduler

end NexusRuntime.Tasks
