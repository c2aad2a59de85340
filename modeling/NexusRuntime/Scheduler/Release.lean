import NexusRuntime.Scheduler.Moves

namespace NexusRuntime.Tasks

open Transition Sequence

def disposed (f : List Fate) : Prop := f = [.pushedBack] ∨ f = [.destroyed]

def destroyedIn (t : Nat) (e : Nat × List Fate) : Bool := e.1 = t ∧ .destroyed ∈ e.2

def Point.Settled (f : List Fate) : Point → Prop
  | .recount => f = [.pushedBack]
  | .deactivate | .testPause => disposed f
  | _ => f = []

namespace Worker

def closing (w : Worker) : Option (List Fate) :=
  match w.frame with
  | .iteration _ .deactivate f | .iteration _ .testPause f => some f
  | _ => none

def Settled (w : Worker) : Prop :=
  match w.frame with
  | .iteration _ p f => p.Settled f
  | _ => True

def destroying (t : Nat) (w : Worker) : Bool :=
  match w.frame with
  | .iteration u _ f => destroyedIn t (u, f)
  | _ => false

def accounts (t : Nat) (w : Worker) : Bool :=
  match w.frame with
  | .iteration u p f => (decide (u = t) && p.inHand) || destroyedIn t (u, f)
  | _ => false

end Worker

theorem Worker.destroying_accounts {t : Nat} {w : Worker} (h : w.destroying t = true) :
    w.accounts t = true := by
  obtain ⟨c, frame⟩ := w
  cases frame with
  | iteration u p f =>
    simp only [accounts, Bool.or_eq_true]
    exact .inr h
  | _ => cases h

namespace Worker
variable {w : Worker} (h : w.idle = true)
include h

theorem idle_settled : w.Settled := by
  obtain ⟨c, frame⟩ := w
  cases frame with
  | iteration t p f => cases h
  | _ => trivial

theorem idle_accounts (t : Nat) : w.accounts t = false := by
  obtain ⟨c, frame⟩ := w
  cases frame with
  | iteration u p f => cases h
  | _ => rfl

theorem idle_destroying (t : Nat) : w.destroying t = false := by
  obtain ⟨c, frame⟩ := w
  cases frame with
  | iteration u p f => cases h
  | _ => rfl

end Worker

namespace Scheduler

def quiescent (s : Scheduler) : Prop :=
  s.myTaskQueue = [] ∧ s.timers = [] ∧ s.entering = [] ∧ s.arriving = [] ∧
    ∀ w ∈ s.workers, w.idle = true

structure Released (s : Scheduler) : Prop where
  closing : ∀ w ∈ s.workers, ∀ f ∈ w.closing, disposed f
  ended : ∀ e ∈ s.ended, disposed e.2
  once : ∀ t, s.ended.countP (destroyedIn t) ≤ 1
  released : ∀ e ∈ s.ended, .destroyed ∈ e.2 → ∀ k ∈ s.tasks[e.1]?, k.holds = false
  counted : s.myHoldCount = UInt64.ofNat (s.holders + s.tasks.countP Task.holds)
  quiet : s.quiescent → s.myHoldCount = UInt64.ofNat s.holders
  leaves : s.quiescent → s.holders = 0 → ∀ i w, w.frame = .joinPool →
    s.thread i w = some (s.setWorker i { w with frame := .left })

def liveTask (s : Scheduler) : Label → Prop
  | .thread i => ∀ w ∈ s.workers[i]?, ∀ t f, w.frame = .iteration t (.run .testAborted) f →
      ∀ k ∈ s.object t, k.myStatus ≠ .aborted
  | _ => True

def waiting (s : Scheduler) : List Nat := s.timers ++ s.entering ++ s.arriving ++ s.myTaskQueue

def destroys (s : Scheduler) (t : Nat) : Nat :=
  s.workers.countP (Worker.destroying t) + s.ended.countP (destroyedIn t)

def placed (s : Scheduler) (t : Nat) : Nat :=
  s.waiting.count t + s.workers.countP (Worker.accounts t) + s.ended.countP (destroyedIn t)

structure Inv (s : Scheduler) : Prop where
  coherent : s.Coherent
  settled : ∀ w ∈ s.workers, w.Settled
  ended : ∀ e ∈ s.ended, disposed e.2
  placed : ∀ t, s.placed t = if t < s.tasks.length then 1 else 0
  gone : ∀ t, 0 < s.destroys t → ∀ k ∈ s.tasks[t]?, k.deleted = true
  counted : s.myHoldCount = UInt64.ofNat (s.holders + s.tasks.countP Task.holds)

theorem ofNat_hold {n : UInt64} {a : Nat} (h : n = UInt64.ofNat a) : n + 1 = UInt64.ofNat (a + 1) := by
  rw [h, UInt64.ofNat_add]
  rfl

theorem ofNat_release {n : UInt64} {a : Nat} (h : n = UInt64.ofNat (a + 1)) :
    n - 1 = UInt64.ofNat a := by
  rw [h, ← ofNat_hold rfl]
  exact UInt64.add_sub_cancel _ _

theorem destroys_le_placed (s : Scheduler) (t : Nat) : s.destroys t ≤ s.placed t := by
  have hle : s.workers.countP (Worker.destroying t) ≤ s.workers.countP (Worker.accounts t) :=
    List.countP_mono_left fun w _ hw => Worker.destroying_accounts hw
  simp only [destroys, placed]
  omega

theorem waiting_inv {s : Scheduler} (hs : s.Inv) {timers entering arriving queue : List Nat}
    {count : UInt64}
    (h : ∀ t, timers.count t + entering.count t + arriving.count t + queue.count t =
      s.timers.count t + s.entering.count t + s.arriving.count t + s.myTaskQueue.count t) :
    Inv { s with
      timers := timers
      entering := entering
      arriving := arriving
      myTaskQueue := queue
      myTaskCount := count } := by
  refine ⟨hs.coherent, hs.settled, hs.ended, fun t => ?_, hs.gone, hs.counted⟩
  have ht := h t
  refine Eq.trans ?_ (hs.placed t)
  simp only [Scheduler.placed, waiting, List.count_append]
  omega

theorem destroys_setWorker (s : Scheduler) {i : Nat} {w : Worker} (h : s.workers[i]? = some w)
    (w' : Worker) (t : Nat) :
    (s.setWorker i w').destroys t + (if w.destroying t then 1 else 0) =
      s.destroys t + if w'.destroying t then 1 else 0 := by
  have hc := countP_replace (Worker.destroying t) h w'
  simp only [destroys, setWorker] at hc ⊢
  omega

theorem queue_inv {s : Scheduler} (hs : s.Inv) {i : Nat} {w w' : Worker} {queue : List Nat}
    (h : s.workers[i]? = some w) (hc : w'.Coherent) (hf : w'.Settled)
    (hd : ∀ t, w'.destroying t = w.destroying t)
    (hq : ∀ t, queue.count t + (if w'.accounts t then 1 else 0) =
      s.myTaskQueue.count t + if w.accounts t then 1 else 0) :
    ({ s with myTaskQueue := queue : Scheduler }.setWorker i w').Inv where
  coherent := setWorker_coherent hs.coherent i hc
  settled := forall_replace hs.settled hf
  ended := hs.ended
  placed t := by
    have hr := countP_replace (Worker.accounts t) h w'
    have hq := hq t
    refine Eq.trans ?_ (hs.placed t)
    simp only [Scheduler.placed, setWorker, waiting, List.count_append]
    omega
  gone t ht := by
    have hp := s.destroys_setWorker h w' t
    rw [hd] at hp
    exact hs.gone t (Nat.add_right_cancel hp ▸ ht)
  counted := hs.counted

theorem setWorker_inv {s : Scheduler} (hs : s.Inv) {i : Nat} {w w' : Worker}
    (h : s.workers[i]? = some w) (hc : w'.Coherent) (hf : w'.Settled)
    (ha : ∀ t, w'.accounts t = w.accounts t) (hd : ∀ t, w'.destroying t = w.destroying t) :
    (s.setWorker i w').Inv :=
  queue_inv hs h hc hf hd fun t => by rw [ha]

theorem moved_inv {s : Scheduler} (hs : s.Inv) {i : Nat} {c c' : Option Nat} {t : Nat} {p p' : Point}
    {f : List Fate} (h : s.workers[i]? = some ⟨c, .iteration t p f⟩)
    (hc : (Worker.mk c' (.iteration t p' f)).Coherent) (hf : p'.Settled f)
    (hp : p'.inHand = p.inHand) : (s.setWorker i ⟨c', .iteration t p' f⟩).Inv :=
  setWorker_inv hs h hc hf (fun u => by simp only [Worker.accounts, hp]) fun _ => rfl

theorem idle_inv {s : Scheduler} (hs : s.Inv) {i : Nat} {w w' : Worker}
    (h : s.workers[i]? = some w) (hw : w.idle = true) (hw' : w'.idle = true) :
    (s.setWorker i w').Inv :=
  setWorker_inv hs h (Worker.idle_coherent hw') (Worker.idle_settled hw')
    (fun t => by rw [Worker.idle_accounts hw, Worker.idle_accounts hw'])
    fun t => by rw [Worker.idle_destroying hw, Worker.idle_destroying hw']

theorem counters_inv {s : Scheduler} (hs : s.Inv) (count active : UInt64) :
    Inv { s with myTaskCount := count, myActiveTaskCount := active } :=
  ⟨hs.coherent, hs.settled, hs.ended, hs.placed, hs.gone, hs.counted⟩

theorem setTask_inv {s : Scheduler} (hs : s.Inv) {t : Nat} {k k' : Task}
    (h : s.tasks[t]? = some k) (hheld : k'.held = k.held) (hdel : k'.deleted = k.deleted) :
    (s.setTask t k').Inv where
  coherent := hs.coherent
  settled := hs.settled
  ended := hs.ended
  placed u := by
    rw [setTask, List.length_set]
    exact hs.placed u
  gone u hu k'' hk := by
    rcases getElem?_replace hk with ⟨rfl, rfl⟩ | ⟨-, hk⟩
    · rw [hdel]
      exact hs.gone t hu k h
    · exact hs.gone u hu k'' hk
  counted := by
    have hsame : k'.holds = k.holds := by simp only [Task.holds, hheld, hdel]
    simp only [setTask, countP_replace_same h hsame]
    exact hs.counted

theorem current_inHand {p : Point} (h : p.current = true) : p.inHand = true := by
  cases p <;> first | rfl | cases h

theorem current_settled {p : Point} (h : p.current = true) (f : List Fate) :
    p.Settled f ↔ f = [] := by
  cases p <;> first | rfl | cases h

theorem settled_at {s : Scheduler} (hs : s.Inv) {i : Nat} {cur : Option Nat} {t : Nat} {p : Point}
    {f : List Fate} (hw : s.workers[i]? = some ⟨cur, .iteration t p f⟩) : p.Settled f :=
  hs.settled _ (List.mem_of_getElem? hw)

theorem destroy_counted {s : Scheduler}
    (hcount : s.myHoldCount = UInt64.ofNat (s.holders + s.tasks.countP Task.holds)) {t : Nat}
    {k : Task} (h : s.object t = some k) :
    (if k.held then s.myHoldCount - 1 else s.myHoldCount) =
      UInt64.ofNat (s.holders + (s.tasks.set t { k with deleted := true }).countP Task.holds) := by
  obtain ⟨ht, hk⟩ := object_some h
  have hc := countP_replace Task.holds ht { k with deleted := true }
  simp only [Task.holds, hk, Bool.not_false, Bool.and_true, Bool.not_true, Bool.and_false,
    Bool.false_eq_true, if_false, Nat.add_zero] at hc
  split
  · next hheld =>
    rw [if_pos hheld] at hc
    apply ofNat_release
    rwa [Nat.add_assoc, hc]
  · next hheld =>
    rw [if_neg hheld] at hc
    rwa [← hc] at hcount

section Iteration
variable {s : Scheduler} (hs : s.Inv) {i : Nat} {cur : Option Nat} {t : Nat} {f : List Fate}
include hs

theorem run_inv {c : Code} {k : Task} (hw : s.workers[i]? = some ⟨some t, .iteration t (.run c) f⟩)
    (hk : s.object t = some k) (hlive : c = .testAborted → k.myStatus ≠ .aborted) :
    ((s.setTask t (k.proceed c).2).setWorker i ⟨some t, .iteration t (k.proceed c).1 f⟩).Inv := by
  obtain ⟨status, suspended, as, hframe, -⟩ := k.proceed_frame c
  have hnext : (k.proceed c).1.current = true :=
    (k.proceed_point c).resolve_right fun hp => hlive hp.1 hp.2.1
  have htask : (s.setTask t (k.proceed c).2).Inv :=
    setTask_inv hs (object_some hk).1 (by rw [hframe]) (by rw [hframe])
  exact moved_inv htask hw ⟨fun _ => rfl, fun u hu => absurd hu (k.proceed_keeps c u)⟩
    ((current_settled hnext f).mpr (settled_at hs hw)) (current_inHand hnext)

theorem pop_inv {queue : List Nat} (hw : s.workers[i]? = some ⟨cur, .pop⟩)
    (hq : s.myTaskQueue = t :: queue) :
    ({ s with myTaskQueue := queue : Scheduler }.setWorker i ⟨cur, .iteration t .activate []⟩).Inv := by
  refine queue_inv hs hw ⟨by rintro ⟨⟩, by simp⟩ rfl (fun u => ?_) fun u => ?_
  · simp [Worker.destroying, destroyedIn]
  · rw [hq, List.count_cons]
    simp [Worker.accounts, destroyedIn, Point.inHand]

theorem push_inv (hw : s.workers[i]? = some ⟨some t, .iteration t .push f⟩) :
    ({ s with myTaskQueue := s.myTaskQueue ++ [t] : Scheduler }.setWorker i
      ⟨none, .iteration t .recount (f ++ [.pushedBack])⟩).Inv := by
  have hset : f = [] := settled_at hs hw
  subst hset
  refine queue_inv hs hw ⟨by rintro ⟨⟩, by simp⟩ rfl (fun u => ?_) fun u => ?_
  · simp [Worker.destroying, destroyedIn]
  · rw [count_snoc]
    simp [Worker.accounts, destroyedIn, Point.inHand]

theorem exit_inv {k : Task} (hw : s.workers[i]? = some ⟨some t, .iteration t .exit f⟩)
    (hk : s.object t = some k) :
    ((s.setTask t k.exit).setWorker i ⟨none, .iteration t (.delete t) f⟩).Inv := by
  have hset : f = [] := settled_at hs hw
  subst hset
  have hc : (Worker.mk none (.iteration t (.delete t) [])).Coherent :=
    ⟨nofun, fun u hu => (Point.delete.inj hu).symm⟩
  have hk' : (s.setTask t k.exit).Inv := setTask_inv hs (object_some hk).1 rfl rfl
  exact moved_inv hk' hw hc rfl rfl

theorem delete_inv {k : Task} (hw : s.workers[i]? = some ⟨cur, .iteration t (.delete t) f⟩)
    (hk : s.object t = some k) :
    ((s.destroy t k).setWorker i ⟨cur, .iteration t .deactivate (f ++ [.destroyed])⟩).Inv := by
  have hset : f = [] := settled_at hs hw
  subst hset
  rw [destroy_eq]
  have ha (x : Nat) : (Worker.mk cur (.iteration t .deactivate [.destroyed])).accounts x =
      (Worker.mk cur (.iteration t (.delete t) [])).accounts x := by
    simp [Worker.accounts, destroyedIn, Point.inHand]
  have hd (x : Nat) (hx : t ≠ x) : (Worker.mk cur (.iteration t .deactivate [.destroyed])).destroying x =
      (Worker.mk cur (.iteration t (.delete t) [])).destroying x := by
    simp [Worker.destroying, destroyedIn, hx]
  refine ⟨?_, forall_replace hs.settled (Or.inr rfl), hs.ended, fun x => ?_, fun x hx k' hk' => ?_,
    destroy_counted hs.counted hk⟩
  · exact setWorker_coherent hs.coherent i ⟨by rintro ⟨⟩, by simp⟩
  · have hr := countP_replace_same hw (ha x)
    refine Eq.trans ?_ ((hs.placed x).trans (by simp only [setWorker, List.length_set]))
    simp only [Scheduler.placed, setWorker, waiting, List.nil_append, hr]
  · rcases getElem?_replace hk' with ⟨-, rfl⟩ | ⟨hne, hk'⟩
    · rfl
    · refine hs.gone x ?_ k' hk'
      rwa [destroys, ← countP_replace_same hw (hd x hne)]

theorem end_inv (hw : s.workers[i]? = some ⟨cur, .iteration t .testPause f⟩) {w : Worker}
    (hidle : w.idle = true) :
    ({ s with ended := s.ended ++ [(t, f)] : Scheduler }.setWorker i w).Inv := by
  have hset : disposed f := settled_at hs hw
  refine ⟨setWorker_coherent hs.coherent i (Worker.idle_coherent hidle),
    forall_replace hs.settled (Worker.idle_settled hidle), ?_, fun x => ?_, fun x hx => ?_, hs.counted⟩
  · exact forall_snoc hs.ended hset
  · have hr := countP_replace (Worker.accounts x) hw w
    rw [Worker.idle_accounts hidle] at hr
    refine Eq.trans ?_ (hs.placed x)
    simp only [Worker.accounts, Point.inHand, Bool.and_false, Bool.false_or, Bool.false_eq_true,
      if_false] at hr
    simp only [Scheduler.placed, setWorker, waiting, List.countP_append, List.countP_singleton]
    omega
  · have hr := countP_replace (Worker.destroying x) hw w
    have hd : (Worker.mk cur (.iteration t .testPause f)).destroying x = destroyedIn x (t, f) := rfl
    rw [Worker.idle_destroying hidle, hd, if_neg Bool.false_ne_true] at hr
    apply hs.gone x
    simp only [destroys, setWorker, List.countP_append, List.countP_singleton] at hx ⊢
    omega

end Iteration

theorem schedule_inv {s : Scheduler} (hs : s.Inv) (kind : Kind) (hold delayed : Bool) :
    (s.schedule kind hold delayed).Inv := by
  rw [schedule_eq]
  have hwait (x : Nat) : (s.timers ++ if delayed then [s.tasks.length] else []).count x +
      (s.entering ++ if delayed then [] else [s.tasks.length]).count x =
        s.timers.count x + s.entering.count x + if s.tasks.length = x then 1 else 0 := by
    cases delayed with
    | true => simp only [if_true, count_snoc, List.append_nil]; omega
    | false => simp only [Bool.false_eq_true, if_false, count_snoc, List.append_nil]; omega
  generalize (s.timers ++ if delayed then [s.tasks.length] else []) = timers at hwait ⊢
  generalize (s.entering ++ if delayed then [] else [s.tasks.length]) = entering at hwait ⊢
  refine ⟨hs.coherent, hs.settled, hs.ended, fun x => ?_, fun x hx k hk => ?_, ?_⟩
  · have hp := hs.placed x
    have hx := hwait x
    have hnew : (if x < s.tasks.length + 1 then 1 else 0) =
        (if x < s.tasks.length then 1 else 0) + if s.tasks.length = x then 1 else 0 := by
      split <;> split <;> split <;> omega
    rw [List.length_append, List.length_singleton, hnew, ← hp]
    simp only [Scheduler.placed, waiting, List.count_append]
    omega
  · rcases Nat.lt_or_ge x s.tasks.length with hlt | hge
    · exact hs.gone x hx k (by rwa [List.getElem?_append_left hlt] at hk)
    · have hp := (hs.placed x).trans (if_neg (Nat.not_lt.mpr hge))
      have hle : s.destroys x ≤ s.placed x := s.destroys_le_placed x
      have hx : 0 < s.destroys x := hx
      omega
  · have hnew : [Task.new kind hold].countP Task.holds = if hold then 1 else 0 := by
      cases hold <;> rfl
    simp only [List.countP_append, hnew]
    cases hold with
    | true => exact ofNat_hold hs.counted
    | false => exact hs.counted

theorem moves_inv {s s' : Scheduler} {l : Label} (hs : s.Inv) (hl : s.liveTask l)
    (h : s.Moves l s') : s'.Inv := by
  cases h with
  | schedule => exact schedule_inv hs _ _ _
  | fire ht | count ht | push ht =>
    apply waiting_inv hs
    intro x
    have hc := count_erase_add ht x
    rw [count_snoc]
    omega
  | abort hk | cancel hk => exact setTask_inv hs (object_some hk).1 rfl rfl
  | hold =>
    refine ⟨hs.coherent, hs.settled, hs.ended, hs.placed, hs.gone, ?_⟩
    rw [Nat.add_right_comm]
    exact ofNat_hold hs.counted
  | release hpos =>
    refine ⟨hs.coherent, hs.settled, hs.ended, hs.placed, hs.gone, ofNat_release ?_⟩
    rw [Nat.add_right_comm, Nat.sub_add_cancel hpos]
    exact hs.counted
  | addThread =>
    refine ⟨?_, ?_, hs.ended, fun x => ?_, fun x => ?_, hs.counted⟩
    · exact forall_snoc hs.coherent trivial
    · exact forall_snoc hs.settled trivial
    · refine Eq.trans ?_ (hs.placed x)
      simp only [Scheduler.placed, List.countP_append]
      rfl
    · simp only [destroys, List.countP_append]
      exact hs.gone x
  | pause | resume => exact ⟨hs.coherent, hs.settled, hs.ended, hs.placed, hs.gone, hs.counted⟩
  | stay => exact hs
  | idle _ hw hi hi' => exact idle_inv hs hw hi hi'
  | pop hw hq => exact pop_inv hs hw hq
  | activate hw | discount hw | deactivate hw =>
    have hset := settled_at hs hw
    exact moved_inv (counters_inv hs _ _) hw ⟨by rintro ⟨⟩, by simp⟩ hset rfl
  | reset hw =>
    have hset := settled_at hs hw
    exact moved_inv hs hw ⟨fun _ => rfl, by simp⟩ hset rfl
  | @run i t c f k hw hk =>
    apply run_inv hs hw hk
    rintro rfl
    exact hl _ hw t f rfl k hk
  | requeue hw => exact push_inv hs hw
  | recount hw =>
    have hset := settled_at hs hw
    exact moved_inv (counters_inv hs _ _) hw ⟨by rintro ⟨⟩, by simp⟩ (Or.inl hset) rfl
  | exit hw hk => exact exit_inv hs hw hk
  | delete hw hk => exact delete_inv hs hw hk
  | finish hw hi => exact end_inv hs hw hi
  | handled _ _ hw =>
    have hset := settled_at hs hw
    exact moved_inv hs hw ⟨fun _ => rfl, by simp⟩ hset rfl

theorem inv_step (s : Scheduler) (l : Label) (s' : Scheduler) (hs : s.Inv) (hl : s.liveTask l)
    (h : pools.step s l = some s') : s'.Inv := moves_inv hs hl (step_moves hs.coherent h)

theorem inv_start (myMaxThreads : Nat) : (start myMaxThreads).Inv := by
  refine ⟨start_coherent myMaxThreads, ?_, nofun, fun t => rfl, fun t _ => nofun, rfl⟩
  exact List.forall_mem_singleton.mpr trivial

theorem quiescent_holds {s : Scheduler} (hs : s.Inv) (hq : s.quiescent) :
    s.tasks.countP Task.holds = 0 := by
  obtain ⟨hqueue, htimers, hentering, harriving, hidle⟩ := hq
  apply List.countP_eq_zero.mpr
  intro k hk
  obtain ⟨t, ht, hkt⟩ := List.mem_iff_getElem.mp hk
  have hnone : s.workers.countP (Worker.accounts t) = 0 :=
    List.countP_eq_zero.mpr fun w hw => by simp [Worker.idle_accounts (hidle w hw)]
  have hp := (hs.placed t).trans (if_pos ht)
  simp only [Scheduler.placed, waiting, hqueue, htimers, hentering, harriving, hnone] at hp
  have hgone : 0 < s.destroys t := by
    simp only [destroys]
    have hzero : List.count t ([] ++ [] ++ [] ++ [] : List Nat) = 0 := rfl
    omega
  have hdel := hs.gone t hgone k (List.getElem?_eq_some_iff.mpr ⟨ht, hkt⟩)
  simp [Task.holds, hdel]

theorem inv_released (s : Scheduler) (hs : s.Inv) : s.Released where
  closing w hw f hf := by
    have hset := hs.settled w hw
    obtain ⟨c, frame⟩ := w
    cases frame with
    | iteration t p g =>
      cases p with
      | deactivate | testPause =>
        obtain rfl := Option.some.inj hf
        exact hset
      | _ => cases hf
    | _ => cases hf
  ended := hs.ended
  once t := by
    have hp := hs.placed t
    simp only [Scheduler.placed] at hp
    split at hp <;> omega
  released e he hd k hk := by
    have hpos : 0 < s.ended.countP (destroyedIn e.1) :=
      List.countP_pos_iff.mpr ⟨e, he, by simp [destroyedIn, hd]⟩
    have hdel := hs.gone e.1 (Nat.lt_of_lt_of_le hpos (Nat.le_add_left _ _)) k hk
    simp [Task.holds, hdel]
  counted := hs.counted
  quiet hq := by
    have hc := hs.counted
    rwa [quiescent_holds hs hq] at hc
  leaves hq hholders i w hw := by
    have hc := hs.counted
    rw [quiescent_holds hs hq, hholders] at hc
    have hzero : s.myHoldCount = 0 := hc
    simp [thread, hw, hzero]

theorem liveTask_of_released (s : Scheduler) (l : Label) (s' : Scheduler) (hs : s.Inv)
    (h : pools.step s l = some s') (hr : s'.Released) : s.liveTask l := by
  cases l with
  | thread i =>
    intro w hw t f hf k hk haborted
    obtain ⟨v, hv, h⟩ := Option.bind_eq_some_iff.mp h
    obtain rfl : v = w := Option.some.inj (hv.symm.trans hw)
    obtain ⟨cur, frame⟩ := v
    subst hf
    have hcur := current_at hs.coherent hw rfl
    have hset : f = [] := settled_at hs hw
    subst hcur hset
    -- the branch leaves the task where it is: neither pushed back nor deleted
    have hcode := (runCode_current s i (Eq.refl (Worker.mk (some t) _).myCurrentTask) []
      .testAborted).symm.trans h
    rw [Option.mem_def.mp hk] at hcode
    simp only [Task.proceed, if_pos haborted, Option.map_some] at hcode
    obtain rfl := Option.some.inj hcode
    have hi := (List.getElem?_eq_some_iff.mp hw).1
    have hlast := hr.closing _ (List.mem_set hi _) [] rfl
    rcases hlast with h | h <;> cases h
  | _ => trivial

theorem released_iff_liveTask (myMaxThreads : Nat) (ls : List Label) :
    pools.always Released (start myMaxThreads) ls ↔ pools.meets liveTask (start myMaxThreads) ls :=
  pools.always_iff_meets inv_released liveTask_of_released inv_step (inv_start myMaxThreads) ls

def clearedTimeout : List Label :=
  [.scheduleTask true, .abort 0, .cancel 0, .fire 0, .count 0, .push 0, .poll 0 false] ++
    List.replicate 8 (.thread 0)

theorem cleared_timeout_never_released :
    ¬ pools.always Released (start 4) clearedTimeout ∧
      ∃ s, pools.run (start 4) clearedTimeout = some s ∧ s.quiescent ∧ s.holders = 0 ∧
        s.myHoldCount = 1 := by
  have hlast : ∃ s, pools.run (start 4) clearedTimeout = some s ∧ s.quiescent ∧ s.holders = 0 ∧
      s.myHoldCount = 1 := by
    refine ⟨_, rfl, ?_, rfl, rfl⟩
    exact ⟨rfl, rfl, rfl, rfl, by decide⟩
  refine ⟨fun h => ?_, hlast⟩
  obtain ⟨s, hs, hq, hh, hone⟩ := hlast
  have hr := (pools.always_iff_prefixes _ _ _).mp h _ List.prefix_rfl s hs
  have hzero := hr.quiet hq
  rw [hh, hone] at hzero
  exact absurd hzero (by decide)

end Scheduler

end NexusRuntime.Tasks
