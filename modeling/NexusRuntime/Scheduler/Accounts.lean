import NexusRuntime.Scheduler.Custody
import Mathlib.Data.List.Nodup

namespace NexusRuntime.Tasks

open Transition Sequence

def Label.allocates : Label → Bool
  | .scheduleTask _ | .scheduleCoroutine _ | .hold => true
  | _ => false

def Task.live (k : Task) : Bool := !k.deleted

def Scheduler.objects (s : Scheduler) : Nat := s.holders + s.tasks.countP Task.live

-- operator new never has more than 2^64 - 1 distinct addresses to give
def machine : System Scheduler Label :=
  ⟨fun s l => if l.allocates = true ∧ UInt64.size ≤ s.objects + 1 then none else pools.step s l⟩

namespace Worker

def uncounted (w : Worker) : Bool :=
  match w.frame with
  | .iteration _ .activate _ | .iteration _ .discount _ => true
  | _ => false

def requeued (w : Worker) : Bool :=
  match w.frame with
  | .iteration _ .recount _ => true
  | _ => false

def active (w : Worker) : Bool :=
  match w.frame with
  | .iteration _ .activate _ | .iteration _ .testPause _ => false
  | .iteration _ _ _ => true
  | _ => false

def paired (w : Worker) : Bool :=
  match w.frame with
  | .iteration _ .activate _ | .iteration _ .discount _ => true
  | .iteration _ .recount _ | .iteration _ .deactivate _ => true
  | _ => false

def hand (w : Worker) : Option Nat :=
  match w.frame with
  | .iteration t p _ => if p.inHand then some t else none
  | _ => none

def executing (w : Worker) : Bool := w.hand.isSome

end Worker

namespace Scheduler

def counted (s : Scheduler) : Nat :=
  s.myTaskQueue.length + s.arriving.length + s.workers.countP Worker.uncounted

def requeued (s : Scheduler) : Nat := s.workers.countP Worker.requeued

def level (s : Scheduler) : Int := s.counted - s.requeued

def wraps (s : Scheduler) : Label → Prop
  | .thread i => ∃ w ∈ s.workers[i]?, ∃ t f, w.frame = .iteration t .discount f ∧ s.myTaskCount = 0
  | _ => False

def settled (s : Scheduler) : Prop := s.arriving = [] ∧ ∀ w ∈ s.workers, w.paired = false

def Balanced (s : Scheduler) : Prop :=
  s.settled → s.myTaskCount.toNat = s.myTaskQueue.length ∧
    s.myActiveTaskCount.toNat = s.workers.countP Worker.executing

def covered (s : Scheduler) : Label → Prop
  | .thread i => ∀ w ∈ s.workers[i]?, ∀ t f, w.frame = .iteration t .discount f →
      s.requeued < s.counted
  | _ => True

structure Tallies (s : Scheduler) : Prop where
  tasks : s.myTaskCount = UInt64.ofInt s.level
  active : s.myActiveTaskCount = UInt64.ofInt (s.workers.countP Worker.active)

structure Flows (s s' : Scheduler) (taken started : Int) : Prop where
  tasks : s'.myTaskCount = s.myTaskCount + UInt64.ofInt taken
  level : s'.level = s.level + taken
  active : s'.myActiveTaskCount = s.myActiveTaskCount + UInt64.ofInt started
  busy : (s'.workers.countP Worker.active : Int) = s.workers.countP Worker.active + started

structure Sized (s : Scheduler) : Prop where
  custody : s.Custody
  bounded : s.objects < UInt64.size

structure Accounts (s : Scheduler) : Prop extends Sized s where
  tallies : s.Tallies
  covered : 0 ≤ s.level

theorem count_hands (s : Scheduler) (t : Nat) :
    (s.workers.filterMap Worker.hand).count t = s.workers.countP (Worker.inHand t) := by
  rw [List.count, List.countP_filterMap]
  apply List.countP_congr
  intro w _
  obtain ⟨c, frame⟩ := w
  cases frame with
  | iteration u p f => cases hp : p.inHand <;> simp [Worker.hand, Worker.inHand, hp]
  | _ => simp [Worker.hand, Worker.inHand]

theorem places_le_live {s : Scheduler} (hs : s.Custody) :
    s.waiting.length + s.workers.countP Worker.executing ≤ s.tasks.countP Task.live := by
  have hcount (t : Nat) : (s.waiting ++ s.workers.filterMap Worker.hand).count t = s.places t := by
    rw [List.count_append, count_hands, Scheduler.places]
  have hd : (s.waiting ++ s.workers.filterMap Worker.hand).Nodup := by
    apply List.nodup_iff_count_le_one.mpr
    intro t
    rw [hcount]
    apply Nat.le_trans (hs.places t)
    split <;> simp
  have hlive : ∀ t ∈ s.waiting ++ s.workers.filterMap Worker.hand,
      ∃ k, s.tasks[t]? = some k ∧ k.live = true := by
    intro t ht
    have hpos := List.count_pos_iff.mpr ht
    rw [hcount] at hpos
    have hp := hs.places t
    split at hp
    · next ho =>
      obtain ⟨k, hk⟩ := Option.isSome_iff_exists.mp ho
      obtain ⟨hkt, hd⟩ := object_some hk
      exact ⟨k, hkt, by simp [Task.live, hd]⟩
    · omega
  have hlen := length_le_countP hd hlive
  have hhands : (s.workers.filterMap Worker.hand).length = s.workers.countP Worker.executing := by
    rw [List.length_filterMap_eq_countP]
    rfl
  rwa [List.length_append, hhands] at hlen

theorem setTask_live {s : Scheduler} {t : Nat} {k k' : Task} (hk : s.object t = some k)
    (hd : k'.deleted = k.deleted) : (s.setTask t k').tasks.countP Task.live = s.tasks.countP Task.live := by
  apply countP_replace_same (object_some hk).1
  simp only [Task.live, hd]

theorem moves_objects {s s' : Scheduler} {l : Label} (h : s.Moves l s') :
    s'.objects ≤ s.objects + if l.allocates = true then 1 else 0 := by
  have hsame {n : Nat} (hn : n = s.tasks.countP Task.live) :
      s.holders + n ≤ s.objects + if l.allocates = true then 1 else 0 := by
    rw [hn]
    exact Nat.le_add_right _ _
  cases h with
  | @schedule l kind hold delayed hl =>
    have ha : l.allocates = true := by
      cases l with
      | scheduleTask | scheduleCoroutine => rfl
      | _ => cases hl
    rw [schedule_eq, if_pos ha]
    simp only [objects, List.countP_append, List.countP_singleton]
    simp only [Task.live, Task.new, Bool.not_false, if_true]
    omega
  | hold =>
    simp only [objects, Scheduler.hold, Label.allocates, if_true]
    omega
  | release hh =>
    simp only [objects, Scheduler.release]
    omega
  | abort hk => exact hsame (setTask_live hk rfl)
  | cancel hk => exact hsame (setTask_live hk rfl)
  | run hw hk =>
    rename_i c f k
    obtain ⟨status, suspended, as, hframe, -⟩ := k.proceed_frame c
    exact hsame (setTask_live hk (by rw [hframe]))
  | exit hw hk => exact hsame (setTask_live hk rfl)
  | @delete i cur t f k hw hk =>
    have hc := countP_replace Task.live (object_some hk).1 { k with deleted := true }
    rw [destroy_eq]
    simp only [Task.live, Bool.not_true, Bool.false_eq_true, if_false] at hc
    simp only [objects, setWorker]
    omega
  | _ => exact hsame rfl

theorem machine_step {s s' : Scheduler} {l : Label} (h : machine.step s l = some s') :
    pools.step s l = some s' ∧ (l.allocates = true → s.objects + 1 < UInt64.size) := by
  obtain ⟨hfree, h⟩ := Option.ite_none_left_eq_some.mp h
  exact ⟨h, fun ha => Nat.lt_of_not_le fun hle => hfree ⟨ha, hle⟩⟩

theorem sized_step (s : Scheduler) (l : Label) (s' : Scheduler) (hs : s.Sized)
    (h : machine.step s l = some s') : s'.Sized := by
  obtain ⟨h, hfree⟩ := machine_step h
  have hm := step_moves hs.custody.coherent h
  refine ⟨moves_custody hs.custody hm, Nat.lt_of_le_of_lt (moves_objects hm) ?_⟩
  split
  · next ha => exact hfree ha
  · exact hs.bounded

theorem start_sized (myMaxThreads : Nat) : (start myMaxThreads).Sized :=
  ⟨start_custody myMaxThreads, (by decide : 0 < UInt64.size)⟩

theorem flows_worker {s : Scheduler} {i : Nat} {w w' : Worker} (hw : s.workers[i]? = some w)
    {taken started : Int} {queue : List Nat} {count active : UInt64}
    (hcount : count = s.myTaskCount + UInt64.ofInt taken)
    (hactive : active = s.myActiveTaskCount + UInt64.ofInt started)
    (hlevel : queue.length + (if w'.uncounted then 1 else 0) + (if w.requeued then 1 else 0) =
      s.myTaskQueue.length + (if w.uncounted then 1 else 0) + (if w'.requeued then 1 else 0) + taken)
    (hbusy : (if w'.active then 1 else 0) = (if w.active then 1 else 0) + started) :
    s.Flows ({ s with
      myTaskQueue := queue
      myTaskCount := count
      myActiveTaskCount := active : Scheduler }.setWorker i w') taken started := by
  have huncounted := countP_replace Worker.uncounted hw w'
  have hrequeued := countP_replace Worker.requeued hw w'
  have hactives := countP_replace Worker.active hw w'
  refine ⟨hcount, ?_, hactive, ?_⟩
  · simp only [level, counted, requeued, setWorker]
    grind
  · simp only [setWorker]
    grind

theorem Flows.same {s s' : Scheduler} (htask : s'.myTaskCount = s.myTaskCount)
    (hactive : s'.myActiveTaskCount = s.myActiveTaskCount) (hlevel : s'.level = s.level)
    (hbusy : s'.workers.countP Worker.active = s.workers.countP Worker.active) : s.Flows s' 0 0 :=
  ⟨by rw [htask]; exact (UInt64.add_zero _).symm, by omega,
    by rw [hactive]; exact (UInt64.add_zero _).symm, by omega⟩

theorem idle_tallied {w : Worker} (h : w.idle = true) :
    w.uncounted = false ∧ w.requeued = false ∧ w.active = false := by
  obtain ⟨c, frame⟩ := w
  cases frame with
  | iteration t p f => cases h
  | _ => exact ⟨rfl, rfl, rfl⟩

theorem proceed_tallied (k : Task) (c : Code) (cur : Option Nat) (t : Nat) (f : List Fate) :
    (Worker.mk cur (.iteration t (k.proceed c).1 f)).uncounted = false ∧
      (Worker.mk cur (.iteration t (k.proceed c).1 f)).requeued = false ∧
        (Worker.mk cur (.iteration t (k.proceed c).1 f)).active = true := by
  generalize hp : (k.proceed c).1 = p
  have hcur := k.proceed_point c
  rw [hp] at hcur
  cases p with
  | activate | discount | recount | testPause =>
    rcases hcur with hcur | ⟨-, -, hcur⟩
    · cases hcur
    · rw [hcur] at hp
      cases hp
  | _ => exact ⟨rfl, rfl, rfl⟩

theorem flows_fields {s s' : Scheduler} {taken started : Int} (h : s.Flows s' taken started)
    {s₁ : Scheduler} (htask : s₁.myTaskCount = s'.myTaskCount)
    (hactive : s₁.myActiveTaskCount = s'.myActiveTaskCount) (hworkers : s₁.workers = s'.workers)
    (hqueue : s₁.myTaskQueue = s'.myTaskQueue) (harriving : s₁.arriving = s'.arriving) :
    s.Flows s₁ taken started := by
  refine ⟨htask.trans h.tasks, ?_, hactive.trans h.active, hworkers ▸ h.busy⟩
  rw [← h.level]
  simp only [level, counted, requeued, hworkers, hqueue, harriving]

theorem flows_still {s : Scheduler} {i : Nat} {w w' : Worker} (hw : s.workers[i]? = some w)
    (huncounted : w'.uncounted = w.uncounted) (hrequeued : w'.requeued = w.requeued)
    (hactive : w'.active = w.active) : s.Flows (s.setWorker i w') 0 0 := by
  refine flows_worker hw (UInt64.add_zero _).symm (UInt64.add_zero _).symm ?_ ?_
  · rw [huncounted, hrequeued]
    omega
  · rw [hactive]
    omega

theorem sub_one (n : UInt64) : n - 1 = n + UInt64.ofInt (-1) := by
  rw [UInt64.ofInt_neg_one]
  exact UInt64.sub_eq_add_neg n 1

theorem moves_flow {s s' : Scheduler} {l : Label} (h : s.Moves l s') :
    ∃ taken started, s.Flows s' taken started ∧
      (0 ≤ taken ∨ taken = -1 ∧
        ∃ i c t f, l = .thread i ∧ s.workers[i]? = some ⟨c, .iteration t .discount f⟩) := by
  have hstill (h : s.Flows s' 0 0) : ∃ taken started, s.Flows s' taken started ∧
      (0 ≤ taken ∨ taken = -1 ∧
        ∃ i c t f, l = .thread i ∧ s.workers[i]? = some ⟨c, .iteration t .discount f⟩) :=
    ⟨0, 0, h, .inl (Int.le_refl 0)⟩
  cases h with
  | schedule =>
    rw [schedule_eq]
    exact ⟨0, 0, .same rfl rfl rfl rfl, .inl (Int.le_refl 0)⟩
  | fire | abort | cancel | hold | release | pause | resume | stay => exact hstill (.same rfl rfl rfl rfl)
  | count ht =>
    refine ⟨1, 0, ⟨rfl, ?_, (UInt64.add_zero _).symm, (Int.add_zero _).symm⟩, .inl (by decide)⟩
    simp only [level, counted, requeued, List.length_append, List.length_singleton]
    omega
  | push ht =>
    have hlen := List.length_erase_of_mem ht
    have hpos := List.length_pos_of_mem ht
    refine hstill (.same rfl rfl ?_ rfl)
    simp only [level, counted, requeued, List.length_append, List.length_singleton, hlen]
    omega
  | addThread =>
    have hadd (p : Worker → Bool) (hp : p .new = false) :
        (s.workers ++ [Worker.new]).countP p = s.workers.countP p := by
      rw [List.countP_append, List.countP_singleton, hp]
      rfl
    refine hstill (.same rfl rfl ?_ (hadd _ rfl))
    simp only [level, counted, requeued, hadd Worker.uncounted rfl, hadd Worker.requeued rfl]
  | idle hl hw hi hi' =>
    obtain ⟨h₁, h₂, h₃⟩ := idle_tallied hi
    obtain ⟨h₁', h₂', h₃'⟩ := idle_tallied hi'
    exact hstill (flows_still hw (h₁'.trans h₁.symm) (h₂'.trans h₂.symm) (h₃'.trans h₃.symm))
  | pop hw hq =>
    refine hstill (flows_worker hw (UInt64.add_zero _).symm (UInt64.add_zero _).symm ?_ rfl)
    simp [hq, Worker.uncounted, Worker.requeued]
  | activate hw =>
    exact ⟨0, 1, flows_worker hw (UInt64.add_zero _).symm rfl (Int.add_zero _).symm rfl,
      .inl (Int.le_refl 0)⟩
  | discount hw =>
    refine ⟨-1, 0, ?_, .inr ⟨rfl, _, _, _, _, rfl, hw⟩⟩
    refine flows_worker hw (sub_one _) (UInt64.add_zero _).symm ?_ rfl
    simp only [Worker.uncounted, Worker.requeued, if_true, Bool.false_eq_true, if_false]
    omega
  | reset hw | handled hl hc hw => exact hstill (flows_still hw rfl rfl rfl)
  | @run i t c f k hw hk =>
    obtain ⟨h₁, h₂, h₃⟩ := proceed_tallied k c (some t) t f
    exact hstill (flows_fields (flows_still hw h₁ h₂ h₃) rfl rfl rfl rfl rfl)
  | @exit i t f k hw =>
    have hmoved : s.Flows (s.setWorker i ⟨none, .iteration t (.delete t) f⟩) 0 0 :=
      flows_still hw rfl rfl rfl
    exact hstill (flows_fields hmoved rfl rfl rfl rfl rfl)
  | @delete i cur t f k hw =>
    have hmoved : s.Flows (s.setWorker i ⟨cur, .iteration t .deactivate (f ++ [.destroyed])⟩) 0 0 :=
      flows_still hw rfl rfl rfl
    rw [destroy_eq]
    exact ⟨0, 0, flows_fields hmoved rfl rfl rfl rfl rfl, .inl (Int.le_refl 0)⟩
  | requeue hw =>
    refine hstill (flows_worker hw (UInt64.add_zero _).symm (UInt64.add_zero _).symm ?_ rfl)
    simp [Worker.uncounted, Worker.requeued]
  | recount hw =>
    refine ⟨1, 0, flows_worker hw rfl (UInt64.add_zero _).symm ?_ rfl, .inl (by decide)⟩
    simp [Worker.uncounted, Worker.requeued]
  | deactivate hw =>
    refine ⟨0, -1, flows_worker hw (UInt64.add_zero _).symm (sub_one _) ?_ rfl,
      .inl (Int.le_refl 0)⟩
    simp [Worker.uncounted, Worker.requeued]
  | finish hw hi =>
    obtain ⟨h₁, h₂, h₃⟩ := idle_tallied hi
    exact hstill (flows_fields (flows_still hw h₁ h₂ h₃) rfl rfl rfl rfl rfl)

theorem tallies_step {s s' : Scheduler} {l : Label} (hs : s.Tallies) (h : s.Moves l s') :
    s'.Tallies := by
  obtain ⟨taken, started, hflow, -⟩ := moves_flow h
  constructor
  · rw [hflow.tasks, hs.tasks, hflow.level, UInt64.ofInt_add]
  · rw [hflow.active, hs.active, hflow.busy, UInt64.ofInt_add]

theorem covered_step {s s' : Scheduler} {l : Label} (hs : 0 ≤ s.level) (hl : s.covered l)
    (h : s.Moves l s') : 0 ≤ s'.level := by
  obtain ⟨taken, started, hflow, htaken⟩ := moves_flow h
  have hlevel := hflow.level
  rcases htaken with hpos | ⟨rfl, i, c, t, f, rfl, hw⟩
  · omega
  · have hlt : s.requeued < s.counted := hl _ hw t f rfl
    simp only [level] at hlevel hs ⊢
    omega

theorem ofInt_toNat {n : Nat} (h : n < UInt64.size) : (UInt64.ofInt n).toNat = n := by
  have hofNat : UInt64.ofInt n = UInt64.ofNat n := by
    simp only [UInt64.ofInt]
    rw [← UInt64.toNat_inj]
    simp
    omega
  rw [hofNat, UInt64.toNat_ofNat_of_lt' h]

theorem counted_le_objects {s : Scheduler} (hs : s.Custody) : s.counted ≤ s.objects := by
  have hle : s.workers.countP Worker.uncounted ≤ s.workers.countP Worker.executing := by
    apply List.countP_mono_left
    intro w _ hw
    obtain ⟨c, frame⟩ := w
    cases frame with
    | iteration t p f =>
      cases p with
      | activate | discount => rfl
      | _ => cases hw
    | _ => cases hw
  have hplaces := places_le_live hs
  simp only [waiting, List.length_append] at hplaces
  simp only [counted, objects]
  omega

theorem accounts_balanced (s : Scheduler) (hs : s.Accounts) : s.Balanced := by
  rintro ⟨harriving, hpaired⟩
  have hnone {p : Worker → Bool} (hp : ∀ w, p w = true → w.paired = true) :
      s.workers.countP p = 0 := by
    apply List.countP_eq_zero.mpr
    intro w hw h
    have hfalse := hpaired w hw
    rw [hp w h] at hfalse
    cases hfalse
  have huncounted : s.workers.countP Worker.uncounted = 0 := hnone fun w h => by
    obtain ⟨c, frame⟩ := w
    cases frame with
    | iteration t p f =>
      cases p with
      | activate | discount => rfl
      | _ => cases h
    | _ => cases h
  have hrequeued : s.requeued = 0 := hnone fun w h => by
    obtain ⟨c, frame⟩ := w
    cases frame with
    | iteration t p f =>
      cases p with
      | recount => rfl
      | _ => cases h
    | _ => cases h
  have hactive : s.workers.countP Worker.active = s.workers.countP Worker.executing := by
    apply List.countP_congr
    intro w hw
    have hfalse := hpaired w hw
    obtain ⟨c, frame⟩ := w
    cases frame with
    | iteration t p f =>
      cases p with
      | activate | discount | recount | deactivate => cases hfalse
      | testPause => simp [Worker.active, Worker.executing, Worker.hand, Point.inHand]
      | _ => simp [Worker.active, Worker.executing, Worker.hand, Point.inHand]
    | _ => simp [Worker.active, Worker.executing, Worker.hand]
  have hbound := counted_le_objects hs.custody
  have hlive := places_le_live hs.custody
  have hsize := hs.bounded
  simp only [objects] at hsize
  constructor
  · have hlevel : s.level = (s.myTaskQueue.length : Int) := by
      simp [level, counted, hrequeued, harriving, huncounted]
    have hle : s.myTaskQueue.length ≤ s.counted := by
      simp only [counted]
      omega
    have hbounded := hs.bounded
    rw [hs.tallies.tasks, hlevel, ofInt_toNat (by omega)]
  · rw [hs.tallies.active, hactive, ofInt_toNat (by omega)]

theorem accounts_step (s : Scheduler) (l : Label) (s' : Scheduler) (hs : s.Accounts)
    (hl : s.covered l) (h : machine.step s l = some s') : s'.Accounts :=
  have hm := step_moves hs.custody.coherent (machine_step h).1
  ⟨sized_step s l s' hs.toSized h, tallies_step hs.tallies hm, covered_step hs.covered hl hm⟩

theorem start_accounts (myMaxThreads : Nat) : (start myMaxThreads).Accounts :=
  ⟨start_sized myMaxThreads, ⟨rfl, rfl⟩, Int.le_refl 0⟩

theorem wraps_iff {s : Scheduler} (hs : s.Accounts) (l : Label) : ¬ s.wraps l ↔ s.covered l := by
  cases l with
  | thread i =>
    have hbound := Nat.lt_of_le_of_lt (counted_le_objects hs.custody) hs.bounded
    have hlevel : s.level = ((s.counted - s.requeued : Nat) : Int) := by
      have hcovered := hs.covered
      simp only [level] at hcovered ⊢
      omega
    have hzero : s.myTaskCount = 0 ↔ ¬ s.requeued < s.counted := by
      rw [hs.tallies.tasks, hlevel, ← UInt64.toNat_inj, ofInt_toNat (by omega)]
      simp only [UInt64.toNat_zero]
      omega
    simp only [wraps, covered, hzero, not_exists, not_and, not_not]
  | _ => exact iff_of_true not_false trivial

theorem counts_iff_covered (myMaxThreads : Nat) (ls : List Label) :
    (machine.meets (fun s l => ¬ s.wraps l) (start myMaxThreads) ls ∧
        machine.always Balanced (start myMaxThreads) ls) ↔
      machine.meets covered (start myMaxThreads) ls := by
  have hiff := machine.meets_iff_meets (fun s l _ hs _ => wraps_iff hs l) accounts_step
    (start_accounts myMaxThreads) ls
  constructor
  · exact fun h => hiff.mp h.1
  · intro h
    exact ⟨hiff.mpr h, machine.always_of_meets accounts_balanced accounts_step
      (start_accounts myMaxThreads) h⟩

def yieldedBetween : List Label :=
  [.scheduleCoroutine false, .count 0, .push 0, .addThread, .poll 1 false, .thread 1, .poll 0 false] ++
    List.replicate 15 (.thread 0) ++ [.yield 0] ++ List.replicate 4 (.thread 0) ++
    List.replicate 2 (.thread 1)

theorem yielded_count_wraps :
    ¬ (machine.meets (fun s l => ¬ s.wraps l) (start 4) (yieldedBetween ++ [.thread 1]) ∧
        machine.always Balanced (start 4) (yieldedBetween ++ [.thread 1])) ∧
      ∃ s, machine.run (start 4) (yieldedBetween ++ [.thread 1]) = some s ∧
        s.myTaskCount = UInt64.ofNat (UInt64.size - 1) := by
  have hlast : ∃ s, machine.run (start 4) (yieldedBetween ++ [.thread 1]) = some s ∧
      s.myTaskCount = UInt64.ofNat (UInt64.size - 1) := ⟨_, rfl, rfl⟩
  refine ⟨fun h => ?_, hlast⟩
  have hbefore : ∃ s, machine.run (start 4) yieldedBetween = some s ∧ s.wraps (.thread 1) ∧
      ∃ t, machine.step s (.thread 1) = some t :=
    ⟨_, rfl, ⟨_, rfl, 0, [], rfl, rfl⟩, _, rfl⟩
  obtain ⟨s, hs, hwraps, t, ht⟩ := hbefore
  have hmeets := machine.meets_append h.1 hs
  simp only [System.meets, ht] at hmeets
  exact hmeets.1 hwraps

end Scheduler
end NexusRuntime.Tasks
