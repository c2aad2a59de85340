import NexusRuntime.Scheduler.Events

namespace NexusRuntime.Globals

open Transition Tasks

inductive Number where
  | finite (q : Rat)
  | nan
  | infinity (negative : Bool)
deriving DecidableEq, Repr

def intMin : Int := -2147483648

def intMax : Int := 2147483647

-- the C++ conversion truncates, what it gives outside the range of int is not defined
def toInt (undefined : Number → Int) : Number → Int
  | .finite q =>
    if ((intMin - 1 : Int) : Rat) < q ∧ q < ((intMax + 1 : Int) : Rat) then q.num.tdiv q.den else undefined (.finite q)
  | n => undefined n

def find (globalTimeouts : List (Int × Nat)) : Nat → Int → Option Int
  | 0, _ => none
  | fuel + 1, id =>
    if (globalTimeouts.lookup id).isSome then find globalTimeouts fuel (id + 1) else some id

structure Timer where
  id : Int
  task : Nat
  cleared : Bool
deriving DecidableEq, Repr

structure Timeouts where
  pool : Scheduler
  globalTimeouts : List (Int × Nat)
  timers : List Timer
deriving DecidableEq, Repr

inductive TimeoutLabel where
  | pool (l : Label)
  | setTimeout
  | clearTimeout (n : Number)
deriving DecidableEq, Repr

def Timer.named (n : Number) (r : Timer) : Bool := decide (n = .finite r.id)

def Timer.clear (n : Number) (r : Timer) : Timer := { r with cleared := r.cleared || r.named n }

namespace Timeouts

def start (myMaxThreads : Nat) : Timeouts := ⟨.start myMaxThreads, [], []⟩

-- id++ overflows past the largest int
def freeId (s : Timeouts) : Option Int := find s.globalTimeouts intMax.toNat 1

def setTimeout (s : Timeouts) : Option Timeouts := s.freeId.map fun id =>
  let task := s.pool.tasks.length
  { pool := s.pool.scheduleTask true
    globalTimeouts := (id, task) :: s.globalTimeouts
    timers := ⟨id, task, false⟩ :: s.timers }

def abort (s : Scheduler) (t : Nat) : Scheduler := (Tasks.step s (.abort t)).getD s

def clearTimeout (s : Timeouts) (undefined : Number → Int) (n : Number) : Timeouts :=
  let taskId := toInt undefined n
  match s.globalTimeouts.lookup taskId with
  | some t => { s with
      pool := abort s.pool t
      globalTimeouts := s.globalTimeouts.filter fun e => e.1 ≠ taskId
      timers := s.timers.map (Timer.clear n) }
  | none => { s with timers := s.timers.map (Timer.clear n) }

def step (undefined : Number → Int) (s : Timeouts) : TimeoutLabel → Option Timeouts
  | .pool l => (pools.step s.pool l).map fun pool => { s with pool }
  | .setTimeout => s.setTimeout
  | .clearTimeout n => some (s.clearTimeout undefined n)

end Timeouts

def timeouts (undefined : Number → Int) : System Timeouts TimeoutLabel := ⟨Timeouts.step undefined⟩

namespace Timeouts

def aborts (s : Timeouts) (undefined : Number → Int) (n : Number) : Option Nat :=
  s.globalTimeouts.lookup (toInt undefined n)

def returned (s : Timeouts) (n : Number) : Option Timer := s.timers.find? (Timer.named n)

structure Clears (s : Timeouts) (undefined : Number → Int) (n : Number) : Prop where
  only : ∀ t, s.aborts undefined n = some t →
    (∃ r, s.returned n = some r ∧ r.task = t) ∧ (s.pool.object t).isSome
  unended : ∀ r k, s.returned n = some r → s.pool.tasks[r.task]? = some k → ¬ k.Ended →
    s.aborts undefined n = some r.task

def clears (s : Timeouts) (undefined : Number → Int) : TimeoutLabel → Prop
  | .clearTimeout n => s.Clears undefined n
  | _ => True

def pending (s : Timeouts) (r : Timer) : Bool := !r.cleared && decide (r.task ∈ s.pool.timers)

def Distinct (s : Timeouts) : Prop := ((s.timers.filter s.pending).map Timer.id).Nodup

def current (s : Timeouts) (undefined : Number → Int) : TimeoutLabel → Prop
  | .clearTimeout n => ∀ t, s.aborts undefined n = some t →
      n = .finite (toInt undefined n) ∧ (s.pool.object t).isSome
  | _ => True

structure Inv (s : Timeouts) : Prop where
  coherent : s.pool.Coherent
  listed : ∀ r ∈ s.timers, r.cleared = false → s.globalTimeouts.lookup r.id = some r.task
  known : ∀ id t, s.globalTimeouts.lookup id = some t → ⟨id, t, false⟩ ∈ s.timers
  newest : s.timers.Pairwise fun r r' => r.id = r'.id → r'.cleared = true
  range : ∀ r ∈ s.timers, 1 ≤ r.id ∧ r.id ≤ intMax
  tasks : ∀ r ∈ s.timers, ∃ k, s.pool.tasks[r.task]? = some k ∧ (r.cleared = true → k.everAborted)

end Timeouts

theorem find_some {globalTimeouts : List (Int × Nat)} {fuel : Nat} {id first : Int}
    (h : find globalTimeouts fuel first = some id) :
    globalTimeouts.lookup id = none ∧ first ≤ id ∧ id < first + fuel := by
  induction fuel generalizing first with
  | zero => cases h
  | succ fuel ih =>
    simp only [find] at h
    split at h
    · obtain ⟨hnone, hle, hlt⟩ := ih h
      exact ⟨hnone, by omega, by omega⟩
    · next hfree =>
      cases h
      exact ⟨Option.not_isSome_iff_eq_none.mp hfree, Int.le_refl _, by omega⟩

theorem lookup_filter (table : List (Int × Nat)) (id j : Int) :
    (table.filter fun e => e.1 ≠ id).lookup j = if j = id then none else table.lookup j := by
  induction table with
  | nil => simp
  | cons e table ih =>
    obtain ⟨key, t⟩ := e
    by_cases hkey : key = id
    · subst hkey
      rw [List.filter_cons_of_neg (by simp), ih, List.lookup_cons]
      by_cases hj : j = key
      · simp [hj]
      · simp [hj, beq_false_of_ne hj]
    · rw [List.filter_cons_of_pos (by simpa using hkey), List.lookup_cons, List.lookup_cons, ih]
      by_cases hj : j = key
      · simp [hj, hkey]
      · simp only [beq_false_of_ne hj]

theorem toInt_id (undefined : Number → Int) {id : Int} (h : 1 ≤ id ∧ id ≤ intMax) :
    toInt undefined (.finite id) = id := by
  have hlow : ((intMin - 1 : Int) : Rat) < id :=
    Rat.intCast_lt_intCast.mpr (Int.lt_of_lt_of_le (by decide) h.1)
  have hhigh : (id : Rat) < ((intMax + 1 : Int) : Rat) :=
    Rat.intCast_lt_intCast.mpr (Int.lt_add_one_of_le h.2)
  simp only [toInt, if_pos (And.intro hlow hhigh)]
  simp

namespace Timeouts
variable {undefined : Number → Int}

theorem returned_some {s : Timeouts} {n : Number} {r : Timer} (h : s.returned n = some r) :
    r ∈ s.timers ∧ n = .finite r.id := by
  refine ⟨List.mem_of_find?_eq_some h, ?_⟩
  simpa [Timer.named] using List.find?_some h

theorem returned_newest {s : Timeouts} (hs : s.Inv) {r : Timer} (hr : r ∈ s.timers)
    (hopen : r.cleared = false) : s.returned (.finite r.id) = some r := by
  obtain ⟨newer, older, hsplit⟩ := List.append_of_mem hr
  have hnewest := hs.newest
  rw [hsplit] at hnewest
  refine List.find?_eq_some_iff_append.mpr ⟨by simp [Timer.named], newer, older, hsplit, fun r' hr' => ?_⟩
  have hpair := (List.pairwise_append.mp hnewest).2.2 r' hr' r (List.mem_cons_self ..)
  by_cases hid : r'.id = r.id
  · rw [hpair hid] at hopen
    cases hopen
  · have hne : (r.id : Rat) ≠ r'.id := fun h => hid (Rat.intCast_inj.mp h).symm
    simp [Timer.named, hne]

theorem clears_of_current {s : Timeouts} (hs : s.Inv) {n : Number}
    (h : s.current undefined (.clearTimeout n)) : s.Clears undefined n where
  only t ht := by
    obtain ⟨hn, hlive⟩ := h t ht
    have hknown := hs.known _ t ht
    have hnewest := returned_newest hs hknown rfl
    rw [← hn] at hnewest
    exact ⟨⟨_, hnewest, rfl⟩, hlive⟩
  unended r k hr hk hopen := by
    obtain ⟨hmem, rfl⟩ := returned_some hr
    obtain ⟨k', hk', hcleared⟩ := hs.tasks r hmem
    cases hk.symm.trans hk'
    have hun : r.cleared = false := by
      by_contra hc
      exact hopen (.inr (hcleared (by simpa using hc)))
    rw [aborts, toInt_id undefined (hs.range r hmem)]
    exact hs.listed r hmem hun

theorem current_of_clears {s : Timeouts} (hs : s.Inv) {n : Number} (h : s.Clears undefined n) :
    s.current undefined (.clearTimeout n) := by
  intro t ht
  obtain ⟨⟨r, hr, -⟩, hlive⟩ := h.only t ht
  obtain ⟨hmem, rfl⟩ := returned_some hr
  rw [toInt_id undefined (hs.range r hmem)]
  exact ⟨rfl, hlive⟩

theorem inv_distinct {s : Timeouts} (hs : s.Inv) : s.Distinct := by
  refine List.pairwise_map.mpr (List.pairwise_filter.mpr (hs.newest.imp fun {r r'} himp => ?_))
  intro _ hpending hid
  simp [pending, himp hid] at hpending

theorem pool_inv {s : Timeouts} (hs : s.Inv) {l : Label} {pool : Scheduler}
    (h : pools.step s.pool l = some pool) : Inv { s with pool } := by
  have hm := Scheduler.step_moves hs.coherent h
  refine ⟨step_coherent l hs.coherent h, hs.listed, hs.known, hs.newest, hs.range, fun r hr => ?_⟩
  obtain ⟨k, hk, hcleared⟩ := hs.tasks r hr
  obtain ⟨k', as, hk', hlog, -⟩ := Scheduler.moves_task hm hk
  refine ⟨k', hk', fun hc => ?_⟩
  rw [Task.everAborted, hlog]
  exact List.mem_append_left _ (hcleared hc)

theorem schedule_tasks (s : Scheduler) :
    (s.scheduleTask true).tasks = s.tasks ++ [.new .task true] := by
  rw [Scheduler.scheduleTask, schedule_eq]

theorem setTimeout_inv {s s' : Timeouts} (hs : s.Inv) (h : s.setTimeout = some s') : s'.Inv := by
  obtain ⟨id, hid, rfl⟩ := Option.map_eq_some_iff.mp h
  obtain ⟨hfree, hone, hmax⟩ := find_some hid
  have hcleared : ∀ r ∈ s.timers, r.id = id → r.cleared = true := by
    intro r hr hrid
    by_contra hc
    have hlisted := hs.listed r hr (by simpa using hc)
    rw [hrid, hfree] at hlisted
    cases hlisted
  refine ⟨?_, fun r hr hopen => ?_, fun j t hj => ?_, ?_, fun r hr => ?_, fun r hr => ?_⟩
  · exact step_coherent (.scheduleTask true) hs.coherent rfl
  · rcases List.mem_cons.mp hr with rfl | hr
    · exact List.lookup_cons_self
    · rw [List.lookup_cons]
      by_cases hrid : r.id = id
      · rw [hcleared r hr hrid] at hopen
        cases hopen
      · rw [beq_false_of_ne hrid]
        exact hs.listed r hr hopen
  · rw [List.lookup_cons] at hj
    split at hj
    · next heq =>
      cases hj
      rw [eq_of_beq heq]
      exact List.mem_cons_self ..
    · exact List.mem_cons_of_mem _ (hs.known j t hj)
  · exact List.pairwise_cons.mpr ⟨fun r hr heq => hcleared r hr heq.symm, hs.newest⟩
  · rcases List.mem_cons.mp hr with rfl | hr
    · have hle : id ≤ intMax := by
        have hlt : id < 1 + intMax := hmax
        omega
      exact ⟨hone, hle⟩
    · exact hs.range r hr
  · rw [schedule_tasks]
    rcases List.mem_cons.mp hr with rfl | hr
    · exact ⟨_, List.getElem?_concat_length, nofun⟩
    · obtain ⟨k, hk, hc⟩ := hs.tasks r hr
      exact ⟨k, by rw [List.getElem?_append_left (List.getElem?_eq_some_iff.mp hk).1]; exact hk, hc⟩

theorem abort_tasks {s : Scheduler} {t u : Nat} {k k' : Task} (hk : s.tasks[u]? = some k)
    (ht : s.object t = some k') : ∃ k₁, (abort s t).tasks[u]? = some k₁ ∧
      (k.everAborted → k₁.everAborted) ∧ (u = t → k₁.everAborted) := by
  have habort : abort s t = s.setTask t k'.abort := by simp [abort, Tasks.step, ht]
  have hlt := (List.getElem?_eq_some_iff.mp hk).1
  have hstored : k'.abort.everAborted := by simp [Task.everAborted, Task.abort, Task.store, Task.record]
  rw [habort]
  by_cases hut : t = u
  · subst hut
    exact ⟨_, List.getElem?_set_self hlt, fun _ => hstored, fun _ => hstored⟩
  · refine ⟨k, ?_, id, fun h => absurd h.symm hut⟩
    simp only [Scheduler.setTask, List.getElem?_set_ne hut]
    exact hk

@[simp] theorem clear_id (n : Number) (r : Timer) : (r.clear n).id = r.id := rfl

@[simp] theorem clear_task (n : Number) (r : Timer) : (r.clear n).task = r.task := rfl

theorem clear_cleared (n : Number) (r : Timer) :
    (r.clear n).cleared = true ↔ r.cleared = true ∨ n = .finite r.id := by
  simp [Timer.clear, Timer.named]

theorem clear_newest {timers : List Timer} (n : Number)
    (h : timers.Pairwise fun r r' => r.id = r'.id → r'.cleared = true) :
    (timers.map (Timer.clear n)).Pairwise fun r r' => r.id = r'.id → r'.cleared = true :=
  List.pairwise_map.mpr (h.imp fun himp hid => (clear_cleared n _).mpr (.inl (himp hid)))

theorem clearTimeout_inv {s : Timeouts} (hs : s.Inv) {n : Number}
    (hl : s.current undefined (.clearTimeout n)) : (s.clearTimeout undefined n).Inv := by
  have hid {r : Timer} (hr : r ∈ s.timers) (hn : n = .finite r.id) : toInt undefined n = r.id :=
    hn ▸ toInt_id undefined (hs.range r hr)
  have hrange : ∀ r ∈ s.timers.map (Timer.clear n), 1 ≤ r.id ∧ r.id ≤ intMax := by
    intro r hr
    obtain ⟨r, hin, rfl⟩ := List.mem_map.mp hr
    exact hs.range r hin
  have hopen {r : Timer} (h : (r.clear n).cleared = false) : r.cleared = false ∧ n ≠ .finite r.id := by
    rw [← Bool.not_eq_true, clear_cleared, not_or] at h
    exact ⟨by simpa using h.1, h.2⟩
  have hkept {j : Int} {t : Nat} (ht : ⟨j, t, false⟩ ∈ s.timers) (hn : n ≠ .finite j) :
      ⟨j, t, false⟩ ∈ s.timers.map (Timer.clear n) :=
    List.mem_map.mpr ⟨_, ht, by simp [Timer.clear, Timer.named, hn]⟩
  cases hlook : s.globalTimeouts.lookup (toInt undefined n) with
  | none =>
    have hunlisted {r : Timer} (hr : r ∈ s.timers) (hn : n = .finite r.id) : r.cleared = true := by
      by_contra hc
      have hlisted := hs.listed r hr (by simpa using hc)
      rw [← hid hr hn, hlook] at hlisted
      cases hlisted
    have hclear : s.clearTimeout undefined n = { s with timers := s.timers.map (Timer.clear n) } := by
      simp only [clearTimeout, hlook]
    rw [hclear]
    refine ⟨hs.coherent, fun r hr hc => ?_, fun j t hj => ?_, clear_newest n hs.newest, hrange,
      fun r hr => ?_⟩
    · obtain ⟨r, hin, rfl⟩ := List.mem_map.mp hr
      exact hs.listed r hin (hopen hc).1
    · apply hkept (hs.known j t hj)
      intro hn
      cases hunlisted (hs.known j t hj) hn
    · obtain ⟨r, hin, rfl⟩ := List.mem_map.mp hr
      obtain ⟨k, hk, hcleared⟩ := hs.tasks r hin
      refine ⟨k, hk, fun hc => ?_⟩
      rcases (clear_cleared n r).mp hc with hc | hn
      · exact hcleared hc
      · exact hcleared (hunlisted hin hn)
  | some t =>
    obtain ⟨hn, hlive⟩ := hl t hlook
    obtain ⟨k', hk'⟩ := Option.isSome_iff_exists.mp hlive
    have hclear : s.clearTimeout undefined n = {
        pool := abort s.pool t
        globalTimeouts := s.globalTimeouts.filter fun e => e.1 ≠ toInt undefined n
        timers := s.timers.map (Timer.clear n) } := by
      simp only [clearTimeout, hlook]
    rw [hclear]
    refine ⟨?_, fun r hr hc => ?_, fun j u hj => ?_, clear_newest n hs.newest, hrange, fun r hr => ?_⟩
    · have hstep : pools.step s.pool (.abort t) = some (abort s.pool t) := by
        simp [abort, pools, Tasks.step, hk']
      exact step_coherent (.abort t) hs.coherent hstep
    · obtain ⟨r, hin, rfl⟩ := List.mem_map.mp hr
      have hne : r.id ≠ toInt undefined n := fun h => (hopen hc).2 (h ▸ hn)
      rw [lookup_filter, clear_id, if_neg hne]
      exact hs.listed r hin (hopen hc).1
    · rw [lookup_filter] at hj
      split at hj
      · cases hj
      · next hne =>
        refine hkept (hs.known j u hj) fun hj' => hne ?_
        exact (hid (hs.known j u hj) hj').symm
    · obtain ⟨r, hin, rfl⟩ := List.mem_map.mp hr
      obtain ⟨k, hk, hcleared⟩ := hs.tasks r hin
      obtain ⟨k₁, hk₁, hkeeps, hstored⟩ := abort_tasks hk hk'
      refine ⟨k₁, hk₁, fun hc => ?_⟩
      rcases (clear_cleared n r).mp hc with hc | hr'
      · exact hkeeps (hcleared hc)
      · cases hopen' : r.cleared with
        | true => exact hkeeps (hcleared hopen')
        | false =>
          have hlisted := hs.listed r hin hopen'
          rw [← hid hin hr', hlook] at hlisted
          exact hstored (Option.some.inj hlisted).symm

theorem timeouts_step (s : Timeouts) (l : TimeoutLabel) (s' : Timeouts) (hs : s.Inv)
    (hl : s.current undefined l) (h : (timeouts undefined).step s l = some s') : s'.Inv := by
  cases l with
  | pool l =>
    obtain ⟨pool, hpool, rfl⟩ := Option.map_eq_some_iff.mp h
    exact pool_inv hs hpool
  | setTimeout => exact setTimeout_inv hs h
  | clearTimeout n =>
    cases h
    exact clearTimeout_inv hs hl

theorem timeouts_start (myMaxThreads : Nat) : (start myMaxThreads).Inv :=
  ⟨start_coherent myMaxThreads, nofun, nofun, .nil, nofun, nofun⟩

theorem clears_iff {s : Timeouts} (hs : s.Inv) (l : TimeoutLabel) :
    s.clears undefined l ↔ s.current undefined l := by
  cases l with
  | clearTimeout n => exact ⟨current_of_clears hs, clears_of_current hs⟩
  | _ => exact Iff.rfl

theorem clears_iff_current (undefined : Number → Int) (myMaxThreads : Nat) (ls : List TimeoutLabel) :
    ((timeouts undefined).meets (clears · undefined) (start myMaxThreads) ls ∧
        (timeouts undefined).always Distinct (start myMaxThreads) ls) ↔
      (timeouts undefined).meets (current · undefined) (start myMaxThreads) ls := by
  have hiff := (timeouts undefined).meets_iff_meets (fun s l _ hs _ => clears_iff hs l)
    timeouts_step (timeouts_start myMaxThreads) ls
  constructor
  · exact fun h => hiff.mp h.1
  · intro h
    exact ⟨hiff.mpr h, (timeouts undefined).always_of_meets (fun _ => inv_distinct) timeouts_step
      (timeouts_start myMaxThreads) h⟩

theorem wrong_clear {myMaxThreads : Nat} {ls : List TimeoutLabel} {n : Number} {s : Timeouts} {t : Nat}
    (hs : (timeouts undefined).run (start myMaxThreads) ls = some s)
    (ht : s.aborts undefined n = some t) (hbad : s.returned n = none ∨ s.pool.object t = none) :
    ¬ (timeouts undefined).meets (clears · undefined) (start myMaxThreads)
        (ls ++ [.clearTimeout n]) := by
  intro h
  have hclears : s.Clears undefined n := ((timeouts undefined).meets_append h hs).1
  obtain ⟨⟨r, hr, -⟩, hlive⟩ := hclears.only t ht
  rcases hbad with hbad | hbad
  · rw [hbad] at hr
    cases hr
  · rw [hbad] at hlive
    cases hlive

def firedTimer : List TimeoutLabel :=
  .setTimeout :: ([.poll 0 false, .thread 0, .fire 0, .count 0, .push 0, .poll 0 true] ++
    List.replicate 12 (.thread 0) ++ [.finish 0] ++ List.replicate 4 (.thread 0) : List Label).map .pool

theorem fired_timer_aborted :
    ¬ ((timeouts fun _ => 0).meets (clears · fun _ => 0) (start 4)
          (firedTimer ++ [.clearTimeout (.finite 1)]) ∧
        (timeouts fun _ => 0).always Distinct (start 4) (firedTimer ++ [.clearTimeout (.finite 1)])) ∧
      ¬ ((timeouts fun _ => 0).meets (clears · fun _ => 0) (start 4)
          [.setTimeout, .clearTimeout (.finite (3 / 2))] ∧
        (timeouts fun _ => 0).always Distinct (start 4)
          [.setTimeout, .clearTimeout (.finite (3 / 2))]) := by
  have hfired : ∃ s, (timeouts fun _ => 0).run (start 4) firedTimer = some s ∧
      s.aborts (fun _ => 0) (.finite 1) = some 0 ∧ s.pool.object 0 = none := by
    exact ⟨_, rfl, by decide, by decide⟩
  have hhalf : ∃ s, (timeouts fun _ => 0).run (start 4) [.setTimeout] = some s ∧
      s.aborts (fun _ => 0) (.finite (3 / 2)) = some 0 ∧ s.returned (.finite (3 / 2)) = none := by
    exact ⟨_, rfl, by decide +kernel, by decide +kernel⟩
  constructor
  · obtain ⟨s, hs, ht, hdeleted⟩ := hfired
    exact fun h => wrong_clear hs ht (.inr hdeleted) h.1
  · obtain ⟨s, hs, ht, hnone⟩ := hhalf
    exact fun h => wrong_clear hs ht (.inl hnone) h.1

end Timeouts

end NexusRuntime.Globals
