import NexusRuntime.Scheduler.Settled
import Mathlib.Algebra.Group.Nat.Defs

namespace NexusRuntime.Tasks

open Transition Sequence

structure Member where
  task : Nat
  found : Bool
deriving DecidableEq, Repr

structure TaskGroup where
  pool : Scheduler
  members : List Member
  myFinished : UInt64
deriving DecidableEq, Repr

inductive GroupLabel where
  | pool (l : Label)
  | attach (t : Nat)
deriving DecidableEq, Repr

namespace Member

-- the member's completion or cancellation callback runs in this step
def calls (s : Scheduler) (l : Label) (m : Member) : Bool :=
  !m.found && (decide (s.completes l = some m.task) || decide (l.cancels = some m.task))

def ended (s : Scheduler) (m : Member) : Bool :=
  m.found || (s.tasks[m.task]?).any fun k =>
    decide (.completionHandlers ∈ k.log) || decide (.cancellationHandlers ∈ k.log)

structure Follows (m : Member) (s : Scheduler) (k : Task) : Prop where
  found : m.found = true → k.Ended
  registered : m.found = false → s.Settled m.task k

end Member

namespace TaskGroup

-- std::vector<AbstractTask *>::max_size()
def maxSize : Nat := 2 ^ 60 - 1

def start (myMaxThreads : Nat) : TaskGroup := ⟨.start myMaxThreads, [], 0⟩

def attach (g : TaskGroup) (t : Nat) (k : Task) : TaskGroup :=
  if k.myStatus = .finished ∨ k.myStatus = .aborted then
    { g with myFinished := g.myFinished + 1, members := g.members ++ [⟨t, true⟩] }
  else { g with members := g.members ++ [⟨t, false⟩] }

def step (g : TaskGroup) : GroupLabel → Option TaskGroup
  | .pool l => (pools.step g.pool l).map fun pool => { g with
      pool
      myFinished := g.myFinished + UInt64.ofNat (g.members.countP (Member.calls g.pool l)) }
  | .attach t => (g.pool.object t).bind fun k =>
    if g.members.length < maxSize then some (g.attach t k) else none

def awaits (g : TaskGroup) : Bool := decide (g.myFinished.toNat < g.members.length)

structure Exact (g : TaskGroup) : Prop where
  counted : g.myFinished.toNat = g.members.countP (Member.ended g.pool)
  awaited : g.awaits = false → ∀ m ∈ g.members, ∃ k ∈ g.pool.tasks[m.task]?, k.Ended

def timely (g : TaskGroup) : GroupLabel → Prop
  | .pool (.abort t) => ⟨t, false⟩ ∈ g.members → g.pool.timely (.abort t)
  | .attach t => ∀ k ∈ g.pool.object t, k.everAborted → k.myStatus.final = true
  | _ => True

instance decidableTimely (g : TaskGroup) : (l : GroupLabel) → Decidable (g.timely l)
  | .pool (.abort t) => inferInstanceAs (Decidable
      (⟨t, false⟩ ∈ g.members → g.pool.timely (.abort t)))
  | .attach t => inferInstanceAs (Decidable
      (∀ k ∈ g.pool.object t, .store .aborted ∈ k.log → k.myStatus.final = true))
  | .pool (.scheduleTask _) | .pool (.scheduleCoroutine _) | .pool (.fire _) | .pool (.count _)
  | .pool (.push _) | .pool (.cancel _) | .pool .hold | .pool .release | .pool .addThread
  | .pool .pause | .pool .resume | .pool (.poll _ _) | .pool (.thread _) | .pool (.yield _)
  | .pool (.finish _) => .isTrue trivial

structure Inv (g : TaskGroup) : Prop where
  custody : g.pool.Custody
  counted : g.myFinished = UInt64.ofNat (g.members.countP (Member.ended g.pool))
  size : g.members.length ≤ maxSize
  members : ∀ m ∈ g.members, ∃ k, g.pool.tasks[m.task]? = some k ∧ m.Follows g.pool k

end TaskGroup

def groups : System TaskGroup GroupLabel := ⟨TaskGroup.step⟩

namespace TaskGroup

theorem ended_of_completed {s : Scheduler} (hs : s.Custody) {t : Nat} {k : Task}
    (hk : s.tasks[t]? = some k) (hlog : .completionHandlers ∈ k.log) : k.myStatus.final = true := by
  rcases hs.exited t k hk hlog with hd | ⟨w, hw, hx⟩
  · exact (hs.lawful k (List.mem_of_getElem? hk)).deleted hd
  · have hp := hs.phases w hw t k hk
    have hc := hs.coherent w hw
    obtain ⟨c, frame⟩ := w
    cases frame with
    | iteration u p f =>
      cases p with
      | delete v =>
        have hvt : v = t := by simpa [Worker.exits] using hx
        exact hp ((hc.2 v rfl).symm.trans hvt)
      | _ => cases hx
    | _ => cases hx

theorem registered_uncalled {s s' : Scheduler} {l : Label} (hs : s.Custody) (hm : s.Moves l s')
    {t : Nat} {k : Task} (hk : s.tasks[t]? = some k) (hset : s.Settled t k)
    (hcall : s.completes l = some t ∨ l.cancels = some t) :
    .completionHandlers ∉ k.log ∧ .cancellationHandlers ∉ k.log := by
  rcases hcall with hc | hc
  · obtain ⟨i, f, rfl, hw⟩ := Scheduler.completes_cases hs.coherent hc
    have hin : (Worker.mk (some t) (.iteration t .exit f)).inHand t = true := by
      simp [Worker.inHand, Point.inHand]
    obtain ⟨k₁, hk₁⟩ := Option.isSome_iff_exists.mp (Scheduler.in_hand hs hw hin).2.2
    cases hk.symm.trans (Scheduler.object_some hk₁).1
    refine ⟨Scheduler.open_in_hand hs hw rfl (by simp) hk₁, ?_⟩
    rcases hset with hu | ⟨-, hearly⟩
    · exact hu.cancelled
    · cases Worker.point_of_early (hearly _ (List.mem_of_getElem? hw))
  · cases hm with
    | @cancel u k₁ hu hpos =>
      cases hc
      cases hk.symm.trans (Scheduler.object_some hu).1
      rcases hset with hun | ⟨ha, -⟩
      · exact absurd hun.aborting (Nat.ne_of_gt hpos)
      · rcases ha.split with ⟨before, -, hcancel, hcomplete, ⟨hlog, -⟩ | ⟨-, hzero⟩⟩
        · simp [hlog, hcancel, hcomplete]
        · omega
    | schedule hl => simp [(Scheduler.schedules_quiet (s := s) hl).2] at hc
    | idle hl hw | handled hl _ hw =>
      cases l with
      | cancel => cases hl
      | _ => cases hc
    | _ => cases hc

theorem ended_step {s s' : Scheduler} {l : Label} (hs : s.Custody) (hm : s.Moves l s') {m : Member}
    {k : Task} (hk : s.tasks[m.task]? = some k) (hset : m.found = false → s.Settled m.task k) :
    m.ended s' = (m.ended s || m.calls s l) ∧ ¬ (m.ended s = true ∧ m.calls s l = true) := by
  cases hfound : m.found with
  | true => simp [Member.ended, Member.calls, hfound]
  | false =>
    obtain ⟨k', as, hk', hlog, hadds⟩ := Scheduler.moves_task hm hk
    constructor
    · rw [Bool.eq_iff_iff]
      simp only [Member.ended, Member.calls, hfound, hk, hk', hlog, Bool.false_or, Option.any_some,
        Bool.not_false, Bool.true_and, Bool.or_eq_true, decide_eq_true_eq, List.mem_append,
        hadds.completion, hadds.cancellation]
      tauto
    · simp only [Member.ended, Member.calls, hfound, hk, Bool.false_or, Option.any_some,
        Bool.not_false, Bool.true_and, Bool.or_eq_true, decide_eq_true_eq]
      rintro ⟨hended, hcall⟩
      obtain ⟨hcompletion, hcancel⟩ := registered_uncalled hs hm hk (hset hfound) hcall
      exact hended.elim hcompletion hcancel

theorem pool_inv {g : TaskGroup} (hg : g.Inv) {l : Label} {s' : Scheduler}
    (hl : g.timely (.pool l)) (h : pools.step g.pool l = some s') :
    Inv { g with
      pool := s'
      myFinished := g.myFinished + UInt64.ofNat (g.members.countP (Member.calls g.pool l)) } := by
  have hm := Scheduler.step_moves hg.custody.coherent h
  have hstep : ∀ m ∈ g.members, m.ended s' = (m.ended g.pool || m.calls g.pool l) ∧
      ¬ (m.ended g.pool = true ∧ m.calls g.pool l = true) := by
    intro m hin
    obtain ⟨k, hk, hfollows⟩ := hg.members m hin
    exact ended_step hg.custody hm hk hfollows.registered
  refine ⟨Scheduler.moves_custody hg.custody hm, ?_, hg.size, fun m hin => ?_⟩
  · rw [hg.counted, countP_or_disjoint hstep, UInt64.ofNat_add]
  · obtain ⟨k, hk, hfollows⟩ := hg.members m hin
    obtain ⟨k', as, hk', hlog, -⟩ := Scheduler.moves_task hm hk
    refine ⟨k', hk', fun hfound => ?_, fun hfound => ?_⟩
    · simp only [Task.Ended, Task.ranToEnd, Task.everAborted, hlog]
      exact (hfollows.found hfound).imp (List.mem_append_left _) (List.mem_append_left _)
    · refine Scheduler.moves_settled hg.custody hm hk (hfollows.registered hfound) ?_ k' hk'
      rintro rfl
      exact hl (by rw [← hfound]; exact hin)

theorem add_members {g : TaskGroup} (hg : g.Inv) {m : Member} {k : Task}
    (hk : g.pool.tasks[m.task]? = some k) (hfollows : m.Follows g.pool k) :
    ∀ m' ∈ g.members ++ [m], ∃ k, g.pool.tasks[m'.task]? = some k ∧ m'.Follows g.pool k := by
  exact forall_snoc hg.members ⟨k, hk, hfollows⟩

theorem attach_inv {g : TaskGroup} (hg : g.Inv) {t : Nat} {k : Task} (hl : g.timely (.attach t))
    (hk : g.pool.object t = some k) (hsize : g.members.length < maxSize) : (g.attach t k).Inv := by
  obtain ⟨hkt, hlive⟩ := Scheduler.object_some hk
  have hlawful := hg.custody.lawful k (List.mem_of_getElem? hkt)
  have hlen (m : Member) : (g.members ++ [m]).length ≤ maxSize := by
    rw [List.length_append, List.length_singleton]
    exact hsize
  have hadd (m : Member) (hm : m.task = t) (hfollows : m.Follows g.pool k) :=
    add_members hg (hm ▸ hkt) hfollows
  simp only [attach]
  split
  · next hfinal =>
    have hfinal : k.myStatus.final = true := by rcases hfinal with h | h <;> rw [h] <;> rfl
    refine ⟨hg.custody, ?_, hlen _,
      hadd ⟨t, true⟩ rfl ⟨fun _ => hlawful.ended hfinal, by simp⟩⟩
    rw [hg.counted, List.countP_append, UInt64.ofNat_add]
    rfl
  · next hopen =>
    have hopen : k.myStatus.final = false := by
      revert hopen
      cases k.myStatus <;> simp [Status.final]
    have hun : k.Unaborted := hlawful.untouched fun ha => by simp [hl k hk ha] at hopen
    have hcompletion : .completionHandlers ∉ k.log := by
      intro hlog
      rw [ended_of_completed hg.custody hkt hlog] at hopen
      cases hopen
    have hunended : Member.ended g.pool ⟨t, false⟩ = false := by
      simp [Member.ended, hkt, hcompletion, hun.cancelled]
    refine ⟨hg.custody, ?_, hlen _,
      hadd ⟨t, false⟩ rfl ⟨by simp, fun _ => .inl hun⟩⟩
    rw [hg.counted, List.countP_append, List.countP_singleton, hunended]
    rfl

end TaskGroup

end NexusRuntime.Tasks
