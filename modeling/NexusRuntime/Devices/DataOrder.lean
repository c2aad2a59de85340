import NexusRuntime.Devices.Outstanding
import NexusRuntime.Scheduler.QueueOrder

namespace NexusRuntime.Devices

open Transition Tasks Sequence

-- where one receive loop stands; task: the one whose scheduleTask has been called last
inductive Loop where
  | armed
  | emitting (chunk : Nat) (next : TcpSocket.Next) (task : Option Nat)
  | rescheduled (chunk : Nat)
  | stopped
deriving DecidableEq, Repr

structure Handler where
  loop : Nat
  chunk : Nat
  task : Nat
deriving DecidableEq, Repr

structure DataOrder where
  pool : Scheduler
  received : Nat
  loops : List Loop
  handlers : List Handler

inductive DataLabel where
  | pool (l : Label)
  | resume (r : Reception)
  | received (j : Nat) (r : Reception)
  | again (j : Nat) (r : Reception)
  | emit (j : Nat)
  | returns (j : Nat)

def Reception.data (r : Reception) : Bool :=
  r.ec.isNone && r.buffer.any fun b => !b.bytes.isEmpty

namespace Loop

def after (chunk : Nat) : TcpSocket.Next → Loop
  | .receive _ => .armed
  | .schedule _ => .rescheduled chunk
  | .stop => .stopped

def handle (chunk : Nat) (r : Reception) : Loop :=
  if r.data then .emitting chunk r.tcpNext none else after chunk r.tcpNext

def task : Loop → Option Nat
  | .emitting _ _ t => t
  | _ => none

def bound (received : Nat) : Loop → Nat
  | .emitting chunk _ _ | .rescheduled chunk => chunk
  | _ => received

end Loop

namespace DataOrder

def start (myMaxThreads : Nat) : DataOrder := ⟨.start myMaxThreads, 0, [], []⟩

-- the TaskGroup of the emission is dropped: nothing else names its tasks
def names (s : DataOrder) : Label → Prop
  | .abort t => ∃ h ∈ s.handlers, h.task = t
  | _ => False

instance decidableNames (s : DataOrder) : (l : Label) → Decidable (s.names l)
  | .abort t => inferInstanceAs (Decidable (∃ h ∈ s.handlers, h.task = t))
  | .scheduleTask _ | .scheduleCoroutine _ | .fire _ | .count _ | .push _ | .cancel _ | .hold
  | .release | .addThread | .pause | .resume | .poll _ _ | .thread _ | .yield _ | .finish _ =>
    .isFalse id

-- scheduleTask returns when its task is in the queue
def idle (s : DataOrder) (task : Option Nat) : Prop := ∀ t ∈ task, t ∉ s.pool.unpushed

instance decidableIdle (s : DataOrder) (task : Option Nat) : Decidable (s.idle task) :=
  inferInstanceAs (Decidable (∀ t ∈ task, t ∉ s.pool.unpushed))

def emit (s : DataOrder) (j chunk : Nat) (next : TcpSocket.Next) : DataOrder where
  pool := s.pool.scheduleTask false
  received := s.received
  loops := s.loops.set j (.emitting chunk next (some s.pool.tasks.length))
  handlers := s.handlers ++ [⟨j, chunk, s.pool.tasks.length⟩]

def step (s : DataOrder) : DataLabel → Option DataOrder
  | .pool l => if s.names l then none else (pools.step s.pool l).map fun pool => { s with pool }
  -- resume() calls the handler itself the first time, without a buffer
  | .resume r => some { s with loops := s.loops ++ [.after s.received r.tcpNext] }
  | .received j r => (s.loops[j]?).bind fun
    | .armed => some { s with
      received := s.received + 1
      loops := s.loops.set j (.handle s.received r) }
    | _ => none
  | .again j r => (s.loops[j]?).bind fun
    | .rescheduled chunk => some { s with loops := s.loops.set j (.handle chunk r) }
    | _ => none
  | .emit j => (s.loops[j]?).bind fun
    | .emitting chunk next task => if s.idle task then some (s.emit j chunk next) else none
    | _ => none
  | .returns j => (s.loops[j]?).bind fun
    | .emitting chunk next task =>
      if s.idle task then some { s with loops := s.loops.set j (.after chunk next) } else none
    | _ => none

def earlier (h g : Handler) : Prop := h.loop = g.loop ∧ h.chunk < g.chunk

def begun (s : DataOrder) (h : Handler) : Prop := ∃ k ∈ s.pool.tasks[h.task]?, .start ∈ k.log

def called (s : DataOrder) (h : Handler) : Prop := ∃ k ∈ s.pool.tasks[h.task]?, k.ranToEnd

def Ordered (s : DataOrder) : Prop :=
  ∀ h ∈ s.handlers, ∀ g ∈ s.handlers, earlier h g → s.begun g → s.called h

def starting (w : Worker) (g : Handler) : Prop :=
  ∃ f, w = ⟨some g.task, .iteration g.task (.run .start) f⟩

def alone (s : DataOrder) : DataLabel → Prop
  | .pool (.thread i) => ∀ w ∈ s.pool.workers[i]?, ∀ g ∈ s.handlers, starting w g →
      ∀ h ∈ s.handlers, earlier h g → ∀ v ∈ s.pool.workers, v.calling h.task = false
  | _ => True

def before (s : DataOrder) (t u : Nat) : Prop :=
  ∃ h ∈ s.handlers, ∃ g ∈ s.handlers, h.task = t ∧ g.task = u ∧ earlier h g

structure Fits (s : DataOrder) (h : Handler) : Prop where
  plain : ∃ k, s.pool.tasks[h.task]? = some k ∧ s.pool.Plain h.task k
  loop : ∃ loop, s.loops[h.loop]? = some loop ∧ h.chunk ≤ loop.bound s.received ∧
    (h.task ∈ s.pool.unpushed → loop.task = some h.task)

structure Inv (s : DataOrder) : Prop where
  custody : s.pool.Custody
  handlers : ∀ h ∈ s.handlers, s.Fits h
  distinct : ∀ h ∈ s.handlers, ∀ g ∈ s.handlers, h.task = g.task → h = g
  bounds : ∀ loop ∈ s.loops, loop.bound s.received ≤ s.received
  lined : s.pool.Lined s.before

end DataOrder

def receptions : System DataOrder DataLabel := ⟨DataOrder.step⟩

namespace DataOrder

theorem bound_mono (loop : Loop) {r r' : Nat} (h : r ≤ r') : loop.bound r ≤ loop.bound r' := by
  cases loop with
  | armed | stopped => exact h
  | _ => exact Nat.le_refl _

theorem after_bound (next : TcpSocket.Next) {chunk r : Nat} (h : chunk ≤ r) :
    chunk ≤ (Loop.after chunk next).bound r ∧ (Loop.after chunk next).bound r ≤ r := by
  cases next with
  | schedule => exact ⟨Nat.le_refl _, h⟩
  | _ => exact ⟨h, Nat.le_refl _⟩

theorem handle_bound (reception : Reception) {chunk r : Nat} (h : chunk ≤ r) :
    chunk ≤ (Loop.handle chunk reception).bound r ∧ (Loop.handle chunk reception).bound r ≤ r := by
  simp only [Loop.handle]
  split
  · exact ⟨Nat.le_refl _, h⟩
  · exact after_bound _ h

theorem task_lt {s : DataOrder} (hs : s.Inv) {h : Handler} (hh : h ∈ s.handlers) :
    h.task < s.pool.tasks.length := by
  obtain ⟨k, hk, -⟩ := (hs.handlers h hh).plain
  exact (List.getElem?_eq_some_iff.mp hk).1

theorem own_loop {s : DataOrder} (hs : s.Inv) {j : Nat} {loop : Loop} (hj : s.loops[j]? = some loop)
    {h : Handler} (hh : h ∈ s.handlers) (hloop : h.loop = j) :
    h.chunk ≤ loop.bound s.received ∧ (h.task ∈ s.pool.unpushed → loop.task = some h.task) := by
  obtain ⟨own, hown, hfits⟩ := (hs.handlers h hh).loop
  rw [hloop, hj] at hown
  cases hown
  exact hfits

theorem loop_inv {s : DataOrder} (hs : s.Inv) {j r : Nat} {loop loop' : Loop}
    (hj : s.loops[j]? = some loop) (hr : s.received ≤ r)
    (hbound : loop.bound s.received ≤ loop'.bound r ∧ loop'.bound r ≤ r) (hidle : s.idle loop.task) :
    Inv { s with received := r, loops := s.loops.set j loop' } := by
  refine ⟨hs.custody, fun h hh => ?_, hs.distinct, ?_, hs.lined⟩
  · obtain ⟨own, hown, hchunk, htask⟩ := (hs.handlers h hh).loop
    refine ⟨(hs.handlers h hh).plain, ?_⟩
    by_cases hjh : j = h.loop
    · subst hjh
      cases hj.symm.trans hown
      refine ⟨loop', ?_, Nat.le_trans hchunk hbound.1, fun hin => ?_⟩
      · exact List.getElem?_set_self (List.getElem?_eq_some_iff.mp hj).1
      · exact absurd hin (hidle _ (htask hin))
    · refine ⟨own, ?_, Nat.le_trans hchunk (bound_mono own hr), htask⟩
      exact (List.getElem?_set_ne hjh).trans hown
  · refine forall_replace (fun own hown => ?_) hbound.2
    cases own with
    | armed | stopped => exact Nat.le_refl _
    | _ => exact Nat.le_trans (hs.bounds _ hown) hr

theorem resume_inv {s : DataOrder} (hs : s.Inv) (next : TcpSocket.Next) :
    Inv { s with loops := s.loops ++ [.after s.received next] } := by
  refine ⟨hs.custody, fun h hh => ?_, hs.distinct, fun loop hloop => ?_, hs.lined⟩
  · obtain ⟨own, hown, hfits⟩ := (hs.handlers h hh).loop
    refine ⟨(hs.handlers h hh).plain, own, ?_, hfits⟩
    exact (List.getElem?_append_left (List.getElem?_eq_some_iff.mp hown).1).trans hown
  · rcases List.mem_append.mp hloop with hloop | hloop
    · exact hs.bounds loop hloop
    · cases List.mem_singleton.mp hloop
      exact (after_bound next (Nat.le_refl _)).2

theorem pool_inv {s : DataOrder} (hs : s.Inv) {l : Label} {pool : Scheduler} (hl : ¬ s.names l)
    (h : s.pool.Moves l pool) : Inv { s with pool } := by
  refine ⟨Scheduler.moves_custody hs.custody h, fun g hg => ?_, hs.distinct, hs.bounds, ?_⟩
  · obtain ⟨⟨k, hk, hplain⟩, own, hown, hchunk, htask⟩ := hs.handlers g hg
    obtain ⟨k', -, hk', -, -⟩ := Scheduler.moves_task h hk
    have hne : l ≠ .abort g.task := by
      rintro rfl
      exact hl ⟨g, hg, rfl⟩
    refine ⟨⟨k', hk', Scheduler.moves_plain hs.custody h hk hne hplain k' hk'⟩, own, hown, hchunk, ?_⟩
    exact fun hin => htask (Scheduler.moves_unpushed h hk hin)
  · apply Scheduler.moves_lined hs.custody hs.lined h
    intro t u hr
    obtain ⟨g, hg, -, -, rfl, -, -⟩ := hr
    obtain ⟨k, hk, hplain⟩ := (hs.handlers g hg).plain
    exact ⟨(List.getElem?_eq_some_iff.mp hk).1, hplain.workers⟩

theorem emit_inv {s : DataOrder} (hs : s.Inv) {j chunk : Nat} {next : TcpSocket.Next}
    {task : Option Nat} (hj : s.loops[j]? = some (.emitting chunk next task)) (hidle : s.idle task) :
    (s.emit j chunk next).Inv := by
  have hmoves : s.pool.Moves (.scheduleTask false) (s.pool.scheduleTask false) := .schedule rfl
  have hlast (h : Handler) (hh : h ∈ s.handlers) (hloop : h.loop = j) := own_loop hs hj hh hloop
  have hpushed (h : Handler) (hh : h ∈ s.handlers) (hloop : h.loop = j) : h.task ∉ s.pool.unpushed :=
    fun hin => hidle _ ((hlast h hh hloop).2 hin) hin
  refine ⟨Scheduler.moves_custody hs.custody hmoves, fun h hh => ?_, fun h hh g hg htask => ?_, ?_, ?_⟩
  · rcases List.mem_append.mp hh with hin | hnew
    · obtain ⟨⟨k, hk, hplain⟩, own, hown, hchunk, htask⟩ := hs.handlers h hin
      obtain ⟨k', -, hk', -, -⟩ := Scheduler.moves_task hmoves hk
      refine ⟨⟨k', hk', Scheduler.moves_plain hs.custody hmoves hk nofun hplain k' hk'⟩, ?_⟩
      by_cases hjh : j = h.loop
      · subst hjh
        refine ⟨_, List.getElem?_set_self (List.getElem?_eq_some_iff.mp hj).1, (hlast h hin rfl).1, ?_⟩
        exact fun hout => absurd (Scheduler.moves_unpushed hmoves hk hout) (hpushed h hin rfl)
      · refine ⟨own, (List.getElem?_set_ne hjh).trans hown, hchunk, fun hout => ?_⟩
        exact htask (Scheduler.moves_unpushed hmoves hk hout)
    · cases List.mem_singleton.mp hnew
      refine ⟨⟨.new .task true, ?_, Scheduler.schedule_plain hs.custody⟩, _,
        List.getElem?_set_self (List.getElem?_eq_some_iff.mp hj).1, Nat.le_refl _, fun _ => rfl⟩
      simp only [emit, Scheduler.scheduleTask, schedule_eq]
      exact List.getElem?_concat_length
  · rcases List.mem_append.mp hh with hh | hh
    · rcases List.mem_append.mp hg with hg | hg
      · exact hs.distinct h hh g hg htask
      · cases List.mem_singleton.mp hg
        exact absurd htask (Nat.ne_of_lt (task_lt hs hh))
    · cases List.mem_singleton.mp hh
      rcases List.mem_append.mp hg with hg | hg
      · exact absurd htask (Nat.ne_of_gt (task_lt hs hg))
      · exact (List.mem_singleton.mp hg).symm
  · exact forall_replace hs.bounds (hs.bounds (.emitting chunk next task) (List.mem_of_getElem? hj))
  · refine Scheduler.schedule_lined hs.lined (Scheduler.fresh_waiting hs.custody) .task true false
      fun t u hr => ?_
    obtain ⟨h, hh, g, hg, rfl, rfl, hloop, hchunk⟩ := hr
    rcases List.mem_append.mp hh with hh | hh
    · refine ⟨Nat.ne_of_lt (task_lt hs hh), ?_⟩
      rcases List.mem_append.mp hg with hg | hg
      · exact .inl ⟨h, hh, g, hg, rfl, rfl, hloop, hchunk⟩
      · cases List.mem_singleton.mp hg
        exact .inr ⟨hpushed h hh hloop, rfl⟩
    · cases List.mem_singleton.mp hh
      rcases List.mem_append.mp hg with hg | hg
      · exact absurd hchunk (Nat.not_lt.mpr (hlast g hg hloop.symm).1)
      · cases List.mem_singleton.mp hg
        exact absurd hchunk (Nat.lt_irrefl _)

theorem data_inv {s s' : DataOrder} {l : DataLabel} (hs : s.Inv) (h : receptions.step s l = some s') :
    s'.Inv := by
  cases l with
  | pool l =>
    obtain ⟨hl, h⟩ := Option.ite_none_left_eq_some.mp h
    obtain ⟨pool, hpool, rfl⟩ := Option.map_eq_some_iff.mp h
    exact pool_inv hs hl (Scheduler.step_moves hs.custody.coherent hpool)
  | resume r =>
    cases h
    exact resume_inv hs r.tcpNext
  | received j r =>
    obtain ⟨loop, hj, h⟩ := Option.bind_eq_some_iff.mp h
    cases loop with
    | armed =>
      cases h
      have hbound := handle_bound r (Nat.le_refl s.received)
      refine loop_inv hs hj (Nat.le_succ _) ⟨?_, ?_⟩ nofun
      · exact Nat.le_trans hbound.1 (bound_mono _ (Nat.le_succ _))
      · exact (handle_bound r (Nat.le_succ _)).2
    | _ => cases h
  | again j r =>
    obtain ⟨loop, hj, h⟩ := Option.bind_eq_some_iff.mp h
    cases loop with
    | rescheduled chunk =>
      cases h
      have hchunk := hs.bounds _ (List.mem_of_getElem? hj)
      exact loop_inv hs hj (Nat.le_refl _) (handle_bound r hchunk) nofun
    | _ => cases h
  | emit j =>
    obtain ⟨loop, hj, h⟩ := Option.bind_eq_some_iff.mp h
    cases loop with
    | emitting chunk next task =>
      obtain ⟨hidle, h⟩ := Option.ite_none_right_eq_some.mp h
      cases h
      exact emit_inv hs hj hidle
    | _ => cases h
  | returns j =>
    obtain ⟨loop, hj, h⟩ := Option.bind_eq_some_iff.mp h
    cases loop with
    | emitting chunk next task =>
      obtain ⟨hidle, h⟩ := Option.ite_none_right_eq_some.mp h
      cases h
      have hchunk := hs.bounds _ (List.mem_of_getElem? hj)
      exact loop_inv hs hj (Nat.le_refl _) (after_bound next hchunk) hidle
    | _ => cases h

theorem called_step {s : DataOrder} {l : Label} {pool : Scheduler} (h : s.pool.Moves l pool)
    {g : Handler} (hg : s.called g) : called { s with pool } g := by
  obtain ⟨k, hk, hran⟩ := hg
  obtain ⟨k', as, hk', hlog, -⟩ := Scheduler.moves_task h hk
  refine ⟨k', hk', ?_⟩
  rw [Task.ranToEnd, hlog]
  exact List.mem_append_left _ hran

theorem called_before {s : DataOrder} (hs : s.Inv) {i : Nat} {f : List Fate} {g h : Handler}
    (hg : g ∈ s.handlers) (hh : h ∈ s.handlers) (he : earlier h g)
    (hw : s.pool.workers[i]? = some ⟨some g.task, .iteration g.task (.run .start) f⟩)
    (halone : ∀ v ∈ s.pool.workers, v.calling h.task = false) : s.called h := by
  obtain ⟨k, hk, hplain⟩ := (hs.handlers h hh).plain
  have hin : (Worker.mk (some g.task) (.iteration g.task (.run .start) f)).inHand g.task = true := by
    simp [Worker.inHand, Point.inHand]
  have hgone : g.task ∉ s.pool.waiting := List.count_eq_zero.mp (Scheduler.in_hand hs.custody hw hin).1
  -- the queue keeps the order of the pushes: what was pushed before g has been popped before it
  have hpopped : h.task ∉ s.pool.waiting := fun hwait =>
    hgone (hs.lined.waiting _ _ ⟨h, hh, g, hg, rfl, rfl, he⟩ hwait)
  rcases Scheduler.plain_called hs.custody hk hplain hpopped with hran | ⟨v, hv, hc⟩
  · exact ⟨k, hk, hran⟩
  · rw [halone v hv] at hc
    cases hc

theorem pool_ordered {s : DataOrder} (hs : s.Inv) (ho : s.Ordered) {l : Label} {pool : Scheduler}
    (h : s.pool.Moves l pool) (hl : s.alone (.pool l)) : Ordered { s with pool } := by
  intro g hg u hu he hbegun
  obtain ⟨k', hk', hstart⟩ := hbegun
  obtain ⟨k, hk, -⟩ := (hs.handlers u hu).plain
  apply called_step h
  rcases Scheduler.moves_logs h hk hk' (c := .start) rfl hstart with hstart | ⟨i, f, rfl, hw⟩
  · exact ho g hg u hu he ⟨k, hk, hstart⟩
  · exact called_before hs hu hg he hw (hl _ hw u hu ⟨f, rfl⟩ g hg he)

theorem emit_ordered {s : DataOrder} (hs : s.Inv) (ho : s.Ordered) {j chunk : Nat}
    {next : TcpSocket.Next} {task : Option Nat}
    (hj : s.loops[j]? = some (.emitting chunk next task)) : (s.emit j chunk next).Ordered := by
  have hmoves : s.pool.Moves (.scheduleTask false) (s.pool.scheduleTask false) := .schedule rfl
  have hnew : (s.emit j chunk next).pool.tasks = s.pool.tasks ++ [.new .task true] := by
    simp only [emit, Scheduler.scheduleTask, schedule_eq]
  intro g hg u hu he hbegun
  obtain ⟨k, hk, hstart⟩ := hbegun
  rw [hnew] at hk
  rcases List.mem_append.mp hu with hu | hu
  · rw [List.getElem?_append_left (task_lt hs hu)] at hk
    rcases List.mem_append.mp hg with hg | hg
    · exact called_step hmoves (ho g hg u hu he ⟨k, hk, hstart⟩)
    · cases List.mem_singleton.mp hg
      exact absurd he.2 (Nat.not_lt.mpr (own_loop hs hj hu he.1.symm).1)
  · cases List.mem_singleton.mp hu
    rw [List.getElem?_concat_length] at hk
    cases hk
    cases hstart

theorem data_ordered {s s' : DataOrder} {l : DataLabel} (hs : s.Inv) (ho : s.Ordered)
    (hl : s.alone l) (h : receptions.step s l = some s') : s'.Ordered := by
  cases l with
  | pool l =>
    obtain ⟨-, h⟩ := Option.ite_none_left_eq_some.mp h
    obtain ⟨pool, hpool, rfl⟩ := Option.map_eq_some_iff.mp h
    exact pool_ordered hs ho (Scheduler.step_moves hs.custody.coherent hpool) hl
  | resume r =>
    cases h
    exact ho
  | received j r | again j r =>
    obtain ⟨loop, hj, h⟩ := Option.bind_eq_some_iff.mp h
    cases loop <;> cases h
    exact ho
  | emit j =>
    obtain ⟨loop, hj, h⟩ := Option.bind_eq_some_iff.mp h
    cases loop with
    | emitting chunk next task =>
      obtain ⟨-, h⟩ := Option.ite_none_right_eq_some.mp h
      cases h
      exact emit_ordered hs ho hj
    | _ => cases h
  | returns j =>
    obtain ⟨loop, hj, h⟩ := Option.bind_eq_some_iff.mp h
    cases loop with
    | emitting chunk next task =>
      obtain ⟨-, h⟩ := Option.ite_none_right_eq_some.mp h
      cases h
      exact ho
    | _ => cases h

theorem alone_of_ordered {s s' : DataOrder} {l : DataLabel} (hs : s.Inv)
    (h : receptions.step s l = some s') (ho : s'.Ordered) : s.alone l := by
  cases l with
  | pool l =>
    obtain ⟨-, h⟩ := Option.ite_none_left_eq_some.mp h
    obtain ⟨pool, hpool, rfl⟩ := Option.map_eq_some_iff.mp h
    have hmoves := Scheduler.step_moves hs.custody.coherent hpool
    cases l with
    | thread i =>
      rintro w hw g hg ⟨f, rfl⟩ e he hearlier
      obtain ⟨k', hk', hran⟩ := ho e he g hg hearlier (Scheduler.start_logged hw hmoves)
      obtain ⟨k, hk, hplain⟩ := (hs.handlers e he).plain
      rcases Scheduler.moves_logs hmoves hk hk' (c := .finish) rfl hran with hran | ⟨i', f', hi, hw'⟩
      · exact (hplain.returned hran).2
      · cases hi
        exact absurd (hw.symm.trans hw') (by simp)
    | _ => trivial
  | _ => trivial

theorem start_inv (myMaxThreads : Nat) : (start myMaxThreads).Inv := by
  have hnone (t u : Nat) : ¬ (start myMaxThreads).before t u := by
    rintro ⟨h, hh, -⟩
    cases hh
  refine ⟨Scheduler.start_custody myMaxThreads, nofun, nofun, nofun, ?_⟩
  exact ⟨fun t u hr => absurd hr (hnone t u), .nil, fun t u hr => absurd hr (hnone t u)⟩

theorem ordered_iff_alone (myMaxThreads : Nat) (ls : List DataLabel) :
    receptions.always Ordered (start myMaxThreads) ls ↔
      receptions.meets alone (start myMaxThreads) ls := by
  have hstart : (start myMaxThreads).Inv ∧ (start myMaxThreads).Ordered :=
    ⟨start_inv myMaxThreads, nofun⟩
  exact receptions.always_iff_meets (fun (s : DataOrder) (hs : s.Inv ∧ s.Ordered) => hs.2)
    (fun _ _ _ hs h => alone_of_ordered hs.1 h)
    (fun _ _ _ hs hl h => ⟨data_inv hs.1 h, data_ordered hs.1 hs.2 hl h⟩) hstart ls

def bytesReceived : Reception := ⟨true, 0, .resumed, some ⟨0, [104]⟩, none, false⟩

def twoChunks : List DataLabel :=
  [.resume bytesReceived, .received 0 bytesReceived, .emit 0, .pool (.count 0), .pool (.push 0),
    .pool .addThread, .returns 0, .received 0 bytesReceived, .emit 0, .pool (.count 1),
    .pool (.push 1), .returns 0]

def overtaking : List DataLabel :=
  ([.poll 0 true, .thread 0, .thread 0, .poll 1 true] ++ List.replicate 12 (.thread 1) :
    List Label).map .pool

theorem later_chunk_first :
    ¬ receptions.always Ordered (start 2) (twoChunks ++ overtaking) ∧
      ∃ s, receptions.run (start 2) (twoChunks ++ overtaking) = some s ∧
        s.handlers = [⟨0, 0, 0⟩, ⟨0, 1, 1⟩] ∧ s.begun ⟨0, 1, 1⟩ ∧
          (s.pool.tasks[0]?).map Task.log = some [] := by
  have hlast : ∃ s, receptions.run (start 2) (twoChunks ++ overtaking) = some s ∧
      s.handlers = [⟨0, 0, 0⟩, ⟨0, 1, 1⟩] ∧ (∃ k ∈ s.pool.tasks[1]?, .start ∈ k.log) ∧
        (s.pool.tasks[0]?).map Task.log = some [] :=
    ⟨_, rfl, rfl, ⟨_, rfl, by decide⟩, rfl⟩
  obtain ⟨s, hs, hhandlers, hbegun, hlog⟩ := hlast
  refine ⟨fun h => ?_, s, hs, hhandlers, hbegun, hlog⟩
  have hordered := (receptions.always_iff_prefixes _ _ _).mp h _ List.prefix_rfl s hs
  have hcalled := hordered ⟨0, 0, 0⟩ (by simp [hhandlers]) ⟨0, 1, 1⟩ (by simp [hhandlers])
    ⟨rfl, by decide⟩ hbegun
  obtain ⟨k, hk, hran⟩ := hcalled
  rw [Option.mem_def.mp hk] at hlog
  rw [Task.ranToEnd, Option.some.inj hlog] at hran
  cases hran

end DataOrder

end NexusRuntime.Devices
