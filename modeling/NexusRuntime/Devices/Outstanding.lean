import NexusRuntime.Devices.TcpSocket
import NexusRuntime.Scheduler.Shutdown
import Mathlib.Algebra.Ring.Nat
import Mathlib.Data.List.Perm.Basic

namespace NexusRuntime.Tasks.Scheduler

open Transition Sequence

def frees (s : Scheduler) : Label → Nat
  | .release => 1
  | .thread i =>
    match s.workers[i]? with
    | some ⟨_, .iteration _ (.delete u) _⟩ => if (s.object u).any Task.held then 1 else 0
    | _ => 0
  | _ => 0

theorem frees_at {s : Scheduler} {i : Nat} {w : Worker} (hw : s.workers[i]? = some w)
    (h : ∀ t u f, w.frame ≠ .iteration t (.delete u) f) : s.frees (.thread i) = 0 := by
  obtain ⟨c, frame⟩ := w
  cases frame with
  | iteration t p f =>
    cases p with
    | delete u => exact absurd rfl (h t u f)
    | _ => simp [frees, hw]
  | _ => simp [frees, hw]

theorem frees_worker {s : Scheduler} {l : Label} {i : Nat} {w : Worker} (hl : l.worker = some i)
    (hw : s.workers[i]? = some w) (h : ∀ t u f, w.frame ≠ .iteration t (.delete u) f) :
    s.frees l = 0 := by
  cases l with
  | thread j =>
    cases hl
    exact frees_at hw h
  | poll | yield | finish => rfl
  | _ => cases hl

theorem setTask_held {s : Scheduler} {t : Nat} {k k' : Task} (hk : s.object t = some k)
    (hheld : k'.held = k.held) (hd : k'.deleted = k.deleted) :
    (s.setTask t k').tasks.countP Task.holds = s.tasks.countP Task.holds := by
  apply countP_replace_same (object_some hk).1
  simp only [Task.holds, hheld, hd]

theorem moves_held {s s' : Scheduler} {l : Label} (h : s.Moves l s') :
    ∃ taken, s'.held + s.frees l = s.held + taken ∧ (s.frees l = 0 ∨ taken = 0) := by
  have hsame (hfrees : s.frees l = 0) (hheld : s'.held = s.held) :
      ∃ taken, s'.held + s.frees l = s.held + taken ∧ (s.frees l = 0 ∨ taken = 0) :=
    ⟨0, by rw [hfrees, hheld], .inl hfrees⟩
  cases h with
  | @schedule l kind hold delayed hl =>
    have hfrees : s.frees l = 0 := by
      cases l with
      | scheduleTask | scheduleCoroutine => rfl
      | _ => cases hl
    refine ⟨if hold then 1 else 0, ?_, .inl hfrees⟩
    rw [hfrees, schedule_eq]
    simp only [held, List.countP_append, List.countP_singleton, Task.holds, Task.new, Bool.not_false,
      Bool.and_true]
    omega
  | hold =>
    refine ⟨1, ?_, .inl rfl⟩
    simp only [held, Scheduler.hold, frees]
    omega
  | release hh =>
    refine ⟨0, ?_, .inr rfl⟩
    simp only [held, Scheduler.release, frees]
    omega
  | abort hk => exact hsame rfl (congrArg (s.holders + ·) (setTask_held hk rfl rfl))
  | cancel hk => exact hsame rfl (congrArg (s.holders + ·) (setTask_held hk rfl rfl))
  | run hw hk =>
    rename_i c f k
    obtain ⟨status, suspended, as, hframe, -⟩ := k.proceed_frame c
    exact hsame (frees_at hw (by simp))
      (congrArg (s.holders + ·) (setTask_held hk (by rw [hframe]) (by rw [hframe])))
  | exit hw hk =>
    exact hsame (frees_at hw (by simp)) (congrArg (s.holders + ·) (setTask_held hk rfl rfl))
  | @delete i cur t f k hw hk =>
    have hfrees : s.frees (.thread i) = if k.held then 1 else 0 := by
      simp only [frees, hw, hk, Option.any_some]
    have hc := countP_replace Task.holds (object_some hk).1 { k with deleted := true }
    refine ⟨0, ?_, .inr rfl⟩
    have hlive : k.holds = k.held := by simp [Task.holds, (object_some hk).2]
    rw [hfrees, destroy_eq]
    simp only [Task.holds, Bool.not_true, Bool.and_false, Bool.false_eq_true, if_false] at hc
    simp only [Task.holds] at hlive
    simp only [hlive] at hc
    simp only [held, setWorker]
    omega
  | fire | count | push | addThread | pause | resume | stay => exact hsame rfl rfl
  | idle hl hw hi =>
    refine hsame (frees_worker hl hw fun t u f hframe => ?_) rfl
    simp only [Worker.idle, hframe] at hi
    cases hi
  | handled hl hc hw => exact hsame (frees_worker hl hw (by simp)) rfl
  | pop hw | activate hw | discount hw | reset hw | requeue hw | recount hw | deactivate hw
  | finish hw => exact hsame (frees_at hw (by simp)) rfl

theorem moves_holders {s s' : Scheduler} {l : Label} (h : s.Moves l s') (hl : l ≠ .release) :
    s.holders ≤ s'.holders := by
  cases h with
  | schedule => rw [schedule_eq]
  | hold => exact Nat.le_add_right _ _
  | release => exact absurd rfl hl
  | delete =>
    rw [destroy_eq]
    exact Nat.le_refl _
  | _ => exact Nat.le_refl _

theorem hold_run {s s' : Scheduler} {n : Nat} (hs : s.Sized)
    (h : machine.run s (List.replicate n .hold) = some s') :
    s'.Sized ∧ s'.holders = s.holders + n ∧ s'.held = s.held + n := by
  let Held (k : Nat) (t : Scheduler) : Prop :=
    t.Sized ∧ t.holders = s.holders + k ∧ t.held = s.held + k
  have hstep (k : Nat) (t u : Scheduler) (ht : Held k t) (hu : machine.step t .hold = some u) :
      Held (k + 1) u := by
    obtain ⟨hsized, hholders, hheld⟩ := ht
    refine ⟨sized_step _ _ _ hsized hu, ?_⟩
    cases (machine_step hu).1
    simp only [held, Scheduler.hold] at hheld ⊢
    omega
  have hrun := machine.run_replicate hstep (k := 0) ⟨hs, rfl, rfl⟩ h
  rw [Nat.zero_add] at hrun
  exact hrun

theorem release_run {s s' : Scheduler} {n : Nat} (hs : s.Sized)
    (h : machine.run s (List.replicate n .release) = some s') :
    s'.Sized ∧ s'.holders + n = s.holders ∧ s'.held + n = s.held := by
  let Released (k : Nat) (t : Scheduler) : Prop :=
    t.Sized ∧ t.holders + k = s.holders ∧ t.held + k = s.held
  have hstep (k : Nat) (t u : Scheduler) (ht : Released k t) (hu : machine.step t .release = some u) :
      Released (k + 1) u := by
    obtain ⟨hsized, hholders, hheld⟩ := ht
    refine ⟨sized_step _ _ _ hsized hu, ?_⟩
    obtain ⟨hpos, heq⟩ := Option.ite_none_right_eq_some.mp (machine_step hu).1
    cases heq
    simp only [held, Scheduler.release] at hheld ⊢
    omega
  have hrun := machine.run_replicate hstep (k := 0) ⟨hs, rfl, rfl⟩ h
  rw [Nat.zero_add] at hrun
  exact hrun

end NexusRuntime.Tasks.Scheduler

namespace NexusRuntime.Devices

open Transition Tasks

inductive Socket where
  | udp
  | tcp
deriving DecidableEq, Repr

inductive Operation where
  | resolve (socket : Socket)
  | connect (socket : Socket)
  | udpReceive
  | tcpReceive
  | accept
deriving DecidableEq, Repr

-- what one call of a receive handler finds: the socket, the state, its arguments
structure Reception where
  isOpen : Bool
  available : Nat
  myState : TcpSocket.State
  buffer : Option TcpSocket.Buffer
  ec : Option TcpSocket.ErrorCode
  exp : Bool

inductive DeviceLabel where
  | pool (l : Label)
  | connect (socket : Socket)
  | resolved (j : Nat) (error : Bool)
  | connected (j : Nat)
  | resumeUdp (r : Reception)
  | resumeTcp (r : Reception)
  | received (j : Nat) (r : Reception)
  | acceptor
  | listen (a : Nat)
  | accepted (j : Nat)
  | finalize (a : Nat)

namespace Operation

def connecting : Operation → Bool
  | .resolve _ | .connect _ => true
  | _ => false

-- the hold() of resume, or the two copies of the handler that the bound operation stores
def holds : Operation → Nat
  | .udpReceive => 1
  | .tcpReceive => 2
  | _ => 0

end Operation

namespace Reception

def udpAgain (r : Reception) : Bool :=
  r.ec.isNone && !(r.exp && r.buffer.any fun b => !b.bytes.isEmpty) && r.isOpen &&
    decide (r.myState = .resumed)

def tcpNext (r : Reception) : TcpSocket.Next :=
  (TcpSocket.recvHandler r.isOpen r.available r.myState r.buffer r.ec).next

end Reception

-- operations: those whose handler has not returned yet; acceptors: whether each one listens
structure Outstanding where
  pool : Scheduler
  operations : List Operation
  acceptors : List Bool

namespace Outstanding

def start (myMaxThreads : Nat) : Outstanding := ⟨.start myMaxThreads, [], []⟩

def take (s : Outstanding) (n : Nat) : Option Outstanding :=
  (machine.run s.pool (List.replicate n .hold)).map fun pool => { s with pool }

def give (s : Outstanding) (n : Nat) : Option Outstanding :=
  (machine.run s.pool (List.replicate n .release)).map fun pool => { s with pool }

def begin (s : Outstanding) (op : Operation) : Option Outstanding :=
  { s with operations := s.operations ++ [op] }.take op.holds

def finish (s : Outstanding) (j : Nat) (op : Operation) : Option Outstanding :=
  { s with operations := s.operations.eraseIdx j }.give op.holds

def schedule (s : Outstanding) : Option Outstanding :=
  (machine.step s.pool (.scheduleTask false)).map fun pool => { s with pool }

def received (s : Outstanding) (j : Nat) (r : Reception) : Operation → Option Outstanding
  | .udpReceive => if r.udpAgain then some s else s.finish j .udpReceive
  | .tcpReceive =>
    match r.tcpNext with
    | .receive _ => some s
    | .schedule _ => s.schedule
    | .stop => s.finish j .tcpReceive
  | _ => none

def owned (s : Outstanding) : Nat := (s.operations.map Operation.holds).sum + s.acceptors.length

def step (s : Outstanding) : DeviceLabel → Option Outstanding
  -- no other part of the program releases a hold it has not taken
  | .pool l => if l = .release ∧ s.pool.holders ≤ s.owned then none else
    (machine.step s.pool l).map fun pool => { s with pool }
  | .connect socket => s.begin (.resolve socket)
  | .resolved j error => (s.operations[j]?).bind fun
    | .resolve socket =>
      if error then s.finish j (.resolve socket)
      else some { s with operations := s.operations.set j (.connect socket) }
    | _ => none
  | .connected j => (s.operations[j]?).bind fun
    | .connect socket => s.finish j (.connect socket)
    | _ => none
  | .resumeUdp r => if r.udpAgain then s.begin .udpReceive else some s
  | .resumeTcp r =>
    match r.tcpNext with
    | .receive _ => s.begin .tcpReceive
    | .schedule _ => (s.begin .tcpReceive).bind schedule
    | .stop => some s
  | .received j r => (s.operations[j]?).bind (s.received j r)
  | .acceptor => { s with acceptors := s.acceptors ++ [false] }.take 1
  | .listen a => (s.acceptors[a]?).map fun _ =>
    { s with
      acceptors := s.acceptors.set a true
      operations := s.operations ++ [.accept] }
  | .accepted j => (s.operations[j]?).bind fun
    | .accept => some s
    | _ => none
  -- a listening acceptor protects its own object
  | .finalize a => (s.acceptors[a]?).bind fun listening =>
    if listening then none else { s with acceptors := s.acceptors.eraseIdx a }.give 1

structure Kept (s : Outstanding) : Prop where
  operations : ∀ op ∈ s.operations, s.pool.myHoldCount ≠ 0
  delayed : ∀ t ∈ s.pool.timers, ∀ k ∈ s.pool.tasks[t]?, k.kind = .task → s.pool.myHoldCount ≠ 0
  joined : ∀ i, s.pool.leaves i → s.operations = []

def connecting (s : Outstanding) : Prop := ∃ op ∈ s.operations, op.connecting = true

def releases (s : Outstanding) : DeviceLabel → Nat
  | .pool l => s.pool.frees l
  | .received j r =>
    match s.operations[j]? with
    | some .udpReceive => if r.udpAgain then 0 else 1
    | some .tcpReceive => if r.tcpNext = .stop then 2 else 0
    | _ => 0
  | .finalize _ => 1
  | _ => 0

def attended (s : Outstanding) : DeviceLabel → Prop
  | .connect _ => s.pool.myHoldCount ≠ 0
  | l => s.connecting → s.releases l < s.pool.myHoldCount.toNat

structure Inv (s : Outstanding) : Prop where
  sized : s.pool.Sized
  owned : s.owned ≤ s.pool.holders
  accepting : .accept ∈ s.operations → true ∈ s.acceptors

end Outstanding

def devices : System Outstanding DeviceLabel := ⟨Outstanding.step⟩

namespace Outstanding

theorem sum_erase {xs : List Operation} {j : Nat} {op : Operation} (h : xs[j]? = some op) :
    op.holds + ((xs.eraseIdx j).map Operation.holds).sum = (xs.map Operation.holds).sum := by
  obtain ⟨hj, rfl⟩ := List.getElem?_eq_some_iff.mp h
  exact ((List.getElem_cons_eraseIdx_perm hj).map Operation.holds).sum_nat

theorem sum_replace {xs : List Operation} {j : Nat} {op op' : Operation} (h : xs[j]? = some op)
    (hop : op'.holds = op.holds) :
    ((xs.set j op').map Operation.holds).sum = (xs.map Operation.holds).sum := by
  obtain ⟨hj, -⟩ := List.getElem?_eq_some_iff.mp h
  rw [((List.set_perm_cons_eraseIdx hj op').map Operation.holds).sum_nat, List.map_cons, List.sum_cons,
    hop, sum_erase h]

theorem inv_kept {s : Outstanding} (hs : s.Inv) (h : s.connecting → 0 < s.pool.held) : s.Kept := by
  have hoperations : ∀ op ∈ s.operations, s.pool.myHoldCount ≠ 0 := by
    intro op hop
    apply (Scheduler.held_ne_zero hs.sized).mpr
    have howned := hs.owned
    have hle : op.holds ≤ (s.operations.map Operation.holds).sum := by
      obtain ⟨j, hj⟩ := List.mem_iff_getElem?.mp hop
      exact (sum_erase hj) ▸ Nat.le_add_right _ _
    cases op with
    | resolve socket | connect socket => exact h ⟨_, hop, rfl⟩
    | udpReceive | tcpReceive =>
      simp only [Outstanding.owned, Operation.holds, Scheduler.held] at howned hle ⊢
      omega
    | accept =>
      have hpos := List.length_pos_of_mem (hs.accepting hop)
      simp only [Outstanding.owned, Scheduler.held] at howned ⊢
      omega
  refine ⟨hoperations, fun t ht k hk hkind => ?_, fun i hleaves => ?_⟩
  · have hk : s.pool.tasks[t]? = some k := hk
    apply (Scheduler.held_ne_zero hs.sized).mpr
    have hcustody := hs.sized.custody
    have hlive : k.deleted = false := by
      cases hd : k.deleted with
      | false => rfl
      | true =>
        have hwait := List.count_eq_zero.mp (Scheduler.dead_places hcustody hk hd).1
        exact absurd (by simp [Scheduler.waiting, ht]) hwait
    have hholds : k.holds = true := by
      simp [Task.holds, (hcustody.lawful k (List.mem_of_getElem? hk)).held hkind, hlive]
    have hpos := List.countP_pos_iff.mpr ⟨k, List.mem_of_getElem? hk, hholds⟩
    simp only [Scheduler.held]
    omega
  · apply List.eq_nil_iff_forall_not_mem.mpr
    intro op hop
    exact hoperations op hop (Scheduler.leaves_released hleaves)

structure Effect (s s' : Outstanding) (l : DeviceLabel) : Prop where
  inv : s'.Inv
  held : ∃ taken, s'.pool.held + s.releases l = s.pool.held + taken ∧ (s.releases l = 0 ∨ taken = 0)
  started : s'.connecting → s.connecting ∨ ∃ socket, l = .connect socket
  remains : s.connecting → 0 < s.releases l → s'.connecting

theorem begin_inv {s s' : Outstanding} (hs : s.Inv) (op : Operation) (hop : op ≠ .accept)
    (h : s.begin op = some s') : s'.Inv ∧ s'.pool.held = s.pool.held + op.holds ∧
      s'.operations = s.operations ++ [op] := by
  obtain ⟨pool, hpool, rfl⟩ := Option.map_eq_some_iff.mp h
  obtain ⟨hsized, hholders, hheld⟩ := Scheduler.hold_run hs.sized hpool
  have howned := hs.owned
  refine ⟨⟨hsized, ?_, fun hin => ?_⟩, hheld, rfl⟩
  · simp only [Outstanding.owned, List.map_append, List.sum_append] at howned ⊢
    simp only [List.map_cons, List.map_nil, List.sum_cons, List.sum_nil]
    omega
  · rcases List.mem_append.mp hin with hin | hin
    · exact hs.accepting hin
    · exact absurd (List.mem_singleton.mp hin).symm hop

theorem finish_inv {s s' : Outstanding} (hs : s.Inv) {j : Nat} {op : Operation}
    (hj : s.operations[j]? = some op) (h : s.finish j op = some s') :
    s'.Inv ∧ s'.pool.held + op.holds = s.pool.held ∧ s'.operations = s.operations.eraseIdx j := by
  obtain ⟨pool, hpool, rfl⟩ := Option.map_eq_some_iff.mp h
  obtain ⟨hsized, hholders, hheld⟩ := Scheduler.release_run hs.sized hpool
  have howned := hs.owned
  refine ⟨⟨hsized, ?_, fun hin => hs.accepting (List.mem_of_mem_eraseIdx hin)⟩, hheld, rfl⟩
  have hsum := sum_erase hj
  have hholders : pool.holders + op.holds = s.pool.holders := hholders
  simp only [Outstanding.owned] at howned ⊢
  omega

theorem schedule_inv {s s' : Outstanding} (hs : s.Inv) (h : s.schedule = some s') :
    s'.Inv ∧ s'.pool.held = s.pool.held + 1 ∧ s'.operations = s.operations := by
  obtain ⟨pool, hpool, rfl⟩ := Option.map_eq_some_iff.mp h
  have hstep := (Scheduler.machine_step hpool).1
  have heq : pool = s.pool.scheduleTask false := (Option.some.inj hstep).symm
  have hholders : pool.holders = s.pool.holders := by
    rw [heq, Scheduler.scheduleTask, schedule_eq]
  refine ⟨⟨Scheduler.sized_step _ _ _ hs.sized hpool, ?_, hs.accepting⟩, ?_, rfl⟩
  · have howned := hs.owned
    simp only [Outstanding.owned] at howned ⊢
    omega
  · simp only [heq, Scheduler.scheduleTask, schedule_eq, Scheduler.held, List.countP_append,
      List.countP_singleton, Task.holds, Task.new, Bool.not_false, Bool.and_true, if_true]
    omega

theorem connecting_erase {xs : List Operation} {j : Nat} {op : Operation} (hj : xs[j]? = some op)
    (hop : op.connecting = false) (h : ∃ op ∈ xs, op.connecting = true) :
    ∃ op ∈ xs.eraseIdx j, op.connecting = true := by
  obtain ⟨op', hin, hconnecting⟩ := h
  obtain ⟨hlt, rfl⟩ := List.getElem?_eq_some_iff.mp hj
  rcases List.mem_cons.mp ((List.getElem_cons_eraseIdx_perm hlt).mem_iff.mpr hin) with rfl | hin
  · rw [hop] at hconnecting
    cases hconnecting
  · exact ⟨op', hin, hconnecting⟩

theorem finish_effect {s s' : Outstanding} (hs : s.Inv) {l : DeviceLabel} {j : Nat} {op : Operation}
    (hj : s.operations[j]? = some op) (hl : s.releases l = op.holds) (h : s.finish j op = some s') :
    s.Effect s' l := by
  obtain ⟨hinv, hheld, hoperations⟩ := finish_inv hs hj h
  refine ⟨hinv, ⟨0, by omega, .inr rfl⟩, ?_, ?_⟩
  · rintro ⟨op', hin, hconnecting⟩
    rw [hoperations] at hin
    exact .inl ⟨op', List.mem_of_mem_eraseIdx hin, hconnecting⟩
  · intro hconnecting hpos
    rw [connecting, hoperations]
    refine connecting_erase hj ?_ hconnecting
    cases op with
    | resolve | connect =>
      rw [hl] at hpos
      exact absurd hpos (Nat.lt_irrefl 0)
    | _ => rfl

theorem still_effect {s : Outstanding} (hs : s.Inv) {l : DeviceLabel} (hl : s.releases l = 0) :
    s.Effect s l :=
  ⟨hs, ⟨0, by rw [hl], .inl hl⟩, .inl, fun _ hpos => by omega⟩

theorem schedule_effect {s s' : Outstanding} (hs : s.Inv) {l : DeviceLabel} (hl : s.releases l = 0)
    (h : s.schedule = some s') : s.Effect s' l := by
  obtain ⟨hinv, hheld, hoperations⟩ := schedule_inv hs h
  refine ⟨hinv, ⟨1, by omega, .inl hl⟩, fun hconnecting => .inl ?_, fun _ hpos => by omega⟩
  rwa [connecting, hoperations] at hconnecting

theorem begin_effect {s s' : Outstanding} (hs : s.Inv) {l : DeviceLabel} (op : Operation)
    (hop : op ≠ .accept) (hl : s.releases l = 0)
    (hconnect : op.connecting = true → ∃ socket, l = .connect socket) (h : s.begin op = some s') :
    s.Effect s' l := by
  obtain ⟨hinv, hheld, hoperations⟩ := begin_inv hs op hop h
  refine ⟨hinv, ⟨op.holds, by omega, .inl hl⟩, ?_, fun _ hpos => by omega⟩
  rintro ⟨op', hin, hconnecting⟩
  rw [hoperations] at hin
  rcases List.mem_append.mp hin with hin | hin
  · exact .inl ⟨op', hin, hconnecting⟩
  · rcases List.mem_singleton.mp hin with rfl
    exact .inr (hconnect hconnecting)

theorem pool_effect {s : Outstanding} (hs : s.Inv) {l : Label} {pool : Scheduler}
    (hl : ¬ (l = .release ∧ s.pool.holders ≤ s.owned)) (h : machine.step s.pool l = some pool) :
    s.Effect { s with pool } (.pool l) := by
  have hm := Scheduler.step_moves hs.sized.custody.coherent (Scheduler.machine_step h).1
  have howned : s.owned ≤ pool.holders := by
    by_cases hrelease : l = .release
    · subst hrelease
      obtain ⟨hpos, heq⟩ := Option.ite_none_right_eq_some.mp (Scheduler.machine_step h).1
      cases heq
      exact Nat.le_sub_one_of_lt (Nat.lt_of_not_le fun hle => hl ⟨rfl, hle⟩)
    · exact Nat.le_trans hs.owned (Scheduler.moves_holders hm hrelease)
  exact ⟨⟨Scheduler.sized_step _ _ _ hs.sized h, howned, hs.accepting⟩, Scheduler.moves_held hm, .inl,
    fun hconnecting _ => hconnecting⟩

theorem received_effect {s s' : Outstanding} (hs : s.Inv) {j : Nat} {r : Reception} {op : Operation}
    (hj : s.operations[j]? = some op) (h : s.received j r op = some s') :
    s.Effect s' (.received j r) := by
  cases op with
  | udpReceive =>
    simp only [received] at h
    split at h
    · next hagain =>
      cases h
      exact still_effect hs (by simp [releases, hj, hagain])
    · next hagain => exact finish_effect hs hj (by simp [releases, hj, hagain, Operation.holds]) h
  | tcpReceive =>
    simp only [received] at h
    split at h
    · next hnext =>
      cases h
      exact still_effect hs (by simp [releases, hj, hnext])
    · next hnext => exact schedule_effect hs (by simp [releases, hj, hnext]) h
    · next hnext => exact finish_effect hs hj (by simp [releases, hj, hnext, Operation.holds]) h
  | _ => cases h

theorem acceptor_effect {s s' : Outstanding} (hs : s.Inv)
    (h : { s with acceptors := s.acceptors ++ [false] : Outstanding }.take 1 = some s') :
    s.Effect s' .acceptor := by
  obtain ⟨pool, hpool, rfl⟩ := Option.map_eq_some_iff.mp h
  obtain ⟨hsized, hholders, hheld⟩ := Scheduler.hold_run hs.sized hpool
  refine ⟨⟨hsized, ?_, fun hin => List.mem_append_left _ (hs.accepting hin)⟩, ⟨1, hheld, .inl rfl⟩, .inl,
    fun hconnecting _ => hconnecting⟩
  have howned := hs.owned
  simp only [Outstanding.owned, List.length_append, List.length_singleton] at howned ⊢
  omega

theorem finalize_effect {s s' : Outstanding} (hs : s.Inv) {a : Nat} (ha : s.acceptors[a]? = some false)
    (h : { s with acceptors := s.acceptors.eraseIdx a : Outstanding }.give 1 = some s') :
    s.Effect s' (.finalize a) := by
  obtain ⟨pool, hpool, rfl⟩ := Option.map_eq_some_iff.mp h
  obtain ⟨hsized, hholders, hheld⟩ := Scheduler.release_run hs.sized hpool
  obtain ⟨hlt, hfalse⟩ := List.getElem?_eq_some_iff.mp ha
  have hperm := List.getElem_cons_eraseIdx_perm hlt
  rw [hfalse] at hperm
  refine ⟨⟨hsized, ?_, fun hin => ?_⟩, ⟨0, hheld, .inr rfl⟩, .inl, fun hconnecting _ => hconnecting⟩
  · have howned := hs.owned
    have hlen := hperm.length_eq
    have hholders : pool.holders + 1 = s.pool.holders := hholders
    simp only [Outstanding.owned, List.length_cons] at howned hlen ⊢
    omega
  · rcases List.mem_cons.mp (hperm.mem_iff.mpr (hs.accepting hin)) with hne | hin
    · cases hne
    · exact hin

theorem device_effect {s s' : Outstanding} {l : DeviceLabel} (hs : s.Inv)
    (h : devices.step s l = some s') : s.Effect s' l := by
  cases l with
  | pool l =>
    obtain ⟨hl, h⟩ := Option.ite_none_left_eq_some.mp h
    obtain ⟨pool, hpool, rfl⟩ := Option.map_eq_some_iff.mp h
    exact pool_effect hs hl hpool
  | connect socket => exact begin_effect hs (.resolve socket) nofun rfl (fun _ => ⟨socket, rfl⟩) h
  | resolved j error =>
    obtain ⟨op, hj, h⟩ := Option.bind_eq_some_iff.mp h
    cases op with
    | resolve socket =>
      dsimp only at h
      split at h
      · exact finish_effect hs hj rfl h
      · cases h
        have howned := hs.owned
        refine ⟨⟨hs.sized, ?_, fun hin => ?_⟩, ⟨0, rfl, .inl rfl⟩, fun _ => .inl ?_, nofun⟩
        · have hsum := sum_replace hj (rfl : (Operation.connect socket).holds = _)
          simp only [Outstanding.owned, hsum] at howned ⊢
          exact howned
        · rcases List.mem_or_eq_of_mem_set hin with hin | heq
          · exact hs.accepting hin
          · cases heq
        · exact ⟨_, List.mem_of_getElem? hj, rfl⟩
    | _ => cases h
  | connected j =>
    obtain ⟨op, hj, h⟩ := Option.bind_eq_some_iff.mp h
    cases op with
    | connect socket => exact finish_effect hs hj rfl h
    | _ => cases h
  | resumeUdp r =>
    simp only [devices, step] at h
    split at h
    · exact begin_effect hs .udpReceive nofun rfl nofun h
    · cases h
      exact still_effect hs rfl
  | resumeTcp r =>
    simp only [devices, step] at h
    split at h
    · exact begin_effect hs .tcpReceive nofun rfl nofun h
    · obtain ⟨u, hu, h⟩ := Option.bind_eq_some_iff.mp h
      obtain ⟨hinv, hheld, hoperations⟩ := begin_inv hs .tcpReceive nofun hu
      obtain ⟨hinv', hheld', hoperations'⟩ := schedule_inv hinv h
      refine ⟨hinv', ⟨3, ?_, .inl rfl⟩, ?_, nofun⟩
      · simp only [Operation.holds] at hheld
        simp only [releases]
        omega
      · rintro ⟨op, hin, hconnecting⟩
        rw [hoperations', hoperations] at hin
        rcases List.mem_append.mp hin with hin | hin
        · exact .inl ⟨op, hin, hconnecting⟩
        · rw [List.mem_singleton.mp hin] at hconnecting
          cases hconnecting
    · cases h
      exact still_effect hs rfl
  | received j r =>
    obtain ⟨op, hj, h⟩ := Option.bind_eq_some_iff.mp h
    exact received_effect hs hj h
  | acceptor => exact acceptor_effect hs h
  | listen a =>
    obtain ⟨b, ha, rfl⟩ := Option.map_eq_some_iff.mp h
    have howned := hs.owned
    refine ⟨⟨hs.sized, ?_, fun _ => List.mem_set (List.getElem?_eq_some_iff.mp ha).1 _⟩,
      ⟨0, rfl, .inl rfl⟩, ?_, nofun⟩
    · simp only [Outstanding.owned, List.map_append, List.sum_append, List.length_set] at howned ⊢
      simp only [List.map_cons, List.map_nil, List.sum_cons, List.sum_nil, Operation.holds]
      omega
    · rintro ⟨op, hin, hconnecting⟩
      rcases List.mem_append.mp hin with hin | hin
      · exact .inl ⟨op, hin, hconnecting⟩
      · rw [List.mem_singleton.mp hin] at hconnecting
        cases hconnecting
  | accepted j =>
    obtain ⟨op, hj, h⟩ := Option.bind_eq_some_iff.mp h
    cases op with
    | accept =>
      cases h
      exact still_effect hs rfl
    | _ => cases h
  | finalize a =>
    obtain ⟨listening, ha, h⟩ := Option.bind_eq_some_iff.mp h
    cases listening with
    | true => cases h
    | false => exact finalize_effect hs ha h

theorem attended_pos {s : Outstanding} (hs : s.Inv) {l : DeviceLabel} (h : s.attended l)
    (hl : s.connecting ∨ ∃ socket, l = .connect socket) : s.releases l < s.pool.held := by
  cases l with
  | connect socket => exact (Scheduler.held_ne_zero hs.sized).mp h
  | _ =>
    rcases hl with hconnecting | ⟨socket, heq⟩
    · rw [← Scheduler.held_toNat hs.sized]
      exact h hconnecting
    · cases heq

theorem kept_step (s : Outstanding) (l : DeviceLabel) (s' : Outstanding) (hs : s.Inv ∧ s.Kept)
    (hl : s.attended l) (h : devices.step s l = some s') : s'.Inv ∧ s'.Kept := by
  have heffect := device_effect hs.1 h
  refine ⟨heffect.inv, inv_kept heffect.inv fun hconnecting => ?_⟩
  have hpos := attended_pos hs.1 hl (heffect.started hconnecting)
  obtain ⟨taken, hheld, -⟩ := heffect.held
  omega

theorem attended_of_kept (s : Outstanding) (l : DeviceLabel) (s' : Outstanding) (hs : s.Inv ∧ s.Kept)
    (h : devices.step s l = some s') (hk : s'.Kept) : s.attended l := by
  have heffect := device_effect hs.1 h
  have hlabel (hconnecting : s.connecting) : s.releases l < s.pool.myHoldCount.toNat := by
    rw [Scheduler.held_toNat hs.1.sized]
    rcases heffect.held with ⟨taken, hheld, hzero | hzero⟩
    · obtain ⟨op, hin, -⟩ := hconnecting
      rw [hzero]
      exact (Scheduler.held_ne_zero hs.1.sized).mp (hs.2.operations op hin)
    · rcases Nat.eq_zero_or_pos (s.releases l) with hnone | hpos
      · obtain ⟨op, hin, -⟩ := hconnecting
        rw [hnone]
        exact (Scheduler.held_ne_zero hs.1.sized).mp (hs.2.operations op hin)
      · obtain ⟨op, hin, -⟩ := heffect.remains hconnecting hpos
        have hafter := (Scheduler.held_ne_zero heffect.inv.sized).mp (hk.operations op hin)
        omega
  cases l with
  | connect socket =>
    obtain ⟨hinv, hheld, hoperations⟩ := begin_inv hs.1 (.resolve socket) nofun h
    have hin : .resolve socket ∈ s'.operations := by simp [hoperations]
    have hafter := (Scheduler.held_ne_zero hinv.sized).mp (hk.operations _ hin)
    apply (Scheduler.held_ne_zero hs.1.sized).mpr
    simpa [hheld, Operation.holds] using hafter
  | _ => exact hlabel

theorem outstanding_start (myMaxThreads : Nat) :
    (start myMaxThreads).Inv ∧ (start myMaxThreads).Kept := by
  have hinv : (start myMaxThreads).Inv := ⟨Scheduler.start_sized myMaxThreads, Nat.le_refl 0, nofun⟩
  exact ⟨hinv, inv_kept hinv nofun⟩

theorem kept_iff_attended (myMaxThreads : Nat) (ls : List DeviceLabel) :
    devices.always Kept (start myMaxThreads) ls ↔ devices.meets attended (start myMaxThreads) ls :=
  devices.always_iff_meets (fun _ hs => hs.2) attended_of_kept kept_step
    (outstanding_start myMaxThreads) ls

def connectThenReturn : List DeviceLabel :=
  (([.scheduleTask false, .count 0, .push 0, .poll 0 false] ++ List.replicate 12 (.thread 0) :
      List Label).map .pool) ++
    [.connect .udp] ++
    ((([.finish 0] ++ List.replicate 7 (.thread 0) ++ [.poll 0 false, .thread 0] : List Label).map .pool))

theorem connect_unattended :
    ¬ devices.always Kept (start 4) connectThenReturn ∧
      ∃ s, devices.run (start 4) connectThenReturn = some s ∧ s.operations = [.resolve .udp] ∧
        s.pool.workers = [⟨none, .left⟩] := by
  have hlast : ∃ s, devices.run (start 4) connectThenReturn = some s ∧
      s.operations = [.resolve .udp] ∧ s.pool.workers = [⟨none, .left⟩] ∧ s.pool.myHoldCount = 0 :=
    ⟨_, rfl, rfl, rfl, rfl⟩
  obtain ⟨s, hs, hoperations, hworkers, hcount⟩ := hlast
  refine ⟨fun h => ?_, s, hs, hoperations, hworkers⟩
  have hkept := (devices.always_iff_prefixes _ _ _).mp h _ List.prefix_rfl s hs
  exact hkept.operations (.resolve .udp) (by simp [hoperations]) hcount

end Outstanding

end NexusRuntime.Devices
