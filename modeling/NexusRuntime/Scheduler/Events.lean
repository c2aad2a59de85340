import NexusRuntime.Scheduler.Custody

namespace NexusRuntime.Tasks

open Transition Sequence

def Scheduler.completes (s : Scheduler) : Label → Option Nat
  | .thread i => (s.workers[i]?).bind fun w =>
    match w.frame with
    | .iteration _ .exit _ => w.myCurrentTask
    | _ => none
  | _ => none

def Label.cancels : Label → Option Nat
  | .cancel t => some t
  | _ => none

namespace Scheduler

structure Adds (s : Scheduler) (l : Label) (t : Nat) (as : List Action) : Prop where
  completion : .completionHandlers ∈ as ↔ s.completes l = some t
  cancellation : .cancellationHandlers ∈ as ↔ l.cancels = some t

theorem adds_ordinary {s : Scheduler} {l : Label} {t : Nat} {as : List Action}
    (has : ∀ a ∈ as, a = .store .aborted ∨ a.ordinary = true) (hc : s.completes l ≠ some t)
    (hl : l.cancels ≠ some t) : s.Adds l t as where
  completion := iff_of_false (fun h => absurd (has _ h) (by decide)) hc
  cancellation := iff_of_false (fun h => absurd (has _ h) (by decide)) hl

theorem completes_at {s : Scheduler} {i : Nat} {w : Worker} (hw : s.workers[i]? = some w)
    (h : ∀ t f, w.frame ≠ .iteration t .exit f) : s.completes (.thread i) = none := by
  obtain ⟨c, frame⟩ := w
  cases frame with
  | iteration t p f =>
    cases p with
    | exit => exact absurd rfl (h t f)
    | _ => simp [completes, hw]
  | _ => simp [completes, hw]

theorem completes_worker {s : Scheduler} {l : Label} {i : Nat} {w : Worker} (hl : l.worker = some i)
    (hw : s.workers[i]? = some w) (h : ∀ t f, w.frame ≠ .iteration t .exit f) :
    s.completes l = none ∧ l.cancels = none := by
  cases l with
  | thread j =>
    cases hl
    exact ⟨completes_at hw h, rfl⟩
  | poll | yield | finish => exact ⟨rfl, rfl⟩
  | _ => cases hl

theorem completes_cases {s : Scheduler} (hs : s.Coherent) {l : Label} {t : Nat}
    (h : s.completes l = some t) :
    ∃ i f, l = .thread i ∧ s.workers[i]? = some ⟨some t, .iteration t .exit f⟩ := by
  cases l with
  | thread i =>
    obtain ⟨w, hw, h⟩ := Option.bind_eq_some_iff.mp h
    obtain ⟨c, frame⟩ := w
    cases frame with
    | iteration u p f =>
      cases p with
      | exit =>
        cases h
        cases current_at hs hw rfl
        exact ⟨i, f, rfl, hw⟩
      | _ => cases h
    | _ => cases h
  | _ => cases h

theorem schedules_quiet {s : Scheduler} {l : Label} {a : Kind × Bool × Bool}
    (h : l.schedules = some a) : s.completes l = none ∧ l.cancels = none := by
  cases l with
  | scheduleTask | scheduleCoroutine => exact ⟨rfl, rfl⟩
  | _ => cases h

inductive Touches (s : Scheduler) (l : Label) (t : Nat) (k : Task) : Task → Prop where
  | same (hc : s.completes l ≠ some t) (hl : l.cancels ≠ some t) : Touches s l t k k
  | abort (hl : l = .abort t) (hk : s.object t = some k) : Touches s l t k k.abort
  | cancel (hl : l = .cancel t) (hk : s.object t = some k) (ha : 0 < k.aborting) :
      Touches s l t k k.cancelled
  | run {i : Nat} {c : Code} {f : List Fate} (hl : l = .thread i)
      (hw : s.workers[i]? = some ⟨some t, .iteration t (.run c) f⟩) (hk : s.object t = some k) :
      Touches s l t k (k.proceed c).2
  | exit {i : Nat} {f : List Fate} (hl : l = .thread i)
      (hw : s.workers[i]? = some ⟨some t, .iteration t .exit f⟩) (hk : s.object t = some k) :
      Touches s l t k k.exit
  | delete {i : Nat} {cur : Option Nat} {f : List Fate} (hl : l = .thread i)
      (hw : s.workers[i]? = some ⟨cur, .iteration t (.delete t) f⟩) (hk : s.object t = some k) :
      Touches s l t k { k with deleted := true }

theorem touches_replace {s s' : Scheduler} {l : Label} {t u : Nat} {k k₁ k₂ : Task}
    (hk : s.tasks[t]? = some k) (hu : s.object u = some k₁) (hs' : s'.tasks = s.tasks.set u k₂)
    (hself : s.object u = some k₁ → s.Touches l u k₁ k₂)
    (hc : u ≠ t → s.completes l ≠ some t ∧ l.cancels ≠ some t) :
    ∃ k', s'.tasks[t]? = some k' ∧ s.Touches l t k k' := by
  rw [hs']
  by_cases hut : u = t
  · subst hut
    cases hk.symm.trans (object_some hu).1
    exact ⟨k₂, List.getElem?_set_self (List.getElem?_eq_some_iff.mp hk).1, hself hu⟩
  · rw [List.getElem?_set_ne hut]
    exact ⟨k, hk, .same (hc hut).1 (hc hut).2⟩

theorem moves_touches {s s' : Scheduler} {l : Label} (h : s.Moves l s') {t : Nat} {k : Task}
    (hk : s.tasks[t]? = some k) : ∃ k', s'.tasks[t]? = some k' ∧ s.Touches l t k k' := by
  have hsame (hc : s.completes l = none ∧ l.cancels = none) (htasks : s'.tasks[t]? = some k) :
      ∃ k', s'.tasks[t]? = some k' ∧ s.Touches l t k k' :=
    ⟨k, htasks, .same (by simp [hc.1]) (by simp [hc.2])⟩
  cases h with
  | schedule hl =>
    apply hsame (schedules_quiet hl)
    rw [schedule_eq, List.getElem?_append_left (List.getElem?_eq_some_iff.mp hk).1]
    exact hk
  | abort hu => exact touches_replace hk hu rfl (.abort rfl) fun _ => ⟨nofun, nofun⟩
  | cancel hu ha =>
    refine touches_replace hk hu rfl (fun h => .cancel rfl h ha) fun hut => ⟨nofun, fun h => ?_⟩
    exact hut (Option.some.inj h)
  | run hw hu =>
    have hc := completes_at hw nofun
    exact touches_replace hk hu rfl (.run rfl hw) fun _ => ⟨by simp [hc], nofun⟩
  | @exit i u f k₁ hw hu =>
    have hc : s.completes (.thread i) = some u := by simp [completes, hw]
    refine touches_replace hk hu rfl (.exit rfl hw) fun hut => ⟨fun h => ?_, nofun⟩
    exact hut (Option.some.inj (hc.symm.trans h))
  | @delete i cur u f k₁ hw hu =>
    have hc := completes_at hw nofun
    exact touches_replace hk hu (destroy_tasks s u k₁) (.delete rfl hw) fun _ => ⟨by simp [hc], nofun⟩
  | stay | fire | count | push | hold | release | addThread | pause | resume => exact hsame ⟨rfl, rfl⟩ hk
  | idle hl hw hi =>
    refine hsame (completes_worker hl hw fun t f hframe => ?_) hk
    simp only [Worker.idle, hframe] at hi
    cases hi
  | handled hl hc hw => exact hsame (completes_worker hl hw nofun) hk
  | pop hw | activate hw | discount hw | reset hw | requeue hw | recount hw | deactivate hw
  | finish hw => exact hsame ⟨completes_at hw nofun, rfl⟩ hk

theorem touched {s s' : Scheduler} {l : Label} (h : s.Moves l s') {t : Nat} {k k' : Task}
    (hk : s.tasks[t]? = some k) (hk' : s'.tasks[t]? = some k') : s.Touches l t k k' := by
  obtain ⟨k₁, hk₁, ht⟩ := moves_touches h hk
  cases hk'.symm.trans hk₁
  exact ht

theorem moves_task {s s' : Scheduler} {l : Label} (h : s.Moves l s') {t : Nat} {k : Task}
    (hk : s.tasks[t]? = some k) :
    ∃ k' as, s'.tasks[t]? = some k' ∧ k'.log = k.log ++ as ∧ s.Adds l t as := by
  obtain ⟨k', hk', ht⟩ := moves_touches h hk
  cases ht with
  | same hc hl => exact ⟨_, [], hk', (List.append_nil _).symm, adds_ordinary nofun hc hl⟩
  | abort hl =>
    subst hl
    exact ⟨_, _, hk', rfl, adds_ordinary (by simp) nofun nofun⟩
  | cancel hl =>
    subst hl
    exact ⟨_, _, hk', rfl, iff_of_false (by simp) nofun, iff_of_true (by simp) rfl⟩
  | @run i c f hl hw =>
    subst hl
    have hc := completes_at hw nofun
    obtain ⟨status, suspended, as, hframe, has⟩ := k.proceed_frame c
    refine ⟨_, as, hk', by rw [hframe], adds_ordinary ?_ (by simp [hc]) nofun⟩
    exact fun a ha => .inr (has a ha)
  | exit hl hw =>
    subst hl
    refine ⟨_, _, hk', rfl, iff_of_true (by simp) ?_, iff_of_false (by simp) nofun⟩
    simp [completes, hw]
  | delete hl hw =>
    subst hl
    have hc := completes_at hw nofun
    exact ⟨_, [], hk', (List.append_nil _).symm, adds_ordinary nofun (by simp [hc]) nofun⟩

theorem moves_length {s s' : Scheduler} {l : Label} (h : s.Moves l s') :
    s.tasks.length ≤ s'.tasks.length := by
  cases h with
  | schedule => simp [schedule_eq]
  | abort | cancel | run | exit => simp [setTask, setWorker]
  | delete => simp [destroy_eq, setWorker]
  | _ => exact Nat.le_refl _

end Scheduler
end NexusRuntime.Tasks
