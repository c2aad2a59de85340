import NexusRuntime.Scheduler.PlainTask

namespace NexusRuntime.Tasks

open Transition Sequence

namespace Scheduler

def unpushed (s : Scheduler) : List Nat := s.timers ++ s.entering ++ s.arriving

structure Lined (s : Scheduler) (R : Nat → Nat → Prop) : Prop where
  pushed : ∀ t u, R t u → t ∉ s.unpushed
  queue : s.myTaskQueue.Pairwise fun t u => ¬ R u t
  waiting : ∀ t u, R t u → t ∈ s.waiting → u ∈ s.waiting

variable {R R' : Nat → Nat → Prop}

theorem lined_snoc {s : Scheduler} (hs : s.Lined R) {t : Nat} (h : ∀ u, ¬ R t u) :
    (s.myTaskQueue ++ [t]).Pairwise fun t u => ¬ R u t := by
  rw [List.pairwise_append]
  refine ⟨hs.queue, List.pairwise_singleton _ _, fun u _ v hv => ?_⟩
  exact (List.mem_singleton.mp hv) ▸ h u

theorem schedule_lined {s : Scheduler} (hs : s.Lined R) (hfree : s.tasks.length ∉ s.waiting)
    (kind : Kind) (hold delayed : Bool)
    (h : ∀ t u, R' t u →
      t ≠ s.tasks.length ∧ (R t u ∨ t ∉ s.unpushed ∧ u = s.tasks.length)) :
    (s.schedule kind hold delayed).Lined R' := by
  have hwaiting (t : Nat) : t ∈ (s.schedule kind hold delayed).waiting ↔
      t ∈ s.waiting ∨ s.tasks.length = t := by
    rw [← List.count_pos_iff, schedule_waiting, ← List.count_pos_iff]
    split <;> simp [*]
  have hqueue : (s.schedule kind hold delayed).myTaskQueue = s.myTaskQueue := by rw [schedule_eq]
  have hunpushed (t : Nat) (ht : t ≠ s.tasks.length)
      (hin : t ∈ (s.schedule kind hold delayed).unpushed) : t ∈ s.unpushed := by
    rw [schedule_eq] at hin
    simp only [unpushed, List.mem_append] at hin ⊢
    cases delayed <;> simpa [ht] using hin
  refine ⟨fun t u hr hin => ?_, ?_, fun t u hr ht => ?_⟩
  · rcases h t u hr with ⟨hne, hold' | ⟨hout, -⟩⟩
    · exact hs.pushed t u hold' (hunpushed t hne hin)
    · exact hout (hunpushed t hne hin)
  · rw [hqueue]
    refine hs.queue.imp_of_mem fun {t u} ht hu hn hr => ?_
    rcases h u t hr with ⟨-, hold' | ⟨-, rfl⟩⟩
    · exact hn hold'
    · exact hfree (List.mem_append_right _ ht)
  · rw [hwaiting] at ht ⊢
    rcases h t u hr with ⟨hne, hold' | ⟨-, rfl⟩⟩
    · exact .inl (hs.waiting t u hold' (ht.resolve_right (Ne.symm hne)))
    · exact .inr rfl

theorem pop_lined {s : Scheduler} (hs : s.Lined R) {i t : Nat} {cur : Option Nat}
    {queue : List Nat} (hq : s.myTaskQueue = t :: queue) :
    ({ s with myTaskQueue := queue : Scheduler }.setWorker i
      ⟨cur, .iteration t .activate []⟩).Lined R := by
  have hline := hs.queue
  rw [hq, List.pairwise_cons] at hline
  refine ⟨hs.pushed, hline.2, fun u v hr hu => ?_⟩
  have hin : u ∈ queue := (List.mem_append.mp hu).resolve_left (hs.pushed u v hr)
  have hv := hs.waiting u v hr (List.mem_append_right _ (hq ▸ List.mem_cons_of_mem t hin))
  rcases List.mem_append.mp hv with hv | hv
  · exact List.mem_append_left _ hv
  · rw [hq] at hv
    rcases List.mem_cons.mp hv with rfl | hv
    · exact absurd hr (hline.1 u hin)
    · exact List.mem_append_right _ hv

theorem fresh_waiting {s : Scheduler} (hs : s.Custody) : s.tasks.length ∉ s.waiting :=
  List.count_eq_zero.mp (fresh_places hs).1

theorem moves_unpushed {s s' : Scheduler} {l : Label} (h : s.Moves l s') {t : Nat} {k : Task}
    (hk : s.tasks[t]? = some k) (ht : t ∈ s'.unpushed) : t ∈ s.unpushed := by
  cases h with
  | @schedule l kind hold delayed =>
    have hne : t ≠ s.tasks.length := Nat.ne_of_lt (List.getElem?_eq_some_iff.mp hk).1
    rw [schedule_eq] at ht
    simp only [unpushed, List.mem_append] at ht ⊢
    cases delayed <;> simpa [hne] using ht
  | fire hu =>
    simp only [unpushed, List.mem_append, List.mem_singleton] at ht ⊢
    rcases ht with (ht | ht | rfl) | ht
    · exact .inl (.inl (List.mem_of_mem_erase ht))
    · exact .inl (.inr ht)
    · exact .inl (.inl hu)
    · exact .inr ht
  | count hu =>
    simp only [unpushed, List.mem_append, List.mem_singleton] at ht ⊢
    rcases ht with (ht | ht) | ht | rfl
    · exact .inl (.inl ht)
    · exact .inl (.inr (List.mem_of_mem_erase ht))
    · exact .inr ht
    · exact .inl (.inr hu)
  | push hu =>
    simp only [unpushed, List.mem_append] at ht ⊢
    exact ht.imp_right List.mem_of_mem_erase
  | delete =>
    rw [destroy_eq] at ht
    exact ht
  | _ => exact ht

theorem lined_of_moves {s s' : Scheduler} {l : Label} (hline : s.Lined R) (h : s.Moves l s')
    (hR : ∀ t u, R t u → t < s.tasks.length) (hqueue : s'.myTaskQueue.Pairwise fun t u => ¬ R u t)
    (hcount : ∀ t, s'.waiting.count t = s.waiting.count t) : s'.Lined R := by
  have hwaiting (t : Nat) : t ∈ s'.waiting ↔ t ∈ s.waiting := by
    rw [← List.count_pos_iff, hcount t, List.count_pos_iff]
  refine ⟨fun t u hr ht => ?_, hqueue, fun t u hr ht => ?_⟩
  · have hk := List.getElem?_eq_getElem (hR t u hr)
    exact hline.pushed t u hr (moves_unpushed h hk ht)
  · exact (hwaiting u).mpr (hline.waiting t u hr ((hwaiting t).mp ht))

theorem moves_lined {s s' : Scheduler} {l : Label} (hs : s.Custody) (hline : s.Lined R)
    (h : s.Moves l s')
    (hR : ∀ t u, R t u → t < s.tasks.length ∧ ∀ w ∈ s.workers, w.plain t = true) : s'.Lined R := by
  have hmoves := lined_of_moves hline h fun t u hr => (hR t u hr).1
  cases h with
  | schedule =>
    apply schedule_lined hline (fresh_waiting hs) _ _ _
    intro t u hr
    exact ⟨Nat.ne_of_lt (hR t u hr).1, .inl hr⟩
  | fire ht | count ht =>
    apply hmoves hline.queue
    intro u
    have hc := count_erase_add ht u
    simp only [waiting, List.count_append, List.count_singleton, beq_iff_eq]
    omega
  | push ht =>
    have hout (u : Nat) : ¬ R _ u := fun hr => hline.pushed _ u hr (List.mem_append_right _ ht)
    apply hmoves (lined_snoc hline hout)
    intro u
    have hc := count_erase_add ht u
    simp only [waiting, List.count_append, List.count_singleton, beq_iff_eq]
    omega
  | pop hw hq => exact pop_lined hline hq
  | @requeue i t f hw =>
    have hout (u : Nat) : ¬ R t u := by
      intro hr
      cases Worker.point_of_plain ((hR t u hr).2 _ (List.mem_of_getElem? hw))
    refine ⟨hline.pushed, lined_snoc hline hout, fun u v hr hu => ?_⟩
    have hin : u ∈ s.waiting := by
      simp only [waiting, List.mem_append, List.mem_singleton, setWorker] at hu ⊢
      rcases hu with hu | hu | rfl
      · exact .inl hu
      · exact .inr hu
      · exact absurd hr (hout v)
    have hv := hline.waiting u v hr hin
    simp only [waiting, List.mem_append, setWorker] at hv ⊢
    exact hv.imp_right .inl
  | delete =>
    rw [destroy_eq]
    exact ⟨hline.pushed, hline.queue, hline.waiting⟩
  | _ => exact ⟨hline.pushed, hline.queue, hline.waiting⟩

end Scheduler

end NexusRuntime.Tasks
