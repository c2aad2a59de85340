import NexusRuntime.Globals.PromiseCalls

namespace NexusRuntime.Promises

open Transition

namespace Heap
variable {V H : Type} {R : Runtime V} {s s' : Heap V H} {p q : Nat}

-- the promises that a step is about
def Touches (s : Heap V H) : Label V H → Nat → Prop
  | .construct, _ => False
  | .thenOn _ _ _, q => s.next ≤ q
  | .call p _, q => q = p
  | .run i, q => ∃ j, s.jobs[i]? = some j ∧ j.target = some q
  | .finish i _, q => ∃ j, s.jobs[i]? = some j ∧ (j.target = some q ∨ j = .executing q)

-- who can settle q with what the program chooses
def Opens (s : Heap V H) (q : Nat) : Prop :=
  q ∈ s.exposed ∨ .executor q ∈ s.jobs ∨ .executing q ∈ s.jobs

theorem thenOn_carries (R : Runtime V) (s : Heap V H) (p : Nat) (f g : Option H) :
    Carries (s.next ≤ ·) s ({ (s.thenOn R p f g).1 with
      derived := (s.thenOn R p f g).1.derived ++ [⟨p, f, g, (s.thenOn R p f g).2⟩] } : Heap V H) := by
  have hthen := thenOn_then R s p f g
  have hsettle (b : Broadcast V) :
      ∀ j ∈ [(.settle s.next b : Job V H)], ∀ q, j.target = some q → s.next ≤ q := by
    refine List.forall_mem_singleton.mpr ?_
    rintro q ⟨⟩
    exact Nat.le_refl _
  generalize s.thenOn R p f g = made at hthen ⊢
  cases hthen with
  | late st h hs hh =>
    exact .extend rfl rfl rfl rfl (List.forall_mem_singleton.mpr (Nat.le_succ _)) (hsettle _)
  | invalid hf hg =>
    exact .extend rfl (List.append_nil _).symm rfl rfl (List.forall_mem_nil _) (hsettle _)
  | direct hdeaf =>
    exact .extend rfl rfl (List.append_nil _).symm rfl (List.forall_mem_singleton.mpr (Nat.le_refl _))
      (List.forall_mem_nil _)

theorem step_carries {l : Label V H} (hstep : step R s l = some s') : Carries (s.Touches l) s s' := by
  cases l with
  | construct =>
    cases hstep
    refine .extend rfl (List.append_nil _).symm rfl rfl (List.forall_mem_nil _) ?_
    refine List.forall_mem_singleton.mpr ?_
    rintro q ⟨⟩
  | thenOn p f g =>
    simp only [step] at hstep
    split at hstep
    · cases hstep
      exact thenOn_carries R s p f g
    · cases hstep
  | call p b =>
    simp only [step] at hstep
    split at hstep
    · cases hstep
      have hnoted : Carries (s.Touches (.call p b : Label V H)) s
          { s with decisions := s.decisions ++ [(p, b)] } :=
        .extend rfl (List.append_nil _).symm (List.append_nil _).symm rfl (List.forall_mem_nil _)
          (List.forall_mem_nil _)
      have htouches : s.Touches (.call p b : Label V H) p := rfl
      exact hnoted.trans (.broadcast htouches b)
    · cases hstep
  | run i =>
    obtain ⟨j, hj, hstep⟩ := Option.bind_eq_some_iff.mp hstep
    obtain ⟨n, hn, rfl⟩ := Option.map_eq_some_iff.mp hstep
    have hleave : Carries (s.Touches (.run i : Label V H)) s (s.leave i j.exposes [] []) :=
      .leave hj (fun q hq => ⟨j, hj, hq⟩) (List.forall_mem_nil _)
    cases ht : j.target with
    | some t => exact hleave.trans (.proceed ⟨j, hj, ht⟩ (Job.start_heads hn ht))
    | none =>
      obtain ⟨p, rfl, rfl⟩ := Job.start_executor hn ht
      refine hleave.trans (.extend rfl (List.append_nil _).symm rfl rfl (List.forall_mem_nil _) ?_)
      refine List.forall_mem_singleton.mpr ?_
      rintro q ⟨⟩
  | finish i o =>
    simp only [step] at hstep
    split at hstep
    · obtain ⟨j, hj, hstep⟩ := Option.bind_eq_some_iff.mp hstep
      obtain ⟨n, hn, rfl⟩ := Option.map_eq_some_iff.mp hstep
      have hleave (hcs : ∀ c ∈ j.called o, s.Touches (.finish i o : Label V H) c.promise) :
          Carries (s.Touches (.finish i o : Label V H)) s (s.leave i [] (j.called o) (j.decides o)) :=
        .leave hj (fun q hq => ⟨j, hj, .inl hq⟩) hcs
      cases ht : j.target with
      | some t =>
        obtain ⟨⟨c, hcalled, hc, -⟩, -, -⟩ := Job.finish_called hn ht
        refine (hleave ?_).trans (.proceed ⟨j, hj, .inl ht⟩ (Job.finish_heads hn ht))
        rw [hcalled]
        refine List.forall_mem_singleton.mpr ?_
        rw [hc]
        exact ⟨j, hj, .inl ht⟩
      | none =>
        obtain ⟨p, rfl, hcalled, hends⟩ := Job.finish_executing hn ht
        have hleft := hleave (by rw [hcalled]; exact List.forall_mem_nil _)
        rcases hends with ⟨rfl, -⟩ | ⟨b, rfl, -⟩
        · exact hleft
        · exact hleft.trans (.broadcast ⟨.executing p, hj, .inr rfl⟩ b)
    · cases hstep

theorem step_next {l : Label V H} (hstep : step R s l = some s') : s.next ≤ s'.next := by
  cases l with
  | construct =>
    cases hstep
    exact Nat.le_succ _
  | thenOn p f g =>
    simp only [step] at hstep
    split at hstep
    · cases hstep
      have hthen := thenOn_then R s p f g
      generalize s.thenOn R p f g = made at hthen ⊢
      cases hthen with
      | late st h hs hh => exact Nat.le_add_right _ 2
      | invalid hf hg => exact Nat.le_succ _
      | direct hdeaf => exact Nat.le_succ _
    · cases hstep
  | call p b =>
    simp only [step] at hstep
    split at hstep
    · cases hstep
      exact Nat.le_of_eq (broadcast_frame { s with decisions := s.decisions ++ [(p, b)] } p b).next.symm
    · cases hstep
  | run i =>
    obtain ⟨j, hj, hstep⟩ := Option.bind_eq_some_iff.mp hstep
    obtain ⟨n, hn, rfl⟩ := Option.map_eq_some_iff.mp hstep
    exact Nat.le_of_eq (proceed_frame (s.leave i j.exposes [] []) n).next.symm
  | finish i o =>
    simp only [step] at hstep
    split at hstep
    · obtain ⟨j, hj, hstep⟩ := Option.bind_eq_some_iff.mp hstep
      obtain ⟨n, hn, rfl⟩ := Option.map_eq_some_iff.mp hstep
      exact Nat.le_of_eq (proceed_frame (s.leave i [] (j.called o) (j.decides o)) n).next.symm
    · cases hstep

theorem step_constructed {l : Label V H} (hstep : step R s l = some s') (hq : q ∈ s.constructed) :
    q ∈ s'.constructed := by
  cases l with
  | construct =>
    cases hstep
    exact List.mem_append_left _ hq
  | thenOn p f g =>
    simp only [step] at hstep
    split at hstep
    · cases hstep
      have hthen := thenOn_then R s p f g
      generalize s.thenOn R p f g = made at hthen ⊢
      cases hthen with
      | late st h hs hh => exact hq
      | invalid hf hg => exact hq
      | direct hdeaf => exact hq
    · cases hstep
  | call p b =>
    simp only [step] at hstep
    split at hstep
    · cases hstep
      rw [(broadcast_frame _ p b).constructed]
      exact hq
    · cases hstep
  | run i =>
    obtain ⟨j, hj, hstep⟩ := Option.bind_eq_some_iff.mp hstep
    obtain ⟨n, hn, rfl⟩ := Option.map_eq_some_iff.mp hstep
    rw [(proceed_frame _ n).constructed]
    exact hq
  | finish i o =>
    simp only [step] at hstep
    split at hstep
    · obtain ⟨j, hj, hstep⟩ := Option.bind_eq_some_iff.mp hstep
      obtain ⟨n, hn, rfl⟩ := Option.map_eq_some_iff.mp hstep
      rw [(proceed_frame _ n).constructed]
      exact hq
    · cases hstep

theorem Opens.schedule {j : Job V H} (h : (s.schedule [j]).Opens q) (ht : j.target.isSome = true) :
    s.Opens q := by
  have hold {j' : Job V H} (hj' : j' ∈ s.jobs ++ [j]) (hnone : j'.target = none) : j' ∈ s.jobs := by
    rcases List.mem_append.mp hj' with hj' | hj'
    · exact hj'
    · rw [List.mem_singleton.mp hj'] at hnone
      rw [hnone] at ht
      cases ht
  rcases h with h | h | h
  · exact .inl h
  · exact .inr (.inl (hold h rfl))
  · exact .inr (.inr (hold h rfl))

theorem Opens.broadcast {b : Broadcast V} (h : (s.broadcast p b).Opens q) : s.Opens q := by
  generalize ht : s.broadcast p b = t at h
  have heffect := broadcast_effect s p b
  rw [ht] at heffect
  cases heffect with
  | same => exact h
  | settle st hp hb =>
    have hold {j : Job V H} (hj : j ∈ s.jobs ++ s.notifications p st) (hnone : j.target = none) :
        j ∈ s.jobs := by
      rcases List.mem_append.mp hj with hj | hj
      · exact hj
      · have hsome := notifications_target hj
        rw [hnone] at hsome
        cases hsome
    rcases h with h | h | h
    · exact .inl h
    · exact .inr (.inl (hold h rfl))
    · exact .inr (.inr (hold h rfl))
  | follow r st hp hb hne hr => exact h.schedule rfl
  | adopt r hp hb hne hr => exact h

theorem Opens.proceed {n : Next V H} {t : Nat} (h : (s.proceed n).Opens q) (hn : n.Heads t) : s.Opens q := by
  cases hn with
  | broadcast b => exact h.broadcast
  | job j hj hcall =>
    refine h.schedule ?_
    rw [hj]
    rfl
  | nothing => exact h

theorem Opens.leave {i : Nat} {es : List Nat} {cs : List (Call V H)} {ds : List (Nat × Broadcast V)}
    (h : (s.leave i es cs ds).Opens q) : s.Opens q ∨ q ∈ es := by
  rcases h with h | h | h
  · rcases List.mem_append.mp h with h | h
    · exact .inl (.inl h)
    · exact .inr h
  · exact .inl (.inr (.inl (leave_jobs_sublist.subset h)))
  · exact .inl (.inr (.inr (leave_jobs_sublist.subset h)))

theorem Opens.step {l : Label V H} (hstep : step R s l = some s') (h : s'.Opens q) (hq : q < s.next) :
    s.Opens q := by
  cases l with
  | construct =>
    cases hstep
    rcases h with h | h | h
    · exact .inl h
    · rcases List.mem_append.mp h with h | h
      · exact .inr (.inl h)
      · cases List.mem_singleton.mp h
        exact absurd hq (Nat.lt_irrefl _)
    · rcases List.mem_append.mp h with h | h
      · exact .inr (.inr h)
      · cases List.mem_singleton.mp h
  | thenOn p f g =>
    simp only [Heap.step] at hstep
    split at hstep
    · cases hstep
      have hthen := thenOn_then R s p f g
      generalize s.thenOn R p f g = made at hthen h
      cases hthen with
      | late st k hs hh => exact Opens.schedule (j := .settle s.next st.broadcast) h rfl
      | invalid hf hg => exact Opens.schedule (j := .settle s.next (.reject (.plain R.invalidArguments))) h rfl
      | direct hdeaf => exact h
    · cases hstep
  | call p b =>
    simp only [Heap.step] at hstep
    split at hstep
    · cases hstep
      exact h.broadcast
    · cases hstep
  | run i =>
    obtain ⟨j, hj, hstep⟩ := Option.bind_eq_some_iff.mp hstep
    obtain ⟨n, hn, rfl⟩ := Option.map_eq_some_iff.mp hstep
    have hmem := List.mem_of_getElem? hj
    cases ht : j.target with
    | some t =>
      rw [Job.start_exposes hn ht] at h
      rcases (h.proceed (Job.start_heads hn ht)).leave with h | h
      · exact h
      · cases h
    | none =>
      obtain ⟨p, rfl, rfl⟩ := Job.start_executor hn ht
      have hleft (h : (s.leave i [p] [] []).Opens q) : s.Opens q := by
        rcases h.leave with h | h
        · exact h
        · rw [List.mem_singleton.mp h]
          exact .inr (.inl hmem)
      rcases h with h | h | h
      · exact hleft (.inl h)
      · rcases List.mem_append.mp h with h | h
        · exact hleft (.inr (.inl h))
        · cases List.mem_singleton.mp h
      · rcases List.mem_append.mp h with h | h
        · exact hleft (.inr (.inr h))
        · cases List.mem_singleton.mp h
          exact .inr (.inl hmem)
  | finish i o =>
    simp only [Heap.step] at hstep
    split at hstep
    · obtain ⟨j, hj, hstep⟩ := Option.bind_eq_some_iff.mp hstep
      obtain ⟨n, hn, rfl⟩ := Option.map_eq_some_iff.mp hstep
      have hleft (h : (s.leave i [] (j.called o) (j.decides o)).Opens q) : s.Opens q := by
        rcases h.leave with h | h
        · exact h
        · cases h
      cases ht : j.target with
      | some t => exact hleft (h.proceed (Job.finish_heads hn ht))
      | none =>
        obtain ⟨p, rfl, -, hends⟩ := Job.finish_executing hn ht
        rcases hends with ⟨rfl, -⟩ | ⟨b, rfl, -⟩
        · exact hleft h
        · exact hleft h.broadcast
    · cases hstep

end Heap

end NexusRuntime.Promises
