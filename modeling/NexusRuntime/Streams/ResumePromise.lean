import NexusRuntime.Streams.Pipe

namespace NexusRuntime.Streams

open Transition Sequence

variable {α : Type}

def Chain.ends (filters : List (Filter α)) (c : Chain α) : Act → Bool
  | .job =>
    match c.stage with
    | .ready v => !decide (c.passed < filters.length) && (c.isEnd && v.isNone)
    | _ => false
  | .listened ok =>
    match c.stage with
    | .emitting => c.isEnd && ok
    | .reporting => c.isEnd
    | _ => false
  | _ => false

theorem turn_ends {filters : List (Filter α)} {histories : List (List (Option α))} {c : Chain α}
    {a : Act} {u : Turn α} (h : c.turn filters histories a = some u) :
    c.ends filters a = true ↔ .ended ∈ u.events := by
  cases turn_cases h with
  | call hs hp => simp [Chain.ends, hs, hp]
  | emit hs hp hv => simpa [Chain.ends, hs, hp] using hv
  | unflushed hs hp he => simp [Chain.ends, hs, hp, he]
  | filtered | rejected => simp [Chain.ends]
  | report hs | refused hs | finished hs => simp [Chain.ends, hs]
  | flushed hs he | listened hs he | reported hs he | dropped hs he =>
    simp [Chain.ends, hs, he]

namespace Piped

def WrittenTo (s : Piped α) (t : Nat) : Prop :=
  (∀ k c, s.stream.chains[k]? = some c → c.isEnd = false →
      ∃ b ∈ s.broadcasts, b.chain = k ∧ b.event.isEnd = false ∧ b.parts[t]? = some .written) ∧
    ∃ b ∈ s.broadcasts, b.event.isEnd = true ∧ b.parts[t]? = some .written

def ResumedAfterWrites (s : Piped α) : Prop :=
  s.promise = .resolved → ∀ t < s.tapes.length, s.WrittenTo t

def ends (filters : List (Filter α)) (s : Piped α) : PipeLabel α → Bool
  | .stream (.act k a) =>
    match s.stream.chains[k]? with
    | some c => c.ends filters a
    | none => false
  | _ => false

def EndsUnpiped (filters : List (Filter α)) (s : Piped α) (l : PipeLabel α) : Prop :=
  s.ends filters l = true → s.promise = .pending → s.tapes.length = 0

structure Open (s : Piped α) : Prop where
  listening : s.promise = .pending → s.listening = true
  unended : s.listening = true → ∀ b ∈ s.broadcasts, b.event.isEnd = false
  resolved : s.promise = .resolved → s.tapes.length = 0

theorem open_start (filters : List (Filter α)) (n : Nat) : Open (start filters n) where
  listening := fun _ => rfl
  unended := by simp [start]
  resolved := by rintro ⟨⟩

section Step
variable {filters : List (Filter α)} {s t : Piped α} {l : PipeLabel α}

theorem open_same (h : Open s) (r : Readable α) : Open { s with stream := r } :=
  ⟨h.listening, h.unended, h.resolved⟩

theorem open_reject (h : Open s) : Open { s with promise := s.promise.settle .rejected } where
  listening := fun hp => absurd hp (settle_ne_pending (by rintro ⟨⟩))
  unended := h.unended
  resolved := fun hp => h.resolved (settle_rejected.mp hp)

theorem open_broadcast (h : Open s) (k : Nat) (v : Option α) : Open (s.broadcast k (.data v)) where
  listening := h.listening
  unended := fun hl => forall_snoc (h.unended hl) rfl
  resolved := h.resolved

theorem open_ended (h : Open s) (k : Nat) (hn : s.promise = .pending → s.tapes.length = 0) :
    Open (s.hear (k, .ended)) where
  listening := fun hp => absurd hp (settle_ne_pending (by rintro ⟨⟩))
  unended := by rintro ⟨⟩
  resolved := by
    intro hp
    have htapes : (s.hear (k, .ended)).tapes = s.tapes := by
      simp only [hear, broadcast]
      split <;> rfl
    rw [htapes]
    by_cases hpending : s.promise = .pending
    · exact hn hpending
    · apply h.resolved
      rw [← hp]
      exact (settle_of_ne_pending hpending).symm

theorem open_advance {i j : Nat} {b : Broadcast α} (h : Open s) (hb : s.broadcasts[i]? = some b)
    (p : Part) (w : Write α) : Open (s.advance i j b p w) where
  listening := h.listening
  unended := by
    intro hl
    exact events_advance (fun e => e.isEnd = false) hb (h.unended hl)
  resolved := by
    rw [targets_advance]
    exact h.resolved

theorem ends_of_ended {k : Nat} {a : Act} {c : Chain α} {u : Turn α}
    (hc : s.stream.chains[k]? = some c) (hu : c.turn filters s.stream.histories a = some u)
    (he : u.events = [.ended]) : s.ends filters (.stream (.act k a)) = true := by
  simp only [ends, hc]
  exact (turn_ends hu).mpr (by simp [he])

theorem open_step (h : Open s) (hends : EndsUnpiped filters s l) (hstep : step filters s l = some t) :
    Open t := by
  cases step_cases hstep with
  | fire => exact open_same h _
  | quiet => exact open_same h _
  | @heard k a c u e hc hu hready he =>
    have hmoved : Open (s.moved k u) := open_same h _
    cases e with
    | data v => exact open_broadcast hmoved k v
    | error => exact open_reject hmoved
    | ended => exact open_ended hmoved k (hends (ends_of_ended hc hu he))
  | pass hb | complete hb | spoil hb => exact open_advance h hb _ _
  | @caught i b hb =>
    have hset : Open { s with broadcasts := s.broadcasts.set i { b with caught := true } } := by
      refine ⟨h.listening, ?_, h.resolved⟩
      intro hl
      have := h.unended hl
      exact forall_replace this (this b (List.mem_of_getElem? hb))
    exact open_same (open_reject hset) _
  | deviceError => exact open_reject h

theorem ends_event {l : PipeLabel α} (h : s.ends filters l = true)
    (hstep : step filters s l = some t) :
    ∃ k u, t = (s.moved k u).hear (k, .ended) := by
  cases step_cases hstep with
  | fire | pass | complete | spoil | caught | deviceError => cases h
  | quiet hc hu hready he =>
    simp only [ends, hc] at h
    have := (turn_ends hu).mp h
    simp [he] at this
  | @heard k a c u e hc hu hready he =>
    simp only [ends, hc] at h
    have hmem := (turn_ends hu).mp h
    rw [he, List.mem_singleton] at hmem
    exact ⟨k, u, by rw [← hmem]⟩

theorem unpiped_of_resumed (h : Open s) (hstep : step filters s l = some t)
    (hres : ResumedAfterWrites t) : EndsUnpiped filters s l := by
  intro hends hpending
  obtain ⟨k, u, rfl⟩ := ends_event hends hstep
  have hlistening := h.listening hpending
  apply Nat.eq_zero_of_not_pos
  intro hpos
  have hresolved : ((s.moved k u).hear (k, .ended)).promise = .resolved := by
    simp [hear, moved, hpending, Outcome.settle]
  have hbroadcasts : ((s.moved k u).hear (k, .ended)).broadcasts = s.broadcasts ++
      [⟨k, .ended, List.replicate s.tapes.length .queued, false⟩] := by
    simp [hear, moved, broadcast, hlistening]
  have htapes : ((s.moved k u).hear (k, .ended)).tapes = s.tapes := by
    simp [hear, moved, broadcast, hlistening]
  obtain ⟨b, hb, hend, hpart⟩ := (hres hresolved 0 (by rw [htapes]; exact hpos)).2
  rw [hbroadcasts] at hb
  rcases List.mem_append.mp hb with hb | hb
  · have := h.unended hlistening b hb
    rw [hend] at this
    cases this
  · rw [List.mem_singleton.mp hb, List.getElem?_replicate, if_pos hpos] at hpart
    cases hpart

end Step

theorem resumed_iff_ends_unpiped (filters : List (Filter α)) (targets : Nat)
    (ls : List (PipeLabel α)) :
    (system filters).always ResumedAfterWrites (start filters targets) ls ↔
      (system filters).meets (EndsUnpiped filters) (start filters targets) ls := by
  refine (system filters).always_iff_meets ?_ ?_ ?_ (open_start filters targets) ls
  · intro s hinv hresolved t ht
    rw [hinv.resolved hresolved] at ht
    exact absurd ht (Nat.not_lt_zero t)
  · intro s l t hinv hstep hres
    exact unpiped_of_resumed hinv hstep hres
  · intro s l t hinv hends hstep
    exact open_step hinv hends hstep

def oneChunk : List (PipeLabel Nat) :=
  [.stream (.fire (some 0)), .stream (.act 0 .job), .pass 0 0, .complete 0 0 true,
    .stream (.act 0 (.listened true)), .stream (.fire none), .stream (.act 1 .job)]

theorem resolved_before_final_write :
    ((system []).run (start [] 1) oneChunk).map (fun s => (s.promise, s.tapes)) =
        some (.resolved, [[.passed (some 0), .completed (some 0)]]) ∧
      ¬ (system []).always ResumedAfterWrites (start [] 1) oneChunk := by
  refine ⟨by decide, ?_⟩
  obtain ⟨s, hs⟩ : ∃ s, (system []).run (start [] 1) oneChunk = some s :=
    Option.isSome_iff_exists.mp (by decide)
  have hview : ((system []).run (start [] 1) oneChunk).map (fun s => (s.promise, s.tapes.length)) =
      some (.resolved, 1) := by decide
  have hparts : ((system []).run (start [] 1) oneChunk).map (fun s =>
      s.broadcasts.map fun b => (b.event.isEnd, b.parts)) =
        some [(false, [.written]), (true, [.queued])] := by decide
  rw [hs, Option.map_some, Option.some.injEq] at hview hparts
  obtain ⟨hpromise, htargets⟩ := Prod.mk.inj hview
  intro h
  have hres := ((system []).always_iff_prefixes _ _ _).mp h _ (List.prefix_refl _) s hs
  obtain ⟨b, hb, hend, hpart⟩ := (hres hpromise 0 (by omega)).2
  have hmem : (b.event.isEnd, b.parts) ∈ s.broadcasts.map fun b => (b.event.isEnd, b.parts) :=
    List.mem_map_of_mem hb
  rw [hparts, hend] at hmem
  rcases List.mem_cons.mp hmem with heq | hmem
  · cases heq
  · rw [(Prod.mk.inj (List.mem_singleton.mp hmem)).2] at hpart
    cases hpart

end Piped
end NexusRuntime.Streams
