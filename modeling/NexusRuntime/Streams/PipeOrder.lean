import NexusRuntime.Streams.Pipe
import NexusRuntime.Streams.Push

namespace NexusRuntime.Streams

open Transition Sequence

variable {α : Type}

def PipeLabel.calm : PipeLabel α → Bool
  | .stream l => l.calm
  | .pass _ _ => true
  | .complete _ _ ok => ok
  | .caught _ | .deviceError => false

def arrivals (filters : List (Filter α)) (cs : List α) : List (Option α) :=
  through filters (cs.map some) ++
    (match flushed filters cs with
    | none => []
    | some v => [some v]) ++ [none]

def writes (v : Option α) : List (Write α) := [.passed v, .completed v]

def Part.left : Part → Nat
  | .queued => 2
  | .writing => 1
  | .written | .failed => 0

namespace Broadcast

def left (b : Broadcast α) : Nat := total Part.left b.parts

def full (b : Broadcast α) : List (Write α) := writes b.event.written

def heardBy (t : Nat) (b : Broadcast α) : List (Write α) :=
  match b.parts[t]? with
  | some .writing => [.passed b.event.written]
  | some .written => writes b.event.written
  | _ => []

def Finished (b : Broadcast α) : Prop := ∀ p ∈ b.parts, p = .written

theorem heardBy_finished {b : Broadcast α} {t : Nat} (h : b.Finished) (ht : t < b.parts.length) :
    b.heardBy t = b.full := by
  have hp : b.parts[t]? = some .written := by
    rw [List.getElem?_eq_getElem ht, h _ (List.getElem_mem ht)]
  rw [heardBy, hp]
  rfl

theorem heardBy_prefix (b : Broadcast α) (t : Nat) : b.heardBy t <+: b.full := by
  unfold heardBy full writes
  split
  · exact ⟨[.completed b.event.written], rfl⟩
  · exact List.prefix_refl _
  · exact List.nil_prefix

end Broadcast

namespace Piped

def Waits (cs : List α) (s : Piped α) (l : PipeLabel α) : Prop :=
  l.calm = true ∧ ∀ x, l = .stream (.fire x) →
    (∀ (k : Nat) (c : Chain α), s.stream.chains[k]? = some c → c.stage = .done) ∧
      (source cs)[s.stream.chains.length]? = some x

def left (filters : List (Filter α)) (cs : List α) (s : Piped α) : Nat :=
  (2 * s.tapes.length + 1) * s.stream.left filters cs + total Broadcast.left s.broadcasts

-- the writes of one event are over before those of the next begin
structure Taped (s : Piped α) : Prop where
  width : ∀ b ∈ s.broadcasts, b.parts.length = s.tapes.length
  sound : ∀ b ∈ s.broadcasts, .failed ∉ b.parts ∧ b.caught = false
  earlier : ∀ i b, s.broadcasts[i]? = some b → i + 1 < s.broadcasts.length → b.Finished
  tapes : ∀ t tape, s.tapes[t]? = some tape → tape = s.broadcasts.flatMap (·.heardBy t)

section Taped
variable {s : Piped α}

theorem settled_finished {b : Broadcast α} (hcaught : b.caught = false) (h : b.settled = true) :
    b.Finished := by
  intro p hp
  have hall : b.parts.all (· == .written) = true := by simpa [Broadcast.settled, hcaught] using h
  exact beq_iff_eq.mp (List.all_eq_true.mp hall p hp)

theorem finished_settled {b : Broadcast α} (h : b.Finished) : b.settled = true := by
  have hall : b.parts.all (· == .written) = true :=
    List.all_eq_true.mpr fun p hp => beq_iff_eq.mpr (h p hp)
  rw [Broadcast.settled, hall, Bool.true_or]

theorem taped_start (filters : List (Filter α)) (n : Nat) : Taped (start filters n) where
  width := by simp [start]
  sound := by simp [start]
  earlier := by simp [start]
  tapes := by
    intro t tape ht
    exact (List.mem_replicate.mp (List.mem_of_getElem? ht)).2

theorem taped_broadcast (h : Taped s) (hall : ∀ b ∈ s.broadcasts, b.Finished) (k : Nat)
    (e : Event α) : Taped (s.broadcast k e) where
  width := forall_snoc h.width List.length_replicate
  sound := by
    apply forall_snoc h.sound
    refine ⟨?_, rfl⟩
    intro hmem
    cases (List.mem_replicate.mp hmem).2
  earlier := by
    intro i b hb hlt
    have hlen : i < s.broadcasts.length := by simpa [broadcast] using hlt
    rw [broadcast, List.getElem?_append_left hlen] at hb
    exact hall b (List.mem_of_getElem? hb)
  tapes := by
    intro t tape ht
    have hlt : t < s.tapes.length := (List.getElem?_eq_some_iff.mp ht).1
    rw [h.tapes t tape ht, broadcast, List.flatMap_append]
    simp [Broadcast.heardBy, hlt]

variable {i t : Nat} {b : Broadcast α} {p q : Part} {w : Write α}

theorem last_of_unfinished (h : Taped s) (hb : s.broadcasts[i]? = some b) (hp : b.parts[t]? = some p)
    (hne : p ≠ .written) : s.broadcasts.length = i + 1 := by
  have hlt := (List.getElem?_eq_some_iff.mp hb).1
  apply Nat.le_antisymm _ hlt
  apply Nat.le_of_not_lt
  intro hmore
  exact hne (h.earlier i b hb hmore p (List.mem_of_getElem? hp))

theorem taped_advance (h : Taped s) (hb : s.broadcasts[i]? = some b) (hp : b.parts[t]? = some p)
    (hne : p ≠ .written) (hq : q ≠ .failed)
    (hw : ({ b with parts := b.parts.set t q } : Broadcast α).heardBy t = b.heardBy t ++ [w]) :
    Taped (s.advance i t b q w) := by
  have hlast := last_of_unfinished h hb hp hne
  have hmem := List.mem_of_getElem? hb
  constructor
  · rw [targets_advance]
    apply forall_replace h.width
    rw [List.length_set]
    exact h.width b hmem
  · apply forall_replace h.sound
    refine ⟨?_, (h.sound b hmem).2⟩
    intro hfailed
    rcases List.mem_or_eq_of_mem_set hfailed with hfailed | rfl
    · exact (h.sound b hmem).1 hfailed
    · exact hq rfl
  · intro j d hd hlt
    rw [advance, List.length_set] at hlt
    rcases getElem?_replace hd with ⟨rfl, -⟩ | ⟨-, hd⟩
    · omega
    · exact h.earlier j d hd hlt
  · intro j tape htape
    have hdrop : s.broadcasts.drop (i + 1) = [] := List.drop_eq_nil_of_le (by omega)
    have hsplit := split_at hb
    have hset := replace_split hb ({ b with parts := b.parts.set t q } : Broadcast α)
    rw [hdrop] at hsplit hset
    simp only [advance] at htape ⊢
    rw [hset, List.flatMap_append, List.flatMap_singleton]
    rw [List.getElem?_modify] at htape
    obtain ⟨old, hold, rfl⟩ := Option.map_eq_some_iff.mp htape
    have hbefore : old = (s.broadcasts.take i).flatMap (·.heardBy j) ++ b.heardBy j := by
      rw [h.tapes j old hold]
      conv_lhs => rw [hsplit]
      rw [List.flatMap_append, List.flatMap_singleton]
    by_cases hj : t = j
    · subst hj
      rw [if_pos rfl, hbefore, hw, List.append_assoc]
    · have hsame : ({ b with parts := b.parts.set t q } : Broadcast α).heardBy j = b.heardBy j := by
        simp only [Broadcast.heardBy, List.getElem?_set_ne hj]
      rw [if_neg hj, hbefore, hsame]

end Taped
structure Flow (filters : List (Filter α)) (cs : List α) (targets : Nat) (s : Piped α) : Prop
    extends Taped s where
  delivered : s.stream.Delivered filters cs
  alone : ∀ (k : Nat) (c : Chain α), s.stream.chains[k]? = some c →
    k + 1 < s.stream.chains.length → c.stage = .done
  heard : s.broadcasts.map (fun b => (b.chain, b.event)) = s.stream.log
  listening : s.listening = false → .ended ∈ s.stream.log.map (·.2)
  targets : s.tapes.length = targets
  held : ∀ b ∈ s.broadcasts, b.Finished ∨
    ∃ c, s.stream.chains[b.chain]? = some c ∧ b.heldBy c.stage = true

theorem flow_start (filters : List (Filter α)) (cs : List α) (targets : Nat) :
    Flow filters cs targets (start filters targets) where
  toTaped := taped_start filters targets
  delivered := Readable.delivered_start filters cs
  alone := by simp [start, Readable.start]
  heard := rfl
  listening := by rintro ⟨⟩
  targets := List.length_replicate
  held := by simp [start]

section Flow
variable {filters : List (Filter α)} {cs : List α} {targets : Nat} {s t : Piped α}

theorem flow_fire {x : Option α} (h : Flow filters cs targets s)
    (hl : Waits cs s (.stream (.fire x))) :
    Flow filters cs targets
      { s with stream := { s.stream with chains := s.stream.chains ++ [⟨x, 0, .ready x⟩] } } where
  width := h.width
  sound := h.sound
  earlier := h.earlier
  tapes := h.tapes
  delivered := (Readable.delivered_step h.delivered (Readable.delivers_fire (hl.2 x rfl).2) rfl).1
  alone := by
    intro k c hc hlt
    rw [List.length_append, List.length_singleton] at hlt
    rw [List.getElem?_append_left (by omega)] at hc
    exact (hl.2 x rfl).1 k c hc
  heard := h.heard
  listening := h.listening
  targets := h.targets
  held := by
    intro b hb
    rcases h.held b hb with hdone | ⟨c, hc, hheld⟩
    · exact .inl hdone
    · refine .inr ⟨c, ?_, hheld⟩
      rw [List.getElem?_append_left (List.getElem?_eq_some_iff.mp hc).1]
      exact hc

section Act
variable {k : Nat} {a : Act} {c : Chain α} {u : Turn α}

theorem stage_of_turn {filters : List (Filter α)} {histories : List (List (Option α))}
    (hu : c.turn filters histories a = some u) : c.stage ≠ .done := by
  intro hs
  cases a <;> simp [Chain.turn, hs] at hu

theorem before_of_turn (h : Flow filters cs targets s) (hc : s.stream.chains[k]? = some c)
    (hu : c.turn filters s.stream.histories a = some u) :
    ∀ i b, s.stream.chains[i]? = some b → i ≠ k → b.stage = .done := by
  have hk := (List.getElem?_eq_some_iff.mp hc).1
  have hlast : s.stream.chains.length ≤ k + 1 := by
    apply Nat.le_of_not_lt
    intro hlt
    exact stage_of_turn hu (h.alone k c hc hlt)
  intro i b hb hik
  have hi := (List.getElem?_eq_some_iff.mp hb).1
  exact h.alone i b hb (by omega)

theorem act_of_held {b : Broadcast α} (hu : c.turn filters s.stream.histories a = some u)
    (hcalm : a.calm = true) (hheld : b.heldBy c.stage = true) : a = .listened true := by
  unfold Broadcast.heldBy at hheld
  cases turn_cases hu with
  | flushed => rfl
  | @listened ok | @finished ok =>
    obtain rfl : ok = true := hcalm
    rfl
  | rejected => cases hcalm
  | refused => cases hcalm
  | call hs | emit hs | unflushed hs | report hs | filtered hs | reported hs | dropped hs =>
    simp [hs] at hheld

-- a chain takes its turn only after the writes that its last event set off
theorem finished_of_turn (h : Flow filters cs targets s) (hc : s.stream.chains[k]? = some c)
    (hu : c.turn filters s.stream.histories a = some u) (hcalm : a.calm = true)
    (hready : s.ready (.act k a) = true) : ∀ b ∈ s.broadcasts, b.Finished := by
  intro b hb
  rcases h.held b hb with hdone | ⟨d, hd, hheld⟩
  · exact hdone
  · by_cases hk : b.chain = k
    · rw [hk] at hd
      obtain rfl := Option.some.inj (hc.symm.trans hd)
      obtain rfl := act_of_held hu hcalm hheld
      simp only [ready, hc] at hready
      have := List.all_eq_true.mp hready b hb
      have hsettled : b.settled = true := by simpa [hk, hheld] using this
      exact settled_finished (h.sound b hb).2 hsettled
    · have := before_of_turn h hc hu b.chain d hd hk
      simp [Broadcast.heldBy, this] at hheld

theorem delivers_act (h : Flow filters cs targets s) (hc : s.stream.chains[k]? = some c)
    (hu : c.turn filters s.stream.histories a = some u) (hcalm : a.calm = true) :
    Readable.Delivers filters cs s.stream (.act k a) := by
  refine ⟨hcalm, Readable.in_turn_of_done h.delivered.toValues hc hu ?_, ?_⟩
  · intro i hi b hb
    exact before_of_turn h hc hu i b hb (by omega)
  · rintro x ⟨⟩

theorem moved_step (hc : s.stream.chains[k]? = some c)
    (hu : c.turn filters s.stream.histories a = some u) :
    Readable.step filters s.stream (.act k a) = some (s.moved k u).stream := by
  simp [Readable.step, hc, hu, moved]

theorem moved_delivered (h : Flow filters cs targets s) (hc : s.stream.chains[k]? = some c)
    (hu : c.turn filters s.stream.histories a = some u) (hcalm : a.calm = true) :
    (s.moved k u).stream.Delivered filters cs ∧
      (s.moved k u).stream.left filters cs < s.stream.left filters cs :=
  Readable.delivered_step h.delivered (delivers_act h hc hu hcalm) (moved_step hc hu)

theorem moved_alone (h : Flow filters cs targets s) (hc : s.stream.chains[k]? = some c)
    (hu : c.turn filters s.stream.histories a = some u) (i : Nat) (d : Chain α)
    (hd : (s.stream.chains.set k u.chain)[i]? = some d)
    (hlt : i + 1 < s.stream.chains.length) : d.stage = .done := by
  rcases getElem?_replace hd with ⟨rfl, -⟩ | ⟨-, hd⟩
  · exact absurd (h.alone k c hc hlt) (stage_of_turn hu)
  · exact h.alone i d hd hlt

theorem flow_quiet (h : Flow filters cs targets s) (hc : s.stream.chains[k]? = some c)
    (hu : c.turn filters s.stream.histories a = some u) (hcalm : a.calm = true)
    (hready : s.ready (.act k a) = true) (he : u.events = []) :
    Flow filters cs targets (s.moved k u) where
  width := h.width
  sound := h.sound
  earlier := h.earlier
  tapes := h.tapes
  delivered := (moved_delivered h hc hu hcalm).1
  alone := by
    intro i d hd hlt
    rw [moved, List.length_set] at hlt
    exact moved_alone h hc hu i d hd hlt
  heard := by simp [moved, he, h.heard]
  listening := by simpa [moved, he] using h.listening
  targets := h.targets
  held := fun b hb => .inl (finished_of_turn h hc hu hcalm hready b hb)

-- 'end' is the last event of a stream and comes once
theorem unended_before {xs : List (Event α)} {e : Event α}
    (h : xs ++ [e] <+: emissions filters cs) : .ended ∉ xs := by
  obtain ⟨before, hbefore, hunended⟩ : ∃ before, emissions filters cs = before ++ [.ended] ∧
      .ended ∉ before := by
    unfold emissions
    cases flushed filters cs with
    | none => exact ⟨_, rfl, by simp⟩
    | some v =>
      refine ⟨(through filters (cs.map some)).map .data ++ [.data (some v)], ?_, by simp⟩
      rw [List.append_assoc]
      rfl
  have hpre : xs <+: before := by
    rw [hbefore, List.prefix_concat_iff] at h
    rcases h with heq | hpre
    · rw [(List.append_inj' heq rfl).1]
    · exact (List.prefix_append xs [e]).trans hpre
  exact fun hmem => hunended (hpre.subset hmem)

theorem flow_broadcast (h : Flow filters cs targets s) (hc : s.stream.chains[k]? = some c)
    (hu : c.turn filters s.stream.histories a = some u) (hcalm : a.calm = true)
    (hready : s.ready (.act k a) = true) {e : Event α} (he : u.events = [e])
    (hheld : (⟨k, e, List.replicate s.tapes.length .queued, false⟩ : Broadcast α).heldBy
      u.chain.stage = true) {listening : Bool} (promise : Outcome)
    (hl : listening = false → .ended ∈ (s.moved k u).stream.log.map (·.2)) :
    Flow filters cs targets
      { (s.moved k u).broadcast k e with listening := listening, promise := promise } := by
  have hall := finished_of_turn h hc hu hcalm hready
  have hmoved : Taped (s.moved k u) := ⟨h.width, h.sound, h.earlier, h.tapes⟩
  have htaped := taped_broadcast hmoved hall k e
  constructor
  · exact ⟨htaped.width, htaped.sound, htaped.earlier, htaped.tapes⟩
  · exact (moved_delivered h hc hu hcalm).1
  · intro i d hd hlt
    simp only [broadcast, moved, List.length_set] at hd hlt
    exact moved_alone h hc hu i d hd hlt
  · simp [broadcast, moved, he, h.heard]
  · exact hl
  · exact h.targets
  · refine forall_snoc ?_ ?_
    · intro b hb
      exact .inl (hall b hb)
    · refine .inr ⟨u.chain, ?_, hheld⟩
      have hk := (List.getElem?_eq_some_iff.mp hc).1
      simp [broadcast, moved, hk]

theorem turn_held (hu : c.turn filters s.stream.histories a = some u) {level : Nat → Option α}
    (hsound : c.Sound filters level) {e : Event α} (he : u.events = [e]) :
    (∃ v, e = .data v) ∧ u.chain.stage = .emitting ∨ e = .ended ∧ u.chain.stage = .ending := by
  cases turn_cases hu with
  | call | filtered | rejected | refused | listened | dropped | finished => simp at he
  | report hs => exact absurd hs hsound.unfailed.1
  | @emit v => exact .inl ⟨⟨v, (List.singleton_inj.mp he).symm⟩, rfl⟩
  | unflushed | flushed | reported => exact .inr ⟨(List.singleton_inj.mp he).symm, rfl⟩

theorem flow_heard (h : Flow filters cs targets s) (hc : s.stream.chains[k]? = some c)
    (hu : c.turn filters s.stream.histories a = some u) (hcalm : a.calm = true)
    (hready : s.ready (.act k a) = true) {e : Event α} (he : u.events = [e]) :
    Flow filters cs targets ((s.moved k u).hear (k, e)) := by
  have hlog : (s.moved k u).stream.log.map (·.2) = s.stream.log.map (·.2) ++ [e] := by
    simp [moved, he]
  rcases turn_held hu (h.delivered.sound k c hc) he with ⟨⟨v, rfl⟩, hstage⟩ | ⟨rfl, hstage⟩
  · apply flow_broadcast h hc hu hcalm hready he (by rw [hstage]; rfl) s.promise
    intro hl
    rw [hlog]
    exact List.mem_append_left _ (h.listening hl)
  · have hpre := Readable.log_prefix (moved_delivered h hc hu hcalm).1
    rw [hlog] at hpre
    have hl : s.listening = true := by
      cases hlistening : s.listening with
      | true => rfl
      | false => exact absurd (h.listening hlistening) (unended_before hpre)
    have hhear : (s.moved k u).hear (k, .ended) =
        { (s.moved k u).broadcast k .ended with
          listening := false, promise := s.promise.settle .resolved } := by
      simp [hear, moved, hl, broadcast]
    rw [hhear]
    apply flow_broadcast h hc hu hcalm hready he (by rw [hstage]; rfl)
    intro _
    rw [hlog]
    exact List.mem_append_right _ (List.mem_singleton.mpr rfl)

end Act

section Advance
variable {i j : Nat} {b : Broadcast α} {p q : Part} {w : Write α}

theorem flow_advance (h : Flow filters cs targets s) (hb : s.broadcasts[i]? = some b)
    (hp : b.parts[j]? = some p) (hne : p ≠ .written) (hq : q ≠ .failed)
    (hw : ({ b with parts := b.parts.set j q } : Broadcast α).heardBy j = b.heardBy j ++ [w]) :
    Flow filters cs targets (s.advance i j b q w) where
  toTaped := taped_advance h.toTaped hb hp hne hq hw
  delivered := h.delivered
  alone := h.alone
  heard := by
    have hsame : (s.broadcasts.set i { b with parts := b.parts.set j q }).map
        (fun b => (b.chain, b.event)) = s.broadcasts.map fun b => (b.chain, b.event) :=
      map_replace hb rfl
    exact hsame.trans h.heard
  listening := h.listening
  targets := by rw [targets_advance, h.targets]
  held := by
    apply forall_replace h.held
    have hmem := List.mem_of_getElem? hb
    have hbusy := (h.held b hmem).resolve_left fun hdone => hne (hdone p (List.mem_of_getElem? hp))
    exact .inr hbusy

theorem left_advance (hb : s.broadcasts[i]? = some b) (hp : b.parts[j]? = some p)
    (hless : q.left < p.left) : (s.advance i j b q w).left filters cs < s.left filters cs := by
  have hparts := total_replace Part.left hp q
  have hall := total_replace Broadcast.left hb { b with parts := b.parts.set j q }
  have hstream : (s.advance i j b q w).stream = s.stream := rfl
  have hbroadcasts : (s.advance i j b q w).broadcasts =
      s.broadcasts.set i { b with parts := b.parts.set j q } := rfl
  rw [left, left, targets_advance, hstream, hbroadcasts]
  simp only [Broadcast.left] at hall ⊢
  omega

theorem heard_passed (hp : b.parts[j]? = some .queued) :
    ({ b with parts := b.parts.set j .writing } : Broadcast α).heardBy j =
      b.heardBy j ++ [.passed b.event.written] := by
  have hj := (List.getElem?_eq_some_iff.mp hp).1
  simp only [Broadcast.heardBy, hp, List.getElem?_set_self hj]
  rfl

theorem heard_completed (hp : b.parts[j]? = some .writing) :
    ({ b with parts := b.parts.set j .written } : Broadcast α).heardBy j =
      b.heardBy j ++ [.completed b.event.written] := by
  have hj := (List.getElem?_eq_some_iff.mp hp).1
  simp only [Broadcast.heardBy, hp, List.getElem?_set_self hj]
  rfl

end Advance

theorem hear_left (s : Piped α) (k : Nat) (e : Event α) :
    (s.hear (k, e)).left filters cs ≤ s.left filters cs + 2 * s.tapes.length := by
  have hnew : (s.broadcast k e).left filters cs = s.left filters cs + 2 * s.tapes.length := by
    simp only [left, broadcast, total_append, total, Broadcast.left, total_replicate, Part.left]
    omega
  cases e with
  | data v => exact Nat.le_of_eq hnew
  | error => exact Nat.le_add_right _ _
  | ended =>
    cases hl : s.listening with
    | true =>
      rw [← hnew]
      simp [hear, hl, left]
    | false => simp [hear, hl, left]

theorem moved_left {k : Nat} {u : Turn α}
    (hless : (s.moved k u).stream.left filters cs < s.stream.left filters cs) :
    (s.moved k u).left filters cs + 2 * s.tapes.length < s.left filters cs := by
  have hmul := Nat.mul_le_mul_left (2 * s.tapes.length + 1) hless
  rw [Nat.mul_succ] at hmul
  have htapes : (s.moved k u).tapes = s.tapes := rfl
  have hbroadcasts : (s.moved k u).broadcasts = s.broadcasts := rfl
  rw [left, left, htapes, hbroadcasts]
  omega

theorem flow_step {l : PipeLabel α} (h : Flow filters cs targets s) (hl : Waits cs s l)
    (hstep : step filters s l = some t) :
    Flow filters cs targets t ∧ t.left filters cs < s.left filters cs := by
  cases step_cases hstep with
  | @fire x =>
    refine ⟨flow_fire h hl, ?_⟩
    have hless := (Readable.delivered_step h.delivered
      (Readable.delivers_fire (hl.2 x rfl).2) rfl).2
    exact Nat.add_lt_add_right (Nat.mul_lt_mul_of_pos_left hless (Nat.succ_pos _)) _
  | quiet hc hu hready he =>
    have hless := moved_left (moved_delivered h hc hu hl.1).2
    exact ⟨flow_quiet h hc hu hl.1 hready he, by omega⟩
  | @heard k a c u e hc hu hready he =>
    have hless := moved_left (moved_delivered h hc hu hl.1).2
    have hmore : ((s.moved k u).hear (k, e)).left filters cs ≤
        (s.moved k u).left filters cs + 2 * (s.moved k u).tapes.length := hear_left _ k e
    have htapes : (s.moved k u).tapes.length = s.tapes.length := rfl
    exact ⟨flow_heard h hc hu hl.1 hready he, by omega⟩
  | pass hb hp =>
    refine ⟨flow_advance h hb hp (by rintro ⟨⟩) (by rintro ⟨⟩) (heard_passed hp), ?_⟩
    exact left_advance hb hp (Nat.lt_succ_self 1)
  | complete hb hp =>
    refine ⟨flow_advance h hb hp (by rintro ⟨⟩) (by rintro ⟨⟩) (heard_completed hp), ?_⟩
    exact left_advance hb hp (Nat.lt_succ_self 0)
  | spoil => cases hl.1
  | caught => cases hl.1
  | deviceError => cases hl.1

theorem tape_so_far (h : Flow filters cs targets s) {j : Nat} {tape : List (Write α)}
    (ht : s.tapes[j]? = some tape) :
    tape <+: (s.stream.log.map (·.2)).flatMap fun e => writes e.written := by
  have hj := (List.getElem?_eq_some_iff.mp ht).1
  have hall : (s.stream.log.map (·.2)).flatMap (fun e => writes e.written) =
      s.broadcasts.flatMap Broadcast.full := by
    rw [← h.heard, List.map_map, List.flatMap_map]
    rfl
  rw [h.tapes j tape ht, hall]
  rcases List.eq_nil_or_concat s.broadcasts with hnil | ⟨before, last, hsplit⟩
  · rw [hnil]
    exact List.prefix_refl _
  · rw [List.concat_eq_append] at hsplit
    have hbefore : before.flatMap (·.heardBy j) = before.flatMap Broadcast.full := by
      apply List.flatMap_congr
      intro b hb
      obtain ⟨i, hi⟩ := List.mem_iff_getElem?.mp hb
      have hlt := (List.getElem?_eq_some_iff.mp hi).1
      have hget : s.broadcasts[i]? = some b := by
        rw [hsplit, List.getElem?_append_left hlt]
        exact hi
      have hmem := List.mem_of_getElem? hget
      apply Broadcast.heardBy_finished (h.earlier i b hget (by rw [hsplit]; simp; omega))
      rw [h.width b hmem]
      exact hj
    rw [hsplit, List.flatMap_append, List.flatMap_append, hbefore, List.flatMap_singleton,
      List.flatMap_singleton, List.prefix_append_right_inj]
    exact last.heardBy_prefix j

theorem emissions_written (filters : List (Filter α)) (cs : List α) :
    (emissions filters cs).flatMap (fun e => writes e.written) =
      (arrivals filters cs).flatMap writes := by
  have houts : ((through filters (cs.map some)).map Event.data).flatMap (fun e => writes e.written) =
      (through filters (cs.map some)).flatMap writes := by
    rw [List.flatMap_map]
    rfl
  unfold emissions arrivals
  rw [List.flatMap_append, List.flatMap_append, List.flatMap_append, houts, List.append_assoc]
  cases flushed filters cs <;> rfl

theorem part_eq {i j : Nat} {b : Broadcast α} {p : Part} (hb : s.broadcasts[i]? = some b)
    (hp : b.parts[j]? = some p) : s.part i j = some (b, p) := by
  rw [part, hb, Option.bind_some, hp]
  rfl

theorem finished_of_stuck (h : Flow filters cs targets s)
    (hstuck : (system filters).Stuck (Waits cs) s) : ∀ b ∈ s.broadcasts, b.Finished := by
  intro b hb p hp
  obtain ⟨i, hi⟩ := List.mem_iff_getElem?.mp hb
  obtain ⟨j, hj⟩ := List.mem_iff_getElem?.mp hp
  have hpart := part_eq hi hj
  cases p with
  | written => rfl
  | failed => exact absurd hp (h.sound b hb).1
  | queued =>
    have hstep : step filters s (.pass i j) =
        some (s.advance i j b .writing (.passed b.event.written)) := by
      simp only [step, hpart]
    exact absurd ⟨rfl, by rintro x ⟨⟩⟩ (hstuck (.pass i j) _ hstep)
  | writing =>
    have hstep : step filters s (.complete i j true) =
        some (s.advance i j b .written (.completed b.event.written)) := by
      simp only [step, hpart, if_true]
    exact absurd ⟨rfl, by rintro x ⟨⟩⟩ (hstuck (.complete i j true) _ hstep)

theorem ready_of_finished (h : ∀ b ∈ s.broadcasts, b.Finished) (l : StreamLabel α) :
    s.ready l = true := by
  unfold ready
  split
  · split
    · rw [List.all_eq_true]
      intro b hb
      rw [finished_settled (h b hb), Bool.or_true]
    · rfl
  · rfl

theorem tapes_of_stuck (h : Flow filters cs targets s)
    (hstuck : (system filters).Stuck (Waits cs) s) :
    s.tapes = List.replicate targets ((arrivals filters cs).flatMap writes) := by
  have hfinished := finished_of_stuck h hstuck
  have hopen : ∀ l r, Readable.step filters s.stream l = some r →
      ¬ Waits cs s (.stream l) := by
    intro l r hr
    refine hstuck (.stream l) ((r.log.drop s.stream.log.length).foldl hear { s with stream := r }) ?_
    simp only [system, step, ready_of_finished hfinished l, if_true, hr, Option.map_some]
  have hdone := Readable.done_of_stuck h.delivered fun k a r hr hl =>
    hopen (.act k a) r hr ⟨hl.1, by rintro x ⟨⟩⟩
  have hfired := Readable.fired_of_stuck h.delivered fun x hx =>
    hopen (.fire x) _ rfl ⟨rfl, by
      intro y hy
      obtain rfl := StreamLabel.fire.inj (PipeLabel.stream.inj hy)
      exact ⟨hdone, hx⟩⟩
  have hlog := Readable.log_of_done h.delivered hfired hdone
  apply List.eq_replicate_iff.mpr
  refine ⟨h.targets, ?_⟩
  intro tape ht
  obtain ⟨j, hj⟩ := List.mem_iff_getElem?.mp ht
  have hwidth := (List.getElem?_eq_some_iff.mp hj).1
  rw [← emissions_written, ← hlog, h.tapes j tape hj, ← h.heard, List.map_map, List.flatMap_map]
  apply List.flatMap_congr
  intro b hb
  exact Broadcast.heardBy_finished (hfinished b hb) (by rw [h.width b hb]; exact hwidth)

end Flow

def InOrderSoFar (filters : List (Filter α)) (cs : List α) (s : Piped α) : Prop :=
  ∀ tape ∈ s.tapes, tape <+: (arrivals filters cs).flatMap writes

theorem in_order_of_flow {filters : List (Filter α)} {cs : List α} {targets : Nat} {s : Piped α}
    (h : Flow filters cs targets s) : InOrderSoFar filters cs s := by
  intro tape ht
  obtain ⟨j, hj⟩ := List.mem_iff_getElem?.mp ht
  rw [← emissions_written]
  obtain ⟨rest, hrest⟩ := Readable.log_prefix h.delivered
  rw [← hrest, List.flatMap_append]
  exact (tape_so_far h hj).trans (List.prefix_append _ _)

theorem pipe_delivers_in_order (filters : List (Filter α)) (targets : Nat) (cs : List α) :
    (∀ ls, (system filters).meets (Waits cs) (start filters targets) ls →
      (system filters).always (InOrderSoFar filters cs) (start filters targets) ls) ∧
    (system filters).Settles (Waits cs)
      (fun s => s.tapes = List.replicate targets ((arrivals filters cs).flatMap writes))
      (start filters targets) := by
  constructor
  · intro ls hls
    refine (system filters).always_of_meets ?_ ?_ (flow_start filters cs targets) hls
    · intro s hinv
      exact in_order_of_flow hinv
    · intro s l t hinv hl hstep
      exact (flow_step hinv hl hstep).1
  · exact System.settles_of_measure (fun _ _ _ hinv hl hstep => flow_step hinv hl hstep)
      (fun _ hinv hstuck => tapes_of_stuck hinv hstuck) (flow_start filters cs targets)

end Piped
end NexusRuntime.Streams
