import NexusRuntime.Sequence.Place
import NexusRuntime.Transition.System

namespace NexusRuntime.Streams

open Transition Sequence

variable {α : Type}

-- null is none; what a filter gives depends on everything it has been given so far
abbrev Filter (α : Type) : Type := List (Option α) → Option α

inductive Event (α : Type) where
  | data (buffer : Option α)
  | error
  | ended
deriving DecidableEq, Repr

inductive Stage (α : Type) where
  | ready (v : Option α)
  | filtering (v : Option α)
  | failed
  | emitting
  | reporting
  | ending
  | done
deriving DecidableEq, Repr

-- one 'data' or 'end' of the device on its way; the input of 'end' is null
structure Chain (α : Type) where
  input : Option α
  passed : Nat
  stage : Stage α
deriving DecidableEq, Repr

inductive Act where
  | job
  | filtered
  | rejected
  | listened (ok : Bool)
deriving DecidableEq, Repr

structure Turn (α : Type) where
  chain : Chain α
  histories : List (List (Option α))
  events : List (Event α)

namespace Chain

def isEnd (c : Chain α) : Bool := c.input.isNone

def inFlight (c : Chain α) : Bool :=
  match c.stage with
  | .ready _ | .filtering _ => true
  | .failed | .emitting | .reporting => c.isEnd
  | .ending | .done => false

def settle (c : Chain α) (histories : List (List (Option α))) : Turn α :=
  if c.isEnd then ⟨{ c with stage := .ending }, histories, [.ended]⟩
  else ⟨{ c with stage := .done }, histories, []⟩

def result (c : Chain α) (histories : List (List (Option α))) (v : Option α) : Turn α :=
  if c.isEnd && v.isNone then c.settle histories
  else ⟨{ c with stage := .emitting }, histories, [.data v]⟩

-- queueTaskToEventLoop makes each promise job a task of the pool: any queued job may run next
def turn (filters : List (Filter α)) (histories : List (List (Option α))) (c : Chain α) :
    Act → Option (Turn α)
  | .job =>
    match c.stage with
    | .ready v =>
      if c.passed < filters.length then some ⟨{ c with stage := .filtering v }, histories, []⟩
      else some (c.result histories v)
    | .failed => some ⟨{ c with stage := .reporting }, histories, [.error]⟩
    | _ => none
  | .filtered =>
    match c.stage, filters[c.passed]? with
    | .filtering v, some next =>
      let history := histories[c.passed]?.getD [] ++ [v]
      some ⟨{ c with passed := c.passed + 1, stage := .ready (next history) },
        histories.set c.passed history, []⟩
    | _, _ => none
  | .rejected =>
    match c.stage with
    | .filtering _ => some ⟨{ c with stage := .failed }, histories, []⟩
    | _ => none
  | .listened ok =>
    match c.stage with
    | .emitting =>
      if c.isEnd && !ok then some ⟨{ c with stage := .failed }, histories, []⟩
      else some (c.settle histories)
    | .reporting => some (c.settle histories)
    | .ending => some ⟨{ c with stage := .done }, histories, []⟩
    | _ => none

def announcing (filters : List (Filter α)) (c : Chain α) : Act → Bool
  | .job =>
    match c.stage with
    | .ready _ => !decide (c.passed < filters.length)
    | _ => false
  | .listened ok =>
    match c.stage with
    | .emitting => c.isEnd && ok
    | .reporting => c.isEnd
    | _ => false
  | _ => false

end Chain

def Event.announces : Event α → Bool
  | .error => false
  | _ => true

structure Readable (α : Type) where
  chains : List (Chain α)
  histories : List (List (Option α))
  log : List (Nat × Event α)

inductive StreamLabel (α : Type) where
  | fire (input : Option α)
  | act (k : Nat) (a : Act)
deriving DecidableEq, Repr

namespace Readable

def start (filters : List (Filter α)) : Readable α := ⟨[], filters.map fun _ => [], []⟩

def step (filters : List (Filter α)) (s : Readable α) : StreamLabel α → Option (Readable α)
  | .fire input => some { s with chains := s.chains ++ [⟨input, 0, .ready input⟩] }
  | .act k a =>
    match s.chains[k]? with
    | none => none
    | some c =>
      (c.turn filters s.histories a).map fun t =>
        ⟨s.chains.set k t.chain, t.histories, s.log ++ t.events.map (k, ·)⟩

def system (filters : List (Filter α)) : System (Readable α) (StreamLabel α) := ⟨step filters⟩

structure InOrder (s : Readable α) : Prop where
  sorted : (s.log.filter (·.2.announces)).Pairwise fun a b => a.1 ≤ b.1
  first : ∀ a ∈ s.log, a.2.announces = true →
    ∀ i < a.1, ∀ c, s.chains[i]? = some c → c.inFlight = false

def NoneOvertaken (filters : List (Filter α)) (s : Readable α) : StreamLabel α → Prop
  | .fire _ => True
  | .act k a => ∀ c, s.chains[k]? = some c → c.announcing filters a = true →
      ∀ i < k, ∀ b, s.chains[i]? = some b → b.inFlight = false

end Readable

inductive Chain.Turns (filters : List (Filter α)) (histories : List (List (Option α)))
    (c : Chain α) : Act → Turn α → Prop
  | call {v} (hs : c.stage = .ready v) (hp : c.passed < filters.length) :
    Turns filters histories c .job ⟨{ c with stage := .filtering v }, histories, []⟩
  | emit {v} (hs : c.stage = .ready v) (hp : filters.length ≤ c.passed)
      (hv : c.isEnd = true → v ≠ none) :
    Turns filters histories c .job ⟨{ c with stage := .emitting }, histories, [.data v]⟩
  | unflushed (hs : c.stage = .ready none) (hp : filters.length ≤ c.passed) (he : c.isEnd = true) :
    Turns filters histories c .job ⟨{ c with stage := .ending }, histories, [.ended]⟩
  | report (hs : c.stage = .failed) :
    Turns filters histories c .job ⟨{ c with stage := .reporting }, histories, [.error]⟩
  | filtered {v next} (hs : c.stage = .filtering v) (hf : filters[c.passed]? = some next) :
    Turns filters histories c .filtered
      ⟨{ c with passed := c.passed + 1,
                stage := .ready (next (histories[c.passed]?.getD [] ++ [v])) },
        histories.set c.passed (histories[c.passed]?.getD [] ++ [v]), []⟩
  | rejected {v} (hs : c.stage = .filtering v) :
    Turns filters histories c .rejected ⟨{ c with stage := .failed }, histories, []⟩
  | refused (hs : c.stage = .emitting) (he : c.isEnd = true) :
    Turns filters histories c (.listened false) ⟨{ c with stage := .failed }, histories, []⟩
  | flushed (hs : c.stage = .emitting) (he : c.isEnd = true) :
    Turns filters histories c (.listened true) ⟨{ c with stage := .ending }, histories, [.ended]⟩
  | listened {ok} (hs : c.stage = .emitting) (he : c.isEnd = false) :
    Turns filters histories c (.listened ok) ⟨{ c with stage := .done }, histories, []⟩
  | reported {ok} (hs : c.stage = .reporting) (he : c.isEnd = true) :
    Turns filters histories c (.listened ok) ⟨{ c with stage := .ending }, histories, [.ended]⟩
  | dropped {ok} (hs : c.stage = .reporting) (he : c.isEnd = false) :
    Turns filters histories c (.listened ok) ⟨{ c with stage := .done }, histories, []⟩
  | finished {ok} (hs : c.stage = .ending) :
    Turns filters histories c (.listened ok) ⟨{ c with stage := .done }, histories, []⟩

section Turns
variable {filters : List (Filter α)} {histories : List (List (Option α))} {c : Chain α} {a : Act}
  {t : Turn α}

theorem settle_end (he : c.isEnd = true) :
    c.settle histories = ⟨{ c with stage := .ending }, histories, [.ended]⟩ := by
  rw [Chain.settle, if_pos he]

theorem settle_data (he : c.isEnd = false) :
    c.settle histories = ⟨{ c with stage := .done }, histories, []⟩ := by
  rw [Chain.settle, if_neg (by simp [he])]

theorem result_turns {v : Option α} (hs : c.stage = .ready v) (hp : filters.length ≤ c.passed) :
    c.Turns filters histories .job (c.result histories v) := by
  cases hend : c.isEnd && v.isNone with
  | true =>
    obtain ⟨he, hv⟩ := Bool.and_eq_true_iff.mp hend
    obtain rfl := Option.isNone_iff_eq_none.mp hv
    rw [Chain.result, if_pos hend, settle_end he]
    exact .unflushed hs hp he
  | false =>
    have hv : c.isEnd = true → v ≠ none := by
      rintro he rfl
      simp [he] at hend
    rw [Chain.result, if_neg (by simp [hend])]
    exact .emit hs hp hv

theorem emitted_turns {ok : Bool} (hs : c.stage = .emitting) (hok : (c.isEnd && !ok) = false) :
    c.Turns filters histories (.listened ok) (c.settle histories) := by
  cases he : c.isEnd with
  | true =>
    obtain rfl : ok = true := by simpa [he] using hok
    rw [settle_end he]
    exact .flushed hs he
  | false =>
    rw [settle_data he]
    exact .listened hs he

theorem reported_turns {ok : Bool} (hs : c.stage = .reporting) :
    c.Turns filters histories (.listened ok) (c.settle histories) := by
  cases he : c.isEnd with
  | true =>
    rw [settle_end he]
    exact .reported hs he
  | false =>
    rw [settle_data he]
    exact .dropped hs he

theorem turn_cases (h : c.turn filters histories a = some t) : c.Turns filters histories a t := by
  cases a with
  | job =>
    cases hs : c.stage with
    | ready v =>
      by_cases hp : c.passed < filters.length
      · obtain rfl : _ = t := by simpa [Chain.turn, hs, hp] using h
        exact .call hs hp
      · obtain rfl : _ = t := by simpa [Chain.turn, hs, hp] using h
        exact result_turns hs (Nat.le_of_not_lt hp)
    | failed =>
      obtain rfl : _ = t := by simpa [Chain.turn, hs] using h
      exact .report hs
    | _ => simp [Chain.turn, hs] at h
  | filtered =>
    cases hs : c.stage with
    | filtering v =>
      cases hf : filters[c.passed]? with
      | none => simp [Chain.turn, hs, hf] at h
      | some next =>
        obtain rfl : _ = t := by simpa [Chain.turn, hs, hf] using h
        exact .filtered hs hf
    | _ => simp [Chain.turn, hs] at h
  | rejected =>
    cases hs : c.stage with
    | filtering v =>
      obtain rfl : _ = t := by simpa [Chain.turn, hs] using h
      exact .rejected hs
    | _ => simp [Chain.turn, hs] at h
  | listened ok =>
    cases hs : c.stage with
    | emitting =>
      cases he : (c.isEnd && !ok) with
      | true =>
        obtain ⟨hend, hok⟩ := Bool.and_eq_true_iff.mp he
        obtain rfl : ok = false := by simpa using hok
        obtain rfl : _ = t := by simpa [Chain.turn, hs, hend] using h
        exact .refused hs hend
      | false =>
        obtain rfl : _ = t := by simpa only [Chain.turn, hs, he, Bool.false_eq_true, if_false,
          Option.some.injEq] using h
        exact emitted_turns hs he
    | reporting =>
      obtain rfl : _ = t := by simpa [Chain.turn, hs] using h
      exact reported_turns hs
    | ending =>
      obtain rfl : _ = t := by simpa [Chain.turn, hs] using h
      exact .finished hs
    | _ => simp [Chain.turn, hs] at h

theorem turn_announces (h : c.turn filters histories a = some t) {e : Event α}
    (he : e ∈ t.events) (ha : e.announces = true) : c.announcing filters a = true := by
  cases turn_cases h with
  | call | filtered | rejected | refused | listened | dropped | finished => simp at he
  | emit hs hp | unflushed hs hp => simp [Chain.announcing, hs, hp]
  | report =>
    obtain rfl := List.mem_singleton.mp he
    simp [Event.announces] at ha
  | flushed hs hend | reported hs hend => simp [Chain.announcing, hs, hend]

theorem announcing_events (h : c.turn filters histories a = some t)
    (ha : c.announcing filters a = true) : ∃ e, t.events = [e] ∧ e.announces = true := by
  cases turn_cases h with
  | call hs hp => simp [Chain.announcing, hs, Nat.not_le.mpr hp] at ha
  | emit | unflushed | flushed | reported => exact ⟨_, rfl, rfl⟩
  | report hs => simp [Chain.announcing, hs] at ha
  | filtered | rejected => simp [Chain.announcing] at ha
  | refused hs he | listened hs he | dropped hs he => simp [Chain.announcing, hs, he] at ha
  | finished hs => simp [Chain.announcing, hs] at ha

theorem inFlight_of_announcing (ha : c.announcing filters a = true) : c.inFlight = true := by
  unfold Chain.announcing at ha
  unfold Chain.inFlight
  cases a <;> cases hs : c.stage <;> simp_all

theorem turn_input (h : c.turn filters histories a = some t) : t.chain.input = c.input := by
  cases turn_cases h <;> rfl

theorem turn_landed (h : c.turn filters histories a = some t) (hc : c.inFlight = false) :
    t.chain.inFlight = false := by
  cases turn_cases h with
  | call hs | emit hs | unflushed hs | filtered hs | rejected hs => simp [Chain.inFlight, hs] at hc
  | report hs => simpa [Chain.inFlight, hs, Chain.isEnd] using hc
  | refused hs he => simp [Chain.inFlight, hs, he] at hc
  | flushed | listened | reported | dropped | finished => rfl

end Turns

namespace Readable
variable {filters : List (Filter α)} {s t : Readable α}

theorem step_act {k : Nat} {a : Act} (h : step filters s (.act k a) = some t) :
    ∃ c u, s.chains[k]? = some c ∧ c.turn filters s.histories a = some u ∧
      t = ⟨s.chains.set k u.chain, u.histories, s.log ++ u.events.map (k, ·)⟩ := by
  simp only [step] at h
  cases hc : s.chains[k]? with
  | none => simp [hc] at h
  | some c =>
    rw [hc] at h
    obtain ⟨u, hu, rfl⟩ := Option.map_eq_some_iff.mp h
    exact ⟨c, u, rfl, hu, rfl⟩

structure Inv (s : Readable α) : Prop extends InOrder s where
  known : ∀ a ∈ s.log, a.1 < s.chains.length

theorem inv_start (filters : List (Filter α)) : Inv (start filters) where
  sorted := List.Pairwise.nil
  first := by simp [start]
  known := by simp [start]

theorem inv_fire (hinv : Inv s) (input : Option α) :
    Inv { s with chains := s.chains ++ [⟨input, 0, .ready input⟩] } where
  sorted := hinv.sorted
  first := by
    intro a ha hann i hi c hc
    have hlt := hinv.known a ha
    rw [List.getElem?_append_left (by omega)] at hc
    exact hinv.first a ha hann i hi c hc
  known := by
    intro a ha
    have := hinv.known a ha
    simp only [List.length_append, List.length_singleton]
    omega

theorem inv_act {k : Nat} {a : Act} (hinv : Inv s) (hnone : NoneOvertaken filters s (.act k a))
    (h : step filters s (.act k a) = some t) : Inv t := by
  obtain ⟨c, u, hc, hu, rfl⟩ := step_act h
  have hlt : k < s.chains.length := (List.getElem?_eq_some_iff.mp hc).1
  have hlanded : ∀ (i : Nat) (b : Chain α), s.chains[i]? = some b → b.inFlight = false →
      ∀ d : Chain α, (s.chains.set k u.chain)[i]? = some d → d.inFlight = false := by
    intro i b hb hland d hd
    rcases getElem?_replace hd with ⟨rfl, rfl⟩ | ⟨hne, hd⟩
    · rw [hc] at hb
      obtain rfl := Option.some.inj hb
      exact turn_landed hu hland
    · rw [hb] at hd
      exact Option.some.inj hd ▸ hland
  have hfirst : ∀ b ∈ s.log ++ u.events.map (k, ·), b.2.announces = true → ∀ i < b.1,
      ∃ d, s.chains[i]? = some d ∧ d.inFlight = false := by
    intro b hb hann i hi
    rcases List.mem_append.mp hb with hb | hb
    · have hlen := hinv.known b hb
      have hsome := List.getElem?_eq_getElem (l := s.chains) (i := i) (by omega)
      exact ⟨_, hsome, hinv.first b hb hann i hi _ hsome⟩
    · obtain ⟨e, he, rfl⟩ := List.mem_map.mp hb
      have hsome := List.getElem?_eq_getElem (l := s.chains) (i := i) (by omega)
      exact ⟨_, hsome, hnone c hc (turn_announces hu he hann) i hi _ hsome⟩
  constructor
  · constructor
    · rw [List.filter_append, List.pairwise_append]
      refine ⟨hinv.sorted, ?_, ?_⟩
      · apply List.Pairwise.filter
        rw [List.pairwise_map]
        exact List.pairwise_of_forall fun _ _ => Nat.le_refl k
      · intro x hx y hy
        obtain ⟨hx, hxann⟩ := List.mem_filter.mp hx
        obtain ⟨hy, hyann⟩ := List.mem_filter.mp hy
        obtain ⟨e, he, rfl⟩ := List.mem_map.mp hy
        have hflying := inFlight_of_announcing (turn_announces hu he hyann)
        -- an event of a later chain would mean that this one has landed
        apply Nat.le_of_not_lt
        intro hlater
        have := hinv.first x hx hxann k hlater c hc
        rw [hflying] at this
        cases this
    · intro b hb hann i hi d hd
      obtain ⟨e, he, hland⟩ := hfirst b hb hann i hi
      exact hlanded i e he hland d hd
  · intro b hb
    rw [List.length_set]
    rcases List.mem_append.mp hb with hb | hb
    · exact hinv.known b hb
    · obtain ⟨e, he, rfl⟩ := List.mem_map.mp hb
      exact hlt

theorem none_overtaken_of_inOrder {l : StreamLabel α} (h : step filters s l = some t)
    (horder : InOrder t) : NoneOvertaken filters s l := by
  cases l with
  | fire input => trivial
  | act k a =>
    intro c hc hann i hi b hb
    obtain ⟨d, u, hd, hu, rfl⟩ := step_act h
    obtain rfl := Option.some.inj (hc.symm.trans hd)
    obtain ⟨e, he, hann⟩ := announcing_events hu hann
    apply horder.first (k, e) (by simp [he]) hann i hi b
    rw [List.getElem?_set_ne (by omega)]
    exact hb

theorem inv_step {l : StreamLabel α} (hinv : Inv s) (hnone : NoneOvertaken filters s l)
    (h : step filters s l = some t) : Inv t := by
  cases l with
  | fire input =>
    obtain rfl := Option.some.inj h
    exact inv_fire hinv input
  | act k a => exact inv_act hinv hnone h

theorem inOrder_iff_none_overtaken (filters : List (Filter α)) (ls : List (StreamLabel α)) :
    (system filters).always InOrder (start filters) ls ↔
      (system filters).meets (NoneOvertaken filters) (start filters) ls :=
  (system filters).always_iff_meets (fun _ hinv => hinv.toInOrder)
    (fun _ _ _ _ h horder => none_overtaken_of_inOrder h horder)
    (fun _ _ _ hinv hnone h => inv_step hinv hnone h) (inv_start filters) ls

def echo : Filter α := fun history => history.getLast?.join

def overtaking : List (StreamLabel Nat) :=
  [.fire (some 0), .fire (some 1), .act 0 .job, .act 1 .job, .act 1 .filtered, .act 1 .job,
    .act 0 .filtered, .act 0 .job]

theorem later_chunk_emitted_first :
    ((system [echo]).run (start [echo]) overtaking).map (·.log) =
        some [(1, .data (some 1)), (0, .data (some 0))] ∧
      ¬ (system [echo]).always InOrder (start [echo]) overtaking := by
  have hlog : ((system [echo]).run (start [echo]) overtaking).map (·.log) =
      some [(1, .data (some 1)), (0, .data (some 0))] := by decide
  refine ⟨hlog, ?_⟩
  intro h
  obtain ⟨t, ht, htlog⟩ := Option.map_eq_some_iff.mp hlog
  have horder := ((system [echo]).always_iff_prefixes _ _ _).mp h _ (List.prefix_refl _) t ht
  have hsorted := horder.sorted
  rw [htlog] at hsorted
  revert hsorted
  decide

end Readable

end NexusRuntime.Streams
