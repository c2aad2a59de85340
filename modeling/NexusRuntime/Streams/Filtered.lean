import NexusRuntime.Sequence.Blocks
import NexusRuntime.Sequence.Levels
import NexusRuntime.Streams.ReadableStream

namespace NexusRuntime.Streams

open Transition Sequence

variable {α : Type}

def Act.calm : Act → Bool
  | .rejected => false
  | .listened ok => ok
  | _ => true

def StreamLabel.calm : StreamLabel α → Bool
  | .fire _ => true
  | .act _ a => a.calm

namespace Readable

def inputs (s : Readable α) : List (Option α) := s.chains.map (·.input)

def InTurn (filters : List (Filter α)) (s : Readable α) (l : StreamLabel α) : Prop :=
  NoneOvertaken filters s l ∧
    ∀ k, l = .act k .filtered → ∀ c, s.chains[k]? = some c →
      ∀ i < k, ∀ b, s.chains[i]? = some b → c.passed < b.passed

end Readable

def script (w : Option α × Chain α) : List (Event α) :=
  if w.2.isEnd then (if w.1.isNone then [.ended] else [.data w.1, .ended]) else [.data w.1]

def said (w : Option α × Chain α) : List (Event α) :=
  match w.2.stage with
  | .emitting => [.data w.1]
  | .ending | .done => script w
  | _ => []

namespace Chain

-- what a chain of a run without failures looks like when its value after j filters is level j
structure Sound (filters : List (Filter α)) (level : Nat → Option α) (c : Chain α) : Prop where
  bound : c.passed ≤ filters.length
  value : ∀ v, c.stage = .ready v ∨ c.stage = .filtering v → level c.passed = v
  calling : ∀ v, c.stage = .filtering v → c.passed < filters.length
  filtered : c.passed < filters.length → ∃ v, c.stage = .ready v ∨ c.stage = .filtering v
  flush : c.stage = .emitting → c.isEnd = true → level filters.length ≠ none
  unfailed : c.stage ≠ .failed ∧ c.stage ≠ .reporting
  ending : c.stage = .ending → c.isEnd = true

end Chain

section Turns
variable {filters : List (Filter α)} {histories : List (List (Option α))} {c : Chain α} {a : Act}
  {t : Turn α} {level : Nat → Option α}

theorem landed_sound (hp : c.passed = filters.length)
    (hs : c.stage = .emitting ∨ c.stage = .ending ∨ c.stage = .done)
    (hflush : c.stage = .emitting → c.isEnd = true → level filters.length ≠ none)
    (hend : c.stage = .ending → c.isEnd = true) : c.Sound filters level where
  bound := Nat.le_of_eq hp
  value := by
    rintro v (hv | hv) <;> simp [hv] at hs
  calling := by
    intro v hv
    simp [hv] at hs
  filtered := by
    intro hlt
    omega
  flush := hflush
  unfailed := by
    constructor <;> intro hv <;> simp [hv] at hs
  ending := hend

theorem flying_sound {v : Option α}
    (hs : c.stage = .ready v ∨ c.stage = .filtering v ∧ c.passed < filters.length)
    (hp : c.passed ≤ filters.length) (hv : level c.passed = v) : c.Sound filters level where
  bound := hp
  value := by
    intro w hw
    obtain rfl : v = w := by
      rcases hs with hs | ⟨hs, -⟩ <;> simpa [hs] using hw
    exact hv
  calling := by
    intro w hw
    rcases hs with hs | ⟨-, hlt⟩
    · simp [hs] at hw
    · exact hlt
  filtered := fun _ => ⟨v, hs.imp_right And.left⟩
  flush := by
    intro he
    rcases hs with hs | ⟨hs, -⟩ <;> simp [hs] at he
  unfailed := by
    rcases hs with hs | ⟨hs, -⟩ <;> simp [hs]
  ending := by
    intro he
    rcases hs with hs | ⟨hs, -⟩ <;> simp [hs] at he

theorem value_of_filtered {v : Option α} (hc : c.Sound filters level) (hs : c.stage = .ready v)
    (hp : filters.length ≤ c.passed) : c.passed = filters.length ∧ level filters.length = v := by
  have hall : c.passed = filters.length := Nat.le_antisymm hc.bound hp
  exact ⟨hall, hall ▸ hc.value v (.inl hs)⟩

theorem passed_of_landed (hc : c.Sound filters level) (hs : ∀ v, c.stage ≠ .ready v)
    (hs' : ∀ v, c.stage ≠ .filtering v) : c.passed = filters.length := by
  apply Nat.le_antisymm hc.bound
  apply Nat.le_of_not_lt
  intro hlt
  obtain ⟨v, hv | hv⟩ := hc.filtered hlt
  · exact hs v hv
  · exact hs' v hv

theorem turn_sound (h : c.turn filters histories a = some t) (hcalm : a.calm = true)
    (hc : c.Sound filters level)
    (hnext : a = .filtered → ∀ v next, c.stage = .filtering v → filters[c.passed]? = some next →
      level (c.passed + 1) = next (histories[c.passed]?.getD [] ++ [v])) :
    t.chain.Sound filters level := by
  cases turn_cases h with
  | call hs hp => exact flying_sound (.inr ⟨rfl, hp⟩) hc.bound (hc.value _ (.inl hs))
  | emit hs hp hv =>
    obtain ⟨hall, hvalue⟩ := value_of_filtered hc hs hp
    exact landed_sound hall (.inl rfl) (fun _ he => hvalue ▸ hv he) (by rintro ⟨⟩)
  | unflushed hs hp he =>
    exact landed_sound (value_of_filtered hc hs hp).1 (.inr (.inl rfl)) (by rintro ⟨⟩) (fun _ => he)
  | report hs => exact absurd hs hc.unfailed.1
  | filtered hs hf =>
    exact flying_sound (.inl rfl) (List.getElem?_eq_some_iff.mp hf).1 (hnext rfl _ _ hs hf)
  | rejected => cases hcalm
  | refused => cases hcalm
  | flushed hs he =>
    have hp := passed_of_landed hc (by simp [hs]) (by simp [hs])
    exact landed_sound hp (.inr (.inl rfl)) (by rintro ⟨⟩) (fun _ => he)
  | listened hs | finished hs =>
    have hp := passed_of_landed hc (by simp [hs]) (by simp [hs])
    exact landed_sound hp (.inr (.inr rfl)) (by rintro ⟨⟩) (by rintro ⟨⟩)
  | reported hs => exact absurd hs hc.unfailed.2
  | dropped hs => exact absurd hs hc.unfailed.2

theorem script_ne_nil (w : Option α × Chain α) : script w ≠ [] := by
  unfold script
  cases w.2.isEnd <;> cases w.1.isNone <;> simp

theorem said_of_landed {o : Option α} (hc : c.Sound filters level) (h : c.inFlight = false) :
    said (o, c) = script (o, c) := by
  unfold Chain.inFlight at h
  unfold said
  cases hs : c.stage with
  | emitting =>
    rw [hs] at h
    simp only at h
    simp [script, h]
  | failed => exact absurd hs hc.unfailed.1
  | reporting => exact absurd hs hc.unfailed.2
  | ready v | filtering v => simp [hs] at h
  | ending | done => rfl

theorem said_of_turn {o : Option α} (h : c.turn filters histories a = some t)
    (hs : t.chain.stage = .ending ∨ t.chain.stage = .done) : said (o, t.chain) = script (o, c) := by
  have hscript : said (o, t.chain) = script (o, t.chain) := by
    rcases hs with hs | hs <;> simp only [said, hs]
  rw [hscript, script, script, Chain.isEnd, turn_input h]
  rfl

theorem turn_said (h : c.turn filters histories a = some t) (hcalm : a.calm = true)
    (hc : c.Sound filters level) :
    said (level filters.length, t.chain) = said (level filters.length, c) ++ t.events := by
  cases turn_cases h with
  | call hs | filtered hs => simp [said, hs]
  | emit hs hp =>
    have hvalue := (value_of_filtered hc hs hp).2
    simp [said, hs, hvalue]
  | unflushed hs hp he =>
    have hvalue := (value_of_filtered hc hs hp).2
    rw [said_of_turn h (.inl rfl)]
    simp [said, script, hs, he, hvalue]
  | report hs => exact absurd hs hc.unfailed.1
  | rejected => cases hcalm
  | refused => cases hcalm
  | flushed hs he =>
    obtain ⟨x, hx⟩ := Option.ne_none_iff_exists'.mp (hc.flush hs he)
    rw [said_of_turn h (.inl rfl)]
    simp [said, script, hs, he, hx]
  | listened hs he =>
    rw [said_of_turn h (.inr rfl)]
    simp [said, script, hs, he]
  | reported hs => exact absurd hs hc.unfailed.2
  | dropped hs => exact absurd hs hc.unfailed.2
  | finished hs =>
    rw [said_of_turn h (.inr rfl), List.append_nil, said, hs]

theorem said_ne_script (hc : c.Sound filters level) (ha : c.announcing filters a = true) :
    said (level filters.length, c) ≠ script (level filters.length, c) := by
  unfold Chain.announcing at ha
  cases a with
  | filtered | rejected => cases ha
  | job =>
    cases hs : c.stage with
    | ready v =>
      have hsaid : said (level filters.length, c) = [] := by simp [said, hs]
      rw [hsaid]
      exact (script_ne_nil _).symm
    | _ => simp [hs] at ha
  | listened ok =>
    cases hs : c.stage with
    | emitting =>
      have hend : c.isEnd = true ∧ ok = true := by simpa [hs] using ha
      obtain ⟨x, hx⟩ := Option.ne_none_iff_exists'.mp (hc.flush hs hend.1)
      simp [said, script, hs, hend.1, hx]
    | reporting => exact absurd hs hc.unfailed.2
    | _ => simp [hs] at ha

theorem events_of_quiet (h : c.turn filters histories a = some t) (hc : c.Sound filters level)
    (ha : c.announcing filters a = false) : t.events = [] := by
  cases turn_cases h with
  | call | filtered | rejected | refused | listened | dropped | finished => rfl
  | emit hs hp | unflushed hs hp =>
    have hlt : c.passed < filters.length := by simpa [Chain.announcing, hs] using ha
    omega
  | report hs => exact absurd hs hc.unfailed.1
  | flushed hs he | reported hs he => simp [Chain.announcing, hs, he] at ha

end Turns

namespace Readable

structure Values (filters : List (Filter α)) (s : Readable α) : Prop where
  sound : ∀ (k : Nat) (c : Chain α), s.chains[k]? = some c →
    c.Sound filters fun j => ((through (filters.take j) s.inputs)[k]?).join
  histories : ∀ j < filters.length, ∃ m, m ≤ s.chains.length ∧
    s.histories[j]? = some ((through (filters.take j) s.inputs).take m) ∧
    ∀ i c, s.chains[i]? = some c → (j < c.passed ↔ i < m)
  log : s.log = tagged said 0 ((through filters s.inputs).zip s.chains)
  front : Front script said ((through filters s.inputs).zip s.chains)

theorem values_start (filters : List (Filter α)) : Values filters (start filters) where
  sound := by simp [start]
  histories := by
    intro j hj
    refine ⟨0, Nat.zero_le _, ?_, by simp [start]⟩
    simp [start, hj]
  log := by simp [start, tagged]
  front := by simp [start, Front]

def fired (s : Readable α) (input : Option α) : Readable α :=
  { s with chains := s.chains ++ [⟨input, 0, .ready input⟩] }

@[simp] theorem inputs_fired (s : Readable α) (input : Option α) :
    (s.fired input).inputs = s.inputs ++ [input] := by
  simp [inputs, fired]

theorem values_fire {filters : List (Filter α)} {s : Readable α} (h : Values filters s)
    (input : Option α) : Values filters (s.fired input) := by
  have hlength : s.inputs.length = s.chains.length := by simp [inputs]
  obtain ⟨y, hy⟩ := through_snoc filters s.inputs input
  have hzip : (through filters (s.fired input).inputs).zip (s.fired input).chains =
      (through filters s.inputs).zip s.chains ++ [(y, ⟨input, 0, .ready input⟩)] := by
    rw [inputs_fired, hy, fired, List.zip_append (by simp [hlength])]
    rfl
  constructor
  · intro k c hc
    rw [inputs_fired]
    rcases getElem?_snoc hc with hc | ⟨rfl, rfl⟩
    · have hk : k < s.inputs.length := hlength ▸ (List.getElem?_eq_some_iff.mp hc).1
      have hsame := fun j => getElem?_through_append (filters.take j) s.inputs [input] hk
      simp only [hsame]
      exact h.sound k c hc
    · apply flying_sound (.inl rfl) (Nat.zero_le _)
      rw [List.take_zero, through, List.foldl_nil, ← hlength, List.getElem?_concat_length]
      rfl
  · intro j hj
    obtain ⟨m, hm, hhist, hcount⟩ := h.histories j hj
    refine ⟨m, by simp [fired]; omega, ?_, ?_⟩
    · rw [inputs_fired, take_through_append _ _ _ (by omega)]
      exact hhist
    · intro i c hc
      rcases getElem?_snoc hc with hc | ⟨rfl, rfl⟩
      · exact hcount i c hc
      · simp
        omega
  · rw [hzip, tagged_append, ← h.log]
    simp [tagged, said, fired]
  · rw [hzip]
    exact front_append h.front rfl

def level (filters : List (Filter α)) (s : Readable α) (k j : Nat) : Option α :=
  ((through (filters.take j) s.inputs)[k]?).join

theorem getElem?_level (filters : List (Filter α)) {s : Readable α} {k : Nat} {c : Chain α}
    (hc : s.chains[k]? = some c) (j : Nat) :
    (through (filters.take j) s.inputs)[k]? = some (level filters s k j) := by
  have hk : k < (through (filters.take j) s.inputs).length := by
    rw [length_through, inputs, List.length_map]
    exact (List.getElem?_eq_some_iff.mp hc).1
  rw [level, List.getElem?_eq_getElem hk]
  rfl

theorem inputs_act {filters : List (Filter α)} {s t : Readable α} {k : Nat} {a : Act}
    (h : step filters s (.act k a) = some t) : t.inputs = s.inputs := by
  obtain ⟨c, u, hc, hu, rfl⟩ := step_act h
  exact map_replace hc (turn_input hu)

theorem passed_step {filters : List (Filter α)} {histories : List (List (Option α))} {c : Chain α}
    {a : Act} {t : Turn α} (h : c.turn filters histories a = some t) (ha : a ≠ .filtered) :
    t.chain.passed = c.passed ∧ t.histories = histories := by
  cases turn_cases h with
  | filtered => exact absurd rfl ha
  | _ => exact ⟨rfl, rfl⟩

theorem filtered_step {filters : List (Filter α)} {histories : List (List (Option α))}
    {c : Chain α} {t : Turn α} (h : c.turn filters histories .filtered = some t) :
    ∃ v next, c.stage = .filtering v ∧ filters[c.passed]? = some next ∧
      t = ⟨{ c with passed := c.passed + 1,
                    stage := .ready (next (histories[c.passed]?.getD [] ++ [v])) },
        histories.set c.passed (histories[c.passed]?.getD [] ++ [v]), []⟩ := by
  cases turn_cases h with
  | filtered hs hf => exact ⟨_, _, hs, hf, rfl⟩

section Act
variable {filters : List (Filter α)} {s t : Readable α} {k : Nat} {c : Chain α} {u : Turn α}

-- in turn, exactly the chunks before this one have been through its next filter
theorem history_of_turn (h : Values filters s) (hc : s.chains[k]? = some c)
    (hp : c.passed < filters.length)
    (hbefore : ∀ i < k, ∀ b, s.chains[i]? = some b → c.passed < b.passed) :
    s.histories[c.passed]? = some ((through (filters.take c.passed) s.inputs).take k) ∧
      ∀ i b, s.chains[i]? = some b → (c.passed < b.passed ↔ i < k) := by
  obtain ⟨m, hm, hhist, hcount⟩ := h.histories c.passed hp
  have hk : k < s.chains.length := (List.getElem?_eq_some_iff.mp hc).1
  have hle : m ≤ k := by
    apply Nat.le_of_not_lt
    intro hlt
    exact Nat.lt_irrefl _ ((hcount k c hc).mpr hlt)
  have hge : k ≤ m := by
    apply Nat.le_of_not_lt
    intro hlt
    have hsome := List.getElem?_eq_getElem (l := s.chains) (i := m) (by omega)
    exact Nat.lt_irrefl _ ((hcount m _ hsome).mp (hbefore m hlt _ hsome))
  obtain rfl := Nat.le_antisymm hle hge
  exact ⟨hhist, hcount⟩

theorem level_succ {v : Option α} {next : Filter α} (h : Values filters s)
    (hc : s.chains[k]? = some c) (hs : c.stage = .filtering v)
    (hf : filters[c.passed]? = some next)
    (hhist : s.histories[c.passed]? = some ((through (filters.take c.passed) s.inputs).take k)) :
    level filters s k (c.passed + 1) = next (s.histories[c.passed]?.getD [] ++ [v]) ∧
      s.histories[c.passed]?.getD [] ++ [v] =
        (through (filters.take c.passed) s.inputs).take (k + 1) := by
  have hvalue : level filters s k c.passed = v := (h.sound k c hc).value v (.inr hs)
  have hlevel := getElem?_level filters hc c.passed
  have hnow : s.histories[c.passed]?.getD [] ++ [v] =
      (through (filters.take c.passed) s.inputs).take (k + 1) := by
    rw [hhist, List.take_add_one, hlevel, hvalue]
    rfl
  have hk : k < (through (filters.take c.passed) s.inputs).length :=
    (List.getElem?_eq_some_iff.mp hlevel).1
  refine ⟨?_, hnow⟩
  rw [level, through_take_succ hf, getElem?_pass _ _ hk, hnow]
  rfl

end Act

theorem histories_act {filters : List (Filter α)} {s : Readable α} {k : Nat} {a : Act}
    {c : Chain α} {u : Turn α} (h : Values filters s) (hturn : InTurn filters s (.act k a))
    (hc : s.chains[k]? = some c) (hu : c.turn filters s.histories a = some u) :
    ∀ j < filters.length, ∃ m, m ≤ s.chains.length ∧
      u.histories[j]? = some ((through (filters.take j) s.inputs).take m) ∧
      ∀ i b, (s.chains.set k u.chain)[i]? = some b → (j < b.passed ↔ i < m) := by
  intro j hj
  obtain ⟨m, hm, hhist, hcount⟩ := h.histories j hj
  by_cases ha : a = .filtered
  · subst ha
    obtain ⟨v, next, hs, hf, rfl⟩ := filtered_step hu
    have hp : c.passed < filters.length := (h.sound k c hc).calling v hs
    have hnow := history_of_turn h hc hp (hturn.2 k rfl c hc)
    by_cases hjp : j = c.passed
    · subst hjp
      refine ⟨k + 1, (List.getElem?_eq_some_iff.mp hc).1, ?_, ?_⟩
      · have hlt := (List.getElem?_eq_some_iff.mp hhist).1
        rw [List.getElem?_set_self hlt, (level_succ h hc hs hf hnow.1).2]
      · intro i b hb
        rcases getElem?_replace hb with ⟨rfl, rfl⟩ | ⟨hne, hb⟩
        · simp
        · rw [hnow.2 i b hb]
          omega
    · refine ⟨m, hm, ?_, ?_⟩
      · rw [List.getElem?_set_ne (Ne.symm hjp)]
        exact hhist
      · intro i b hb
        rcases getElem?_replace hb with ⟨rfl, rfl⟩ | ⟨hne, hb⟩
        · rw [← hcount k c hc]
          simp only
          omega
        · exact hcount i b hb
  · obtain ⟨hpassed, hkept⟩ := passed_step hu ha
    refine ⟨m, hm, hkept ▸ hhist, ?_⟩
    intro i b hb
    rcases getElem?_replace hb with ⟨rfl, rfl⟩ | ⟨hne, hb⟩
    · rw [hpassed]
      exact hcount k c hc
    · exact hcount i b hb

theorem sound_act {filters : List (Filter α)} {s : Readable α} {k : Nat} {a : Act}
    {c : Chain α} {u : Turn α} (h : Values filters s) (hcalm : a.calm = true)
    (hturn : InTurn filters s (.act k a)) (hc : s.chains[k]? = some c)
    (hu : c.turn filters s.histories a = some u) : u.chain.Sound filters (level filters s k) := by
  have hsound : c.Sound filters (level filters s k) := h.sound k c hc
  apply turn_sound hu hcalm hsound
  rintro rfl v next hs hf
  have hnow := history_of_turn h hc (hsound.calling v hs) (hturn.2 k rfl c hc)
  exact (level_succ h hc hs hf hnow.1).1

theorem said_before {filters : List (Filter α)} {s : Readable α} {k : Nat} (h : Values filters s)
    (hbefore : ∀ i < k, ∀ b, s.chains[i]? = some b → b.inFlight = false) :
    ∀ w ∈ ((through filters s.inputs).zip s.chains).take k, said w = script w := by
  rintro ⟨o, b⟩ hw
  obtain ⟨i, hi⟩ := List.mem_iff_getElem?.mp hw
  rw [List.getElem?_take] at hi
  split at hi
  · next hik =>
    obtain ⟨ho, hb⟩ := List.getElem?_zip_eq_some.mp hi
    exact said_of_landed (h.sound i b hb) (hbefore i hik b hb)
  · cases hi

theorem values_act {filters : List (Filter α)} {s t : Readable α} {k : Nat} {a : Act}
    (h : Values filters s) (hcalm : a.calm = true) (hturn : InTurn filters s (.act k a))
    (hstep : step filters s (.act k a) = some t) : Values filters t := by
  have hinputs := inputs_act hstep
  obtain ⟨c, u, hc, hu, rfl⟩ := step_act hstep
  have hsound : c.Sound filters (level filters s k) := h.sound k c hc
  have hout : (through filters s.inputs)[k]? = some (level filters s k filters.length) := by
    have := getElem?_level filters hc filters.length
    rwa [List.take_length] at this
  have hpair : ((through filters s.inputs).zip s.chains)[k]? =
      some (level filters s k filters.length, c) := by
    rw [List.getElem?_zip_eq_some]
    exact ⟨hout, hc⟩
  have hscript : script (level filters s k filters.length, u.chain) =
      script (level filters s k filters.length, c) := by
    simp only [script, Chain.isEnd, turn_input hu]
  have hsaid := turn_said hu hcalm hsound
  have hblocks : (s.log ++ u.events.map (k, ·) =
        tagged said 0 (((through filters s.inputs).zip s.chains).set k
          (level filters s k filters.length, u.chain))) ∧
      Front script said (((through filters s.inputs).zip s.chains).set k
          (level filters s k filters.length, u.chain)) := by
    cases hann : c.announcing filters a with
    | false =>
      have hquiet := events_of_quiet hu hsound hann
      rw [hquiet, List.append_nil] at hsaid
      rw [hquiet, List.map_nil, List.append_nil, tagged_replace hpair hsaid]
      exact ⟨h.log, front_replace hpair hscript hsaid h.front⟩
    | true =>
      have hmore := said_ne_script hsound hann
      have hbefore := said_before h (hturn.1 c hc hann)
      rw [tagged_grow hpair h.front hmore hsaid, ← h.log]
      exact ⟨rfl, front_grow hpair h.front hmore hbefore⟩
  constructor
  · intro i b hb
    rw [hinputs]
    rcases getElem?_replace hb with ⟨rfl, rfl⟩ | ⟨hne, hb⟩
    · exact sound_act h hcalm hturn hc hu
    · exact h.sound i b hb
  · rw [hinputs]
    simpa only [List.length_set] using histories_act h hturn hc hu
  · rw [hinputs, zip_replace hout]
    exact hblocks.1
  · rw [hinputs, zip_replace hout]
    exact hblocks.2

theorem values_step {filters : List (Filter α)} {s t : Readable α} {l : StreamLabel α}
    (h : Values filters s) (hcalm : l.calm = true) (hturn : InTurn filters s l)
    (hstep : step filters s l = some t) : Values filters t := by
  cases l with
  | fire input =>
    obtain rfl := Option.some.inj hstep
    exact values_fire h input
  | act k a => exact values_act h hcalm hturn hstep

end Readable
end NexusRuntime.Streams
