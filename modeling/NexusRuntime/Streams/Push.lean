import NexusRuntime.Streams.Filtered
import NexusRuntime.Transition.Settles

namespace NexusRuntime.Streams

open Transition Sequence

variable {α : Type}

def source (cs : List α) : List (Option α) := cs.map some ++ [none]

def flushed (filters : List (Filter α)) (cs : List α) : Option α :=
  ((through filters (source cs))[cs.length]?).join

def emissions (filters : List (Filter α)) (cs : List α) : List (Event α) :=
  (through filters (cs.map some)).map .data ++
    match flushed filters cs with
    | none => [.ended]
    | some v => [.data (some v), .ended]

-- what one device event comes to, from its filtered value and what the device gave
def scripted (w : Option α × Option α) : List (Event α) :=
  if w.2.isNone then (if w.1.isNone then [.ended] else [.data w.1, .ended]) else [.data w.1]

def Chain.left (filters : List (Filter α)) (c : Chain α) : Nat :=
  match c.stage with
  | .ready _ => 2 * (filters.length - c.passed) + 4
  | .filtering _ => 2 * (filters.length - c.passed) + 3
  | .emitting => 2
  | .ending => 1
  | .failed | .reporting | .done => 0

section Turns
variable {filters : List (Filter α)} {histories : List (List (Option α))} {c : Chain α} {a : Act}
  {t : Turn α} {level : Nat → Option α}

theorem turn_left (h : c.turn filters histories a = some t) (hcalm : a.calm = true)
    (hc : c.Sound filters level) : t.chain.left filters < c.left filters := by
  cases turn_cases h with
  | call hs => simp [Chain.left, hs]
  | emit hs | unflushed hs => simp [Chain.left, hs]
  | report hs => exact absurd hs hc.unfailed.1
  | @filtered v next hs hf =>
    have hp := hc.calling v hs
    simp only [Chain.left, hs]
    omega
  | rejected => cases hcalm
  | refused => cases hcalm
  | flushed hs | listened hs => simp [Chain.left, hs]
  | reported hs => exact absurd hs hc.unfailed.2
  | dropped hs => exact absurd hs hc.unfailed.2
  | finished hs => simp [Chain.left, hs]

theorem exists_turn (histories : List (List (Option α))) (hc : c.Sound filters level)
    (hdone : c.stage ≠ .done) :
    ∃ a t, a.calm = true ∧ c.turn filters histories a = some t := by
  suffices h : ∃ a : Act, a.calm = true ∧ (c.turn filters histories a).isSome = true by
    obtain ⟨a, ha, ht⟩ := h
    obtain ⟨t, ht⟩ := Option.isSome_iff_exists.mp ht
    exact ⟨a, t, ha, ht⟩
  cases hs : c.stage with
  | ready v =>
    refine ⟨.job, rfl, ?_⟩
    by_cases hp : c.passed < filters.length <;> simp [Chain.turn, hs, hp]
  | filtering v =>
    have hp := hc.calling v hs
    exact ⟨.filtered, rfl, by simp [Chain.turn, hs, hp]⟩
  | failed => exact absurd hs hc.unfailed.1
  | reporting => exact absurd hs hc.unfailed.2
  | emitting => exact ⟨.listened true, rfl, by simp [Chain.turn, hs]⟩
  | ending => exact ⟨.listened true, rfl, by simp [Chain.turn, hs]⟩
  | done => exact absurd hs hdone

end Turns

namespace Readable
variable {filters : List (Filter α)} {cs : List α} {s t : Readable α}

-- a device that fires exactly cs and then its end, in a run without failures or overtaking
def Delivers (filters : List (Filter α)) (cs : List α) (s : Readable α) (l : StreamLabel α) :
    Prop :=
  l.calm = true ∧ InTurn filters s l ∧ ∀ x, l = .fire x → (source cs)[s.chains.length]? = some x

def left (filters : List (Filter α)) (cs : List α) (s : Readable α) : Nat :=
  (2 * filters.length + 5) * ((source cs).length - s.chains.length) +
    total (·.left filters) s.chains

structure Delivered (filters : List (Filter α)) (cs : List α) (s : Readable α) : Prop
    extends Values filters s where
  fired : s.inputs <+: source cs

theorem delivered_start (filters : List (Filter α)) (cs : List α) :
    Delivered filters cs (start filters) where
  toValues := values_start filters
  fired := List.nil_prefix

theorem delivered_step {l : StreamLabel α} (h : Delivered filters cs s)
    (hl : Delivers filters cs s l) (hstep : step filters s l = some t) :
    Delivered filters cs t ∧ left filters cs t < left filters cs s := by
  have hvalues := values_step h.toValues hl.1 hl.2.1 hstep
  cases l with
  | fire x =>
    have hx := hl.2.2 x rfl
    have hlt := (List.getElem?_eq_some_iff.mp hx).1
    obtain rfl := Option.some.inj hstep
    constructor
    · refine ⟨hvalues, ?_⟩
      have htake : s.inputs = (source cs).take s.chains.length := by
        have := List.prefix_iff_eq_take.mp h.fired
        rwa [inputs, List.length_map] at this
      have hnext : (source cs).take (s.chains.length + 1) = s.inputs ++ [x] := by
        rw [List.take_add_one, hx, ← htake]
        rfl
      have hinputs : (s.fired x).inputs <+: source cs := by
        rw [inputs_fired, ← hnext]
        exact List.take_prefix ..
      exact hinputs
    · simp only [left, List.length_append, List.length_singleton, total_append, total]
      have hnew : (⟨x, 0, .ready x⟩ : Chain α).left filters = 2 * filters.length + 4 := rfl
      obtain ⟨d, hd⟩ : ∃ d, (source cs).length - s.chains.length = d + 1 :=
        ⟨(source cs).length - s.chains.length - 1, by omega⟩
      have hd' : (source cs).length - (s.chains.length + 1) = d := by omega
      rw [hnew, hd, hd', Nat.mul_add]
      omega
  | act k a =>
    refine ⟨⟨hvalues, inputs_act hstep ▸ h.fired⟩, ?_⟩
    obtain ⟨c, u, hc, hu, rfl⟩ := step_act hstep
    have hless := turn_left hu hl.1 (h.sound k c hc)
    have htotal := total_replace (·.left filters) hc u.chain
    simp only [left, List.length_set]
    omega

theorem landed_of_done {c : Chain α} (h : c.stage = .done) : c.inFlight = false := by
  rw [Chain.inFlight, h]

-- nobody is ahead of a chain when all those before it are done
theorem in_turn_of_done {k : Nat} {c : Chain α} {a : Act} {u : Turn α} (h : Values filters s)
    (hc : s.chains[k]? = some c) (hu : c.turn filters s.histories a = some u)
    (hbefore : ∀ i < k, ∀ b, s.chains[i]? = some b → b.stage = .done) :
    InTurn filters s (.act k a) := by
  constructor
  · intro d hd hann i hi b hb
    exact landed_of_done (hbefore i hi b hb)
  · intro k' hk' d hd i hi b hb
    obtain ⟨rfl, rfl⟩ := StreamLabel.act.inj hk'
    obtain rfl := Option.some.inj (hc.symm.trans hd)
    have hdone := hbefore i hi b hb
    have hall := passed_of_landed (h.sound i b hb) (by simp [hdone]) (by simp [hdone])
    obtain ⟨v, next, hs, hf, hturn⟩ := filtered_step hu
    rw [hall]
    exact (List.getElem?_eq_some_iff.mp hf).1

theorem done_of_stuck (h : Delivered filters cs s)
    (hstuck : ∀ k a t, step filters s (.act k a) = some t → ¬ Delivers filters cs s (.act k a)) :
    ∀ (k : Nat) (c : Chain α), s.chains[k]? = some c → c.stage = .done := by
  intro k
  induction k using Nat.strongRecOn with
  | ind k ih =>
    intro c hc
    by_contra hdone
    obtain ⟨a, u, hcalm, hu⟩ := exists_turn s.histories (h.sound k c hc) hdone
    have hstep : step filters s (.act k a) =
        some ⟨s.chains.set k u.chain, u.histories, s.log ++ u.events.map (k, ·)⟩ := by
      simp [step, hc, hu]
    refine hstuck k a _ hstep ⟨hcalm, in_turn_of_done h.toValues hc hu ih, ?_⟩
    rintro x ⟨⟩

theorem delivers_fire {x : Option α} (hx : (source cs)[s.chains.length]? = some x) :
    Delivers filters cs s (.fire x) := by
  refine ⟨rfl, ⟨trivial, ?_⟩, ?_⟩
  · rintro k ⟨⟩
  · rintro y hy
    obtain rfl := StreamLabel.fire.inj hy
    exact hx

theorem fired_of_stuck (h : Delivered filters cs s)
    (hstuck : ∀ x, ¬ (source cs)[s.chains.length]? = some x) : s.inputs = source cs := by
  have hlen : s.inputs.length = s.chains.length := List.length_map ..
  apply h.fired.eq_of_length
  apply Nat.le_antisymm h.fired.length_le
  apply Nat.le_of_not_lt
  intro hlt
  exact hstuck _ (List.getElem?_eq_getElem (by omega))

theorem source_split (filters : List (Filter α)) (cs : List α) :
    through filters (source cs) = through filters (cs.map some) ++ [flushed filters cs] := by
  obtain ⟨y, hy⟩ := through_snoc filters (cs.map some) none
  have hlen : (through filters (cs.map some)).length = cs.length := by simp
  have hlast : flushed filters cs = y := by
    rw [flushed, source, hy, List.getElem?_append_right (by omega), hlen, Nat.sub_self]
    rfl
  rw [hlast]
  exact hy

theorem scripted_chunks {outs : List (Option α)} (hlen : outs.length = cs.length) :
    (outs.zip (cs.map some)).flatMap scripted = outs.map .data := by
  induction cs generalizing outs with
  | nil =>
    obtain rfl := List.length_eq_zero_iff.mp hlen
    rfl
  | cons c cs ih =>
    cases outs with
    | nil => cases hlen
    | cons o outs =>
      rw [List.map_cons, List.zip_cons_cons, List.flatMap_cons, ih (Nat.succ.inj hlen)]
      rfl

theorem scripted_source (filters : List (Filter α)) (cs : List α) :
    ((through filters (source cs)).zip (source cs)).flatMap scripted = emissions filters cs := by
  have hlen : (through filters (cs.map some)).length = cs.length := by simp
  conv_lhs => rw [source_split, source]
  rw [List.zip_append (by simp), List.flatMap_append, scripted_chunks hlen, emissions]
  cases flushed filters cs <;> rfl

theorem scripts_of_inputs (filters : List (Filter α)) (s : Readable α) :
    (tagged script 0 ((through filters s.inputs).zip s.chains)).map (·.2) =
      ((through filters s.inputs).zip s.inputs).flatMap scripted := by
  rw [map_tagged, inputs, List.zip_map_right, List.flatMap_map]
  rfl

theorem scripted_prefix {inputs all : List (Option α)} (h : inputs <+: all) :
    ((through filters inputs).zip inputs).flatMap scripted <+:
      ((through filters all).zip all).flatMap scripted := by
  obtain ⟨outs, houts⟩ := through_grows filters h
  obtain ⟨rest, rfl⟩ := h
  rw [← houts, List.zip_append (by simp), List.flatMap_append]
  exact List.prefix_append ..

theorem said_prefix {c : Chain α} {level : Nat → Option α} (hc : c.Sound filters level) :
    said (level filters.length, c) <+: script (level filters.length, c) := by
  cases hs : c.stage with
  | emitting =>
    have hsaid : said (level filters.length, c) = [.data (level filters.length)] := by
      simp [said, hs]
    rw [hsaid]
    cases he : c.isEnd with
    | true =>
      obtain ⟨x, hx⟩ := Option.ne_none_iff_exists'.mp (hc.flush hs he)
      simp [script, he, hx]
    | false => simp [script, he]
  | ending | done => rw [said, hs]
  | _ => simp [said, hs]

theorem log_prefix (h : Delivered filters cs s) : s.log.map (·.2) <+: emissions filters cs := by
  have hpre : ∀ w ∈ (through filters s.inputs).zip s.chains, said w <+: script w := by
    rintro ⟨o, c⟩ hw
    obtain ⟨k, hk⟩ := List.mem_iff_getElem?.mp hw
    obtain ⟨ho, hc⟩ := List.getElem?_zip_eq_some.mp hk
    have hlevel := getElem?_level filters hc filters.length
    rw [List.take_length, ho] at hlevel
    obtain rfl := Option.some.inj hlevel
    exact said_prefix (h.sound k c hc)
  rw [h.log, ← scripted_source]
  apply ((prefix_of_front h.front hpre 0).map _).trans
  rw [scripts_of_inputs]
  exact scripted_prefix h.fired

theorem said_of_done {o : Option α} {c : Chain α} (h : c.stage = .done) :
    said (o, c) = script (o, c) := by rw [said, h]

theorem log_of_done (h : Delivered filters cs s) (hin : s.inputs = source cs)
    (hdone : ∀ (k : Nat) (c : Chain α), s.chains[k]? = some c → c.stage = .done) :
    s.log.map (·.2) = emissions filters cs := by
  have hsaid : ∀ w ∈ (through filters s.inputs).zip s.chains, said w = script w := by
    rintro ⟨o, c⟩ hw
    obtain ⟨k, hk⟩ := List.mem_iff_getElem?.mp (List.of_mem_zip hw).2
    exact said_of_done (hdone k c hk)
  rw [h.log, tagged_congr script said hsaid, scripts_of_inputs, hin, scripted_source]

theorem push_settles (filters : List (Filter α)) (cs : List α) :
    (system filters).Settles (Delivers filters cs)
      (fun t => t.log.map (·.2) = emissions filters cs) (start filters) := by
  refine System.settles_of_measure (fun _ _ _ hinv hl hstep => delivered_step hinv hl hstep) ?_
    (delivered_start filters cs)
  intro s hinv hstuck
  have hdone := done_of_stuck hinv fun k a t hstep => hstuck (.act k a) t hstep
  have hin := fired_of_stuck hinv fun x hx => hstuck (.fire x) _ rfl (delivers_fire hx)
  exact log_of_done hinv hin hdone

end Readable
end NexusRuntime.Streams
