import NexusRuntime.Streams.Push

namespace NexusRuntime.Streams

open Transition Sequence

variable {α : Type}

inductive PullStage where
  | looping
  | reading
  | emitting
  | reporting
  | ending (thrown : Bool)
  | settled (resolved : Bool)
deriving DecidableEq, Repr

-- resume() over a pull device; device.eof holds when nothing remains to be read
structure Pull (α : Type) where
  remaining : List α
  stage : PullStage
  log : List (Event α)
deriving DecidableEq, Repr

inductive PullLabel where
  | turn
  | read
  | readFailed
  | listened (ok : Bool)
deriving DecidableEq, Repr

def PullLabel.calm : PullLabel → Bool
  | .readFailed => false
  | .listened ok => ok
  | _ => true

namespace Pull

def resume (cs : List α) : Pull α := ⟨cs, .looping, []⟩

def step (s : Pull α) : PullLabel → Option (Pull α)
  | .turn =>
    match s.stage, s.remaining with
    | .looping, [] => some { s with stage := .ending false, log := s.log ++ [.ended] }
    | .looping, _ => some { s with stage := .reading }
    | _, _ => none
  | .read =>
    match s.stage, s.remaining with
    | .reading, buffer :: rest => some ⟨rest, .emitting, s.log ++ [.data (some buffer)]⟩
    | _, _ => none
  | .readFailed =>
    match s.stage with
    | .reading => some { s with stage := .reporting, log := s.log ++ [.error] }
    | _ => none
  | .listened ok =>
    match s.stage with
    | .emitting =>
      if ok then some { s with stage := .looping }
      else some { s with stage := .reporting, log := s.log ++ [.error] }
    | .reporting => some { s with stage := .ending (!ok), log := s.log ++ [.ended] }
    | .ending thrown => some { s with stage := .settled (!thrown && ok) }
    | _ => none

def system (α : Type) : System (Pull α) PullLabel := ⟨step⟩

def Calm (_ : Pull α) (l : PullLabel) : Prop := l.calm = true

end Pull

def Neutral (filters : List (Filter α)) (cs : List α) : Prop :=
  through filters (source cs) = source cs

def pulled (cs : List α) : List (Event α) := (cs.map some).map .data ++ [.ended]

namespace Pull

def remainder (s : Pull α) : List (Event α) :=
  match s.stage with
  | .ending _ | .settled _ => []
  | _ => pulled s.remaining

def left (s : Pull α) : Nat :=
  match s.stage with
  | .looping => 3 * s.remaining.length + 3
  | .reading => 3 * s.remaining.length + 2
  | .emitting => 3 * s.remaining.length + 4
  | .reporting => 2
  | .ending _ => 1
  | .settled _ => 0

structure Reads (cs : List α) (s : Pull α) : Prop where
  log : s.log ++ s.remainder = pulled cs
  reading : s.stage = .reading → s.remaining ≠ []
  unfailed : s.stage ≠ .reporting

inductive Steps (s : Pull α) : PullLabel → Pull α → Prop
  | finish (hs : s.stage = .looping) (hr : s.remaining = []) :
    Steps s .turn { s with stage := .ending false, log := s.log ++ [.ended] }
  | more (hs : s.stage = .looping) (hr : s.remaining ≠ []) :
    Steps s .turn { s with stage := .reading }
  | read {buffer rest} (hs : s.stage = .reading) (hr : s.remaining = buffer :: rest) :
    Steps s .read ⟨rest, .emitting, s.log ++ [.data (some buffer)]⟩
  | listened (hs : s.stage = .emitting) : Steps s (.listened true) { s with stage := .looping }
  | ended {thrown} (hs : s.stage = .ending thrown) :
    Steps s (.listened true) { s with stage := .settled (!thrown) }

variable {cs : List α} {s t : Pull α} {l : PullLabel}

theorem step_cases (h : s.step l = some t) (hcalm : l.calm = true) (hs : s.stage ≠ .reporting) :
    s.Steps l t := by
  cases l with
  | turn =>
    cases hstage : s.stage with
    | looping =>
      cases hr : s.remaining with
      | nil =>
        obtain rfl : _ = t := by simpa [step, hstage, hr] using h
        exact hr ▸ .finish hstage hr
      | cons c rest =>
        obtain rfl : _ = t := by simpa [step, hstage, hr] using h
        exact hr ▸ .more hstage (by simp [hr])
    | _ => simp [step, hstage] at h
  | read =>
    cases hstage : s.stage with
    | reading =>
      cases hr : s.remaining with
      | nil => simp [step, hstage, hr] at h
      | cons c rest =>
        obtain rfl : _ = t := by simpa [step, hstage, hr] using h
        exact .read hstage hr
    | _ => simp [step, hstage] at h
  | readFailed => cases hcalm
  | listened ok =>
    obtain rfl : ok = true := hcalm
    cases hstage : s.stage with
    | emitting =>
      obtain rfl : _ = t := by simpa [step, hstage] using h
      exact .listened hstage
    | reporting => exact absurd hstage hs
    | ending thrown =>
      obtain rfl : _ = t := by simpa [step, hstage] using h
      exact .ended hstage
    | _ => simp [step, hstage] at h

theorem reads_resume (cs : List α) : Reads cs (resume cs) where
  log := rfl
  reading := by rintro ⟨⟩
  unfailed := by rintro ⟨⟩

theorem reads_step (h : Reads cs s) (hcalm : Calm s l) (hstep : s.step l = some t) :
    Reads cs t ∧ t.left < s.left := by
  cases step_cases hstep hcalm h.unfailed with
  | finish hs hr =>
    have hlog : s.log ++ [.ended] = pulled cs := by
      simpa [remainder, hs, hr, pulled] using h.log
    refine ⟨⟨?_, by rintro ⟨⟩, by rintro ⟨⟩⟩, ?_⟩
    · simpa [remainder] using hlog
    · simp [left, hs, hr]
  | more hs hr =>
    have hlog : s.log ++ pulled s.remaining = pulled cs := by simpa [remainder, hs] using h.log
    exact ⟨⟨hlog, fun _ => hr, by rintro ⟨⟩⟩, by simp [left, hs]⟩
  | read hs hr =>
    have hlog : s.log ++ pulled s.remaining = pulled cs := by simpa [remainder, hs] using h.log
    rw [hr] at hlog
    refine ⟨⟨?_, by rintro ⟨⟩, by rintro ⟨⟩⟩, ?_⟩
    · simpa [remainder, pulled] using hlog
    · simp only [left, hs, hr, List.length_cons]
      omega
  | listened hs =>
    have hlog : s.log ++ pulled s.remaining = pulled cs := by simpa [remainder, hs] using h.log
    exact ⟨⟨hlog, by rintro ⟨⟩, by rintro ⟨⟩⟩, by simp [left, hs]⟩
  | ended hs =>
    have hlog : s.log = pulled cs := by simpa [remainder, hs] using h.log
    refine ⟨⟨?_, by rintro ⟨⟩, by rintro ⟨⟩⟩, by simp [left, hs]⟩
    simpa [remainder] using hlog

theorem log_of_stuck (h : Reads cs s) (hstuck : (system α).Stuck Calm s) : s.log = pulled cs := by
  have hlog := h.log
  cases hs : s.stage with
  | looping =>
    cases hr : s.remaining with
    | nil => exact absurd rfl (hstuck .turn _ (by simp [system, step, hs, hr]; rfl))
    | cons c rest => exact absurd rfl (hstuck .turn _ (by simp [system, step, hs, hr]; rfl))
  | reading =>
    obtain ⟨c, rest, hr⟩ := List.exists_cons_of_ne_nil (h.reading hs)
    exact absurd rfl (hstuck .read _ (by simp [system, step, hs, hr]; rfl))
  | emitting => exact absurd rfl (hstuck (.listened true) _ (by simp [system, step, hs]; rfl))
  | reporting => exact absurd hs h.unfailed
  | ending thrown => exact absurd rfl (hstuck (.listened true) _ (by simp [system, step, hs]; rfl))
  | settled resolved => simpa [remainder, hs] using hlog

theorem pull_settles (cs : List α) :
    (system α).Settles Calm (fun t => t.log = pulled cs) (resume cs) :=
  System.settles_of_measure (fun _ _ _ hinv hl hstep => reads_step hinv hl hstep)
    (fun _ hinv hstuck => log_of_stuck hinv hstuck) (reads_resume cs)

end Pull

theorem emissions_eq_pulled {filters : List (Filter α)} {cs : List α} :
    emissions filters cs = pulled cs ↔ Neutral filters cs := by
  have hdata : Function.Injective (Event.data : Option α → Event α) := by
    intro x y h
    exact Event.data.inj h
  rw [Neutral, Readable.source_split, source]
  unfold emissions pulled
  constructor
  · intro h
    have hlen := congrArg List.length h
    cases hflush : flushed filters cs with
    | none =>
      rw [hflush] at h
      rw [List.map_injective_iff.mpr hdata (List.append_cancel_right h)]
    | some v => simp [hflush] at hlen
  · intro h
    obtain ⟨houts, hflush⟩ := List.append_inj' h rfl
    have hnone : flushed filters cs = none := List.cons.inj hflush |>.1
    rw [houts, hnone]

theorem pull_agrees_iff_neutral (filters : List (Filter α)) (cs : List α) :
    (Pull.system α).Settles Pull.Calm (fun t => t.log = emissions filters cs) (Pull.resume cs) ∧
        (Readable.system filters).Settles (Readable.Delivers filters cs)
          (fun t => t.log.map (·.2) = emissions filters cs) (Readable.start filters) ↔
      Neutral filters cs := by
  constructor
  · rintro ⟨hpull, -⟩
    obtain ⟨ls, t, hrun, hcalm, hstuck, hlog⟩ := (Pull.pull_settles cs).reached
    rw [← emissions_eq_pulled, ← hlog]
    exact (hpull.right ls t hrun hcalm hstuck).symm
  · intro h
    refine ⟨?_, Readable.push_settles filters cs⟩
    rw [emissions_eq_pulled.mpr h]
    exact Pull.pull_settles cs

def incremented : Filter Nat := fun history => history.getLast?.join.map (· + 1)

def pushOne : List (StreamLabel Nat) :=
  [.fire (some 0), .act 0 .job, .act 0 .filtered, .act 0 .job, .act 0 (.listened true),
    .fire none, .act 1 .job, .act 1 .filtered, .act 1 .job, .act 1 (.listened true)]

theorem pull_skips_filter :
    ((Pull.system Nat).run (Pull.resume [0])
        [.turn, .read, .listened true, .turn, .listened true]).map (·.log) =
          some [.data (some 0), .ended] ∧
      ((Readable.system [incremented]).run (Readable.start [incremented]) pushOne).map
          (fun t => t.log.map (·.2)) = some [.data (some 1), .ended] ∧
      ¬ (Pull.system Nat).Settles Pull.Calm (fun t => t.log = emissions [incremented] [0])
          (Pull.resume [0]) := by
  refine ⟨by decide, by decide, ?_⟩
  intro h
  obtain ⟨ls, t, hrun, hcalm, hstuck, hlog⟩ := (Pull.pull_settles [0]).reached
  have := h.right ls t hrun hcalm hstuck
  rw [hlog] at this
  revert this
  decide

end NexusRuntime.Streams
