import NexusRuntime.Devices.FilePush
import NexusRuntime.Sequence.Pieces
import NexusRuntime.Streams.FileCopy

namespace NexusRuntime

open Transition Sequence

namespace FilePush

-- what one turn of the device means to a listener of 'data' and 'end'
inductive Hears (d : FilePushDevice) : Label → FilePushDevice → Prop
  | quiet {l d'} (hl : l = .resume ∨ l = .pause ∨ d.myState = .paused ∧ d.loops ≠ [])
      (hp : d'.payloads = d.payloads) (he : d'.ends = d.ends)
      (hold : ∀ k ∈ d.loops, k ∈ d'.loops)
      (hnew : ∀ k ∈ d'.loops, k.phase = .emitting → k ∈ d.loops) : Hears d l d'
  | data {avail promise x d'} (hl : d.loops = [⟨promise, .task⟩])
      (hl' : d'.loops = [⟨promise, .emitting⟩]) (hx : x ≠ []) (hp : d'.payloads = d.payloads ++ [x])
      (he : d'.ends = d.ends) : Hears d (.task 0 avail) d'
  | again {promise d'} (hl : d.loops = [⟨promise, .emitting⟩]) (hl' : d'.loops = [⟨promise, .task⟩])
      (hp : d'.payloads = d.payloads) (he : d'.ends = d.ends) : Hears d (.emitted 0 true) d'
  | spent {avail promise d'} (hl : d.loops = [⟨promise, .task⟩]) (hl' : d'.loops = [])
      (hp : d'.payloads = d.payloads) (he : d'.ends = d.ends + 1) : Hears d (.task 0 avail) d'
  | ended {promise d'} (hl : d.loops = [⟨promise, .emitting⟩]) (hl' : d'.loops = [])
      (hp : d'.payloads = d.payloads) (he : d'.ends = d.ends + 1) : Hears d (.emitted 0 true) d'

namespace FilePushDevice
variable {content : List UInt8} {d d' : FilePushDevice} {l : Label}

theorem step_hears (hd : d.Inv content) (hf : l.fulfilled = true) (h : step d l = some d') :
    Hears d l d' := by
  cases l with
  | resume =>
    obtain rfl := Option.some.inj h
    cases hs : d.myState with
    | resumed =>
      have hsame : d.resume = d := by simp [resume, hs]
      rw [hsame]
      exact .quiet (.inl rfl) rfl rfl (fun _ hk => hk) (fun _ hk _ => hk)
    | paused =>
      refine .quiet (.inl rfl) (by simp [resume, hs]) (by simp [resume, hs]) ?_ ?_
      · intro k hk
        simp [resume, hs, hk]
      · intro k hk he
        simp only [resume, hs, List.mem_append, List.mem_singleton] at hk
        rcases hk with hk | rfl
        · exact hk
        · cases he
  | pause =>
    obtain rfl := Option.some.inj h
    have hsame : d.pause.payloads = d.payloads ∧ d.pause.ends = d.ends ∧ d.pause.loops = d.loops := by
      cases hs : d.myState <;> simp [pause, hs]
    obtain ⟨hp, he, hl⟩ := hsame
    exact .quiet (.inr (.inl rfl)) hp he (fun _ hk => hl ▸ hk) (fun _ hk _ => hl ▸ hk)
  | emitted i ok =>
    obtain rfl : ok = true := hf
    simp only [step] at h
    split at h
    · next promise hl =>
      obtain rfl := Option.some.inj h
      obtain ⟨rfl, honly⟩ := only_loop hd hl
      cases he : d.myStream.eof with
      | true =>
        refine .ended honly ?_ ?_ ?_
        all_goals simp [emitted, he, honly, settle]
      | false =>
        refine .again honly ?_ ?_ ?_
        all_goals simp [emitted, he, honly]
    · cases h
  | task i avail =>
    simp only [step] at h
    split at h
    · next promise hl =>
      split at h
      · obtain rfl := Option.some.inj h
        obtain ⟨rfl, honly⟩ := only_loop hd hl
        simp only [readHandler]
        cases hs : d.myState with
        | paused => exact .quiet (.inr (.inr ⟨hs, by simp [honly]⟩)) rfl rfl (fun _ hk => hk) (fun _ hk _ => hk)
        | resumed =>
          have hnone := InputStream.fetch_nothing hd.consistent (show 0 < bufferSize by decide) avail
          generalize d.myStream.fetch bufferSize avail = r at hnone ⊢
          rcases r with ⟨s, _ | ⟨b, bs⟩⟩
          · have heof : s.eof = true := hnone rfl
            exact .spent honly (by simp [heof, honly, settle]) (by simp [heof, settle])
              (by simp [heof, settle])
          · exact .data honly (by simp [honly]) (List.cons_ne_nil b bs) rfl rfl
      · cases h
    · cases h

theorem step_exhausted (hd : d.myStream.Exhausted) (ho : d.isOpen = true) (h : step d l = some d') :
    d'.myStream.Exhausted := by
  cases l with
  | resume =>
    obtain rfl := Option.some.inj h
    cases hs : d.myState <;> simpa [resume, hs, ho] using hd
  | pause =>
    obtain rfl := Option.some.inj h
    cases hs : d.myState <;> simpa [pause, hs] using hd
  | emitted i ok =>
    simp only [step] at h
    split at h
    · obtain rfl := Option.some.inj h
      cases ok with
      | true =>
        simp only [emitted]
        split <;> exact hd
      | false => exact hd
    · cases h
  | task i avail =>
    simp only [step] at h
    split at h
    · split at h
      · next ha =>
        obtain rfl := Option.some.inj h
        have hfetch := InputStream.fetch_exhausted hd bufferSize ha
        simp only [readHandler]
        cases d.myState with
        | paused => exact hd
        | resumed =>
          generalize d.myStream.fetch bufferSize avail = r at hfetch ⊢
          rcases r with ⟨s, _ | ⟨b, bs⟩⟩
          · dsimp only
            split <;> exact hfetch
          · exact hfetch
      · cases h
    · cases h

theorem all_read (hd : d.Inv content) (hex : d.myStream.Exhausted) (he : d.myStream.eof = true) :
    d.payloads.flatten = content := by
  have hlen := hex he
  rw [hd.file] at hlen
  rw [hd.consumed, List.take_of_length_le hlen]

-- cs may be what the device has read when it is done
structure Agrees (d : FilePushDevice) (cs : List (List UInt8)) : Prop where
  read : d.payloads <+: cs
  whole : d.ends ≠ 0 → d.payloads = cs

theorem agrees_self (d : FilePushDevice) : d.Agrees d.payloads := ⟨List.prefix_refl _, fun _ => rfl⟩

theorem ends_of_loop (hd : d.Inv content) {k : Loop} (hl : d.loops = [k]) : d.ends = 0 := by
  rw [hd.ends, if_neg]
  rintro ⟨-, h⟩
  simp [hl] at h

def left (content : List UInt8) (d : FilePushDevice) : Nat :=
  match d.loops with
  | [] => 0
  | ⟨_, .task⟩ :: _ => 2 * (content.length - d.payloads.flatten.length) + 1
  | ⟨_, .emitting⟩ :: _ => 2 * (content.length - d.payloads.flatten.length) + 2

theorem left_hears (hd : d'.Inv content) (h : Hears d l d') (hl : l ≠ .resume ∧ l ≠ .pause)
    (hrun : d.loops ≠ [] → d.myState = .resumed) : d'.left content < d.left content := by
  cases h with
  | quiet hquiet =>
    rcases hquiet with h | h | ⟨hs, hne⟩
    · exact absurd h hl.1
    · exact absurd h hl.2
    · rw [hrun hne] at hs
      cases hs
  | @data avail promise x d' hold hnew hx hp he =>
    have hlen := (hd.consumed ▸ List.take_prefix d'.myStream.pos content : d'.payloads.flatten <+: content).length_le
    have hpos := List.length_pos_iff.mpr hx
    simp only [left, hold, hnew]
    rw [hp, List.flatten_append, List.flatten_singleton, List.length_append] at hlen ⊢
    omega
  | again hold hnew hp he =>
    simp only [left, hold, hnew, hp]
    omega
  | spent hold hnew hp he =>
    simp only [left, hold, hnew]
    omega
  | ended hold hnew hp he =>
    simp only [left, hold, hnew]
    omega

theorem step_errors (hf : l.fulfilled = true) (h : step d l = some d') : d'.errors = d.errors := by
  cases l with
  | resume =>
    obtain rfl := Option.some.inj h
    cases hs : d.myState <;> simp [resume, hs]
  | pause =>
    obtain rfl := Option.some.inj h
    cases hs : d.myState <;> simp [pause, hs]
  | emitted i ok =>
    obtain rfl : ok = true := hf
    simp only [step] at h
    split at h
    · obtain rfl := Option.some.inj h
      cases he : d.myStream.eof <;> simp [emitted, he, settle]
    · cases h
  | task i avail =>
    simp only [step] at h
    split at h
    · split at h
      · obtain rfl := Option.some.inj h
        simp only [readHandler]
        cases d.myState with
        | paused => rfl
        | resumed =>
          rcases d.myStream.fetch bufferSize avail with ⟨s, _ | ⟨b, bs⟩⟩
          · dsimp only
            split <;> rfl
          · rfl
      · cases h
    · cases h

-- resumed once and not paused since
structure Running (d : FilePushDevice) : Prop where
  resumed : d.loops ≠ [] → d.myState = .resumed
  finished : d.loops = [] → d.myStream.eof = true

theorem running_step (hd : d.Inv content) (hr : d.Running) (hf : l.fulfilled = true)
    (hl : l ≠ .resume ∧ l ≠ .pause) (h : step d l = some d') : d'.Running := by
  cases l with
  | resume => exact absurd rfl hl.1
  | pause => exact absurd rfl hl.2
  | emitted i ok =>
    obtain rfl : ok = true := hf
    simp only [step] at h
    split at h
    · next promise hloop =>
      obtain rfl := Option.some.inj h
      obtain ⟨rfl, honly⟩ := only_loop hd hloop
      have hstate := hr.resumed (by simp [honly])
      cases he : d.myStream.eof with
      | true => constructor <;> simp [emitted, he, honly, settle]
      | false => constructor <;> simp [emitted, he, honly, hstate]
    · cases h
  | task i avail =>
    simp only [step] at h
    split at h
    · next promise hloop =>
      split at h
      · obtain rfl := Option.some.inj h
        obtain ⟨rfl, honly⟩ := only_loop hd hloop
        have hstate := hr.resumed (by simp [honly])
        have hnone := InputStream.fetch_nothing hd.consistent (show 0 < bufferSize by decide) avail
        simp only [readHandler, hstate]
        generalize d.myStream.fetch bufferSize avail = r at hnone ⊢
        rcases r with ⟨s, _ | ⟨b, bs⟩⟩
        · have heof : s.eof = true := hnone rfl
          constructor <;> simp [heof, honly, settle]
        · constructor <;> simp [honly]
      · cases h
    · cases h

end FilePushDevice
end FilePush

namespace Streams

namespace Piped
variable {α : Type} {filters : List (Filter α)} {p q : Piped α} {l : PipeLabel α}

theorem hear_stream (p : Piped α) (x : Nat × Event α) : (p.hear x).stream = p.stream := by
  obtain ⟨k, e⟩ := x
  cases e with
  | data v => rfl
  | error => rfl
  | ended =>
    simp only [hear]
    split <;> rfl

theorem chains_step (h : step filters p l = some q) (hl : ∀ x, l ≠ .stream (.fire x)) :
    q.stream.inputs = p.stream.inputs ∧
      ((∀ (k : Nat) (c : Chain α), p.stream.chains[k]? = some c → c.stage = .done) →
        q.stream.chains = p.stream.chains) := by
  have hmoved : ∀ {k a c u}, p.stream.chains[k]? = some c →
      c.turn filters p.stream.histories a = some u →
      (p.moved k u).stream.inputs = p.stream.inputs ∧
        ((∀ (k : Nat) (c : Chain α), p.stream.chains[k]? = some c → c.stage = .done) →
          (p.moved k u).stream.chains = p.stream.chains) := by
    intro k a c u hc hu
    refine ⟨map_replace hc (turn_input hu), ?_⟩
    intro hdone
    exact absurd (hdone k c hc) (stage_of_turn hu)
  cases step_cases h with
  | @fire x => exact absurd rfl (hl x)
  | quiet hc hu hready he => exact hmoved hc hu
  | heard hc hu hready he =>
    rw [hear_stream]
    exact hmoved hc hu
  | pass | complete | spoil | caught | deviceError => exact ⟨rfl, fun _ => rfl⟩

end Piped

open Devices (OutputFile)
open FilePush (FilePushDevice)

def Copying.fire (s : Copying) (x : Option Octets) : Copying :=
  { s with piped := { s.piped with stream := { s.piped.stream with
      chains := s.piped.stream.chains ++ [⟨x, 0, .ready x⟩] } } }

def Copying.reject (s : Copying) : Copying :=
  { s with piped := { s.piped with promise := s.piped.promise.settle .rejected } }

def CopyLabel.fires : CopyLabel → Bool
  | .pipe (.stream (.fire _)) => true
  | _ => false

-- the events that a turn of the device adds to those before it
def fired (d d' : FilePushDevice) : List (Option Octets) :=
  (d'.payloads.drop d.payloads.length).map some ++ List.replicate (d'.ends - d.ends) none

-- awaited gives for a loop, by its promise, the chain of the data it emitted last
structure FilePipe where
  device : FilePushDevice
  copying : Copying
  awaited : List (Nat × Nat)

inductive FilePipeLabel where
  | device (l : FilePush.Label)
  | copy (l : CopyLabel)

namespace FilePipe

def start (content : Octets) (filters : List (Filter Octets)) (files : List OutputFile) : FilePipe where
  device := .start content
  copying := .start filters files
  awaited := []

def chains (s : FilePipe) : List (Chain Octets) := s.copying.piped.stream.chains

def settled (s : FilePipe) (promise : Nat) : Bool :=
  (s.awaited.lookup promise).any fun k => (s.chains[k]?).any fun c => decide (c.stage = .done)

-- emit('data') of the device is settled when the chain of that data is
def ready (s : FilePipe) : FilePush.Label → Bool
  | .emitted i _ => (s.device.loops[i]?).all fun k => s.settled k.promise
  | _ => true

def awaits (s : FilePipe) (d : FilePushDevice) : FilePush.Label → List (Nat × Nat)
  | .task i _ =>
    if s.device.payloads.length < d.payloads.length then
      (s.device.loops[i]?).toList.map (fun k => (k.promise, s.chains.length)) ++ s.awaited
    else s.awaited
  | _ => s.awaited

def hear (s : FilePipe) (d : FilePushDevice) : Copying :=
  (fired s.device d).foldl Copying.fire (if s.device.errors < d.errors then s.copying.reject else s.copying)

def step (filters : List (Filter Octets)) (s : FilePipe) : FilePipeLabel → Option FilePipe
  | .device l =>
    if s.ready l then (FilePush.step s.device l).map fun d => ⟨d, s.hear d, s.awaits d l⟩ else none
  | .copy l =>
    if l.fires then none
    else (Copying.step filters s.copying l).map fun c => { s with copying := c }

def system (filters : List (Filter Octets)) : System FilePipe FilePipeLabel := ⟨step filters⟩

def calm : CopyLabel → Prop
  | .pipe l => l.calm = true
  | .turn _ _ fault => fault = none

def Calm (s : FilePipe) : FilePipeLabel → Prop
  | .device l => l.fulfilled = true ∧ s.device.orderly l
  | .copy l => calm l

def AllDone (s : FilePipe) : Prop :=
  ∀ (k : Nat) (c : Chain Octets), s.chains[k]? = some c → c.stage = .done

structure Follows (content : Octets) (filters : List (Filter Octets)) (files : List OutputFile)
    (s : FilePipe) : Prop where
  device : s.device.Inv content
  exhausted : s.device.myStream.Exhausted
  pieces : [] ∉ s.device.payloads
  inputs : s.copying.piped.stream.inputs =
    s.device.payloads.map some ++ List.replicate s.device.ends none
  copies : ∀ cs, s.device.Agrees cs → Copies filters cs files s.copying
  idle : (∀ k ∈ s.device.loops, k.phase = .task) → s.device.ends = 0 → s.AllDone
  awaiting : ∀ k ∈ s.device.loops, k.phase = .emitting →
    ∃ n, s.awaited.lookup k.promise = some n ∧ n + 1 = s.chains.length

variable {content : Octets} {filters : List (Filter Octets)} {files : List OutputFile} {s t : FilePipe}

theorem follows_start (content : Octets) (filters : List (Filter Octets)) (files : List OutputFile) :
    Follows content filters files (start content filters files) where
  device := FilePushDevice.inv_start content
  exhausted := by rintro ⟨⟩
  pieces := List.not_mem_nil
  inputs := rfl
  copies cs _ := Copies.start filters cs files
  idle _ _ := by
    intro k c hc
    simp [chains, start, Copying.start, Piped.start, Readable.start] at hc
  awaiting := by
    intro k hk
    cases hk

theorem step_fire (s : Copying) (x : Option Octets) :
    Copying.step filters s (.pipe (.stream (.fire x))) = some (s.fire x) := by
  simp [Copying.step, Copying.outputsAfter, Piped.step, Piped.ready, Readable.step, Copying.fire]

theorem fire_copies {cs : List Octets} {c : Copying} (h : Copies filters cs files c) {x : Option Octets}
    (hdone : ∀ (k : Nat) (d : Chain Octets), c.piped.stream.chains[k]? = some d → d.stage = .done)
    (hx : (source cs)[c.piped.stream.chains.length]? = some x) :
    Copies filters cs files (c.fire x) ∧ (c.fire x).left filters cs < c.left filters cs := by
  refine h.step (l := .pipe (.stream (.fire x))) ⟨rfl, ?_⟩ (step_fire c x)
  intro y hy
  obtain rfl := StreamLabel.fire.inj (PipeLabel.stream.inj hy)
  exact ⟨hdone, hx⟩

theorem hear_eq {d : FilePushDevice} (he : d.errors = s.device.errors) :
    s.hear d = (fired s.device d).foldl Copying.fire s.copying := by
  rw [hear, if_neg (by omega)]

theorem Follows.inputs_length (h : Follows content filters files s) :
    s.chains.length = s.device.payloads.length + s.device.ends := by
  have hlen := congrArg List.length h.inputs
  simpa [Readable.inputs, chains] using hlen

theorem Follows.done_of_ready (h : Follows content filters files s) {promise : Nat}
    (hl : s.device.loops = [⟨promise, .emitting⟩]) (hready : s.ready (.emitted 0 true) = true) :
    s.AllDone := by
  obtain ⟨n, hn, hlast⟩ := h.awaiting ⟨promise, .emitting⟩ (by simp [hl]) rfl
  have hsettled : s.settled promise = true := by simpa [ready, hl] using hready
  have hlt : n < s.chains.length := by omega
  simp only [settled, hn, Option.any_some, List.getElem?_eq_getElem hlt, decide_eq_true_eq] at hsettled
  have halone := (h.copies _ s.device.agrees_self).flow.alone
  intro k c hc
  have hk : k < s.chains.length := (List.getElem?_eq_some_iff.mp hc).1
  rcases Nat.lt_or_ge (k + 1) s.chains.length with hmore | hend
  · exact halone k c hc hmore
  · obtain rfl : k = n := by omega
    rw [List.getElem?_eq_getElem hlt] at hc
    rw [← Option.some.inj hc]
    exact hsettled

section Device
variable {d : FilePushDevice} {l : FilePush.Label}

theorem Follows.follows_quiet (h : Follows content filters files s) (hd : d.Inv content)
    (hex : d.myStream.Exhausted) (herr : d.errors = s.device.errors)
    (hp : d.payloads = s.device.payloads) (he : d.ends = s.device.ends)
    (hidle : (∀ k ∈ d.loops, k.phase = .task) → d.ends = 0 → s.AllDone)
    (hawaits : ∀ k ∈ d.loops, k.phase = .emitting → k ∈ s.device.loops) :
    s.hear d = s.copying ∧ Follows content filters files ⟨d, s.hear d, s.awaits d l⟩ := by
  have hfired : fired s.device d = [] := by simp [fired, hp, he]
  have hhear : s.hear d = s.copying := by rw [hear_eq herr, hfired, List.foldl_nil]
  have hsame : s.awaits d l = s.awaited := by
    cases l <;> simp [awaits, hp]
  refine ⟨hhear, ?_⟩
  rw [hhear, hsame]
  exact {
    device := hd
    exhausted := hex
    pieces := hp ▸ h.pieces
    inputs := by
      rw [hp, he]
      exact h.inputs
    copies := fun cs hcs => h.copies cs ⟨hp ▸ hcs.read, hp ▸ he ▸ hcs.whole⟩
    idle := hidle
    awaiting := fun k hk hphase => h.awaiting k (hawaits k hk hphase) hphase }

theorem Follows.follows_fired (h : Follows content filters files s) (hdone : s.AllDone) (hd : d.Inv content)
    (hex : d.myStream.Exhausted) (herr : d.errors = s.device.errors) (hpieces : [] ∉ d.payloads)
    {x : Option Octets} (hfired : fired s.device d = [x])
    (hinputs : d.payloads.map some ++ List.replicate d.ends none =
      s.device.payloads.map some ++ List.replicate s.device.ends none ++ [x])
    (hagrees : ∀ cs, d.Agrees cs → s.device.Agrees cs ∧ (source cs)[s.chains.length]? = some x)
    (hidle : (∀ k ∈ d.loops, k.phase = .task) → d.ends ≠ 0)
    (hawaits : ∀ k ∈ d.loops, k.phase = .emitting →
      (s.awaits d l).lookup k.promise = some s.chains.length) :
    Follows content filters files ⟨d, s.hear d, s.awaits d l⟩ ∧
      ∀ cs, d.Agrees cs → (s.hear d).left filters cs < s.copying.left filters cs := by
  have hhear : s.hear d = s.copying.fire x := by
    rw [hear_eq herr, hfired, List.foldl_cons, List.foldl_nil]
  have hcopies : ∀ cs, d.Agrees cs → Copies filters cs files (s.copying.fire x) ∧
      (s.copying.fire x).left filters cs < s.copying.left filters cs := by
    intro cs hcs
    obtain ⟨hold, hx⟩ := hagrees cs hcs
    exact fire_copies (h.copies cs hold) hdone hx
  rw [hhear]
  refine ⟨?_, fun cs hcs => (hcopies cs hcs).2⟩
  exact {
    device := hd
    exhausted := hex
    pieces := hpieces
    inputs := by
      rw [hinputs, ← h.inputs]
      simp [Copying.fire, Readable.inputs]
    copies := fun cs hcs => (hcopies cs hcs).1
    idle := fun hall hends => absurd hends (hidle hall)
    awaiting := by
      intro k hk hphase
      refine ⟨_, hawaits k hk hphase, ?_⟩
      simp [chains, Copying.fire] }

theorem Follows.follows_ended (h : Follows content filters files s) (hdone : s.AllDone) (hd : d.Inv content)
    (hex : d.myStream.Exhausted) (herr : d.errors = s.device.errors) {k : FilePush.Loop}
    (hl : s.device.loops = [k]) (hl' : d.loops = []) (hp : d.payloads = s.device.payloads)
    (he : d.ends = s.device.ends + 1) :
    Follows content filters files ⟨d, s.hear d, s.awaits d l⟩ ∧
      ∀ cs, d.Agrees cs → s.device.Agrees cs ∧
        (s.hear d).left filters cs ≤ s.copying.left filters cs := by
  have hends := FilePushDevice.ends_of_loop h.device hl
  have hlen := h.inputs_length
  have hagrees : ∀ cs, d.Agrees cs →
      s.device.Agrees cs ∧ (source cs)[s.chains.length]? = some none := by
    intro cs hcs
    have hwhole := hcs.whole (by omega)
    refine ⟨⟨hp ▸ hcs.read, fun hne => absurd hends hne⟩, ?_⟩
    rw [hlen, hends, source, ← hwhole, hp]
    simp
  obtain ⟨hfollows, hless⟩ := h.follows_fired (l := l) (x := none) hdone hd hex herr (hp ▸ h.pieces)
    (by simp [fired, hp, he]) (by simp [hp, he, List.replicate_succ']) hagrees
    (fun _ => by omega) (by simp [hl'])
  exact ⟨hfollows, fun cs hcs => ⟨(hagrees cs hcs).1, Nat.le_of_lt (hless cs hcs)⟩⟩

theorem Follows.follows_device (h : Follows content filters files s) (hcalm : Calm s (.device l))
    (hready : s.ready l = true) (hstep : FilePush.step s.device l = some d) :
    Follows content filters files ⟨d, s.hear d, s.awaits d l⟩ ∧
      ∀ cs, d.Agrees cs → s.device.Agrees cs ∧
        (s.hear d).left filters cs ≤ s.copying.left filters cs := by
  have hd := FilePushDevice.inv_step s.device l d h.device hcalm.1 hcalm.2 hstep
  have hex := FilePushDevice.step_exhausted h.exhausted h.device.isOpen hstep
  have herr := FilePushDevice.step_errors hcalm.1 hstep
  have hlen := h.inputs_length
  cases FilePushDevice.step_hears h.device hcalm.1 hstep with
  | quiet hl hp he hold hnew =>
    obtain ⟨hhear, hfollows⟩ := h.follows_quiet (l := l) hd hex herr hp he
      (fun hall hends => h.idle (fun k hk => hall k (hold k hk)) (he ▸ hends)) hnew
    refine ⟨hfollows, fun cs hcs => ⟨⟨hp ▸ hcs.read, hp ▸ he ▸ hcs.whole⟩, ?_⟩⟩
    rw [hhear]
  | @again promise d hl hl' hp he =>
    have hdone := h.done_of_ready hl hready
    obtain ⟨hhear, hfollows⟩ := h.follows_quiet (l := .emitted 0 true) hd hex herr hp he
      (fun _ _ => hdone) (by simp [hl'])
    refine ⟨hfollows, fun cs hcs => ⟨⟨hp ▸ hcs.read, hp ▸ he ▸ hcs.whole⟩, ?_⟩⟩
    rw [hhear]
  | @data avail promise x d hl hl' hx hp he =>
    have hends := FilePushDevice.ends_of_loop h.device hl
    have hdone := h.idle (by simp [hl]) hends
    have hagrees : ∀ cs, d.Agrees cs →
        s.device.Agrees cs ∧ (source cs)[s.chains.length]? = some (some x) := by
      intro cs hcs
      obtain ⟨rest, hrest⟩ := hcs.read
      rw [hp] at hrest
      refine ⟨⟨⟨[x] ++ rest, by rw [← hrest, List.append_assoc]⟩, fun hne => absurd hends hne⟩, ?_⟩
      rw [hlen, hends, source, ← hrest]
      simp
    obtain ⟨hfollows, hless⟩ := h.follows_fired (l := .task 0 avail) (x := some x) hdone hd hex herr
      (by simp [hp, h.pieces, Ne.symm hx]) (by simp [fired, hp, he]) (by simp [hp, he, hends]) hagrees
      (by simp [hl']) (by simp [hl', hl, awaits, hp])
    exact ⟨hfollows, fun cs hcs => ⟨(hagrees cs hcs).1, Nat.le_of_lt (hless cs hcs)⟩⟩
  | @spent avail promise d hl hl' hp he =>
    have hdone := h.idle (by simp [hl]) (FilePushDevice.ends_of_loop h.device hl)
    exact h.follows_ended hdone hd hex herr hl hl' hp he
  | @ended promise d hl hl' hp he =>
    exact h.follows_ended (h.done_of_ready hl hready) hd hex herr hl hl' hp he

end Device

theorem Follows.follows_copy (h : Follows content filters files s) {l : CopyLabel} {c : Copying}
    (hcalm : calm l) (hfires : l.fires = false) (hstep : Copying.step filters s.copying l = some c) :
    Follows content filters files { s with copying := c } ∧
      ∀ cs, s.device.Agrees cs → c.left filters cs < s.copying.left filters cs := by
  have hnofire : ∀ pl x, l = .pipe pl → pl ≠ .stream (.fire x) := by
    rintro pl x rfl rfl
    cases hfires
  have hwaits : ∀ cs, Copying.Calm cs s.copying l := by
    intro cs
    cases l with
    | turn t k fault => exact hcalm
    | pipe pl => exact ⟨hcalm, fun x hx => absurd hx (hnofire pl x rfl)⟩
  have hchains : c.piped.stream.inputs = s.copying.piped.stream.inputs ∧
      (s.AllDone → c.piped.stream.chains = s.chains) := by
    cases l with
    | turn t k fault =>
      obtain ⟨o, -, hstep⟩ := Option.bind_eq_some_iff.mp hstep
      obtain ⟨w, -, hstep⟩ := Option.bind_eq_some_iff.mp hstep
      split at hstep
      · cases hstep
      · obtain rfl := Option.some.inj hstep
        exact ⟨rfl, fun _ => rfl⟩
    | pipe pl =>
      obtain ⟨outputs, -, hstep⟩ := Option.bind_eq_some_iff.mp hstep
      obtain ⟨p, hp, rfl⟩ := Option.map_eq_some_iff.mp hstep
      exact Piped.chains_step hp fun x => hnofire pl x rfl
  have hlen : c.piped.stream.chains.length = s.chains.length := by
    have := congrArg List.length hchains.1
    simpa [Readable.inputs, chains] using this
  refine ⟨?_, fun cs hcs => ((h.copies cs hcs).step (hwaits cs) hstep).2⟩
  exact {
    device := h.device
    exhausted := h.exhausted
    pieces := h.pieces
    inputs := hchains.1.trans h.inputs
    copies := fun cs hcs => ((h.copies cs hcs).step (hwaits cs) hstep).1
    idle := by
      intro hall hends k d hd
      have hdone := h.idle hall hends
      exact hdone k d (hchains.2 hdone ▸ hd)
    awaiting := by
      intro k hk hphase
      obtain ⟨n, hn, hlast⟩ := h.awaiting k hk hphase
      exact ⟨n, hn, hlast.trans hlen.symm⟩ }

def Driven (s : FilePipe) (l : FilePipeLabel) : Prop :=
  Calm s l ∧ l ≠ .device .resume ∧ l ≠ .device .pause

theorem Follows.step_cases {l : FilePipeLabel} (h : Follows content filters files s)
    (hcalm : Calm s l) (hstep : step filters s l = some t) :
    Follows content filters files t ∧
      (∀ cs, t.device.Agrees cs → s.device.Agrees cs) ∧
      ((∃ d, l = .device d ∧ FilePush.step s.device d = some t.device ∧
          ∀ cs, t.device.Agrees cs → t.copying.left filters cs ≤ s.copying.left filters cs) ∨
        t.device = s.device ∧
          ∀ cs, t.device.Agrees cs → t.copying.left filters cs < s.copying.left filters cs) := by
  cases l with
  | device l =>
    simp only [step] at hstep
    split at hstep
    · next hready =>
      obtain ⟨d, hd, rfl⟩ := Option.map_eq_some_iff.mp hstep
      obtain ⟨hfollows, hagrees⟩ := h.follows_device hcalm hready hd
      exact ⟨hfollows, fun cs hcs => (hagrees cs hcs).1,
        .inl ⟨l, rfl, hd, fun cs hcs => (hagrees cs hcs).2⟩⟩
    · cases hstep
  | copy l =>
    simp only [step] at hstep
    split at hstep
    · cases hstep
    · next hfires =>
      obtain ⟨c, hc, rfl⟩ := Option.map_eq_some_iff.mp hstep
      obtain ⟨hfollows, hless⟩ := h.follows_copy hcalm (by simpa using hfires) hc
      exact ⟨hfollows, fun _ hcs => hcs, .inr ⟨rfl, hless⟩⟩

def left (content : Octets) (filters : List (Filter Octets)) (cs : List Octets) (s : FilePipe) : Nat :=
  s.device.left content + s.copying.left filters cs

theorem driven_step {l : FilePipeLabel} (h : Follows content filters files s)
    (hr : s.device.Running) (hl : Driven s l) (hstep : step filters s l = some t) :
    (Follows content filters files t ∧ t.device.Running) ∧
      ∀ cs, t.device.Agrees cs → s.device.Agrees cs ∧
        t.left content filters cs < s.left content filters cs := by
  obtain ⟨hfollows, hagrees, hcase⟩ := h.step_cases hl.1 hstep
  rcases hcase with ⟨d, rfl, hd, hle⟩ | ⟨hsame, hlt⟩
  · have hcalm : d.fulfilled = true ∧ s.device.orderly d := hl.1
    have hundisturbed : d ≠ .resume ∧ d ≠ .pause := by
      constructor
      · rintro rfl
        exact hl.2.1 rfl
      · rintro rfl
        exact hl.2.2 rfl
    have hrun := FilePushDevice.running_step h.device hr hcalm.1 hundisturbed hd
    have hhears := FilePushDevice.step_hears h.device hcalm.1 hd
    have hdevice := FilePushDevice.left_hears hfollows.device hhears hundisturbed hr.resumed
    refine ⟨⟨hfollows, hrun⟩, fun cs hcs => ⟨hagrees cs hcs, ?_⟩⟩
    have := hle cs hcs
    simp only [left]
    omega
  · refine ⟨⟨hfollows, hsame ▸ hr⟩, fun cs hcs => ⟨hagrees cs hcs, ?_⟩⟩
    have := hlt cs hcs
    simp only [left, hsame]
    omega

-- the read-ahead of a run is bounded whatever the device makes of the file
theorem driven_run {ls : List FilePipeLabel} (h : Follows content filters files s)
    (hr : s.device.Running) (hrun : (system filters).run s ls = some t)
    (hm : (system filters).meets Driven s ls) :
    (Follows content filters files t ∧ t.device.Running) ∧
      ∀ cs, t.device.Agrees cs → s.device.Agrees cs ∧
        t.left content filters cs + ls.length ≤ s.left content filters cs := by
  induction ls generalizing s with
  | nil =>
    obtain rfl := Option.some.inj hrun
    exact ⟨⟨h, hr⟩, fun cs hcs => ⟨hcs, Nat.le_refl _⟩⟩
  | cons l ls ih =>
    rw [System.run_cons] at hrun
    obtain ⟨u, hu, hrun⟩ := Option.bind_eq_some_iff.mp hrun
    simp only [System.meets, hu] at hm
    obtain ⟨⟨hfu, hru⟩, hstep⟩ := driven_step h hr hm.1 hu
    obtain ⟨ht, hrest⟩ := ih hfu hru hrun hm.2
    refine ⟨ht, ?_⟩
    intro cs hcs
    obtain ⟨hmid, hle⟩ := hrest cs hcs
    obtain ⟨hold, hlt⟩ := hstep cs hmid
    refine ⟨hold, ?_⟩
    rw [List.length_cons]
    omega

section Stuck
variable (hstuck : (system filters).Stuck Driven s)
include hstuck

theorem copying_stuck
    (hfire : ∀ x, ¬ Piped.Waits s.device.payloads s.copying.piped (.stream (.fire x))) :
    (Copying.system filters).Stuck (Copying.Calm s.device.payloads) s.copying := by
  intro l c hc hl
  have hfires : l.fires = false := by
    rcases l with ⟨⟨x | _⟩ | _ | _ | _ | _⟩ | _
    · exact absurd hl (hfire x)
    all_goals rfl
  refine hstuck (.copy l) { s with copying := c } ?_ ⟨?_, by rintro ⟨⟩, by rintro ⟨⟩⟩
  · simp only [system, step, hfires, Bool.false_eq_true, if_false]
    rw [show Copying.step filters s.copying l = some c from hc]
    rfl
  · cases l with
    | pipe l => exact hl.1
    | turn t k fault => exact hl

variable (h : Follows content filters files s)
include h

theorem done_of_stuck : s.AllDone := by
  by_contra hdone
  have hcopies := h.copies _ s.device.agrees_self
  have hpiped := hcopies.piped_stuck (copying_stuck hstuck fun x hx => hdone (hx.2 x rfl).1)
  have hfinished := Piped.finished_of_stuck hcopies.flow hpiped
  refine hdone (Readable.done_of_stuck hcopies.flow.delivered ?_)
  intro k a r hr hl
  refine hpiped (.stream (.act k a))
    ((r.log.drop s.copying.piped.stream.log.length).foldl Piped.hear { s.copying.piped with stream := r }) ?_
    ⟨hl.1, by rintro x ⟨⟩⟩
  simp only [Piped.system, Piped.step, Piped.ready_of_finished hfinished, if_true, hr, Option.map_some]

theorem loops_of_stuck : s.device.loops = [] := by
  cases hl : s.device.loops with
  | nil => rfl
  | cons k ks =>
    obtain ⟨-, honly⟩ := FilePushDevice.only_loop h.device (i := 0) (by rw [hl]; rfl)
    rw [hl] at honly
    obtain ⟨promise, phase⟩ := k
    cases phase with
    | task =>
      have hstep : FilePush.step s.device (.task 0 (some 0)) =
          some (s.device.readHandler 0 promise (some 0)) := by
        simp [FilePush.step, hl, InputStream.inAvail]
      refine absurd ⟨⟨rfl, ?_⟩, ?_, ?_⟩ (hstuck (.device (.task 0 (some 0))) _ (by simp [system, step, ready, hstep]; rfl))
      all_goals rintro ⟨⟩
    | emitting =>
      obtain ⟨n, hn, hlast⟩ := h.awaiting ⟨promise, .emitting⟩ (by simp [hl]) rfl
      have hlt : n < s.chains.length := by omega
      have hdone := done_of_stuck hstuck h n _ (List.getElem?_eq_getElem hlt)
      have hready : s.ready (.emitted 0 true) = true := by
        simp [ready, hl, settled, hn, List.getElem?_eq_getElem hlt, hdone]
      have hstep : FilePush.step s.device (.emitted 0 true) = some (s.device.emitted 0 promise true) := by
        simp [FilePush.step, hl]
      refine absurd ⟨⟨rfl, ?_⟩, ?_, ?_⟩ (hstuck (.device (.emitted 0 true)) _ (by simp [system, step, hready, hstep]; rfl))
      all_goals rintro ⟨⟩

end Stuck

-- each target holds what the filters make of the whole file, cut into pieces in some way
def Copied (content : Octets) (filters : List (Filter Octets)) (files : List OutputFile)
    (s : FilePipe) : Prop :=
  ∃ cs, [] ∉ cs ∧ cs.flatten = content ∧
    s.copying.outputs = files.map fun f => ⟨.opened (f.write (copied filters cs)), []⟩

theorem copied_of_stuck (h : Follows content filters files s) (hr : s.device.Running)
    (hstuck : (system filters).Stuck Driven s) : Copied content filters files s := by
  have hloops := loops_of_stuck hstuck h
  have heof := hr.finished hloops
  have hends : s.device.ends = 1 := by rw [h.device.ends, if_pos ⟨heof, hloops⟩]
  have hlen := h.inputs_length
  refine ⟨s.device.payloads, h.pieces, FilePushDevice.all_read h.device h.exhausted heof, ?_⟩
  apply (h.copies _ s.device.agrees_self).outputs_of_stuck
  apply copying_stuck hstuck
  intro x hx
  have hnext := (hx.2 x rfl).2
  have hfull : (source s.device.payloads).length = s.copying.piped.stream.chains.length := by
    have hchains : s.copying.piped.stream.chains.length = s.chains.length := rfl
    rw [hchains, hlen, hends, source, List.length_append, List.length_map]
    rfl
  rw [List.getElem?_eq_none (Nat.le_of_eq hfull)] at hnext
  cases hnext

def started (content : Octets) (filters : List (Filter Octets)) (files : List OutputFile) : FilePipe :=
  { start content filters files with device := (FilePushDevice.start content).resume }

theorem follows_started (content : Octets) (filters : List (Filter Octets)) (files : List OutputFile) :
    Follows content filters files (started content filters files) ∧
      (started content filters files).device.Running := by
  have hcalm : Calm (start content filters files) (.device .resume) := ⟨rfl, fun _ _ => ⟨rfl, rfl⟩⟩
  refine ⟨((follows_start content filters files).step_cases hcalm (t := started content filters files) rfl).1, ?_⟩
  constructor <;> simp [started, FilePushDevice.resume, FilePushDevice.start]

-- what is in the files while the pipe is at work, paused or not
def CopiedSoFar (content : Octets) (filters : List (Filter Octets)) (files : List OutputFile)
    (s : FilePipe) : Prop :=
  s.device.payloads.flatten <+: content ∧ s.copying.CopiedSoFar filters s.device.payloads files

theorem file_piped (content : Octets) (filters : List (Filter Octets)) (files : List OutputFile) :
    (∀ ls, (system filters).meets Calm (start content filters files) ls →
      (system filters).always (CopiedSoFar content filters files) (start content filters files) ls) ∧
    (system filters).Settles Driven (Copied content filters files) (started content filters files) := by
  obtain ⟨hstarted, hrunning⟩ := follows_started content filters files
  constructor
  · intro ls hls
    refine System.always_of_meets _ ?_ ?_ (follows_start content filters files) hls
    · intro s h
      exact ⟨h.device.consumed ▸ List.take_prefix _ _, (h.copies _ s.device.agrees_self).copied_so_far⟩
    · intro s l t h hcalm hstep
      exact (h.step_cases hcalm hstep).1
  · obtain ⟨n, hn⟩ := exists_bound
      (fun cs => (started content filters files).left content filters cs) content
    refine ⟨⟨n, ?_⟩, ?_⟩
    · intro ls t hrun hm
      obtain ⟨⟨ht, -⟩, hleft⟩ := driven_run hstarted hrunning hrun hm
      have hle := (hleft _ t.device.agrees_self).2
      have hbound := hn t.device.payloads ht.pieces (ht.device.consumed ▸ List.take_prefix _ _)
      omega
    · intro ls t hrun hm hstuck
      obtain ⟨⟨ht, hr⟩, -⟩ := driven_run hstarted hrunning hrun hm
      exact copied_of_stuck ht hr hstuck

theorem copied_unfiltered (cs : List Octets) : copied [] cs = cs.flatten := by
  have hflushed : flushed ([] : List (Filter Octets)) cs = none := by
    simp [flushed, source, through]
  have hall : (cs.map some).flatMap (fun v => v.getD []) = cs.flatten := by
    rw [List.flatMap_map]
    exact List.flatMap_id
  rw [copied, arrivals, hflushed]
  simpa [through] using hall

theorem file_copied (content : Octets) (targets : Nat) :
    (system []).Settles Driven
      (fun s => s.copying.outputs =
        List.replicate targets ⟨.opened ⟨content, content.length⟩, []⟩)
      (started content [] (List.replicate targets ⟨[], 0⟩)) := by
  have h := (file_piped content [] (List.replicate targets ⟨[], 0⟩)).2
  refine ⟨h.bounded, ?_⟩
  intro ls t hrun hm hstuck
  obtain ⟨cs, -, rfl, hout⟩ := h.right ls t hrun hm hstuck
  rw [hout, List.map_replicate, copied_unfiltered, OutputFile.write_opened]

end FilePipe
end Streams
end NexusRuntime
