import NexusRuntime.Devices.FileSink
import NexusRuntime.Streams.PipeOrder

namespace NexusRuntime.Streams

open Transition Sequence
open NexusRuntime.Devices (OutputFile FileSinkDevice Fault View Writing Settlement Filling)

abbrev Octets : Type := List UInt8

-- one call of a target's write for the event of a broadcast
structure FileWrite where
  broadcast : Nat
  view : View
  writing : Writing

structure Output where
  device : FileSinkDevice
  writes : List FileWrite

namespace FileWrite

def settledWith (w : FileWrite) (ok : Bool) : Bool :=
  match w.writing.settlements with
  | [.rejected _] => !ok
  | [_] => ok
  | _ => false

end FileWrite

namespace Output

def write (o : Output) (i : Nat) (data : Option Octets) : Output :=
  let v := View.arrayBuffer (data.getD [])
  { o with writes := o.writes ++ [⟨i, v, Writing.start v⟩] }

def turn (o : Output) (k : Nat) (w : FileWrite) (fault : Option Fault) : Output :=
  let r := o.device.run w.view w.writing fault
  ⟨r.1, o.writes.set k { w with writing := r.2 }⟩

def left (o : Output) : Nat := total (fun w => Filling.left w.view w.writing) o.writes

theorem write_left (o : Output) (i : Nat) (data : Option Octets) :
    (o.write i data).left ≤ o.left + ((data.getD []).length + 1) := by
  have := Filling.start_left (View.arrayBuffer (data.getD []))
  rw [left, write, total_append]
  exact Nat.add_le_add_left this _

theorem left_filter (o : Output) (p : FileWrite → Bool) :
    ({ o with writes := o.writes.filter p } : Output).left ≤ o.left := by
  unfold left
  induction o.writes with
  | nil => exact Nat.le_refl _
  | cons w ws ih =>
    simp only [List.filter_cons]
    split
    · exact Nat.add_le_add_left ih _
    · exact Nat.le_trans ih (Nat.le_add_left _ _)

end Output

structure Copying where
  piped : Piped Octets
  outputs : List Output

inductive CopyLabel where
  | pipe (l : PipeLabel Octets)
  | turn (t k : Nat) (fault : Option Fault)

namespace Copying

def start (filters : List (Filter Octets)) (files : List OutputFile) : Copying where
  piped := .start filters files.length
  outputs := files.map fun f => ⟨.opened f, []⟩

-- the promise that pipe waits for is the one that device.write answered with
def outputsAfter (s : Copying) : PipeLabel Octets → Option (List Output)
  | .pass i t => (s.piped.broadcasts[i]?).bind fun b => (s.outputs[t]?).map fun o =>
    s.outputs.set t (o.write i b.event.written)
  | .complete i t ok => (s.outputs[t]?).bind fun o =>
    if o.writes.any fun w => w.broadcast == i && w.settledWith ok then
      some (s.outputs.set t { o with writes := o.writes.filter fun w => w.broadcast != i })
    else none
  | _ => some s.outputs

def step (filters : List (Filter Octets)) (s : Copying) : CopyLabel → Option Copying
  | .pipe l => (s.outputsAfter l).bind fun outputs =>
    (Piped.step filters s.piped l).map fun p => ⟨p, outputs⟩
  | .turn t k fault => (s.outputs[t]?).bind fun o => (o.writes[k]?).bind fun w =>
    if w.writing.tasks = [] then none
    else some { s with outputs := s.outputs.set t (o.turn k w fault) }

def system (filters : List (Filter Octets)) : System Copying CopyLabel := ⟨step filters⟩

def Calm (cs : List Octets) (s : Copying) : CopyLabel → Prop
  | .pipe l => Piped.Waits cs s.piped l
  | .turn _ _ fault => fault = none

end Copying

def bytesOf : Write Octets → Octets
  | .completed data => data.getD []
  | _ => []

def copied (filters : List (Filter Octets)) (cs : List Octets) : Octets :=
  (arrivals filters cs).flatMap fun v => v.getD []

theorem bytes_of_writes (filters : List (Filter Octets)) (cs : List Octets) :
    ((arrivals filters cs).flatMap writes).flatMap bytesOf = copied filters cs := by
  rw [copied, List.flatMap_assoc]
  apply List.flatMap_congr
  intro v _
  simp [writes, bytesOf]

def Copying.left (filters : List (Filter Octets)) (cs : List Octets) (s : Copying) : Nat :=
  ((copied filters cs).length + 2) * s.piped.left filters cs + total Output.left s.outputs

-- a file holds a first part of what is piped, written where the file was opened
def Copying.CopiedSoFar (filters : List (Filter Octets)) (cs : List Octets) (files : List OutputFile)
    (s : Copying) : Prop :=
  ∀ (t : Nat) (o : Output) (f : OutputFile), s.outputs[t]? = some o → files[t]? = some f →
    ∃ bytes, bytes <+: copied filters cs ∧ o.device.file = f.write bytes

namespace Piped

def WritingTo (p : Piped α) (i t : Nat) (data : Option α) : Prop :=
  ∃ b, p.broadcasts[i]? = some b ∧ b.parts[t]? = some .writing ∧ b.event.written = data

def Untouched (p q : Piped α) (t : Nat) : Prop :=
  p.tapes[t]? = q.tapes[t]? ∧ ∀ i data, q.WritingTo i t data ↔ p.WritingTo i t data

end Piped

-- f is the file of target t as pipe found it
inductive OutputAt (f : OutputFile) (p : Piped Octets) (t : Nat) : Output → Prop
  | idle {tape} (ht : p.tapes[t]? = some tape) (hidle : ∀ i data, ¬ p.WritingTo i t data) :
      OutputAt f p t ⟨.opened (f.write (tape.flatMap bytesOf)), []⟩
  | busy {tape i data w} (ht : p.tapes[t]? = some tape) (hbusy : p.WritingTo i t data)
      (hw : Filling (View.arrayBuffer (data.getD [])) w) :
      OutputAt f p t
        ⟨.opened (f.write (tape.flatMap bytesOf ++ w.accepted)),
          [⟨i, View.arrayBuffer (data.getD []), w⟩]⟩

structure Copies (filters : List (Filter Octets)) (cs : List Octets) (files : List OutputFile)
    (s : Copying) : Prop where
  flow : Piped.Flow filters cs files.length s.piped
  outputs : s.outputs.length = files.length
  each : ∀ t o f, s.outputs[t]? = some o → files[t]? = some f → OutputAt f s.piped t o

namespace Piped
variable {s t : Piped α} {filters : List (Filter α)}

theorem untouched_refl (p : Piped α) (t : Nat) : p.Untouched p t := ⟨rfl, fun _ _ => Iff.rfl⟩

theorem untouched_broadcast (s : Piped α) (k : Nat) (e : Event α) (j : Nat) :
    s.Untouched (s.broadcast k e) j := by
  refine ⟨rfl, ?_⟩
  intro i data
  constructor
  · rintro ⟨b, hb, hp, hdata⟩
    rcases getElem?_snoc hb with hb | ⟨-, rfl⟩
    · exact ⟨b, hb, hp, hdata⟩
    · rw [List.getElem?_replicate] at hp
      split at hp <;> cases hp
  · rintro ⟨b, hb, hp, hdata⟩
    refine ⟨b, ?_, hp, hdata⟩
    rw [broadcast, List.getElem?_append_left (List.getElem?_eq_some_iff.mp hb).1]
    exact hb

theorem untouched_hear (s : Piped α) (x : Nat × Event α) (j : Nat) : s.Untouched (s.hear x) j := by
  obtain ⟨k, e⟩ := x
  cases e with
  | data v => exact untouched_broadcast s k (.data v) j
  | error => exact untouched_refl s j
  | ended =>
    simp only [hear]
    split
    · exact untouched_broadcast s k .ended j
    · exact untouched_refl s j

theorem untouched_stream {l : StreamLabel α} (h : step filters s (.stream l) = some t) (j : Nat) :
    s.Untouched t j := by
  cases step_cases h with
  | fire => exact untouched_refl s j
  | quiet => exact untouched_refl s j
  | @heard k a c u e => exact untouched_hear (s.moved k u) (k, e) j

theorem untouched_advance {i k : Nat} {b : Broadcast α} {p : Part} {w : Write α}
    (hb : s.broadcasts[i]? = some b) {j : Nat} (hj : k ≠ j) : s.Untouched (s.advance i k b p w) j := by
  constructor
  · rw [advance, List.getElem?_modify_ne _ _ hj]
  · intro n data
    have hi := (List.getElem?_eq_some_iff.mp hb).1
    rcases Decidable.em (i = n) with rfl | hn
    · simp only [WritingTo, advance, List.getElem?_set_self hi, hb, Option.some.injEq,
        exists_eq_left', List.getElem?_set_ne hj]
    · simp only [WritingTo, advance, List.getElem?_set_ne hn]

end Piped

theorem OutputAt.keep {file : OutputFile} {p q : Piped Octets} {t : Nat} {o : Output}
    (h : OutputAt file p t o) (hq : p.Untouched q t) : OutputAt file q t o := by
  obtain ⟨htape, hw⟩ := hq
  cases h with
  | idle ht hidle => exact .idle (htape ▸ ht) fun i data hi => hidle i data ((hw i data).mp hi)
  | busy ht hbusy hfill => exact .busy (htape ▸ ht) ((hw _ _).mpr hbusy) hfill

namespace Copies
variable {filters : List (Filter Octets)} {cs : List Octets} {files : List OutputFile}
  {s : Copying} {i t : Nat} {b : Broadcast Octets}

theorem start (filters : List (Filter Octets)) (cs : List Octets) (files : List OutputFile) :
    Copies filters cs files (Copying.start filters files) where
  flow := Piped.flow_start filters cs files.length
  outputs := List.length_map ..
  each := by
    intro t o f ho hf
    have hlt := (List.getElem?_eq_some_iff.mp hf).1
    simp only [Copying.start, List.getElem?_map, hf, Option.map_some, Option.some.injEq] at ho
    subst ho
    have htape : (Copying.start filters files).piped.tapes[t]? = some [] := by
      simp [Copying.start, Piped.start, hlt]
    have hnone : ∀ i data, ¬ (Copying.start filters files).piped.WritingTo i t data := by
      rintro i data ⟨b, hb, -⟩
      simp [Copying.start, Piped.start] at hb
    simpa using OutputAt.idle (f := f) htape hnone

theorem stream {l : StreamLabel Octets} {p : Piped Octets} (h : Copies filters cs files s)
    (hl : Piped.Waits cs s.piped (.stream l)) (hp : Piped.step filters s.piped (.stream l) = some p) :
    Copies filters cs files ⟨p, s.outputs⟩ where
  flow := (Piped.flow_step h.flow hl hp).1
  outputs := h.outputs
  each t o f ho hf := (h.each t o f ho hf).keep (Piped.untouched_stream hp t)

-- only the event sent last is still being written
theorem same_event (h : Copies filters cs files s) (hb : s.piped.broadcasts[i]? = some b) {q : Part}
    (hq : b.parts[t]? = some q) (hne : q ≠ .written) {j : Nat} {data : Option Octets}
    (hj : s.piped.WritingTo j t data) : j = i ∧ q = .writing ∧ data = b.event.written := by
  obtain ⟨d, hd, hp, rfl⟩ := hj
  have hi := Piped.last_of_unfinished h.flow.toTaped hb hq hne
  have hj := Piped.last_of_unfinished h.flow.toTaped hd hp (by rintro ⟨⟩)
  obtain rfl : j = i := by omega
  obtain rfl := Option.some.inj (hb.symm.trans hd)
  exact ⟨rfl, Option.some.inj (hq.symm.trans hp), rfl⟩

theorem exists_output (h : Copies filters cs files s) {tape : List (Write Octets)}
    (ht : s.piped.tapes[t]? = some tape) :
    ∃ o f, s.outputs[t]? = some o ∧ files[t]? = some f ∧ OutputAt f s.piped t o := by
  have hlt : t < files.length := h.flow.targets ▸ (List.getElem?_eq_some_iff.mp ht).1
  have ho := List.getElem?_eq_getElem (h.outputs ▸ hlt)
  have hf := List.getElem?_eq_getElem hlt
  exact ⟨_, _, ho, hf, h.each t _ _ ho hf⟩

theorem tape_of_part (h : Copies filters cs files s) (hb : s.piped.broadcasts[i]? = some b) {q : Part}
    (hq : b.parts[t]? = some q) : ∃ tape, s.piped.tapes[t]? = some tape := by
  have hlt := (List.getElem?_eq_some_iff.mp hq).1
  rw [h.flow.width b (List.mem_of_getElem? hb)] at hlt
  exact ⟨_, List.getElem?_eq_getElem hlt⟩

theorem advance {q : Part} {w : Write Octets} {outputs : List Output} (h : Copies filters cs files s)
    (hflow : Piped.Flow filters cs files.length (s.piped.advance i t b q w))
    (hb : s.piped.broadcasts[i]? = some b) (hlen : outputs.length = s.outputs.length)
    (hothers : ∀ j, t ≠ j → outputs[j]? = s.outputs[j]?)
    (hown : ∀ o f, outputs[t]? = some o → files[t]? = some f →
      OutputAt f (s.piped.advance i t b q w) t o) :
    Copies filters cs files ⟨s.piped.advance i t b q w, outputs⟩ where
  flow := hflow
  outputs := hlen.trans h.outputs
  each j o f ho hf := by
    by_cases hj : t = j
    · subst hj
      exact hown o f ho hf
    · rw [hothers j hj] at ho
      exact (h.each j o f ho hf).keep (Piped.untouched_advance hb hj)

theorem advanced_tape {p : Piped Octets} {q : Part} {w : Write Octets} {tape : List (Write Octets)}
    (ht : p.tapes[t]? = some tape) : (p.advance i t b q w).tapes[t]? = some (tape ++ [w]) := by
  simp [Piped.advance, ht]

theorem advanced_part {p : Piped Octets} {q : Part} {w : Write Octets}
    (hb : p.broadcasts[i]? = some b) {o : Part} (ho : b.parts[t]? = some o) :
    ∃ d, (p.advance i t b q w).broadcasts[i]? = some d ∧ d.parts[t]? = some q ∧
      d.event = b.event := by
  have hi := (List.getElem?_eq_some_iff.mp hb).1
  have ht := (List.getElem?_eq_some_iff.mp ho).1
  refine ⟨{ b with parts := b.parts.set t q }, ?_, List.getElem?_set_self ht, rfl⟩
  rw [Piped.advance, List.getElem?_set_self hi]

theorem pass (h : Copies filters cs files s) (hb : s.piped.broadcasts[i]? = some b)
    (hq : b.parts[t]? = some .queued)
    (hflow : Piped.Flow filters cs files.length
      (s.piped.advance i t b .writing (.passed b.event.written)))
    {o : Output} (ho : s.outputs[t]? = some o) :
    Copies filters cs files ⟨s.piped.advance i t b .writing (.passed b.event.written),
      s.outputs.set t (o.write i b.event.written)⟩ := by
  refine h.advance hflow hb List.length_set (fun j hj => List.getElem?_set_ne hj) ?_
  intro o' f ho' hf
  rw [List.getElem?_set_self (List.getElem?_eq_some_iff.mp ho).1] at ho'
  obtain rfl := Option.some.inj ho'
  cases h.each t o f ho hf with
  | busy ht hbusy hfill =>
    have hsame := same_event h hb hq (by rintro ⟨⟩) hbusy
    cases hsame.2.1
  | @idle tape ht hidle =>
    obtain ⟨d, hd, hp, hevent⟩ := advanced_part (q := .writing) (w := .passed b.event.written) hb hq
    have hnew := Filling.start (View.arrayBuffer (b.event.written.getD []))
    have hout := OutputAt.busy (f := f) (advanced_tape ht) ⟨d, hd, hp, hevent ▸ rfl⟩ hnew
    rw [List.flatMap_append, Filling.start_accepted, List.append_nil] at hout
    simpa [bytesOf, Output.write] using hout

theorem complete (h : Copies filters cs files s) (hb : s.piped.broadcasts[i]? = some b)
    (hq : b.parts[t]? = some .writing)
    (hflow : Piped.Flow filters cs files.length
      (s.piped.advance i t b .written (.completed b.event.written)))
    {outputs : List Output} (hout : s.outputsAfter (.complete i t true) = some outputs) :
    Copies filters cs files ⟨s.piped.advance i t b .written (.completed b.event.written), outputs⟩ := by
  obtain ⟨o, ho, hout⟩ := Option.bind_eq_some_iff.mp hout
  split at hout
  · next hany =>
    obtain rfl := Option.some.inj hout
    refine h.advance hflow hb List.length_set (fun j hj => List.getElem?_set_ne hj) ?_
    intro o' f ho' hf
    rw [List.getElem?_set_self (List.getElem?_eq_some_iff.mp ho).1] at ho'
    obtain rfl := Option.some.inj ho'
    cases h.each t o f ho hf with
    | idle ht hidle => simp at hany
    | @busy tape j data w ht hbusy hfill =>
      obtain ⟨rfl, -, rfl⟩ := same_event h hb hq (by rintro ⟨⟩) hbusy
      have hsettled : FileWrite.settledWith
          ⟨j, View.arrayBuffer (b.event.written.getD []), w⟩ true = true := by simpa using hany
      have hcontent : w.accepted = b.event.written.getD [] := by
        cases hfill with
        | pending written hle => cases hsettled
        | settled st hs => exact List.take_length
      have hidle : ∀ k data, ¬ (s.piped.advance j t b .written (.completed b.event.written)).WritingTo
          k t data := by
        rintro k data ⟨d, hd, hp, -⟩
        rcases getElem?_replace hd with ⟨rfl, rfl⟩ | ⟨hk, hd⟩
        · rw [List.getElem?_set_self (List.getElem?_eq_some_iff.mp hq).1] at hp
          cases hp
        · exact hk (same_event h hb hq (by rintro ⟨⟩) ⟨d, hd, hp, rfl⟩).1.symm
      have hdone := OutputAt.idle (f := f) (advanced_tape ht) hidle
      simp only [List.flatMap_append, List.flatMap_singleton, bytesOf, ← hcontent] at hdone
      simpa using hdone
  · cases hout

theorem turn (h : Copies filters cs files s) {k : Nat} {o : Output} {w : FileWrite}
    (ho : s.outputs[t]? = some o) (hw : o.writes[k]? = some w) (hrun : w.writing.tasks ≠ []) :
    Copies filters cs files { s with outputs := s.outputs.set t (o.turn k w none) } ∧
      (o.turn k w none).left < o.left := by
  have hlt := (List.getElem?_eq_some_iff.mp ho).1
  obtain ⟨f, hf⟩ : ∃ f, files[t]? = some f := ⟨_, List.getElem?_eq_getElem (h.outputs ▸ hlt)⟩
  have hbusy := h.each t o f ho hf
  cases hbusy with
  | idle ht hidle => cases hw
  | @busy tape i data w' ht hbusy hfill =>
    obtain ⟨rfl, rfl⟩ : k = 0 ∧ _ = w := by
      cases k with
      | zero => exact ⟨rfl, Option.some.inj hw⟩
      | succ k => cases hw
    obtain ⟨w'', hrun, hfill', hleft⟩ := hfill.run hrun f (tape.flatMap bytesOf)
    have hturn : Output.turn ⟨.opened (f.write (tape.flatMap bytesOf ++ w'.accepted)),
        [⟨i, View.arrayBuffer (data.getD []), w'⟩]⟩ 0 ⟨i, View.arrayBuffer (data.getD []), w'⟩ none =
          ⟨.opened (f.write (tape.flatMap bytesOf ++ w''.accepted)),
            [⟨i, View.arrayBuffer (data.getD []), w''⟩]⟩ := by
      simp only [Output.turn, hrun, List.set_cons_zero]
    rw [hturn]
    refine ⟨⟨h.flow, List.length_set.trans h.outputs, ?_⟩, Nat.add_lt_add_right hleft 0⟩
    intro j o' f' ho' hf'
    rcases getElem?_replace ho' with ⟨rfl, rfl⟩ | ⟨-, ho'⟩
    · obtain rfl := Option.some.inj (hf.symm.trans hf')
      exact .busy ht hbusy hfill'
    · exact h.each j o' f' ho' hf'

theorem written_length (filters : List (Filter Octets)) (cs : List Octets) {e : Event Octets}
    (he : e ∈ emissions filters cs) : (e.written.getD []).length ≤ (copied filters cs).length := by
  have hall : copied filters cs = (emissions filters cs).flatMap fun e => e.written.getD [] := by
    rw [← bytes_of_writes, ← Piped.emissions_written, List.flatMap_assoc]
    apply List.flatMap_congr
    intro e _
    simp [writes, bytesOf]
  rw [hall, List.flatMap_def]
  exact (List.sublist_flatten_of_mem
    (List.mem_map_of_mem (f := fun e : Event Octets => e.written.getD []) he)).length_le

theorem event_length (h : Copies filters cs files s) (hb : s.piped.broadcasts[i]? = some b) :
    (b.event.written.getD []).length ≤ (copied filters cs).length := by
  have hlog : b.event ∈ s.piped.stream.log.map (·.2) := by
    rw [← h.flow.heard, List.map_map]
    exact List.mem_map_of_mem (List.mem_of_getElem? hb)
  exact written_length filters cs ((Readable.log_prefix h.flow.delivered).subset hlog)

theorem step (h : Copies filters cs files s) {l : CopyLabel} {s' : Copying}
    (hl : Copying.Calm cs s l) (hstep : Copying.step filters s l = some s') :
    Copies filters cs files s' ∧ s'.left filters cs < s.left filters cs := by
  cases l with
  | turn t k fault =>
    obtain rfl : fault = none := hl
    obtain ⟨o, ho, hstep⟩ := Option.bind_eq_some_iff.mp hstep
    obtain ⟨w, hw, hstep⟩ := Option.bind_eq_some_iff.mp hstep
    split at hstep
    · cases hstep
    · next hrun =>
      obtain rfl := Option.some.inj hstep
      obtain ⟨hcopies, hless⟩ := h.turn ho hw hrun
      have htotal := total_replace Output.left ho (o.turn k w none)
      refine ⟨hcopies, ?_⟩
      simp only [Copying.left]
      omega
  | pipe l =>
    obtain ⟨outputs, hout, hstep⟩ := Option.bind_eq_some_iff.mp hstep
    obtain ⟨p, hp, rfl⟩ := Option.map_eq_some_iff.mp hstep
    obtain ⟨hflow, hless⟩ := Piped.flow_step h.flow hl hp
    have hmul := Nat.mul_le_mul_left ((copied filters cs).length + 2) (Nat.succ_le_of_lt hless)
    rw [Nat.mul_succ] at hmul
    simp only [Copying.left]
    cases l with
    | stream l =>
      obtain rfl := Option.some.inj hout
      exact ⟨h.stream hl hp, by omega⟩
    | caught i => cases hl.1
    | deviceError => cases hl.1
    | pass i t =>
      obtain ⟨d, hd, hout⟩ := Option.bind_eq_some_iff.mp hout
      obtain ⟨o, ho, rfl⟩ := Option.map_eq_some_iff.mp hout
      have hmoved := Piped.step_cases hp
      generalize hlabel : PipeLabel.pass i t = label at hmoved
      cases hmoved with
      | @pass i' t' b hb hq =>
        obtain ⟨rfl, rfl⟩ := PipeLabel.pass.inj hlabel
        obtain rfl := Option.some.inj (hb.symm.trans hd)
        have htotal := total_replace Output.left ho (o.write i b.event.written)
        have hlength := h.event_length hb
        have hwrite : (o.write i b.event.written).left ≤
            o.left + ((b.event.written.getD []).length + 1) := Output.write_left o i b.event.written
        exact ⟨h.pass hb hq hflow ho, by omega⟩
      | _ => cases hlabel
    | complete i t ok =>
      obtain rfl : ok = true := hl.1
      have hmoved := Piped.step_cases hp
      generalize hlabel : PipeLabel.complete i t true = label at hmoved
      cases hmoved with
      | @complete i' t' b hb hq =>
        obtain ⟨rfl, rfl, -⟩ := PipeLabel.complete.inj hlabel
        refine ⟨h.complete hb hq hflow hout, ?_⟩
        obtain ⟨o, ho, hout⟩ := Option.bind_eq_some_iff.mp hout
        split at hout
        · obtain rfl := Option.some.inj hout
          have htotal := total_replace Output.left ho
            { o with writes := o.writes.filter fun w => w.broadcast != i }
          have hfewer := Output.left_filter o fun w => w.broadcast != i
          omega
        · cases hout
      | _ => cases hlabel

theorem piped_stuck (h : Copies filters cs files s)
    (hstuck : (Copying.system filters).Stuck (Copying.Calm cs) s) :
    (Piped.system filters).Stuck (Piped.Waits cs) s.piped := by
  intro l p hp hl
  have hno : ∀ outputs, s.outputsAfter l = some outputs → False := by
    intro outputs hout
    have hstep : Copying.step filters s (.pipe l) = some ⟨p, outputs⟩ := by
      rw [Copying.step, hout, Option.bind_some, show Piped.step filters s.piped l = some p from hp]
      rfl
    exact hstuck (.pipe l) _ hstep hl
  have hmoved := Piped.step_cases hp
  cases hmoved with
  | fire | quiet | heard => exact hno _ rfl
  | spoil => cases hl.1
  | caught => cases hl.1
  | deviceError => cases hl.1
  | @pass i t b hb hq =>
    obtain ⟨tape, ht⟩ := h.tape_of_part hb hq
    obtain ⟨o, f, ho, -, -⟩ := h.exists_output ht
    exact hno (s.outputs.set t (o.write i b.event.written)) (by simp [Copying.outputsAfter, hb, ho])
  | @complete i t b hb hq =>
    obtain ⟨tape, ht⟩ := h.tape_of_part hb hq
    obtain ⟨o, f, ho, -, hat⟩ := h.exists_output ht
    cases hat with
    | idle _ hidle => exact hidle i _ ⟨b, hb, hq, rfl⟩
    | @busy tape j data w ht hbusy hfill =>
      obtain ⟨rfl, -, -⟩ := h.same_event hb hq (by rintro ⟨⟩) hbusy
      cases hfill with
      | pending written hle => exact hstuck (.turn t 0 none) _ (by simp [Copying.system, Copying.step, ho]; rfl) rfl
      | settled st hs =>
        have hsettled : FileWrite.settledWith ⟨j, View.arrayBuffer (data.getD []),
            ⟨[], (View.arrayBuffer (data.getD [])).content, [st]⟩⟩ true = true := by
          cases st with
          | resolvedThis | resolved n => rfl
          | rejected e => exact absurd rfl (hs e)
        exact hno _ (by simp [Copying.outputsAfter, ho, hsettled]; rfl)

theorem outputs_of_stuck (h : Copies filters cs files s)
    (hstuck : (Copying.system filters).Stuck (Copying.Calm cs) s) :
    s.outputs = files.map fun f => ⟨.opened (f.write (copied filters cs)), []⟩ := by
  have hpiped := h.piped_stuck hstuck
  have htapes := Piped.tapes_of_stuck h.flow hpiped
  have hfinished := Piped.finished_of_stuck h.flow hpiped
  apply List.ext_getElem?
  intro t
  rw [List.getElem?_map]
  cases hf : files[t]? with
  | none =>
    rw [Option.map_none, List.getElem?_eq_none_iff, h.outputs]
    exact List.getElem?_eq_none_iff.mp hf
  | some f =>
    have hlt := (List.getElem?_eq_some_iff.mp hf).1
    obtain ⟨o, ho⟩ : ∃ o, s.outputs[t]? = some o := ⟨_, List.getElem?_eq_getElem (h.outputs.symm ▸ hlt)⟩
    rw [ho, Option.map_some, Option.some.injEq]
    have hat := h.each t o f ho hf
    cases hat with
    | busy _ hbusy _ =>
      obtain ⟨b, hb, hp, -⟩ := hbusy
      cases hfinished b (List.mem_of_getElem? hb) _ (List.mem_of_getElem? hp)
    | idle ht _ =>
      rw [htapes, List.getElem?_replicate, if_pos hlt] at ht
      rw [← Option.some.inj ht, bytes_of_writes]

theorem bytes_prefix {p : Piped Octets} (h : Piped.Flow filters cs files.length p)
    {tape : List (Write Octets)} (ht : p.tapes[t]? = some tape) :
    tape.flatMap bytesOf <+: copied filters cs := by
  obtain ⟨rest, hrest⟩ := Piped.in_order_of_flow h _ (List.mem_of_getElem? ht)
  rw [← bytes_of_writes, ← hrest, List.flatMap_append]
  exact List.prefix_append _ _

theorem copied_so_far (h : Copies filters cs files s) : s.CopiedSoFar filters cs files := by
  intro t o f ho hf
  cases h.each t o f ho hf with
  | @idle tape ht _ => exact ⟨_, bytes_prefix h.flow ht, rfl⟩
  | @busy tape i data w ht hbusy hfill =>
    refine ⟨_, ?_, rfl⟩
    obtain ⟨b, hb, hq, rfl⟩ := hbusy
    -- the tape once this write is complete
    have hstep : Piped.step filters s.piped (.complete i t true) =
        some (s.piped.advance i t b .written (.completed b.event.written)) := by
      simp only [Piped.step, Piped.part_eq hb hq, if_true]
    have hflow := (Piped.flow_step h.flow ⟨rfl, by rintro x ⟨⟩⟩ hstep).1
    have hwhole := bytes_prefix hflow (advanced_tape ht)
    rw [List.flatMap_append, List.flatMap_singleton] at hwhole
    have hcontent : (View.arrayBuffer (b.event.written.getD [])).content = b.event.written.getD [] :=
      List.take_length
    have hpart : w.accepted <+: b.event.written.getD [] := hcontent ▸ hfill.accepted_prefix
    exact ((List.prefix_append_right_inj _).mpr hpart).trans hwhole

end Copies

theorem pipe_copies (filters : List (Filter Octets)) (cs : List Octets) (files : List OutputFile) :
    (∀ ls, (Copying.system filters).meets (Copying.Calm cs) (.start filters files) ls →
      (Copying.system filters).always (Copying.CopiedSoFar filters cs files) (.start filters files) ls) ∧
    (Copying.system filters).Settles (Copying.Calm cs)
      (fun s => s.outputs = files.map fun f => ⟨.opened (f.write (copied filters cs)), []⟩)
      (.start filters files) := by
  constructor
  · intro ls hls
    refine System.always_of_meets _ ?_ ?_ (Copies.start filters cs files) hls
    · intro s hinv
      exact hinv.copied_so_far
    · intro s l t hinv hl hstep
      exact (hinv.step hl hstep).1
  · exact System.settles_of_measure (fun _ _ _ hinv hl hstep => hinv.step hl hstep)
      (fun _ hinv hstuck => hinv.outputs_of_stuck hstuck) (Copies.start filters cs files)

end NexusRuntime.Streams
