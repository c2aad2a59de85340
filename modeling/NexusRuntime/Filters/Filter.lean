import NexusRuntime.Memory.Block

namespace NexusRuntime.Filters

open Memory

variable {S : Type}

structure Processed (S : Type) where
  state : S
  consumed : Nat
  written : List UInt8
  sizeNeeded : Nat

structure Filter (S : Type) where
  estimateOutputLength : Option (List UInt8) → Nat
  processBuffer : S → Option (List UInt8) → Nat → Except String (Processed S)

def length (buffer : Option (List UInt8)) : Nat := (buffer.getD []).length

structure Filter.Conforms (f : Filter S) : Prop where
  answers : ∀ s buffer space, ∃ r, f.processBuffer s buffer space = .ok r
  reads : ∀ {s buffer space r}, f.processBuffer s buffer space = .ok r → r.consumed ≤ length buffer
  writes : ∀ {s buffer space r}, f.processBuffer s buffer space = .ok r → r.written.length ≤ space
  finishes : ∀ {s buffer space r}, f.processBuffer s buffer space = .ok r →
    (r.sizeNeeded = 0 ↔ r.consumed = length buffer)

structure Args where
  inBuffer : Option (List UInt8)
  outBuffer : Block UInt8
  outLength : Nat
  outPtr : Nat
  outRemaining : Nat
deriving DecidableEq, Repr

inductive Promise where
  | pending (scheduled : Args)
  | resolved (arrayBuffer : Block UInt8)
  | rejected (error : String)
deriving DecidableEq, Repr

structure Process (S : Type) where
  filter : S
  promise : Promise
  calls : List Args
  written : List UInt8

def process (f : Filter S) (s : S) (buffer : Option (List UInt8)) : Process S :=
  let originalEstimate := f.estimateOutputLength buffer
  { filter := s
    promise := .pending ⟨buffer, Block.alloc originalEstimate, originalEstimate, 0, originalEstimate⟩
    calls := []
    written := [] }

def settle (a : Args) (r : Processed S) : Promise :=
  let outBuffer := a.outBuffer.store a.outPtr r.written
  let outPtr := a.outPtr + r.written.length
  let outRemaining := a.outRemaining - r.written.length
  if r.sizeNeeded ≠ 0 then
    let outLength := a.outLength + r.sizeNeeded
    .pending ⟨a.inBuffer.map (List.drop r.consumed), outBuffer.resize outLength, outLength, outPtr,
      outRemaining⟩
  else
    let outBuffer := if outRemaining > 0 then outBuffer.resize (a.outLength - outRemaining) else outBuffer
    -- the array buffer covers outLength bytes, whatever the shrunken block still owns
    .resolved (outBuffer.resize a.outLength)

def handler (f : Filter S) (p : Process S) (a : Args) : Process S :=
  match f.processBuffer p.filter a.inBuffer a.outRemaining with
  | .error e => { p with promise := .rejected e, calls := p.calls ++ [a] }
  | .ok r =>
    { filter := r.state
      promise := settle a r
      calls := p.calls ++ [a]
      written := p.written ++ r.written }

def step (f : Filter S) (p : Process S) : Process S :=
  match p.promise with
  | .pending a => handler f p a
  | _ => p

def run (f : Filter S) : Nat → Process S → Process S
  | 0, p => p
  | n + 1, p => run f n (step f p)

def Args.exact (a : Args) : Prop := a.outPtr + a.outRemaining = a.outLength

structure Delivered (p : Process S) : Prop where
  content : p.promise = .resolved (p.written.map some)
  exact : ∀ a ∈ p.calls, a.exact

def Filter.Delivers (f : Filter S) (s : S) (buffer : Option (List UInt8)) : Prop :=
  ∃ n, Delivered (run f n (process f s buffer))

def Filter.fits (f : Filter S) (s : S) (buffer : Option (List UInt8)) : Prop :=
  ∃ r, f.processBuffer s buffer (f.estimateOutputLength buffer) = .ok r ∧ r.sizeNeeded = 0 ∧
    r.written.length = f.estimateOutputLength buffer

structure Inv (p : Process S) (a : Args) : Prop where
  block : a.outBuffer.length = a.outLength
  offset : a.outPtr = p.written.length
  space : a.outPtr + a.outRemaining ≤ a.outLength
  stored : a.outBuffer.take a.outPtr = p.written.map some

theorem inv_process (f : Filter S) (s : S) (buffer : Option (List UInt8)) :
    Inv (process f s buffer)
      ⟨buffer, Block.alloc (f.estimateOutputLength buffer), f.estimateOutputLength buffer, 0,
        f.estimateOutputLength buffer⟩ :=
  ⟨Block.alloc_length _, rfl, by simp, rfl⟩

theorem stored_prefix {p : Process S} {a : Args} {r : Processed S} (hp : Inv p a)
    (hw : r.written.length ≤ a.outRemaining) :
    (a.outBuffer.store a.outPtr r.written).take (a.outPtr + r.written.length) =
      (p.written ++ r.written).map some := by
  have hfit : a.outPtr + r.written.length ≤ a.outBuffer.length := by
    have := hp.space
    rw [hp.block]
    omega
  rw [Block.store_prefix hfit, hp.stored, List.map_append]

theorem stored_length {p : Process S} {a : Args} {r : Processed S} (hp : Inv p a)
    (hw : r.written.length ≤ a.outRemaining) :
    (a.outBuffer.store a.outPtr r.written).length = a.outLength := by
  have := hp.space
  rw [Block.store_length, hp.block]
  rw [hp.block]
  omega

theorem settle_inv {p : Process S} {a b : Args} {r : Processed S} (hp : Inv p a)
    (hw : r.written.length ≤ a.outRemaining) (h : settle a r = .pending b) (q : Process S)
    (hq : q.written = p.written ++ r.written) : Inv q b ∧ r.sizeNeeded ≠ 0 ∧
      b.outPtr = a.outPtr + r.written.length ∧ b.outRemaining = a.outRemaining - r.written.length ∧
      b.outLength = a.outLength + r.sizeNeeded := by
  simp only [settle] at h
  split at h
  · rename_i hn
    obtain rfl := Promise.pending.inj h
    have hlen := stored_length hp hw
    have hs := hp.space
    refine ⟨⟨Block.resize_length _ _, ?_, ?_, ?_⟩, hn, rfl, rfl, rfl⟩
    · simp [hq, hp.offset]
    · simp only
      omega
    · simp only
      rw [Block.resize_prefix, stored_prefix hp hw, hq]
      · rw [hlen]; omega
      · omega
  · cases h

theorem settle_content {p : Process S} {a : Args} {r : Processed S} {content : Block UInt8}
    (hp : Inv p a) (hw : r.written.length ≤ a.outRemaining) (h : settle a r = .resolved content) :
    content.length = a.outLength ∧
      content.take (p.written ++ r.written).length = (p.written ++ r.written).map some := by
  simp only [settle] at h
  split at h
  · cases h
  · obtain rfl := Promise.resolved.inj h
    have hlen := stored_length hp hw
    have hs := hp.space
    have hoff := hp.offset
    refine ⟨Block.resize_length _ _, ?_⟩
    rw [List.length_append, ← hoff]
    split
    · rw [Block.resize_prefix, Block.resize_prefix, stored_prefix hp hw]
      · rw [hlen]; omega
      · omega
      · rw [Block.resize_length]; omega
      · omega
    · rw [Block.resize_prefix, stored_prefix hp hw]
      · rw [hlen]; omega
      · omega

theorem step_pending {f : Filter S} {p : Process S} {a : Args} {r : Processed S}
    (hp : p.promise = .pending a) (hr : f.processBuffer p.filter a.inBuffer a.outRemaining = .ok r) :
    step f p = ⟨r.state, settle a r, p.calls ++ [a], p.written ++ r.written⟩ := by
  simp only [step, hp, handler, hr]

theorem run_resolved {f : Filter S} {p : Process S} {content : Block UInt8}
    (hp : p.promise = .resolved content) (n : Nat) : run f n p = p := by
  induction n with
  | zero => rfl
  | succ n ih =>
    rw [run, show step f p = p by simp only [step, hp], ih]

theorem step_calls (f : Filter S) (p : Process S) : p.calls <+: (step f p).calls := by
  simp only [step]
  split
  · simp only [handler]
    split <;> exact List.prefix_append _ _
  · exact List.prefix_rfl

theorem run_calls (f : Filter S) (p : Process S) (n : Nat) : p.calls <+: (run f n p).calls := by
  induction n generalizing p with
  | zero => exact List.prefix_rfl
  | succ n ih => exact (step_calls f p).trans (ih (step f p))

def Sound (p : Process S) : Prop :=
  match p.promise with
  | .pending a => Inv p a
  | .resolved content => content.take p.written.length = p.written.map some
  | .rejected _ => True

theorem sound_step {f : Filter S} (hf : f.Conforms) {p : Process S} (hp : Sound p) :
    Sound (step f p) := by
  cases hprom : p.promise with
  | resolved c | rejected e =>
    rw [show step f p = p by simp only [step, hprom]]
    exact hp
  | pending a =>
    have ha : Inv p a := by simpa only [Sound, hprom] using hp
    obtain ⟨r, hr⟩ := hf.answers p.filter a.inBuffer a.outRemaining
    have hw := hf.writes hr
    rw [step_pending hprom hr, Sound]
    cases hset : settle a r with
    | pending b => exact (settle_inv ha hw hset _ rfl).1
    | resolved c => exact (settle_content ha hw hset).2
    | rejected e => trivial

theorem sound_run {f : Filter S} (hf : f.Conforms) {p : Process S} (hp : Sound p) (n : Nat) :
    Sound (run f n p) := by
  induction n generalizing p with
  | zero => exact hp
  | succ n ih => exact ih (sound_step hf hp)

theorem resolved_content {f : Filter S} (hf : f.Conforms) {s : S} {buffer : Option (List UInt8)}
    {n : Nat} {content : Block UInt8} (h : (run f n (process f s buffer)).promise = .resolved content) :
    content.take (run f n (process f s buffer)).written.length =
      (run f n (process f s buffer)).written.map some := by
  have h₀ : Sound (process f s buffer) := inv_process f s buffer
  have hs := sound_run hf h₀ n
  simpa only [Sound, h] using hs

theorem first_step {f : Filter S} {s : S} {buffer : Option (List UInt8)} {r : Processed S}
    (hr : f.processBuffer s buffer (f.estimateOutputLength buffer) = .ok r) :
    ∃ a, Inv (process f s buffer) a ∧ a.exact ∧ a.outPtr = 0 ∧
      a.outRemaining = f.estimateOutputLength buffer ∧
      step f (process f s buffer) = ⟨r.state, settle a r, [a], r.written⟩ := by
  refine ⟨_, inv_process f s buffer, ?_, rfl, rfl, ?_⟩
  · exact Nat.zero_add _
  · exact step_pending rfl hr

theorem delivers_of_fits {f : Filter S} (hf : f.Conforms) {s : S} {buffer : Option (List UInt8)}
    (h : f.fits s buffer) : f.Delivers s buffer := by
  obtain ⟨r, hr, hz, hl⟩ := h
  obtain ⟨a, ha, hex, hoff, hrem, hstep⟩ := first_step hr
  refine ⟨1, ?_⟩
  rw [run, run, hstep]
  cases hset : settle a r with
  | resolved c =>
    obtain ⟨hlen, hc⟩ := settle_content ha (hf.writes (hrem ▸ hr)) hset
    have hfull : c.length = r.written.length := by
      have hsum : a.outPtr + a.outRemaining = a.outLength := hex
      omega
    constructor
    · have hw : c.take c.length = r.written.map some := by
        rw [hfull]
        exact hc
      rw [← hw, List.take_length]
    · intro b hb
      rw [List.mem_singleton.mp hb]
      exact hex
  | pending b =>
    exact absurd hz (settle_inv ha (hf.writes (hrem ▸ hr)) hset ⟨r.state, settle a r, [a], r.written⟩ rfl).2.1
  | rejected e =>
    simp only [settle] at hset
    split at hset <;> cases hset

theorem fits_of_delivers {f : Filter S} (hf : f.Conforms) {s : S} {buffer : Option (List UInt8)}
    (h : f.Delivers s buffer) : f.fits s buffer := by
  obtain ⟨n, hn⟩ := h
  obtain ⟨r, hr⟩ := hf.answers s buffer (f.estimateOutputLength buffer)
  obtain ⟨a, ha, hex, hoff, hrem, hstep⟩ := first_step hr
  have hw := hf.writes (hrem ▸ hr)
  have hsum : a.outPtr + a.outRemaining = a.outLength := hex
  refine ⟨r, hr, ?_⟩
  obtain _ | n := n
  · have hc := hn.content
    cases hc
  rw [run, hstep] at hn
  cases hset : settle a r with
  | resolved c =>
    rw [hset] at hn
    rw [run_resolved rfl n] at hn
    have hz : r.sizeNeeded = 0 := by
      by_contra hne
      simp [settle, hne] at hset
    have hlen := (settle_content ha hw hset).1
    have hc : c = r.written.map some := Promise.resolved.inj hn.content
    have hcl := congrArg List.length hc
    rw [List.length_map] at hcl
    exact ⟨hz, by omega⟩
  | pending b =>
    obtain ⟨-, hne, hbo, hbr, hbl⟩ :=
      settle_inv ha hw hset ⟨r.state, settle a r, [a], r.written⟩ rfl
    rw [hset] at hn
    obtain _ | n := n
    · have hc := hn.content
      cases hc
    rw [run] at hn
    -- the second call is made with the space left of the first block
    have hb : b.exact := by
      refine hn.exact b ((run_calls f _ n).subset ?_)
      simp only [step, handler]
      split <;> simp
    have hbsum : b.outPtr + b.outRemaining = b.outLength := hb
    omega
  | rejected e =>
    simp only [settle] at hset
    split at hset <;> cases hset

theorem delivers_iff_fits (f : Filter S) (hf : f.Conforms) (s : S) (buffer : Option (List UInt8)) :
    f.Delivers s buffer ↔ f.fits s buffer :=
  ⟨fits_of_delivers hf, delivers_of_fits hf⟩

def copyFilter (slack : Nat) : Filter Unit where
  estimateOutputLength := fun buffer => length buffer + slack
  processBuffer := fun _ buffer space => .ok
    { state := ()
      consumed := min (length buffer) space
      written := (buffer.getD []).take space
      sizeNeeded := length buffer - min (length buffer) space }

theorem copyFilter_conforms (slack : Nat) : (copyFilter slack).Conforms where
  answers := fun _ _ _ => ⟨_, rfl⟩
  reads := by
    rintro s buffer space r ⟨⟩
    exact Nat.min_le_left _ _
  writes := by
    rintro s buffer space r ⟨⟩
    exact List.length_take_le _ _
  finishes := by
    rintro s buffer space r ⟨⟩
    simp only
    omega

theorem copy_exact_estimate : (copyFilter 0).Delivers () (some [104, 105]) :=
  (delivers_iff_fits (copyFilter 0) (copyFilter_conforms 0) () (some [104, 105])).mpr
    ⟨_, rfl, rfl, rfl⟩

theorem loose_estimate_not_delivered :
    (copyFilter 1).Conforms ∧ ¬ (copyFilter 1).Delivers () (some [104, 105]) := by
  refine ⟨copyFilter_conforms 1, ?_⟩
  rintro ⟨n, hn⟩
  have hc := hn.content
  cases n with
  | zero => cases hc
  | succ n =>
    rw [run, run_resolved rfl n] at hc
    revert hc
    decide

end NexusRuntime.Filters
