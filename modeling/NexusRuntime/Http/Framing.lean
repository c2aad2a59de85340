import NexusRuntime.Http.Response

namespace NexusRuntime.Http

open Wire

structure Header extends Field where
  valid : toField.Valid

inductive Setting where
  | status (n : Nat)
  | set (h : Header)

inductive Payload where
  | send (body : Octets)
  | writes (bodies : List { body : Octets // body ≠ [] })

def Payload.body : Payload → Octets
  | .send body => body
  | .writes bodies => (bodies.map Subtype.val).flatten

def lastStatus : List Setting → Option Nat
  | [] => none
  | .status n :: rest => (lastStatus rest).or (some n)
  | .set _ :: rest => lastStatus rest

def headersSet : List Setting → List Field
  | [] => []
  | .status _ :: rest => headersSet rest
  | .set h :: rest =>
    if (headersSet rest).any fun f => iequals f.name h.name then headersSet rest
    else h.toField :: headersSet rest

namespace Response

def configure (B : Beast) (s : Response) : Setting → Response
  | .status n => (s.status n).1
  | .set h => (s.set B h.toField).1

def drain (B : Beast) : Nat → Response → Response
  | 0, s => s
  | fuel + 1, s => match s.writes with
    | [] => s
    | rest :: _ => drain B fuel (s.writeHandler B 0 rest .ok .ok)

-- write(body), and its promise awaited before the next call
def writeAwaited (B : Beast) (s : Response) (body : Octets) : Response :=
  (s.write B (some body) .ok .ok).drain B (body.length + 1)

def deliver (B : Beast) (s : Response) : Payload → Response
  | .send body => (s.send body .ok).1
  | .writes bodies =>
    ((bodies.map Subtype.val).foldl (writeAwaited B) s).write B none .ok .ok

end Response

def Entry.bytes (B : Beast) (e : Entry) : Octets :=
  match e.piece with
  | .header m => B.writeHeader m
  | .message m => B.write m
  | .chunk bytes => B.makeChunk bytes
  | .chunkLast => B.makeChunkLast

def respond (B : Beast) (continuation : Bool) (settings : List Setting) (payload : Payload) :
    Octets :=
  let s := (Response.start B continuation).requestParsed B 11 true
  (((settings.foldl (Response.configure B) s).deliver B payload).wire).flatMap (Entry.bytes B)

def framed (fields : List Field) : Payload → Prop
  | .send body => framing ⟨11, 200, fields⟩ = .chunked ∨ framing ⟨11, 200, fields⟩ = .length body.length
  | .writes _ => lookup contentLength fields = none ∧
      ∀ v ∈ lookup transferEncoding fields, iequals v chunkedCoding = true

def Fits (settings : List Setting) (payload : Payload) : Prop :=
  (∀ n, lastStatus settings = some n → n = 200) ∧ framed (headersSet settings) payload

theorem headersSet_valid {settings : List Setting} : ∀ f ∈ headersSet settings, f.Valid := by
  induction settings with
  | nil => exact fun f hf => absurd hf List.not_mem_nil
  | cons x rest ih =>
    cases x with
    | status n => exact ih
    | set h =>
      intro f hf
      simp only [headersSet] at hf
      split at hf
      · exact ih f hf
      · rcases List.mem_cons.mp hf with rfl | hf
        · exact h.valid
        · exact ih f hf

structure Fresh (s : Response) : Prop where
  flag : s.myHeadersSentFlag = false
  wire : s.wire = []
  isOpen : s.isOpen = true
  keepAlive : s.keepAlive = true
  myError : s.myError = none
  writes : s.writes = []
  version : s.myRes.version = 11
  result : s.myRes.result = 200
  body : s.myRes.body = []

theorem configure_fresh {B : Beast} {s : Response} (hs : Fresh s) (x : Setting) :
    Fresh (s.configure B x) := by
  cases x with
  | status n =>
    simp only [Response.configure, Response.status, hs.flag, Bool.false_eq_true, if_false]
    exact ⟨rfl, hs.wire, hs.isOpen, hs.keepAlive, hs.myError, hs.writes, hs.version, hs.result, hs.body⟩
  | set h =>
    simp only [Response.configure, Response.set, hs.flag, Bool.false_eq_true, if_false]
    exact ⟨rfl, hs.wire, hs.isOpen, hs.keepAlive, hs.myError, hs.writes, hs.version, hs.result, hs.body⟩

def appendSet (fs : List Field) (x : Setting) : List Field :=
  match x with
  | .status _ => fs
  | .set h => without h.name fs ++ [h.toField]

theorem configure_fields {B : Beast} (hB : B.Documented) {s : Response} (hs : Fresh s) (x : Setting) :
    (s.configure B x).myRes.fields = appendSet s.myRes.fields x := by
  cases x with
  | status n => simp only [Response.configure, Response.status, hs.flag, Bool.false_eq_true, if_false, appendSet]
  | set h =>
    simp only [Response.configure, Response.set, hs.flag, Bool.false_eq_true, if_false, hB.set, appendSet]

theorem configure_all {B : Beast} (hB : B.Documented) {s : Response} (hs : Fresh s)
    (settings : List Setting) :
    Fresh (settings.foldl (Response.configure B) s) ∧
      (settings.foldl (Response.configure B) s).myRes.fields = settings.foldl appendSet s.myRes.fields := by
  induction settings generalizing s with
  | nil => exact ⟨hs, rfl⟩
  | cons x rest ih =>
    obtain ⟨h₁, h₂⟩ := ih (configure_fresh (B := B) hs x)
    exact ⟨h₁, by rw [List.foldl_cons, h₂, configure_fields hB hs, List.foldl_cons]⟩

theorem appendSet_all (fs : List Field) (settings : List Setting) :
    settings.foldl appendSet fs =
      fs.filter (fun f => !(headersSet settings).any fun g => iequals g.name f.name) ++
        headersSet settings := by
  induction settings generalizing fs with
  | nil => simp [headersSet]
  | cons x rest ih =>
    cases x with
    | status n => simpa [appendSet, headersSet] using ih fs
    | set h =>
      rw [List.foldl_cons, ih]
      simp only [appendSet, headersSet, List.filter_append, without, List.filter_filter]
      cases hany : (headersSet rest).any fun g => iequals g.name h.name with
      | true =>
        simp only [List.filter_cons, hany, Bool.not_true, Bool.false_eq_true, if_false,
          List.filter_nil, List.append_nil, if_true]
        congr 1
        apply List.filter_congr
        intro f _
        cases hf : iequals f.name h.name with
        | false => simp
        | true =>
          have hall : ((headersSet rest).any fun g => iequals g.name f.name) = true := by
            obtain ⟨g, hg, hgh⟩ := List.any_eq_true.mp hany
            refine List.any_eq_true.mpr ⟨g, hg, ?_⟩
            rw [iequals_comm, iequals_trans hf, iequals_comm]
            exact hgh
          simp [hall]
      | false =>
        simp only [List.filter_cons, hany, Bool.not_false, if_true, List.filter_nil,
          List.append_assoc, List.cons_append, List.nil_append, Bool.false_eq_true, if_false,
          List.any_cons, Bool.not_or]
        congr 1
        apply List.filter_congr
        intro f _
        rw [iequals_comm f.name h.name, Bool.and_comm]

theorem configured {B : Beast} (hB : B.Documented) (continuation : Bool) (settings : List Setting) :
    Fresh (settings.foldl (Response.configure B) ((Response.start B continuation).requestParsed B 11 true)) ∧
      (settings.foldl (Response.configure B)
        ((Response.start B continuation).requestParsed B 11 true)).myRes.fields = headersSet settings := by
  have hs : Fresh ((Response.start B continuation).requestParsed B 11 true) :=
    ⟨rfl, rfl, rfl, rfl, rfl, rfl, rfl, rfl, rfl⟩
  obtain ⟨h₁, h₂⟩ := configure_all hB hs settings
  refine ⟨h₁, ?_⟩
  have hnil : ((Response.start B continuation).requestParsed B 11 true).myRes.fields = [] :=
    hB.setKeepAlive continuation
  rw [h₂, hnil, appendSet_all]
  rfl

theorem send_wire {s : Response} (hs : Fresh s) (body : Octets) :
    (s.send body .ok).1.wire = [⟨.message { s.myRes with body := body }, .ok, .send⟩] := by
  simp only [Response.send, Response.put, hs.isOpen, hs.wire, hs.body, List.nil_append]
  rfl

def headed (B : Beast) (fields : List Field) (cs : List Octets) : Octets :=
  B.writeHeader ⟨11, 200, B.setChunked fields, []⟩ ++ cs.flatMap B.makeChunk

structure Writing (B : Beast) (fields : List Field) (sent : Octets) (s : Response) : Prop where
  isOpen : s.isOpen = true
  myError : s.myError = none
  wire : (s.myHeadersSentFlag = false ∧ s.wire = [] ∧ sent = [] ∧ s.myRes = ⟨11, 200, fields, []⟩) ∨
    (s.myHeadersSentFlag = true ∧ ∃ cs : List Octets, (∀ c ∈ cs, c ≠ []) ∧ cs.flatten = sent ∧
      s.wire.flatMap (Entry.bytes B) = headed B fields cs)

variable {B : Beast} {fields : List Field} {sent : Octets}

theorem sendHeaders_writing {s : Response} (hs : Writing B fields sent s) (origin : Origin) :
    ∃ t, s.sendHeaders B origin .ok = (t, none) ∧ t.isOpen = true ∧ t.myError = none ∧
      t.writes = s.writes ∧ t.myHeadersSentFlag = true ∧ ∃ cs : List Octets, (∀ c ∈ cs, c ≠ []) ∧
        cs.flatten = sent ∧ t.wire.flatMap (Entry.bytes B) = headed B fields cs := by
  rcases hs.wire with ⟨hf, hw, rfl, hres⟩ | ⟨hf, cs, hcs, hflat, hw⟩
  · refine ⟨{ s with
      myHeadersSentFlag := true
      myRes := ⟨11, 200, B.setChunked fields, []⟩
      wire := [⟨.header ⟨11, 200, B.setChunked fields, []⟩, .ok, origin⟩]
      myError := none }, ?_, hs.isOpen, rfl, rfl, rfl, [], by simp, rfl, rfl⟩
    simp only [Response.sendHeaders, Response.put, hf, hs.isOpen, hw, hres, Bool.false_eq_true,
      if_false, List.nil_append]
  · refine ⟨s, ?_, hs.isOpen, hs.myError, rfl, hf, cs, hcs, hflat, hw⟩
    simp only [Response.sendHeaders, hf, if_true]

theorem deviceWrite_writing {s : Response} (hs : Writing B fields sent s) {bytes : Octets}
    (hb : bytes ≠ []) : ∃ t, s.deviceWrite B (some bytes) .data .ok .ok = (t, none) ∧
      Writing B fields (sent ++ bytes) t ∧ t.writes = s.writes := by
  obtain ⟨t, ht, ho, -, hw, hf, cs, hcs, hflat, hwire⟩ := sendHeaders_writing hs .data
  refine ⟨{ t with wire := t.wire ++ [⟨.chunk bytes, .ok, .data⟩], myError := none }, ?_, ?_, hw⟩
  · simp only [Response.deviceWrite, ht, Response.put, ho]
    rfl
  · refine ⟨ho, rfl, .inr ⟨hf, cs ++ [bytes], ?_, ?_, ?_⟩⟩
    · intro c hc
      rcases List.mem_append.mp hc with hc | hc
      · exact hcs c hc
      · rwa [List.mem_singleton.mp hc]
    · rw [List.flatten_append, hflat, List.flatten_singleton]
    · rw [List.flatMap_append, hwire, headed, headed, List.flatMap_append, List.append_assoc]
      rfl

theorem drain_writing {fuel : Nat} {s : Response} {rest : Octets} (hs : Writing B fields sent s)
    (hw : s.writes = [rest]) (hfuel : rest.length < fuel) :
    Writing B fields (sent ++ rest) (s.drain B fuel) ∧ (s.drain B fuel).writes = [] := by
  induction fuel generalizing s rest sent with
  | zero => omega
  | succ n ih =>
    simp only [Response.drain, hw, Response.writeHandler]
    cases hrest : rest with
    | nil =>
      simp only [true_or, if_true, List.eraseIdx_cons_zero, List.append_nil]
      have hstop : ∀ t : Response, t.writes = [] → t.drain B n = t := by
        intro t ht
        cases n with
        | zero => rfl
        | succ n => simp only [Response.drain, ht]
      rw [hstop _ rfl]
      exact ⟨⟨hs.isOpen, hs.myError, hs.wire⟩, rfl⟩
    | cons c cs =>
      have hne : ¬ (c :: cs = [] ∨ s.myError.isSome = true ∨ s.isOpen = false) := by
        simp [hs.myError, hs.isOpen]
      have htake : (c :: cs).take maxWriteBufferSize ≠ [] := by simp [maxWriteBufferSize]
      obtain ⟨t, ht, hwr, htw⟩ := deviceWrite_writing hs htake
      simp only [if_neg hne, ht, htw, hw, List.set_cons_zero]
      have hlen : ((c :: cs).drop maxWriteBufferSize).length < n := by
        rw [hrest] at hfuel
        simp only [List.length_drop, List.length_cons, maxWriteBufferSize] at hfuel ⊢
        omega
      have hq : Writing B fields (sent ++ (c :: cs).take maxWriteBufferSize)
          { t with writes := [(c :: cs).drop maxWriteBufferSize] } :=
        ⟨hwr.isOpen, hwr.myError, hwr.wire⟩
      have hnext := ih hq rfl hlen
      rwa [List.append_assoc, List.take_append_drop] at hnext

theorem writeAwaited_writing {s : Response} (hs : Writing B fields sent s) (hw : s.writes = [])
    {body : Octets} (hb : body ≠ []) :
    Writing B fields (sent ++ body) (s.writeAwaited B body) ∧ (s.writeAwaited B body).writes = [] := by
  cases body with
  | nil => exact absurd rfl hb
  | cons c cs =>
    have hq : Writing B fields sent (s.write B (some (c :: cs)) .ok .ok) :=
      ⟨hs.isOpen, hs.myError, hs.wire⟩
    refine drain_writing hq ?_ (Nat.lt_succ_self _)
    simp only [Response.write, hw, List.nil_append]

theorem writes_writing {s : Response} (hs : Writing B fields sent s) (hw : s.writes = [])
    (bodies : List { body : Octets // body ≠ [] }) :
    Writing B fields (sent ++ (bodies.map Subtype.val).flatten)
      ((bodies.map Subtype.val).foldl (Response.writeAwaited B) s) := by
  induction bodies generalizing s sent with
  | nil => simpa using hs
  | cons b bodies ih =>
    obtain ⟨h₁, h₂⟩ := writeAwaited_writing hs hw b.2
    simpa using ih h₁ h₂

theorem finish_wire {s : Response} (hs : Writing B fields sent s) :
    ∃ cs : List Octets, (∀ c ∈ cs, c ≠ []) ∧ cs.flatten = sent ∧
      (s.write B none .ok .ok).wire.flatMap (Entry.bytes B) =
        headed B fields cs ++ B.makeChunkLast := by
  obtain ⟨t, ht, ho, -, -, -, cs, hcs, hflat, hwire⟩ := sendHeaders_writing hs .null
  refine ⟨cs, hcs, hflat, ?_⟩
  simp only [Response.write, hs.isOpen, if_true, Response.deviceWrite, ht, Response.put, ho,
    Response.notifyCompleted, List.flatMap_append, hwire]
  congr 1
  exact List.append_nil _

theorem respond_send (hB : B.Documented) (continuation : Bool) (settings : List Setting)
    (body : Octets) : ∃ cs : List Octets, (∀ c ∈ cs, c ≠ []) ∧ cs.flatten = body ∧
      respond B continuation settings (.send body) =
        encodeHead ⟨11, 200, headersSet settings⟩ (B.reason 200) ++
          if endsChunked (headersSet settings) then cs.flatMap encodeChunk ++ lastChunk else body := by
  obtain ⟨hs, hf⟩ := configured hB continuation settings
  generalize hc : settings.foldl (Response.configure B)
    ((Response.start B continuation).requestParsed B 11 true) = s at hs hf
  have hres : { s.myRes with body := body } = (⟨11, 200, headersSet settings, body⟩ : Message) := by
    rw [← hf, ← hs.version, ← hs.result]
  obtain ⟨cs, hcs, hflat, hw⟩ := hB.write ⟨11, 200, headersSet settings, body⟩
  refine ⟨cs, hcs, hflat, ?_⟩
  rw [respond, hc, Response.deliver, send_wire hs, hres, List.flatMap_singleton]
  change B.write ⟨11, 200, headersSet settings, body⟩ = _
  rw [hw, hB.writeHeader, hB.isChunked]

theorem respond_writes (hB : B.Documented) (continuation : Bool) (settings : List Setting)
    (bodies : List { body : Octets // body ≠ [] }) :
    ∃ cs : List Octets, (∀ c ∈ cs, c ≠ []) ∧ cs.flatten = (Payload.writes bodies).body ∧
      respond B continuation settings (.writes bodies) =
        encodeHead ⟨11, 200, withChunked (headersSet settings)⟩ (B.reason 200) ++
          (cs.flatMap encodeChunk ++ lastChunk) := by
  obtain ⟨hs, hf⟩ := configured hB continuation settings
  generalize hc : settings.foldl (Response.configure B)
    ((Response.start B continuation).requestParsed B 11 true) = s at hs hf
  have hres : s.myRes = ⟨11, 200, headersSet settings, []⟩ := by
    rw [← hf, ← hs.version, ← hs.result, ← hs.body]
  have hw : Writing B (headersSet settings) [] s :=
    ⟨hs.isOpen, hs.myError, .inl ⟨hs.flag, hs.wire, rfl, hres⟩⟩
  obtain ⟨cs, hcs, hflat, hwire⟩ := finish_wire (writes_writing hw hs.writes bodies)
  refine ⟨cs, hcs, by simpa [Payload.body] using hflat, ?_⟩
  have hchunks : cs.flatMap B.makeChunk = cs.flatMap encodeChunk :=
    List.flatMap_congr fun c hm => hB.makeChunk c (hcs c hm)
  rw [respond, hc, Response.deliver, hwire, headed, hB.writeHeader, hB.setChunked, hchunks,
    hB.makeChunkLast, List.append_assoc]

theorem head_of_trimmed {c : UInt8} {cs : Octets} (h : trim (c :: cs) = c :: cs) : isOws c = false := by
  by_contra hc
  have hlen := congrArg List.length h
  have hdrop : (c :: cs).dropWhile isOws = cs.dropWhile isOws := by
    simp [show isOws c = true by simpa using hc]
  simp only [trim, hdrop, List.length_reverse, List.length_cons] at hlen
  have hshort : ∀ xs : Octets, (xs.dropWhile isOws).length ≤ xs.length :=
    fun _ => (List.dropWhile_sublist isOws).length_le
  have h₁ := hshort (cs.dropWhile isOws).reverse
  have h₂ := hshort cs
  rw [List.length_reverse] at h₁
  omega

theorem trim_coding {v : Octets} (hv : trim v = v) :
    trim (v ++ ([44, 32] ++ chunkedCoding)) = v ++ ([44, 32] ++ chunkedCoding) := by
  have hfront : (v ++ ([44, 32] ++ chunkedCoding)).dropWhile isOws = v ++ ([44, 32] ++ chunkedCoding) := by
    cases v with
    | nil => rfl
    | cons c cs => simp [head_of_trimmed hv]
  rw [trim, hfront, List.reverse_append]
  have hback : (([44, 32] ++ chunkedCoding : Octets).reverse ++ v.reverse).dropWhile isOws =
      ([44, 32] ++ chunkedCoding : Octets).reverse ++ v.reverse := rfl
  rw [hback, ← List.reverse_append, List.reverse_reverse]

theorem withChunked_valid {fs : List Field} (hfs : ∀ f ∈ fs, f.Valid) :
    ∀ f ∈ withChunked fs, f.Valid := by
  have hcoding : ∀ f ∈ withCoding fs, f.Valid := by
    intro f hf
    simp only [withCoding] at hf
    split at hf
    · rcases List.mem_append.mp hf with hf | hf
      · exact hfs f hf
      · rw [List.mem_singleton.mp hf]
        decide
    · rename_i v hv
      split at hf
      · exact hfs f hf
      · rcases List.mem_append.mp hf with hf | hf
        · exact hfs f (List.mem_filter.mp hf).1
        · obtain ⟨g, hg, -, rfl⟩ := mem_of_lookup hv
          rw [List.mem_singleton.mp hf]
          have hname : transferEncoding ≠ [] ∧ ∀ c ∈ transferEncoding, isToken c = true := by decide
          refine ⟨hname.1, hname.2, ?_, trim_coding (hfs g hg).trimmed⟩
          intro c hc
          rcases List.mem_append.mp hc with hc | hc
          · exact (hfs g hg).oneLine c hc
          · have hcoding : ∀ c ∈ ([44, 32] ++ chunkedCoding : Octets), c ≠ 13 := by decide
            exact hcoding c hc
  intro f hf
  exact hcoding f (List.mem_filter.mp hf).1

theorem endsChunked_of_chunked {fs : List Field} {v : Octets} (hv : lookup transferEncoding fs = some v)
    (hc : iequals v chunkedCoding = true) : endsChunked fs = true := by
  have hmap : v.map lower = chunkedCoding.map lower := beq_iff_eq.mp hc
  have hplain : ∀ c ∈ v, c ≠ 44 ∧ isOws c = false := by
    intro c hm
    have hl : lower c ∈ chunkedCoding.map lower := hmap ▸ List.mem_map_of_mem hm
    have hsep : ∀ d, d = 44 ∨ isOws d = true → lower d ∉ chunkedCoding.map lower := by
      intro d hd
      have h : d = 44 ∨ d = 32 ∨ d = 9 := by simpa [isOws] using hd
      rcases h with rfl | rfl | rfl <;> decide
    refine ⟨fun h => hsep c (.inl h) hl, ?_⟩
    by_contra h
    exact hsep c (.inr (by simpa using h)) hl
  have hkeep : ∀ xs : Octets, (∀ c ∈ xs, isOws c = false) → xs.dropWhile isOws = xs := by
    intro xs hxs
    cases xs with
    | nil => rfl
    | cons c cs => simp [hxs c (List.mem_cons_self ..)]
  have hwhole : v.reverse.takeWhile (· ≠ 44) = v.reverse :=
    List.takeWhile_eq_self_iff.mpr fun c hm => by simpa using (hplain c (List.mem_reverse.mp hm)).1
  have htrim : trim v = v := by
    rw [trim, hkeep v fun c hm => (hplain c hm).2,
      hkeep v.reverse fun c hm => (hplain c (List.mem_reverse.mp hm)).2, List.reverse_reverse]
  rw [endsChunked, hv, Option.any_some, finalCoding, hwhole, List.reverse_reverse, htrim, hc]

theorem framing_coding {fs : List Field} {v : Octets} (hv : lookup transferEncoding fs = some v) :
    framing ⟨11, 200, fs⟩ = if iequals v chunkedCoding then .chunked else .unsupported := by
  simp only [framing, hv]
  rfl

theorem framing_length {fs : List Field} (hte : lookup transferEncoding fs = none) :
    framing ⟨11, 200, fs⟩ ≠ .chunked ∧ framing ⟨11, 200, fs⟩ ≠ .none := by
  simp only [framing, hte, show bodyless 200 = false from rfl, Bool.false_eq_true, if_false]
  cases lookup contentLength fs with
  | none => simp
  | some v => cases hn : decimal.read v <;> simp [hn]

theorem lookup_coding (fs : List Field) : ∃ v, lookup transferEncoding (withChunked fs) = some v ∧
    (iequals v chunkedCoding = true ↔
      ∀ w ∈ lookup transferEncoding fs, iequals w chunkedCoding = true) := by
  have hother : iequals transferEncoding contentLength = false := by decide
  rw [withChunked, lookup_without_other hother, withCoding]
  cases hte : lookup transferEncoding fs with
  | none => exact ⟨chunkedCoding, by rw [lookup_append, hte]; rfl, by simp⟩
  | some w =>
    simp only [Option.mem_def, Option.some.injEq, forall_eq']
    split
    · exact ⟨w, hte, Iff.rfl⟩
    · rename_i hend
      refine ⟨w ++ ([44, 32] ++ chunkedCoding), by rw [lookup_append, lookup_without]; rfl, ?_, ?_⟩
      · intro hc
        have hlen := iequals_length hc
        simp [chunkedCoding] at hlen
      · intro hc
        have he := endsChunked_of_chunked hte hc
        rw [endsChunked, hte, Option.any_some] at he
        exact absurd he hend

theorem withCoding_keeps {fs : List Field}
    (h : ∀ w ∈ lookup transferEncoding fs, iequals w chunkedCoding = true) :
    ∀ f ∈ fs, f ∈ withCoding fs := by
  intro f hf
  rw [withCoding]
  cases hte : lookup transferEncoding fs with
  | none => exact List.mem_append_left _ hf
  | some w =>
    have hend := endsChunked_of_chunked hte (h w hte)
    rw [endsChunked, hte, Option.any_some] at hend
    simpa only [hend, if_true] using hf

end NexusRuntime.Http
