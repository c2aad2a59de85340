import NexusRuntime.Http.Framing
import NexusRuntime.Wire.Stream

namespace NexusRuntime.Http

open Wire

structure Exchange where
  settings : List Setting
  payload : Payload

namespace Exchange

def Answers (x : Exchange) (r : Received) : Prop :=
  (∀ n, lastStatus x.settings = some n → r.head.status = n) ∧
    (∀ f ∈ headersSet x.settings, f ∈ r.head.fields) ∧ r.body = x.payload.body

def Fits (x : Exchange) : Prop := Http.Fits x.settings x.payload

end Exchange

-- the connection made for the accepted socket, then those that handleAccept makes after each reply
def turns : List Exchange → List (Bool × Exchange)
  | [] => []
  | x :: xs => (false, x) :: xs.map fun y => (true, y)

def session (B : Beast) (xs : List Exchange) : Octets :=
  (turns xs).flatMap fun t => respond B t.1 t.2.settings t.2.payload

theorem readBody_chunked_append {cs : List Octets} (hcs : ∀ c ∈ cs, c ≠ []) (rest : Octets) :
    readBody .chunked (cs.flatMap encodeChunk ++ lastChunk ++ rest) = some (cs.flatten, rest) := by
  rw [List.append_assoc]
  refine readChunks_encode hcs rest ?_
  have := encodeChunk_length cs
  rw [List.length_append]
  omega

theorem readBody_length {body rest ys : Octets} {n : Nat}
    (h : readBody (.length n) (body ++ rest) = some (body, ys)) : n = body.length := by
  simp only [readBody] at h
  split at h
  · rename_i hn
    have hlen := congrArg List.length (Prod.mk.inj (Option.some.inj h)).1
    rw [List.length_take, Nat.min_eq_left hn] at hlen
    exact hlen
  · cases h

section
variable {B : Beast}

theorem delimits_of_body {continuation : Bool} {x : Exchange} {fields : List Field}
    {reason tail : Octets} (hfields : ∀ f ∈ fields, f.Valid) (hreason : ∀ c ∈ reason, c ≠ 13)
    (h : respond B continuation x.settings x.payload = encodeHead ⟨11, 200, fields⟩ reason ++ tail)
    (hexact : framed (headersSet x.settings) x.payload → (∀ f ∈ headersSet x.settings, f ∈ fields) ∧
      ∀ rest, readBody (framing ⟨11, 200, fields⟩) (tail ++ rest) = some (x.payload.body, rest))
    (honly : ∀ {rest ys}, readBody (framing ⟨11, 200, fields⟩) (tail ++ rest) =
      some (x.payload.body, ys) → (∀ f ∈ headersSet x.settings, f ∈ fields) →
        framed (headersSet x.settings) x.payload) :
    Delimits Wire.read (respond B continuation x.settings x.payload) x.Answers x.Fits := by
  have hvalid : Head.Valid ⟨11, 200, fields⟩ := ⟨by simp, by simp, hfields⟩
  have hread : ∀ rest, Wire.read (respond B continuation x.settings x.payload ++ rest) =
      (readBody (framing ⟨11, 200, fields⟩) (tail ++ rest)).map fun b =>
        (⟨⟨11, 200, fields⟩, b.1⟩, b.2) := by
    intro rest
    rw [h, List.append_assoc]
    exact read_encode hvalid hreason _
  refine ⟨?_, ?_, ?_⟩
  · rw [h]
    simp [encodeHead, encodeStatusLine, httpSlash]
  · rintro ⟨hstatus, hframed⟩
    obtain ⟨hheaders, hbody⟩ := hexact hframed
    refine ⟨⟨⟨11, 200, fields⟩, x.payload.body⟩, ⟨fun n hn => (hstatus n hn).symm, hheaders, rfl⟩, ?_⟩
    intro rest
    rw [hread, hbody]
    rfl
  · rintro rest r ys hr ⟨hstatus, hheaders, hbody⟩
    rw [hread] at hr
    obtain ⟨⟨body, zs⟩, hb, hrb⟩ := Option.map_eq_some_iff.mp hr
    obtain ⟨rfl, rfl⟩ := Prod.mk.inj hrb
    simp only at hbody hheaders hstatus
    subst hbody
    exact ⟨fun n hn => (hstatus n hn).symm, honly hb hheaders⟩

theorem send_delimits (hB : B.Documented) (continuation : Bool) (settings : List Setting)
    (body : Octets) : Delimits Wire.read (respond B continuation settings (.send body))
      (Exchange.Answers ⟨settings, .send body⟩) (Exchange.Fits ⟨settings, .send body⟩) := by
  obtain ⟨cs, hcs, hflat, h⟩ := respond_send hB continuation settings body
  refine delimits_of_body (x := ⟨settings, .send body⟩) headersSet_valid (hB.reason 200) h ?_ ?_
  · intro hframed
    refine ⟨fun _ hf => hf, ?_⟩
    intro rest
    cases hte : lookup transferEncoding (headersSet settings) with
    | some v =>
      simp only [framed, framing_coding hte] at hframed
      cases hc : iequals v chunkedCoding with
      | true =>
        rw [framing_coding hte, endsChunked_of_chunked hte hc, hc, if_pos rfl, if_pos rfl,
          readBody_chunked_append hcs, hflat]
        rfl
      | false => simp [hc] at hframed
    | none =>
      have hraw : endsChunked (headersSet settings) = false := by simp [endsChunked, hte]
      have hlen := hframed.resolve_left (framing_length hte).1
      simp only [hraw, Bool.false_eq_true, if_false, hlen, readBody, Payload.body]
      rw [if_pos (by simp), List.take_left, List.drop_left]
  · intro rest ys hb _
    cases hte : lookup transferEncoding (headersSet settings) with
    | some v =>
      rw [framing_coding hte] at hb
      cases hc : iequals v chunkedCoding with
      | true =>
        refine .inl ?_
        rw [framing_coding hte, hc, if_pos rfl]
      | false => simp [hc, readBody] at hb
    | none =>
      have hraw : endsChunked (headersSet settings) = false := by simp [endsChunked, hte]
      have hlen := framing_length hte
      rw [hraw, if_neg Bool.false_ne_true] at hb
      refine .inr ?_
      generalize framing ⟨11, 200, headersSet settings⟩ = f at hb hlen
      cases f with
      | none => exact absurd rfl hlen.2
      | chunked => exact absurd rfl hlen.1
      | length n => rw [readBody_length hb]
      | untilClose | unsupported => simp [readBody] at hb

theorem writes_delimits (hB : B.Documented) (continuation : Bool) (settings : List Setting)
    (bodies : List { body : Octets // body ≠ [] }) :
    Delimits Wire.read (respond B continuation settings (.writes bodies))
      (Exchange.Answers ⟨settings, .writes bodies⟩) (Exchange.Fits ⟨settings, .writes bodies⟩) := by
  obtain ⟨cs, hcs, hflat, h⟩ := respond_writes hB continuation settings bodies
  obtain ⟨v, hv, hiff⟩ := lookup_coding (headersSet settings)
  refine delimits_of_body (x := ⟨settings, .writes bodies⟩) (withChunked_valid headersSet_valid) (hB.reason 200) h ?_ ?_
  · rintro ⟨hcl, hcoded⟩
    refine ⟨?_, ?_⟩
    · intro f hf
      refine List.mem_filter.mpr ⟨withCoding_keeps hcoded f hf, ?_⟩
      cases hn : iequals f.name contentLength with
      | false => rfl
      | true =>
        obtain ⟨w, hw⟩ := lookup_of_mem hf hn
        rw [hcl] at hw
        cases hw
    · intro rest
      rw [framing_coding hv, if_pos (hiff.mpr hcoded), readBody_chunked_append hcs, hflat]
  · intro rest ys hb hheaders
    rw [framing_coding hv] at hb
    cases hc : iequals v chunkedCoding with
    | false => simp [hc, readBody] at hb
    | true =>
      refine ⟨?_, hiff.mp hc⟩
      cases hcl : lookup contentLength (headersSet settings) with
      | none => rfl
      | some w =>
        obtain ⟨f, hf, hn, -⟩ := mem_of_lookup hcl
        have hkept := (List.mem_filter.mp (hheaders f hf)).2
        simp [hn] at hkept

theorem respond_delimits (hB : B.Documented) (continuation : Bool) (x : Exchange) :
    Delimits Wire.read (respond B continuation x.settings x.payload) x.Answers x.Fits := by
  obtain ⟨settings, body | bodies⟩ := x
  · exact send_delimits hB continuation settings body
  · exact writes_delimits hB continuation settings bodies

end

theorem forall₂_turns {Q : Exchange → Received → Prop} {xs : List Exchange} {rs : List Received} :
    List.Forall₂ (fun t r => Q t.2 r) (turns xs) rs ↔ List.Forall₂ Q xs rs := by
  cases xs with
  | nil => simp only [turns, List.forall₂_nil_left_iff]
  | cons x xs => cases rs <;> simp [turns, List.forall₂_map_left_iff]

theorem forall_turns {P : Exchange → Prop} {xs : List Exchange} :
    (∀ t ∈ turns xs, P t.2) ↔ ∀ x ∈ xs, P x := by
  cases xs <;> simp [turns]

theorem session_recovered_iff (B : Beast) (hB : B.Documented) (xs : List Exchange) :
    (∃ rs, readAll Wire.read (session B xs).length (session B xs) = some rs ∧
      List.Forall₂ Exchange.Answers xs rs) ↔ ∀ x ∈ xs, x.Fits := by
  have hpiece : ∀ t : Bool × Exchange, Delimits Wire.read (respond B t.1 t.2.settings t.2.payload)
      t.2.Answers t.2.Fits := fun t => respond_delimits hB t.1 t.2
  have hfuel := length_le_flatMap (fun t => (hpiece t).nonempty) (turns xs)
  have hall := readAll_iff hpiece hfuel
  simp only [forall₂_turns, forall_turns] at hall
  exact hall

theorem session_recovered_twice :
    ∃ rs, readAll Wire.read
        (session .reference [⟨[], .writes [⟨[104, 105], by decide⟩]⟩, ⟨[], .writes []⟩]).length
        (session .reference [⟨[], .writes [⟨[104, 105], by decide⟩]⟩, ⟨[], .writes []⟩]) = some rs ∧
      List.Forall₂ Exchange.Answers [⟨[], .writes [⟨[104, 105], by decide⟩]⟩, ⟨[], .writes []⟩] rs := by
  refine (session_recovered_iff .reference reference_documented _).mpr ?_
  have hfits : ∀ bodies, Fits [] (.writes bodies) := fun bodies =>
    ⟨fun n hn => absurd hn (Option.some_ne_none n).symm, rfl, fun v hv => absurd hv (Option.some_ne_none v).symm⟩
  intro x hx
  rcases List.mem_pair.mp hx with rfl | rfl
  · exact hfits _
  · exact hfits _

end NexusRuntime.Http
