import NexusRuntime.Filters.Utf8Chunks
import NexusRuntime.Http.Request
import NexusRuntime.Sequence.Grouped

namespace NexusRuntime.HttpRequest

open Wire Sequence Filters.Utf8String

variable {P : Type}

def Token (xs : Octets) : Prop := xs ≠ [] ∧ ∀ c ∈ xs, isToken c = true

-- the tokens that Beast has an enumerator for, in the enumerator's spelling, and the fields that
-- keep_alive(flag) sets in an empty message
structure Enumerators where
  verbs : List Octets
  fields : List Octets
  tokens : ∀ spelling ∈ fields, Token spelling
  keepAliveFields : Bool → List Field

def unknownVerb : Octets := [60, 117, 110, 107, 110, 111, 119, 110, 62]

def unknownField : Octets := [60, 117, 110, 107, 110, 111, 119, 110, 45, 102, 105, 101, 108, 100, 62]

namespace Enumerators
variable (e : Enumerators)

def verbName (token : Octets) : Octets := if token ∈ e.verbs then token else unknownVerb

def fieldName (token : Octets) : Octets :=
  (e.fields.find? fun spelling => iequals spelling token).getD unknownField

def Spelled (token : Octets) : Prop :=
  (e.fields.find? fun spelling => iequals spelling token) = some token

end Enumerators

def named (X : Parser P) (e : Enumerators) : Parser P :=
  { X with verbName := e.verbName, fieldName := e.fieldName }

-- field values may hold any byte but the control characters
def isFieldByte (c : UInt8) : Bool := c == 9 || (32 ≤ c && c != 127)

structure Sent where
  method : Octets
  target : Octets
  version : Nat
  fields : List Field
  keepAlive : Bool
  method_token : Token method
  names : ∀ f ∈ fields, Token f.name
  values : ∀ f ∈ fields, ∀ c ∈ f.value, isFieldByte c = true

def sameName (f g : Field) : Bool := iequals f.name g.name

-- Beast keeps the fields in the order of insertion, those of one name together; the constructor
-- calls keep_alive(continuation) on the parser's message before anything is parsed into it
def Sent.message (r : Sent) (e : Enumerators) (continuation : Bool) : Message :=
  ⟨r.method, r.version, r.target, r.fields.foldl (place sameName) (e.keepAliveFields continuation),
    r.keepAlive⟩

structure Header where
  name : List Char
  value : List Char
deriving DecidableEq, Repr

structure Shown where
  method : List Char
  version : List Char
  url : List Char
  headers : List Header
deriving DecidableEq, Repr

-- NX::Value makes its strings with JSStringCreateWithUTF8CString
def shown (X : Parser P) (m : Message) : Shown :=
  let p := properties X m
  { method := stringOfUtf8CString p.method
    version := stringOfUtf8CString p.version
    url := stringOfUtf8CString p.url
    headers := p.headers.map fun f => ⟨stringOfUtf8CString f.name, stringOfUtf8CString f.value⟩ }

structure ShowsSent (X : Parser P) (e : Enumerators) (continuation : Bool) (r : Sent) : Prop where
  method : utf8 (shown (named X e) (r.message e continuation)).method = r.method
  headers : (shown (named X e) (r.message e continuation)).headers.map
    (fun h => (⟨utf8 h.name, utf8 h.value⟩ : Field)) = r.fields

structure Known (e : Enumerators) (continuation : Bool) (r : Sent) : Prop where
  preset : e.keepAliveFields continuation = []
  method : r.method ∈ e.verbs
  names : ∀ f ∈ r.fields, e.Spelled f.name
  values : ∀ f ∈ r.fields, Whole f.value
  together : Consecutive sameName r.fields

theorem utf8EncodeChar_ascii : ∀ n, n < 128 → String.utf8EncodeChar (Char.ofNat n) = [UInt8.ofNat n] := by
  decide

theorem token_range {c : UInt8} (h : isToken c = true) : 0 < c ∧ c < 128 := by
  simp only [isToken, Bool.and_eq_true, decide_eq_true_eq] at h
  have hlow := UInt8.le_iff_toNat_le.mp h.1.1
  have hhigh := UInt8.le_iff_toNat_le.mp h.1.2
  have h33 : (33 : UInt8).toNat = 33 := rfl
  have h126 : (126 : UInt8).toNat = 126 := rfl
  have h128 : (128 : UInt8).toNat = 128 := rfl
  have h0 : (0 : UInt8).toNat = 0 := rfl
  rw [UInt8.lt_iff_toNat_lt, UInt8.lt_iff_toNat_lt]
  omega

theorem ascii_utf8 {xs : Octets} (h : ∀ c ∈ xs, c < 128) :
    utf8 (xs.map fun c => Char.ofNat c.toNat) = xs := by
  induction xs with
  | nil => rfl
  | cons c xs ih =>
    have hc : c.toNat < 128 := UInt8.lt_iff_toNat_lt.mp (h c (List.mem_cons_self ..))
    rw [List.map_cons, utf8_cons, utf8EncodeChar_ascii _ hc, UInt8.ofNat_toNat,
      ih fun d hd => h d (List.mem_cons_of_mem c hd)]
    rfl

theorem intact_ascii {xs : Octets} (h : ∀ c ∈ xs, 0 < c ∧ c < 128) : intact xs = xs := by
  have hzero : 0 ∉ xs := by
    intro hmem
    exact absurd (h 0 hmem).1 (by decide)
  have hwhole : Whole xs := ascii_utf8 (fun c hc => (h c hc).2) ▸ whole_utf8 _
  rw [intact_piece hzero, if_pos hwhole]

theorem intact_token {xs : Octets} (h : Token xs) : intact xs = xs := by
  apply intact_ascii
  intro c hc
  exact token_range (h.2 c hc)

theorem intact_whole_value (xs : Octets) : Whole (intact xs) := by
  rw [← utf8_stringOf]
  exact whole_utf8 _

theorem intact_value {xs : Octets} (h : ∀ c ∈ xs, isFieldByte c = true) (hw : Whole xs) :
    intact xs = xs := by
  have hzero : 0 ∉ xs := by
    intro hmem
    exact absurd (h 0 hmem) (by decide)
  rw [intact_piece hzero, if_pos hw]

theorem unknownVerb_intact : intact unknownVerb = unknownVerb := intact_ascii (by decide)

theorem unknownField_intact : intact unknownField = unknownField := intact_ascii (by decide)

theorem not_token_unknownVerb : ¬ Token unknownVerb :=
  fun h => absurd (h.2 60 (by decide)) (by decide)

theorem not_token_unknownField : ¬ Token unknownField :=
  fun h => absurd (h.2 60 (by decide)) (by decide)

namespace Enumerators
variable {e : Enumerators}

theorem fieldName_spelled {token : Octets} (h : e.Spelled token) : e.fieldName token = token := by
  rw [fieldName, h]
  rfl

theorem spelled_of_fieldName {token name : Octets} (h : e.fieldName token = name) (hname : Token name) :
    e.Spelled name := by
  rw [fieldName] at h
  cases hfind : e.fields.find? fun spelling => iequals spelling token with
  | none =>
    rw [hfind] at h
    obtain rfl : unknownField = name := h
    exact absurd hname not_token_unknownField
  | some spelling =>
    rw [hfind] at h
    obtain rfl : spelling = name := h
    have hsame := List.find?_some hfind
    have hpred : (fun s => iequals s token) = fun s => iequals s spelling := by
      funext s
      rw [iequals_comm s token, iequals_comm s spelling, iequals_trans hsame]
    rwa [hpred] at hfind

end Enumerators

section Shows
variable {X : Parser P} {e : Enumerators} {continuation : Bool} {r : Sent}

theorem shown_method :
    utf8 (shown (named X e) (r.message e continuation)).method = intact (e.verbName r.method) :=
  utf8_stringOf _

def shownField (e : Enumerators) (f : Field) : Field := ⟨intact (e.fieldName f.name), intact f.value⟩

theorem shown_headers :
    (shown (named X e) (r.message e continuation)).headers.map
        (fun h => (⟨utf8 h.name, utf8 h.value⟩ : Field)) =
      (r.message e continuation).fields.map (shownField e) := by
  simp only [shown, properties, List.map_map]
  apply List.map_congr_left
  intro f _
  simp only [Function.comp, utf8_stringOf]
  rfl

theorem intact_verbName {token : Octets} (h : Token token) :
    intact (e.verbName token) = e.verbName token := by
  rw [Enumerators.verbName]
  split
  · exact intact_token h
  · exact unknownVerb_intact

theorem intact_fieldName (token : Octets) : intact (e.fieldName token) = e.fieldName token := by
  rw [Enumerators.fieldName]
  cases hfind : e.fields.find? fun spelling => iequals spelling token with
  | none => exact unknownField_intact
  | some spelling => exact intact_token (e.tokens spelling (List.mem_of_find?_eq_some hfind))

theorem message_fields (h : e.keepAliveFields continuation = []) :
    (r.message e continuation).fields = group sameName r.fields := by
  rw [Sent.message, h]
  rfl

theorem shows_of_known (h : Known e continuation r) : ShowsSent X e continuation r where
  method := by
    rw [shown_method, intact_verbName r.method_token, Enumerators.verbName, if_pos h.method]
  headers := by
    have hself : ∀ f ∈ r.fields, shownField e f = f := by
      intro f hf
      rw [shownField, Enumerators.fieldName_spelled (h.names f hf), intact_token (r.names f hf),
        intact_value (r.values f hf) (h.values f hf)]
    rw [shown_headers, message_fields h.preset, (group_eq_self_iff (fun f => iequals_refl f.name) r.fields).mpr h.together,
      List.map_congr_left hself, List.map_id']

theorem known_of_shows (h : ShowsSent X e continuation r) : Known e continuation r := by
  have hmethod := h.method
  have hheaders := h.headers
  rw [shown_method, intact_verbName r.method_token] at hmethod
  rw [shown_headers] at hheaders
  have hpreset : e.keepAliveFields continuation = [] := by
    have hlen := congrArg List.length hheaders
    rw [List.length_map, Sent.message, foldl_place_length] at hlen
    exact List.eq_nil_of_length_eq_zero (by omega)
  rw [message_fields hpreset] at hheaders
  have hback : ∀ f ∈ r.fields, ∃ g ∈ r.fields, shownField e g = f := by
    intro f hf
    rw [← hheaders] at hf
    obtain ⟨g, hg, rfl⟩ := List.mem_map.mp hf
    exact ⟨g, mem_group.mp hg, rfl⟩
  have hnames : ∀ f ∈ r.fields, e.Spelled f.name := by
    intro f hf
    obtain ⟨g, -, hg⟩ := hback f hf
    have hname : intact (e.fieldName g.name) = f.name := congrArg Field.name hg
    rw [intact_fieldName] at hname
    exact Enumerators.spelled_of_fieldName hname (r.names f hf)
  have hvalues : ∀ f ∈ r.fields, Whole f.value := by
    intro f hf
    obtain ⟨g, -, hg⟩ := hback f hf
    have hvalue : intact g.value = f.value := congrArg Field.value hg
    rw [← hvalue]
    exact intact_whole_value g.value
  have hself : ∀ f ∈ group sameName r.fields, shownField e f = f := by
    intro f hf
    have hf := mem_group.mp hf
    rw [shownField, Enumerators.fieldName_spelled (hnames f hf), intact_token (r.names f hf),
      intact_value (r.values f hf) (hvalues f hf)]
  refine ⟨hpreset, ?_, hnames, hvalues, ?_⟩
  · by_contra hunknown
    rw [Enumerators.verbName, if_neg hunknown] at hmethod
    exact not_token_unknownVerb (hmethod ▸ r.method_token)
  · rw [List.map_congr_left hself, List.map_id'] at hheaders
    exact (group_eq_self_iff (fun f => iequals_refl f.name) r.fields).mp hheaders

end Shows

theorem shows_iff_known (X : Parser P) (e : Enumerators) (continuation : Bool) (r : Sent) :
    ShowsSent X e continuation r ↔ Known e continuation r :=
  ⟨known_of_shows, shows_of_known⟩

def host : Octets := [72, 111, 115, 116]

def connectionClose : Field :=
  ⟨[67, 111, 110, 110, 101, 99, 116, 105, 111, 110], [99, 108, 111, 115, 101]⟩

def someEnumerators : Enumerators where
  verbs := [[71, 69, 84]]
  fields := [host, connectionClose.name]
  tokens := by
    intro spelling h
    simp only [List.mem_cons, List.not_mem_nil, or_false] at h
    rcases h with rfl | rfl <;> exact ⟨by decide, by decide⟩
  keepAliveFields := fun flag => if flag then [] else [connectionClose]

def customRequest : Sent where
  method := [66, 82, 69, 87]
  target := [47]
  version := 11
  fields := [⟨host, [97]⟩, ⟨[88, 45, 73, 100], [55]⟩]
  keepAlive := true
  method_token := ⟨by decide, by decide⟩
  names := by
    intro f hf
    simp only [List.mem_cons, List.not_mem_nil, or_false] at hf
    rcases hf with rfl | rfl <;> exact ⟨by decide, by decide⟩
  values := by decide

theorem custom_tokens_lost :
    (shown (named referenceParser someEnumerators) (customRequest.message someEnumerators true)).method =
        ['<', 'u', 'n', 'k', 'n', 'o', 'w', 'n', '>'] ∧
      (shown (named referenceParser someEnumerators)
          (customRequest.message someEnumerators true)).headers =
        [⟨['H', 'o', 's', 't'], ['a']⟩,
          ⟨['<', 'u', 'n', 'k', 'n', 'o', 'w', 'n', '-', 'f', 'i', 'e', 'l', 'd', '>'], ['7']⟩] ∧
      ¬ ShowsSent referenceParser someEnumerators true customRequest := by
  have hmethod : (shown (named referenceParser someEnumerators)
      (customRequest.message someEnumerators true)).method =
        ['<', 'u', 'n', 'k', 'n', 'o', 'w', 'n', '>'] := by decide
  refine ⟨hmethod, by decide, ?_⟩
  intro h
  have := h.method
  rw [hmethod] at this
  exact absurd this (by decide)

end NexusRuntime.HttpRequest
