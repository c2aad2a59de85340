import NexusRuntime.Modules.Specifier
import NexusRuntime.Path.Tree
import NexusRuntime.Transition.Follow

namespace NexusRuntime.Modules

open Path Transition

variable {N : Type}

structure File where
  content : List UInt8
  opens : Bool
  -- how many bytes can be read before reading fails
  readable : Nat
deriving DecidableEq, Repr

abbrev FileSystem (N : Type) : Type := Tree N UInt8 File

def ofString (s : String) : List UInt8 := s.toList.map byte

def index : List UInt8 := ofString "index"

def extensions : List (List UInt8) := [ofString ".mjs", ofString ".js"]

def convertShebangToJSComment (buffer : List UInt8) : List UInt8 :=
  match buffer with
  | a :: b :: rest => if a = byte '#' ∧ b = byte '!' then byte '/' :: byte '/' :: rest else buffer
  | _ => buffer

structure Fetched where
  calls : List (List UInt8)
  returns : Bool
  buffer : List UInt8
deriving DecidableEq, Repr

def Fetched.after (path : List UInt8) (r : Fetched) : Fetched := { r with calls := path :: r.calls }

namespace FileSystem
variable (fs : FileSystem N)

-- boost::filesystem::status; exists() throws where it is an error
def status (path : List UInt8) : Lookup N := Tree.status (byte '/') (byte '.') fs path

def withExtension (path : List UInt8) : List (List UInt8) → Lookup (List UInt8)
  | [] => .missing
  | ext :: exts =>
    match fs.status (path ++ ext) with
    | .error => .error
    | .found _ => .found (path ++ ext)
    | .missing => withExtension path exts

-- a stream that did not open is not bad(), and there is nothing in it
def streamed (f : File) : List UInt8 := if f.opens then f.content.take f.readable else []

def fetchModuleFromLocalFileSystem : Nat → WString → List UInt8 → Option Fetched
  | 0, _, _ => none
  | fuel + 1, fileName, buffer =>
    let path := data (utf8 fileName)
    match fs.status path with
    | .error => some ⟨[path], false, buffer⟩
    | .missing =>
      match fs.withExtension path extensions with
      | .found withExt =>
        (fetchModuleFromLocalFileSystem fuel (fromLatin1 withExt) buffer).map (Fetched.after path)
      | _ => some ⟨[path], false, buffer⟩
    | .found n =>
      match fs.node n with
      | .directory _ =>
        (fetchModuleFromLocalFileSystem fuel (fromLatin1 (append path index)) buffer).map
          (Fetched.after path)
      | .file f => some ⟨[path], true, convertShebangToJSComment (buffer ++ streamed f)⟩

-- the order of the search, on the path as it was given
def existing (path : List UInt8) : Bool :=
  match fs.status path with
  | .found _ => true
  | _ => false

def firstExisting (path : List UInt8) : Option (List UInt8) :=
  extensions.find? fun ext => fs.existing (path ++ ext)

def search (path : List UInt8) : Next (List UInt8) (Option File) :=
  match fs.status path with
  | .found n =>
    match fs.node n with
    | .directory _ => .again (Tree.append (byte '/') path index)
    | .file f => .stop (some f)
  | _ =>
    match fs.firstExisting path with
    | some ext => .again (path ++ ext)
    | none => .stop none

def Fits (buffer : List UInt8) : Option File → Fetched → Prop
  | none, r => r.returns = false ∧ r.buffer = buffer
  | some f, r =>
    if f.opens then
      if f.content.length ≤ f.readable then
        r.returns = true ∧ r.buffer = convertShebangToJSComment (buffer ++ f.content)
      else r.returns = false
    else r.returns = false ∧ r.buffer = buffer

def Right (path buffer : List UInt8) (r : Fetched) : Prop :=
  ∃ visited e, Ends fs.search path visited e ∧ r.calls = visited ∧ Fits buffer e r

def Ascii (path : List UInt8) : Prop := ∀ b ∈ path, b.toNat < 0x80

-- no error is taken for an answer, and a path that is passed on is passed on as it is
def Clear (path : List UInt8) : Prop :=
  match fs.status path with
  | .error => fs.firstExisting path = none
  | .missing => fs.firstExisting path ≠ none →
      Ascii path ∧ fs.status (path ++ ofString ".mjs") ≠ .error
  | .found n =>
    match fs.node n with
    | .directory _ => Ascii path
    | .file _ => True

def Straight (path : List UInt8) : Prop :=
  ∃ visited e, Ends fs.search path visited e ∧ (∀ q ∈ visited, fs.Clear q) ∧
    ∀ f ∈ e, f.opens = true ∧ f.content.length ≤ f.readable

-- what one call does, on bytes
def rereadPath (path : List UInt8) : List UInt8 := path.flatMap fun b => utf8Sequence b.toNat

def next (path : List UInt8) : Next (List UInt8) (Option File) :=
  match fs.status path with
  | .error => .stop none
  | .missing =>
    match fs.withExtension path extensions with
    | .found withExt => .again (rereadPath withExt)
    | _ => .stop none
  | .found n =>
    match fs.node n with
    | .directory _ => .again (rereadPath (append path index))
    | .file f => .stop (some f)

def finish (buffer : List UInt8) (r : List (List UInt8) × Option File) : Fetched :=
  match r.2 with
  | none => ⟨r.1, false, buffer⟩
  | some f => ⟨r.1, true, convertShebangToJSComment (buffer ++ streamed f)⟩

end FileSystem

section Bytes
open FileSystem

theorem utf8Sequence_latin1 {b : UInt8} (h : 0x80 ≤ b.toNat) :
    (utf8Sequence b.toNat).length = 2 ∧ ∀ c ∈ utf8Sequence b.toNat, 0x80 ≤ c.toNat := by
  have hlt := b.toNat_lt
  refine ⟨?_, utf8Sequence_wide h (by omega)⟩
  rw [utf8Sequence, if_neg (by omega), if_pos (by omega)]
  rfl

theorem utf8Sequence_low {b : UInt8} (h : b.toNat < 0x80) : utf8Sequence b.toNat = [b] := by
  rw [utf8Sequence_ascii h, UInt8.ofNat_toNat]

theorem rereadPath_append (p q : List UInt8) : rereadPath (p ++ q) = rereadPath p ++ rereadPath q :=
  List.flatMap_append

theorem rereadPath_cons (b : UInt8) (p : List UInt8) :
    rereadPath (b :: p) = utf8Sequence b.toNat ++ rereadPath p := List.flatMap_cons

theorem rereadPath_ascii {p : List UInt8} (h : Ascii p) : rereadPath p = p := by
  induction p with
  | nil => rfl
  | cons b p ih =>
    rw [rereadPath_cons, utf8Sequence_low (h b (List.mem_cons_self ..)),
      ih fun c hc => h c (List.mem_cons_of_mem b hc)]
    rfl

theorem rereadPath_length (p : List UInt8) : p.length ≤ (rereadPath p).length := by
  induction p with
  | nil => exact Nat.le_refl _
  | cons b p ih =>
    rw [rereadPath_cons, List.length_append, List.length_cons]
    rcases Nat.lt_or_ge b.toNat 0x80 with hlow | hwide
    · rw [utf8Sequence_low hlow, List.length_singleton]
      omega
    · rw [(utf8Sequence_latin1 hwide).1]
      omega

theorem rereadPath_longer {p : List UInt8} {b : UInt8} (hb : b ∈ p) (hwide : 0x80 ≤ b.toNat) :
    p.length < (rereadPath p).length := by
  obtain ⟨xs, ys, rfl⟩ := List.append_of_mem hb
  have hxs := rereadPath_length xs
  have hys := rereadPath_length ys
  rw [rereadPath_append, rereadPath_cons]
  simp only [List.length_append, List.length_cons, (utf8Sequence_latin1 hwide).1]
  omega

theorem rereadPath_eq_iff {p : List UInt8} : rereadPath p = p ↔ Ascii p := by
  refine ⟨fun h b hb => ?_, rereadPath_ascii⟩
  by_contra hwide
  have := rereadPath_longer hb (Nat.le_of_not_lt hwide)
  rw [h] at this
  omega

theorem mem_rereadPath {p : List UInt8} {c : UInt8} (h : c ∈ rereadPath p) : c ∈ p ∨ 0x80 ≤ c.toNat := by
  obtain ⟨b, hb, hc⟩ := List.mem_flatMap.mp h
  rcases Nat.lt_or_ge b.toNat 0x80 with hlow | hwide
  · rw [utf8Sequence_low hlow] at hc
    rw [List.mem_singleton.mp hc]
    exact .inl hb
  · exact .inr ((utf8Sequence_latin1 hwide).2 c hc)

theorem wide_rereadPath {p : List UInt8} {b : UInt8} (hb : b ∈ p) (hwide : 0x80 ≤ b.toNat) :
    ∃ c ∈ rereadPath p, 0x80 ≤ c.toNat := by
  obtain ⟨hlength, hall⟩ := utf8Sequence_latin1 hwide
  obtain ⟨c, hc⟩ := List.exists_mem_of_length_pos (by omega : 0 < (utf8Sequence b.toNat).length)
  exact ⟨c, List.mem_flatMap.mpr ⟨b, hb, hc⟩, hall c hc⟩

theorem utf8_fromLatin1 (p : List UInt8) : utf8 (fromLatin1 p) = rereadPath p := by
  induction p with
  | nil => rfl
  | cons b p ih =>
    have hlt := b.toNat_lt
    have hunit : (UInt16.ofNat b.toNat).toNat = b.toNat := by
      rw [UInt16.toNat_ofNat']
      omega
    have hunpaired : Unpaired (UInt16.ofNat b.toNat) (fromLatin1 p) := by
      intro d _
      rw [Bool.and_eq_false_iff, Bool.eq_false_iff]
      left
      intro hsurrogate
      have := surrogate_high hsurrogate
      omega
    rw [rereadPath_cons, ← ih, fromLatin1, List.map_cons, ← fromLatin1, utf8_cons hunpaired, hunit]

theorem data_of_nonzero {p : List UInt8} (h : 0 ∉ p) : data p = p := by
  rw [data, List.takeWhile_eq_self_iff]
  intro b hb
  rw [bne_iff_ne]
  rintro rfl
  exact h hb

theorem zero_not_mem_rereadPath {p : List UInt8} (h : 0 ∉ p) : 0 ∉ rereadPath p := by
  intro hz
  rcases mem_rereadPath hz with hz | hz
  · exact h hz
  · revert hz
    decide

theorem data_reread {p : List UInt8} (h : 0 ∉ p) : data (utf8 (fromLatin1 p)) = rereadPath p := by
  rw [utf8_fromLatin1, data_of_nonzero (zero_not_mem_rereadPath h)]

theorem zero_not_mem_data (p : List UInt8) : 0 ∉ data p := by
  intro h
  have := List.mem_takeWhile_imp h
  simp at this

theorem append_index (path : List UInt8) : append path index = Tree.append (byte '/') path index := by
  have hhead : index.head? ≠ some (byte '/') := by decide
  have hne : index.isEmpty = false := by decide
  rw [append, Tree.append, hne]
  simp only [Bool.false_eq_true, if_false, hhead, or_false, Bool.or_eq_true, List.isEmpty_iff,
    decide_eq_true_eq]

end Bytes

namespace FileSystem
variable {fs : FileSystem N}

theorem extension_nonzero {ext : List UInt8} (h : ext ∈ extensions) : 0 ∉ ext := by
  revert ext
  decide

theorem extension_ascii {ext : List UInt8} (h : ext ∈ extensions) : Ascii ext := by
  have hall : ∀ e ∈ extensions, ∀ b ∈ e, b.toNat < 0x80 := by decide +kernel
  exact hall ext h

theorem index_ascii : Ascii index := by
  rw [Ascii]
  decide +kernel

theorem slash_ascii : Ascii [byte '/'] := by
  rw [Ascii]
  decide +kernel

theorem ascii_append {p q : List UInt8} (hq : Ascii q) : Ascii (p ++ q) ↔ Ascii p := by
  rw [Ascii, List.forall_mem_append]
  exact and_iff_left hq

theorem ascii_append_index {p : List UInt8} : Ascii (Tree.append (byte '/') p index) ↔ Ascii p := by
  rw [Tree.append]
  split
  · exact ascii_append index_ascii
  · rw [← List.singleton_append, ← List.append_assoc, ascii_append index_ascii,
      ascii_append slash_ascii]

theorem existing_of_error {path : List UInt8} (h : fs.status path = .error) :
    fs.existing path = false := by rw [existing, h]

theorem existing_of_missing {path : List UInt8} (h : fs.status path = .missing) :
    fs.existing path = false := by rw [existing, h]

theorem withExtension_found {path q : List UInt8} {exts : List (List UInt8)}
    (h : fs.withExtension path exts = .found q) :
    ∃ ext ∈ exts, q = path ++ ext ∧ exts.find? (fun e => fs.existing (path ++ e)) = some ext := by
  induction exts with
  | nil => cases h
  | cons ext exts ih =>
    rw [withExtension] at h
    cases hs : fs.status (path ++ ext) with
    | error =>
      rw [hs] at h
      cases h
    | found n =>
      rw [hs] at h
      cases h
      have hexists : fs.existing (path ++ ext) = true := by rw [existing, hs]
      exact ⟨ext, List.mem_cons_self .., rfl, List.find?_cons_of_pos hexists⟩
    | missing =>
      rw [hs] at h
      obtain ⟨e, he, hq, hfind⟩ := ih h
      refine ⟨e, List.mem_cons_of_mem ext he, hq, ?_⟩
      rw [List.find?_cons, existing_of_missing hs]
      exact hfind

theorem existing_found {path : List UInt8} (h : fs.existing path = true) :
    ∃ n, fs.status path = .found n := by
  rw [existing] at h
  split at h
  · next n hn => exact ⟨n, hn⟩
  · cases h

theorem firstExisting_some {path ext : List UInt8} (h : fs.firstExisting path = some ext) :
    ext ∈ extensions ∧ ∃ n, fs.status (path ++ ext) = .found n := by
  have hexists : fs.existing (path ++ ext) = true := by simpa using List.find?_some h
  exact ⟨List.mem_of_find?_eq_some h, existing_found hexists⟩

theorem index_nonzero {path : List UInt8} (h : 0 ∉ path) : 0 ∉ append path index := by
  have hindex : 0 ∉ index := by decide
  have hslash : (0 : UInt8) ≠ byte '/' := by decide
  rw [append_index, Tree.append]
  split <;> simp [h, hindex, hslash]

theorem fetch_eq (fuel : Nat) (fileName : WString) (buffer : List UInt8) :
    fs.fetchModuleFromLocalFileSystem fuel fileName buffer =
      (follow fs.next fuel (data (utf8 fileName))).map (finish buffer) := by
  induction fuel generalizing fileName with
  | zero => rfl
  | succ fuel ih =>
    have hzero := zero_not_mem_data (utf8 fileName)
    rw [fetchModuleFromLocalFileSystem, follow, next]
    generalize data (utf8 fileName) = path at hzero ⊢
    have hagain {q : List UInt8} (hq : 0 ∉ q) :
        (fs.fetchModuleFromLocalFileSystem fuel (fromLatin1 q) buffer).map (Fetched.after path) =
          ((follow fs.next fuel (rereadPath q)).map fun r => (path :: r.1, r.2)).map (finish buffer) := by
      rw [ih, data_reread hq, Option.map_map, Option.map_map]
      congr 1
      funext r
      obtain ⟨calls, _ | f⟩ := r <;> rfl
    cases hs : fs.status path with
    | error => rfl
    | missing =>
      simp only
      cases hw : fs.withExtension path extensions with
      | missing => rfl
      | error => rfl
      | found q =>
        obtain ⟨ext, hext, rfl, -⟩ := withExtension_found hw
        have hext := extension_nonzero hext
        exact hagain (by simp [hzero, hext])
    | found n =>
      simp only
      cases hn : fs.node n with
      | file f => rfl
      | directory searchable => exact hagain (index_nonzero hzero)

-- the search comes to an end: from a directory it only goes down
theorem append_extension (path ext : List UInt8) :
    Tree.append (byte '/') path index ++ ext = Tree.append (byte '/') path (index ++ ext) := by
  rw [Tree.append, Tree.append]
  split <;> simp

theorem index_name {ext : List UInt8} (h : ext = [] ∨ ext ∈ extensions) :
    byte '/' ∉ index ++ ext ∧ kind (byte '.') (index ++ ext) = .name := by
  have hall : ∀ e ∈ [] :: extensions, byte '/' ∉ index ++ e ∧ kind (byte '.') (index ++ e) = .name := by
    decide
  exact hall ext (List.mem_cons.mpr h)

theorem index_descends {path ext : List UInt8} {n m : N} (hpath : fs.status path = .found n)
    (hext : ext = [] ∨ ext ∈ extensions)
    (h : fs.status (Tree.append (byte '/') path index ++ ext) = .found m) :
    fs.height m < fs.height n := by
  rw [append_extension] at h
  obtain ⟨hslash, hname⟩ := index_name hext
  exact Tree.status_descends hpath hslash hname h

theorem search_file {path : List UInt8} {n : N} {f : File} (hs : fs.status path = .found n)
    (hn : fs.node n = .file f) : fs.search path = .stop (some f) := by
  rw [search, hs]
  simp only [hn]

theorem search_directory {path : List UInt8} {n : N} {searchable : Bool}
    (hs : fs.status path = .found n) (hn : fs.node n = .directory searchable) :
    fs.search path = .again (Tree.append (byte '/') path index) := by
  rw [search, hs]
  simp only [hn]

theorem search_extension {path ext : List UInt8} (hs : ∀ n, fs.status path ≠ .found n)
    (hfirst : fs.firstExisting path = some ext) : fs.search path = .again (path ++ ext) := by
  rw [search]
  cases h : fs.status path with
  | missing => simp only [hfirst]
  | error => simp only [hfirst]
  | found n => exact absurd h (hs n)

theorem search_nothing {path : List UInt8} (hs : ∀ n, fs.status path ≠ .found n)
    (hfirst : fs.firstExisting path = none) : fs.search path = .stop none := by
  rw [search]
  cases h : fs.status path with
  | missing => simp only [hfirst]
  | error => simp only [hfirst]
  | found n => exact absurd h (hs n)

theorem ends_of_not_found {path : List UInt8} (h : ∀ n, fs.status path ≠ .found n)
    (hfound : ∀ ext ∈ extensions, ∀ n, fs.status (path ++ ext) = .found n →
      ∃ v e, Ends fs.search (path ++ ext) v e) : ∃ v e, Ends fs.search path v e := by
  cases hfirst : fs.firstExisting path with
  | none => exact ⟨_, _, ends_stop (search_nothing h hfirst)⟩
  | some ext =>
    obtain ⟨hext, n, hn⟩ := firstExisting_some hfirst
    obtain ⟨v, e, hv⟩ := hfound ext hext n hn
    exact ⟨_, _, ends_again (search_extension h hfirst) hv⟩

theorem search_ends_found {k : Nat} {path : List UInt8} {n : N} (hs : fs.status path = .found n)
    (hk : fs.height n < k) : ∃ v e, Ends fs.search path v e := by
  induction k generalizing path n with
  | zero => omega
  | succ k ih =>
    cases hn : fs.node n with
    | file f => exact ⟨_, _, ends_stop (search_file hs hn)⟩
    | directory searchable =>
      have hdown (ext : List UInt8) (hext : ext = [] ∨ ext ∈ extensions) (m : N)
          (hm : fs.status (Tree.append (byte '/') path index ++ ext) = .found m) :
          ∃ v e, Ends fs.search (Tree.append (byte '/') path index ++ ext) v e := by
        have := index_descends hs hext hm
        exact ih hm (by omega)
      have hindex : ∃ v e, Ends fs.search (Tree.append (byte '/') path index) v e := by
        by_cases hfound : ∃ m, fs.status (Tree.append (byte '/') path index) = .found m
        · obtain ⟨m, hm⟩ := hfound
          have := hdown [] (.inl rfl) m (by rw [List.append_nil]; exact hm)
          rwa [List.append_nil] at this
        · exact ends_of_not_found (fun m hm => hfound ⟨m, hm⟩) fun ext hext m hm =>
            hdown ext (.inr hext) m hm
      obtain ⟨v, e, hv⟩ := hindex
      exact ⟨_, _, ends_again (search_directory hs hn) hv⟩

theorem search_ends (path : List UInt8) : ∃ v e, Ends fs.search path v e := by
  by_cases hfound : ∃ n, fs.status path = .found n
  · obtain ⟨n, hn⟩ := hfound
    exact search_ends_found hn (Nat.lt_succ_self _)
  · exact ends_of_not_found (fun n hn => hfound ⟨n, hn⟩) fun ext _ n hn =>
      search_ends_found hn (Nat.lt_succ_self _)

theorem firstExisting_eq (path : List UInt8) :
    fs.firstExisting path =
      if fs.existing (path ++ ofString ".mjs") then some (ofString ".mjs")
      else if fs.existing (path ++ ofString ".js") then some (ofString ".js") else none := by
  rw [firstExisting, extensions, List.find?_cons, List.find?_cons, List.find?_nil]
  cases fs.existing (path ++ ofString ".mjs") <;> cases fs.existing (path ++ ofString ".js") <;> rfl

theorem withExtension_not_found {path : List UInt8}
    (h : ∀ q, fs.withExtension path extensions ≠ .found q) :
    fs.firstExisting path = none ∨ fs.status (path ++ ofString ".mjs") = .error := by
  cases hmjs : fs.status (path ++ ofString ".mjs") with
  | error => exact .inr rfl
  | found n =>
    refine absurd ?_ (h (path ++ ofString ".mjs"))
    rw [extensions, withExtension, hmjs]
  | missing =>
    left
    rw [firstExisting_eq, existing_of_missing hmjs]
    cases hjs : fs.status (path ++ ofString ".js") with
    | error => rw [existing_of_error hjs]; rfl
    | missing => rw [existing_of_missing hjs]; rfl
    | found n =>
      refine absurd ?_ (h (path ++ ofString ".js"))
      rw [extensions, withExtension, hmjs]
      simp only
      rw [withExtension, hjs]

theorem mjs_of_withExtension {path q : List UInt8} (h : fs.withExtension path extensions = .found q) :
    fs.status (path ++ ofString ".mjs") ≠ .error := by
  intro hmjs
  rw [extensions, withExtension, hmjs] at h
  cases h

-- what one call can do
inductive Calls (fs : FileSystem N) (path : List UInt8) : Next (List UInt8) (Option File) → Prop
  | file {n : N} {f : File} (hs : fs.status path = .found n) (hn : fs.node n = .file f) :
      Calls fs path (.stop (some f))
  | directory {n : N} {searchable : Bool} (hs : fs.status path = .found n)
      (hn : fs.node n = .directory searchable) :
      Calls fs path (.again (rereadPath (Tree.append (byte '/') path index)))
  | extension {ext : List UInt8} (hs : fs.status path = .missing)
      (hfirst : fs.firstExisting path = some ext)
      (hmjs : fs.status (path ++ ofString ".mjs") ≠ .error) :
      Calls fs path (.again (rereadPath (path ++ ext)))
  | nothing (hs : fs.status path = .missing)
      (hhidden : fs.firstExisting path = none ∨ fs.status (path ++ ofString ".mjs") = .error) :
      Calls fs path (.stop none)
  | throws (hs : fs.status path = .error) : Calls fs path (.stop none)

theorem next_calls (path : List UInt8) : fs.Calls path (fs.next path) := by
  rw [next]
  cases hs : fs.status path with
  | error => exact .throws hs
  | missing =>
    simp only
    cases hw : fs.withExtension path extensions with
    | missing => exact .nothing hs (withExtension_not_found (by simp [hw]))
    | error => exact .nothing hs (withExtension_not_found (by simp [hw]))
    | found q =>
      obtain ⟨ext, hext, rfl, hfirst⟩ := withExtension_found hw
      exact .extension hs hfirst (mjs_of_withExtension hw)
  | found n =>
    simp only
    cases hn : fs.node n with
    | file f => exact .file hs hn
    | directory searchable =>
      rw [append_index]
      exact .directory hs hn

theorem next_again {path q : List UInt8} (h : fs.next path = .again q) :
    ∃ r, fs.search path = .again r ∧ q = rereadPath r ∧ path <+: r ∧ (Ascii path → Ascii r) ∧
      ((∃ n, fs.status path = .found n) ∨ ∃ n, fs.status r = .found n) := by
  have hcalls := fs.next_calls path
  rw [h] at hcalls
  cases hcalls with
  | directory hs hn =>
    refine ⟨_, search_directory hs hn, rfl, ?_, ascii_append_index.mpr, .inl ⟨_, hs⟩⟩
    rw [Tree.append]
    split <;> exact List.prefix_append ..
  | extension hs hfirst =>
    obtain ⟨hext, hfound⟩ := firstExisting_some hfirst
    exact ⟨_, search_extension (by simp [hs]) hfirst, rfl, List.prefix_append ..,
      (ascii_append (extension_ascii hext)).mpr, .inr hfound⟩

theorem next_ends_ascii {path : List UInt8} (h : Ascii path) : ∃ v e, Ends fs.next path v e := by
  obtain ⟨v, e, hv⟩ := fs.search_ends path
  refine ends_of_ends (Q := Ascii) ?_ h hv
  intro p q hp hq
  obtain ⟨r, hr, rfl, -, hascii, -⟩ := next_again hq
  rw [rereadPath_ascii (hascii hp)]
  exact ⟨hr, hascii hp⟩

-- a name in the path that is not ASCII, at least this long: it grows with every call
def Stretch (path : List UInt8) (j : Nat) : Prop :=
  ∃ c, c <:+: path ∧ byte '/' ∉ c ∧ (∃ b ∈ c, 0x80 ≤ b.toNat) ∧ j ≤ c.length

theorem stretch_of_not_ascii {path : List UInt8} (h : ¬ Ascii path) : Stretch path 1 := by
  rw [Ascii] at h
  push Not at h
  obtain ⟨b, hb, hwide⟩ := h
  have hslash : byte '/' ∉ [b] := by
    intro hmem
    rw [← List.mem_singleton.mp hmem] at hwide
    revert hwide
    decide
  obtain ⟨xs, ys, rfl⟩ := List.append_of_mem hb
  have hin : [b] <:+: xs ++ b :: ys := ⟨xs, ys, by rw [List.append_assoc, List.singleton_append]⟩
  exact ⟨[b], hin, hslash, ⟨b, List.mem_singleton_self b, hwide⟩, Nat.le_refl _⟩

theorem stretch_grows {path : List UInt8} {j : Nat} (h : Stretch path j) :
    Stretch (rereadPath path) (j + 1) := by
  obtain ⟨c, ⟨a, z, rfl⟩, hslash, ⟨b, hb, hwide⟩, hj⟩ := h
  refine ⟨rereadPath c, ⟨rereadPath a, rereadPath z, ?_⟩, ?_, wide_rereadPath hb hwide, ?_⟩
  · rw [rereadPath_append, rereadPath_append]
  · intro hmem
    rcases mem_rereadPath hmem with hmem | hmem
    · exact hslash hmem
    · revert hmem
      decide
  · have := rereadPath_longer hb hwide
    omega

theorem stretch_le {path : List UInt8} {n : N} {j : Nat} (hs : fs.status path = .found n)
    (h : Stretch path j) : j ≤ fs.nameMax := by
  obtain ⟨c, hin, hslash, ⟨b, hb, hwide⟩, hj⟩ := h
  have hdot : b ≠ byte '.' := by
    rintro rfl
    revert hwide
    decide
  exact Nat.le_trans hj (Tree.status_infix_le hs hslash hin hb hdot)

theorem next_ends_wide {k : Nat} {path : List UInt8} {j : Nat} (h : Stretch path j)
    (hk : fs.nameMax < j + k) : ∃ v e, Ends fs.next path v e := by
  induction k generalizing path j with
  | zero =>
    cases hq : fs.next path with
    | stop e => exact ⟨_, _, ends_stop hq⟩
    | again q =>
      obtain ⟨r, -, -, ⟨more, rfl⟩, -, hfound⟩ := next_again hq
      have hr : Stretch (path ++ more) j := by
        obtain ⟨c, hin, hrest⟩ := h
        exact ⟨c, hin.trans (List.prefix_append ..).isInfix, hrest⟩
      rcases hfound with ⟨n, hn⟩ | ⟨n, hn⟩
      · have := stretch_le hn h
        omega
      · have := stretch_le hn hr
        omega
  | succ k ih =>
    cases hq : fs.next path with
    | stop e => exact ⟨_, _, ends_stop hq⟩
    | again q =>
      obtain ⟨r, -, rfl, ⟨more, rfl⟩, -, -⟩ := next_again hq
      have hr : Stretch (path ++ more) j := by
        obtain ⟨c, hin, hrest⟩ := h
        exact ⟨c, hin.trans (List.prefix_append ..).isInfix, hrest⟩
      obtain ⟨v, e, hv⟩ := ih (stretch_grows hr) (by omega)
      exact ⟨_, _, ends_again hq hv⟩

theorem next_ends (path : List UInt8) : ∃ v e, Ends fs.next path v e := by
  by_cases h : Ascii path
  · exact next_ends_ascii h
  · exact next_ends_wide (stretch_of_not_ascii h) (Nat.lt_add_of_pos_left (Nat.succ_pos 0))

theorem fetch_terminates (fileName : WString) (buffer : List UInt8) :
    ∃ visited e fuel, Ends fs.next (data (utf8 fileName)) visited e ∧
      fs.fetchModuleFromLocalFileSystem fuel fileName buffer = some (finish buffer (visited, e)) := by
  obtain ⟨visited, e, fuel, hfuel⟩ := fs.next_ends (data (utf8 fileName))
  refine ⟨visited, e, fuel, ⟨fuel, hfuel⟩, ?_⟩
  rw [fetch_eq, hfuel, Option.map_some]

theorem next_eq_search_iff {path : List UInt8} : fs.next path = fs.search path ↔ fs.Clear path := by
  have hcalls := fs.next_calls path
  generalize fs.next path = r at hcalls ⊢
  rw [Clear]
  cases hcalls with
  | file hs hn => simp [search_file hs hn, hs, hn]
  | directory hs hn =>
    rw [search_directory hs hn, Next.again.injEq, rereadPath_eq_iff, ascii_append_index]
    simp only [hs, hn]
  | extension hs hfirst hmjs =>
    obtain ⟨hext, -⟩ := firstExisting_some hfirst
    rw [search_extension (by simp [hs]) hfirst, Next.again.injEq, rereadPath_eq_iff,
      ascii_append (extension_ascii hext)]
    simp [hs, hfirst, hmjs]
  | nothing hs hhidden =>
    have hnot : ∀ n, fs.status path ≠ .found n := by simp [hs]
    cases hfirst : fs.firstExisting path with
    | none => simp [search_nothing hnot hfirst, hs]
    | some ext =>
      have hmjs := hhidden.resolve_left (by simp [hfirst])
      simp [search_extension hnot hfirst, hs, hmjs]
  | throws hs =>
    have hnot : ∀ n, fs.status path ≠ .found n := by simp [hs]
    cases hfirst : fs.firstExisting path with
    | none => simp [search_nothing hnot hfirst, hs]
    | some ext => simp [search_extension hnot hfirst, hs]

theorem search_stops_at_nothing {path : List UInt8} {e : Option File}
    (h : ∀ n, fs.status path ≠ .found n) (he : fs.search path = .stop e) : e = none := by
  cases hfirst : fs.firstExisting path with
  | none =>
    rw [search_nothing h hfirst] at he
    cases he
    rfl
  | some ext =>
    rw [search_extension h hfirst] at he
    cases he

theorem stops_agree {path : List UInt8} {d e : Option File} (hd : fs.next path = .stop d)
    (he : fs.search path = .stop e) : d = e := by
  have hcalls := fs.next_calls path
  rw [hd] at hcalls
  cases hcalls with
  | file hs hn =>
    rw [search_file hs hn] at he
    cases he
    rfl
  | nothing hs => exact (search_stops_at_nothing (by simp [hs]) he).symm
  | throws hs => exact (search_stops_at_nothing (by simp [hs]) he).symm

theorem fits_finish_iff {buffer : List UInt8} {visited : List (List UInt8)} {e : Option File} :
    Fits buffer e (finish buffer (visited, e)) ↔
      ∀ f ∈ e, f.opens = true ∧ f.content.length ≤ f.readable := by
  cases e with
  | none => simp [Fits, finish]
  | some f =>
    simp only [Fits, finish, streamed, Option.mem_some_iff, forall_eq']
    split
    · next hopens =>
      split
      · next hreadable => simp [hopens, hreadable, List.take_of_length_le hreadable]
      · next hcut => simp [hcut]
    · next hshut => simp [hshut]

theorem right_iff {path buffer : List UInt8} {r : Fetched} {visited : List (List UInt8)}
    {e : Option File} (h : Ends fs.search path visited e) :
    fs.Right path buffer r ↔ r.calls = visited ∧ Fits buffer e r := by
  constructor
  · rintro ⟨w, d, hw, hcalls, hfits⟩
    obtain ⟨rfl, rfl⟩ := ends_unique h hw
    exact ⟨hcalls, hfits⟩
  · rintro ⟨hcalls, hfits⟩
    exact ⟨visited, e, h, hcalls, hfits⟩

theorem straight_iff {path : List UInt8} {visited : List (List UInt8)} {e : Option File}
    (h : Ends fs.search path visited e) :
    fs.Straight path ↔ (∀ q ∈ visited, fs.Clear q) ∧
      ∀ f ∈ e, f.opens = true ∧ f.content.length ≤ f.readable := by
  constructor
  · rintro ⟨w, d, hw, hclear, hfile⟩
    obtain ⟨rfl, rfl⟩ := ends_unique h hw
    exact ⟨hclear, hfile⟩
  · rintro ⟨hclear, hfile⟩
    exact ⟨visited, e, h, hclear, hfile⟩

theorem fetches_right_iff (fs : FileSystem N) (fileName : WString) (buffer : List UInt8) :
    ∃ r, (∃ fuel, fs.fetchModuleFromLocalFileSystem fuel fileName buffer = some r) ∧
      (fs.Right (data (utf8 fileName)) buffer r ↔ fs.Straight (data (utf8 fileName))) := by
  obtain ⟨visited, d, fuel, hnext, hfetch⟩ := fs.fetch_terminates fileName buffer
  obtain ⟨w, e, hsearch⟩ := fs.search_ends (data (utf8 fileName))
  refine ⟨_, ⟨fuel, hfetch⟩, ?_⟩
  have hclear : (∀ q ∈ w, fs.Clear q) ↔ visited = w := by
    rw [← same_path_iff (fun _ _ _ => stops_agree) hnext hsearch]
    exact forall₂_congr fun _ _ => next_eq_search_iff.symm
  have hcalls : (finish buffer (visited, d)).calls = visited := by cases d <;> rfl
  rw [right_iff hsearch, straight_iff hsearch, hclear, hcalls]
  refine and_congr_right fun hsame => ?_
  subst hsame
  rw [ends_agree (fun _ _ _ => stops_agree) hnext hsearch]
  exact fits_finish_iff

-- a file that may not be read, and a directory with a name that is not ASCII
def locked : FileSystem (Fin 4) where
  root := 0
  cwd := 0
  parent _ := 0
  node
    | 1 => .file ⟨ofString "1", false, 0⟩
    | 3 => .file ⟨ofString "3", true, 1⟩
    | _ => .directory true
  entry n name :=
    if n = 0 ∧ name = ofString "a" then .found 1
    else if n = 0 ∧ name = [0xC3, 0xA9] then .found 2
    else if n = 2 ∧ name = ofString "index.js" then .found 3
    else .missing
  pathMax := 4096
  nameMax := 255
  height n := 3 - n.val
  descends := by
    intro n name m h
    split at h
    · next hn => cases h; rw [hn.1]; decide
    · split at h
      · next hn => cases h; rw [hn.1]; decide
      · split at h
        · next hn => cases h; rw [hn.1]; decide
        · cases h
  name_le := by
    intro n name m h
    split at h
    · next hn => rw [hn.2]; decide
    · split at h
      · next hn => rw [hn.2]; decide
      · split at h
        · next hn => rw [hn.2]; decide
        · cases h

theorem locked_module_fetched :
    locked.fetchModuleFromLocalFileSystem 1 (text "a") [] = some ⟨[ofString "a"], true, []⟩ ∧
      ¬ locked.Right (data (utf8 (text "a"))) [] ⟨[ofString "a"], true, []⟩ ∧
      locked.fetchModuleFromLocalFileSystem 2 [0xE9] [] =
        some ⟨[[0xC3, 0xA9], [0xC3, 0x83, 0xC2, 0xA9] ++ ofString "/index"], false, []⟩ ∧
      ¬ locked.Right (data (utf8 [0xE9])) []
        ⟨[[0xC3, 0xA9], [0xC3, 0x83, 0xC2, 0xA9] ++ ofString "/index"], false, []⟩ := by
  refine ⟨by decide, ?_, by decide, ?_⟩
  · have hsearch : Ends locked.search (data (utf8 (text "a"))) [ofString "a"]
        (some ⟨ofString "1", false, 0⟩) := ⟨1, by decide⟩
    rw [right_iff hsearch]
    simp [Fits]
  · have hsearch : Ends locked.search (data (utf8 [0xE9]))
        [[0xC3, 0xA9], [0xC3, 0xA9] ++ ofString "/index", [0xC3, 0xA9] ++ ofString "/index.js"]
        (some ⟨ofString "3", true, 1⟩) := ⟨3, by decide⟩
    rw [right_iff hsearch]
    exact fun h => absurd h.1 (by decide)

end FileSystem

end NexusRuntime.Modules
