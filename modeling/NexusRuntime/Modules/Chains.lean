import NexusRuntime.Modules.Fetch

namespace NexusRuntime.Modules

open Path

inductive Import where
  | declared (specifier : WString)
  | called (specifier : WString)
deriving DecidableEq, Repr

namespace Import

def resolve (scriptPath referrer : WString) : Import → Except WString PropertyKey
  | declared m => moduleLoaderResolve scriptPath (.string m) (some (.string referrer))
  | called m => moduleLoaderImportModule (some referrer) m

def isLocal : Import → Bool
  | declared m => (schemeOf m).isEmpty
  | called _ => true

def target : Import → Bool × Route WString
  | declared m => destination (keptPart m)
  | called m => destination m

theorem target_names (m : Import) : ∀ p ∈ m.target.2.names, pathSeparator ∉ p ∧ kind dot p = .name := by
  cases m with
  | declared m => exact destination_names (keptPart m)
  | called m => exact destination_names m

end Import

-- each module is the referrer of the next
def importChain (scriptPath : WString) : WString → List Import → Except WString PropertyKey
  | referrer, [] => .ok (.string referrer)
  | referrer, m :: ms =>
    match m.resolve scriptPath referrer with
    | .ok (.string key) => importChain scriptPath key ms
    | .ok (.symbol uid) => .ok (.symbol uid)
    | .error e => .error e

structure Place where
  names : List WString
  plain : ∀ p ∈ names, pathSeparator ∉ p ∧ kind dot p = .name

namespace Place

def pieces (p : Place) (doubled : Bool) : List WString := if doubled then [] :: p.names else p.names

def keyWith (p : Place) (doubled : Bool) : WString :=
  pathSeparator :: join pathSeparator (p.pieces doubled)

def key (p : Place) : WString := p.keyWith false

def directory (p : Place) : List WString := p.names.dropLast

def next (p : Place) (m : Import) : Place where
  names := Route.from m.target p.directory
  plain := by
    intro q hq
    rcases List.mem_append.mp hq with hq | hq
    · have hdir : q ∈ p.directory := by
        cases hr : m.target.1 with
        | true => simp [hr] at hq
        | false => exact List.take_subset _ _ (by simpa only [hr, Bool.false_eq_true, if_false] using hq)
      exact p.plain q (List.dropLast_subset _ hdir)
    · exact m.target_names q hq

def reach (p : Place) (ms : List Import) : Place := ms.foldl next p

def stays (p : Place) (m : Import) : Bool :=
  !m.target.1 && decide (m.target.2.climb ≤ p.directory.length)

def StaysAlong : Place → List Import → Prop
  | _, [] => True
  | p, m :: ms => p.stays m = true ∧ (p.next m).StaysAlong ms

-- a module of the root directory imports another one below it, and the imports after that stay below it
def FromRoot (p : Place) (ms : List Import) : Prop :=
  (p.reach ms).names ≠ [] ∧ ∃ before m after, ms = before ++ m :: after ∧
    (p.reach before).directory = [] ∧ (p.reach before).StaysAlong (m :: after)

def doubledAlong : Place → Bool → List Import → Bool
  | _, doubled, [] => doubled
  | p, doubled, m :: ms =>
    (p.next m).doubledAlong (p.stays m && (doubled || p.directory.isEmpty)) ms

end Place

theorem join_snoc {ps : List WString} (h : ps ≠ []) (b : WString) :
    join pathSeparator (ps ++ [b]) = join pathSeparator ps ++ pathSeparator :: b := by
  induction ps with
  | nil => exact absurd rfl h
  | cons p ps ih =>
    cases ps with
    | nil => rw [List.singleton_append, join_cons _ _ (by simp), join_singleton, join_singleton]
    | cons q qs =>
      rw [List.cons_append, join_cons _ _ (by simp), ih (by simp), join_cons _ p (by simp),
        List.append_assoc, List.cons_append]

theorem extractDirectoryName_join {ps : List WString} (h : ∀ p ∈ ps, pathSeparator ∉ p) :
    ∃ q, extractDirectoryName (pathSeparator :: join pathSeparator ps) = some ⟨[pathSeparator], q⟩ ∧
      split pathSeparator q = if ps.dropLast = [] then [[]] else ps.dropLast := by
  rcases List.eq_nil_or_concat ps with rfl | ⟨init, b, rfl⟩
  · exact ⟨[], by decide, by simp⟩
  · rw [List.concat_eq_append] at h ⊢
    rw [List.dropLast_concat]
    have hb : pathSeparator ∉ b := h b (by simp)
    by_cases hinit : init = []
    · subst hinit
      refine ⟨[], ?_, by simp⟩
      rw [List.nil_append, join_singleton]
      exact extractDirectoryName_root (a := []) (by simp) hb
    · refine ⟨join pathSeparator init, ?_, ?_⟩
      · rw [join_snoc hinit]
        exact extractDirectoryName_deep (a := []) (by simp) hb
      · rw [if_neg hinit]
        exact split_join pathSeparator (fun p hp => h p (List.mem_append_left _ hp)) hinit

namespace Place
variable {p : Place} {ms : List Import}

theorem pieces_plain (p : Place) (doubled : Bool) : ∀ x ∈ p.pieces doubled, pathSeparator ∉ x := by
  intro x hx
  cases doubled with
  | true =>
    rcases List.mem_cons.mp hx with rfl | hx
    · simp
    · exact (p.plain x hx).1
  | false => exact (p.plain x hx).1

theorem pieces_directory (p : Place) (doubled : Bool) :
    (if (p.pieces doubled).dropLast = [] then [[]] else (p.pieces doubled).dropLast) =
      if doubled || p.directory.isEmpty then [] :: p.directory else p.directory := by
  rw [directory]
  cases doubled with
  | true => cases hn : p.names <;> simp [pieces, hn]
  | false =>
    by_cases hd : p.names.dropLast = [] <;> simp [pieces, hd]

theorem from_doubled (target : Bool × Route WString) (dir : List WString) :
    Route.from target ([] :: dir) =
      if !target.1 && decide (target.2.climb ≤ dir.length) then [] :: Route.from target dir
      else Route.from target dir := by
  obtain ⟨rooted, r⟩ := target
  cases rooted with
  | true => rfl
  | false =>
    by_cases hclimb : r.climb ≤ dir.length
    · have hlen : dir.length + 1 - r.climb = (dir.length - r.climb) + 1 := by omega
      simp [Route.from, Route.follow, hclimb, hlen]
    · have hlong : dir.length + 1 - r.climb = 0 := by omega
      have hshort : dir.length - r.climb = 0 := by omega
      simp [Route.from, Route.follow, hclimb, hlong, hshort]

theorem resolve_target (scriptPath : WString) (p : Place) (doubled : Bool) (m : Import)
    (hm : m.isLocal = true) :
    m.resolve scriptPath (p.keyWith doubled) =
      .ok (.string (pathSeparator :: join pathSeparator (Route.from m.target
        (if doubled || p.directory.isEmpty then [] :: p.directory else p.directory)))) := by
  obtain ⟨q, hdir, hsplit⟩ := extractDirectoryName_join (p.pieces_plain doubled)
  rw [pieces_directory] at hsplit
  cases m with
  | declared m =>
    rw [Import.resolve, moduleLoaderResolve_key, if_pos (List.isEmpty_iff.mp hm), importModule_some,
      keyWith, hdir]
    simp only [resolvePath_destination, hsplit]
    rfl
  | called m =>
    rw [Import.resolve, importModule_some, keyWith, hdir]
    simp only [resolvePath_destination, hsplit]
    rfl

theorem resolve_next (scriptPath : WString) (p : Place) (doubled : Bool) (m : Import)
    (hm : m.isLocal = true) :
    m.resolve scriptPath (p.keyWith doubled) =
      .ok (.string ((p.next m).keyWith (p.stays m && (doubled || p.directory.isEmpty)))) := by
  rw [resolve_target scriptPath p doubled m hm]
  cases hd : (doubled || p.directory.isEmpty) with
  | true =>
    simp only [if_true, Bool.and_true, from_doubled]
    cases hs : p.stays m with
    | true =>
      rw [stays] at hs
      rw [hs]
      rfl
    | false =>
      rw [stays] at hs
      rw [hs]
      rfl
  | false =>
    simp only [Bool.false_eq_true, if_false, Bool.and_false]
    rfl

theorem importChain_key (scriptPath : WString) (p : Place) (doubled : Bool)
    (hms : ∀ m ∈ ms, m.isLocal = true) :
    importChain scriptPath (p.keyWith doubled) ms =
      .ok (.string ((p.reach ms).keyWith (p.doubledAlong doubled ms))) := by
  induction ms generalizing p doubled with
  | nil => rfl
  | cons m ms ih =>
    rw [importChain, resolve_next scriptPath p doubled m (hms m (List.mem_cons_self ..))]
    exact ih _ _ fun x hx => hms x (List.mem_cons_of_mem m hx)

theorem doubledAlong_iff (p : Place) (doubled : Bool) (ms : List Import) :
    p.doubledAlong doubled ms = true ↔ doubled = true ∧ p.StaysAlong ms ∨
      ∃ before m after, ms = before ++ m :: after ∧ (p.reach before).directory = [] ∧
        (p.reach before).StaysAlong (m :: after) := by
  induction ms generalizing p doubled with
  | nil => simp [doubledAlong, StaysAlong]
  | cons m ms ih =>
    rw [doubledAlong, ih]
    simp only [Bool.and_eq_true, Bool.or_eq_true, List.isEmpty_iff]
    constructor
    · rintro (⟨⟨hstays, hd | hroot⟩, hrest⟩ | ⟨before, n, after, rfl, hroot, hrest⟩)
      · exact .inl ⟨hd, hstays, hrest⟩
      · exact .inr ⟨[], m, ms, rfl, hroot, hstays, hrest⟩
      · exact .inr ⟨m :: before, n, after, rfl, hroot, hrest⟩
    · rintro (⟨hd, hstays, hrest⟩ | ⟨before, n, after, heq, hroot, hrest⟩)
      · exact .inl ⟨⟨hstays, .inl hd⟩, hrest⟩
      · cases before with
        | nil =>
          obtain ⟨rfl, rfl⟩ := List.cons.inj heq
          exact .inl ⟨⟨hrest.1, .inr hroot⟩, hrest.2⟩
        | cons x before =>
          obtain ⟨rfl, rfl⟩ := List.cons.inj heq
          exact .inr ⟨before, n, after, rfl, hroot, hrest⟩

theorem fromRoot_iff : p.FromRoot ms ↔ (p.reach ms).names ≠ [] ∧ p.doubledAlong false ms = true := by
  rw [doubledAlong_iff]
  simp [FromRoot]

theorem keyWith_doubled (p : Place) (h : p.names ≠ []) :
    p.keyWith true = pathSeparator :: p.key := by
  rw [keyWith, pieces, if_pos rfl, join_cons _ _ h]
  rfl

theorem keyWith_nil (h : p.names = []) (doubled : Bool) : p.keyWith doubled = p.key := by
  cases doubled with
  | true => simp [key, keyWith, pieces, h]
  | false => rfl

theorem keyWith_inj_iff (p : Place) (a b : Bool) :
    p.keyWith a = p.keyWith b ↔ (p.names ≠ [] ∧ a = true ↔ p.names ≠ [] ∧ b = true) := by
  by_cases hn : p.names = []
  · simp [keyWith_nil hn, hn]
  · have hne : p.keyWith true ≠ p.keyWith false := by
      rw [keyWith_doubled p hn]
      intro h
      have := congrArg List.length h
      simp only [key, List.length_cons] at this
      omega
    cases a <;> cases b <;> simp [hn, hne, hne.symm]

theorem normalise_keyWith (p : Place) (doubled : Bool) :
    normalise pathSeparator dot (p.keyWith doubled) = p.key := by
  have hwalk : walk (kind dot) [] p.names = p.names :=
    (walk_of_names (kind dot) fun x hx => (p.plain x hx).2).trans (List.nil_append _)
  have hskip : walk (kind dot) [] (p.pieces doubled) = p.names := by
    cases doubled with
    | true =>
      rw [pieces, if_pos rfl, walk_skip (by decide)]
      exact hwalk
    | false => exact hwalk
  rw [normalise, keyWith, split_cons_self, walk_skip (by decide)]
  by_cases hp : p.pieces doubled = []
  · have hnames : p.names = [] := by
      rw [← hskip, hp]
      rfl
    have hkey : p.key = pathSeparator :: join pathSeparator p.names := rfl
    rw [hp, hkey, hnames, join_nil, split_nil, walk_skip (by decide)]
    rfl
  · rw [split_join pathSeparator (p.pieces_plain doubled) hp, hskip]
    rfl

end Place

section Files
variable {N : Type} (fs : FileSystem N)

theorem status_slash {path : List UInt8} (hhead : path.head? = some (byte '/'))
    (hlen : path.length < fs.pathMax) : fs.status (byte '/' :: path) = fs.status path := by
  obtain ⟨rest, rfl⟩ : ∃ rest, path = byte '/' :: rest := by
    cases path with
    | nil => simp at hhead
    | cons x xs => exact ⟨xs, by simpa using hhead⟩
  have hlong : ¬ fs.pathMax < (byte '/' :: byte '/' :: rest).length := by
    rw [List.length_cons]
    omega
  have hshort : ¬ fs.pathMax < (byte '/' :: rest).length := by omega
  have hbase : ∀ s, fs.base (byte '/') (byte '/' :: s) = fs.root := by
    intro s
    simp [Tree.base]
  simp only [FileSystem.status, Tree.status, if_neg hlong, if_neg hshort, hbase, split_cons_self,
    List.cons_ne_nil, if_false]
  have henter : fs.enter (byte '.') fs.root [] = .found fs.root ∨
      fs.enter (byte '.') fs.root [] = .missing := by
    rw [Tree.enter]
    cases fs.node fs.root <;> simp
  rcases henter with h | h
  · simp [Tree.walk, h, Lookup.bind]
  · simp [Tree.walk, h, Lookup.bind]

theorem utf8_root (key : WString) : utf8 (pathSeparator :: key) = byte '/' :: utf8 key := by
  cases key with
  | nil => rfl
  | cons d rest =>
    have hlow : isSurrogate true pathSeparator = false := by decide
    simp [utf8, hlow]
    rfl

theorem data_root (key : WString) :
    data (utf8 (pathSeparator :: key)) = byte '/' :: data (utf8 key) := by
  have hne : byte '/' ≠ 0 := by decide
  rw [utf8_root]
  simp [data, hne]

theorem status_keyWith (p : Place) (doubled : Bool)
    (hlen : (data (utf8 p.key)).length < fs.pathMax) :
    fs.status (data (utf8 (p.keyWith doubled))) = fs.status (data (utf8 p.key)) := by
  cases doubled with
  | false => rfl
  | true =>
    by_cases hn : p.names = []
    · rw [Place.keyWith_nil hn]
    · rw [Place.keyWith_doubled p hn, data_root]
      apply status_slash fs _ hlen
      rw [Place.key, Place.keyWith, data_root]
      rfl

end Files

theorem chains_agree_iff (scriptPath : WString) (p q : Place) (ms ns : List Import)
    (hms : ∀ m ∈ ms, m.isLocal = true) (hns : ∀ n ∈ ns, n.isLocal = true)
    (hreach : p.reach ms = q.reach ns) :
    ∃ k l, importChain scriptPath p.key ms = .ok (.string k) ∧
      importChain scriptPath q.key ns = .ok (.string l) ∧
      normalise pathSeparator dot k = (p.reach ms).key ∧
      normalise pathSeparator dot l = (p.reach ms).key ∧
      (∀ {N : Type} (fs : FileSystem N), (data (utf8 (p.reach ms).key)).length < fs.pathMax →
        fs.status (data (utf8 k)) = fs.status (data (utf8 l))) ∧
      (k = l ↔ (p.FromRoot ms ↔ q.FromRoot ns)) := by
  refine ⟨_, _, Place.importChain_key scriptPath p false hms,
    Place.importChain_key scriptPath q false hns, Place.normalise_keyWith _ _, ?_, ?_, ?_⟩
  · rw [hreach]
    exact Place.normalise_keyWith _ _
  · intro N fs hlen
    rw [← hreach, status_keyWith fs _ _ hlen, status_keyWith fs _ _ hlen]
  · rw [Place.fromRoot_iff, Place.fromRoot_iff, ← hreach]
    exact Place.keyWith_inj_iff _ _ _

def rootModule : Place := ⟨[text "main.mjs"], by decide⟩

theorem chains_agree_iff_root :
    ∃ k l, importChain [] rootModule.key [.declared (text "./a.mjs")] = .ok (.string k) ∧
      importChain [] rootModule.key [.called (text "/a.mjs")] = .ok (.string l) ∧ k ≠ l := by
  have hfrom : rootModule.FromRoot [.declared (text "./a.mjs")] := Place.fromRoot_iff.mpr (by decide)
  have hrooted : ¬ rootModule.FromRoot [.called (text "/a.mjs")] := by
    rw [Place.fromRoot_iff]
    decide
  have hreach : rootModule.reach [.declared (text "./a.mjs")] = rootModule.reach [.called (text "/a.mjs")] := by
    rw [Place.mk.injEq]
    decide
  obtain ⟨k, l, hk, hl, -, -, -, hagree⟩ :=
    chains_agree_iff [] rootModule rootModule [.declared (text "./a.mjs")] [.called (text "/a.mjs")] (by decide) (by decide)
      hreach
  exact ⟨k, l, hk, hl, fun h => hrooted ((hagree.mp h).mp hfrom)⟩

end NexusRuntime.Modules
