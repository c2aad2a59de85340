import NexusRuntime.Path.Lexical

namespace NexusRuntime.Modules

open Path

abbrev WString := List UInt16

def text (s : String) : WString := s.toList.map fun c => UInt16.ofNat c.toNat

def pathSeparator : UInt16 := 0x2F

def dot : UInt16 := 0x2E

def splitAllowingEmptyEntries (s : WString) (separator : UInt16) : List WString := s.splitOn separator

def find (s : WString) (c : UInt16) : Option Nat := s.findIdx? (· == c)

def reverseFind (s : WString) (c : UInt16) : Option Nat :=
  (s.reverse.findIdx? (· == c)).map fun i => s.length - 1 - i

def substring (s : WString) (start length : Nat) : WString := (s.drop start).take length

structure DirectoryName where
  rootName : WString
  queryName : WString
deriving DecidableEq, Repr

structure ModuleName where
  queries : List WString
deriving DecidableEq, Repr

def moduleName (name : WString) : ModuleName := ⟨splitAllowingEmptyEntries name pathSeparator⟩

def ModuleName.startsWithRoot (m : ModuleName) : Bool :=
  match m.queries with
  | [] => false
  | query :: _ => query.isEmpty

def extractDirectoryName (absolutePathToFile : WString) : Option DirectoryName :=
  match find absolutePathToFile pathSeparator, reverseFind absolutePathToFile pathSeparator with
  | some first, some last =>
    some
      { rootName := substring absolutePathToFile 0 (first + 1)
        queryName :=
          if first = last then []
          else substring absolutePathToFile (first + 1) (last - (first + 1)) }
  | _, _ => none

def resolveQuery (directoryPieces : List WString) (query : WString) : List WString :=
  if query = [dot, dot] then
    if directoryPieces.isEmpty then directoryPieces else directoryPieces.dropLast
  else if !query.isEmpty && query ≠ [dot] then directoryPieces ++ [query]
  else directoryPieces

def resolvePath (directoryName : DirectoryName) (m : ModuleName) : WString :=
  let directoryPieces := splitAllowingEmptyEntries directoryName.queryName pathSeparator
  let directoryPieces := if m.startsWithRoot then [] else directoryPieces
  let directoryPieces := m.queries.foldl resolveQuery directoryPieces
  directoryName.rootName ++ [pathSeparator].intercalate directoryPieces

theorem resolveQuery_eq_move (pieces : List WString) (query : WString) :
    resolveQuery pieces query = move (kind dot) pieces query := by
  unfold resolveQuery move kind
  by_cases hup : query = [dot, dot]
  · subst hup
    cases pieces <;> simp
  · by_cases hskip : query = [] ∨ query = [dot]
    · rcases hskip with rfl | rfl <;> simp
    · have hne : query ≠ [] := fun h => hskip (.inl h)
      have hdot : query ≠ [dot] := fun h => hskip (.inr h)
      simp [hup, hne, hdot]

def directoryPieces (d : DirectoryName) (m : ModuleName) : List WString :=
  if m.startsWithRoot then [] else split pathSeparator d.queryName

theorem resolvePath_eq (d : DirectoryName) (m : ModuleName) :
    resolvePath d m =
      d.rootName ++ join pathSeparator ((route (kind dot) m.queries).follow (directoryPieces d m)) := by
  have hfold : m.queries.foldl resolveQuery (directoryPieces d m) =
      walk (kind dot) (directoryPieces d m) m.queries := by
    have : resolveQuery = move (kind dot) := by
      funext pieces query
      exact resolveQuery_eq_move pieces query
    rw [this]
    rfl
  rw [follow_route, ← hfold]
  rfl

section Directory
variable {a b q : WString}

theorem find_root (ha : pathSeparator ∉ a) (s : WString) :
    find (a ++ pathSeparator :: s) pathSeparator = some a.length := by
  have hnone : a.findIdx? (· == pathSeparator) = none := by
    rw [List.findIdx?_eq_none_iff]
    intro x hx
    simp only [beq_eq_false_iff_ne]
    rintro rfl
    exact ha hx
  simp [find, List.findIdx?_append, hnone, List.findIdx?_cons]

theorem reverseFind_last (hb : pathSeparator ∉ b) (s : WString) :
    reverseFind (s ++ pathSeparator :: b) pathSeparator = some s.length := by
  have hrev : pathSeparator ∉ b.reverse := by simpa using hb
  have hs : (s ++ pathSeparator :: b).reverse = b.reverse ++ pathSeparator :: s.reverse := by simp
  have hfind := find_root hrev s.reverse
  rw [find] at hfind
  rw [reverseFind, hs, hfind]
  simp

theorem extractDirectoryName_root (ha : pathSeparator ∉ a) (hb : pathSeparator ∉ b) :
    extractDirectoryName (a ++ pathSeparator :: b) = some ⟨a ++ [pathSeparator], []⟩ := by
  rw [extractDirectoryName, find_root ha, reverseFind_last hb]
  simp [substring, List.take_append, List.take_of_length_le]

theorem extractDirectoryName_deep (ha : pathSeparator ∉ a) (hb : pathSeparator ∉ b) :
    extractDirectoryName (a ++ pathSeparator :: (q ++ pathSeparator :: b)) =
      some ⟨a ++ [pathSeparator], q⟩ := by
  have hlast : reverseFind (a ++ pathSeparator :: (q ++ pathSeparator :: b)) pathSeparator =
      some (a.length + (q.length + 1)) := by
    have h := reverseFind_last hb (a ++ pathSeparator :: q)
    simpa [Nat.add_assoc] using h
  rw [extractDirectoryName, find_root ha, hlast]
  have hne : ¬ a.length = a.length + (q.length + 1) := by omega
  have hlen : a.length + (q.length + 1) - (a.length + 1) = q.length := by omega
  simp only [if_neg hne, hlen]
  simp [substring, List.take_append, List.take_of_length_le]

end Directory

theorem split_at_last {s : WString} (h : pathSeparator ∈ s) :
    ∃ q b, s = q ++ pathSeparator :: b ∧ pathSeparator ∉ b := by
  have hrev : pathSeparator ∈ s.reverse := by simpa using h
  obtain ⟨b, q, hs, hb⟩ := List.eq_append_cons_of_mem hrev
  refine ⟨q.reverse, b.reverse, ?_, by simpa using hb⟩
  have := congrArg List.reverse hs
  simpa using this

theorem startsWithRoot_iff {m : WString} (hm : m ≠ []) :
    (moduleName m).startsWithRoot = true ↔ m.head? = some pathSeparator := by
  cases m with
  | nil => exact absurd rfl hm
  | cons x xs =>
    by_cases hx : x = pathSeparator
    · subst hx
      have hq : (moduleName (pathSeparator :: xs)).queries = [] :: split pathSeparator xs :=
        split_cons_self pathSeparator xs
      simp [ModuleName.startsWithRoot, hq]
    · have hq : (moduleName (x :: xs)).queries = (split pathSeparator xs).modifyHead (x :: ·) :=
        split_cons_of_ne _ hx xs
      cases hxs : split pathSeparator xs with
      | nil => exact absurd hxs (split_ne_nil pathSeparator xs)
      | cons p ps => simp [ModuleName.startsWithRoot, hq, hxs, hx]

def lexicalPath (f m : WString) : WString :=
  if m.head? = some pathSeparator then normalise pathSeparator dot m
  else normalise pathSeparator dot (dirname pathSeparator f ++ pathSeparator :: m)

def folders (f : WString) : List WString :=
  match extractDirectoryName f with
  | some d => split pathSeparator d.queryName
  | none => []

def specifierRoute (m : WString) : Route WString := route (kind dot) (split pathSeparator m)

def Settles (f m : WString) : Prop :=
  m.head? = some pathSeparator ∨ (∀ p ∈ folders f, kind dot p = .name) ∨
    (folders f).length ≤ (specifierRoute m).climb ∨
    ((folders f).head? = some [] ∧ (specifierRoute m).climb + 1 = (folders f).length ∧
      (specifierRoute m).names = [])

theorem walk_skip {p : WString} (hp : kind dot p = .skip) (ps : List WString) :
    walk (kind dot) [] (p :: ps) = walk (kind dot) [] ps := by
  simp [walk, move, hp]

theorem absolute_directory {f : WString} (hf : f.head? = some pathSeparator) :
    ∃ q, extractDirectoryName f = some ⟨[pathSeparator], q⟩ ∧
      walk (kind dot) [] (split pathSeparator (dirname pathSeparator f)) =
        walk (kind dot) [] (split pathSeparator q) := by
  obtain ⟨rest, rfl⟩ : ∃ rest, f = pathSeparator :: rest := by
    cases f with
    | nil => simp at hf
    | cons x xs => exact ⟨xs, by simpa using hf⟩
  have hsep : split pathSeparator [pathSeparator] = [[], []] := by decide
  by_cases hrest : pathSeparator ∈ rest
  · obtain ⟨q, b, rfl, hb⟩ := split_at_last hrest
    refine ⟨q, extractDirectoryName_deep (a := []) (by simp) hb, ?_⟩
    have hsplit : split pathSeparator (pathSeparator :: (q ++ pathSeparator :: b)) =
        split pathSeparator (pathSeparator :: q) ++ [b] := by
      have := split_append pathSeparator (pathSeparator :: q) b
      rwa [split_of_not_mem pathSeparator hb] at this
    have hdir : dirname pathSeparator (pathSeparator :: (q ++ pathSeparator :: b)) =
        pathSeparator :: q := by
      rw [dirname, hsplit, List.dropLast_concat, join_split]
      simp
    rw [hdir, split_cons_self, walk_skip (by decide)]
  · refine ⟨[], extractDirectoryName_root (a := []) (by simp) hrest, ?_⟩
    have hsplit : split pathSeparator (pathSeparator :: rest) = [[], rest] := by
      have := split_append pathSeparator [] rest
      rwa [split_of_not_mem pathSeparator hrest] at this
    have hdir : dirname pathSeparator (pathSeparator :: rest) = [pathSeparator] := by
      simp [dirname, hsplit]
    rw [hdir, hsep]
    rfl

theorem join_follow_iff {pieces : List WString} {r : Route WString} (hne : pieces ≠ [])
    (hpieces : ∀ p ∈ pieces, pathSeparator ∉ p)
    (hnames : ∀ p ∈ r.names, pathSeparator ∉ p ∧ kind dot p = .name) :
    join pathSeparator (r.follow pieces) =
        join pathSeparator (r.follow (walk (kind dot) [] pieces)) ↔
      (∀ p ∈ pieces, kind dot p = .name) ∨ pieces.length ≤ r.climb ∨
        (pieces.head? = some [] ∧ r.climb + 1 = pieces.length ∧ r.names = []) := by
  have hlen : (walk (kind dot) [] pieces).length ≤ pieces.length := by
    simpa using walk_length_le (kind dot) [] pieces
  constructor
  · intro h
    by_cases hshort : pieces.length ≤ r.climb
    · exact .inr (.inl hshort)
    have hkept : ∀ p ∈ r.follow pieces, pathSeparator ∉ p := by
      intro p hp
      rcases List.mem_append.mp hp with hp | hp
      · exact hpieces p (List.take_subset _ _ hp)
      · exact (hnames p hp).1
    have hnormal : ∀ p ∈ r.follow (walk (kind dot) [] pieces), pathSeparator ∉ p := by
      intro p hp
      rcases List.mem_append.mp hp with hp | hp
      · exact walk_kept (kind dot) (by simp) (fun q hq _ => hpieces q hq) p (List.take_subset _ _ hp)
      · exact (hnames p hp).1
    have htake : (pieces.take (pieces.length - r.climb)).length = pieces.length - r.climb := by
      rw [List.length_take]
      omega
    have hfollow : r.follow pieces ≠ [] := by
      intro hnil
      have := congrArg List.length hnil
      simp only [Route.follow, List.length_append, htake, List.length_nil] at this
      omega
    by_cases hempty : r.follow (walk (kind dot) [] pieces) = []
    · -- the code joins one empty piece, the normal form none: both give the empty text
      rw [hempty, join_nil, join_eq_nil pathSeparator hkept] at h
      have hone : r.follow pieces = [[]] := h.resolve_left hfollow
      have hcount := congrArg List.length hone
      simp only [Route.follow, List.length_append, htake, List.length_singleton] at hcount
      have hnil : r.names = [] := List.length_eq_zero_iff.mp (by omega)
      have hclimb : r.climb + 1 = pieces.length := by omega
      have hk : pieces.length - r.climb = 1 := by omega
      refine .inr (.inr ⟨?_, hclimb, hnil⟩)
      simp only [Route.follow, hnil, hk, List.append_nil] at hone
      cases pieces with
      | nil => exact absurd rfl hne
      | cons p ps => simpa using hone
    · left
      have heq := join_inj pathSeparator hkept hnormal hfollow hempty h
      have hcount := congrArg List.length heq
      simp only [Route.follow, List.length_append, List.length_take] at hcount
      have hlong : (walk (kind dot) [] pieces).length =
          ([] : List (List UInt8)).length + pieces.length := by
        simp only [List.length_nil]
        omega
      exact names_of_walk_length (kind dot) hlong
  · rintro (hall | hshort | ⟨hhead, hclimb, hnil⟩)
    · rw [walk_of_names (kind dot) hall, List.nil_append]
    · have h₁ : pieces.length - r.climb = 0 := by omega
      have h₂ : (walk (kind dot) [] pieces).length - r.climb = 0 := by omega
      simp only [Route.follow, h₁, h₂, List.take_zero]
    · cases pieces with
      | nil => exact absurd rfl hne
      | cons p ps =>
        obtain rfl : p = [] := by simpa using hhead
        have hrest : (walk (kind dot) [] ps).length ≤ ps.length := by
          simpa using walk_length_le (kind dot) [] ps
        have hc : r.climb = ps.length := by simpa using hclimb
        have h₁ : ([] :: ps).length - r.climb = 1 := by simp [hc]
        have h₂ : (walk (kind dot) [] ps).length - r.climb = 0 := by omega
        rw [walk_skip (by decide)]
        simp only [Route.follow, h₁, h₂, hnil, List.take_zero, List.append_nil]
        rfl

theorem specifierRoute_names (m : WString) :
    ∀ p ∈ (specifierRoute m).names, pathSeparator ∉ p ∧ kind dot p = .name := by
  rw [specifierRoute, names_eq_walk]
  have hmem := fun p (hp : p ∈ split pathSeparator m) => not_mem_of_mem_split pathSeparator hp
  exact walk_kept (kind dot) (by simp) fun p hp hname => ⟨hmem p hp, hname⟩

theorem resolvePath_lexical_iff (f m : WString) (hf : f.head? = some pathSeparator) (hm : m ≠ []) :
    (extractDirectoryName f).map (fun d => resolvePath d (moduleName m)) = some (lexicalPath f m) ↔
      Settles f m := by
  obtain ⟨q, hd, hwalk⟩ := absolute_directory hf
  have hfolders : folders f = split pathSeparator q := by simp [folders, hd]
  have hroute : route (kind dot) (moduleName m).queries = specifierRoute m := rfl
  rw [hd, Option.map_some, Option.some.injEq, resolvePath_eq, hroute]
  by_cases hroot : m.head? = some pathSeparator
  · have hs := (startsWithRoot_iff hm).mpr hroot
    simp only [directoryPieces, hs, if_true, follow_nil, Settles, hroot, true_or, iff_true,
      lexicalPath, normalise]
    rw [specifierRoute, names_eq_walk]
    rfl
  · have hs : (moduleName m).startsWithRoot = false := by
      rw [← Bool.not_eq_true, startsWithRoot_iff hm]
      exact hroot
    have hnormal : lexicalPath f m =
        pathSeparator :: join pathSeparator
          ((specifierRoute m).follow (walk (kind dot) [] (split pathSeparator q))) := by
      rw [lexicalPath, if_neg hroot, normalise, split_append, walk_append, hwalk, specifierRoute,
        follow_route]
    rw [hnormal, directoryPieces, hs]
    simp only [Settles, hroot, hfolders, false_or, Bool.false_eq_true, if_false,
      List.cons_append, List.nil_append, List.cons.injEq, true_and]
    exact join_follow_iff (split_ne_nil pathSeparator q) (fun p hp => not_mem_of_mem_split _ hp)
      (specifierRoute_names m)

theorem resolvePath_lexical_iff_nested :
    (extractDirectoryName (text "/app/lib/main.mjs")).map
        (fun d => resolvePath d (moduleName (text ".././util//x.mjs"))) =
      some (lexicalPath (text "/app/lib/main.mjs") (text ".././util//x.mjs")) ∧
    lexicalPath (text "/app/lib/main.mjs") (text ".././util//x.mjs") = text "/app/util/x.mjs" :=
  ⟨(resolvePath_lexical_iff (text "/app/lib/main.mjs") (text ".././util//x.mjs") (by decide)
      (by decide)).mpr (.inr (.inl (by decide))), by decide⟩

theorem resolvePath_root_directory :
    (text "/x.mjs").head? = some pathSeparator ∧ text "./y.mjs" ≠ [] ∧
    (extractDirectoryName (text "/x.mjs")).map
        (fun d => resolvePath d (moduleName (text "./y.mjs"))) = some (text "//y.mjs") ∧
    (extractDirectoryName (text "/x.mjs")).map
        (fun d => resolvePath d (moduleName (text "./y.mjs"))) ≠
      some (lexicalPath (text "/x.mjs") (text "./y.mjs")) ∧
    (extractDirectoryName (text "/app/../lib/x.mjs")).map
        (fun d => resolvePath d (moduleName (text "./y.mjs"))) ≠
      some (lexicalPath (text "/app/../lib/x.mjs") (text "./y.mjs")) := by
  decide

end NexusRuntime.Modules
