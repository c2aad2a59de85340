import NexusRuntime.Modules.Import

namespace NexusRuntime.Modules

open Path

def colon : UInt16 := 0x3A

def hostChar (c : UInt16) : Bool := !(text "/?#").contains c

structure UrlKey where
  scheme : WString
  host : WString
  path : WString
  scheme_plain : colon ∉ scheme ∧ pathSeparator ∉ scheme
  host_ne_nil : host ≠ []
  host_plain : ∀ c ∈ host, hostChar c = true

def UrlKey.key (u : UrlKey) : WString :=
  u.scheme ++ text "://" ++ u.host ++ text "/" ++ u.path

def origin (url : WString) : Option (WString × WString) :=
  let rest := url.dropWhile (· != colon)
  if rest.take 3 = text "://" then
    some (url.takeWhile (· != colon), (rest.drop 3).takeWhile hostChar)
  else none

theorem origin_scheme {scheme : WString} (hs : colon ∉ scheme) (x : WString) :
    origin (scheme ++ colon :: pathSeparator :: x) =
      if x.head? = some pathSeparator then some (scheme, x.tail.takeWhile hostChar) else none := by
  have hplain : ∀ c ∈ scheme, (c != colon) = true := by
    intro c hc
    rw [bne_iff_ne]
    rintro rfl
    exact hs hc
  have htake : (scheme ++ colon :: pathSeparator :: x).takeWhile (· != colon) = scheme := by
    simp [List.takeWhile_append_of_pos hplain]
  have hdrop : (scheme ++ colon :: pathSeparator :: x).dropWhile (· != colon) =
      colon :: pathSeparator :: x := by
    simp [List.dropWhile_append_of_pos hplain]
  have htext : text "://" = [colon, pathSeparator, pathSeparator] := by decide
  rw [origin, htake, hdrop, htext]
  cases x with
  | nil => simp
  | cons y ys => by_cases hy : y = pathSeparator <;> simp [hy]

theorem separator_not_mem_host (u : UrlKey) : pathSeparator ∉ u.host := by
  intro h
  have := u.host_plain _ h
  revert this
  decide

def UrlKey.folders (u : UrlKey) : List WString := (split pathSeparator u.path).dropLast

theorem extractDirectoryName_key (u : UrlKey) :
    ∃ q, extractDirectoryName u.key = some ⟨u.scheme ++ [colon, pathSeparator], q⟩ ∧
      split pathSeparator q = [] :: u.host :: u.folders := by
  have h₁ : text "://" = [colon, pathSeparator, pathSeparator] := by decide
  have h₂ : text "/" = [pathSeparator] := by decide
  have hroot : pathSeparator ∉ u.scheme ++ [colon] := by
    intro h
    rcases List.mem_append.mp h with h | h
    · exact u.scheme_plain.2 h
    · revert h
      decide
  have hhost := split_of_not_mem pathSeparator (separator_not_mem_host u)
  by_cases hpath : pathSeparator ∈ u.path
  · obtain ⟨p, b, hp, hb⟩ := split_at_last hpath
    have hkey : u.key = (u.scheme ++ [colon]) ++ pathSeparator ::
        ((pathSeparator :: (u.host ++ pathSeparator :: p)) ++ pathSeparator :: b) := by
      simp [UrlKey.key, h₁, h₂, hp]
    refine ⟨_, by rw [hkey, extractDirectoryName_deep hroot hb, List.append_assoc]; rfl, ?_⟩
    have hfolders : u.folders = split pathSeparator p := by
      rw [UrlKey.folders, hp, split_append, split_of_not_mem pathSeparator hb, List.dropLast_concat]
    rw [split_cons_self, split_append, hhost, hfolders]
    rfl
  · have hkey : u.key = (u.scheme ++ [colon]) ++ pathSeparator ::
        ((pathSeparator :: u.host) ++ pathSeparator :: u.path) := by
      simp [UrlKey.key, h₁, h₂]
    refine ⟨_, by rw [hkey, extractDirectoryName_deep hroot hpath, List.append_assoc]; rfl, ?_⟩
    have hfolders : u.folders = [] := by
      rw [UrlKey.folders, split_of_not_mem pathSeparator hpath]
      rfl
    rw [split_cons_self, hhost, hfolders]

theorem join_names_head {ps : List WString}
    (h : ∀ p ∈ ps, pathSeparator ∉ p ∧ kind dot p = .name) :
    (join pathSeparator ps).head? ≠ some pathSeparator := by
  cases ps with
  | nil => simp
  | cons p ps =>
    obtain ⟨hsep, hname⟩ := h p (List.mem_cons_self ..)
    cases p with
    | nil => simp [kind] at hname
    | cons c cs =>
      have hc : c ≠ pathSeparator := by
        rintro rfl
        exact hsep (List.mem_cons_self ..)
      cases ps with
      | nil => simpa using hc
      | cons r rs =>
        rw [join_cons pathSeparator _ (List.cons_ne_nil r rs)]
        simpa using hc

def climbs (key : WString) : Nat := (specifierRoute (keptPart key)).climb

def firstName (key : WString) : Option WString := (specifierRoute (keptPart key)).names.head?

def StaysOnHost (u : UrlKey) (key : WString) : Prop :=
  rooted (keptPart key) = false ∧
    (climbs key ≤ u.folders.length ∨
      climbs key = u.folders.length + 1 ∧ (firstName key).map (List.takeWhile hostChar) = some u.host)

instance (u : UrlKey) (key : WString) : Decidable (StaysOnHost u key) :=
  inferInstanceAs (Decidable (_ ∧ (_ ∨ _ ∧ _)))

theorem origin_join (u : UrlKey) (pieces : List WString) :
    origin (u.scheme ++ [colon, pathSeparator] ++ join pathSeparator pieces) =
        some (u.scheme, u.host) ↔
      (join pathSeparator pieces).head? = some pathSeparator ∧
        (join pathSeparator pieces).tail.takeWhile hostChar = u.host := by
  have hform : u.scheme ++ [colon, pathSeparator] ++ join pathSeparator pieces =
      u.scheme ++ colon :: pathSeparator :: join pathSeparator pieces := by simp
  rw [hform, origin_scheme u.scheme_plain.1]
  by_cases h : (join pathSeparator pieces).head? = some pathSeparator <;> simp [h]

theorem origin_root_piece (u : UrlKey) (ps : List WString) :
    origin (u.scheme ++ [colon, pathSeparator] ++ join pathSeparator ([] :: ps)) =
        some (u.scheme, u.host) ↔ ps.head?.map (List.takeWhile hostChar) = some u.host := by
  have hstop : hostChar pathSeparator = false := by decide
  rw [origin_join]
  cases ps with
  | nil => simp
  | cons p ps =>
    rw [join_cons pathSeparator [] (List.cons_ne_nil p ps)]
    simp [takeWhile_join pathSeparator hstop]

theorem keeps_origin_iff (scriptPath : WString) (u : UrlKey) (key : WString)
    (hkey : schemeOf key = []) :
    (∃ url, moduleLoaderResolve scriptPath (.string key) (some (.string u.key)) =
        .ok (.string url) ∧ origin url = some (u.scheme, u.host)) ↔ StaysOnHost u key := by
  obtain ⟨q, hdir, hsplit⟩ := extractDirectoryName_key u
  have hnames := specifierRoute_names (keptPart key)
  have hhost : u.host.takeWhile hostChar = u.host := by
    have hall : (u.host ++ []).takeWhile hostChar = u.host ++ [].takeWhile hostChar :=
      List.takeWhile_append_of_pos u.host_plain
    simpa using hall
  have hnormal : origin (u.scheme ++ [colon, pathSeparator] ++
      join pathSeparator (specifierRoute (keptPart key)).names) ≠ some (u.scheme, u.host) := by
    rw [Ne, origin_join]
    intro h
    exact join_names_head hnames h.1
  rw [moduleLoaderResolve_key, if_pos hkey, importModule_some, hdir]
  simp only [Except.ok.injEq, PropertyKey.string.injEq, exists_eq_left', resolvePath_destination,
    hsplit, StaysOnHost, climbs, firstName]
  cases hroot : rooted (keptPart key) with
  | true =>
    simpa only [destination, hroot, Route.from, if_true, follow_nil, Bool.true_eq_false, false_and,
      iff_false] using hnormal
  | false =>
    simp only [destination, hroot, Route.from, Bool.false_eq_true, if_false, true_and, Route.follow,
      List.length_cons]
    obtain ⟨c, hc⟩ : ∃ c, c = (specifierRoute (keptPart key)).climb := ⟨_, rfl⟩
    rw [← hc]
    by_cases hinside : c ≤ u.folders.length
    · have htake : u.folders.length + 1 + 1 - c = (u.folders.length - c) + 1 + 1 := by omega
      rw [htake, List.take_succ_cons, List.take_succ_cons, List.cons_append, origin_root_piece]
      simp [hinside, hhost]
    by_cases hedge : c = u.folders.length + 1
    · have htake : u.folders.length + 1 + 1 - c = 0 + 1 := by omega
      rw [htake, List.take_succ_cons, List.take_zero, List.cons_append, List.nil_append,
        origin_root_piece]
      have : ¬ u.folders.length + 1 ≤ u.folders.length := by omega
      simp [hedge, this]
    · have htake : u.folders.length + 1 + 1 - c = 0 := by omega
      rw [htake, List.take_zero, List.nil_append]
      simp only [hinside, hedge, hnormal, false_and, or_self]

def packageKey : UrlKey where
  scheme := text "https"
  host := text "unpkg.com"
  path := text "preact/dist/preact.mjs"
  scheme_plain := by decide
  host_ne_nil := by decide
  host_plain := List.all_eq_true.mp (by decide)

theorem keeps_origin_sibling :
    ∃ url, moduleLoaderResolve [] (.string (text "../src/index.mjs"))
        (some (.string packageKey.key)) = .ok (.string url) ∧
      origin url = some (packageKey.scheme, packageKey.host) :=
  (keeps_origin_iff [] packageKey (text "../src/index.mjs") (by decide)).mpr (by decide)

theorem rooted_specifier_loses_host :
    schemeOf (text "/htm/index.mjs") = [] ∧
    moduleLoaderResolve [] (.string (text "/htm/index.mjs")) (some (.string packageKey.key)) =
      .ok (.string (text "https:/htm/index.mjs")) ∧
    ¬ ∃ url, moduleLoaderResolve [] (.string (text "/htm/index.mjs"))
        (some (.string packageKey.key)) = .ok (.string url) ∧
      origin url = some (packageKey.scheme, packageKey.host) := by
  have hkey : moduleLoaderResolve [] (.string (text "/htm/index.mjs"))
      (some (.string packageKey.key)) = .ok (.string (text "https:/htm/index.mjs")) := by decide
  refine ⟨by decide, hkey, ?_⟩
  rintro ⟨url, hurl, horigin⟩
  rw [hkey] at hurl
  obtain rfl : text "https:/htm/index.mjs" = url := by simpa using hurl
  revert horigin
  decide

end NexusRuntime.Modules
