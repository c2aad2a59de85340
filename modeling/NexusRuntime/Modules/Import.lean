import NexusRuntime.Modules.Resolve
import NexusRuntime.Regex.Match

namespace NexusRuntime.Modules

open Path Regex

def byte (c : Char) : UInt8 := UInt8.ofNat c.toNat

def isSurrogate (high : Bool) (c : UInt16) : Bool :=
  if high then 0xD800 ≤ c.toNat && c.toNat < 0xDC00 else 0xDC00 ≤ c.toNat && c.toNat < 0xE000

def utf8Sequence (code : Nat) : List UInt8 :=
  if code < 0x80 then [UInt8.ofNat code]
  else if code < 0x800 then [UInt8.ofNat (0xC0 + code / 64), UInt8.ofNat (0x80 + code % 64)]
  else if code < 0x10000 then
    [UInt8.ofNat (0xE0 + code / 4096), UInt8.ofNat (0x80 + code / 64 % 64),
      UInt8.ofNat (0x80 + code % 64)]
  else
    [UInt8.ofNat (0xF0 + code / 262144), UInt8.ofNat (0x80 + code / 4096 % 64),
      UInt8.ofNat (0x80 + code / 64 % 64), UInt8.ofNat (0x80 + code % 64)]

-- the lenient conversion: a lone surrogate becomes three bytes
def utf8 : WString → List UInt8
  | [] => []
  | [c] => utf8Sequence c.toNat
  | c :: d :: rest =>
    if isSurrogate true c && isSurrogate false d then
      utf8Sequence (0x10000 + (c.toNat - 0xD800) * 1024 + (d.toNat - 0xDC00)) ++ utf8 rest
    else utf8Sequence c.toNat ++ utf8 (d :: rest)

def data (bytes : List UInt8) : List UInt8 := bytes.takeWhile (· != 0)

def fromLatin1 (bytes : List UInt8) : WString := bytes.map fun b => UInt16.ofNat b.toNat

def alnum (b : UInt8) : Bool :=
  (byte 'a' ≤ b && b ≤ byte 'z') || (byte 'A' ≤ b && b ≤ byte 'Z') || (byte '0' ≤ b && b ≤ byte '9')

def noneOf (s : String) (b : UInt8) : Bool := !(s.toList.map byte).contains b

def char (c : Char) : Re UInt8 := .one (· == byte c)

def schemeEnd : List UInt8 := [byte ':', byte '/', byte '/']

def urlRegex : Re UInt8 :=
  Re.seqs
    [.opt (.group 1 (.seq (.one alnum) (.seq (.many alnum) (Re.literal schemeEnd)))),
      .opt (.group 2 (Re.plus (noneOf "/ :"))), .opt (char ':'), .group 3 (.many (noneOf "/ ")),
      .opt (.group 4 (.seq (.opt (char '/')) (.many (noneOf " #?")))), .opt (char '?'),
      .opt (.group 5 (.many (noneOf " #"))), .opt (char '#'), .opt (.group 6 (.many (noneOf " ")))]

structure SURL where
  protocol : List UInt8
  domain : List UInt8
  port : List UInt8
  path : List UInt8
  query : List UInt8
deriving DecidableEq, Repr

def parseURL (url : WString) : Except WString SURL :=
  match regexMatch urlRegex (data (utf8 url)) with
  | some m => .ok ⟨m.what 1, m.what 2, m.what 3, m.what 4, m.what 5⟩
  | none => .error (text "Invalid URL")

-- boost::filesystem::path::append
def append (path source : List UInt8) : List UInt8 :=
  if source.isEmpty then path
  else if path.isEmpty || path.getLast? = some (byte '/') || source.head? = some (byte '/') then
    path ++ source
  else path ++ byte '/' :: source

inductive PropertyKey where
  | symbol (uid : Nat)
  | string (s : WString)
deriving DecidableEq, Repr

def couldNotResolveReferrer (referrer : WString) : WString :=
  text "Could not resolve the referrer name '" ++ referrer ++ text "'."

def moduleLoaderImportModule (sourceOrigin : Option WString) (name : WString) :
    Except WString PropertyKey :=
  match sourceOrigin with
  | none => .error (text "Could not resolve the module specifier.")
  | some referrer =>
    match extractDirectoryName referrer with
    | none => .error (couldNotResolveReferrer referrer)
    | some directoryName => .ok (.string (resolvePath directoryName (moduleName name)))

def resolveFromScript (scriptPath name : WString) : Except WString PropertyKey :=
  match extractDirectoryName scriptPath with
  | none => .error (text "Could not resolve the current working directory.")
  | some directoryName => .ok (.string (resolvePath directoryName (moduleName name)))

def parsedOrPath (key : WString) : SURL :=
  match parseURL key with
  | .ok url => url
  | .error _ => ⟨[], [], [], data (utf8 key), []⟩

def pathOf (url : SURL) : WString := fromLatin1 (append url.domain url.path)

def moduleLoaderResolve (scriptPath : WString) (keyValue : PropertyKey) (referrerValue : Option PropertyKey) :
    Except WString PropertyKey :=
  match keyValue with
  | .symbol uid => .ok (.symbol uid)
  | .string key =>
    match referrerValue with
    | none => resolveFromScript scriptPath key
    | some referrer =>
      let url := parsedOrPath key
      if !url.protocol.isEmpty then .ok (.string key)
      else
        match referrer with
        | .symbol _ => resolveFromScript scriptPath (pathOf url)
        | .string referrer =>
          match extractDirectoryName referrer with
          | none => .error (couldNotResolveReferrer referrer)
          | some directoryName =>
            .ok (.string (resolvePath directoryName (moduleName (pathOf url))))

def schemePart (s : List UInt8) : List UInt8 :=
  if !(s.takeWhile alnum).isEmpty && (s.dropWhile alnum).take 3 = schemeEnd then
    s.takeWhile alnum ++ schemeEnd
  else []

def domainPart (s : List UInt8) : List UInt8 := s.takeWhile (noneOf "/ :")

def pathPart (s : List UInt8) : List UInt8 :=
  ((s.dropWhile (noneOf "/ :")).dropWhile (noneOf "/ ")).takeWhile (noneOf " #?")

theorem urlRegex_direct : urlRegex.direct := by
  have hliteral : (Re.literal schemeEnd).rejects alnum := literal_rejects (by decide) _
  simp [urlRegex, Re.seqs, Re.plus, Re.direct, Re.commits, Re.nullable, char, literal_direct,
    hliteral]

theorem first_scheme (s : List UInt8) :
    (Re.opt (.group 1 (.seq (.one alnum) (.seq (.many alnum) (Re.literal schemeEnd))))).first s =
      some ⟨schemePart s, if (schemePart s).isEmpty then [] else [(1, schemePart s)],
        s.drop (schemePart s).length⟩ := by
  have hdrop : ∀ xs : List UInt8, xs.drop (xs.takeWhile alnum).length = xs.dropWhile alnum := by
    intro xs
    calc xs.drop (xs.takeWhile alnum).length
        = (xs.takeWhile alnum ++ xs.dropWhile alnum).drop (xs.takeWhile alnum).length := by
          rw [List.takeWhile_append_dropWhile]
      _ = xs.dropWhile alnum := List.drop_left
  have hlen : schemeEnd.length = 3 := rfl
  cases s with
  | nil => rfl
  | cons x xs =>
    by_cases hx : alnum x = true
    · by_cases hend : (xs.dropWhile alnum).take 3 = schemeEnd
      · have hpart : schemePart (x :: xs) = x :: (xs.takeWhile alnum ++ schemeEnd) := by
          simp [schemePart, hx, hend]
        have hrest : (x :: xs).drop (schemePart (x :: xs)).length =
            (xs.dropWhile alnum).drop schemeEnd.length := by
          rw [hpart, List.length_cons, List.drop_succ_cons, List.length_append, ← List.drop_drop,
            hdrop]
        rw [hrest, hpart]
        simp [Re.first, hx, first_literal, hend, Way.append, hlen]
      · have hpart : schemePart (x :: xs) = [] := by
          simp [schemePart, hx, hend]
        rw [hpart]
        simp [Re.first, hx, first_literal, hend, hlen]
    · have hpart : schemePart (x :: xs) = [] := by
        simp [schemePart, hx]
      simp [Re.first, hx, hpart]

def groupOf (n : Nat) (t : List UInt8) : List (Nat × List UInt8) := if t.isEmpty then [] else [(n, t)]

theorem lookup_groupOf (n k : Nat) (t : List UInt8) (gs : List (Nat × List UInt8)) :
    (groupOf n t ++ gs).lookup k = if k = n ∧ t ≠ [] then some t else gs.lookup k := by
  unfold groupOf
  cases t with
  | nil => simp
  | cons x xs =>
    by_cases hk : k = n
    · simp [hk]
    · have hne : (k == n) = false := by simpa using hk
      simp [List.lookup_cons, hne, hk]

def afterScheme : List (Re UInt8) :=
  [.opt (.group 2 (Re.plus (noneOf "/ :"))), .opt (char ':'), .group 3 (.many (noneOf "/ ")),
    .opt (.group 4 (.seq (.opt (char '/')) (.many (noneOf " #?")))), .opt (char '?'),
    .opt (.group 5 (.many (noneOf " #"))), .opt (char '#'), .opt (.group 6 (.many (noneOf " ")))]

theorem port_rest (u : List UInt8) :
    (u.drop ((u.take 1).filter (· == byte ':')).length).dropWhile (noneOf "/ ") =
      u.dropWhile (noneOf "/ ") := by
  have hcolon : noneOf "/ " (byte ':') = true := by decide
  cases u with
  | nil => rfl
  | cons x xs =>
    by_cases hx : x = byte ':'
    · subst hx
      simp [hcolon]
    · simp [hx]

theorem first_pathGroup (u : List UInt8) :
    (Re.opt (.group 4 (.seq (.opt (char '/')) (.many (noneOf " #?"))))).first u =
      some ⟨u.takeWhile (noneOf " #?"), [(4, u.takeWhile (noneOf " #?"))],
        u.dropWhile (noneOf " #?")⟩ := by
  have hslash : ∀ x : UInt8, (x == byte '/') = true → noneOf " #?" x = true := by
    intro x hx
    obtain rfl := eq_of_beq hx
    decide
  rw [Re.first, Re.first, char, first_optOne_many hslash]
  rfl

theorem first_afterScheme (t : List UInt8) :
    ∃ (text port query fragment u : List UInt8),
      (Re.seqs afterScheme).first t =
        some ⟨text, groupOf 2 (domainPart t) ++
          [(3, port), (4, pathPart t), (5, query), (6, fragment)], u.dropWhile (noneOf " ")⟩ := by
  have hdomain := first_optPlus 2 (noneOf "/ :") t
  obtain ⟨colon, hcolon, hlen⟩ := first_optOne (· == byte ':') (t.dropWhile (noneOf "/ :"))
  have hport := port_rest (t.dropWhile (noneOf "/ :"))
  rw [← hlen] at hport
  have hpath := first_pathGroup ((t.dropWhile (noneOf "/ :")).dropWhile (noneOf "/ "))
  obtain ⟨mark, hmark, -⟩ := first_optOne (· == byte '?')
    (((t.dropWhile (noneOf "/ :")).dropWhile (noneOf "/ ")).dropWhile (noneOf " #?"))
  obtain ⟨hash, hhash, -⟩ := first_optOne (· == byte '#')
    (((((t.dropWhile (noneOf "/ :")).dropWhile (noneOf "/ ")).dropWhile (noneOf " #?")).drop
      mark.length).dropWhile (noneOf " #"))
  rw [← hport] at hpath hmark hhash
  have h := first_seq hdomain (first_seq hcolon (first_seq (first_groupMany 3 (noneOf "/ ") _)
    (first_seq hpath (first_seq hmark (first_seq (first_optGroupMany 5 (noneOf " #") _)
      (first_seq hhash (first_seq (first_optGroupMany 6 (noneOf " ") _) (first_empty _))))))))
  simp only [Way.append, hport] at h
  exact ⟨_, _, _, _, _, h⟩

theorem what_groups {m : Way UInt8} {scheme domain port path query fragment : List UInt8}
    (h : m.groups = groupOf 1 scheme ++
      (groupOf 2 domain ++ [(3, port), (4, path), (5, query), (6, fragment)])) :
    m.what 1 = scheme ∧ m.what 2 = domain ∧ m.what 4 = path := by
  simp only [Way.what, h, lookup_groupOf]
  refine ⟨?_, ?_, rfl⟩
  · cases scheme <;> simp [List.lookup_cons]
  · cases domain <;> simp [List.lookup_cons]

theorem first_urlRegex (s : List UInt8) :
    ∃ m, urlRegex.first s = some m ∧ m.what 1 = schemePart s ∧
      m.what 2 = domainPart (s.drop (schemePart s).length) ∧
      m.what 4 = pathPart (s.drop (schemePart s).length) ∧
      ∃ u : List UInt8, m.rest = u.dropWhile (noneOf " ") := by
  obtain ⟨t, port, query, fragment, u, htail⟩ := first_afterScheme (s.drop (schemePart s).length)
  have hm := first_seq (first_scheme s) htail
  exact ⟨_, hm, (what_groups rfl).1, (what_groups rfl).2.1, (what_groups rfl).2.2, u, rfl⟩

theorem space_not_admitted : urlRegex.admits (byte ' ') = false := by decide

theorem parseURL_of_space {url : WString} (h : byte ' ' ∈ data (utf8 url)) :
    parseURL url = .error (text "Invalid URL") := by
  rw [parseURL, regexMatch_none h space_not_admitted]

theorem parseURL_of_no_space {url : WString} (h : byte ' ' ∉ data (utf8 url)) :
    ∃ r, parseURL url = .ok r ∧ r.protocol = schemePart (data (utf8 url)) ∧
      (r.protocol = [] →
        r.domain = domainPart (data (utf8 url)) ∧ r.path = pathPart (data (utf8 url))) := by
  obtain ⟨m, hfirst, hscheme, hdomain, hpath, u, hu⟩ := first_urlRegex (data (utf8 url))
  have hrest : m.rest = [] := by
    have hs := first_rest urlRegex_direct hfirst
    cases hr : m.rest with
    | nil => rfl
    | cons x xs =>
      have hx : noneOf " " x = false := by
        have := List.head?_dropWhile_not (noneOf " ") u
        rw [← hu, hr] at this
        simpa using this
      have hmem : x ∈ data (utf8 url) := by
        rw [hs, hr]
        simp
      obtain rfl : x = byte ' ' := by simpa [noneOf] using hx
      exact absurd hmem h
  rw [parseURL, regexMatch_first urlRegex_direct hfirst hrest]
  refine ⟨_, rfl, hscheme, ?_⟩
  intro hp
  have hnil : schemePart (data (utf8 url)) = [] := hscheme.symm.trans hp
  rw [hnil, List.length_nil, List.drop_zero] at hdomain hpath
  exact ⟨hdomain, hpath⟩

theorem append_domain_path {s : List UInt8} (h : byte ' ' ∉ s) :
    append (domainPart s) (pathPart s) = domainPart s ++ pathPart s := by
  unfold append
  cases hp : pathPart s with
  | nil => simp
  | cons x xs =>
    have hslash : x = byte '/' := by
      obtain ⟨u, hu⟩ : ∃ u, u = (s.dropWhile (noneOf "/ :")).dropWhile (noneOf "/ ") := ⟨_, rfl⟩
      cases u with
      | nil => simp [pathPart, ← hu] at hp
      | cons y ys =>
        have hy : noneOf "/ " y = false := by
          have := List.head?_dropWhile_not (noneOf "/ ") (s.dropWhile (noneOf "/ :"))
          rw [← hu] at this
          simpa using this
        have hmem : y ∈ s := by
          apply (List.dropWhile_suffix (noneOf "/ :")).subset
          apply (List.dropWhile_suffix (noneOf "/ ")).subset
          rw [← hu]
          exact List.mem_cons_self ..
        have hor : y = byte '/' ∨ y = byte ' ' := by
          rw [Decidable.or_iff_not_imp_left]
          simpa [noneOf] using hy
        rcases hor with rfl | rfl
        · have hkeep : noneOf " #?" (byte '/') = true := by decide
          simp only [pathPart, ← hu, List.takeWhile_cons_of_pos hkeep, List.cons.injEq] at hp
          exact hp.1.symm
        · exact absurd hmem h
    subst hslash
    simp

def schemeOf (key : WString) : List UInt8 :=
  if byte ' ' ∈ data (utf8 key) then [] else schemePart (data (utf8 key))

-- what is left of a specifier without a protocol: no port, no query and no fragment
def keptPart (key : WString) : WString :=
  let s := data (utf8 key)
  fromLatin1 (if byte ' ' ∈ s then s else domainPart s ++ pathPart s)

theorem parsedOrPath_protocol (key : WString) : (parsedOrPath key).protocol = schemeOf key := by
  unfold parsedOrPath schemeOf
  by_cases h : byte ' ' ∈ data (utf8 key)
  · rw [parseURL_of_space h, if_pos h]
  · obtain ⟨r, hr, hp, -⟩ := parseURL_of_no_space h
    rw [hr, if_neg h]
    exact hp

theorem pathOf_parsedOrPath {key : WString} (hkey : schemeOf key = []) :
    pathOf (parsedOrPath key) = keptPart key := by
  have hprotocol := parsedOrPath_protocol key
  rw [hkey] at hprotocol
  unfold parsedOrPath at hprotocol ⊢
  unfold keptPart pathOf
  by_cases h : byte ' ' ∈ data (utf8 key)
  · have hne : data (utf8 key) ≠ [] := List.ne_nil_of_mem h
    simp [parseURL_of_space h, h, append, hne]
  · obtain ⟨r, hr, -, hparts⟩ := parseURL_of_no_space h
    rw [hr] at hprotocol ⊢
    obtain ⟨hd, hp⟩ := hparts hprotocol
    simp only [hd, hp, if_neg h, append_domain_path h]

theorem moduleLoaderResolve_key (scriptPath key referrer : WString) :
    moduleLoaderResolve scriptPath (.string key) (some (.string referrer)) =
      if schemeOf key = [] then moduleLoaderImportModule (some referrer) (keptPart key)
      else .ok (.string key) := by
  unfold moduleLoaderResolve moduleLoaderImportModule
  simp only [parsedOrPath_protocol]
  by_cases h : schemeOf key = []
  · simp only [h, List.isEmpty_nil, Bool.not_true, Bool.false_eq_true, if_false, if_true,
      pathOf_parsedOrPath h]
  · simp [h]

def rooted (m : WString) : Bool := (moduleName m).startsWithRoot

def destination (m : WString) : Bool × Route WString :=
  if rooted m then (true, ⟨0, (specifierRoute m).names⟩) else (false, specifierRoute m)

def Route.from (target : Bool × Route WString) (pieces : List WString) : List WString :=
  target.2.follow (if target.1 then [] else pieces)

theorem resolvePath_destination (d : DirectoryName) (m : WString) :
    resolvePath d (moduleName m) = d.rootName ++
      join pathSeparator (Route.from (destination m) (split pathSeparator d.queryName)) := by
  have hroute : route (kind dot) (moduleName m).queries = specifierRoute m := rfl
  rw [resolvePath_eq, hroute, directoryPieces, destination, rooted, Route.from]
  cases (moduleName m).startsWithRoot <;> simp

theorem destination_names (m : WString) :
    ∀ p ∈ (destination m).2.names, pathSeparator ∉ p ∧ kind dot p = .name := by
  unfold destination
  cases rooted m <;> exact specifierRoute_names m

theorem join_names_inj {ps qs : List WString}
    (hp : ∀ p ∈ ps, pathSeparator ∉ p ∧ kind dot p = .name)
    (hq : ∀ q ∈ qs, pathSeparator ∉ q ∧ kind dot q = .name)
    (h : join pathSeparator ps = join pathSeparator qs) : ps = qs := by
  have hnil : ∀ rs : List WString, (∀ r ∈ rs, pathSeparator ∉ r ∧ kind dot r = .name) →
      join pathSeparator rs = [] → rs = [] := by
    intro rs hr hjoin
    rcases (join_eq_nil pathSeparator fun r hm => (hr r hm).1).mp hjoin with h | rfl
    · exact h
    · have := (hr [] (by simp)).2
      simp [kind] at this
  by_cases hps : ps = []
  · subst hps
    exact (hnil qs hq h.symm).symm
  by_cases hqs : qs = []
  · subst hqs
    exact hnil ps hp h
  exact join_inj pathSeparator (fun p hm => (hp p hm).1) (fun q hm => (hq q hm).1) hps hqs h

section Deep
variable (d : WString) (n : Nat)

def deepReferrer : WString :=
  pathSeparator :: (join pathSeparator (List.replicate (n + 1) d) ++ pathSeparator :: [])

theorem extractDirectoryName_deepReferrer :
    extractDirectoryName (deepReferrer d n) =
      some ⟨[pathSeparator], join pathSeparator (List.replicate (n + 1) d)⟩ :=
  extractDirectoryName_deep (a := []) (by simp) (by simp)

end Deep

theorem exists_longer (pieces : List WString) : ∃ k, ∀ p ∈ pieces, p.length < k := by
  induction pieces with
  | nil => exact ⟨0, by simp⟩
  | cons p ps ih =>
    obtain ⟨k, hk⟩ := ih
    refine ⟨k + p.length + 1, ?_⟩
    intro q hq
    rcases List.mem_cons.mp hq with rfl | hq
    · omega
    · have := hk q hq
      omega

theorem exists_fresh (pieces : List WString) :
    ∃ d : WString, d ∉ pieces ∧ pathSeparator ∉ d ∧ kind dot d = .name := by
  obtain ⟨k, hk⟩ := exists_longer pieces
  refine ⟨List.replicate (k + 3) 0x61, ?_, ?_, ?_⟩
  · intro hmem
    have := hk _ hmem
    rw [List.length_replicate] at this
    omega
  · intro hmem
    have := List.eq_of_mem_replicate hmem
    revert this
    decide
  · have hlen : ∀ t : WString, t.length < 3 → List.replicate (k + 3) 0x61 ≠ t := by
      rintro t ht rfl
      rw [List.length_replicate] at ht
      omega
    exact (kind_eq_name dot).mpr ⟨hlen _ (by simp), hlen _ (by simp), hlen _ (by simp)⟩

theorem destination_climb {m : WString} (h : (destination m).1 = true) :
    (destination m).2.climb = 0 := by
  unfold destination at h ⊢
  cases hr : rooted m with
  | true => rfl
  | false => simp [hr] at h

theorem mem_from {m d : WString} {n : Nat} (h : (destination m).1 = false)
    (hn : (destination m).2.climb ≤ n) :
    d ∈ Route.from (destination m) (List.replicate (n + 1) d) := by
  rw [Route.from, h, Route.follow]
  apply List.mem_append_left
  have hpos : n + 1 - (destination m).2.climb ≠ 0 := by omega
  simp [List.take_replicate, hpos]

theorem not_mem_from {m d : WString} {pieces : List WString} (h : (destination m).1 = true)
    (hd : d ∉ (destination m).2.names) : d ∉ Route.from (destination m) pieces := by
  rw [Route.from, h, if_pos rfl, follow_nil]
  exact hd

theorem destination_of_deepReferrer {m₁ m₂ : WString}
    (h : ∀ d n, moduleLoaderImportModule (some (deepReferrer d n)) m₁ =
      moduleLoaderImportModule (some (deepReferrer d n)) m₂) : destination m₁ = destination m₂ := by
  obtain ⟨d, hfresh, hsep, hname⟩ :=
    exists_fresh ((destination m₁).2.names ++ (destination m₂).2.names)
  have hd₁ : d ∉ (destination m₁).2.names := fun hm => hfresh (List.mem_append_left _ hm)
  have hd₂ : d ∉ (destination m₂).2.names := fun hm => hfresh (List.mem_append_right _ hm)
  obtain ⟨n, hn₁, hn₂⟩ : ∃ n, (destination m₁).2.climb ≤ n ∧ (destination m₂).2.climb ≤ n :=
    ⟨_, Nat.le_max_left .., Nat.le_max_right ..⟩
  have hpieces : ∀ p ∈ List.replicate (n + 1) d, pathSeparator ∉ p ∧ kind dot p = .name := by
    intro p hp
    obtain rfl := List.eq_of_mem_replicate hp
    exact ⟨hsep, hname⟩
  have hfrom : ∀ m, ∀ p ∈ Route.from (destination m) (List.replicate (n + 1) d),
      pathSeparator ∉ p ∧ kind dot p = .name := by
    intro m p hp
    rcases List.mem_append.mp hp with hp | hp
    · have hp := List.take_subset _ _ hp
      cases hb : (destination m).1 with
      | true => simp [hb] at hp
      | false => exact hpieces p (by simpa only [hb, Bool.false_eq_true, if_false] using hp)
    · exact destination_names m p hp
  have hsplit : split pathSeparator (join pathSeparator (List.replicate (n + 1) d)) =
      List.replicate (n + 1) d :=
    split_join pathSeparator (fun p hp => (hpieces p hp).1) (by simp)
  have hkey := h d n
  simp only [moduleLoaderImportModule, extractDirectoryName_deepReferrer, resolvePath_destination,
    hsplit, Except.ok.injEq, PropertyKey.string.injEq, List.append_cancel_left_eq] at hkey
  have hlists := join_names_inj (hfrom m₁) (hfrom m₂) hkey
  cases hb₁ : (destination m₁).1 with
  | true =>
    cases hb₂ : (destination m₂).1 with
    | true =>
      have hnames : (destination m₁).2.names = (destination m₂).2.names := by
        simpa only [Route.from, hb₁, hb₂, if_true, follow_nil] using hlists
      have hclimb := (destination_climb hb₁).trans (destination_climb hb₂).symm
      apply Prod.ext (hb₁.trans hb₂.symm)
      cases hr₁ : (destination m₁).2
      cases hr₂ : (destination m₂).2
      simp_all
    | false =>
      exact absurd (hlists ▸ mem_from hb₂ hn₂) (not_mem_from hb₁ hd₁)
  | false =>
    cases hb₂ : (destination m₂).1 with
    | true => exact absurd (hlists ▸ mem_from hb₁ hn₁) (not_mem_from hb₂ hd₂)
    | false =>
      have hroute : (destination m₁).2 = (destination m₂).2 := by
        simp only [Route.from, hb₁, hb₂, Bool.false_eq_true, if_false] at hlists
        exact follow_inj hd₁ hd₂ (by omega) (by omega) hlists
      exact Prod.ext (hb₁.trans hb₂.symm) hroute

theorem schemeOf_root (key : WString) : schemeOf (pathSeparator :: key) = [] := by
  have hutf8 : ∃ s, utf8 (pathSeparator :: key) = byte '/' :: s := by
    cases key with
    | nil => exact ⟨[], rfl⟩
    | cons d rest =>
      have hlow : isSurrogate true pathSeparator = false := by decide
      exact ⟨utf8 (d :: rest), by simp [utf8, hlow]; rfl⟩
  obtain ⟨s, hs⟩ := hutf8
  have hdata : data (byte '/' :: s) = byte '/' :: data s := by
    simp [data, show byte '/' ≠ 0 by decide]
  have halnum : alnum (byte '/') = false := by decide
  simp [schemeOf, hs, hdata, schemePart, halnum]

theorem importModule_some (referrer m : WString) :
    moduleLoaderImportModule (some referrer) m =
      match extractDirectoryName referrer with
      | none => .error (couldNotResolveReferrer referrer)
      | some d => .ok (.string (resolvePath d (moduleName m))) := rfl

theorem importModule_of_destination {m₁ m₂ : WString} (h : destination m₁ = destination m₂)
    (referrer : WString) :
    moduleLoaderImportModule (some referrer) m₁ = moduleLoaderImportModule (some referrer) m₂ := by
  rw [importModule_some, importModule_some]
  cases extractDirectoryName referrer with
  | none => rfl
  | some d => simp only [resolvePath_destination, h]

theorem same_key_iff (scriptPath key : WString) :
    (∀ referrer, moduleLoaderResolve scriptPath (.string key) (some (.string referrer)) =
        moduleLoaderImportModule (some referrer) key) ↔
      schemeOf key = [] ∧ destination (keptPart key) = destination key := by
  simp only [moduleLoaderResolve_key]
  constructor
  · intro h
    have hscheme : schemeOf key = [] := by
      apply Decidable.byContradiction
      intro hne
      have hroot : extractDirectoryName [pathSeparator] = some ⟨[pathSeparator], []⟩ := by decide
      have hkey := h [pathSeparator]
      rw [if_neg hne, importModule_some, hroot] at hkey
      simp only [resolvePath_destination, Except.ok.injEq, PropertyKey.string.injEq] at hkey
      rw [hkey] at hne
      exact hne (schemeOf_root _)
    simp only [hscheme, if_true] at h
    exact ⟨hscheme, destination_of_deepReferrer fun d n => h (deepReferrer d n)⟩
  · rintro ⟨hscheme, hdest⟩ referrer
    rw [if_pos hscheme]
    exact importModule_of_destination hdest referrer

theorem url_imports_differ :
    moduleLoaderResolve [] (.string (text "https://unpkg.com/x.mjs"))
        (some (.string (text "/app/main.mjs"))) = .ok (.string (text "https://unpkg.com/x.mjs")) ∧
    moduleLoaderImportModule (some (text "/app/main.mjs")) (text "https://unpkg.com/x.mjs") =
      .ok (.string (text "/app/https:/unpkg.com/x.mjs")) ∧
    moduleLoaderResolve [] (.string (text "https://unpkg.com/x.mjs"))
        (some (.string (text "/app/main.mjs"))) ≠
      moduleLoaderImportModule (some (text "/app/main.mjs")) (text "https://unpkg.com/x.mjs") := by
  decide

end NexusRuntime.Modules
