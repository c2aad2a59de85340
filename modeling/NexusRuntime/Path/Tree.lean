import NexusRuntime.Path.Lexical

namespace Path

inductive Lookup (N : Type) where
  | missing
  | error
  | found (n : N)
deriving DecidableEq, Repr

def Lookup.bind {N M : Type} (r : Lookup N) (f : N → Lookup M) : Lookup M :=
  match r with
  | .missing => .missing
  | .error => .error
  | .found n => f n

inductive Node (F : Type) where
  | directory (searchable : Bool)
  | file (f : F)
deriving DecidableEq, Repr

-- entries lead down, whether they are directories, files or links to them, and have short names
structure Tree (N α F : Type) where
  root : N
  cwd : N
  parent : N → N
  node : N → Node F
  entry : N → List α → Lookup N
  pathMax : Nat
  nameMax : Nat
  height : N → Nat
  descends : ∀ {n name m}, entry n name = .found m → height m < height n
  name_le : ∀ {n name m}, entry n name = .found m → name.length ≤ nameMax

namespace Tree
variable {N α F : Type} [DecidableEq α] (sep dot : α) (t : Tree N α F)

def enter (n : N) (name : List α) : Lookup N :=
  match t.node n with
  | .file _ => .missing
  | .directory searchable =>
    if name = [] then .found n
    else if !searchable then .error
    else if name = [dot] then .found n
    else if name = [dot, dot] then .found (t.parent n)
    else t.entry n name

def walk (n : N) : List (List α) → Lookup N
  | [] => .found n
  | name :: names => (t.enter dot n name).bind fun m => walk m names

def base (path : List α) : N := if path.head? = some sep then t.root else t.cwd

def status (path : List α) : Lookup N :=
  if path = [] then .missing
  else if t.pathMax < path.length then .error
  else t.walk dot (t.base sep path) (split sep path)

-- p / name
def append (path name : List α) : List α :=
  if path = [] ∨ path.getLast? = some sep then path ++ name else path ++ sep :: name

variable {sep dot t}

theorem walk_append (n : N) (xs ys : List (List α)) :
    t.walk dot n (xs ++ ys) = (t.walk dot n xs).bind fun m => t.walk dot m ys := by
  induction xs generalizing n with
  | nil => rfl
  | cons x xs ih =>
    rw [List.cons_append, walk, walk]
    cases t.enter dot n x with
    | missing => rfl
    | error => rfl
    | found m => exact ih m

theorem walk_singleton (n : N) (x : List α) : t.walk dot n [x] = t.enter dot n x := by
  rw [walk]
  cases t.enter dot n x <;> rfl

theorem bind_found {M : Type} {r : Lookup N} {f : N → Lookup M} {m : M} (h : r.bind f = .found m) :
    ∃ n, r = .found n ∧ f n = .found m := by
  cases r with
  | missing => cases h
  | error => cases h
  | found n => exact ⟨n, rfl, h⟩

theorem enter_nil {n m : N} (h : t.enter dot n [] = .found m) : m = n := by
  rw [enter] at h
  split at h
  · cases h
  · rw [if_pos rfl] at h
    cases h
    rfl

theorem enter_name {n m : N} {name : List α} (hname : kind dot name = .name)
    (h : t.enter dot n name = .found m) : t.entry n name = .found m := by
  obtain ⟨hnil, hdot, hup⟩ := (kind_eq_name dot).mp hname
  rw [enter] at h
  split at h
  · cases h
  · rw [if_neg hnil] at h
    split at h
    · cases h
    · simpa only [hdot, hup, if_false] using h

theorem status_found {path : List α} {n : N} (h : t.status sep dot path = .found n) :
    path ≠ [] ∧ path.length ≤ t.pathMax ∧ t.walk dot (t.base sep path) (split sep path) = .found n := by
  rw [status] at h
  split at h
  · cases h
  · next hne =>
    split at h
    · cases h
    · next hle => exact ⟨hne, Nat.le_of_not_lt hle, h⟩

theorem split_append_name {path name : List α} (hne : path ≠ []) (hname : sep ∉ name) :
    ∃ names, split sep (append sep path name) = names ++ [name] ∧
      (split sep path = names ∨ split sep path = names ++ [[]]) := by
  rw [append]
  by_cases hlast : path.getLast? = some sep
  · obtain ⟨names, rfl⟩ := List.getLast?_eq_some_iff.mp hlast
    refine ⟨split sep names, ?_, .inr ?_⟩
    · rw [if_pos (.inr hlast), List.append_assoc, List.singleton_append, split_append,
        split_of_not_mem sep hname]
    · rw [split_append, split_nil]
  · refine ⟨split sep path, ?_, .inl rfl⟩
    rw [if_neg (by simp [hne, hlast]), split_append, split_of_not_mem sep hname]

theorem append_base {path name : List α} (hne : path ≠ []) :
    t.base sep (append sep path name) = t.base sep path := by
  obtain ⟨x, xs, rfl⟩ := List.exists_cons_of_ne_nil hne
  rw [append]
  split <;> rfl

theorem status_append {path name : List α} {n m : N} (hpath : t.status sep dot path = .found n)
    (hname : sep ∉ name) (h : t.status sep dot (append sep path name) = .found m) :
    t.enter dot n name = .found m := by
  obtain ⟨hne, -, hwalk⟩ := status_found hpath
  obtain ⟨-, -, hlong⟩ := status_found h
  obtain ⟨names, hsplit, hnames⟩ := split_append_name hne hname
  rw [append_base hne, hsplit, walk_append] at hlong
  obtain ⟨n', hn', hlast⟩ := bind_found hlong
  have hsame : n' = n := by
    rcases hnames with hs | hs
    · rw [hs, hn'] at hwalk
      cases hwalk
      rfl
    · rw [hs, walk_append, hn'] at hwalk
      have hstays : t.walk dot n' [[]] = .found n := hwalk
      rw [walk_singleton] at hstays
      exact (enter_nil hstays).symm
  subst hsame
  rwa [walk_singleton] at hlast

theorem status_descends {path name : List α} {n m : N} (hpath : t.status sep dot path = .found n)
    (hname : sep ∉ name) (hkind : kind dot name = .name)
    (h : t.status sep dot (append sep path name) = .found m) : t.height m < t.height n :=
  t.descends (enter_name hkind (status_append hpath hname h))

theorem walk_name_le {n m : N} {names : List (List α)} (h : t.walk dot n names = .found m)
    {name : List α} (hmem : name ∈ names) (hkind : kind dot name = .name) : name.length ≤ t.nameMax := by
  induction names generalizing n with
  | nil => cases hmem
  | cons x names ih =>
    obtain ⟨k, hk, hrest⟩ := bind_found h
    rcases List.mem_cons.mp hmem with rfl | hmem
    · exact t.name_le (enter_name hkind hk)
    · exact ih hrest hmem

-- a stretch without a separator lies in one of the names
theorem prefix_piece {c path : List α} (hc : sep ∉ c) (h : c <+: path) :
    ∃ d ds, split sep path = d :: ds ∧ c <+: d := by
  induction path generalizing c with
  | nil =>
    obtain rfl := List.prefix_nil.mp h
    exact ⟨[], [], split_nil sep, List.nil_prefix⟩
  | cons x xs ih =>
    by_cases hx : x = sep
    · subst hx
      refine ⟨[], split x xs, split_cons_self x xs, ?_⟩
      cases c with
      | nil => exact List.nil_prefix
      | cons y c =>
        obtain ⟨rfl, -⟩ := List.cons_prefix_cons.mp h
        exact absurd (List.mem_cons_self ..) hc
    · rw [split_cons_of_ne sep hx]
      cases c with
      | nil =>
        obtain ⟨d, ds, hd⟩ := List.exists_cons_of_ne_nil (split_ne_nil sep xs)
        exact ⟨x :: d, ds, by rw [hd]; rfl, List.nil_prefix⟩
      | cons y c =>
        obtain ⟨rfl, htail⟩ := List.cons_prefix_cons.mp h
        obtain ⟨d, ds, hd, hpre⟩ := ih (fun hmem => hc (List.mem_cons_of_mem y hmem)) htail
        exact ⟨y :: d, ds, by rw [hd]; rfl, List.cons_prefix_cons.mpr ⟨rfl, hpre⟩⟩

theorem infix_piece {c path : List α} (hc : sep ∉ c) (h : c <:+: path) :
    ∃ d ∈ split sep path, c <:+: d := by
  induction path with
  | nil =>
    obtain rfl := List.infix_nil.mp h
    exact ⟨[], by simp, List.infix_rfl⟩
  | cons x xs ih =>
    rcases List.infix_cons_iff.mp h with hpre | hrest
    · obtain ⟨d, ds, hd, hpre⟩ := prefix_piece hc hpre
      exact ⟨d, hd ▸ List.mem_cons_self .., hpre.isInfix⟩
    · obtain ⟨d, hd, hin⟩ := ih hrest
      by_cases hx : x = sep
      · subst hx
        rw [split_cons_self]
        exact ⟨d, List.mem_cons_of_mem _ hd, hin⟩
      · rw [split_cons_of_ne sep hx]
        cases hxs : split sep xs with
        | nil => exact absurd hxs (split_ne_nil sep xs)
        | cons e es =>
          rw [hxs] at hd
          rw [List.modifyHead_cons]
          rcases List.mem_cons.mp hd with rfl | hd
          · exact ⟨x :: d, List.mem_cons_self .., hin.trans (List.suffix_cons x d).isInfix⟩
          · exact ⟨d, List.mem_cons_of_mem _ hd, hin⟩

theorem status_infix_le {path c : List α} {n : N} (h : t.status sep dot path = .found n)
    (hc : sep ∉ c) (hin : c <:+: path) {x : α} (hx : x ∈ c) (hdot : x ≠ dot) : c.length ≤ t.nameMax := by
  obtain ⟨-, -, hwalk⟩ := status_found h
  obtain ⟨d, hd, hcd⟩ := infix_piece hc hin
  have hxd : x ∈ d := hcd.subset hx
  have hkind : kind dot d = .name := by
    refine (kind_eq_name dot).mpr ⟨?_, ?_, ?_⟩
    · rintro rfl
      cases hxd
    · rintro rfl
      exact hdot (List.mem_singleton.mp hxd)
    · rintro rfl
      rcases List.mem_cons.mp hxd with h | h
      · exact hdot h
      · exact hdot (List.mem_singleton.mp h)
  exact Nat.le_trans hcd.length_le (walk_name_le hwalk hd hkind)

end Tree
end Path
