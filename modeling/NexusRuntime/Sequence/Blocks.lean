import Mathlib.Data.List.Infix
import NexusRuntime.Sequence.Place

namespace Sequence

section Blocks
variable {W β : Type} (f g : W → List β)

def tagged : Nat → List W → List (Nat × β)
  | _, [] => []
  | i, w :: ws => (f w).map (i, ·) ++ tagged (i + 1) ws

def Front : List W → Prop
  | [] => True
  | w :: ws => (g w = f w ∨ ∀ v ∈ ws, g v = []) ∧ Front ws

theorem tagged_append (i : Nat) (xs ys : List W) :
    tagged f i (xs ++ ys) = tagged f i xs ++ tagged f (i + xs.length) ys := by
  induction xs generalizing i with
  | nil => rfl
  | cons x xs ih =>
    have hlen : i + (x :: xs).length = i + 1 + xs.length := by
      rw [List.length_cons]
      omega
    rw [List.cons_append, tagged, tagged, ih, hlen, List.append_assoc]

theorem map_tagged (i : Nat) (ws : List W) : (tagged f i ws).map (·.2) = ws.flatMap f := by
  induction ws generalizing i with
  | nil => rfl
  | cons w ws ih =>
    rw [tagged, List.map_append, ih, List.flatMap_cons, List.map_map]
    exact congrArg (· ++ ws.flatMap f) (List.map_id _)

theorem tagged_eq_nil {ws : List W} (h : ∀ w ∈ ws, g w = []) (i : Nat) : tagged g i ws = [] := by
  induction ws generalizing i with
  | nil => rfl
  | cons w ws ih =>
    rw [tagged, h w (List.mem_cons_self ..), ih fun v hv => h v (List.mem_cons_of_mem w hv)]
    rfl

theorem tagged_congr {ws : List W} (h : ∀ w ∈ ws, g w = f w) (i : Nat) :
    tagged g i ws = tagged f i ws := by
  induction ws generalizing i with
  | nil => rfl
  | cons w ws ih =>
    rw [tagged, tagged, h w (List.mem_cons_self ..), ih fun v hv => h v (List.mem_cons_of_mem w hv)]

variable {f g}

theorem prefix_of_front {ws : List W} (hfront : Front f g ws) (hpre : ∀ w ∈ ws, g w <+: f w)
    (i : Nat) : tagged g i ws <+: tagged f i ws := by
  induction ws generalizing i with
  | nil => exact List.prefix_refl _
  | cons w ws ih =>
    rw [tagged, tagged]
    rcases hfront.1 with hw | hrest
    · rw [hw, List.prefix_append_right_inj]
      exact ih hfront.2 (fun v hv => hpre v (List.mem_cons_of_mem w hv)) (i + 1)
    · rw [tagged_eq_nil g hrest, List.append_nil]
      exact ((hpre w (List.mem_cons_self ..)).map _).trans (List.prefix_append ..)

theorem front_append {ws : List W} {w : W} (h : Front f g ws) (hw : g w = []) :
    Front f g (ws ++ [w]) := by
  induction ws with
  | nil => exact ⟨.inr (by simp), trivial⟩
  | cons v ws ih =>
    refine ⟨?_, ih h.2⟩
    rcases h.1 with hv | hrest
    · exact .inl hv
    · exact .inr (forall_snoc hrest hw)

theorem front_rest {xs ys : List W} {w : W} (h : Front f g (xs ++ w :: ys)) (hw : g w ≠ f w) :
    ∀ y ∈ ys, g y = [] := by
  induction xs with
  | nil => exact h.1.resolve_left hw
  | cons x xs ih => exact ih h.2

theorem front_of_full {xs ys : List W} {w : W} (hxs : ∀ x ∈ xs, g x = f x)
    (hys : ∀ y ∈ ys, g y = []) : Front f g (xs ++ w :: ys) := by
  induction xs with
  | nil =>
    refine ⟨.inr hys, ?_⟩
    clear hxs
    induction ys with
    | nil => trivial
    | cons y ys ih =>
      have hrest := fun v hv => hys v (List.mem_cons_of_mem y hv)
      exact ⟨.inr hrest, ih hrest⟩
  | cons x xs ih =>
    exact ⟨.inl (hxs x (List.mem_cons_self ..)), ih fun v hv => hxs v (List.mem_cons_of_mem x hv)⟩

theorem front_keep {xs ys : List W} {w v : W} (hf : f v = f w) (hg : g v = g w)
    (h : Front f g (xs ++ w :: ys)) : Front f g (xs ++ v :: ys) := by
  induction xs with
  | nil => exact ⟨by simpa only [hf, hg] using h.1, h.2⟩
  | cons x xs ih =>
    refine ⟨?_, ih h.2⟩
    rcases h.1 with hx | hrest
    · exact .inl hx
    · right
      intro u hu
      rcases List.mem_append.mp hu with hu | hu
      · exact hrest u (List.mem_append_left _ hu)
      · rcases List.mem_cons.mp hu with rfl | hu
        · rw [hg]
          exact hrest w (List.mem_append_right _ (List.mem_cons_self ..))
        · exact hrest u (List.mem_append_right _ (List.mem_cons_of_mem w hu))

section Replace
variable {ws : List W} {k : Nat} {w v : W}

theorem tagged_replace (h : ws[k]? = some w) (hv : f v = f w) (i : Nat) :
    tagged f i (ws.set k v) = tagged f i ws := by
  conv_rhs => rw [split_at h]
  rw [replace_split h, tagged_append, tagged_append, tagged, tagged, hv]

theorem front_replace (h : ws[k]? = some w) (hf : f v = f w) (hg : g v = g w)
    (hfront : Front f g ws) : Front f g (ws.set k v) := by
  rw [split_at h] at hfront
  rw [replace_split h]
  exact front_keep hf hg hfront

theorem tagged_grow {es : List β} (h : ws[k]? = some w) (hfront : Front f g ws) (hw : g w ≠ f w)
    (hv : g v = g w ++ es) : tagged g 0 (ws.set k v) = tagged g 0 ws ++ es.map (k, ·) := by
  have hk : (ws.take k).length = k := by
    rw [List.length_take]
    have := (List.getElem?_eq_some_iff.mp h).1
    omega
  have hrest := front_rest (split_at h ▸ hfront) hw
  conv_rhs => rw [split_at h]
  rw [replace_split h, tagged_append, tagged_append, tagged, tagged, tagged_eq_nil g hrest, hv, hk,
    List.map_append, Nat.zero_add]
  simp

theorem front_grow (h : ws[k]? = some w) (hfront : Front f g ws) (hw : g w ≠ f w)
    (hbefore : ∀ u ∈ ws.take k, g u = f u) : Front f g (ws.set k v) := by
  rw [replace_split h]
  exact front_of_full hbefore (front_rest (split_at h ▸ hfront) hw)

end Replace

-- what comes next after a front belongs to the first unfinished block
theorem full_before_next {ws : List W} (hfront : Front f g ws) (hpre : ∀ w ∈ ws, g w <+: f w)
    {i k : Nat} {x : β} {rest : List (Nat × β)} (hik : i ≤ k)
    (h : tagged g i ws ++ (k, x) :: rest <+: tagged f i ws) :
    ∀ w ∈ ws.take (k - i), g w = f w := by
  induction ws generalizing i with
  | nil => simp
  | cons w ws ih =>
    rw [tagged, tagged, List.append_assoc] at h
    have hpre' := fun v hv => hpre v (List.mem_cons_of_mem w hv)
    by_cases hw : g w = f w
    · rw [hw, List.prefix_append_right_inj] at h
      by_cases hk : k = i
      · simp [hk]
      · have hsucc : k - i = k - (i + 1) + 1 := by omega
        rw [hsucc, List.take_succ_cons]
        intro v hv
        rcases List.mem_cons.mp hv with rfl | hv
        · exact hw
        · exact ih hfront.2 hpre' (by omega) h v hv
    · have hrest := hfront.1.resolve_left hw
      obtain ⟨t, ht⟩ := hpre w (List.mem_cons_self ..)
      rw [tagged_eq_nil g hrest, List.nil_append, ← ht, List.map_append, List.append_assoc,
        List.prefix_append_right_inj] at h
      cases t with
      | nil => exact absurd (by simpa using ht) hw
      | cons y ys =>
        have hk : k = i := by
          rw [List.map_cons, List.cons_append, List.cons_prefix_cons, Prod.mk.injEq] at h
          exact h.1.1
        simp [hk]

end Blocks
end Sequence
