import Mathlib.Data.List.Induction

namespace Sequence

variable {A : Type} (same : A → A → Bool)

-- behind the last entry of the same kind, or at the end
def place : List A → A → List A
  | [], x => [x]
  | y :: ys, x => if same y x && !ys.any (same · x) then y :: x :: ys else y :: place ys x

def group (xs : List A) : List A := xs.foldl (place same) []

def Follows (xs : List A) (x : A) : Prop :=
  (∃ y ∈ xs, same y x = true) → ∃ ws y, xs = ws ++ [y] ∧ same y x = true

def Consecutive (xs : List A) : Prop := ∀ ys x zs, xs = ys ++ x :: zs → Follows same ys x

variable {same}

theorem mem_place {xs : List A} {x z : A} : z ∈ place same xs x ↔ z ∈ xs ∨ z = x := by
  induction xs with
  | nil => simp [place]
  | cons y ys ih =>
    rw [place]
    split
    · simp only [List.mem_cons]
      tauto
    · rw [List.mem_cons, ih, List.mem_cons, or_assoc]

theorem place_length (xs : List A) (x : A) : (place same xs x).length = xs.length + 1 := by
  induction xs with
  | nil => rfl
  | cons y ys ih =>
    rw [place]
    split
    · rfl
    · rw [List.length_cons, ih, List.length_cons]

theorem foldl_place_length (ys xs : List A) :
    (xs.foldl (place same) ys).length = ys.length + xs.length := by
  induction xs generalizing ys with
  | nil => rfl
  | cons x xs ih =>
    rw [List.foldl_cons, ih, place_length, List.length_cons]
    omega

theorem group_snoc (xs : List A) (x : A) : group same (xs ++ [x]) = place same (group same xs) x := by
  rw [group, List.foldl_append]
  rfl

theorem mem_group {xs : List A} {z : A} : z ∈ group same xs ↔ z ∈ xs := by
  induction xs using List.reverseRecOn with
  | nil => exact Iff.rfl
  | append_singleton xs x ih =>
    rw [group_snoc, mem_place, ih, List.mem_append, List.mem_singleton]

theorem follows_tail {y : A} {ys : List A} {x : A} (h : Follows same (y :: ys) x)
    (hx : ∃ z ∈ ys, same z x = true) : ∃ ws z, ys = ws ++ [z] ∧ same z x = true := by
  obtain ⟨z, hz, hsame⟩ := hx
  obtain ⟨ws, l, hl, hlast⟩ := h ⟨z, List.mem_cons_of_mem y hz, hsame⟩
  cases ws with
  | nil =>
    obtain ⟨-, rfl⟩ := List.cons.inj hl
    cases hz
  | cons w ws => exact ⟨ws, l, (List.cons.inj hl).2, hlast⟩

theorem place_of_follows {xs : List A} {x : A} (h : Follows same xs x) : place same xs x = xs ++ [x] := by
  induction xs with
  | nil => rfl
  | cons y ys ih =>
    rw [place]
    split
    · next hy =>
      obtain ⟨hsame, hnone⟩ : same y x = true ∧ ∀ z ∈ ys, same z x = false := by simpa using hy
      cases ys with
      | nil => rfl
      | cons z zs =>
        obtain ⟨ws, l, hl, hlast⟩ := h ⟨y, List.mem_cons_self .., hsame⟩
        have hmem : l ∈ z :: zs := by
          cases ws with
          | nil => cases hl
          | cons w ws =>
            rw [(List.cons.inj hl).2]
            simp
        rw [hnone l hmem] at hlast
        cases hlast
    · rw [ih fun hx => follows_tail h hx]
      rfl

theorem follows_of_place (hrefl : ∀ x, same x x = true) {xs ys : List A} {x : A}
    (h : place same xs x = ys ++ [x]) : xs = ys ∧ Follows same xs x := by
  have hsame' := hrefl x
  induction xs generalizing ys with
  | nil =>
    have hys : ys = [] := by
      have := congrArg List.length h
      simpa [place] using this
    refine ⟨hys.symm, ?_⟩
    rintro ⟨y, hy, -⟩
    cases hy
  | cons y tl ih =>
    rw [place] at h
    split at h
    · next hy =>
      obtain ⟨hsame, hnone⟩ : same y x = true ∧ ∀ z ∈ tl, same z x = false := by simpa using hy
      rcases List.eq_nil_or_concat tl with rfl | ⟨ws, l, rfl⟩
      · have : ([y] : List A) ++ [x] = ys ++ [x] := h
        exact ⟨List.append_cancel_right this, fun _ => ⟨[], y, rfl, hsame⟩⟩
      · rw [List.concat_eq_append] at h hnone
        have happ : (y :: x :: ws) ++ [l] = ys ++ [x] := h
        obtain ⟨-, hl⟩ := List.append_inj' happ rfl
        obtain rfl : l = x := by simpa using hl
        rw [hnone l (by simp)] at hsame'
        cases hsame'
    · next hy =>
      cases ys with
      | nil =>
        have hmem : x ∈ place same tl x := mem_place.mpr (.inr rfl)
        rw [(List.cons.inj h).2] at hmem
        cases hmem
      | cons z ys =>
        obtain ⟨rfl, htl⟩ := List.cons.inj h
        obtain ⟨rfl, hfollows⟩ := ih htl
        refine ⟨rfl, ?_⟩
        rintro ⟨z, hz, hsame⟩
        have htail : ∃ w ∈ tl, same w x = true := by
          rcases List.mem_cons.mp hz with rfl | hz
          · simpa [hsame] using hy
          · exact ⟨z, hz, hsame⟩
        obtain ⟨ws, l, rfl, hlast⟩ := hfollows htail
        exact ⟨y :: ws, l, rfl, hlast⟩

theorem consecutive_snoc {xs : List A} {x : A} :
    Consecutive same (xs ++ [x]) ↔ Consecutive same xs ∧ Follows same xs x := by
  constructor
  · intro h
    refine ⟨?_, h xs x [] rfl⟩
    rintro ys y zs rfl
    exact h ys y (zs ++ [x]) (by simp)
  · rintro ⟨hxs, hx⟩ ys y zs h
    rcases List.eq_nil_or_concat zs with rfl | ⟨ws, l, rfl⟩
    · obtain ⟨rfl, hy⟩ := List.append_inj' h rfl
      obtain rfl : x = y := by simpa using hy
      exact hx
    · apply hxs ys y ws
      rw [List.concat_eq_append, ← List.cons_append, ← List.append_assoc] at h
      exact (List.append_inj' h rfl).1

theorem group_eq_self_iff (hrefl : ∀ x, same x x = true) (xs : List A) :
    group same xs = xs ↔ Consecutive same xs := by
  induction xs using List.reverseRecOn with
  | nil =>
    refine ⟨fun _ ys x zs h => ?_, fun _ => rfl⟩
    simp at h
  | append_singleton xs x ih =>
    rw [group_snoc, consecutive_snoc, ← ih]
    constructor
    · intro h
      obtain ⟨hxs, hfollows⟩ := follows_of_place hrefl h
      exact ⟨hxs, hxs ▸ hfollows⟩
    · rintro ⟨hxs, hfollows⟩
      rw [hxs, place_of_follows hfollows]

end Sequence
