import Mathlib.Data.List.Infix

namespace Sequence

variable {X : Type}

-- the outputs of one stateful stage: each depends on all inputs so far
def passFrom (f : List X → X) (history : List X) : List X → List X
  | [] => []
  | x :: xs => f (history ++ [x]) :: passFrom f (history ++ [x]) xs

def pass (f : List X → X) (xs : List X) : List X := passFrom f [] xs

def through (fs : List (List X → X)) (xs : List X) : List X := fs.foldl (fun ys f => pass f ys) xs

@[simp] theorem length_passFrom (f : List X → X) (history xs : List X) :
    (passFrom f history xs).length = xs.length := by
  induction xs generalizing history with
  | nil => rfl
  | cons x xs ih => simp [passFrom, ih]

@[simp] theorem length_pass (f : List X → X) (xs : List X) : (pass f xs).length = xs.length :=
  length_passFrom ..

@[simp] theorem length_through (fs : List (List X → X)) (xs : List X) :
    (through fs xs).length = xs.length := by
  induction fs generalizing xs with
  | nil => rfl
  | cons f fs ih =>
    have := ih (pass f xs)
    rw [length_pass] at this
    exact this

theorem passFrom_append (f : List X → X) (history xs ys : List X) :
    passFrom f history (xs ++ ys) = passFrom f history xs ++ passFrom f (history ++ xs) ys := by
  induction xs generalizing history with
  | nil => simp [passFrom]
  | cons x xs ih => simp [passFrom, ih]

theorem getElem?_pass (f : List X → X) (xs : List X) {k : Nat} (h : k < xs.length) :
    (pass f xs)[k]? = some (f (xs.take (k + 1))) := by
  obtain ⟨x, hx⟩ : ∃ x, xs[k]? = some x := ⟨xs[k], List.getElem?_eq_getElem h⟩
  have hsplit : xs = xs.take k ++ x :: xs.drop (k + 1) := by
    obtain ⟨hk, rfl⟩ := List.getElem?_eq_some_iff.mp hx
    rw [List.cons_getElem_drop_succ, List.take_append_drop]
  have htake : xs.take (k + 1) = xs.take k ++ [x] := by
    rw [List.take_add_one, hx]
    rfl
  have hlen : (passFrom f [] (xs.take k)).length = k := by
    rw [length_passFrom, List.length_take]
    omega
  calc (pass f xs)[k]?
      = (pass f (xs.take k ++ x :: xs.drop (k + 1)))[k]? := by rw [← hsplit]
    _ = (passFrom f [] (xs.take k) ++ passFrom f ([] ++ xs.take k) (x :: xs.drop (k + 1)))[k]? := by
        rw [pass, passFrom_append]
    _ = some (f (xs.take (k + 1))) := by
        rw [List.getElem?_append_right (by omega), hlen, Nat.sub_self, htake]
        rfl

theorem pass_grows (f : List X → X) {xs ys : List X} (h : xs <+: ys) : pass f xs <+: pass f ys := by
  obtain ⟨zs, rfl⟩ := h
  rw [pass, pass, passFrom_append]
  exact List.prefix_append ..

theorem through_grows (fs : List (List X → X)) {xs ys : List X} (h : xs <+: ys) :
    through fs xs <+: through fs ys := by
  induction fs generalizing xs ys with
  | nil => exact h
  | cons f fs ih => exact ih (pass_grows f h)

theorem through_snoc (fs : List (List X → X)) (xs : List X) (x : X) :
    ∃ y, through fs (xs ++ [x]) = through fs xs ++ [y] := by
  obtain ⟨zs, hzs⟩ := through_grows fs (List.prefix_append xs [x])
  have hlen := congrArg List.length hzs
  simp only [List.length_append, length_through, List.length_singleton] at hlen
  obtain ⟨y, rfl⟩ := List.length_eq_one_iff.mp (by omega : zs.length = 1)
  exact ⟨y, hzs.symm⟩

theorem getElem?_through_append (fs : List (List X → X)) (xs ys : List X) {k : Nat}
    (h : k < xs.length) : (through fs (xs ++ ys))[k]? = (through fs xs)[k]? := by
  obtain ⟨zs, hzs⟩ := through_grows fs (List.prefix_append xs ys)
  rw [← hzs, List.getElem?_append_left (by simpa using h)]

theorem take_through_append (fs : List (List X → X)) (xs ys : List X) {m : Nat}
    (h : m ≤ xs.length) : (through fs (xs ++ ys)).take m = (through fs xs).take m := by
  obtain ⟨zs, hzs⟩ := through_grows fs (List.prefix_append xs ys)
  rw [← hzs, List.take_append_of_le_length (by simpa using h)]

theorem through_take_succ {fs : List (List X → X)} {f : List X → X} {j : Nat} (h : fs[j]? = some f)
    (xs : List X) : through (fs.take (j + 1)) xs = pass f (through (fs.take j) xs) := by
  rw [through, List.take_add_one, h, List.foldl_append]
  rfl

end Sequence
