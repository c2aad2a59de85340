import Mathlib.Data.List.Basic

namespace Memory

variable {A : Type}

abbrev Block (A : Type) := List (Option A)

namespace Block

def alloc (n : Nat) : Block A := List.replicate n none

def resize (b : Block A) (n : Nat) : Block A := b.take n ++ alloc (n - b.length)

def store (b : Block A) (off : Nat) (xs : List A) : Block A :=
  b.take off ++ xs.map some ++ b.drop (off + xs.length)

@[simp] theorem alloc_length (n : Nat) : (alloc n : Block A).length = n := List.length_replicate

@[simp] theorem resize_length (b : Block A) (n : Nat) : (b.resize n).length = n := by
  simp only [resize, List.length_append, List.length_take, alloc_length]
  omega

theorem store_length {b : Block A} {off : Nat} {xs : List A} (h : off + xs.length ≤ b.length) :
    (b.store off xs).length = b.length := by
  simp only [store, List.length_append, List.length_take, List.length_map, List.length_drop]
  omega

theorem resize_prefix {b : Block A} {n k : Nat} (hk : k ≤ b.length) (hn : k ≤ n) :
    (b.resize n).take k = b.take k := by
  rw [resize, List.take_append_of_le_length, List.take_take, Nat.min_eq_left hn]
  rw [List.length_take]
  omega

theorem store_prefix {b : Block A} {off : Nat} {xs : List A} (h : off + xs.length ≤ b.length) :
    (b.store off xs).take (off + xs.length) = b.take off ++ xs.map some := by
  have hlen : (b.take off ++ xs.map some).length = off + xs.length := by
    simp only [List.length_append, List.length_take, List.length_map]
    omega
  rw [store, ← hlen, List.take_left]

end Block
end Memory
