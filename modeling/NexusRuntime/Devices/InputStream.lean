import Mathlib.Data.List.Basic

namespace NexusRuntime

structure InputStream where
  content : List UInt8
  pos : Nat
  eofbit : Bool
  failbit : Bool
deriving DecidableEq, Repr

namespace InputStream

def opened (content : List UInt8) : InputStream := ⟨content, 0, false, false⟩

def good (s : InputStream) : Bool := !s.eofbit && !s.failbit

def rest (s : InputStream) : List UInt8 := s.content.drop s.pos

def eof (s : InputStream) : Bool := s.eofbit

-- in_avail() may answer 0 anywhere, and -1 (none) only at the end of the file
def inAvail (s : InputStream) : Option Nat → Bool
  | none => s.rest.isEmpty
  | some k => decide (k ≤ s.rest.length)

def extract (s : InputStream) (n : Nat) : InputStream × List UInt8 :=
  ({ s with pos := s.pos + (s.rest.take n).length }, s.rest.take n)

def readsome (s : InputStream) (n : Nat) (avail : Option Nat) : InputStream × List UInt8 :=
  match s.good, avail with
  | true, some k => s.extract (min k n)
  | true, none => ({ s with eofbit := true }, [])
  | false, _ => ({ s with failbit := true }, [])

def read (s : InputStream) (n : Nat) : InputStream × List UInt8 :=
  match s.good with
  | true =>
    let (t, bytes) := s.extract n
    if bytes.length < n then ({ t with eofbit := true, failbit := true }, bytes) else (t, bytes)
  | false => ({ s with failbit := true }, [])

structure Advances (s : InputStream) (r : InputStream × List UInt8) : Prop where
  content : r.1.content = s.content
  bytes : s.content.take r.1.pos = s.content.take s.pos ++ r.2
  eof : s.eofbit = true → r.1.eofbit = true

theorem advances_self (s : InputStream) (e f : Bool) (he : s.eofbit = true → e = true) :
    s.Advances ({ s with eofbit := e, failbit := f }, []) :=
  ⟨rfl, (List.append_nil _).symm, he⟩

theorem advances_trans {s t u : InputStream} {xs ys : List UInt8} (h : s.Advances (t, xs))
    (k : t.Advances (u, ys)) : s.Advances (u, xs ++ ys) where
  content := k.content.trans h.content
  bytes := by
    have hk := k.bytes
    rw [h.content, h.bytes, List.append_assoc] at hk
    exact hk
  eof := fun he => k.eof (h.eof he)

theorem extract_advances (s : InputStream) (n : Nat) : s.Advances (s.extract n) where
  content := rfl
  bytes := by
    simp only [extract, rest, List.take_add, List.length_take]
    congr 1
    rw [← List.take_take, List.take_length]
  eof := id

theorem readsome_advances (s : InputStream) (n : Nat) (avail : Option Nat) :
    s.Advances (s.readsome n avail) := by
  simp only [readsome]
  split
  · exact extract_advances s _
  · exact advances_self s _ _ fun _ => rfl
  · exact advances_self s _ _ id

theorem read_advances (s : InputStream) (n : Nat) : s.Advances (s.read n) := by
  have he := extract_advances s n
  simp only [read]
  split
  · split
    · exact ⟨he.content, he.bytes, fun _ => rfl⟩
    · exact he
  · exact advances_self s _ _ id

theorem not_good {s : InputStream} (h : s.failbit = true) : s.good = false := by
  simp [good, h]

theorem read_short {s : InputStream} {n : Nat} (hgood : s.good = true) (h : s.rest.length < n) :
    s.read n = (⟨s.content, s.pos + s.rest.length, true, true⟩, s.rest) := by
  have hall : s.rest.take n = s.rest := List.take_of_length_le (by omega)
  simp [read, extract, hgood, hall, h]

theorem read_full {s : InputStream} {n : Nat} (hgood : s.good = true) (h : n ≤ s.rest.length) :
    s.read n = ({ s with pos := s.pos + n }, s.rest.take n) := by
  simp [read, extract, hgood, h]

def fetch (s : InputStream) (n : Nat) (avail : Option Nat) : InputStream × List UInt8 :=
  match s.readsome n avail with
  | (t, []) => t.read n
  | (t, b :: bs) => (t, b :: bs)

def Consistent (s : InputStream) : Prop := s.failbit = true → s.eofbit = true

theorem eof_of_not_good {s : InputStream} (hs : s.Consistent) (hg : s.good = false) :
    s.eofbit = true := by
  cases he : s.eofbit with
  | true => rfl
  | false =>
    have hf : s.failbit = true := by simpa [good, he] using hg
    simpa [he] using hs hf

theorem readsome_consistent {s : InputStream} (hs : s.Consistent) (n : Nat) (avail : Option Nat) :
    (s.readsome n avail).1.Consistent := by
  simp only [readsome]
  split
  · exact hs
  · exact fun _ => rfl
  · rename_i hg
    have he := eof_of_not_good hs hg
    exact fun _ => he

theorem read_consistent {s : InputStream} (hs : s.Consistent) (n : Nat) :
    (s.read n).1.Consistent := by
  simp only [read]
  split
  · split
    · exact fun _ => rfl
    · exact hs
  · rename_i hg
    have he := eof_of_not_good hs hg
    exact fun _ => he

theorem read_nothing {s : InputStream} (hs : s.Consistent) {n : Nat} (hn : 0 < n)
    (h : (s.read n).2 = []) : (s.read n).1.eofbit = true := by
  cases hg : s.good with
  | false =>
    simp only [read, hg]
    exact eof_of_not_good hs hg
  | true =>
    simp only [read, hg] at h ⊢
    split at h
    · rename_i hlt
      rw [if_pos hlt]
    · rename_i hlt
      rw [h] at hlt
      exact absurd hn hlt

theorem fetch_advances (s : InputStream) (n : Nat) (avail : Option Nat) :
    s.Advances (s.fetch n avail) := by
  have h := readsome_advances s n avail
  simp only [fetch]
  split
  · rename_i t heq
    rw [heq] at h
    exact advances_trans h (read_advances t n)
  · rename_i t b bs heq
    rw [heq] at h
    exact h

theorem fetch_consistent {s : InputStream} (hs : s.Consistent) (n : Nat) (avail : Option Nat) :
    (s.fetch n avail).1.Consistent := by
  have h := readsome_consistent hs n avail
  simp only [fetch]
  split
  · rename_i t heq
    rw [heq] at h
    exact read_consistent h n
  · rename_i t b bs heq
    rw [heq] at h
    exact h

theorem fetch_nothing {s : InputStream} (hs : s.Consistent) {n : Nat} (hn : 0 < n)
    (avail : Option Nat) (h : (s.fetch n avail).2 = []) : (s.fetch n avail).1.eofbit = true := by
  have hc := readsome_consistent hs n avail
  simp only [fetch] at h ⊢
  split at h
  · rename_i t heq
    rw [heq] at hc
    exact read_nothing hc hn h
  · cases h

def Exhausted (s : InputStream) : Prop := s.eofbit = true → s.content.length ≤ s.pos

theorem readsome_exhausted {s : InputStream} (hs : s.Exhausted) (n : Nat) {avail : Option Nat}
    (ha : s.inAvail avail = true) : (s.readsome n avail).1.Exhausted := by
  simp only [readsome]
  split
  · exact fun he => Nat.le_trans (hs he) (Nat.le_add_right _ _)
  · intro _
    have hrest : s.rest = [] := List.isEmpty_iff.mp ha
    exact List.drop_eq_nil_iff.mp hrest
  · exact hs

theorem read_exhausted {s : InputStream} (hs : s.Exhausted) (n : Nat) : (s.read n).1.Exhausted := by
  simp only [read]
  split
  · split
    · next hshort =>
      intro _
      simp only [extract, rest, List.length_take, List.length_drop] at hshort ⊢
      omega
    · exact fun he => Nat.le_trans (hs he) (Nat.le_add_right _ _)
  · exact hs

theorem fetch_exhausted {s : InputStream} (hs : s.Exhausted) (n : Nat) {avail : Option Nat}
    (ha : s.inAvail avail = true) : (s.fetch n avail).1.Exhausted := by
  have h := readsome_exhausted hs n ha
  simp only [fetch]
  split
  · next t heq =>
    rw [heq] at h
    exact read_exhausted h n
  · next t b bs heq =>
    rw [heq] at h
    exact h

end InputStream
end NexusRuntime
