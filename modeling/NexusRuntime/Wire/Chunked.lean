import Mathlib.Data.List.TakeWhile
import NexusRuntime.Wire.Head

namespace Wire

def encodeChunk (xs : Octets) : Octets := hex.encode xs.length ++ crlf ++ xs ++ crlf

def lastChunk : Octets := [48, 13, 10, 13, 10]

def readChunks : Nat → Octets → Option (Octets × Octets)
  | 0, _ => none
  | fuel + 1, xs =>
    (readLine xs).bind fun p =>
      (hex.read (p.1.takeWhile (· ≠ 59))).bind fun size =>
        if size = 0 then (readFields (p.2.length + 1) p.2).map fun q => ([], q.2)
        else if crlf <+: p.2.drop size then
          (readChunks fuel (p.2.drop (size + 2))).map fun q => (p.2.take size ++ q.1, q.2)
        else none

theorem readChunks_last (fuel : Nat) (rest : Octets) :
    readChunks (fuel + 1) (lastChunk ++ rest) = some ([], rest) := by
  have hline : readLine (lastChunk ++ rest) = some ([48], 13 :: 10 :: rest) := rfl
  have hsize : hex.read (([48] : Octets).takeWhile (· ≠ 59)) = some 0 := by decide
  rw [readChunks, hline, Option.bind_some, hsize, Option.bind_some, if_pos rfl]
  rfl

theorem readChunks_step {c : Octets} (hc : c ≠ []) (fuel : Nat) (rest : Octets) :
    readChunks (fuel + 1) (encodeChunk c ++ rest) =
      (readChunks fuel rest).map fun q => (c ++ q.1, q.2) := by
  have hlen : c.length ≠ 0 := fun h => hc (List.length_eq_zero_iff.mp h)
  have hline : readLine (encodeChunk c ++ rest) = some (hex.encode c.length, c ++ (crlf ++ rest)) := by
    have hsplit : encodeChunk c ++ rest = hex.encode c.length ++ (crlf ++ (c ++ (crlf ++ rest))) := by
      simp only [encodeChunk, List.append_assoc]
    rw [hsplit]
    exact readLine_encode (fun d hd => (hex.encode_ascii hd).1) _
  have hsize : hex.read ((hex.encode c.length).takeWhile (· ≠ 59)) = some c.length := by
    have hall : ∀ d ∈ hex.encode c.length, (d ≠ 59) = true := fun d hd => by
      simpa using (hex.encode_ascii hd).2
    rw [List.takeWhile_eq_self_iff.mpr (by simpa using hall), hex.read_encode]
  have hdrop : (c ++ (crlf ++ rest)).drop c.length = crlf ++ rest := List.drop_left
  have hnext : (c ++ (crlf ++ rest)).drop (c.length + 2) = rest := by
    rw [← List.drop_drop, hdrop]
    rfl
  rw [readChunks, hline, Option.bind_some, hsize, Option.bind_some, if_neg hlen, hdrop,
    if_pos (List.prefix_append _ _), hnext, List.take_left]

theorem readChunks_encode {cs : List Octets} (hcs : ∀ c ∈ cs, c ≠ []) (rest : Octets) {fuel : Nat}
    (hfuel : cs.length < fuel) :
    readChunks fuel (cs.flatMap encodeChunk ++ (lastChunk ++ rest)) = some (cs.flatten, rest) := by
  induction cs generalizing fuel with
  | nil =>
    obtain ⟨n, rfl⟩ := Nat.exists_eq_succ_of_ne_zero (Nat.ne_of_gt hfuel)
    exact readChunks_last n rest
  | cons c cs ih =>
    obtain ⟨n, rfl⟩ := Nat.exists_eq_succ_of_ne_zero (Nat.ne_of_gt (Nat.lt_of_le_of_lt (Nat.zero_le _) hfuel))
    have hrest := ih (fun d hd => hcs d (List.mem_cons_of_mem c hd)) (Nat.lt_of_succ_lt_succ hfuel)
    rw [List.flatMap_cons, List.append_assoc, readChunks_step (hcs c (List.mem_cons_self ..)), hrest]
    rfl

theorem encodeChunk_length (cs : List Octets) : cs.length ≤ (cs.flatMap encodeChunk).length := by
  induction cs with
  | nil => exact Nat.le_refl 0
  | cons c cs ih =>
    simp only [List.flatMap_cons, List.length_append, List.length_cons, encodeChunk, crlf]
    omega

end Wire
