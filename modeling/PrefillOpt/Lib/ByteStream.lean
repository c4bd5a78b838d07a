import Mathlib.Data.List.Basic

/-!
# ByteStream — a FIFO byte stream, and transfers cut into chunks

A stream is the list of the cells that have arrived and were not taken yet.  A read that asks
for more than that blocks; its outcome is `none`.
-/

namespace PrefillOpt
namespace Lib

variable {β : Type}

/-- Take `n` cells from the front, or block. -/
def readStream (n : Nat) (s : List β) : Option (List β × List β) :=
  if n ≤ s.length then some (s.take n, s.drop n) else none

theorem readStream_append {n : Nat} {xs : List β} (h : xs.length = n) (rest : List β) :
    readStream n (xs ++ rest) = some (xs, rest) := by
  simp [readStream, ← h]

/-- Cut a list into pieces of `k` cells, the last one shorter.  The fuel is the length. -/
def cut (k : Nat) : Nat → List β → List (List β)
  | 0, _ => []
  | fuel + 1, xs => if xs = [] then [] else xs.take k :: cut k fuel (xs.drop k)

theorem cut_flatten {k : Nat} (hk : 0 < k) (fuel : Nat) (xs : List β) (h : xs.length ≤ fuel) :
    (cut k fuel xs).flatten = xs := by
  induction fuel generalizing xs with
  | zero =>
      have hxs : xs = [] := List.length_eq_zero_iff.mp (Nat.le_zero.mp h)
      simp [cut, hxs]
  | succ fuel ih =>
      unfold cut
      split_ifs with hxs
      · simp [hxs]
      · have hlen : (xs.drop k).length ≤ fuel := by
          simp only [List.length_drop]
          omega
        rw [List.flatten_cons, ih _ hlen, List.take_append_drop]

/-- Take `n` cells in pieces of `k`. -/
def readChunks (k : Nat) : Nat → Nat → List β → Option (List β × List β)
  | 0, _, s => some ([], s)
  | fuel + 1, n, s =>
      if n = 0 then some ([], s)
      else do
        let (chunk, s) ← readStream (min k n) s
        let (more, s) ← readChunks k fuel (n - min k n) s
        return (chunk ++ more, s)

/-- Reading in pieces is reading at once. -/
theorem readChunks_append {k : Nat} (hk : 0 < k) (fuel n : Nat) (hfuel : n ≤ fuel) {xs : List β}
    (h : xs.length = n) (rest : List β) : readChunks k fuel n (xs ++ rest) = some (xs, rest) := by
  induction fuel generalizing n xs with
  | zero =>
      have hxs : xs = [] := List.length_eq_zero_iff.mp (by omega)
      simp [readChunks, hxs]
  | succ fuel ih =>
      unfold readChunks
      split_ifs with hn
      · have hxs : xs = [] := List.length_eq_zero_iff.mp (by omega)
        simp [hxs]
      · -- the first piece is a prefix of what is left to read
        have hsplit : xs ++ rest = xs.take k ++ (xs.drop k ++ rest) := by
          rw [← List.append_assoc, List.take_append_drop]
        have hfirst : (xs.take k).length = min k n := by
          simp [h]
        have hrest : (xs.drop k).length = n - min k n := by
          simp only [List.length_drop]
          omega
        rw [hsplit, readStream_append hfirst]
        simp [ih _ (by omega) hrest]

end Lib
end PrefillOpt
