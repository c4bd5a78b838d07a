import Mathlib.Algebra.BigOperators.Intervals
import Mathlib.Data.List.Perm.Basic
import Mathlib.Order.Monotone.Basic

/-!
# BlockSplit — sharing `m` items among `n`

Three usual ways.  Equal blocks.  Consecutive blocks: the first `m % n` blocks have one item more
than the others.
Strides: item `s` goes to `s % n`, so that `r` gets `r, r + n, r + 2 * n, …`.  In the last two `r`
gets `blockCount m n r` items.
-/

namespace PrefillOpt
namespace Lib

/-! ## Equal blocks -/

/-- Digits of a mixed radix. -/
theorem add_mul_lt {a b m n : Nat} (ha : a < m) (hb : b < n) : a * n + b < m * n := by
  calc a * n + b
      < a * n + n := Nat.add_lt_add_left hb _
    _ = (a + 1) * n := (Nat.succ_mul a n).symm
    _ ≤ m * n := Nat.mul_le_mul_right n ha

theorem add_mul_inj {a b a' b' n : Nat} (hb : b < n) (hb' : b' < n)
    (h : a * n + b = a' * n + b') : a = a' ∧ b = b' := by
  have hn : 0 < n := by omega
  have hdiv := congrArg (· / n) h
  have hmod := congrArg (· % n) h
  simp only [Nat.mul_comm _ n, Nat.mul_add_div hn, Nat.div_eq_of_lt hb, Nat.div_eq_of_lt hb',
    Nat.mul_add_mod, Nat.mod_eq_of_lt hb, Nat.mod_eq_of_lt hb', Nat.add_zero] at hdiv hmod
  exact ⟨hdiv, hmod⟩

/-- `n` blocks of `k` items, one after the other, are all items in order. -/
theorem flatMap_blocks {τ : Type} (n k : Nat) (f : Nat → τ) :
    ((List.range n).flatMap fun r => (List.range k).map fun i => f (r * k + i))
      = (List.range (n * k)).map f := by
  induction n with
  | zero => simp
  | succ n ih =>
      rw [List.range_succ, List.flatMap_append, ih, Nat.succ_mul, List.range_add, List.map_append,
        List.map_map]
      simp [Function.comp_def]

theorem sum_blocks {M : Type} [AddCommMonoid M] (n k : Nat) (f : Nat → M) :
    ∑ r ∈ Finset.range n, ∑ i ∈ Finset.range k, f (r * k + i)
      = ∑ i ∈ Finset.range (n * k), f i := by
  induction n with
  | zero => simp
  | succ n ih =>
      rw [Finset.sum_range_succ, ih, Nat.succ_mul, Finset.sum_range_add]

/-- Blocks of `k` items of which the last ones are cut off or empty. -/
theorem flatMap_chunks {m n k : Nat} (h : m ≤ n * k) :
    ((List.range n).flatMap fun r => List.range' (r * k) (min k (m - r * k))) = List.range m := by
  have key : ∀ j, ((List.range j).flatMap fun r => List.range' (r * k) (min k (m - r * k)))
      = List.range (min (j * k) m) := by
    intro j
    induction j with
    | zero => simp
    | succ j ih =>
        rw [List.range_succ, List.flatMap_append, ih, List.flatMap_singleton, Nat.succ_mul]
        rcases Nat.le_total (j * k) m with hle | hge
        · have hend : min (j * k + k) m = j * k + min k (m - j * k) := by omega
          rw [Nat.min_eq_left hle, hend, List.range_eq_range', List.range_eq_range',
            ← List.range'_append_1, Nat.zero_add]
        · have hnone : min k (m - j * k) = 0 := by omega
          have hend : min (j * k + k) m = m := by omega
          rw [Nat.min_eq_right hge, hnone, hend, List.range'_zero, List.append_nil]
  rw [key n, Nat.min_eq_right h]

/-- The loops over rows and columns can be exchanged. -/
theorem flatMap_comm {α β γ : Type} (l : List α) (m : List β) (f : α → β → List γ) :
    (l.flatMap fun a => m.flatMap (f a)).Perm (m.flatMap fun b => l.flatMap fun a => f a b) := by
  induction l with
  | nil => simp
  | cons a l ih =>
      simp only [List.flatMap_cons]
      exact (ih.append_left _).trans (List.flatMap_append_perm m (f a) _)

/-! ## Consecutive blocks -/

/-- First item of block `r`. -/
def blockStart (m n r : Nat) : Nat :=
  r * (m / n) + min r (m % n)

/-- Number of items of block `r`. -/
def blockCount (m n r : Nat) : Nat :=
  m / n + if r < m % n then 1 else 0

theorem blockStart_zero (m n : Nat) : blockStart m n 0 = 0 := by
  simp [blockStart]

/-- The blocks follow each other without a gap. -/
theorem blockStart_succ (m n r : Nat) :
    blockStart m n (r + 1) = blockStart m n r + blockCount m n r := by
  simp only [blockStart, blockCount, Nat.succ_mul]
  split_ifs <;> omega

theorem blockStart_self {m n : Nat} (hn : 0 < n) : blockStart m n n = m := by
  have h := Nat.mod_lt m hn
  rw [blockStart, Nat.min_eq_right h.le]
  exact Nat.div_add_mod m n

theorem blockStart_mono (m n : Nat) : Monotone (blockStart m n) := by
  refine monotone_nat_of_le_succ fun r => ?_
  rw [blockStart_succ]
  omega

theorem blockStart_add_blockCount_le {m n r : Nat} (hr : r < n) :
    blockStart m n r + blockCount m n r ≤ m := by
  have hle := blockStart_mono m n (show r + 1 ≤ n from hr)
  rwa [blockStart_succ, blockStart_self (by omega)] at hle

/-- Every item is in a block. -/
theorem exists_block {m n b : Nat} (hn : 0 < n) (hb : b < m) :
    ∃ r, r < n ∧ blockStart m n r ≤ b ∧ b < blockStart m n r + blockCount m n r := by
  have key : ∀ k, b < blockStart m n k →
      ∃ r, r < k ∧ blockStart m n r ≤ b ∧ b < blockStart m n r + blockCount m n r := by
    intro k
    induction k with
    | zero =>
        intro h
        rw [blockStart_zero] at h
        omega
    | succ k ih =>
        intro h
        rw [blockStart_succ] at h
        rcases Nat.lt_or_ge b (blockStart m n k) with hlt | hge
        · obtain ⟨r, hr, h'⟩ := ih hlt
          exact ⟨r, by omega, h'⟩
        · exact ⟨k, by omega, hge, h⟩
  exact key n (by rwa [blockStart_self hn])

/-- No item is in two blocks. -/
theorem block_unique {m n r r' b : Nat} (h : blockStart m n r ≤ b)
    (h₁ : b < blockStart m n r + blockCount m n r) (h' : blockStart m n r' ≤ b)
    (h₁' : b < blockStart m n r' + blockCount m n r') : r = r' := by
  rw [← blockStart_succ] at h₁ h₁'
  rcases Nat.lt_trichotomy r r' with hlt | heq | hgt
  · have := blockStart_mono m n (show r + 1 ≤ r' from hlt)
    omega
  · exact heq
  · have := blockStart_mono m n (show r' + 1 ≤ r from hgt)
    omega

/-- The blocks, one after the other, are all items in order. -/
theorem flatMap_blockStart {m n : Nat} (hn : 0 < n) :
    ((List.range n).flatMap fun r => List.range' (blockStart m n r) (blockCount m n r))
      = List.range m := by
  have key : ∀ k, ((List.range k).flatMap fun r =>
      List.range' (blockStart m n r) (blockCount m n r)) = List.range (blockStart m n k) := by
    intro k
    induction k with
    | zero => rw [blockStart_zero]; rfl
    | succ k ih =>
        rw [List.range_succ, List.flatMap_append, ih, List.flatMap_singleton, blockStart_succ,
          List.range_eq_range', List.range_eq_range', ← List.range'_append_1, Nat.zero_add]
  rw [key n, blockStart_self hn]

/-- With at least as many items as blocks, no block is empty. -/
theorem blockCount_pos {m n r : Nat} (hn : 0 < n) (h : n ≤ m) : 0 < blockCount m n r := by
  have := Nat.div_pos h hn
  simp only [blockCount]
  omega

/-! ## Strides -/

/-- One more item is one more for the one it goes to. -/
theorem blockCount_succ {m n r : Nat} (hr : r < n) :
    blockCount (m + 1) n r = blockCount m n r + if m % n = r then 1 else 0 := by
  have hmod := Nat.mod_lt m (show 0 < n by omega)
  have hm := Nat.div_add_mod m n
  rcases Nat.lt_or_ge (m % n + 1) n with h | h
  · have hdiv : (m + 1) / n = m / n ∧ (m + 1) % n = m % n + 1 := by
      rw [Nat.div_mod_unique (by omega)]
      exact ⟨by omega, h⟩
    simp only [blockCount, hdiv.1, hdiv.2]
    split_ifs <;> omega
  · have hdiv : (m + 1) / n = m / n + 1 ∧ (m + 1) % n = 0 := by
      rw [Nat.div_mod_unique (by omega), Nat.mul_succ]
      exact ⟨by omega, by omega⟩
    simp only [blockCount, hdiv.1, hdiv.2]
    split_ifs <;> omega

/-- The next item that goes to `r`, if it goes there. -/
theorem add_blockCount_mul {m n r : Nat} (h : m % n = r) : r + blockCount m n r * n = m := by
  subst h
  rw [blockCount, if_neg (Nat.lt_irrefl _), Nat.add_zero, Nat.mul_comm]
  exact Nat.mod_add_div m n

/-- The stride of `r` stays below `m`. -/
theorem stride_lt {m n r i : Nat} (hr : r < n) (hi : i < blockCount m n r) : r + i * n < m := by
  have hm := Nat.div_add_mod m n
  rw [Nat.mul_comm] at hm
  unfold blockCount at hi
  split_ifs at hi with h
  · have := Nat.mul_le_mul_right n (show i ≤ m / n by omega)
    omega
  · have := Nat.mul_le_mul_right n (show i + 1 ≤ m / n by omega)
    rw [Nat.succ_mul] at this
    omega

/-- Every item is in the stride of its remainder. -/
theorem div_lt_blockCount {m n s : Nat} (hs : s < m) :
    s / n < blockCount m n (s % n) := by
  have hm := Nat.div_add_mod m n
  have hs' := Nat.div_add_mod s n
  have hle : s / n ≤ m / n := Nat.div_le_div_right hs.le
  unfold blockCount
  split_ifs with h
  · omega
  · rcases Nat.lt_or_ge (s / n) (m / n) with hlt | hge
    · omega
    · have heq : s / n = m / n := by omega
      rw [heq] at hs'
      omega

/-- Walking over all items and keeping those of `r` is walking over the stride of `r`. -/
theorem flatMap_stride {τ : Type} {m n r : Nat} (hr : r < n) (F : Nat → List τ) :
    ((List.range m).flatMap fun s => if s % n = r then F s else [])
      = (List.range (blockCount m n r)).flatMap fun i => F (r + i * n) := by
  induction m with
  | zero => simp [blockCount]
  | succ m ih =>
      rw [List.range_succ, List.flatMap_append, ih, blockCount_succ hr]
      split_ifs with h
      · rw [List.range_succ, List.flatMap_append]
        simp [h, add_blockCount_mul h]
      · simp [h]

end Lib
end PrefillOpt
