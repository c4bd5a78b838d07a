import Mathlib.Algebra.BigOperators.Intervals
import Mathlib.Algebra.Order.Ring.Abs
import Mathlib.Algebra.Order.Ring.Int
import Mathlib.Tactic.NormNum
import PrefillOpt.Lib.BlockSplit

/-!
# Lanes — vector registers whose arithmetic must not overflow

A register is the sequence of the integers its lanes hold; lanes past its width are never read.
An operation on `n` lanes of a width has no result when the exact value of a lane does not fit.
Bounds on the lanes go through the operations, and so do their sums.
-/

namespace PrefillOpt
namespace Lib

abbrev Lanes := Nat → Int

/-- The values of a signed integer of `bits` bits. -/
def Fits (bits : Nat) (z : Int) : Prop :=
  -(2 ^ (bits - 1) : Int) ≤ z ∧ z < (2 ^ (bits - 1) : Int)

instance (bits : Nat) (z : Int) : Decidable (Fits bits z) :=
  inferInstanceAs (Decidable (_ ∧ _))

/-- An operation on `n` lanes whose exact result is `v`. -/
def checked (bits n : Nat) (v : Lanes) : Option Lanes :=
  if ∀ i < n, Fits bits (v i) then some v else none

/-- No lane of `n` is larger than `B` in absolute value. -/
def Within (B : Int) (n : Nat) (v : Lanes) : Prop :=
  ∀ i < n, |v i| ≤ B

namespace Within

variable {A B : Int} {n m : Nat} {a b v : Lanes}

theorem checked (h : Within B n v) {bits : Nat} (hB : B < (2 ^ (bits - 1) : Int)) :
    checked bits n v = some v := by
  refine if_pos fun i hi => ?_
  have habs := abs_le.1 (h i hi)
  constructor
  · -- the smallest value is one below the largest one negated
    have hneg : -(2 ^ (bits - 1) : Int) ≤ -B := neg_le_neg hB.le
    exact hneg.trans habs.1
  · exact habs.2.trans_lt hB

theorem add (ha : Within A n a) (hb : Within B n b) : Within (A + B) n fun i => a i + b i := by
  intro i hi
  exact (abs_add_le (a i) (b i)).trans (add_le_add (ha i hi) (hb i hi))

theorem mul (ha : Within A n a) (hb : Within B n b) : Within (A * B) n fun i => a i * b i := by
  intro i hi
  rw [abs_mul]
  have hA : 0 ≤ A := (abs_nonneg (a i)).trans (ha i hi)
  exact mul_le_mul (ha i hi) (hb i hi) (abs_nonneg (b i)) hA

theorem mono (h : Within B m v) (hn : n ≤ m) : Within B n v :=
  fun i hi => h i (hi.trans_le hn)

/-- The lanes from lane `m` on. -/
theorem shift (h : Within B (m + n) v) : Within B n fun i => v (i + m) :=
  fun i hi => h (i + m) (by omega)

/-- One lane from each group of `k`. -/
theorem group {k : Nat} (h : Within B (n * k) v) {r : Nat} (hr : r < k) :
    Within B n fun i => v (i * k + r) := by
  intro i hi
  refine h _ ?_
  calc i * k + r < i * k + k := by omega
    _ = (i + 1) * k := by rw [Nat.succ_mul]
    _ ≤ n * k := Nat.mul_le_mul_right k hi

/-- The sums of neighbours. -/
theorem pairs (h : Within B (n * 2) v) : Within (B + B) n fun i => v (i * 2) + v (i * 2 + 1) :=
  (h.group (r := 0) Nat.two_pos).add (h.group (r := 1) Nat.one_lt_two)

end Within

/-! ## Sums of lanes -/

/-- Adding neighbours leaves the sum of all lanes as it is. -/
theorem sum_pairs (n : Nat) (v : Lanes) :
    ∑ i ∈ Finset.range n, (v (i * 2) + v (i * 2 + 1)) = ∑ i ∈ Finset.range (n * 2), v i := by
  rw [← sum_blocks]
  refine Finset.sum_congr rfl fun i _ => ?_
  rw [Finset.sum_range_succ, Finset.sum_range_one]
  rfl

/-- So does adding the upper half to the lower one. -/
theorem sum_halves (n : Nat) (v : Lanes) :
    ∑ i ∈ Finset.range n, (v i + v (i + n)) = ∑ i ∈ Finset.range (n + n), v i := by
  rw [Finset.sum_add_distrib, Finset.sum_range_add]
  simp only [Nat.add_comm n]

/-! ## Loops that add up -/

/-- A loop that never fails and adds `g a` to a measure of its state in the turn of `a`. -/
theorem foldlM_adds {σ τ M : Type} [AddCommMonoid M] (f : σ → τ → Option σ) (measure : σ → M)
    (g : τ → M) (l : List τ)
    (hstep : ∀ s, ∀ a ∈ l, ∃ s', f s a = some s' ∧ measure s' = measure s + g a) (s : σ) :
    ∃ s', l.foldlM f s = some s' ∧ measure s' = measure s + (l.map g).sum := by
  induction l generalizing s with
  | nil => exact ⟨s, rfl, by simp⟩
  | cons a l ih =>
      rcases hstep s a List.mem_cons_self with ⟨s₁, hs₁, hm₁⟩
      rcases ih (fun s b hb => hstep s b (List.mem_cons_of_mem a hb)) s₁ with ⟨s₂, hs₂, hm₂⟩
      refine ⟨s₂, ?_, ?_⟩
      · rw [List.foldlM_cons, hs₁]
        exact hs₂
      · rw [hm₂, hm₁, List.map_cons, List.sum_cons, add_assoc]

theorem mapM_some {σ τ : Type} {f : σ → Option τ} {g : σ → τ} {l : List σ}
    (h : ∀ a ∈ l, f a = some (g a)) : l.mapM f = some (l.map g) := by
  induction l with
  | nil => rfl
  | cons a l ih =>
      rw [List.mapM_cons, h a List.mem_cons_self, ih fun b hb => h b (List.mem_cons_of_mem a hb)]
      rfl

end Lib
end PrefillOpt
