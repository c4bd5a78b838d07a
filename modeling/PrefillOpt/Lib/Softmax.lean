import Mathlib.Algebra.BigOperators.Field
import Mathlib.Algebra.Order.BigOperators.Group.Finset
import Mathlib.Algebra.Order.Field.Basic
import Mathlib.Tactic.Ring

/-!
# Softmax — averages with exponential weights, all at once and in parts

An exponential `e` on an ordered field is positive and takes sums to products.  The average of
`w` over a finite set of indices has the weights `e (s t)`.  It can be accumulated in parts,
relative to a reference that may change on the way.
-/

namespace PrefillOpt
namespace Lib

/-- The exponential laws. -/
structure IsExp {R : Type} [Field R] [LinearOrder R] (e : R → R) : Prop where
  pos : ∀ x, 0 < e x
  add : ∀ x y, e (x + y) = e x * e y

section Softmax

variable {R : Type} [Field R] {e : R → R} {s w : Nat → R}

/-- Weighted sum relative to `μ`. -/
def expSum (e : R → R) (S : Finset Nat) (s : Nat → R) (μ : R) (w : Nat → R) : R :=
  ∑ t ∈ S, e (s t - μ) * w t

/-- The average of `w` with the weights `e (s t)`. -/
def softmaxAverage (e : R → R) (S : Finset Nat) (s w : Nat → R) : R :=
  (∑ t ∈ S, e (s t) * w t) / ∑ t ∈ S, e (s t)

/-- What an online softmax holds after the positions `S` are in the sum and the positions `S'`
in the weighted sum: a reference, if there is one yet, and both sums relative to it. -/
inductive Accumulated (e : R → R) (s w : Nat → R) (S S' : Finset Nat) : Option R → R → R → Prop
  | empty (hS : S = ∅) (hS' : S' = ∅) : Accumulated e s w S S' none 0 0
  | relative (μ : R) :
      Accumulated e s w S S' (some μ) (expSum e S s μ fun _ => 1) (expSum e S' s μ w)

/-- The factor that takes sums relative to an old reference to a new one. -/
def rescaleFactor (e : R → R) (old : Option R) (μ : R) : R :=
  match old with
  | none => 0
  | some m => e (m - μ)

theorem expSum_insert {S : Finset Nat} {t : Nat} (ht : t ∉ S) (μ : R) :
    expSum e (insert t S) s μ w = expSum e S s μ w + e (s t - μ) * w t := by
  rw [expSum, Finset.sum_insert ht, add_comm]
  rfl

theorem expSum_union {S T : Finset Nat} (h : Disjoint S T) (μ : R) :
    expSum e (S ∪ T) s μ w = expSum e S s μ w + expSum e T s μ w :=
  Finset.sum_union h

namespace Accumulated

variable {S S' : Finset Nat} {m : Option R} {l o : R}

theorem start : Accumulated e s w ∅ ∅ none 0 0 :=
  .empty rfl rfl

/-- Without a reference nothing has been added yet. -/
theorem eq_empty (h : Accumulated e s w S S' none l o) : S = ∅ := by
  cases h
  assumption

/-- The next positions enter the sum. -/
theorem extend {μ : R} (h : Accumulated e s w S S' (some μ) l o) {T : Finset Nat}
    (hT : Disjoint S T) : Accumulated e s w (S ∪ T) S' (some μ) (l + ∑ t ∈ T, e (s t - μ)) o := by
  cases h
  have hsum : ∑ t ∈ T, e (s t - μ) = expSum e T s μ fun _ => 1 := by
    simp only [expSum, mul_one]
  rw [hsum, ← expSum_union hT]
  exact .relative μ

/-- One position enters the weighted sum. -/
theorem insert {μ : R} (h : Accumulated e s w S S' (some μ) l o) {t : Nat} (ht : t ∉ S') :
    Accumulated e s w S (insert t S') (some μ) l (o + e (s t - μ) * w t) := by
  cases h
  rw [← expSum_insert ht]
  exact .relative μ

end Accumulated

variable [LinearOrder R]

theorem IsExp.mul_expSum (he : IsExp e) (S : Finset Nat) (μ ν : R) :
    e (μ - ν) * expSum e S s μ w = expSum e S s ν w := by
  rw [expSum, Finset.mul_sum]
  refine Finset.sum_congr rfl fun t _ => ?_
  have hsplit : s t - ν = μ - ν + (s t - μ) := by ring
  rw [hsplit, he.add, mul_assoc]

theorem Accumulated.rescale {S S' : Finset Nat} {m : Option R} {l o : R} (he : IsExp e)
    (h : Accumulated e s w S S' m l o) (ν : R) :
    Accumulated e s w S S' (some ν) (l * rescaleFactor e m ν) (o * rescaleFactor e m ν) := by
  cases h with
  | empty hS hS' =>
      subst hS hS'
      rw [zero_mul]
      exact .relative ν
  | relative μ =>
      rw [rescaleFactor, mul_comm _ (e (μ - ν)), mul_comm _ (e (μ - ν)), he.mul_expSum,
        he.mul_expSum]
      exact .relative ν

/-- The reference cancels in the quotient. -/
theorem IsExp.expSum_div (he : IsExp e) (S : Finset Nat) (μ : R) :
    expSum e S s μ w / expSum e S s μ (fun _ => 1) = softmaxAverage e S s w := by
  have hshift : ∀ v : Nat → R, expSum e S s μ v = e (0 - μ) * ∑ t ∈ S, e (s t) * v t := by
    intro v
    have hzero := he.mul_expSum (s := s) (w := v) S 0 μ
    rw [← hzero, expSum]
    simp only [sub_zero]
  rw [hshift w, hshift, mul_div_mul_left _ _ (he.pos _).ne', softmaxAverage]
  simp only [mul_one]

/-- A reference cancels in a weight, too. -/
theorem IsExp.sub_div_sum (he : IsExp e) (S : Finset Nat) (μ : R) (t : Nat) :
    e (s t - μ) / ∑ j ∈ S, e (s j - μ) = e (s t) / ∑ j ∈ S, e (s j) := by
  have hshift : ∀ x, e (x - μ) = e (0 - μ) * e x := by
    intro x
    rw [← he.add]
    ring_nf
  have hsum : ∑ j ∈ S, e (s j - μ) = e (0 - μ) * ∑ j ∈ S, e (s j) := by
    rw [Finset.mul_sum]
    exact Finset.sum_congr rfl fun j _ => hshift (s j)
  rw [hsum, hshift (s t)]
  exact mul_div_mul_left _ _ (he.pos _).ne'

variable [IsStrictOrderedRing R]

theorem IsExp.sum_pos (he : IsExp e) {S : Finset Nat} (hS : S.Nonempty) : 0 < ∑ t ∈ S, e (s t) :=
  Finset.sum_pos (fun t _ => he.pos (s t)) hS

/-- When all positions are in both sums, the quotient is the average. -/
theorem Accumulated.div {S : Finset Nat} {m : Option R} {l o : R} (he : IsExp e)
    (hS : S.Nonempty) (h : Accumulated e s w S S m l o) :
    0 < l ∧ o / l = softmaxAverage e S s w := by
  cases h with
  | empty hempty => exact absurd hempty hS.ne_empty
  | relative μ =>
      refine ⟨Finset.sum_pos (fun t _ => ?_) hS, he.expSum_div S μ⟩
      rw [mul_one]
      exact he.pos _

/-- The average of a constant. -/
theorem IsExp.softmaxAverage_one (he : IsExp e) {S : Finset Nat} (hS : S.Nonempty) :
    softmaxAverage e S s (fun _ => 1) = 1 := by
  simp only [softmaxAverage, mul_one]
  exact div_self (he.sum_pos hS).ne'

end Softmax
end Lib
end PrefillOpt
