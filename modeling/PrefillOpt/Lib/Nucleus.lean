import Mathlib.Algebra.BigOperators.Group.Finset.Piecewise
import Mathlib.Algebra.Order.BigOperators.Group.Finset
import Mathlib.Algebra.Order.Field.Basic
import Mathlib.Algebra.Order.Ring.Cast
import Mathlib.Data.Finset.Max
import Mathlib.Tactic.Linarith

/-!
# Nucleus — the smallest set of largest weights over a threshold

The elements of a finite set have weights.  A set leads when no element outside it has a larger
weight than one inside; a nucleus is a leading set whose total is over the threshold and that has
as few elements as any such set.  Equal weights make several leading sets of one size.
-/

namespace PrefillOpt
namespace Lib

variable {ι R : Type} [DecidableEq ι] [LinearOrder R]

/-- The elements of `S` have the largest weights of `U`. -/
structure Leads (p : ι → R) (U S : Finset ι) : Prop where
  subset : S ⊆ U
  above : ∀ i ∈ S, ∀ j ∈ U, j ∉ S → p j ≤ p i

variable {p : ι → R} {U S T : Finset ι}

/-- Without its smallest element a leading set still leads. -/
theorem Leads.erase (h : Leads p U S) {j : ι} (hj : ∀ i ∈ S, p j ≤ p i) :
    Leads p U (S.erase j) := by
  refine ⟨(Finset.erase_subset j S).trans h.subset, ?_⟩
  intro i hi k hk hout
  have hiS := Finset.mem_of_mem_erase hi
  by_cases hkj : k = j
  · exact hkj ▸ hj i hiS
  · exact h.above i hiS k hk fun hkS => hout (Finset.mem_erase.2 ⟨hkj, hkS⟩)

variable [Field R]

structure IsNucleus (p : ι → R) (U : Finset ι) (t : R) (S : Finset ι) : Prop where
  leads : Leads p U S
  exceeds : t < ∑ i ∈ S, p i
  smallest : ∀ S', Leads p U S' → t < ∑ i ∈ S', p i → S.card ≤ S'.card

section Ordered

variable [IsStrictOrderedRing R] {t : R}

/-- No set of the same size or a smaller one weighs more than a leading set. -/
theorem Leads.sum_le (h : Leads p U T) (hp : ∀ i ∈ U, 0 ≤ p i) (hS : S ⊆ U)
    (hcard : S.card ≤ T.card) : ∑ i ∈ S, p i ≤ ∑ i ∈ T, p i := by
  have hrest : (S \ T).card ≤ (T \ S).card := Finset.card_sdiff_le_card_sdiff_iff.2 hcard
  have hdiff : ∑ i ∈ S \ T, p i ≤ ∑ i ∈ T \ S, p i := by
    rcases (T \ S).eq_empty_or_nonempty with hempty | hne
    · rw [hempty, Finset.card_empty, Nat.le_zero, Finset.card_eq_zero] at hrest
      rw [hempty, hrest]
    · -- the smallest of those left out of `S` is at least as large as any put in for them
      rcases Finset.exists_min_image (T \ S) p hne with ⟨m, hm, hmin⟩
      rcases Finset.mem_sdiff.1 hm with ⟨hmT, -⟩
      calc ∑ i ∈ S \ T, p i
          ≤ (S \ T).card • p m := by
            apply Finset.sum_le_card_nsmul
            intro i hi
            rcases Finset.mem_sdiff.1 hi with ⟨hiS, hiT⟩
            exact h.above m hmT i (hS hiS) hiT
        _ ≤ (T \ S).card • p m := nsmul_le_nsmul_left (hp m (h.subset hmT)) hrest
        _ ≤ ∑ i ∈ T \ S, p i := Finset.card_nsmul_le_sum _ _ _ hmin
  rw [← Finset.sum_inter_add_sum_sdiff S T, ← Finset.sum_inter_add_sum_sdiff T S,
    Finset.inter_comm T S]
  exact add_le_add (le_refl _) hdiff

/-- A leading set is a nucleus when it is over the threshold and a leading set with one element
less is not. -/
theorem Leads.isNucleus (h : Leads p U S) (hp : ∀ i ∈ U, 0 ≤ p i) (hS : t < ∑ i ∈ S, p i)
    (hT : Leads p U T) (hsum : ∑ i ∈ T, p i ≤ t) (hcard : S.card ≤ T.card + 1) :
    IsNucleus p U t S := by
  refine ⟨h, hS, fun S' hS' hexceeds => ?_⟩
  by_contra hless
  have hle : S'.card ≤ T.card := by omega
  exact absurd (hT.sum_le hp hS'.subset hle) (not_le.2 (lt_of_le_of_lt hsum hexceeds))

/-! ## Cutting off small weights -/

omit [DecidableEq ι] in
/-- Up to `n` elements below the cut-off share less than `n` cut-offs. -/
theorem sum_lt_of_lt_cutoff {c : R} {n : Nat} (hne : S.Nonempty) (hc : ∀ i ∈ S, p i < c)
    (hpos : 0 ≤ c) (hcard : S.card ≤ n) : ∑ i ∈ S, p i < n * c := by
  calc ∑ i ∈ S, p i
      < ∑ _i ∈ S, c := Finset.sum_lt_sum_of_nonempty hne hc
    _ = (S.card : R) * c := by rw [Finset.sum_const, nsmul_eq_mul]
    _ ≤ n * c := mul_le_mul_of_nonneg_right (Nat.cast_le.2 hcard) hpos

/-- The weights over the cut-off `(1 - t) / (n - 1)` hold a nucleus as soon as there is one. -/
theorem IsNucleus.cutoff_le {n : Nat} (h : IsNucleus p U t S) (hU : U.card = n + 1) (hn : 0 < n)
    (hsum : ∑ i ∈ U, p i = 1) (ht : t < 1) (hmax : ∃ i ∈ U, (1 - t) / n ≤ p i) :
    ∀ j ∈ S, (1 - t) / n ≤ p j := by
  intro j hj
  by_contra hlt
  have hcut : 0 ≤ (1 - t) / n := div_nonneg (sub_nonneg.2 ht.le) (Nat.cast_nonneg n)
  have hn0 : (n : R) ≠ 0 := Nat.cast_ne_zero.2 (Nat.ne_of_gt hn)
  rcases Finset.exists_min_image S p ⟨j, hj⟩ with ⟨m, hm, hmin⟩
  have hmlt : p m < (1 - t) / n := lt_of_le_of_lt (hmin j hj) (not_le.1 hlt)
  -- a largest element is over the cut-off, so `m` is not the only one
  have hrest : (U \ S.erase m).card ≤ n := by
    have hsub : S.erase m ⊆ U := (Finset.erase_subset m S).trans h.leads.subset
    have hne : (S.erase m).Nonempty := by
      rw [Finset.nonempty_iff_ne_empty]
      intro hempty
      rcases hmax with ⟨k, hk, hkcut⟩
      have hkS : k ∉ S := by
        intro hkS
        by_cases hkm : k = m
        · exact absurd hkcut (not_le.2 (hkm ▸ hmlt))
        · have hmem := Finset.mem_erase.2 ⟨hkm, hkS⟩
          rw [hempty] at hmem
          exact absurd hmem (Finset.notMem_empty k)
      exact absurd (hkcut.trans (h.leads.above m hm k hk hkS)) (not_le.2 hmlt)
    have hcount := Finset.card_sdiff_add_card_eq_card hsub
    have hpos := Finset.card_pos.2 hne
    omega
  -- the elements without `m` are a smaller leading set, so they are not over the threshold
  have hbelow : ∑ i ∈ S.erase m, p i ≤ t := by
    by_contra hover
    have hless := h.smallest _ (h.leads.erase hmin) (not_le.1 hover)
    rw [Finset.card_erase_of_mem hm] at hless
    have hpos := Finset.card_pos.2 ⟨m, hm⟩
    omega
  have hmem : m ∈ U \ S.erase m :=
    Finset.mem_sdiff.2 ⟨h.leads.subset hm, Finset.notMem_erase m S⟩
  have hall : ∀ i ∈ U \ S.erase m, p i < (1 - t) / n := by
    intro i hi
    rcases Finset.mem_sdiff.1 hi with ⟨hiU, hiS⟩
    by_cases him : i = m
    · exact him ▸ hmlt
    · have hout : i ∉ S := fun hiS' => hiS (Finset.mem_erase.2 ⟨him, hiS'⟩)
      exact lt_of_le_of_lt (h.leads.above m hm i hiU hout) hmlt
  have htail := sum_lt_of_lt_cutoff ⟨m, hmem⟩ hall hcut hrest
  have hsplit := Finset.sum_sdiff ((Finset.erase_subset m S).trans h.leads.subset) (f := p)
  rw [hsum] at hsplit
  rw [mul_div_cancel₀ _ hn0] at htail
  linarith

/-- What the cut-off leaves is over the threshold. -/
theorem lt_sum_of_cutoff {n : Nat} (hU : U.card = n + 1) (hn : 0 < n) (hsum : ∑ i ∈ U, p i = 1)
    (ht : t < 1) (hS : S ⊆ U) (hne : S.Nonempty) (hout : ∀ i ∈ U, i ∉ S → p i < (1 - t) / n) :
    t < ∑ i ∈ S, p i := by
  have hcut : 0 ≤ (1 - t) / n := div_nonneg (sub_nonneg.2 ht.le) (Nat.cast_nonneg n)
  have hn0 : (n : R) ≠ 0 := Nat.cast_ne_zero.2 (Nat.ne_of_gt hn)
  have hsplit := Finset.sum_sdiff hS (f := p)
  rw [hsum] at hsplit
  rcases (U \ S).eq_empty_or_nonempty with hempty | hrest
  · rw [hempty, Finset.sum_empty] at hsplit
    linarith
  · have hcount := Finset.card_sdiff_add_card_eq_card hS
    have hpos := Finset.card_pos.2 hne
    have htail := sum_lt_of_lt_cutoff (n := n) hrest
      (fun i hi => hout i (Finset.mem_sdiff.1 hi).1 (Finset.mem_sdiff.1 hi).2) hcut (by omega)
    rw [mul_div_cancel₀ _ hn0] at htail
    linarith

omit [DecidableEq ι] in
/-- Some weight is over the cut-off when the threshold is at least the average. -/
theorem exists_cutoff_le {n : Nat} (hU : U.card = n + 1) (hn : 0 < n) (hsum : ∑ i ∈ U, p i = 1)
    (ht : t < 1) (havg : 1 ≤ (U.card : R) * t) : ∃ i ∈ U, (1 - t) / n ≤ p i := by
  by_contra hnone
  have hall : ∀ i ∈ U, p i < (1 - t) / n := by
    intro i hi
    by_contra hle
    exact hnone ⟨i, hi, not_lt.1 hle⟩
  have hcut : 0 ≤ (1 - t) / n := div_nonneg (sub_nonneg.2 ht.le) (Nat.cast_nonneg n)
  have hpos : (0 : R) < n := Nat.cast_pos.2 hn
  have hne : U.Nonempty := Finset.card_pos.1 (by omega)
  have hlt := sum_lt_of_lt_cutoff (n := n + 1) hne hall hcut (Nat.le_of_eq hU)
  rw [hsum] at hlt
  rw [hU, Nat.cast_succ] at havg
  have hmul : (1 : R) * n < ((n + 1 : Nat) : R) * ((1 - t) / n) * n :=
    mul_lt_mul_of_pos_right hlt hpos
  rw [mul_assoc, div_mul_cancel₀ _ (ne_of_gt hpos), Nat.cast_succ] at hmul
  linarith

end Ordered

end Lib
end PrefillOpt
