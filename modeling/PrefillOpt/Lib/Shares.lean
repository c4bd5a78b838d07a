import Mathlib.Data.List.Nodup
import PrefillOpt.Lib.BlockSplit

/-!
# Shares — `m` items shared among `n` parties

Whatever the way of sharing, each item has to be in one share, and nothing else in any.
-/

namespace PrefillOpt
namespace Lib

/-- Each of the items `0, …, m - 1` is once in the share of one party. -/
structure Shares (m n : Nat) (share : Nat → List Nat) : Prop where
  nodup : ∀ t < n, (share t).Nodup
  disjoint : ∀ t < n, ∀ t' < n, ∀ i ∈ share t, i ∈ share t' → t = t'
  covers : ∀ i, i < m ↔ ∃ t < n, i ∈ share t

/-- The shares follow each other. -/
def InOrder (n : Nat) (share : Nat → List Nat) : Prop :=
  ∀ t' < n, ∀ t < t', ∀ i ∈ share t, ∀ j ∈ share t', i < j

variable {m n : Nat} {share : Nat → List Nat}

theorem shares_of_flatMap_eq (h : (List.range n).flatMap share = List.range m) :
    Shares m n share := by
  have hnodup : ((List.range n).flatMap share).Nodup := h ▸ List.nodup_range
  obtain ⟨hself, hpairs⟩ := List.nodup_flatMap.1 hnodup
  have hbefore : ∀ t' < n, ∀ t < t', List.Disjoint (share t) (share t') := by
    intro t' ht' t ht
    have hpair := List.pairwise_iff_getElem.1 hpairs t t' (by simp; omega) (by simpa using ht') ht
    simpa [Function.onFun] using hpair
  refine ⟨fun t ht => hself t (List.mem_range.2 ht), ?_, ?_⟩
  · intro t ht t' ht' i hi hi'
    rcases Nat.lt_trichotomy t t' with hlt | heq | hgt
    · exact absurd hi' (hbefore t' ht' t hlt hi)
    · exact heq
    · exact absurd hi (hbefore t ht t' hgt hi')
  · intro i
    rw [← List.mem_range, ← h, List.mem_flatMap]
    simp only [List.mem_range]

theorem inOrder_of_flatMap_eq (h : (List.range n).flatMap share = List.range m) :
    InOrder n share := by
  have hsorted : ((List.range n).flatMap share).Pairwise (· < ·) := h ▸ List.pairwise_lt_range
  obtain ⟨-, hpairs⟩ := List.pairwise_flatMap.1 hsorted
  intro t' ht' t ht i hi j hj
  have hpair := List.pairwise_iff_getElem.1 hpairs t t' (by simp; omega) (by simpa using ht') ht
  simp only [List.getElem_range] at hpair
  exact hpair i hi j hj

/-- Strides share the items. -/
theorem shares_stride (hn : 0 < n) :
    Shares m n fun t => (List.range (blockCount m n t)).map fun i => t + i * n := by
  have hmod : ∀ t < n, ∀ i, (t + i * n) % n = t := by
    intro t ht i
    rw [Nat.add_mul_mod_self_right, Nat.mod_eq_of_lt ht]
  refine ⟨?_, ?_, ?_⟩
  · intro t _
    refine List.Nodup.map (fun i i' h => ?_) List.nodup_range
    exact Nat.eq_of_mul_eq_mul_right hn (Nat.add_left_cancel h)
  · intro t ht t' ht' s hs hs'
    obtain ⟨i, -, rfl⟩ := List.mem_map.1 hs
    obtain ⟨i', -, heq⟩ := List.mem_map.1 hs'
    rw [← hmod t ht i, ← heq, hmod t' ht' i']
  · intro s
    constructor
    · intro hs
      refine ⟨s % n, Nat.mod_lt s hn, List.mem_map.2 ⟨s / n, ?_, ?_⟩⟩
      · exact List.mem_range.2 (div_lt_blockCount hs)
      · rw [Nat.mul_comm]
        exact Nat.mod_add_div s n
    · rintro ⟨t, ht, hs⟩
      obtain ⟨i, hi, rfl⟩ := List.mem_map.1 hs
      exact stride_lt ht (List.mem_range.1 hi)

end Lib
end PrefillOpt
