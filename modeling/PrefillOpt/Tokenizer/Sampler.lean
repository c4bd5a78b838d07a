import PrefillOpt.Kernels.Attention
import PrefillOpt.Lib.Nucleus
import PrefillOpt.Lib.Selection

/-!
# Tokenizer.Sampler — sampling from the nucleus

`compare`, `sample_topp` and `Sampler::sample` of `tokenizer.cpp`.  Floats are the elements of an
ordered field.  `qsort` is any function that sorts; it does not say where equal entries go.
-/

namespace PrefillOpt
namespace Sampler

open Lib

structure ProbIndex (R : Type) where
  prob : R
  index : Nat
deriving DecidableEq, Repr

section Defs

variable {R : Type} [Field R] [LinearOrder R]

def compare (a b : ProbIndex R) : Int :=
  if b.prob < a.prob then -1 else if a.prob < b.prob then 1 else 0

/-- The result is the argument in the order of `compare`. -/
structure IsQsort (qsort : List (ProbIndex R) → List (ProbIndex R)) : Prop where
  perm : ∀ l, (qsort l).Perm l
  sorted : ∀ l, (qsort l).Pairwise fun a b => compare a b ≤ 0

/-- The entries of `probindex` that are filled. -/
def candidates (probabilities : Nat → R) (n : Nat) (cutoff : R) : List (ProbIndex R) :=
  (List.range n).filterMap fun i =>
    if cutoff ≤ probabilities i then some ⟨probabilities i, i⟩ else none

/-- `last_idx` and `cumulative_prob` behind the loop, from entry `i` on. -/
def truncateFrom (topp : R) : List (ProbIndex R) → Nat → R → Int × R
  -- in case of rounding errors consider all elements
  | [], i, cumulative_prob => ((i : Int) - 1, cumulative_prob)
  | e :: probindex, i, cumulative_prob =>
      if topp < cumulative_prob + e.prob then (i, cumulative_prob + e.prob)
      else truncateFrom topp probindex (i + 1) (cumulative_prob + e.prob)

/-- `probindex[i]`; `none` where the entry is not filled or not in the array. -/
def readAt (probindex : List (ProbIndex R)) (i : Int) : Option (ProbIndex R) :=
  if 0 ≤ i then probindex[i.toNat]? else none

/-- The loop over the `k` entries from `i` up to `last_idx`, and what follows it. -/
def pickFrom (probindex : List (ProbIndex R)) (last_idx : Int) (r : R) :
    Nat → Nat → R → Option Nat
  | 0, _, _ => (readAt probindex last_idx).map ProbIndex.index
  | k + 1, i, cdf =>
      match readAt probindex i with
      | none => none
      | some e =>
          if r < cdf + e.prob then some e.index
          else pickFrom probindex last_idx r k (i + 1) (cdf + e.prob)

/-- `none` is a read of an entry that is not filled. -/
def sample_topp (qsort : List (ProbIndex R) → List (ProbIndex R)) (probabilities : Nat → R)
    (n : Nat) (topp coin : R) : Option Nat :=
  let cutoff := (1 - topp) / ((n : R) - 1)
  let probindex := qsort (candidates probabilities n cutoff)
  let (last_idx, cumulative_prob) := truncateFrom topp probindex 0 0
  pickFrom probindex last_idx (coin * cumulative_prob) (last_idx + 1).toNat 0 0

/-- The token is in a nucleus, and the crop keeps every nucleus whole. -/
def SamplesNucleus (probabilities : Nat → R) (n : Nat) (topp : R) (result : Option Nat) : Prop :=
  (∃ i S, result = some i ∧ i < n ∧ IsNucleus probabilities (Finset.range n) topp S ∧ i ∈ S) ∧
    ∀ S, IsNucleus probabilities (Finset.range n) topp S →
      ∀ j ∈ S, (1 - topp) / ((n : R) - 1) ≤ probabilities j

end Defs

section Order

variable {R : Type} [LinearOrder R]

theorem compare_nonpos_iff {a b : ProbIndex R} : compare a b ≤ 0 ↔ b.prob ≤ a.prob := by
  rw [compare]
  split_ifs with hgt hlt
  · exact ⟨fun _ => hgt.le, fun _ => by decide⟩
  · exact ⟨fun h => absurd h (by decide), fun h => absurd hlt (not_lt.2 h)⟩
  · exact ⟨fun _ => not_lt.1 hlt, fun _ => Int.le_refl 0⟩

/-! ## The candidates -/

variable {probabilities : Nat → R} {n : Nat} {cutoff : R}

theorem mem_candidates {e : ProbIndex R} :
    e ∈ candidates probabilities n cutoff ↔
      e.index < n ∧ cutoff ≤ probabilities e.index ∧ e.prob = probabilities e.index := by
  rw [candidates, List.mem_filterMap]
  constructor
  · rintro ⟨i, hi, h⟩
    split_ifs at h with hcut
    cases h
    exact ⟨List.mem_range.1 hi, hcut, rfl⟩
  · rintro ⟨hi, hcut, hprob⟩
    refine ⟨e.index, List.mem_range.2 hi, ?_⟩
    rw [if_pos hcut, ← hprob]

theorem candidates_nodup : ((candidates probabilities n cutoff).map ProbIndex.index).Nodup := by
  have hfilter : (candidates probabilities n cutoff).map ProbIndex.index
      = (List.range n).filter fun i => decide (cutoff ≤ probabilities i) := by
    rw [candidates, List.map_filterMap, ← List.filterMap_eq_filter]
    apply List.filterMap_congr
    intro i _
    by_cases hcut : cutoff ≤ probabilities i
    · simp only [if_pos hcut, Option.map_some, Option.guard, decide_eq_true hcut, if_true]
    · simp only [if_neg hcut, Option.map_none, Option.guard, decide_eq_false hcut,
        Bool.false_eq_true, if_false]
  rw [hfilter]
  exact List.nodup_range.filter _

end Order

/-! ## The two loops -/

section Loops

variable {R : Type}

theorem readAt_eq {probindex : List (ProbIndex R)} {i : Nat} (h : i < probindex.length) :
    readAt probindex i = some probindex[i] := by
  rw [readAt, if_pos (Int.natCast_nonneg i), Int.toNat_natCast, List.getElem?_eq_getElem h]

variable [Field R]

/-- The sum of the probabilities of some entries. -/
def total (probindex : List (ProbIndex R)) : R :=
  (probindex.map ProbIndex.prob).sum

theorem total_cons (e : ProbIndex R) (probindex : List (ProbIndex R)) :
    total (e :: probindex) = e.prob + total probindex :=
  List.sum_cons

variable [LinearOrder R]

/-- The loop stops at the first entry with which the sum is over `topp`. -/
theorem truncateFrom_spec {topp : R} {probindex : List (ProbIndex R)} {i : Nat} {c : R}
    (hc : c ≤ topp) (h : topp < c + total probindex) :
    ∃ k < probindex.length, (truncateFrom topp probindex i c).1 = (i + k : Nat) ∧
      c + total (probindex.take k) ≤ topp ∧ topp < c + total (probindex.take (k + 1)) := by
  induction probindex generalizing i c with
  | nil =>
      simp only [total, List.map_nil, List.sum_nil, add_zero] at h
      exact absurd h (not_lt.2 hc)
  | cons e probindex ih =>
      rw [truncateFrom]
      by_cases hstop : topp < c + e.prob
      · rw [if_pos hstop]
        refine ⟨0, Nat.succ_pos _, rfl, ?_, ?_⟩
        · simpa only [total, List.take_zero, List.map_nil, List.sum_nil, add_zero] using hc
        · rw [List.take_succ_cons, total_cons, ← add_assoc]
          simpa only [total, List.take_zero, List.map_nil, List.sum_nil, add_zero] using hstop
      · rw [if_neg hstop]
        have hrest : topp < c + e.prob + total probindex := by
          rwa [add_assoc, ← total_cons]
        rcases ih (i := i + 1) (not_lt.1 hstop) hrest with ⟨k, hk, hlast, hbelow, hover⟩
        refine ⟨k + 1, Nat.succ_lt_succ hk, ?_, ?_, ?_⟩
        · rw [hlast]
          omega
        · rwa [List.take_succ_cons, total_cons, ← add_assoc]
        · rwa [List.take_succ_cons, total_cons, ← add_assoc]

/-- The loop returns one of the entries up to `last_idx`. -/
theorem pickFrom_mem {probindex : List (ProbIndex R)} {last : Nat} {r : R}
    (hlast : last < probindex.length) {k i : Nat} (hk : i + k = last + 1) (cdf : R) :
    ∃ e ∈ probindex.take (last + 1), pickFrom probindex last r k i cdf = some e.index := by
  have htake : ∀ j (hj : j < probindex.length), j ≤ last →
      probindex[j] ∈ probindex.take (last + 1) := by
    intro j hj hle
    exact List.mem_take_iff_getElem.2 ⟨j, by omega, rfl⟩
  induction k generalizing i cdf with
  | zero =>
      refine ⟨_, htake last hlast (Nat.le_refl last), ?_⟩
      rw [pickFrom, readAt_eq hlast, Option.map_some]
  | succ k ih =>
      have hi : i < probindex.length := by omega
      rw [pickFrom, readAt_eq hi]
      by_cases hstop : r < cdf + probindex[i].prob
      · exact ⟨_, htake i hi (by omega), if_pos hstop⟩
      · simp only [if_neg hstop]
        exact ih (by omega) _

end Loops

/-! ## The nucleus -/

section Nucleus

variable {R : Type} [LinearOrder R]

/-- The indices of the first `k` entries. -/
def indices (probindex : List (ProbIndex R)) (k : Nat) : Finset Nat :=
  ((probindex.take k).map ProbIndex.index).toFinset

/-- Entries in order, with the probabilities of all tokens that are at least as likely. -/
structure Ordered (probabilities : Nat → R) (n : Nat) (probindex : List (ProbIndex R)) : Prop where
  entry : ∀ e ∈ probindex, e.index < n ∧ e.prob = probabilities e.index
  nodup : (probindex.map ProbIndex.index).Nodup
  sorted : probindex.Pairwise fun a b => b.prob ≤ a.prob
  left : ∀ i < n, i ∉ probindex.map ProbIndex.index → ∀ e ∈ probindex, probabilities i ≤ e.prob

variable {qsort : List (ProbIndex R) → List (ProbIndex R)} {probindex : List (ProbIndex R)}
  {probabilities : Nat → R} {n : Nat}

theorem Ordered.card_indices (h : Ordered probabilities n probindex) {k : Nat}
    (hk : k ≤ probindex.length) : (indices probindex k).card = k := by
  have hnodup : ((probindex.take k).map ProbIndex.index).Nodup :=
    h.nodup.sublist ((List.take_sublist k probindex).map _)
  rw [indices, List.toFinset_card_of_nodup hnodup, List.length_map, List.length_take,
    Nat.min_eq_left hk]

/-- The first entries lead. -/
theorem Ordered.leads (h : Ordered probabilities n probindex) (k : Nat) :
    Leads probabilities (Finset.range n) (indices probindex k) := by
  have hmem : ∀ {i}, i ∈ indices probindex k ↔ ∃ e ∈ probindex.take k, e.index = i := by
    intro i
    rw [indices, List.mem_toFinset, List.mem_map]
  refine ⟨fun i hi => ?_, fun i hi j hj hout => ?_⟩
  · rcases hmem.1 hi with ⟨e, he, rfl⟩
    exact Finset.mem_range.2 (h.entry e (List.mem_of_mem_take he)).1
  · rcases hmem.1 hi with ⟨e, he, rfl⟩
    rw [← (h.entry e (List.mem_of_mem_take he)).2]
    by_cases hcandidate : j ∈ probindex.map ProbIndex.index
    · -- a later entry
      rcases List.mem_map.1 hcandidate with ⟨e', he', rfl⟩
      have hsplit := List.take_append_drop k probindex
      have hdrop : e' ∈ probindex.drop k := by
        rw [← hsplit] at he'
        exact (List.mem_append.1 he').resolve_left fun htake => hout (hmem.2 ⟨e', htake, rfl⟩)
      have hsorted := h.sorted
      rw [← hsplit] at hsorted
      rw [← (h.entry e' (List.mem_of_mem_drop hdrop)).2]
      exact (List.pairwise_append.1 hsorted).2.2 e he e' hdrop
    · exact h.left j (Finset.mem_range.1 hj) hcandidate e (List.mem_of_mem_take he)

theorem IsQsort.ordered (hq : IsQsort qsort) (cutoff : R) :
    Ordered probabilities n (qsort (candidates probabilities n cutoff)) := by
  have hperm := hq.perm (candidates probabilities n cutoff)
  refine ⟨fun e he => ?_, ?_, ?_, fun i hi hout e he => ?_⟩
  · rcases mem_candidates.1 (hperm.mem_iff.1 he) with ⟨hlt, -, hprob⟩
    exact ⟨hlt, hprob⟩
  · exact (hperm.map _).nodup_iff.2 candidates_nodup
  · exact (hq.sorted _).imp compare_nonpos_iff.1
  · rcases mem_candidates.1 (hperm.mem_iff.1 he) with ⟨-, hcut, hprob⟩
    have hbelow : ¬cutoff ≤ probabilities i := by
      intro hle
      have hmem : (⟨probabilities i, i⟩ : ProbIndex R) ∈ candidates probabilities n cutoff :=
        mem_candidates.2 ⟨hi, hle, rfl⟩
      exact hout (List.mem_map.2 ⟨_, hperm.mem_iff.2 hmem, rfl⟩)
    rw [hprob]
    exact (not_le.1 hbelow).le.trans hcut

variable [Field R]

theorem Ordered.sum_indices (h : Ordered probabilities n probindex) (k : Nat) :
    ∑ i ∈ indices probindex k, probabilities i = total (probindex.take k) := by
  have hnodup : ((probindex.take k).map ProbIndex.index).Nodup :=
    h.nodup.sublist ((List.take_sublist k probindex).map _)
  rw [indices, List.sum_toFinset _ hnodup, total, List.map_map]
  refine congrArg List.sum (List.map_congr_left fun e he => ?_)
  exact (h.entry e (List.mem_of_mem_take he)).2.symm

variable {topp : R}

/-- When no token reaches the cut-off the last entry has index -1. -/
theorem sample_topp_empty (hq : IsQsort qsort) (coin : R)
    (h : ∀ i < n, probabilities i < (1 - topp) / ((n : R) - 1)) :
    sample_topp qsort probabilities n topp coin = none := by
  have hempty : candidates probabilities n ((1 - topp) / ((n : R) - 1)) = [] := by
    rw [List.eq_nil_iff_forall_not_mem]
    intro e he
    rcases mem_candidates.1 he with ⟨hlt, hcut, -⟩
    exact absurd hcut (not_le.2 (h _ hlt))
  have hsorted : qsort [] = [] := List.perm_nil.1 (hq.perm [])
  simp only [sample_topp, hempty, hsorted]
  rfl

/-- Top-p sampling stays in the nucleus when a token reaches the cut-off. -/
theorem sample_topp_nucleus [IsStrictOrderedRing R] (hq : IsQsort qsort) (hn : 2 ≤ n)
    (hp : ∀ i < n, 0 ≤ probabilities i)
    (hsum : ∑ i ∈ Finset.range n, probabilities i = 1) (htopp : 0 < topp ∧ topp < 1) (coin : R)
    (hmax : ∃ i < n, (1 - topp) / ((n : R) - 1) ≤ probabilities i) :
    SamplesNucleus probabilities n topp (sample_topp qsort probabilities n topp coin) := by
  rcases hmax with ⟨top, htop, hcut⟩
  rcases Nat.exists_eq_add_of_le' hn with ⟨m, rfl⟩
  have hcard : (Finset.range (m + 2)).card = m + 1 + 1 := Finset.card_range _
  have hdivisor : ((m + 2 : Nat) : R) - 1 = (m + 1 : Nat) := by
    push_cast
    ring
  rw [hdivisor] at hcut
  simp only [SamplesNucleus, sample_topp, hdivisor]
  refine ⟨?_, fun S hS => ?_⟩
  · generalize hcutoff : (1 - topp) / ((m + 1 : Nat) : R) = cutoff at hcut
    have hordered : Ordered probabilities (m + 2)
        (qsort (candidates probabilities (m + 2) cutoff)) := hq.ordered cutoff
    have hperm := hq.perm (candidates probabilities (m + 2) cutoff)
    generalize qsort (candidates probabilities (m + 2) cutoff) = probindex at *
    have hmem : ∀ i < m + 2, cutoff ≤ probabilities i →
        i ∈ indices probindex probindex.length := by
      intro i hi hle
      rw [indices, List.take_length, List.mem_toFinset, List.mem_map]
      exact ⟨⟨probabilities i, i⟩, hperm.mem_iff.2 (mem_candidates.2 ⟨hi, hle, rfl⟩), rfl⟩
    -- what is left after the crop is over `topp`
    have hover : topp < 0 + total probindex := by
      rw [zero_add, ← List.take_length (l := probindex), ← hordered.sum_indices]
      apply lt_sum_of_cutoff hcard (Nat.succ_pos m) hsum htopp.2
        (hordered.leads _).subset ⟨top, hmem top htop hcut⟩
      intro i hi hout
      rw [hcutoff]
      exact not_le.1 fun hle => hout (hmem i (Finset.mem_range.1 hi) hle)
    rcases truncateFrom_spec (i := 0) htopp.1.le hover with ⟨k, hk, hlast, hbelow, habove⟩
    rw [zero_add, ← hordered.sum_indices] at hbelow habove
    have hnucleus : IsNucleus probabilities (Finset.range (m + 2)) topp
        (indices probindex (k + 1)) := by
      apply (hordered.leads (k + 1)).isNucleus
        (fun i hi => hp i (Finset.mem_range.1 hi)) habove (hordered.leads k) hbelow
      rw [hordered.card_indices hk, hordered.card_indices (Nat.le_of_lt hk)]
    rw [Nat.zero_add] at hlast
    simp only [hlast]
    have hsteps : 0 + ((k : Int) + 1).toNat = k + 1 := by omega
    rcases pickFrom_mem (r := coin * (truncateFrom topp probindex 0 0).2) hk hsteps 0 with
      ⟨e, he, hpick⟩
    have hindex : e.index ∈ indices probindex (k + 1) := by
      rw [indices, List.mem_toFinset]
      exact List.mem_map_of_mem he
    exact ⟨e.index, _, hpick, Finset.mem_range.1 (hnucleus.leads.subset hindex), hnucleus,
      hindex⟩
  · exact hS.cutoff_le hcard (Nat.succ_pos m) hsum htopp.2
      ⟨top, Finset.mem_range.2 htop, hcut⟩

/-- It does so only then: otherwise all tokens are cut off. -/
theorem sample_topp_iff [IsStrictOrderedRing R] (hq : IsQsort qsort) (hn : 2 ≤ n)
    (hp : ∀ i < n, 0 ≤ probabilities i)
    (hsum : ∑ i ∈ Finset.range n, probabilities i = 1) (htopp : 0 < topp ∧ topp < 1) (coin : R) :
    SamplesNucleus probabilities n topp (sample_topp qsort probabilities n topp coin) ↔
      ∃ i < n, (1 - topp) / ((n : R) - 1) ≤ probabilities i := by
  refine ⟨?_, sample_topp_nucleus hq hn hp hsum htopp coin⟩
  rintro ⟨⟨i, S, hsome, -⟩, -⟩
  by_contra hnone
  rw [sample_topp_empty hq coin fun i hi => not_le.1 fun hle => hnone ⟨i, hi, hle⟩] at hsome
  cases hsome

end Nucleus

/-! ## `Sampler::sample` -/

section Sample

variable {R : Type} [Field R] [LinearOrder R]

def sample_argmax (probabilities : Nat → R) (n : Nat) : Nat :=
  (scanFrom (fun i => i) probabilities (List.range' 1 (n - 1)) (0, probabilities 0)).1

/-- The loop from `i` on, over `k` tokens; in case of rounding errors the last one. -/
def sampleMultFrom (probabilities : Nat → R) (n : Nat) (coin : R) : Nat → Nat → R → Nat
  | 0, _, _ => n - 1
  | k + 1, i, cdf =>
      if coin < cdf + probabilities i then i
      else sampleMultFrom probabilities n coin k (i + 1) (cdf + probabilities i)

def sample_mult (probabilities : Nat → R) (n : Nat) (coin : R) : Nat :=
  sampleMultFrom probabilities n coin n 0 0

/-- The logits after the temperature and the softmax. -/
def probabilities (m : Kernels.Libm R) (temperature : R) (vocab_size : Nat) (logits : Nat → R) :
    Nat → R :=
  Kernels.softmax_F32 m (fun q => logits q / temperature) 0 vocab_size

def sample (m : Kernels.Libm R) (qsort : List (ProbIndex R) → List (ProbIndex R))
    (temperature topp coin : R) (vocab_size : Nat) (logits : Nat → R) : Option Nat :=
  if temperature = 0 then some (sample_argmax logits vocab_size)
  else
    let logits := probabilities m temperature vocab_size logits
    if topp ≤ 0 ∨ 1 ≤ topp then some (sample_mult logits vocab_size coin)
    else sample_topp qsort logits vocab_size topp coin

variable [IsStrictOrderedRing R] {m : Kernels.Libm R} {temperature : R} {vocab_size : Nat}
  {logits : Nat → R}

theorem probabilities_eq (hexp : IsExp m.expf) {i : Nat} (hi : i < vocab_size) :
    probabilities m temperature vocab_size logits i
      = m.expf (logits i / temperature)
        / ∑ j ∈ Finset.range vocab_size, m.expf (logits j / temperature) := by
  have hself : probabilities m temperature vocab_size logits (0 + i) = _ :=
    Kernels.softmax_F32_self hexp hi
  simpa only [Nat.zero_add] using hself

/-- The softmax makes a distribution, so the nucleus is sampled when `topp` is at least the average
probability. -/
theorem sample_nucleus {qsort : List (ProbIndex R) → List (ProbIndex R)} {topp : R}
    (hexp : IsExp m.expf) (hq : IsQsort qsort) (htemperature : temperature ≠ 0)
    (hn : 2 ≤ vocab_size) (htopp : 0 < topp ∧ topp < 1) (havg : 1 ≤ (vocab_size : R) * topp)
    (coin : R) :
    SamplesNucleus (probabilities m temperature vocab_size logits) vocab_size topp
      (sample m qsort temperature topp coin vocab_size logits) := by
  have hpos : 0 < ∑ j ∈ Finset.range vocab_size, m.expf (logits j / temperature) := by
    apply Finset.sum_pos (fun j _ => hexp.pos _)
    exact Finset.nonempty_range_iff.2 (by omega)
  have hnonneg : ∀ i < vocab_size, 0 ≤ probabilities m temperature vocab_size logits i := by
    intro i hi
    rw [probabilities_eq hexp hi]
    exact (div_pos (hexp.pos _) hpos).le
  have hsum : ∑ i ∈ Finset.range vocab_size, probabilities m temperature vocab_size logits i
      = 1 := by
    rw [Finset.sum_congr rfl fun i hi => probabilities_eq hexp (Finset.mem_range.1 hi),
      ← Finset.sum_div, div_self hpos.ne']
  have hinside : ¬(topp ≤ 0 ∨ 1 ≤ topp) := not_or.2 ⟨not_le.2 htopp.1, not_le.2 htopp.2⟩
  simp only [sample, if_neg htemperature, if_neg hinside]
  apply sample_topp_nucleus hq hn hnonneg hsum htopp coin
  rcases Nat.exists_eq_add_of_le' hn with ⟨k, rfl⟩
  have hcard : (Finset.range (k + 2)).card = k + 1 + 1 := Finset.card_range _
  have hmany : 1 ≤ ((Finset.range (k + 2)).card : R) * topp := by
    rwa [Finset.card_range]
  rcases exists_cutoff_le hcard (Nat.succ_pos k) hsum htopp.2 hmany with ⟨i, hi, hcut⟩
  have hdivisor : ((k + 2 : Nat) : R) - 1 = (k + 1 : Nat) := by
    push_cast
    ring
  rw [hdivisor]
  exact ⟨i, Finset.mem_range.1 hi, hcut⟩

end Sample

/-! ## A flat distribution -/

section Example

/-- The C library's sort, here one that keeps the order of equal entries. -/
def byProb (l : List (ProbIndex ℚ)) : List (ProbIndex ℚ) :=
  l.mergeSort fun a b => decide (b.prob ≤ a.prob)

theorem byProb_isQsort : IsQsort byProb := by
  refine ⟨fun l => List.mergeSort_perm l _, fun l => ?_⟩
  have hsorted : (byProb l).Pairwise fun a b => decide (b.prob ≤ a.prob) = true := by
    apply List.pairwise_mergeSort
    · intro a b c hab hbc
      exact decide_eq_true ((of_decide_eq_true hbc).trans (of_decide_eq_true hab))
    · intro a b
      rw [Bool.or_eq_true, decide_eq_true_iff, decide_eq_true_iff]
      exact le_total b.prob a.prob
  exact hsorted.imp fun h => compare_nonpos_iff.2 (of_decide_eq_true h)

def skewed (i : Nat) : ℚ :=
  if i = 0 then 3 / 4 else 1 / 4

theorem sample_topp_iff_skewed :
    SamplesNucleus skewed 2 (1 / 2) (sample_topp byProb skewed 2 (1 / 2) (1 / 3)) ↔
      ∃ i < 2, (1 - 1 / 2) / (((2 : Nat) : ℚ) - 1) ≤ skewed i :=
  sample_topp_iff byProb_isQsort (Nat.le_refl 2) (by decide +kernel) (by decide +kernel)
    (by decide +kernel) (1 / 3)

/-- Four equal tokens with a threshold of a tenth: the cut-off is 3/10, and all are cut off. -/
theorem sample_topp_flat :
    ¬∀ (probabilities : Nat → ℚ) (n : Nat) (topp coin : ℚ), 2 ≤ n →
      (∀ i < n, 0 ≤ probabilities i) → ∑ i ∈ Finset.range n, probabilities i = 1 →
        0 < topp ∧ topp < 1 → 0 ≤ coin ∧ coin < 1 →
          SamplesNucleus probabilities n topp (sample_topp byProb probabilities n topp coin) := by
  intro h
  have hflat := h (fun _ => 1 / 4) 4 (1 / 10) 0 (by decide) (by decide +kernel) (by decide +kernel)
    (by decide +kernel) (by decide +kernel)
  rcases hflat.1 with ⟨i, S, hsome, -⟩
  rw [sample_topp_empty byProb_isQsort 0 (by decide +kernel)] at hsome
  cases hsome

end Example

end Sampler
end PrefillOpt
