import PrefillOpt.Graph.Slices
import PrefillOpt.Lib.BlockSplit
import PrefillOpt.Topology

/-!
# AttentionHeads — which key and value columns a query head reads

`nn-cpu-ops.cpp`, the attention kernels.  A node keeps `nHeads0` query heads and rows of `kvDim0`
key and value columns; both are cut from the whole by tensor parallelism, by divisions of
different numbers.  The decode kernel walks the heads one by one, the two batch kernels walk them
in groups that share a key head when the groups are whole.
-/

namespace PrefillOpt

open Lib

/-! ## The head loops of the kernels -/

/-- A local query head and the first column of the key and value head it is scored against. -/
structure HeadRead where
  h0 : Nat
  column : Nat
  deriving DecidableEq, Repr

/-- `multiheadAtt_F32`, the heads of one thread. -/
def multiheadAttReads (nHeads nHeads0 nKvHeads headDim nThreads threadIndex : Nat) :
    List HeadRead :=
  let (h0Start, h0End) := splitThreads nHeads0 nThreads threadIndex
  let kvMul := nHeads / nKvHeads
  (List.range' h0Start (h0End - h0Start)).map fun h0 =>
    let headIndex := h0 / kvMul
    ⟨h0, u32 (headIndex * headDim)⟩

/-- `multiheadAttBatch_F32` and `multiheadAttFused_F32`, the heads of one thread. -/
def multiheadAttBatchReads (nHeads nHeads0 nKvHeads headDim nThreads threadIndex : Nat) :
    List HeadRead :=
  let kvMul := nHeads / nKvHeads
  let nGroups := if 0 < kvMul ∧ nHeads0 % kvMul = 0 then nHeads0 / kvMul else 0
  let groupSplit := nThreads ≤ nGroups ∧ 0 < nGroups
  let (gStart, gEnd) := splitThreads nGroups nThreads threadIndex
  let (hStart, hEnd) := splitThreads nHeads0 nThreads threadIndex
  let h0Begin := if groupSplit then gStart * kvMul else hStart
  let h0Limit := if groupSplit then gEnd * kvMul else hEnd
  let headStride := if groupSplit then kvMul else 1
  -- the turns of `for (h0Base = h0Begin; h0Base < h0Limit; h0Base += headStride)`
  let turns := (h0Limit - h0Begin + (headStride - 1)) / headStride
  (List.range turns).flatMap fun turn =>
    let h0Base := h0Begin + turn * headStride
    let nHeadsInGroup := if h0Base + headStride ≤ h0Limit then headStride else h0Limit - h0Base
    let headIndex := h0Base / kvMul
    (List.range nHeadsInGroup).map fun j => ⟨h0Base + j, u32 (headIndex * headDim)⟩

/-- A thread of one of the kernels reads for a head from a column. -/
inductive KernelReads (nHeads nHeads0 nKvHeads headDim : Nat) (r : HeadRead) : Prop where
  | single (nThreads threadIndex : Nat) (ht : threadIndex < nThreads)
      (h : r ∈ multiheadAttReads nHeads nHeads0 nKvHeads headDim nThreads threadIndex)
  | batch (nThreads threadIndex : Nat) (ht : threadIndex < nThreads)
      (h : r ∈ multiheadAttBatchReads nHeads nHeads0 nKvHeads headDim nThreads threadIndex)

/-! ## Every kernel reads the same column for a head -/

variable {nHeads nHeads0 nKvHeads headDim nThreads threadIndex : Nat} {r : HeadRead}

theorem mem_multiheadAttReads :
    r ∈ multiheadAttReads nHeads nHeads0 nKvHeads headDim nThreads threadIndex ↔
      (blockStart nHeads0 nThreads threadIndex ≤ r.h0 ∧
        r.h0 < blockStart nHeads0 nThreads threadIndex
          + blockCount nHeads0 nThreads threadIndex) ∧
      r.column = u32 (r.h0 / (nHeads / nKvHeads) * headDim) := by
  simp only [multiheadAttReads, splitThreads_eq, List.mem_map, List.mem_range'_1,
    Nat.add_sub_cancel_left]
  constructor
  · rintro ⟨h0, hrange, rfl⟩
    exact ⟨hrange, rfl⟩
  · rintro ⟨hrange, hcolumn⟩
    exact ⟨r.h0, hrange, by rw [← hcolumn]⟩

/-- A turn of the group loop stays inside one group. -/
theorem group_div {kvMul g j : Nat} (hj : j < kvMul) : (g * kvMul + j) / kvMul = g := by
  have hpos : 0 < kvMul := by omega
  rw [Nat.mul_comm, Nat.mul_add_div hpos, Nat.div_eq_of_lt hj, Nat.add_zero]

theorem column_of_mem_batch (ht : threadIndex < nThreads)
    (h : r ∈ multiheadAttBatchReads nHeads nHeads0 nKvHeads headDim nThreads threadIndex) :
    r.h0 < nHeads0 ∧ r.column = u32 (r.h0 / (nHeads / nKvHeads) * headDim) := by
  simp only [multiheadAttBatchReads, splitThreads_eq] at h
  generalize nHeads / nKvHeads = kvMul at h ⊢
  generalize hg : (if 0 < kvMul ∧ nHeads0 % kvMul = 0 then nHeads0 / kvMul else 0) = nGroups at h
  simp only [List.mem_flatMap, List.mem_range, List.mem_map] at h
  rcases h with ⟨turn, hturn, j, hj, rfl⟩
  by_cases hsplit : nThreads ≤ nGroups ∧ 0 < nGroups
  · -- whole groups: every turn starts at a multiple of `kvMul`
    simp only [if_pos hsplit] at hturn hj ⊢
    have hcond : 0 < kvMul ∧ nHeads0 % kvMul = 0 := by
      by_contra hno
      rw [if_neg hno] at hg
      omega
    rw [if_pos hcond] at hg
    have hle := blockStart_add_blockCount_le (m := nGroups) ht
    generalize blockStart nGroups nThreads threadIndex = gStart at *
    generalize blockCount nGroups nThreads threadIndex = gCount at *
    have hlen : (gStart + gCount) * kvMul - gStart * kvMul = gCount * kvMul := by
      rw [Nat.add_mul, Nat.add_sub_cancel_left]
    have hturn' : turn < gCount := by
      rw [hlen] at hturn
      have hdiv : (gCount * kvMul + (kvMul - 1)) / kvMul = gCount :=
        group_div (Nat.sub_lt hcond.1 Nat.one_pos)
      omega
    have hbase : gStart * kvMul + turn * kvMul = (gStart + turn) * kvMul :=
      (Nat.add_mul ..).symm
    have hnext : (gStart + turn) * kvMul + kvMul ≤ (gStart + gCount) * kvMul := by
      rw [← Nat.succ_mul]
      exact Nat.mul_le_mul_right _ (by omega)
    rw [hbase, if_pos hnext] at hj
    have htotal : (gStart + gCount) * kvMul ≤ nHeads0 := by
      calc (gStart + gCount) * kvMul
          ≤ nGroups * kvMul := Nat.mul_le_mul_right _ hle
        _ = nHeads0 := by rw [← hg, Nat.div_mul_cancel (Nat.dvd_of_mod_eq_zero hcond.2)]
    rw [hbase]
    refine ⟨by omega, ?_⟩
    rw [group_div hj, Nat.mul_div_cancel _ hcond.1]
  · simp only [if_neg hsplit, Nat.add_sub_cancel_left, Nat.sub_self, Nat.add_zero, Nat.div_one,
      Nat.mul_one] at hturn hj ⊢
    have hle := blockStart_add_blockCount_le (m := nHeads0) ht
    have hj0 : j = 0 := by
      split_ifs at hj <;> omega
    rw [hj0, Nat.add_zero]
    exact ⟨by omega, rfl⟩

/-- Whatever the kernel and the thread, the column is the one of the head's own division. -/
theorem KernelReads.column_eq (h : KernelReads nHeads nHeads0 nKvHeads headDim r) :
    r.h0 < nHeads0 ∧ r.column = u32 (r.h0 / (nHeads / nKvHeads) * headDim) := by
  cases h with
  | single nThreads threadIndex ht h =>
      rcases mem_multiheadAttReads.mp h with ⟨⟨-, hlt⟩, hcolumn⟩
      exact ⟨hlt.trans_le (blockStart_add_blockCount_le ht), hcolumn⟩
  | batch nThreads threadIndex ht h => exact column_of_mem_batch ht h

/-- Every local head is read for. -/
theorem KernelReads.of_lt {h0 : Nat} (h : h0 < nHeads0) :
    KernelReads nHeads nHeads0 nKvHeads headDim ⟨h0, u32 (h0 / (nHeads / nKvHeads) * headDim)⟩ := by
  rcases exists_block (n := 1) Nat.one_pos h with ⟨i, hi, hfrom, hto⟩
  exact .single 1 i hi (mem_multiheadAttReads.mpr ⟨⟨hfrom, hto⟩, rfl⟩)

/-! ## Local heads and global heads -/

/-- `header.kvDim`, formed in `NnUint`. -/
def headerKvDim (headDim nKvHeads : Nat) : Nat :=
  u32 (headDim * nKvHeads)

/-- On every TP rank, every read for a local query head starts at the rank's column of the key
head of its global query head, and ends inside the row. -/
def HeadsAligned (nHeads nKvHeads headDim tpSize nHeads0 kvDim0 : Nat) : Prop :=
  ∀ tpRank < tpSize, ∀ r, KernelReads nHeads nHeads0 nKvHeads headDim r →
    tpRank * kvDim0 + r.column
        = (tpRank * nHeads0 + r.h0) / (nHeads / nKvHeads) * headDim ∧
      r.column + headDim ≤ kvDim0

/-- Heads are cut where key heads are: a rank holds whole key heads with all their queries. -/
theorem headsAligned_of_dvd {kvMul nKv0 tpSize headDim : Nat} (hkvMul : 0 < kvMul)
    (hnKv : 0 < nKv0 * tpSize) (hfits : headDim * (nKv0 * tpSize) < 2 ^ 32) :
    HeadsAligned (kvMul * (nKv0 * tpSize)) (nKv0 * tpSize) headDim tpSize (kvMul * nKv0)
      (headDim * nKv0) := by
  have hdiv : kvMul * (nKv0 * tpSize) / (nKv0 * tpSize) = kvMul := Nat.mul_div_cancel _ hnKv
  intro tpRank hrank r hr
  rcases hr.column_eq with ⟨hlt, hcolumn⟩
  rw [hdiv] at hcolumn ⊢
  have hhead : r.h0 / kvMul < nKv0 := Nat.div_lt_of_lt_mul hlt
  have hlast : (r.h0 / kvMul + 1) * headDim ≤ headDim * nKv0 := by
    rw [Nat.mul_comm headDim]
    exact Nat.mul_le_mul_right _ hhead
  rw [Nat.succ_mul] at hlast
  have htp : headDim * nKv0 ≤ headDim * (nKv0 * tpSize) := by
    refine Nat.mul_le_mul_left _ (Nat.le_mul_of_pos_right _ ?_)
    exact Nat.pos_of_mul_pos_left hnKv
  have hnowrap : u32 (r.h0 / kvMul * headDim) = r.h0 / kvMul * headDim :=
    u32_of_lt ((Nat.le_add_right _ headDim).trans_lt ((hlast.trans htp).trans_lt hfits))
  have hglobal : (tpRank * (kvMul * nKv0) + r.h0) / kvMul = tpRank * nKv0 + r.h0 / kvMul := by
    rw [Nat.mul_left_comm, Nat.mul_add_div hkvMul]
  rw [hcolumn, hnowrap, hglobal]
  exact ⟨by ring, hlast⟩

/-- What alignment forces: no wrap-around, and whole key heads on every rank. -/
theorem HeadsAligned.dvd {kvMul nKvHeads tpSize headDim nHeads0 kvDim0 : Nat}
    (h : HeadsAligned (kvMul * nKvHeads) nKvHeads headDim tpSize nHeads0 kvDim0)
    (hkvMul : 0 < kvMul) (hnKv : 0 < nKvHeads) (hheadDim : 0 < headDim) (htp : 0 < tpSize)
    (hheads : nHeads0 * tpSize = kvMul * nKvHeads)
    (hkv : kvDim0 * tpSize = headerKvDim headDim nKvHeads) :
    tpSize ∣ nKvHeads ∧ headDim * nKvHeads < 2 ^ 32 := by
  have hdiv : kvMul * nKvHeads / nKvHeads = kvMul := Nat.mul_div_cancel _ hnKv
  have hpos : 0 < nHeads0 := by
    refine Nat.pos_of_ne_zero fun h0 => ?_
    rw [h0, Nat.zero_mul] at hheads
    exact Nat.ne_of_lt (Nat.mul_pos hkvMul hnKv) hheads
  -- the last query head of the last rank belongs to the last key head
  have hlast := h (tpSize - 1) (by omega) _ (.of_lt (Nat.sub_lt hpos Nat.one_pos))
  simp only [hdiv] at hlast
  have hindex : ((tpSize - 1) * nHeads0 + (nHeads0 - 1)) / kvMul = nKvHeads - 1 := by
    have hsum : (tpSize - 1) * nHeads0 + nHeads0 = kvMul * nKvHeads := by
      rw [← Nat.succ_mul, Nat.succ_eq_add_one, Nat.sub_add_cancel htp, Nat.mul_comm, hheads]
    have hsplit : kvMul * nKvHeads = kvMul * (nKvHeads - 1) + kvMul := by
      rw [← Nat.mul_succ, Nat.succ_eq_add_one, Nat.sub_add_cancel hnKv]
    have hrest : (tpSize - 1) * nHeads0 + (nHeads0 - 1)
        = kvMul * (nKvHeads - 1) + (kvMul - 1) := by omega
    rw [hrest, Nat.mul_add_div hkvMul, Nat.div_eq_of_lt (by omega), Nat.add_zero]
  rw [hindex] at hlast
  have hcols : (tpSize - 1) * kvDim0 + kvDim0 = headerKvDim headDim nKvHeads := by
    rw [← Nat.succ_mul, Nat.succ_eq_add_one, Nat.sub_add_cancel htp, Nat.mul_comm, hkv]
  have hwhole : (nKvHeads - 1) * headDim + headDim = headDim * nKvHeads := by
    rw [← Nat.succ_mul, Nat.succ_eq_add_one, Nat.sub_add_cancel hnKv, Nat.mul_comm]
  have hfits : headDim * nKvHeads < 2 ^ 32 := by
    have hu := u32_lt (headDim * nKvHeads)
    have hdim : headerKvDim headDim nKvHeads = u32 (headDim * nKvHeads) := rfl
    omega
  refine ⟨?_, hfits⟩
  -- on rank 0 the last query head already needs all of the rank's columns
  have hfirst := (h 0 htp _ (.of_lt (Nat.sub_lt hpos Nat.one_pos))).2
  simp only [hdiv] at hfirst
  have hheadlt : (nHeads0 - 1) / kvMul < nKvHeads := by
    refine Nat.div_lt_of_lt_mul ?_
    have hle : nHeads0 ≤ nHeads0 * tpSize := Nat.le_mul_of_pos_right _ htp
    omega
  have hcolumn : ((nHeads0 - 1) / kvMul + 1) * headDim ≤ headDim * nKvHeads := by
    rw [Nat.mul_comm headDim]
    exact Nat.mul_le_mul_right _ hheadlt
  rw [Nat.succ_mul] at hcolumn
  rw [u32_of_lt (by omega), ← Nat.succ_mul, Nat.succ_eq_add_one] at hfirst
  have hkvDim : kvDim0 * tpSize = headDim * nKvHeads := by
    rw [hkv, headerKvDim, u32_of_lt hfits]
  have hceil : ((nHeads0 - 1) / kvMul + 1) * tpSize ≤ nKvHeads := by
    refine Nat.le_of_mul_le_mul_left ?_ hheadDim
    calc headDim * (((nHeads0 - 1) / kvMul + 1) * tpSize)
        = ((nHeads0 - 1) / kvMul + 1) * headDim * tpSize := by ring
      _ ≤ kvDim0 * tpSize := Nat.mul_le_mul_right _ hfirst
      _ = headDim * nKvHeads := hkvDim
  have hceil' : nKvHeads ≤ ((nHeads0 - 1) / kvMul + 1) * tpSize := by
    refine Nat.le_of_mul_le_mul_left ?_ hkvMul
    have hround : nHeads0 ≤ kvMul * ((nHeads0 - 1) / kvMul + 1) := by
      have hmod := Nat.div_add_mod (nHeads0 - 1) kvMul
      have hlt := Nat.mod_lt (nHeads0 - 1) hkvMul
      rw [Nat.mul_succ]
      omega
    calc kvMul * nKvHeads
        = nHeads0 * tpSize := hheads.symm
      _ ≤ kvMul * ((nHeads0 - 1) / kvMul + 1) * tpSize := Nat.mul_le_mul_right _ hround
      _ = kvMul * (((nHeads0 - 1) / kvMul + 1) * tpSize) := Nat.mul_assoc ..
  exact ⟨(nHeads0 - 1) / kvMul + 1, by rw [Nat.mul_comm]; exact Nat.le_antisymm hceil' hceil⟩

/-- With the slices the checks let through, the heads of every rank are aligned just when the
TP size divides the number of key heads (and the key width is not wrapped). -/
theorem headsAligned_iff (t : NnParallelTopology) {nHeads nKvHeads headDim seqLen nBatches : Nat}
    {spRank : Nat} {att : NnMultiHeadAttSlice} {kv : NnKvCacheSlice} (hdvd : nKvHeads ∣ nHeads)
    (hnodes : t.nNodes ≤ nKvHeads)
    (hatt : sliceMultiHeadAtt nHeads seqLen t.tpSize nBatches = .ok att)
    (hkv : sliceKvCache (headerKvDim headDim nKvHeads) seqLen t.tpSize t.spSize spRank = .ok kv) :
    HeadsAligned nHeads nKvHeads headDim t.tpSize att.nHeads0 kv.kvDim0 ↔
      nHeads = 0 ∨ headDim = 0 ∨ t.tpSize ∣ nKvHeads ∧ headDim * nKvHeads < 2 ^ 32 := by
  have hnKv : 0 < nKvHeads := t.nNodes_pos.trans_le hnodes
  have htp := t.tpSize_pos
  have hheads : att.nHeads0 = nHeads / t.tpSize ∧ nHeads % t.tpSize = 0 := by
    unfold sliceMultiHeadAtt assertThat at hatt
    split_ifs at hatt with hmod
    · cases hatt
      exact ⟨rfl, by simpa using hmod⟩
    · cases hatt
  have hcols : kv.kvDim0 = headerKvDim headDim nKvHeads / t.tpSize ∧
      headerKvDim headDim nKvHeads % t.tpSize = 0 := by
    unfold sliceKvCache assertThat at hkv
    split_ifs at hkv with hmod
    all_goals cases hkv
    exact ⟨rfl, by simpa using hmod⟩
  rcases hdvd with ⟨kvMul, rfl⟩
  rcases hheads with ⟨hheads0, hheadsmod⟩
  rcases hcols with ⟨hkvDim0, hkvmod⟩
  have hheads' : att.nHeads0 * t.tpSize = kvMul * nKvHeads := by
    rw [hheads0, Nat.div_mul_cancel (Nat.dvd_of_mod_eq_zero hheadsmod), Nat.mul_comm]
  have hkv' : kv.kvDim0 * t.tpSize = headerKvDim headDim nKvHeads := by
    rw [hkvDim0, Nat.div_mul_cancel (Nat.dvd_of_mod_eq_zero hkvmod)]
  rw [Nat.mul_comm nKvHeads kvMul]
  constructor
  · intro h
    rcases Nat.eq_zero_or_pos kvMul with hzero | hkvMul
    · exact .inl (by rw [hzero, Nat.zero_mul])
    rcases Nat.eq_zero_or_pos headDim with hzero | hheadDim
    · exact .inr (.inl hzero)
    exact .inr (.inr (h.dvd hkvMul hnKv hheadDim htp hheads' hkv'))
  · rintro (hzero | hzero | ⟨⟨nKv0, rfl⟩, hfits⟩)
    · -- no query head at all
      have hno : att.nHeads0 = 0 := by
        rw [hzero] at hheads'
        exact (Nat.mul_eq_zero.mp hheads').resolve_right htp.ne'
      intro tpRank _ r hr
      have hlt := hr.column_eq.1
      omega
    · -- heads of width zero
      have hno : kv.kvDim0 = 0 := by
        rw [headerKvDim, hzero, Nat.zero_mul] at hkv'
        exact (Nat.mul_eq_zero.mp hkv').resolve_right htp.ne'
      intro tpRank _ r hr
      rw [hr.column_eq.2, hzero, hno]
      exact ⟨rfl, Nat.le_refl 0⟩
    · rw [Nat.mul_comm t.tpSize] at hfits hheads' hkv' hnKv ⊢
      have hq : att.nHeads0 = kvMul * nKv0 :=
        Nat.eq_of_mul_eq_mul_right htp (by rw [hheads', Nat.mul_assoc])
      have hk : kv.kvDim0 = headDim * nKv0 :=
        Nat.eq_of_mul_eq_mul_right htp
          (by rw [hkv', headerKvDim, u32_of_lt hfits, Nat.mul_assoc])
      rw [hq, hk]
      rcases Nat.eq_zero_or_pos kvMul with hzero | hkvMul
      · intro tpRank _ r hr
        have hlt := hr.column_eq.1
        rw [hzero, Nat.zero_mul] at hlt
        exact absurd hlt (Nat.not_lt_zero _)
      · exact headsAligned_of_dvd hkvMul hnKv hfits

/-- Eight query heads and four key heads on two nodes. -/
theorem headsAligned_iff_eight_heads : ∃ att kv,
    sliceMultiHeadAtt 8 16 2 1 = .ok att ∧ sliceKvCache (headerKvDim 4 4) 16 2 1 0 = .ok kv ∧
      (HeadsAligned 8 4 4 2 att.nHeads0 kv.kvDim0 ↔
        8 = 0 ∨ 4 = 0 ∨ 2 ∣ 4 ∧ 4 * 4 < 2 ^ 32) :=
  ⟨_, _, rfl, rfl,
    headsAligned_iff twoTpNodes (by decide) (by decide)
      (rfl : sliceMultiHeadAtt 8 16 2 1 = .ok _) (rfl : sliceKvCache _ 16 2 1 0 = .ok _)⟩

/-- Six query heads and three key heads pass every check on two nodes; the third query head of
rank 0 reads columns 4 to 7 of rows of 6 columns. -/
theorem not_headsAligned_three_kv_heads : ∃ att kv rope,
    sliceMultiHeadAtt 6 16 2 1 = .ok att ∧ sliceKvCache (headerKvDim 4 3) 16 2 1 0 = .ok kv ∧
      sliceRope .llama 24 (headerKvDim 4 3) 3 2 16 4 10000 0 = .ok rope ∧
      twoTpNodes.nNodes ≤ 3 ∧
      ¬ HeadsAligned 6 3 4 2 att.nHeads0 kv.kvDim0 := by
  refine ⟨_, _, _, rfl, rfl, rfl, by decide, fun h => ?_⟩
  have hread := (h 0 (by decide) _ (.of_lt (show 2 < 3 by decide))).2
  exact absurd hread (by decide)

end PrefillOpt
