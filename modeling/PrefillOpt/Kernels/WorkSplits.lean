import PrefillOpt.Kernels.MatmulForward
import PrefillOpt.Kernels.RepeatZ
import PrefillOpt.Lib.Shares
import PrefillOpt.Network.Collectives

/-!
# Kernels.WorkSplits — the ways the threads share a length

`SPLIT_THREADS` and `dequantizeQ80toF32` of `nn-quants`, the columns of `matmulForward_repack` in
`nn-cpu-ops.cpp`, the sockets of `syncNodeSlicesBatched` in `nn-network.cpp`.  A bound that the
source keeps in an `NnUint` wraps here as it does there.
-/

namespace PrefillOpt
namespace Kernels

open Lib Network

/-! ## The shares -/

/-- `for (i = start; i < end; i++)` after `SPLIT_THREADS(start, end, rangeLen, …)`. -/
def splitItems (rangeLen nThreads threadIndex : Nat) : List Nat :=
  let (start, stop) := splitRange rangeLen nThreads threadIndex
  List.range' start (stop - start)

/-- The blocks that `dequantizeQ80toF32` reads, each with the first float it writes.  The product
`i * Q80_BLOCK_SIZE` of two `int`s is at most `k` and exact below `2 ^ 31`. -/
def dequantizeQ80Blocks (k nThreads threadIndex : Nat) : List (Nat × Nat) :=
  let nBlocks := k / 32
  let blocksPerThread := nBlocks / nThreads
  let sk := blocksPerThread * 32
  let currentThreadBlocks :=
    blocksPerThread + if threadIndex = nThreads - 1 then nBlocks % nThreads else 0
  let x := u32 (blocksPerThread * threadIndex)
  let y := u32 (sk * threadIndex)
  (List.range currentThreadBlocks).map fun i => (x + i, y + i * 32)

def repackItems (d nThreads threadIndex : Nat) : List Nat :=
  let (c0, cN) := repackColumns u32 d nThreads threadIndex
  List.range' c0 cN

/-- The sockets that a thread of the call drives. -/
def socketItems (c : BatchedCall) (threadIndex : Nat) : List Nat :=
  let c := { c with threadIndex }
  (List.range c.nSocketsPerThread).map c.socketIndex

/-! ## Where they share everything -/

section Splits

variable {length k d n t : Nat}

theorem splitItems_eq (hlength : length < 2 ^ 32) (ht : t < n) :
    splitItems length n t = List.range' (blockStart length n t) (blockCount length n t) := by
  have hle := blockStart_add_blockCount_le (m := length) ht
  have hstart : blockStart length n t < 2 ^ 32 := by omega
  have hstop : blockStart length n t + blockCount length n t < 2 ^ 32 := by omega
  simp only [splitItems, splitRange_eq length n t, u32_of_lt hstart, u32_of_lt hstop,
    Nat.add_sub_cancel_left]

theorem flatMap_splitItems (hn : 0 < n) (hlength : length < 2 ^ 32) :
    (List.range n).flatMap (splitItems length n) = List.range length := by
  rw [← flatMap_blockStart (m := length) hn]
  exact List.flatMap_congr fun t ht => splitItems_eq hlength (List.mem_range.1 ht)

/-- Every bound is an `NnUint`, so that no thread gets as far as item `2 ^ 32 - 1`. -/
theorem length_lt_of_shares (h : Shares length n (splitItems length n)) : length < 2 ^ 32 := by
  by_contra hlong
  obtain ⟨t, -, ht⟩ := (h.covers (2 ^ 32 - 1)).1 (by omega)
  have hstop : (splitRange length n t).2 < 2 ^ 32 := u32_lt _
  have hmem : (splitRange length n t).1 ≤ 2 ^ 32 - 1 ∧ 2 ^ 32 - 1
      < (splitRange length n t).1 + ((splitRange length n t).2 - (splitRange length n t).1) :=
    List.mem_range'_1.1 ht
  omega

theorem dequantizeQ80Blocks_eq (hk : k < 2 ^ 32) (ht : t < n) :
    dequantizeQ80Blocks k n t
      = (List.range' (t * (k / 32 / n))
          (k / 32 / n + if t = n - 1 then k / 32 % n else 0)).map fun b => (b, b * 32) := by
  have hblocks : k / 32 / n * t ≤ k / 32 := by
    calc k / 32 / n * t
        ≤ k / 32 / n * n := Nat.mul_le_mul_left _ ht.le
      _ ≤ k / 32 := Nat.div_mul_le_self _ _
  have hfloats : k / 32 / n * 32 * t = k / 32 / n * t * 32 := Nat.mul_right_comm _ _ _
  have hx : u32 (k / 32 / n * t) = t * (k / 32 / n) := by
    rw [u32_of_lt (by omega), Nat.mul_comm]
  have hy : u32 (k / 32 / n * 32 * t) = t * (k / 32 / n) * 32 := by
    rw [hfloats, u32_of_lt (by omega), Nat.mul_comm t]
  simp only [dequantizeQ80Blocks, hx, hy]
  rw [List.range'_eq_map_range, List.map_map]
  apply List.map_congr_left
  intro i _
  simp only [Function.comp_apply, Nat.add_mul]

theorem flatMap_dequantizeQ80Blocks (hn : 0 < n) (hk : k < 2 ^ 32) :
    ((List.range n).flatMap fun t => (dequantizeQ80Blocks k n t).map Prod.fst)
      = List.range (k / 32) := by
  have hshare : ∀ t < n, (dequantizeQ80Blocks k n t).map Prod.fst
      = List.range' (t * (k / 32 / n)) (k / 32 / n + if t = n - 1 then k / 32 % n else 0) := by
    intro t ht
    rw [dequantizeQ80Blocks_eq hk ht, List.map_map]
    exact List.map_id _
  obtain ⟨m, rfl⟩ := Nat.exists_eq_add_one.2 hn
  rw [List.flatMap_congr fun t ht => hshare t (List.mem_range.1 ht), List.range_succ,
    List.flatMap_append, List.flatMap_singleton, Nat.add_sub_cancel, if_pos rfl]
  generalize hper : k / 32 / (m + 1) = per
  have hequal : ((List.range m).flatMap fun t =>
      List.range' (t * per) (per + if t = m then k / 32 % (m + 1) else 0))
        = List.range (m * per) := by
    have hblocks := flatMap_blocks m per (fun b => b)
    rw [List.map_id'] at hblocks
    rw [← hblocks]
    apply List.flatMap_congr
    intro t ht
    rw [if_neg (Nat.ne_of_lt (List.mem_range.1 ht)), Nat.add_zero, List.range'_eq_map_range]
  have htotal : m * per + (per + k / 32 % (m + 1)) = k / 32 := by
    have hdiv := Nat.div_add_mod (k / 32) (m + 1)
    rw [hper, Nat.succ_mul] at hdiv
    omega
  have happend := @List.range'_append_1 0 (m * per) (per + k / 32 % (m + 1))
  rw [Nat.zero_add, htotal] at happend
  rw [hequal, List.range_eq_range', List.range_eq_range']
  exact happend

/-- Columns of each thread, without a limit on the numbers. -/
def columnWidth (d n : Nat) : Nat :=
  (d / 4 + n - 1) / n * 4

/-- No start of a range reaches `2 ^ 32`, nor the end of one that has columns. -/
def ColumnsFit (d n : Nat) : Prop :=
  d = 0 ∨ ∀ t < n, t * columnWidth d n < 2 ^ 32 ∧
    (t * columnWidth d n < d → t * columnWidth d n + columnWidth d n < 2 ^ 32)

theorem columnWidth_pos (hn : 0 < n) (hd : 4 ∣ d) (hd' : 0 < d) :
    4 ≤ columnWidth d n ∧ columnWidth d n ≤ d := by
  have hgroups : 1 ≤ d / 4 := (Nat.one_le_div_iff (by omega)).2 (Nat.le_of_dvd hd' hd)
  have hpos : 1 ≤ (d / 4 + n - 1) / n := (Nat.one_le_div_iff hn).2 (by omega)
  have hle : (d / 4 + n - 1) / n ≤ d / 4 := by
    apply Nat.le_of_lt_succ
    apply Nat.div_lt_of_lt_mul
    have hmul := Nat.le_mul_of_pos_left (d / 4) hn
    rw [Nat.mul_succ]
    omega
  rw [columnWidth]
  omega

theorem threadColumns_eq :
    threadColumns d n t
      = List.range' (t * columnWidth d n) (min (columnWidth d n) (d - t * columnWidth d n)) :=
  rfl

/-- The columns of a thread when the groups of all threads can be counted. -/
theorem repackColumns_eq (hsum : d / 4 + n - 1 < 2 ^ 32) :
    repackColumns u32 d n t
      = if d ≤ u32 (t * columnWidth d n) then (u32 (t * columnWidth d n), 0)
        else (u32 (t * columnWidth d n),
          if d < u32 (u32 (t * columnWidth d n) + u32 (columnWidth d n))
            then d - u32 (t * columnWidth d n) else u32 (columnWidth d n)) := by
  simp only [repackColumns, columnWidth, u32_of_lt hsum, Nat.mul_assoc]
  rfl

theorem repackItems_eq (hn : 0 < n) (hd : 4 ∣ d) (hd' : d < 2 ^ 32) (hfit : ColumnsFit d n)
    (ht : t < n) : repackItems d n t = threadColumns d n t := by
  rcases hfit with rfl | hfit
  · simp only [repackItems, repackColumns, threadColumns_eq, Nat.zero_le, if_true, Nat.zero_sub,
      Nat.min_zero, List.range'_zero]
  rcases Nat.eq_zero_or_pos d with rfl | hpos
  · simp only [repackItems, repackColumns, threadColumns_eq, Nat.zero_le, if_true, Nat.zero_sub,
      Nat.min_zero, List.range'_zero]
  obtain ⟨hwidth, -⟩ := columnWidth_pos hn hd hpos
  have hsum : d / 4 + n - 1 < 2 ^ 32 := by
    have hlast := (hfit (n - 1) (Nat.sub_lt hn Nat.one_pos)).1
    have hmul := Nat.mul_le_mul_left (n - 1) hwidth
    omega
  obtain ⟨hstart, hstop⟩ := hfit t ht
  rw [repackItems, repackColumns_eq hsum, threadColumns_eq, u32_of_lt hstart]
  by_cases hnone : d ≤ t * columnWidth d n
  · rw [if_pos hnone, Nat.sub_eq_zero_of_le hnone, Nat.min_zero]
  · have hend := hstop (Nat.lt_of_not_le hnone)
    have hcount : (if d < t * columnWidth d n + columnWidth d n then d - t * columnWidth d n
        else columnWidth d n) = min (columnWidth d n) (d - t * columnWidth d n) := by
      split_ifs <;> omega
    rw [if_neg hnone, u32_of_lt (Nat.lt_of_le_of_lt (Nat.le_add_left _ _) hend), u32_of_lt hend,
      hcount]

theorem flatMap_repackItems (hn : 0 < n) (hd : 4 ∣ d) (hd' : d < 2 ^ 32) (hfit : ColumnsFit d n) :
    (List.range n).flatMap (repackItems d n) = List.range d := by
  rw [← threadColumns_flatMap hn hd]
  exact List.flatMap_congr fun t ht => repackItems_eq hn hd hd' hfit (List.mem_range.1 ht)

/-- Bounds of the ranges are multiples of four, also where they have wrapped around. -/
theorem four_dvd_repackColumns (hd : 4 ∣ d) :
    4 ∣ (repackColumns u32 d n t).1 ∧ 4 ∣ (repackColumns u32 d n t).2 := by
  have hu32 : ∀ m, 4 ∣ u32 (m * 4) := fun m =>
    (Nat.dvd_mod_iff (by decide)).2 (Nat.dvd_mul_left 4 m)
  simp only [repackColumns]
  split_ifs
  · exact ⟨hu32 _, Nat.dvd_zero 4⟩
  · exact ⟨hu32 _, Nat.dvd_sub hd (hu32 _)⟩
  · exact ⟨hu32 _, hu32 _⟩

theorem mem_repackItems {col : Nat} :
    col ∈ repackItems d n t ↔ (repackColumns u32 d n t).1 ≤ col ∧
      col < (repackColumns u32 d n t).1 + (repackColumns u32 d n t).2 :=
  List.mem_range'_1

/-- With too many threads to count the groups there are no columns at all. -/
theorem sum_lt_of_shares (hn' : n < 2 ^ 32) (hd : d < 2 ^ 32) (hpos : 0 < d)
    (h : Shares d n (repackItems d n)) : d / 4 + n - 1 < 2 ^ 32 := by
  by_contra hbig
  have hwrap : u32 (d / 4 + n - 1) / n = 0 := by
    apply Nat.div_eq_of_lt
    rw [u32]
    omega
  obtain ⟨t, -, hcol⟩ := (h.covers 0).1 hpos
  have hmem := mem_repackItems.1 hcol
  simp only [repackColumns, hwrap, Nat.mul_zero, Nat.zero_mul] at hmem
  have hzero : u32 0 = 0 := rfl
  simp only [hzero, Nat.not_le.2 hpos, if_false, Nat.add_zero, Nat.not_lt_zero] at hmem
  exact hmem.2

/-- A range that starts past `2 ^ 32` comes back into the columns of the first thread. -/
theorem start_lt_of_shares (hn : 0 < n) (hn' : n < 2 ^ 32) (hd : d < 2 ^ 32) (hd4 : 4 ∣ d)
    (hpos : 0 < d) (h : Shares d n (repackItems d n)) (ht : t < n) :
    t * columnWidth d n < 2 ^ 32 := by
  have hsum := sum_lt_of_shares hn' hd hpos h
  obtain ⟨hwidth, hle⟩ := columnWidth_pos hn hd4 hpos
  have hu32 : u32 (columnWidth d n) = columnWidth d n := u32_of_lt (Nat.lt_of_le_of_lt hle hd)
  have hfirst : repackColumns u32 d n 0 = (0, columnWidth d n) := by
    have hzero : u32 0 = 0 := rfl
    rw [repackColumns_eq hsum, Nat.zero_mul, hzero, if_neg (Nat.not_le.2 hpos), hu32, Nat.zero_add,
      hu32, if_neg (Nat.not_lt.2 hle)]
  induction t with
  | zero => omega
  | succ t ih =>
      by_contra hbig
      have hbefore := ih (Nat.lt_of_succ_lt ht)
      have hwrap : u32 ((t + 1) * columnWidth d n) < columnWidth d n := by
        rw [Nat.succ_mul] at hbig
        rw [u32, Nat.succ_mul]
        omega
      have hmem : u32 ((t + 1) * columnWidth d n) ∈ repackItems d n (t + 1) := by
        rw [mem_repackItems, repackColumns_eq hsum,
          if_neg (Nat.not_le.2 (Nat.lt_of_lt_of_le hwrap hle)), hu32]
        refine ⟨Nat.le_refl _, ?_⟩
        simp only
        split_ifs <;> omega
      have hmem' : u32 ((t + 1) * columnWidth d n) ∈ repackItems d n 0 := by
        rw [mem_repackItems, hfirst]
        exact ⟨Nat.zero_le _, by simpa using hwrap⟩
      exact absurd (h.disjoint (t + 1) ht 0 hn _ hmem hmem') (Nat.succ_ne_zero t)

theorem columnsFit_of_shares (hn : 0 < n) (hn' : n < 2 ^ 32) (hd : d < 2 ^ 32) (hd4 : 4 ∣ d)
    (h : Shares d n (repackItems d n)) : ColumnsFit d n := by
  rcases Nat.eq_zero_or_pos d with hzero | hpos
  · exact .inl hzero
  refine .inr fun t ht => ?_
  have hsum := sum_lt_of_shares hn' hd hpos h
  have hstart := start_lt_of_shares hn hn' hd hd4 hpos h ht
  obtain ⟨hwidth, hle⟩ := columnWidth_pos hn hd4 hpos
  have hu32 : u32 (columnWidth d n) = columnWidth d n := u32_of_lt (Nat.lt_of_le_of_lt hle hd)
  refine ⟨hstart, fun hcols => ?_⟩
  by_contra hbig
  -- the end has wrapped around, so the range is not cut off at `d`
  have hwrap : u32 (t * columnWidth d n + columnWidth d n) < columnWidth d n := by
    rw [u32]
    omega
  have hrange : repackColumns u32 d n t = (t * columnWidth d n, columnWidth d n) := by
    rw [repackColumns_eq hsum, u32_of_lt hstart, if_neg (Nat.not_le.2 hcols), hu32,
      if_neg (by omega)]
  have hmem : t * columnWidth d n + columnWidth d n - 1 ∈ repackItems d n t := by
    rw [mem_repackItems, hrange]
    omega
  have hin := (h.covers _).2 ⟨t, ht, hmem⟩
  omega

theorem shares_socketItems (c : BatchedCall) (hn : 0 < c.nThreads) :
    Shares c.nSockets c.nThreads (socketItems c) :=
  shares_stride hn

end Splits

/-! ## All four -/

/-- Every item goes to one thread: those of a loop after `SPLIT_THREADS`, the blocks of a row, the
columns of a repacked weight and the sockets of a call. -/
structure WorkSplits (length k d : Nat) (c : BatchedCall) : Prop where
  split : Shares length c.nThreads (splitItems length c.nThreads)
  splitInOrder : InOrder c.nThreads (splitItems length c.nThreads)
  blocks : Shares (k / 32) c.nThreads fun t => (dequantizeQ80Blocks k c.nThreads t).map Prod.fst
  blocksInOrder : InOrder c.nThreads fun t => (dequantizeQ80Blocks k c.nThreads t).map Prod.fst
  /-- A block is written where it belongs. -/
  floats : ∀ t < c.nThreads, ∀ b ∈ dequantizeQ80Blocks k c.nThreads t, b.2 = b.1 * 32
  columns : Shares d c.nThreads (repackItems d c.nThreads)
  columnBounds : ∀ t < c.nThreads,
    4 ∣ (repackColumns u32 d c.nThreads t).1 ∧ 4 ∣ (repackColumns u32 d c.nThreads t).2
  sockets : Shares c.nSockets c.nThreads (socketItems c)

/-- The threads share all work as long as no bound wraps around: `SPLIT_THREADS` has no room for
the end of a longer length, the columns none for a start or an end past `2 ^ 32`. -/
theorem workSplits_iff (length : Nat) {k d : Nat} (c : BatchedCall) (hn : 1 ≤ c.nThreads)
    (hn' : c.nThreads < 2 ^ 32) (hk : k < 2 ^ 32) (hd : d < 2 ^ 32) (hd4 : 4 ∣ d) :
    WorkSplits length k d c ↔ length < 2 ^ 32 ∧ ColumnsFit d c.nThreads := by
  constructor
  · intro h
    exact ⟨length_lt_of_shares h.split, columnsFit_of_shares hn hn' hd hd4 h.columns⟩
  · rintro ⟨hlength, hfit⟩
    have hsplit := flatMap_splitItems hn hlength
    have hblocks := flatMap_dequantizeQ80Blocks hn hk
    refine ⟨shares_of_flatMap_eq hsplit, inOrder_of_flatMap_eq hsplit,
      shares_of_flatMap_eq hblocks, inOrder_of_flatMap_eq hblocks, ?_,
      shares_of_flatMap_eq (flatMap_repackItems hn hd4 hd hfit),
      fun t _ => four_dvd_repackColumns hd4, shares_socketItems c hn⟩
    intro t ht b hb
    rw [dequantizeQ80Blocks_eq hk ht] at hb
    obtain ⟨i, -, rfl⟩ := List.mem_map.1 hb
    rfl

/-- Three threads of a root with two sockets. -/
def threeThreads : BatchedCall :=
  ⟨false, 2, 0, 0, 3, 96, 2, 3, 0⟩

theorem workSplits_iff_three_threads :
    WorkSplits 10 160 16 threeThreads ↔ 10 < 2 ^ 32 ∧ ColumnsFit 16 threeThreads.nThreads :=
  workSplits_iff 10 threeThreads (by decide) (by decide) (by decide) (by decide) (by decide)

/-- A row of `2 ^ 32` bytes and one thread: `rangeSlice` is 0, and nothing is copied. -/
theorem not_workSplits_long_row :
    splitItems (2 ^ 32) 1 0 = [] ∧
      ¬WorkSplits (2 ^ 32) 160 16 ⟨false, 2, 0, 0, 3, 96, 2, 1, 0⟩ :=
  ⟨rfl, fun h => absurd (length_lt_of_shares h.split) (Nat.lt_irrefl _)⟩

end Kernels
end PrefillOpt
