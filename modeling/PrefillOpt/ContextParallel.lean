import PrefillOpt.CpuShift
import PrefillOpt.Lib.BlockSplit
import PrefillOpt.Network.SpKvExchange

/-!
# ContextParallel — the computed rows against the exchanged rows

Under the context-parallel cut a node computes the rows of `cpRowWindow` and the exchange sends
the rows of `blockRange`.  The same cut is written down twice: the first from the rows that are
left after pruning and with a whole-batch fallback for batches shorter than the group, the second
from `batchSize` and without the fallback.
-/

namespace PrefillOpt
namespace Network

open Lib

/-- The row state `nnCpuOpsSetCpRange` leaves on a node of the topology. -/
def cpRowState (t : NnParallelTopology) (activeRows node : Nat) : CpuRowState :=
  ⟨activeRows, t.spSize, (t.placement node).spRank⟩

/-- The config of the shift ops of a node whose cache is sharded. -/
def shiftConfigOf (s : NnKvCacheSlice) : NnShiftOpCodeConfig :=
  ⟨s.localSeqStart, s.localSeqLen⟩

namespace SpKvForward

variable (t : NnParallelTopology) (f : SpKvForward) (activeRows : Nat)

def slice (node : Nat) : NnKvCacheSlice :=
  kvCacheSlice f.kvDim f.seqLen t.tpSize t.spSize (t.placement node).spRank

/-- The batch rows whose keys and values a node writes. -/
def writtenRows (node : Nat) : List Nat :=
  shiftRows (cpRowState t activeRows node) (shiftConfigOf (f.slice t node)) f.batchSize
    f.positions

/-- Both shift ops of a layer. -/
def shiftKv {β : Type} (node : Nat) (input : Kv (Nat → β)) (kv : Kv β) : Kv β where
  k := shiftForward (cpRowState t activeRows node) (shiftConfigOf (f.slice t node)) f.batchSize
    f.positions (f.kvDim0Bytes t) (fun b j => input.k b j) kv.k
  v := shiftForward (cpRowState t activeRows node) (shiftConfigOf (f.slice t node)) f.batchSize
    f.positions (f.kvDim0Bytes t) (fun b j => input.v b j) kv.v

end SpKvForward

/-- Computed rows and exchanged rows fit together on every node of the topology. -/
structure CpWindowsAgree (t : NnParallelTopology) (f : SpKvForward) (activeRows nBatches : Nat) :
    Prop where
  /-- A node writes exactly the rows the exchange takes for its block. -/
  window_eq_block : ∀ node, node < t.nNodes → ∀ p,
    (∃ b ∈ f.writtenRows t activeRows node, f.positions b = p) ↔
      (blockRange f.positions f.batchSize t.spSize (t.placement node).spRank).1 ≤ p ∧
      p < (blockRange f.positions f.batchSize t.spSize (t.placement node).spRank).2
  disjoint : ∀ r r' p, r < t.spSize → r' < t.spSize →
    (blockRange f.positions f.batchSize t.spSize r).1 ≤ p →
    p < (blockRange f.positions f.batchSize t.spSize r).2 →
    (blockRange f.positions f.batchSize t.spSize r').1 ≤ p →
    p < (blockRange f.positions f.batchSize t.spSize r').2 → r = r'
  cover : ∀ b, b < f.batchSize → ∃ r, r < t.spSize ∧
    (blockRange f.positions f.batchSize t.spSize r).1 ≤ f.positions b ∧
    f.positions b < (blockRange f.positions f.batchSize t.spSize r).2
  /-- Both indices into the position pipe are inside it. -/
  index_lt : ∀ r, r < t.spSize →
    (blockRows f.batchSize t.spSize r).1 < nBatches ∧
    (blockRows f.batchSize t.spSize r).1 + (blockRows f.batchSize t.spSize r).2 - 1 < nBatches
  /-- After shift and exchange every rank has the keys and values of every row of the batch, as
  a rank that computed the row had them. -/
  exchanged : ∀ {β : Type} (cap : Port → Nat) (prev : Nat → Kv β) (input : Nat → Kv (Nat → β)),
    ∃ result : Party → Kv β,
      Completes (mainNet cap)
        (spKvSystem t f fun node => f.shiftKv t activeRows node (input node) (prev node)) result ∧
      ∀ pp r tp, pp < t.ppSize → r < t.spSize → tp < t.tpSize → ∀ b, b < f.batchSize →
        ∃ owner, owner < t.spSize ∧ b ∈ f.writtenRows t activeRows (t.rankAt pp owner tp) ∧
          ∀ j, j < f.kvDim0Bytes t →
            (result (t.rankAt pp r tp, 0)).k (f.positions b * f.kvDim0Bytes t + j)
              = (input (t.rankAt pp owner tp)).k b j ∧
            (result (t.rankAt pp r tp, 0)).v (f.positions b * f.kvDim0Bytes t + j)
              = (input (t.rankAt pp owner tp)).v b j

/-! ## The two cuts -/

section Cuts

variable {t : NnParallelTopology} {f : SpKvForward} {activeRows nBatches : Nat}

theorem blockRows_eq (m n r : Nat) : blockRows m n r = (blockStart m n r, blockCount m n r) := by
  simp only [blockRows, blockStart, blockCount, Prod.mk.injEq, and_true]
  split_ifs <;> omega

theorem cpRowWindow_eq (g : CpuRowState) (batchSize : Nat) :
    cpRowWindow g batchSize
      = if g.cpSize ≤ 1 ∨ activeRowCount g batchSize < g.cpSize then
          (0, activeRowCount g batchSize)
        else blockRows (activeRowCount g batchSize) g.cpSize g.cpRank := rfl

/-- With a row for every rank and none pruned, the window is the block. -/
theorem cpRowWindow_eq_blockRows (hn : 2 ≤ t.spSize) (hle : t.spSize ≤ f.batchSize)
    (ha : activeRows = 0 ∨ f.batchSize ≤ activeRows) (node : Nat) :
    cpRowWindow (cpRowState t activeRows node) f.batchSize
      = blockRows f.batchSize t.spSize (t.placement node).spRank := by
  have hact : activeRowCount (cpRowState t activeRows node) f.batchSize = f.batchSize :=
    activeRowCount_eq_batchSize ha
  rw [cpRowWindow_eq, hact, if_neg (by simp only [cpRowState]; omega)]
  rfl

/-- The window never reaches beyond the rows that are left. -/
theorem lt_activeRowCount_of_lt_window {g : CpuRowState} {batchSize b : Nat}
    (hrank : g.cpRank < g.cpSize)
    (hb : b < (cpRowWindow g batchSize).1 + (cpRowWindow g batchSize).2) :
    b < activeRowCount g batchSize := by
  rw [cpRowWindow_eq] at hb
  split_ifs at hb with hn
  · simpa using hb
  · rw [blockRows_eq] at hb
    exact hb.trans_le (blockStart_add_blockCount_le hrank)

theorem shiftWrites_of_cp (hn : 2 ≤ t.spSize) (config : NnShiftOpCodeConfig) (node index : Nat) :
    shiftWrites (cpRowState t activeRows node) config index = true := by
  have : ¬ t.spSize ≤ 1 := by omega
  simp [shiftWrites, cpRowState, this]

theorem mem_writtenRows (hn : 2 ≤ t.spSize) {node b : Nat} :
    b ∈ f.writtenRows t activeRows node ↔
      (cpRowWindow (cpRowState t activeRows node) f.batchSize).1 ≤ b ∧
      b < (cpRowWindow (cpRowState t activeRows node) f.batchSize).1
        + (cpRowWindow (cpRowState t activeRows node) f.batchSize).2 := by
  rw [SpKvForward.writtenRows, mem_shiftRows, shiftWrites_of_cp hn]
  simp

/-- The batch has consecutive positions from `first` on. -/
def SpKvForward.ContiguousFrom (f : SpKvForward) (first : Nat) : Prop :=
  ∀ b, b < f.batchSize → f.positions b = first + b

/-- The positions of a non-empty block of consecutive rows. -/
theorem blockRange_eq {first : Nat} (hpos : f.ContiguousFrom first) {r : Nat} (hr : r < t.spSize)
    (hcnt : 0 < blockCount f.batchSize t.spSize r) :
    blockRange f.positions f.batchSize t.spSize r
      = (first + blockStart f.batchSize t.spSize r,
        first + blockStart f.batchSize t.spSize r + blockCount f.batchSize t.spSize r) := by
  have hle := blockStart_add_blockCount_le (m := f.batchSize) hr
  simp only [blockRange, blockRows_eq]
  rw [hpos _ (by omega), hpos _ (by omega)]
  exact Prod.ext rfl (by simp only; omega)

theorem writtenRows_iff {first : Nat} (hpos : f.ContiguousFrom first) (hn : 2 ≤ t.spSize)
    (hle : t.spSize ≤ f.batchSize) (ha : activeRows = 0 ∨ f.batchSize ≤ activeRows) {node b : Nat}
    (hb : b < f.batchSize) :
    b ∈ f.writtenRows t activeRows node ↔
      (blockRange f.positions f.batchSize t.spSize (t.placement node).spRank).1 ≤ f.positions b ∧
      f.positions b
        < (blockRange f.positions f.batchSize t.spSize (t.placement node).spRank).2 := by
  rw [mem_writtenRows hn, cpRowWindow_eq_blockRows hn hle ha, blockRows_eq,
    blockRange_eq hpos (t.spRank_lt node) (blockCount_pos (by omega) hle), hpos b hb]
  simp only
  omega

end Cuts

/-! ## When they agree -/

section Agree

variable {t : NnParallelTopology} {f : SpKvForward} {activeRows nBatches first : Nat}

theorem cpRange_eq_blockRange (hcp : f.cpSplit = true) (hB : 1 < f.batchSize) (r : Nat) :
    f.range t r = blockRange f.positions f.batchSize t.spSize r := by
  simp [SpKvForward.range, hcp, hB]

variable (hn : 2 ≤ t.spSize) (hpos : f.ContiguousFrom first) (hle : t.spSize ≤ f.batchSize)
include hn hpos hle

theorem cp_cover {b : Nat} (hb : b < f.batchSize) : ∃ r, r < t.spSize ∧
    (blockRange f.positions f.batchSize t.spSize r).1 ≤ f.positions b ∧
    f.positions b < (blockRange f.positions f.batchSize t.spSize r).2 := by
  obtain ⟨r, hr, h₁, h₂⟩ := exists_block (n := t.spSize) (by omega) hb
  refine ⟨r, hr, ?_⟩
  rw [blockRange_eq hpos hr (blockCount_pos (by omega) hle), hpos b hb]
  simp only
  omega

theorem cp_disjoint {r r' p : Nat} (hr : r < t.spSize) (hr' : r' < t.spSize)
    (h₁ : (blockRange f.positions f.batchSize t.spSize r).1 ≤ p)
    (h₂ : p < (blockRange f.positions f.batchSize t.spSize r).2)
    (h₁' : (blockRange f.positions f.batchSize t.spSize r').1 ≤ p)
    (h₂' : p < (blockRange f.positions f.batchSize t.spSize r').2) : r = r' := by
  rw [blockRange_eq hpos hr (blockCount_pos (by omega) hle)] at h₁ h₂
  rw [blockRange_eq hpos hr' (blockCount_pos (by omega) hle)] at h₁' h₂'
  simp only at h₁ h₂ h₁' h₂'
  exact block_unique (b := p - first) (m := f.batchSize) (n := t.spSize)
    (by omega) (by omega) (by omega) (by omega)

variable (ha : activeRows = 0 ∨ f.batchSize ≤ activeRows)
include ha

omit hpos in
theorem lt_batchSize_of_mem_writtenRows {node b : Nat}
    (hb : b ∈ f.writtenRows t activeRows node) : b < f.batchSize := by
  have hlast := blockStart_add_blockCount_le (m := f.batchSize) (t.spRank_lt node)
  rw [mem_writtenRows hn, cpRowWindow_eq_blockRows hn hle ha, blockRows_eq] at hb
  exact hb.2.trans_le hlast

theorem cp_window_eq_block (node p : Nat) :
    (∃ b ∈ f.writtenRows t activeRows node, f.positions b = p) ↔
      (blockRange f.positions f.batchSize t.spSize (t.placement node).spRank).1 ≤ p ∧
      p < (blockRange f.positions f.batchSize t.spSize (t.placement node).spRank).2 := by
  constructor
  · rintro ⟨b, hb, rfl⟩
    have hbB := lt_batchSize_of_mem_writtenRows hn hle ha hb
    exact (writtenRows_iff hpos hn hle ha hbB).1 hb
  · intro hp
    have hr := t.spRank_lt node
    have hlast := blockStart_add_blockCount_le (m := f.batchSize) hr
    have hp' := hp
    rw [blockRange_eq hpos hr (blockCount_pos (by omega) hle)] at hp'
    simp only at hp'
    have hbB : p - first < f.batchSize := by omega
    have hpb : f.positions (p - first) = p := by
      rw [hpos _ hbB]
      omega
    exact ⟨p - first, (writtenRows_iff hpos hn hle ha hbB).2 (by rwa [hpb]), hpb⟩

/-- The exchange after the shift ops: every rank gets every row from the rank that wrote it. -/
theorem cp_exchanged {β : Type} (hcp : f.cpSplit = true) (hB : 1 < f.batchSize) (cap : Port → Nat)
    (prev : Nat → Kv β) (input : Nat → Kv (Nat → β)) :
    ∃ result : Party → Kv β,
      Completes (mainNet cap)
        (spKvSystem t f fun node => f.shiftKv t activeRows node (input node) (prev node)) result ∧
      ∀ pp r tp, pp < t.ppSize → r < t.spSize → tp < t.tpSize → ∀ b, b < f.batchSize →
        ∃ owner, owner < t.spSize ∧ b ∈ f.writtenRows t activeRows (t.rankAt pp owner tp) ∧
          ∀ j, j < f.kvDim0Bytes t →
            (result (t.rankAt pp r tp, 0)).k (f.positions b * f.kvDim0Bytes t + j)
              = (input (t.rankAt pp owner tp)).k b j ∧
            (result (t.rankAt pp r tp, 0)).v (f.positions b * f.kvDim0Bytes t + j)
              = (input (t.rankAt pp owner tp)).v b j := by
  have hdis : DisjointBlocks (f.block t) t.spSize := by
    refine disjointBlocks_of_rows fun p r r' hr hr' => ?_
    rw [cpRange_eq_blockRange hcp hB, cpRange_eq_blockRange hcp hB]
    exact cp_disjoint hn hpos hle hr hr'
  refine ⟨_, spKvSystem_completes hn hdis cap _, ?_⟩
  intro pp r tp hpp hr htp b hb
  obtain ⟨owner, howner, hmem⟩ := cp_cover hn hpos hle hb
  obtain ⟨h₁, h₂, h₃⟩ := t.placement_rankAt pp hr htp
  obtain ⟨-, h₂', -⟩ := t.placement_rankAt pp howner htp
  have hwritten : b ∈ f.writtenRows t activeRows (t.rankAt pp owner tp) := by
    rw [writtenRows_iff hpos hn hle ha hb, h₂']
    exact hmem
  have huniq : ∀ b' ∈ f.writtenRows t activeRows (t.rankAt pp owner tp),
      f.positions b' = f.positions b → b' = b := by
    intro b' hb' heq
    rw [hpos b hb, hpos b' (lt_batchSize_of_mem_writtenRows hn hle ha hb')] at heq
    omega
  refine ⟨owner, howner, hwritten, fun j hj => ?_⟩
  rw [← cpRange_eq_blockRange hcp hB] at hmem
  have hmax : f.positions b ≤ f.maxPos := le_maxPosition hb
  have hrow : ∀ init : Nat → Mem β,
      Mem.gather (f.block t) init r t.spSize (f.positions b * f.kvDim0Bytes t + j)
        = init owner (f.positions b * f.kvDim0Bytes t + j) := by
    intro init
    rw [gather_row hdis hj howner hmem, if_pos hmax]
  simp only [spKvResult, t.rankAt_lt hpp hr htp, true_and, if_true, h₁, h₂, h₃, Kv.gather, hrow]
  exact ⟨shiftForward_of_mem hwritten huniq hj, shiftForward_of_mem hwritten huniq hj⟩

end Agree

namespace CpWindowsAgree

variable {t : NnParallelTopology} {f : SpKvForward} {activeRows nBatches first : Nat}

/-- The last row of the batch is in a block, but in no window when rows were pruned. -/
theorem not_pruned (h : CpWindowsAgree t f activeRows nBatches) (hn : 2 ≤ t.spSize)
    (hB : 1 < f.batchSize) (hpos : f.ContiguousFrom first) :
    activeRows = 0 ∨ f.batchSize ≤ activeRows := by
  by_contra hno
  obtain ⟨r, hr, hlast⟩ := h.cover (f.batchSize - 1) (by omega)
  obtain ⟨-, hrank, -⟩ := t.placement_rankAt 0 hr t.tpSize_pos
  have hnode := t.rankAt_lt t.ppSize_pos hr t.tpSize_pos
  obtain ⟨b, hb, heq⟩ := (h.window_eq_block _ hnode (f.positions (f.batchSize - 1))).2
    (by rwa [hrank])
  have hlt : b < activeRowCount (cpRowState t activeRows (t.rankAt 0 r 0)) f.batchSize :=
    lt_activeRowCount_of_lt_window (t.spRank_lt _) ((mem_writtenRows hn).1 hb).2
  have hcount : activeRowCount (cpRowState t activeRows (t.rankAt 0 r 0)) f.batchSize
      = activeRows := activeRowCount_eq_activeRows hno
  rw [hpos b (by omega), hpos _ (by omega)] at heq
  omega

/-- A batch shorter than the group is computed whole by rank 0, whose block is one row. -/
theorem spSize_le (h : CpWindowsAgree t f activeRows nBatches) (hn : 2 ≤ t.spSize)
    (hB : 1 < f.batchSize) (hpos : f.ContiguousFrom first) : t.spSize ≤ f.batchSize := by
  by_contra hlt
  have ha := h.not_pruned hn hB hpos
  have hrank : (t.placement 0).spRank = 0 := by
    simp [NnParallelTopology.placement]
  have hcount : activeRowCount (cpRowState t activeRows 0) f.batchSize = f.batchSize :=
    activeRowCount_eq_batchSize ha
  have hrow : 1 ∈ f.writtenRows t activeRows 0 := by
    rw [mem_writtenRows hn, cpRowWindow_eq, hcount,
      if_pos (.inr (by simp only [cpRowState]; omega))]
    simp only
    omega
  have hblock : blockRange f.positions f.batchSize t.spSize 0 = (first, first + 1) := by
    have hdiv : f.batchSize / t.spSize = 0 := Nat.div_eq_of_lt (by omega)
    have hmod : f.batchSize % t.spSize = f.batchSize := Nat.mod_eq_of_lt (by omega)
    have hpos0 := hpos 0 (by omega)
    simp only [blockRange, blockRows, hdiv, hmod]
    rw [if_pos (by omega), if_pos (by omega)]
    simp [hpos0]
  have hmem := (h.window_eq_block 0 t.nNodes_pos (f.positions 1)).1 ⟨1, hrow, rfl⟩
  rw [hrank, hblock, hpos 1 hB] at hmem
  simp only at hmem
  omega

end CpWindowsAgree

/-- The computed and the exchanged rows of a batch of consecutive positions fit together exactly
when there is a row for every rank and no row has been pruned away. -/
theorem cpWindowsAgree_iff (t : NnParallelTopology) (f : SpKvForward)
    (activeRows nBatches first : Nat) (hn : 2 ≤ t.spSize) (hcp : f.cpSplit = true)
    (hB : 1 < f.batchSize) (hBn : f.batchSize ≤ nBatches) (hpos : f.ContiguousFrom first) :
    CpWindowsAgree t f activeRows nBatches ↔
      t.spSize ≤ f.batchSize ∧ (activeRows = 0 ∨ f.batchSize ≤ activeRows) := by
  constructor
  · intro h
    exact ⟨h.spSize_le hn hB hpos, h.not_pruned hn hB hpos⟩
  · rintro ⟨hle, ha⟩
    refine ⟨fun node _ p => cp_window_eq_block hn hpos hle ha node p,
      fun r r' p hr hr' => cp_disjoint hn hpos hle hr hr',
      fun b hb => cp_cover hn hpos hle hb, fun r hr => ?_,
      fun cap prev input => cp_exchanged hn hpos hle ha hcp hB cap prev input⟩
    have hlast := blockStart_add_blockCount_le (m := f.batchSize) hr
    have hcnt := blockCount_pos (m := f.batchSize) (r := r) (show 0 < t.spSize by omega) hle
    rw [blockRows_eq]
    simp only
    omega

/-- Four rows over three ranks fit together. -/
theorem cpWindowsAgree_iff_four_rows :
    CpWindowsAgree ⟨3, 1, 3, 1, by decide, by decide, by decide, rfl⟩ ⟨1, 6, 4, id, true⟩ 0 4 :=
  (cpWindowsAgree_iff ⟨3, 1, 3, 1, by decide, by decide, by decide, rfl⟩ ⟨1, 6, 4, id, true⟩ 0 4 0
    (by decide) rfl (by decide) (by decide) (fun b _ => (Nat.zero_add b).symm)).2
    ⟨by decide, .inl rfl⟩

/-- Two rows over three ranks do not: rank 0 writes both, its block has one. -/
theorem not_cpWindowsAgree_two_rows :
    ¬ CpWindowsAgree ⟨3, 1, 3, 1, by decide, by decide, by decide, rfl⟩
      ⟨1, 6, 2, id, true⟩ 0 4 := by
  intro h
  have hmem := (h.window_eq_block 0 (by decide) 1).1 ⟨1, by decide, rfl⟩
  exact absurd hmem (by decide)

end Network
end PrefillOpt
