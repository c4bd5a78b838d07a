import Mathlib.Analysis.SpecialFunctions.Exp
import Mathlib.Analysis.SpecialFunctions.Sqrt
import PrefillOpt.ContextParallel
import PrefillOpt.Kernels.AttentionFused

/-!
# Kernels.AttentionAgree — the attention kernels against each other

Over the reals with the true exponential.  Without a block mask the three kernels compute the same
attention.  With one, the batch kernel normalises its score slots over all positions up to the
query's, those included that it did not write in this call.
-/

namespace PrefillOpt
namespace Kernels

open Lib (Mem)

/-- Exact arithmetic. -/
noncomputable def Libm.real : Libm ℝ := ⟨Real.exp, Real.sqrt⟩

theorem isExp_real : Lib.IsExp Libm.real.expf := ⟨Real.exp_pos, Real.exp_add⟩

/-! ## Rows -/

section Rows

variable {R : Type} {c : NnMultiHeadAttOpConfig} {w : CpuRowState} {nBatches batchSize : Nat}

theorem windowRows_eq_range (hcp : w.cpSize ≤ 1) (hactive : w.activeRows = 0) :
    windowRows w batchSize = List.range batchSize := by
  have hwindow : cpRowWindow w batchSize = (0, batchSize) := by
    rw [Network.cpRowWindow_eq, if_pos (.inl hcp), activeRowCount_eq_batchSize (.inl hactive)]
  rw [windowRows, hwindow, List.range_eq_range']

theorem activeRowCount_le : activeRowCount w batchSize ≤ batchSize := by
  unfold activeRowCount
  split_ifs <;> omega

theorem rowsInRange_window (inp : AttInput R) (hrank : w.cpRank < w.cpSize)
    (hbatch : batchSize ≤ nBatches)
    (hpos : ∀ b ∈ windowRows w batchSize, inp.positions b < c.seqLen) :
    RowsInRange c inp nBatches (windowRows w batchSize) where
  nodup := List.nodup_range'
  row b hb := by
    have hlt := Network.lt_activeRowCount_of_lt_window hrank (mem_windowRows.1 hb).2
    exact ⟨(hlt.trans_le activeRowCount_le).trans_le hbatch, hpos b hb⟩

end Rows

/-! ## What the batch kernel normalises -/

section Visible

variable {R : Type} [Field R] {m : Libm R} {mask : BlockMask} {c : NnMultiHeadAttOpConfig}
  {inp : AttInput R} {att : Mem R} {b h0 i : Nat}

theorem visible_eq_range {pos : Nat} (h : ∀ t ≤ pos, blockMaskAllows mask pos t = true) :
    visible mask pos (pos + 1) = Finset.range (pos + 1) := by
  refine Finset.filter_true_of_mem fun t ht => ?_
  have hle := Nat.lt_succ_iff.1 (Finset.mem_range.1 ht)
  exact attends_iff.2 ⟨hle, h t hle⟩

/-- With every position visible the batch kernel computes attention. -/
theorem batchOut_eq_attentionOut
    (h : ∀ t ≤ inp.positions b, blockMaskAllows mask (inp.positions b) t = true) :
    batchOut m mask c inp att b h0 i
      = attentionOut m c inp (visible mask (inp.positions b) (inp.positions b + 1)) b h0 i := by
  rw [visible_eq_range h, batchOut, visible_eq_range h, attentionOut, Lib.softmaxAverage]
  apply congrArg
  refine Finset.sum_congr rfl fun t ht => ?_
  have hlt := Finset.mem_range.1 ht
  have hle := Nat.lt_succ_iff.1 hlt
  rw [slotEntry, if_pos ⟨hlt, attends_iff.2 ⟨hle, h t hle⟩⟩]

/-- A query sees all positions before it just when its block begins inside the anchor. -/
theorem allows_all_iff {pos : Nat} (hblock : 0 < mask.blockSize) :
    (∀ t ≤ pos, blockMaskAllows mask pos t = true) ↔
      pos / mask.blockSize * mask.blockSize ≤ mask.anchorLen := by
  have hallows : ∀ t, blockMaskAllows mask pos t = true ↔
      t < mask.anchorLen ∨ t / mask.blockSize = pos / mask.blockSize := by
    intro t
    rw [blockMaskAllows, if_neg hblock.ne']
    split_ifs with hanchor
    · simp [hanchor]
    · simp [hanchor]
  simp only [hallows]
  constructor
  · intro h
    by_contra hlt
    -- the position just before the block
    rcases h (pos / mask.blockSize * mask.blockSize - 1)
      ((Nat.sub_le ..).trans (Nat.div_mul_le_self ..)) with hanchor | hsame
    · omega
    · have hge := Nat.div_mul_le_self (pos / mask.blockSize * mask.blockSize - 1) mask.blockSize
      rw [hsame] at hge
      omega
  · intro h t ht
    rcases Nat.lt_or_ge t (pos / mask.blockSize * mask.blockSize) with hlt | hge
    · exact .inl (hlt.trans_le h)
    · refine .inr (Nat.le_antisymm (Nat.div_le_div_right ht) ?_)
      exact (Nat.le_div_iff_mul_le hblock).2 hge

variable [LinearOrder R] [IsStrictOrderedRing R]

/-- With values that are all 1, a masked position takes weight away from the visible ones. -/
theorem batchOut_one_lt (he : Lib.IsExp m.expf) {query keyCache : Mem R} {positions : Nat → Nat}
    {t : Nat} (ht : t ≤ positions b) (hmasked : ¬blockMaskAllows mask (positions b) t = true) :
    batchOut m mask c ⟨query, keyCache, fun _ => 1, positions⟩ att b h0 i < 1 := by
  generalize hinp : (⟨query, keyCache, fun _ => 1, positions⟩ : AttInput R) = inp
  have hpos : inp.positions = positions := by rw [← hinp]
  have hvalue : ∀ t, headValue c inp h0 i t = 1 := by
    intro t
    rw [← hinp]
    rfl
  rw [← hpos] at ht hmasked
  simp only [batchOut, hvalue, mul_one]
  have htotal : 0 < ∑ j ∈ Finset.range (inp.positions b + 1),
      m.expf (slotEntry m mask c inp att b h0 (inp.positions b + 1) j) :=
    he.sum_pos ⟨t, Finset.mem_range.2 (Nat.lt_succ_of_le ht)⟩
  rw [div_lt_one htotal]
  have hentries : ∑ j ∈ visible mask (inp.positions b) (inp.positions b + 1),
        m.expf (headScore m c inp b h0 j)
      = ∑ j ∈ visible mask (inp.positions b) (inp.positions b + 1),
        m.expf (slotEntry m mask c inp att b h0 (inp.positions b + 1) j) := by
    refine Finset.sum_congr rfl fun j hj => ?_
    have hvisible := Finset.mem_filter.1 hj
    rw [slotEntry, if_pos ⟨Finset.mem_range.1 hvisible.1, hvisible.2⟩]
  rw [hentries]
  refine Finset.sum_lt_sum_of_subset (i := t) (Finset.filter_subset ..)
    (Finset.mem_range.2 (Nat.lt_succ_of_le ht)) (fun hvisible => ?_) (he.pos _)
    fun j _ _ => (he.pos _).le
  exact hmasked (attends_iff.1 (Finset.mem_filter.1 hvisible).2).2

end Visible

/-! ## The three kernels -/

section Kernels

variable {c : NnMultiHeadAttOpConfig} {nBatches batchSize nThreads : Nat}

/-- Attention of row `b` over the positions up to its own. -/
noncomputable def causalAttention (c : NnMultiHeadAttOpConfig) (inp : AttInput ℝ) (b : Nat) :
    Nat → Nat → ℝ :=
  attentionOut Libm.real c inp (Finset.range (inp.positions b + 1)) b

/-- Attention of row `b` over the positions up to its own that the mask admits. -/
noncomputable def maskedAttention (mask : BlockMask) (c : NnMultiHeadAttOpConfig)
    (inp : AttInput ℝ) (b : Nat) : Nat → Nat → ℝ :=
  attentionOut Libm.real c inp (visible mask (inp.positions b) (inp.positions b + 1)) b

/-- The kernels give causal attention in every row, from whatever the buffers hold before. -/
theorem attention_kernels_agree (neon : Bool) {w : CpuRowState} (hcp : w.cpSize ≤ 1)
    (hactive : w.activeRows = 0) {mask : BlockMask} (hmask : mask.blockSize = 0)
    (ha : c.Allocated nBatches) (hbatch : batchSize ≤ nBatches) (inp : AttInput ℝ)
    (hpos : ∀ b < batchSize, inp.positions b < c.seqLen) (hn : 0 < nThreads) :
    (∀ s, Delivers c (List.range batchSize) nThreads
      (fun t => multiheadAttRows Libm.real c inp batchSize nThreads t) AttState.outputs
      (causalAttention c inp) s) ∧
    (∀ s, Delivers c (List.range batchSize) nThreads
      (fun t => multiheadAttBatch_F32 Libm.real mask c inp w batchSize nThreads t) AttState.outputs
      (causalAttention c inp) s) ∧
    ∀ (scratch : Nat → Mem ℝ) outputs, Delivers c (List.range batchSize) nThreads
      (fun t o => (multiheadAttFused_F32 neon Libm.real mask c inp w batchSize nThreads t
        (scratch t, o)).2) (fun o => o) (causalAttention c inp) outputs := by
  have hrows : windowRows w batchSize = List.range batchSize := windowRows_eq_range hcp hactive
  have hin : RowsInRange c inp nBatches (windowRows w batchSize) := by
    rw [hrows]
    refine ⟨List.nodup_range, fun b hb => ?_⟩
    have hlt := List.mem_range.1 hb
    exact ⟨hlt.trans_le hbatch, hpos b hlt⟩
  have hall : ∀ pos, ∀ t ≤ pos, blockMaskAllows mask pos t = true := fun pos t _ => if_pos hmask
  have hcausal : maskedAttention mask c inp = causalAttention c inp := by
    funext b
    rw [maskedAttention, visible_eq_range (hall _)]
    rfl
  refine ⟨fun s => ?_, fun s => ?_, fun scratch outputs => ?_⟩
  · exact (multiheadAttRows_threadSpec isExp_real ha hbatch hpos hn).delivers
      fun _ _ _ _ => trivial
  · have hspec := (multiheadAttBatch_threadSpec mask s.att isExp_real ha hin hn).delivers
      (s := s) fun _ _ _ _ _ _ => rfl
    have hout : batchOut Libm.real mask c inp s.att = causalAttention c inp := by
      rw [← hcausal]
      funext b h0 i
      exact batchOut_eq_attentionOut (hall _)
    rw [hout, hrows] at hspec
    exact hspec
  · have hspec := (multiheadAttFused_threadSpec neon mask isExp_real ha hin hn
      scratch).delivers (s := outputs) fun _ _ _ _ => trivial
    rw [hrows, ← hcausal] at *
    exact hspec

/-- Both batch kernels give masked attention in every row of the window. -/
def MaskedKernelsAgree (neon : Bool) (w : CpuRowState) (mask : BlockMask)
    (c : NnMultiHeadAttOpConfig) (inp : AttInput ℝ) (batchSize nThreads : Nat) (s : AttState ℝ)
    (scratch : Nat → Mem ℝ) (outputs : Outputs ℝ) : Prop :=
  Delivers c (windowRows w batchSize) nThreads
      (fun t => multiheadAttBatch_F32 Libm.real mask c inp w batchSize nThreads t) AttState.outputs
      (maskedAttention mask c inp) s ∧
    Delivers c (windowRows w batchSize) nThreads
      (fun t o => (multiheadAttFused_F32 neon Libm.real mask c inp w batchSize nThreads t
        (scratch t, o)).2) (fun o => o) (maskedAttention mask c inp) outputs

/-- The fused kernel always does.  The batch kernel does, for all values, just when no computed
row has a masked position before it. -/
theorem masked_kernels_agree_iff (neon : Bool) {w : CpuRowState} (hrank : w.cpRank < w.cpSize)
    {mask : BlockMask} (hblock : 0 < mask.blockSize) (ha : c.Allocated nBatches)
    (hbatch : batchSize ≤ nBatches) (query keyCache : Mem ℝ) {positions : Nat → Nat}
    (hpos : ∀ b ∈ windowRows w batchSize, positions b < c.seqLen) (hn : 0 < nThreads)
    (s : AttState ℝ) (scratch : Nat → Mem ℝ) (outputs : Outputs ℝ) :
    (∀ valueCache, MaskedKernelsAgree neon w mask c ⟨query, keyCache, valueCache, positions⟩
        batchSize nThreads s scratch outputs) ↔
      c.nHeads0 = 0 ∨ c.headDim = 0 ∨ ∀ b ∈ windowRows w batchSize,
        positions b / mask.blockSize * mask.blockSize ≤ mask.anchorLen := by
  have hbatchOut := fun valueCache => (multiheadAttBatch_threadSpec mask s.att isExp_real ha
    (rowsInRange_window ⟨query, keyCache, valueCache, positions⟩ hrank hbatch hpos)
    hn).delivers (s := s) fun _ _ _ _ _ _ => rfl
  have hfused := fun valueCache => (multiheadAttFused_threadSpec neon mask isExp_real ha
    (rowsInRange_window ⟨query, keyCache, valueCache, positions⟩ hrank hbatch hpos) hn
    scratch).delivers (s := outputs) fun _ _ _ _ => trivial
  constructor
  · intro hagree
    by_contra hno
    simp only [not_or, not_forall] at hno
    rcases hno with ⟨hheads, hdim, b, hb, hlate⟩
    rw [← allows_all_iff hblock] at hlate
    simp only [not_forall] at hlate
    rcases hlate with ⟨t, ht, hmasked⟩
    have hspec := (hagree fun _ => 1).1.value _ (List.Perm.refl _) b hb 0
      (Nat.pos_of_ne_zero hheads) 0 (Nat.pos_of_ne_zero hdim)
    rw [(hbatchOut fun _ => 1).value _ (List.Perm.refl _) b hb 0 (Nat.pos_of_ne_zero hheads) 0
      (Nat.pos_of_ne_zero hdim)] at hspec
    have hone : maskedAttention mask c ⟨query, keyCache, fun _ => 1, positions⟩ b 0 0 = 1 :=
      isExp_real.softmaxAverage_one ⟨_, mem_visible_self (Nat.lt_succ_self _)⟩
    rw [hone] at hspec
    exact (batchOut_one_lt isExp_real ht hmasked).ne hspec
  · intro hcond valueCache
    refine ⟨⟨?_, (hbatchOut valueCache).writer, (hbatchOut valueCache).others⟩, hfused valueCache⟩
    intro order horder b hb h0 hh i hi
    rw [(hbatchOut valueCache).value order horder b hb h0 hh i hi]
    rcases hcond with hheads | hdim | hblocks
    · omega
    · omega
    · exact batchOut_eq_attentionOut ((allows_all_iff hblock).2 (hblocks b hb))

end Kernels

/-! ## One head of width 8 -/

def oneHead : NnMultiHeadAttOpConfig where
  nHeads := 1
  nHeads0 := 1
  nKvHeads := 1
  headDim := 8
  seqLen := 4
  qSliceD0 := 8
  kvDim0 := 8

theorem oneHead_allocated : oneHead.Allocated 2 := ⟨by decide, by decide, by decide, by decide⟩

/-- Rows at the positions 0 and 1, all scores zero, all values 1. -/
def oneHeadInput : AttInput ℝ := ⟨fun _ => 0, fun _ => 0, fun _ => 1, fun b => b⟩

theorem oneHeadInput_positions : ∀ b < 2, oneHeadInput.positions b < oneHead.seqLen := by
  intro b hb
  exact hb.trans (by decide)

/-- No cut and no pruning. -/
def wholeBatch : CpuRowState := ⟨0, 1, 0⟩

theorem attention_kernels_agree_one_head :
    (∀ s, Delivers oneHead (List.range 2) 3
      (fun t => multiheadAttRows Libm.real oneHead oneHeadInput 2 3 t) AttState.outputs
      (causalAttention oneHead oneHeadInput) s) ∧
    (∀ s, Delivers oneHead (List.range 2) 3
      (fun t => multiheadAttBatch_F32 Libm.real ⟨0, 0⟩ oneHead oneHeadInput wholeBatch 2 3 t)
      AttState.outputs (causalAttention oneHead oneHeadInput) s) ∧
    ∀ (scratch : Nat → Mem ℝ) outputs, Delivers oneHead (List.range 2) 3
      (fun t o => (multiheadAttFused_F32 true Libm.real ⟨0, 0⟩ oneHead oneHeadInput wholeBatch 2 3 t
        (scratch t, o)).2) (fun o => o) (causalAttention oneHead oneHeadInput) outputs :=
  attention_kernels_agree true (w := wholeBatch) (by decide) rfl
    (show (⟨0, 0⟩ : BlockMask).blockSize = 0 from rfl)
    oneHead_allocated (Nat.le_refl 2) oneHeadInput oneHeadInput_positions (by decide)

/-- Blocks of one position: the second row must not see the first position. -/
def ownBlocks : BlockMask := ⟨1, 0⟩

noncomputable def zeroState : AttState ℝ := ⟨fun _ => 0, fun _ _ => ⟨0, false⟩⟩

theorem masked_kernels_agree_iff_one_head :
    (∀ valueCache, MaskedKernelsAgree false wholeBatch ownBlocks oneHead
        ⟨fun _ => 0, fun _ => 0, valueCache, fun b => b⟩ 2 1 zeroState (fun _ _ => 0)
        zeroState.outputs) ↔
      oneHead.nHeads0 = 0 ∨ oneHead.headDim = 0 ∨ ∀ b ∈ windowRows wholeBatch 2,
        b / ownBlocks.blockSize * ownBlocks.blockSize ≤ ownBlocks.anchorLen :=
  masked_kernels_agree_iff false (w := wholeBatch) (by decide)
    (show 0 < ownBlocks.blockSize by decide)
    oneHead_allocated (Nat.le_refl 2) (fun _ => 0) (fun _ => 0)
    (fun b hb => oneHeadInput_positions b (List.mem_range.1 hb)) (by decide) zeroState
    (fun _ _ => 0) zeroState.outputs

theorem headScore_oneHead (b h0 t : Nat) : headScore Libm.real oneHead oneHeadInput b h0 t = 0 := by
  simp [headScore, oneHeadInput]

/-- In the buffer of zeros the first position, which the second row does not see, gets half of the
weight. -/
theorem batchOut_oneHead :
    batchOut Libm.real ownBlocks oneHead oneHeadInput (fun _ => 0) 1 0 0 = 1 / 2 := by
  have hvisible : visible ownBlocks 1 2 = {1} := by decide
  have hentry : ∀ t,
      slotEntry Libm.real ownBlocks oneHead oneHeadInput (fun _ => 0) 1 0 2 t = 0 := by
    intro t
    rw [slotEntry, headScore_oneHead, ite_self]
  change (∑ t ∈ visible ownBlocks 1 2,
      Real.exp (headScore Libm.real oneHead oneHeadInput 1 0 t) * 1)
    / ∑ t ∈ Finset.range 2, Real.exp
      (slotEntry Libm.real ownBlocks oneHead oneHeadInput (fun _ => 0) 1 0 2 t) = 1 / 2
  rw [hvisible, Finset.sum_singleton]
  simp only [hentry, headScore_oneHead, Finset.sum_const, Finset.card_range, Real.exp_zero,
    mul_one, nsmul_eq_mul, Nat.cast_ofNat]

/-- The batch kernel gives 1/2 where the fused kernel gives 1. -/
theorem masked_kernels_apart :
    ((multiheadAttBatch_F32 Libm.real ownBlocks oneHead oneHeadInput wholeBatch 2 1 0
        zeroState).outputs 1 0).val = 1 / 2 ∧
      ((multiheadAttFused_F32 false Libm.real ownBlocks oneHead oneHeadInput wholeBatch 2 1 0
        (fun _ => 0, zeroState.outputs)).2 1 0).val = 1 := by
  have hrows : RowsInRange oneHead oneHeadInput 2 (windowRows wholeBatch 2) :=
    rowsInRange_window oneHeadInput (by decide) (Nat.le_refl 2)
      fun b hb => oneHeadInput_positions b (List.mem_range.1 hb)
  have hbatch := (multiheadAttBatch_threadSpec ownBlocks zeroState.att isExp_real
    oneHead_allocated hrows Nat.one_pos).delivers (s := zeroState) fun _ _ _ _ _ _ => rfl
  have hfused := (multiheadAttFused_threadSpec false ownBlocks isExp_real
    oneHead_allocated hrows Nat.one_pos fun _ _ => 0).delivers (s := zeroState.outputs)
      fun _ _ _ _ => trivial
  have hmem : 1 ∈ windowRows wholeBatch 2 := by decide
  refine ⟨?_, ?_⟩
  · rw [← batchOut_oneHead]
    exact hbatch.value [0] (List.Perm.refl _) 1 hmem 0 Nat.one_pos 0 (by decide)
  · have hone : maskedAttention ownBlocks oneHead oneHeadInput 1 0 0 = 1 :=
      isExp_real.softmaxAverage_one ⟨_, mem_visible_self (Nat.lt_succ_self _)⟩
    rw [← hone]
    exact hfused.value [0] (List.Perm.refl _) 1 hmem 0 Nat.one_pos 0 (by decide)

end Kernels
end PrefillOpt
