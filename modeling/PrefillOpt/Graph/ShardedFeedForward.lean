import PrefillOpt.Graph.ShardedOps

/-!
# ShardedFeedForward — the feed-forward part of a layer on ranks

The first two products cut the hidden row into pieces, the activation works on the pieces, and the
last product leaves summands.  With experts every rank finds the same ones, since each of them
multiplies with the whole gate.
-/

namespace PrefillOpt

open Lib
open BlockContext (batchOp)

namespace TensorSplit

variable {F : Type} {n : Nat} [Field F] [LinearOrder F] [FloorSemiring F] {T : TensorSplit F n}
  {batchSize : Nat} {κ : ShardMap} {name : OpName} {index w : Nat}

/-! ## Activations -/

section Activations

variable {buffer : BufferIndex} (hcache : (NnPointerSource.buffer buffer).isCache = false)
include hcache

theorem keeps_silu (hin : κ (.buffer buffer) = some (.cut w)) :
    T.Keeps batchSize κ (Function.update κ (.buffer buffer) (some (.cut w)))
      (fun _ => [batchOp .silu name index (.buffer buffer) (.buffer buffer) size0 .silu])
      [batchOp .silu name index (.buffer buffer) (.buffer buffer) size0 .silu] := by
  refine keeps_batchOp hcache (by simp) (fun _ => ⟨rfl, rfl⟩) ⟨rfl, rfl⟩
    fun s u hs b hb z r x hx => ?_
  have hrow : s r (.buffer buffer, b) z x = u (.buffer buffer, b) z (r.val * w + x) :=
    hs.row hin hb z r x hx
  simp only [RowNode.rowOf, RowNode.load_batch]
  rw [hrow]
  rfl

theorem keeps_mul {multiplier : BufferIndex} (hin : κ (.buffer buffer) = some (.cut w))
    (hmul : κ (.buffer multiplier) = some (.cut w)) :
    T.Keeps batchSize κ (Function.update κ (.buffer buffer) (some (.cut w)))
      (fun _ => [batchOp .mul name index (.buffer buffer) (.buffer buffer) size0
        (.mul multiplier)])
      [batchOp .mul name index (.buffer buffer) (.buffer buffer) size0 (.mul multiplier)] := by
  refine keeps_batchOp hcache (by simp) (fun _ => ⟨rfl, rfl⟩) ⟨rfl, rfl⟩
    fun s u hs b hb z r x hx => ?_
  simp only [RowNode.rowOf, RowNode.load_batch]
  exact congrArg₂ (· * ·) (hs.row hin hb z r x hx) (hs.row hmul hb z r x hx)

end Activations

/-! ## Experts -/

section Experts

/-- The gate writes two rows: what it weighs the experts with and which ones they are. -/
theorem execute_moeGate (D : RowNode F) {k normTopk : Nat} {indexes : BufferIndex}
    {input output : NnPointerConfig} {weightSize : NnSize3D} (s : NnMemory (BatchRow F)) :
    D.execute batchSize ⟨.moeGate, name, index, input, output, weightSize,
        .moeGate k normTopk indexes⟩ s
      = D.writeRows batchSize (pointerBatchConfig (.buffer indexes))
          (fun b _ i => ((RowNode.gateTop k (D.width input.source) (D.load input s b 0)).getD i 0
            : F))
          (D.writeRows batchSize output (D.rowOf ⟨.moeGate, name, index, input, output, weightSize,
            .moeGate k normTopk indexes⟩ s) s) := rfl

/-- A row that all ranks have becomes one they all have. -/
theorem keeps_softmax (hin : κ (.buffer .gt) = some .equal) :
    T.Keeps batchSize κ (Function.update κ (.buffer .gt) (some .equal))
      (fun _ => [batchOp .softmax name index (.buffer .gt) (.buffer .gt) size0 .softmax])
      [batchOp .softmax name index (.buffer .gt) (.buffer .gt) size0 .softmax] := by
  refine keeps_batchOp rfl (by simp) (fun _ => ⟨rfl, rfl⟩) ⟨rfl, rfl⟩ fun s u hs b hb z r => ?_
  have hrow : s r (.buffer .gt, b) z = u (.buffer .gt, b) z := hs.row hin hb z r
  simp only [RowNode.rowOf, RowNode.load_batch]
  rw [hrow]
  rfl

/-- All ranks choose the experts, and weigh them, as the single node does. -/
theorem keeps_moeGate {k normTopk : Nat} (hin : κ (.buffer .gt) = some .equal) :
    T.Keeps batchSize κ
      (Function.update (Function.update κ (.buffer .moeS) (some .equal)) (.buffer .actExpIx)
        (some .equal))
      (fun _ => [batchOp .moeGate name index (.buffer .gt) (.buffer .moeS) size0
        (.moeGate k normTopk .actExpIx)])
      [batchOp .moeGate name index (.buffer .gt) (.buffer .moeS) size0
        (.moeGate k normTopk .actExpIx)] := by
  intro s u hs
  have hgate {b : Nat} (hb : b < batchSize) (r : Fin n) :
      s r (.buffer .gt, b) 0 = u (.buffer .gt, b) 0 := hs.row hin hb 0 r
  simp only [RowNode.run, batchOp, List.filterMap_cons, List.filterMap_nil, BuilderCall.op?,
    List.foldl_cons, List.foldl_nil, execute_moeGate]
  refine (hs.writeRows (p := pointerBatchConfig (.buffer .moeS)) (k := .equal) rfl (by simp)
    fun b hb z r => ?_).writeRows (p := pointerBatchConfig (.buffer .actExpIx)) (k := .equal) rfl
    (by simp) fun b hb z r => ?_
  · simp only [RowNode.store, RowNode.rowOf, RowNode.load_batch, source_batch]
    rw [hgate hb r]
    rfl
  · simp only [RowNode.store, RowNode.load_batch, source_batch]
    rw [hgate hb r]
    rfl

/-- Summands stay summands when all ranks scale them alike. -/
theorem keeps_scale (hin : κ (.buffer .moeY) = some (.parts w))
    (hscale : κ (.buffer .moeS) = some .equal) :
    T.Keeps batchSize κ (Function.update κ (.buffer .moeY) (some (.parts w)))
      (fun _ => [batchOp .scale name index (.buffer .moeY) (.buffer .moeY) size0 (.scale .moeS)])
      [batchOp .scale name index (.buffer .moeY) (.buffer .moeY) size0 (.scale .moeS)] := by
  refine keeps_batchOp rfl (by simp) (fun _ => ⟨rfl, rfl⟩) ⟨rfl, rfl⟩ fun s u hs b hb z => ?_
  simp only [RowNode.rowOf, RowNode.load_batch]
  exact parts_mul_right (fun r => congrFun (hs.row hscale hb z r) 0) (hs.row hin hb z)

/-- Nor does it matter in which order ranks and experts are summed up. -/
theorem keeps_mergeSum (hin : κ (.buffer .moeY) = some (.parts w)) :
    T.Keeps batchSize κ (Function.update κ (.buffer .y) (some (.parts w)))
      (fun _ => [batchOp .mergeSum name index (.buffer .moeY) (.buffer .y) size0 .mergeSum])
      [batchOp .mergeSum name index (.buffer .moeY) (.buffer .y) size0 .mergeSum] := by
  refine keeps_batchOp rfl (by simp) (fun _ => ⟨rfl, rfl⟩) ⟨rfl, rfl⟩ fun s u hs b hb _ => ?_
  simp only [RowNode.rowOf, RowNode.load_batch]
  exact parts_sum (Finset.range (T.whole.slots (.buffer .moeY))) fun z _ => hs.row hin hb z

end Experts

/-! ## The segment -/

section Segment

variable (T)

omit [Field F] [LinearOrder F] [FloorSemiring F] in
theorem w1_eq_w3 : T.slices.w3Slice.d0 = T.slices.w1Slice.d0 :=
  T.width_eq T.slicesOf.w3Slice.2 T.slicesOf.w1Slice.2

omit [Field F] [LinearOrder F] [FloorSemiring F] in
theorem w1_eq_w2 : T.slices.w1Slice.d0 = T.slices.w2Slice.n0 :=
  T.width_eq T.slicesOf.w1Slice.2 T.slicesOf.w2Slice.2

omit [Field F] [LinearOrder F] [FloorSemiring F] in
/-- The single node multiplies with all columns. -/
theorem whole_w2 : T.wholeSlices.w2Slice.n0 = n * T.slices.w2Slice.n0 := by
  rw [T.slicesOf.w2Slice.2, ← T.wholeSlicesOf.w2Slice.2, Nat.one_mul]

variable {T}

theorem keeps_denseCalls (layerIndex : Nat) :
    T.Keeps batchSize (Function.update T.row (.buffer .y) (some (.copies T.h.dim)))
      (Function.update T.row (.buffer .y) (some (.parts T.h.dim)))
      (fun r => (T.rankContext r).denseCalls layerIndex)
      (T.wholeContext.denseCalls layerIndex) := by
  have hw1 : T.slices.w1Slice.d0 = T.slices.w2Slice.n0 := T.w1_eq_w2
  have hw3 : T.slices.w3Slice.d0 = T.slices.w2Slice.n0 := T.w1_eq_w3.trans hw1
  have hblocks : WholeBlocks T (.buffer .d) (.buffer T.wholeContext.dqBufferIndex)
      T.slices.w2Slice.n0 := wholeBlocks_of_dvd fun hsync => hw1 ▸ (T.blocks hsync).2.2
  simp only [BlockContext.denseCalls, BlockContext.castYCalls, BlockContext.castDCalls,
    rankContext_yq, rankContext_dq, rankContext_h, rankContext_n, wholeContext_h, wholeContext_n,
    List.append_assoc, List.cons_append, List.nil_append]
  have hy : Function.update T.row (.buffer .y) (some (.copies T.h.dim)) (.buffer .y)
      = some (.copies T.h.dim) := Function.update_self ..
  refine Keeps.append (keeps_castUnless (fun h => Eq.symm (not_not.1 h)) hy
    (keeps_cast_copies (by simp) (by simp) hy wholeBlocks_dim)) ?_
  refine Keeps.cons (keeps_matmul_cut (fun s => s.w1Slice.d0) (m := T.h.dim)
    (fun _ _ _ _ _ _ _ => rfl) rfl (by simp) T.slicesOf.w1Slice.1 T.wholeSlicesOf.w1Slice.1
    fun h => absurd rfl h) ?_
  refine Keeps.cons (keeps_matmul_cut (fun s => s.w3Slice.d0) (m := T.h.dim)
    (fun _ _ _ _ _ _ _ => rfl) rfl (by simp) T.slicesOf.w3Slice.1 T.wholeSlicesOf.w3Slice.1
    fun h => absurd rfl h) ?_
  simp only [hw1, hw3]
  refine Keeps.cons (keeps_silu (w := T.slices.w2Slice.n0) rfl (by simp)) ?_
  refine Keeps.cons (keeps_mul (w := T.slices.w2Slice.n0) rfl (by simp) (by simp)) ?_
  refine Keeps.append (keeps_castUnless (k := .cut T.slices.w2Slice.n0) not_not.1 (by simp)
    (keeps_cast_cut (by simp) (by simp) (by simp) hblocks)) ?_
  refine Keeps.cons (keeps_matmul_parts (fun s => s.w2Slice.n0) (d := T.h.dim)
    (fun _ _ _ _ _ _ _ => rfl) rfl (by simp) rfl T.whole_w2 fun h => absurd rfl h) ?_
  refine Keeps.nil.mono (update_le (by simp) (row_le ?_ ?_ ?_ ?_))
  all_goals simp

omit [Field F] [LinearOrder F] [FloorSemiring F] in
/-- The rows of several experts lie in several slots. -/
theorem slots_ne_one {buffer : BufferIndex}
    (hbuffer : buffer = .moeY ∨ buffer = .qMoeY ∨ buffer = .moeD ∨ buffer = .qMoeD)
    (h : T.h.nActiveExperts ≠ 1) (h' : T.h.nActiveExperts ≠ 0) :
    (∀ r, (T.rank r).slots (.buffer buffer) ≠ 1) ∧ T.whole.slots (.buffer buffer) ≠ 1 := by
  have hslots : max T.h.nActiveExperts 1 ≠ 1 := by omega
  rcases hbuffer with rfl | rfl | rfl | rfl
  all_goals exact ⟨fun _ => hslots, hslots⟩

theorem keeps_moeCalls (harch : T.h.archType = .qwen3Moe) (layerIndex : Nat) :
    T.Keeps batchSize (Function.update T.row (.buffer .y) (some (.copies T.h.dim)))
      (Function.update T.row (.buffer .y) (some (.parts T.h.dim)))
      (fun r => (T.rankContext r).moeCalls layerIndex) (T.wholeContext.moeCalls layerIndex) := by
  have hw1 : T.slices.w1Slice.d0 = T.slices.w2Slice.n0 := T.w1_eq_w2
  have hw3 : T.slices.w3Slice.d0 = T.slices.w2Slice.n0 := T.w1_eq_w3.trans hw1
  have hblocks : WholeBlocks T (.buffer .moeD) (.buffer T.wholeContext.moeDQBufferIndex)
      T.slices.w2Slice.n0 := wholeBlocks_of_dvd fun hsync => hw1 ▸ (T.blocks hsync).2.2
  have hyq : T.wholeContext.moeYqBufferIndex = .moeY ∨ T.wholeContext.moeYqBufferIndex = .qMoeY :=
    ite_eq_or_eq _ _ _
  have hdq : T.wholeContext.moeDQBufferIndex = .moeD ∨ T.wholeContext.moeDQBufferIndex = .qMoeD :=
    ite_eq_or_eq _ _ _
  have hexperts := T.experts harch
  simp only [BlockContext.moeCalls, BlockContext.castDCalls, rankContext_moeYq, rankContext_moeDq,
    rankContext_h, rankContext_n, wholeContext_h, wholeContext_n, T.slicesOf.moeGateSize,
    T.wholeSlicesOf.moeGateSize, List.cons_append, List.nil_append]
  -- every rank gets the experts and their weights
  refine Keeps.cons (keeps_repeatZ (w := T.h.dim) (by simp) (by simp) (by simp) wholeBlocks_dim) ?_
  refine Keeps.cons (keeps_matmul_equal (fun _ _ _ => rfl) rfl (by simp [size2D, size3D])) ?_
  refine Keeps.cons (keeps_softmax (by simp)) (Keeps.cons (keeps_moeGate (by simp)) ?_)
  -- the slots hold the pieces of the chosen experts
  refine Keeps.cons (keeps_matmul_cut (fun s => s.w1Slice.d0) (m := T.h.dim)
    (fun _ _ _ _ _ _ _ => rfl) rfl (by simp) T.slicesOf.w1Slice.1 T.wholeSlicesOf.w1Slice.1
    fun h => ⟨by simp, T.slots_ne_one (by tauto) hexperts h⟩) ?_
  refine Keeps.cons (keeps_matmul_cut (fun s => s.w3Slice.d0) (m := T.h.dim)
    (fun _ _ _ _ _ _ _ => rfl) rfl (by simp) T.slicesOf.w3Slice.1 T.wholeSlicesOf.w3Slice.1
    fun h => ⟨by simp, T.slots_ne_one (by tauto) hexperts h⟩) ?_
  simp only [hw1, hw3]
  refine Keeps.cons (keeps_silu (w := T.slices.w2Slice.n0) rfl (by simp)) ?_
  refine Keeps.cons (keeps_mul (w := T.slices.w2Slice.n0) rfl (by simp) (by simp)) ?_
  refine Keeps.append (keeps_castUnless (k := .cut T.slices.w2Slice.n0) not_not.1 (by simp)
    (keeps_cast_cut (by simp) (by simp) (by simp) hblocks)) ?_
  -- and those of their results are summed up with the summands of the ranks
  refine Keeps.cons (keeps_matmul_parts (fun s => s.w2Slice.n0) (d := T.h.dim)
    (fun _ _ _ _ _ _ _ => rfl) rfl (by simp) rfl T.whole_w2
    fun h => ⟨by simp, T.slots_ne_one (by tauto) hexperts h⟩) ?_
  refine Keeps.cons (keeps_scale (w := T.h.dim) (by simp) (by simp)) ?_
  refine Keeps.cons (keeps_mergeSum (w := T.h.dim) (by simp)) ?_
  refine Keeps.nil.mono (update_le (by simp) (row_le ?_ ?_ ?_ ?_))
  all_goals simp

/-- From the row of a layer to the summands of its feed-forward part. -/
theorem keeps_ffBodyCalls (layerIndex : Nat) :
    T.Keeps batchSize T.row (Function.update T.row (.pipe .zq) (some (.parts T.h.dim)))
      (fun r => (T.rankContext r).ffBodyCalls layerIndex)
      (T.wholeContext.ffBodyCalls layerIndex) := by
  have hpart : T.Keeps batchSize (Function.update T.row (.buffer .y) (some (.copies T.h.dim)))
      (Function.update T.row (.buffer .y) (some (.parts T.h.dim)))
      (fun r => if T.h.archType = .qwen3Moe then (T.rankContext r).moeCalls layerIndex
        else (T.rankContext r).denseCalls layerIndex)
      (if T.h.archType = .qwen3Moe then T.wholeContext.moeCalls layerIndex
        else T.wholeContext.denseCalls layerIndex) := by
    split_ifs with harch
    · exact T.keeps_moeCalls harch layerIndex
    · exact T.keeps_denseCalls layerIndex
  simp only [BlockContext.ffBodyCalls, rankContext_h, rankContext_n, wholeContext_h,
    wholeContext_n, T.slicesOf.rmsNormSize, T.wholeSlicesOf.rmsNormSize, List.cons_append,
    List.nil_append]
  refine Keeps.cons (keeps_invRms_copies row_x (fun _ => rfl) rfl) ?_
  refine Keeps.cons (keeps_rmsNorm_copies (w := T.h.dim) (fun _ _ _ => rfl) rfl (by simp)
    (by simp) rfl) ?_
  -- the experts or the dense layers, then the row goes into the pipe of the sync
  refine Keeps.append (hpart.of_le (update_le (by simp)
    (row_le (by simp) (by simp) (by simp) (by simp)))) ?_
  refine Keeps.cons (keeps_copy rfl (by simp) (Function.update_self ..) rfl) ?_
  refine Keeps.cons (Keeps.sync (fun _ => rfl) rfl) (Keeps.nil.mono ?_)
  refine update_le (by simp) (row_le ?_ ?_ ?_ ?_)
  all_goals simp

end Segment

end TensorSplit
end PrefillOpt
