import PrefillOpt.Graph.OpFlow
import PrefillOpt.ModelFile.RoundTrip

/-!
# ModelFile.WeightOps — the ops of a node that have a weight

Which weights the graph of a node asks for, under which name and index, and of which size.  The
executor looks an op up by its name and its index, so no two ops of a node may share both.
-/

namespace PrefillOpt

open NnSegmentConfigBuilder

/-- The ops without a weight are built with `size0`. -/
def NnOpConfig.hasWeight (op : NnOpConfig) : Bool :=
  op.weightSize.floatType != .unk

/-- What the executor looks an op up by. -/
def NnOpConfig.key (op : NnOpConfig) : OpName × Nat :=
  (op.name, op.index)

/-- The ops of a node, segment by segment. -/
def LlmNet.nodeOps (net : LlmNet) (nodeIndex : Nat) : List NnOpConfig :=
  match net.nodeConfigs[nodeIndex]? with
  | some nodeConfig => nodeConfig.segments.flatMap NnSegmentConfig.ops
  | none => []

/-- The op that `NnExecutor::loadWeight` finds. -/
def locateOp (ops : List NnOpConfig) (name : OpName) (opIndex : Nat) : Option Nat :=
  ops.findIdx? fun opConfig => opConfig.index == opIndex && opConfig.name == name

theorem locateOp_eq_some_iff {ops : List NnOpConfig} (hkeys : (ops.map NnOpConfig.key).Nodup)
    {i : Nat} {op : NnOpConfig} (hop : ops[i]? = some op) {name : OpName} {opIndex : Nat} :
    locateOp ops name opIndex = some i ↔ op.key = (name, opIndex) := by
  rcases List.getElem?_eq_some_iff.1 hop with ⟨hi, hget⟩
  rw [locateOp, List.findIdx?_eq_some_iff_getElem]
  constructor
  · rintro ⟨_, hkey, -⟩
    rw [hget, Bool.and_eq_true, beq_iff_eq, beq_iff_eq] at hkey
    rw [NnOpConfig.key, hkey.1, hkey.2]
  · intro hkey
    rw [NnOpConfig.key, Prod.mk.injEq] at hkey
    refine ⟨hi, by rw [hget, hkey.1, hkey.2, beq_self_eq_true, beq_self_eq_true, Bool.and_self],
      fun j hj hsame => ?_⟩
    -- an earlier op with this key would be the op itself
    rw [Bool.and_eq_true, beq_iff_eq, beq_iff_eq] at hsame
    have hj' : j < ops.length := hj.trans hi
    have hlen : (ops.map NnOpConfig.key).length = ops.length := List.length_map _
    have heq : (ops.map NnOpConfig.key).get ⟨j, hlen.symm ▸ hj'⟩
        = (ops.map NnOpConfig.key).get ⟨i, hlen.symm ▸ hi⟩ := by
      rw [List.get_eq_getElem, List.get_eq_getElem, List.getElem_map, List.getElem_map, hget,
        NnOpConfig.key, NnOpConfig.key, hsame.1, hsame.2, hkey.1, hkey.2]
    exact absurd (congrArg Fin.val (List.nodup_iff_injective_get.1 hkeys heq)) hj.ne

namespace BlockContext

variable {subStart subEnd : Nat}

/-! ## The sub-blocks of a graph -/

/-- The sub-blocks that the walk over the layers of a stage builds. -/
def subBlocks (subStart subEnd : Nat) : List Nat :=
  (layerRange subStart subEnd).flatMap fun layerIndex =>
    [layerIndex * 2, layerIndex * 2 + 1].filter fun s => decide (subStart ≤ s ∧ s < subEnd)

theorem mem_subBlocks {s : Nat} :
    s ∈ subBlocks subStart subEnd ↔
      s / 2 ∈ layerRange subStart subEnd ∧ subStart ≤ s ∧ s < subEnd := by
  simp only [subBlocks, List.mem_flatMap, List.mem_filter, List.mem_cons, List.not_mem_nil,
    or_false, decide_eq_true_eq]
  constructor
  · rintro ⟨layerIndex, hlayer, hs, hrange⟩
    have hhalf : s / 2 = layerIndex := by omega
    exact ⟨hhalf ▸ hlayer, hrange⟩
  · rintro ⟨hlayer, hrange⟩
    exact ⟨s / 2, hlayer, by omega, hrange⟩

theorem subBlocks_nodup : (subBlocks subStart subEnd).Nodup := by
  rw [subBlocks, ← List.filter_flatMap, layerRange, flatMap_halves]
  exact (List.nodup_range' (s := _)).filter _

/-- The walk counts in `NnUint`. -/
theorem lt_of_mem_subBlocks {s : Nat} (h : s ∈ subBlocks subStart subEnd) : s < 2 ^ 32 := by
  rcases mem_subBlocks.1 h with ⟨hlayer, -, -⟩
  rw [layerRange, List.mem_range'_1] at hlayer
  have hword : u32 (subEnd + 1) < 2 ^ 32 := u32_lt _
  omega

end BlockContext

/-! ## The weights of a graph -/

namespace LlmHeader

variable (h : LlmHeader)

/-- The weights of an attention sub-block. -/
def attWeights : List OpName :=
  [.blockNorm0, .blockMatmulQ, .blockMatmulK, .blockMatmulV]
  ++ (if h.hasQkNorm then [.blockNormQ, .blockNormK] else []) ++ [.blockMatmulWo]

/-- The weights of a feed-forward sub-block. -/
def ffWeights : List OpName :=
  .blockNorm1 :: (if h.archType = .qwen3Moe then [.blockMoeGate] else [])
  ++ [.blockMatmulW1, .blockMatmulW3, .blockMatmulW2]

def subBlockWeights (s : Nat) : List (OpName × Nat) :=
  (if s % 2 = 0 then h.attWeights else h.ffWeights).map fun name => (name, s / 2)

/-- The experts of the Qwen 3 MoE architecture are the planes of one weight. -/
def ffSize (y x : Nat) : NnSize3D :=
  if h.archType = .qwen3Moe then size3D h.weightType h.nExperts y x else size2D h.weightType y x

/-- The sizes that the graph builder gives the weights. -/
def weightSize (n : LlmSlices) : OpName → NnSize3D
  | .embedding => n.tokenEmbeddingSize
  | .blockNorm0 => n.rmsNormSize
  | .blockMatmulQ => size2D h.weightType n.qSlice.n n.qSlice.d0
  | .blockMatmulK => size2D h.weightType n.kSlice.n n.kSlice.d0
  | .blockMatmulV => size2D h.weightType n.vSlice.n n.vSlice.d0
  | .blockNormQ => size2D .f32 1 h.headDim
  | .blockNormK => size2D .f32 1 h.headDim
  | .blockMatmulWo => size2D h.weightType n.woSlice.n0 n.woSlice.d
  | .blockNorm1 => n.rmsNormSize
  | .blockMoeGate => n.moeGateSize
  | .blockMatmulW1 => h.ffSize n.w1Slice.n n.w1Slice.d0
  | .blockMatmulW3 => h.ffSize n.w3Slice.n n.w3Slice.d0
  | .blockMatmulW2 => h.ffSize n.w2Slice.n0 n.w2Slice.d
  | .finalNorm => n.rmsNormSize
  | .finalMatmulLogits => size2D h.weightType n.wclsSlice.n0 n.wclsSlice.d
  | _ => size0

end LlmHeader

/-- The key and the size of an op with a weight. -/
def NnOpConfig.weight? (op : NnOpConfig) : Option ((OpName × Nat) × NnSize3D) :=
  if op.hasWeight then some (op.key, op.weightSize) else none

def weightsOf (ops : List NnOpConfig) : List ((OpName × Nat) × NnSize3D) :=
  ops.filterMap NnOpConfig.weight?

theorem mem_weightsOf {ops : List NnOpConfig} {key : OpName × Nat} {size : NnSize3D} :
    (key, size) ∈ weightsOf ops ↔
      ∃ op ∈ ops, op.hasWeight = true ∧ op.key = key ∧ op.weightSize = size := by
  simp only [weightsOf, List.mem_filterMap, NnOpConfig.weight?]
  refine exists_congr fun op => and_congr_right fun _ => ?_
  split_ifs with hweight
  · simp [hweight]
  · simp [hweight]

theorem weightsOf_append (ops ops' : List NnOpConfig) :
    weightsOf (ops ++ ops') = weightsOf ops ++ weightsOf ops' :=
  List.filterMap_append

namespace BlockContext

variable {c : BlockContext} {layerIndex subStart : Nat}

variable (c) in
/-- The keys of weights with the sizes the builder gives them. -/
def sized (keys : List (OpName × Nat)) : List ((OpName × Nat) × NnSize3D) :=
  keys.map fun key => (key, c.h.weightSize c.n key.1)

/-- The sizes of a context are those of its header. -/
def Sized (c : BlockContext) : Prop :=
  ModelFile.SliceSizes c.h c.n ∧ c.h.weightType ≠ .unk

/-- The weights of the ops that a sequence of calls adds. -/
def callWeights (calls : List BuilderCall) : List ((OpName × Nat) × NnSize3D) :=
  weightsOf (opsOf calls)

theorem callWeights_append (calls calls' : List BuilderCall) :
    callWeights (calls ++ calls') = callWeights calls ++ callWeights calls' := by
  rw [callWeights, opsOf_append, weightsOf_append]
  rfl

/-- An op with a weight. -/
theorem callWeights_weighted {code : NnOpCode} {name : OpName} {index : Nat}
    {input output : NnPointerConfig} {size : NnSize3D} {config : NnOpParams}
    (h : size.floatType ≠ .unk) (calls : List BuilderCall) :
    callWeights (.addOp ⟨code, name, index, input, output, size, config⟩ :: calls)
      = ((name, index), size) :: callWeights calls := by
  have hop : NnOpConfig.weight? ⟨code, name, index, input, output, size, config⟩
      = some ((name, index), size) := if_pos (by simpa [NnOpConfig.hasWeight] using h)
  exact List.filterMap_cons_some hop

/-- Any other. -/
theorem callWeights_size0 {code : NnOpCode} {name : OpName} {index : Nat}
    {input output : NnPointerConfig} {config : NnOpParams} (calls : List BuilderCall) :
    callWeights (.addOp ⟨code, name, index, input, output, size0, config⟩ :: calls)
      = callWeights calls :=
  rfl

theorem callWeights_castYCalls (name : OpName) :
    callWeights (c.castYCalls name layerIndex) = [] := by
  unfold castYCalls
  split_ifs <;> rfl

theorem callWeights_castDCalls (dBuffer dqBuffer : BufferIndex) :
    callWeights (castDCalls layerIndex dBuffer dqBuffer) = [] := by
  unfold castDCalls
  split_ifs <;> rfl

theorem callWeights_attCalls (hc : c.Sized) :
    callWeights (c.attCalls subStart layerIndex)
      = c.sized (c.h.attWeights.map fun name => (name, layerIndex)) := by
  rcases hc with ⟨hn, hwt⟩
  have hprune : callWeights (c.pruneCalls layerIndex) = [] := by
    unfold pruneCalls
    split_ifs <;> rfl
  have hfirst (calls : List BuilderCall) :
      callWeights (attFirst subStart layerIndex :: calls) = callWeights calls := by
    unfold attFirst
    split_ifs <;> rfl
  have hqk : callWeights (c.qkNormCalls layerIndex)
      = c.sized ((if c.h.hasQkNorm then [.blockNormQ, .blockNormK] else []).map
          fun name => (name, layerIndex)) := by
    unfold qkNormCalls
    split_ifs <;> rfl
  have hspKv : callWeights (c.spKvCalls layerIndex) = [] := by
    unfold spKvCalls
    split_ifs <;> rfl
  have hnorm (calls : List BuilderCall) :
      callWeights (rmsNormOp .blockNorm0 layerIndex .x .y c.n.rmsNormSize 1 :: calls)
        = ((.blockNorm0, layerIndex), c.n.rmsNormSize) :: callWeights calls :=
    callWeights_weighted (by rw [hn.rmsNorm]; exact NnFloatType.noConfusion) calls
  have hmatmul {name : OpName} {input output : BufferIndex} {y x : Nat}
      (calls : List BuilderCall) :
      callWeights (matmulOp name layerIndex input output (size2D c.h.weightType y x) 0 0 :: calls)
        = ((name, layerIndex), size2D c.h.weightType y x) :: callWeights calls :=
    callWeights_weighted hwt calls
  have hout : callWeights (c.attOutputCalls layerIndex)
      = c.sized [(.blockMatmulWo, layerIndex)] :=
    hmatmul _
  simp only [attCalls, attBodyCalls, attInputCalls, callWeights_append, hprune, hfirst,
    invRmsOp, batchOp, callWeights_size0, hnorm, callWeights_castYCalls, hmatmul, hqk, hspKv, hout]
  simp [LlmHeader.attWeights, sized, LlmHeader.weightSize]
  rfl

theorem callWeights_ffCalls (hc : c.Sized) :
    callWeights (c.ffCalls subStart layerIndex)
      = c.sized (c.h.ffWeights.map fun name => (name, layerIndex)) := by
  rcases hc with ⟨hn, hwt⟩
  have hfirst (calls : List BuilderCall) :
      callWeights (ffFirst subStart layerIndex :: calls) = callWeights calls := by
    unfold ffFirst
    split_ifs <;> rfl
  have hnorm (calls : List BuilderCall) :
      callWeights (rmsNormOp .blockNorm1 layerIndex .x .y c.n.rmsNormSize 1 :: calls)
        = ((.blockNorm1, layerIndex), c.n.rmsNormSize) :: callWeights calls :=
    callWeights_weighted (by rw [hn.rmsNorm]; exact NnFloatType.noConfusion) calls
  have hgate (calls : List BuilderCall) :
      callWeights (matmulOp .blockMoeGate layerIndex .y .gt c.n.moeGateSize 0 0 :: calls)
        = ((.blockMoeGate, layerIndex), c.n.moeGateSize) :: callWeights calls :=
    callWeights_weighted (by rw [hn.moeGate]; exact NnFloatType.noConfusion) calls
  have hmatmul {name : OpName} {input output : BufferIndex} {z y x nExperts nActiveExperts : Nat}
      (calls : List BuilderCall) :
      callWeights (matmulOp name layerIndex input output (size3D c.h.weightType z y x) nExperts
          nActiveExperts :: calls)
        = ((name, layerIndex), size3D c.h.weightType z y x) :: callWeights calls :=
    callWeights_weighted hwt calls
  have hlast : callWeights [castOp .blockCastD3 layerIndex (.buffer .y) (.pipe .zq),
      .addSync .zq .nodeSlices] = [] := rfl
  simp only [ffCalls, ffBodyCalls, callWeights_append, hfirst, invRmsOp, batchOp,
    callWeights_size0, hnorm, hlast, List.append_nil]
  split_ifs with hmoe
  · simp only [moeCalls, batchOp, callWeights_append, callWeights_size0, hgate, hmatmul,
      callWeights_castDCalls]
    simp [LlmHeader.ffWeights, LlmHeader.ffSize, hmoe, sized, LlmHeader.weightSize]
    rfl
  · simp only [denseCalls, batchOp, size2D, callWeights_append, callWeights_size0, hmatmul,
      callWeights_castDCalls, callWeights_castYCalls]
    simp [LlmHeader.ffWeights, LlmHeader.ffSize, hmoe, sized, LlmHeader.weightSize, size2D]
    rfl

theorem callWeights_startCalls (hc : c.Sized) (ppSize ppRank nodeIndex : Nat) :
    callWeights (c.startCalls ppSize ppRank nodeIndex)
      = c.sized (if ppRank = 0 ∧ nodeIndex = 0 then [(.embedding, 0)] else []) := by
  have hembedding (calls : List BuilderCall) :
      callWeights (batchOp .embedding .embedding 0 (.pipe .tok) (.pipe .x)
          c.n.tokenEmbeddingSize .embedding :: calls)
        = ((.embedding, 0), c.n.tokenEmbeddingSize) :: callWeights calls :=
    callWeights_weighted (by rw [hc.1.tokenEmbedding]; exact NnFloatType.noConfusion) calls
  have hsync : callWeights (if ppSize = 1 then [.addSync .x .withRoot] else []) = [] := by
    split_ifs <;> rfl
  unfold startCalls
  by_cases hpp : ppRank = 0
  · rw [if_pos hpp, callWeights_append, hsync, List.append_nil]
    by_cases hnode : nodeIndex = 0
    · rw [if_pos hnode, if_pos ⟨hpp, hnode⟩, hembedding]
      rfl
    · rw [if_neg hnode, if_neg fun h => hnode h.2]
      rfl
  · rw [if_neg hpp, if_neg fun h => hpp h.1]
    rfl

theorem callWeights_endCalls (hc : c.Sized) (fused : Bool) :
    callWeights (c.endCalls fused) = c.sized [(.finalNorm, 0), (.finalMatmulLogits, 0)] := by
  have hnorm (calls : List BuilderCall) :
      callWeights (rmsNormOp .finalNorm 0 .x .y c.n.rmsNormSize 1 :: calls)
        = ((.finalNorm, 0), c.n.rmsNormSize) :: callWeights calls :=
    callWeights_weighted (by rw [hc.1.rmsNorm]; exact NnFloatType.noConfusion) calls
  have hlogits : callWeights (c.logitsCalls fused) = c.sized [(.finalMatmulLogits, 0)] := by
    unfold logitsCalls
    split_ifs <;> exact callWeights_weighted hc.2 _
  have hsync : callWeights [.addSync .lg .nodeSlices] = [] := rfl
  simp only [endCalls, callWeights_append, mergeAddOp, invRmsOp, batchOp, callWeights_size0, hnorm,
    callWeights_castYCalls, hlogits, hsync]
  rfl

/-! ## No two ops share a key -/

def callKeys (calls : List BuilderCall) : List (OpName × Nat) :=
  (opsOf calls).map NnOpConfig.key

theorem callKeys_append (calls calls' : List BuilderCall) :
    callKeys (calls ++ calls') = callKeys calls ++ callKeys calls' := by
  rw [callKeys, opsOf_append, List.map_append]
  rfl

/-- All names an attention segment can have. -/
def attNames : List OpName :=
  [.blockPruneTokens, .blockCastX, .blockMergeAdd, .blockNormPre0, .blockNorm0, .blockCastY,
    .blockMatmulQ, .blockMatmulK, .blockMatmulV, .blockNormPreQ, .blockNormQ, .blockNormPreK,
    .blockNormK, .blockRopeQ, .blockRopeK, .blockShiftK, .blockShiftV, .blockMultiheadAtt,
    .blockCastY2, .blockMatmulWo, .blockCastD]

/-- All names a feed-forward segment can have. -/
def ffNames : List OpName :=
  [.blockCastXFf, .blockMergeAdd2, .blockNormPre1, .blockNorm1, .blockCastY3, .blockMoeYRepeat,
    .blockMoeGate, .blockMoeSoftmax, .blockMoeGate2, .blockMatmulW1, .blockMatmulW3, .blockAct,
    .blockMul, .blockCastD2, .blockMatmulW2, .blockMoeScale, .blockMoeMergeSum, .blockCastD3]

/-- All names of the segments behind the layers. -/
def tailNames : List OpName :=
  [.stageBridgeMergeAdd, .stageBridgeCastX, .finalMergeAdd, .finalNormPre, .finalNorm, .finalCastY,
    .finalMatmulLogits, .finalReduceArgmax]

theorem callKeys_castYCalls (name : OpName) :
    (callKeys (c.castYCalls name layerIndex)).Sublist [(name, layerIndex)] := by
  unfold castYCalls
  split_ifs
  · exact List.Sublist.refl _
  · exact List.nil_sublist _

theorem callKeys_castDCalls (dBuffer dqBuffer : BufferIndex) :
    (callKeys (castDCalls layerIndex dBuffer dqBuffer)).Sublist [(.blockCastD2, layerIndex)] := by
  unfold castDCalls
  split_ifs
  · exact List.Sublist.refl _
  · exact List.nil_sublist _

theorem callKeys_attCalls :
    (callKeys (c.attCalls subStart layerIndex)).Sublist
      (attNames.map fun name => (name, layerIndex)) := by
  have hprune : (callKeys (c.pruneCalls layerIndex)).Sublist [(.blockPruneTokens, layerIndex)] := by
    unfold pruneCalls
    split_ifs
    · exact List.Sublist.refl _
    · exact List.nil_sublist _
  have hfirst : (callKeys [attFirst subStart layerIndex]).Sublist
      [(.blockCastX, layerIndex), (.blockMergeAdd, layerIndex)] := by
    unfold attFirst
    split_ifs
    · exact (List.nil_sublist _).cons_cons _
    · exact (List.Sublist.refl _).cons _
  have hqk : (callKeys (c.qkNormCalls layerIndex)).Sublist
      [(.blockNormPreQ, layerIndex), (.blockNormQ, layerIndex), (.blockNormPreK, layerIndex),
        (.blockNormK, layerIndex)] := by
    unfold qkNormCalls
    split_ifs
    · exact List.Sublist.refl _
    · exact List.nil_sublist _
  have hspKv : callKeys (c.spKvCalls layerIndex) = [] := by
    unfold spKvCalls
    split_ifs <;> rfl
  rw [attCalls, ← List.singleton_append (l := c.attBodyCalls layerIndex)]
  simp only [attBodyCalls, attInputCalls, callKeys_append, hspKv, List.append_nil]
  exact hprune.append (hfirst.append ((((((List.Sublist.refl _).append
    (callKeys_castYCalls _)).append (List.Sublist.refl _)).append hqk).append
    (List.Sublist.refl _)).append (List.Sublist.refl _) |>.append (List.Sublist.refl _)))

theorem callKeys_ffCalls :
    (callKeys (c.ffCalls subStart layerIndex)).Sublist
      (ffNames.map fun name => (name, layerIndex)) := by
  have hfirst : (callKeys [ffFirst subStart layerIndex]).Sublist
      [(.blockCastXFf, layerIndex), (.blockMergeAdd2, layerIndex)] := by
    unfold ffFirst
    split_ifs
    · exact (List.nil_sublist _).cons_cons _
    · exact (List.Sublist.refl _).cons _
  have hcastD := @callKeys_castDCalls layerIndex
  have hbody : (callKeys (if c.h.archType = .qwen3Moe then c.moeCalls layerIndex
      else c.denseCalls layerIndex)).Sublist
        ([.blockCastY3, .blockMoeYRepeat, .blockMoeGate, .blockMoeSoftmax, .blockMoeGate2,
          .blockMatmulW1, .blockMatmulW3, .blockAct, .blockMul, .blockCastD2, .blockMatmulW2,
          .blockMoeScale, .blockMoeMergeSum].map fun name => (name, layerIndex)) := by
    split_ifs
    · rw [moeCalls, callKeys_append, callKeys_append]
      exact (((List.Sublist.refl _).append (hcastD ..)).append (List.Sublist.refl _)).cons _
    · rw [denseCalls, callKeys_append, callKeys_append, callKeys_append]
      have hskip {keys keys' : List (OpName × Nat)} (hkeys : keys.Sublist keys') :
          keys.Sublist ([(OpName.blockMoeYRepeat, layerIndex), (.blockMoeGate, layerIndex),
            (.blockMoeSoftmax, layerIndex), (.blockMoeGate2, layerIndex)] ++ keys') :=
        hkeys.trans (List.sublist_append_right _ _)
      rw [List.append_assoc, List.append_assoc]
      exact (callKeys_castYCalls _).append (hskip ((List.Sublist.refl _).append
        ((hcastD ..).append ((List.nil_sublist _).cons_cons _))))
  rw [ffCalls, ← List.singleton_append (l := c.ffBodyCalls layerIndex)]
  simp only [ffBodyCalls, callKeys_append]
  exact hfirst.append (((List.Sublist.refl _).append hbody).append (List.Sublist.refl _))

theorem callKeys_endCalls (fused : Bool) :
    (callKeys (c.endCalls fused)).Sublist
      ([.finalMergeAdd, .finalNormPre, .finalNorm, .finalCastY, .finalMatmulLogits,
        .finalReduceArgmax].map fun name => (name, 0)) := by
  have hlogits : (callKeys (c.logitsCalls fused)).Sublist
      [(.finalMatmulLogits, 0), (.finalReduceArgmax, 0)] := by
    unfold logitsCalls
    split_ifs
    · exact List.Sublist.refl _
    · exact (List.nil_sublist _).cons_cons _
  simp only [endCalls, callKeys_append]
  have hnorm := List.Sublist.refl
    [(OpName.finalMergeAdd, 0), (.finalNormPre, 0), (.finalNorm, 0)]
  exact ((hnorm.append (callKeys_castYCalls _)).append hlogits).append (List.nil_sublist _)

/-! ## The ops of an accepted node -/

/-- The calls of the segments of a node, one after the other. -/
theorem flatMap_ops_nodeSegments (ppSize ppRank nodeIndex subStart subEnd : Nat) (fused : Bool) :
    (c.nodeSegments ppSize ppRank nodeIndex subStart subEnd fused).flatMap NnSegmentConfig.ops
      = opsOf (c.startCalls ppSize ppRank nodeIndex)
        ++ (subBlocks subStart subEnd).flatMap (fun s => opsOf (c.subBlockCalls subStart s))
        ++ ((if ppRank < ppSize - 1 then opsOf bridgeCalls else [])
        ++ if ppRank = ppSize - 1 then opsOf (c.endCalls fused) else []) := by
  have hops (calls : List BuilderCall) : (segmentOf calls).ops = opsOf calls := by
    rw [segmentOf_eq]
    rfl
  have hlayers : (layerRange subStart subEnd).flatMap (c.layerSegments subStart subEnd)
      = (subBlocks subStart subEnd).map fun s => segmentOf (c.subBlockCalls subStart s) := by
    rw [subBlocks, List.map_flatMap]
    exact congrArg (fun g => (layerRange subStart subEnd).flatMap g)
      (funext fun l => c.layerSegments_eq subStart subEnd l)
  rw [nodeSegments, hlayers]
  simp only [List.flatMap_append, List.flatMap_map, hops, List.append_assoc]
  congr 2
  · simp [hops]
  · split_ifs <;> simp [hops]

/-- The weights of a node, in the order of its ops. -/
def nodeWeights (h : LlmHeader) (ppSize ppRank nodeIndex subStart subEnd : Nat) :
    List (OpName × Nat) :=
  (if ppRank = 0 ∧ nodeIndex = 0 then [(.embedding, 0)] else [])
  ++ (subBlocks subStart subEnd).flatMap h.subBlockWeights
  ++ if ppRank = ppSize - 1 then [(.finalNorm, 0), (.finalMatmulLogits, 0)] else []

theorem weightsOf_node (hc : c.Sized) (ppSize ppRank nodeIndex subStart subEnd : Nat)
    (fused : Bool) :
    weightsOf ((c.nodeSegments ppSize ppRank nodeIndex subStart subEnd fused).flatMap
        NnSegmentConfig.ops)
      = c.sized (nodeWeights c.h ppSize ppRank nodeIndex subStart subEnd) := by
  have hsub (s : Nat) :
      weightsOf (opsOf (c.subBlockCalls subStart s)) = c.sized (c.h.subBlockWeights s) := by
    unfold subBlockCalls LlmHeader.subBlockWeights
    split_ifs
    · exact callWeights_attCalls hc
    · exact callWeights_ffCalls hc
  have hbridge : weightsOf (if ppRank < ppSize - 1 then opsOf bridgeCalls else []) = [] := by
    split_ifs <;> rfl
  have hend : weightsOf (if ppRank = ppSize - 1 then opsOf (c.endCalls fused) else [])
      = c.sized (if ppRank = ppSize - 1 then [(.finalNorm, 0), (.finalMatmulLogits, 0)]
          else []) := by
    split_ifs
    · exact callWeights_endCalls hc fused
    · rfl
  have hstart := callWeights_startCalls hc ppSize ppRank nodeIndex
  rw [callWeights] at hstart
  rw [flatMap_ops_nodeSegments, weightsOf_append, weightsOf_append, weightsOf_append, hbridge, hend,
    hstart, List.nil_append]
  have hblocks : weightsOf ((subBlocks subStart subEnd).flatMap
      fun s => opsOf (c.subBlockCalls subStart s))
        = c.sized ((subBlocks subStart subEnd).flatMap c.h.subBlockWeights) := by
    simp only [weightsOf, List.filterMap_flatMap, sized, List.map_flatMap]
    exact congrArg (fun g => (subBlocks subStart subEnd).flatMap g) (funext hsub)
  rw [hblocks, nodeWeights, sized, sized, sized, sized, List.map_append, List.map_append]

/-! ## No two ops of a node share a key -/

/-- All names a sub-block can have. -/
def subNames (s : Nat) : List OpName :=
  if s % 2 = 0 then attNames else ffNames

theorem callKeys_subBlockCalls (s : Nat) :
    (callKeys (c.subBlockCalls subStart s)).Sublist
      ((subNames s).map fun name => (name, s / 2)) := by
  unfold subBlockCalls subNames
  split_ifs
  · exact callKeys_attCalls
  · exact callKeys_ffCalls

theorem callKeys_startCalls (ppSize ppRank nodeIndex : Nat) :
    (callKeys (c.startCalls ppSize ppRank nodeIndex)).Sublist [(.embedding, 0)] := by
  unfold startCalls
  split_ifs
  · exact List.Sublist.refl _
  · exact List.Sublist.refl _
  · exact List.nil_sublist _
  · exact List.nil_sublist _
  · exact List.nil_sublist _

/-- The keys of the ops behind the layers. -/
theorem callKeys_tail (ppSize ppRank : Nat) (fused : Bool) :
    (((if ppRank < ppSize - 1 then opsOf bridgeCalls else [])
        ++ if ppRank = ppSize - 1 then opsOf (c.endCalls fused) else []).map
      NnOpConfig.key).Sublist (tailNames.map fun name => (name, 0)) := by
  have hbridge : ((if ppRank < ppSize - 1 then opsOf bridgeCalls else []).map
      NnOpConfig.key).Sublist [(OpName.stageBridgeMergeAdd, 0), (.stageBridgeCastX, 0)] := by
    split_ifs
    · exact List.Sublist.refl _
    · exact List.nil_sublist _
  have hend : ((if ppRank = ppSize - 1 then opsOf (c.endCalls fused) else []).map
      NnOpConfig.key).Sublist ([OpName.finalMergeAdd, .finalNormPre, .finalNorm, .finalCastY,
        .finalMatmulLogits, .finalReduceArgmax].map fun name => (name, 0)) := by
    split_ifs
    · exact callKeys_endCalls fused
    · exact List.nil_sublist _
  rw [List.map_append]
  exact hbridge.append hend

theorem names_disjoint : (∀ name ∈ attNames, name ∉ ffNames) ∧
    (∀ name ∈ attNames ++ ffNames, name ∉ tailNames) ∧
    OpName.embedding ∉ attNames ++ ffNames ++ tailNames := by
  decide

theorem mem_subNames {s : Nat} {name : OpName} (h : name ∈ subNames s) :
    name ∈ attNames ++ ffNames := by
  unfold subNames at h
  split_ifs at h
  · exact List.mem_append_left _ h
  · exact List.mem_append_right _ h

/-- Two sub-blocks that share a key are the same. -/
theorem eq_of_mem_subNames {s s' : Nat} {name : OpName} (h : name ∈ subNames s)
    (h' : name ∈ subNames s') (hlayer : s / 2 = s' / 2) : s = s' := by
  unfold subNames at h h'
  split_ifs at h h'
  · omega
  · exact absurd h' (names_disjoint.1 name h)
  · exact absurd h (names_disjoint.1 name h')
  · omega

theorem opKeys_nodup (ppSize ppRank nodeIndex subStart subEnd : Nat) (fused : Bool) :
    (((c.nodeSegments ppSize ppRank nodeIndex subStart subEnd fused).flatMap
      NnSegmentConfig.ops).map NnOpConfig.key).Nodup := by
  rw [flatMap_ops_nodeSegments, List.map_append, List.map_append, List.map_flatMap]
  have hstart := c.callKeys_startCalls ppSize ppRank nodeIndex
  have htail := c.callKeys_tail ppSize ppRank fused
  have hsub (s : Nat) {key : OpName × Nat}
      (hkey : key ∈ callKeys (c.subBlockCalls subStart s)) :
      key.1 ∈ subNames s ∧ key.2 = s / 2 := by
    rcases List.mem_map.1 ((c.callKeys_subBlockCalls s).subset hkey) with ⟨name, hname, rfl⟩
    exact ⟨hname, rfl⟩
  have hnames : ∀ s, (subNames s).Nodup := by
    intro s
    unfold subNames
    split_ifs <;> decide
  have hblocks : ((subBlocks subStart subEnd).flatMap fun s =>
      callKeys (c.subBlockCalls subStart s)).Nodup := by
    refine List.nodup_flatMap.2 ⟨fun s _ => ?_, ?_⟩
    · exact (c.callKeys_subBlockCalls s).nodup
        ((hnames s).map fun _ _ heq => congrArg Prod.fst heq)
    · refine subBlocks_nodup.imp fun hne key hkey hkey' => hne ?_
      exact eq_of_mem_subNames (hsub _ hkey).1 (hsub _ hkey').1
        ((hsub _ hkey).2.symm.trans (hsub _ hkey').2)
  have htailNodup : (tailNames.map fun name => (name, 0)).Nodup := by decide
  refine List.nodup_append.2 ⟨List.nodup_append.2 ⟨hstart.nodup (List.nodup_singleton _), hblocks,
    ?_⟩, htail.nodup htailNodup, ?_⟩
  · rintro key hkey key' hkey' rfl
    rcases List.mem_flatMap.1 hkey' with ⟨s, -, hs⟩
    have hname := mem_subNames (hsub s hs).1
    rw [List.mem_singleton.1 (hstart.subset hkey)] at hname
    exact names_disjoint.2.2 (List.mem_append_left _ hname)
  · rintro key hkey key' hkey' rfl
    rcases List.mem_map.1 (htail.subset hkey') with ⟨name, hname, rfl⟩
    rcases List.mem_append.1 hkey with hkey | hkey
    · cases List.mem_singleton.1 (hstart.subset hkey)
      exact names_disjoint.2.2 (List.mem_append_right _ hname)
    · rcases List.mem_flatMap.1 hkey with ⟨s, -, hs⟩
      exact names_disjoint.2.1 name (mem_subNames (hsub s hs).1) hname

end BlockContext
end PrefillOpt
