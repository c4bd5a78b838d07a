import PrefillOpt.Graph.Slices
import PrefillOpt.Topology

/-!
# Build — the graph of every node

`buildLlmNet` of `llm.cpp`.  Each segment is the sequence of builder calls of the source, in its
order.  The sizes of pipes and buffers are left out: nothing here computes with them.
-/

namespace PrefillOpt

/-- What the segments of the layers depend on. -/
structure BlockContext where
  h : LlmHeader
  n : LlmSlices
  spSize : Nat
  /-- `DLLAMA_SP_NOSHARD` -/
  spNoShard : Bool
  /-- `none` stands for `UINT32_MAX`. -/
  pruneLayer : Option Nat
  kvCacheSlice : NnKvCacheSlice
  ropeSlice : NnRopeSlice
  deriving DecidableEq

namespace BlockContext

variable (c : BlockContext)

/-! ## The buffers that coincide when synchronisation is in `F_32` -/

def yqBufferIndex : BufferIndex := if c.h.syncType = .f32 then .y else .qY

def dqBufferIndex : BufferIndex := if c.h.syncType = .f32 then .d else .qD

def moeYqBufferIndex : BufferIndex := if c.h.syncType = .f32 then .moeY else .qMoeY

def moeDQBufferIndex : BufferIndex := if c.h.syncType = .f32 then .moeD else .qMoeD

/-! ## Ops -/

/-- An op whose input and output are rows of the batch. -/
def batchOp (code : NnOpCode) (name : OpName) (index : Nat) (input output : NnPointerSource)
    (weightSize : NnSize3D) (config : NnOpParams) : BuilderCall :=
  .addOp ⟨code, name, index, pointerBatchConfig input, pointerBatchConfig output, weightSize,
    config⟩

def castOp (name : OpName) (index : Nat) (input output : NnPointerSource) : BuilderCall :=
  batchOp .cast name index input output size0 .cast

def mergeAddOp (name : OpName) (index : Nat) : BuilderCall :=
  batchOp .mergeAdd name index (.pipe .zq) (.buffer .x) size0 .mergeAdd

def invRmsOp (name : OpName) (index : Nat) (input : BufferIndex) (nColumns : Nat) : BuilderCall :=
  batchOp .invRms name index (.buffer input) (.buffer .invRms) size0
    (.invRms c.h.normEpsilon nColumns)

def rmsNormOp (name : OpName) (index : Nat) (input output : BufferIndex) (weightSize : NnSize3D)
    (nColumns : Nat) : BuilderCall :=
  batchOp .rmsNorm name index (.buffer input) (.buffer output) weightSize
    (.rmsNorm .invRms nColumns)

def matmulOp (name : OpName) (index : Nat) (input output : BufferIndex) (weightSize : NnSize3D)
    (nExperts nActiveExperts : Nat) : BuilderCall :=
  batchOp .matmul name index (.buffer input) (.buffer output) weightSize
    (.matmul nExperts nActiveExperts .actExpIx)

def ropeOp (name : OpName) (index : Nat) (isQ : Bool) (buffer : BufferIndex) : BuilderCall :=
  batchOp .rope name index (.buffer buffer) (.buffer buffer) size0
    (.rope c.h.ropeType isQ .pos .ropeCache c.h.ropeScalingFactor c.h.ropeScalingLowFreqFactor
      c.h.ropeScalingHighFreqFactory c.h.ropeScalingOrigMaxSeqLen c.ropeSlice)

def shiftOp (name : OpName) (index : Nat) (input output : BufferIndex) : BuilderCall :=
  .addOp ⟨.shift, name, index, pointerBatchConfig (.buffer input),
    pointerRawConfig (.buffer output), size0,
    .shift .pos ⟨c.kvCacheSlice.localSeqStart, c.kvCacheSlice.localSeqLen⟩⟩

/-! ## The attention segment -/

/-- Pruning comes before everything else of its layer. -/
def pruneCalls (layerIndex : Nat) : List BuilderCall :=
  if c.pruneLayer = some layerIndex then
    [batchOp .pruneTokens .blockPruneTokens layerIndex (.buffer .x) (.buffer .x) size0
      (.pruneTokens .pos)]
  else []

/-- The first sub-block of a stage takes over the row its predecessor sent; any other adds what is
pending in the `ZQ` pipe. -/
def attFirst (subStart layerIndex : Nat) : BuilderCall :=
  if layerIndex * 2 = subStart then castOp .blockCastX layerIndex (.pipe .x) (.buffer .x)
  else mergeAddOp .blockMergeAdd layerIndex

def qkNormCalls (layerIndex : Nat) : List BuilderCall :=
  if c.h.hasQkNorm then
    [c.invRmsOp .blockNormPreQ layerIndex .q c.n.nQNormColumns,
     rmsNormOp .blockNormQ layerIndex .q .q (size2D .f32 1 c.h.headDim) c.n.nQNormColumns,
     c.invRmsOp .blockNormPreK layerIndex .kTemp c.n.nKNormColumns,
     rmsNormOp .blockNormK layerIndex .kTemp .kTemp (size2D .f32 1 c.h.headDim)
       c.n.nKNormColumns]
  else []

def castYCalls (name : OpName) (layerIndex : Nat) : List BuilderCall :=
  if c.yqBufferIndex ≠ .y then
    [castOp name layerIndex (.buffer .y) (.buffer c.yqBufferIndex)]
  else []

/-- From the norm to the projections and rotations. -/
def attInputCalls (layerIndex : Nat) : List BuilderCall :=
  [c.invRmsOp .blockNormPre0 layerIndex .x 1,
   rmsNormOp .blockNorm0 layerIndex .x .y c.n.rmsNormSize 1]
  ++ c.castYCalls .blockCastY layerIndex
  ++ [matmulOp .blockMatmulQ layerIndex c.yqBufferIndex .q
        (size2D c.h.weightType c.n.qSlice.n c.n.qSlice.d0) 0 0,
      matmulOp .blockMatmulK layerIndex c.yqBufferIndex .kTemp
        (size2D c.h.weightType c.n.kSlice.n c.n.kSlice.d0) 0 0,
      matmulOp .blockMatmulV layerIndex c.yqBufferIndex .vTemp
        (size2D c.h.weightType c.n.vSlice.n c.n.vSlice.d0) 0 0]
  ++ c.qkNormCalls layerIndex
  ++ [c.ropeOp .blockRopeQ layerIndex true .q, c.ropeOp .blockRopeK layerIndex false .kTemp]

def shiftCalls (layerIndex : Nat) : List BuilderCall :=
  [c.shiftOp .blockShiftK layerIndex .kTemp (.k layerIndex),
   c.shiftOp .blockShiftV layerIndex .vTemp (.v layerIndex)]

def spKvCalls (layerIndex : Nat) : List BuilderCall :=
  if 1 < c.spSize ∧ c.spNoShard = false then
    [.addSpKvSync .pos (.k layerIndex) (.v layerIndex) c.kvCacheSlice.localSeqStart
      c.kvCacheSlice.localSeqLen c.kvCacheSlice.kvDim0]
  else []

def multiHeadAttOp (layerIndex : Nat) : BuilderCall :=
  .addOp ⟨.multiheadAtt, .blockMultiheadAtt, layerIndex, pointerBatchedSliceConfig (.buffer .z),
    pointerBatchedSliceConfig (.buffer .z), size0,
    .multiHeadAtt c.n.multiHeadAttSlice.nHeads c.n.multiHeadAttSlice.nHeads0 c.h.nKvHeads
      c.h.headDim c.h.seqLen c.n.qSlice.d0 c.kvCacheSlice.kvDim0 c.kvCacheSlice.localSeqLen
      c.kvCacheSlice.localSeqStart c.spSize .pos .q (.k layerIndex) (.v layerIndex) .att⟩

def castY2Op (layerIndex : Nat) : BuilderCall :=
  .addOp ⟨.cast, .blockCastY2, layerIndex, pointerBatchedSliceConfig (.buffer .z),
    pointerBatchConfig (.buffer .qZSlice), size0, .cast⟩

/-- From the attention to the partial sums in the `ZQ` pipe. -/
def attOutputCalls (layerIndex : Nat) : List BuilderCall :=
  [c.multiHeadAttOp layerIndex, castY2Op layerIndex,
   matmulOp .blockMatmulWo layerIndex .qZSlice .y
     (size2D c.h.weightType c.n.woSlice.n0 c.n.woSlice.d) 0 0,
   castOp .blockCastD layerIndex (.buffer .y) (.pipe .zq),
   .addSync .zq .nodeSlices]

/-- Everything after the first op of the segment. -/
def attBodyCalls (layerIndex : Nat) : List BuilderCall :=
  c.attInputCalls layerIndex ++ c.shiftCalls layerIndex ++ c.spKvCalls layerIndex
  ++ c.attOutputCalls layerIndex

def attCalls (subStart layerIndex : Nat) : List BuilderCall :=
  c.pruneCalls layerIndex ++ attFirst subStart layerIndex :: c.attBodyCalls layerIndex

/-! ## The feed-forward segment -/

def ffFirst (subStart layerIndex : Nat) : BuilderCall :=
  if layerIndex * 2 + 1 = subStart then castOp .blockCastXFf layerIndex (.pipe .x) (.buffer .x)
  else mergeAddOp .blockMergeAdd2 layerIndex

def castDCalls (layerIndex : Nat) (dBuffer dqBuffer : BufferIndex) : List BuilderCall :=
  if dBuffer ≠ dqBuffer then
    [castOp .blockCastD2 layerIndex (.buffer dBuffer) (.buffer dqBuffer)]
  else []

def moeCalls (layerIndex : Nat) : List BuilderCall :=
  [batchOp .repeatZ .blockMoeYRepeat layerIndex (.buffer .y) (.buffer c.moeYqBufferIndex) size0
     .repeatZ,
   matmulOp .blockMoeGate layerIndex .y .gt c.n.moeGateSize 0 0,
   batchOp .softmax .blockMoeSoftmax layerIndex (.buffer .gt) (.buffer .gt) size0 .softmax,
   batchOp .moeGate .blockMoeGate2 layerIndex (.buffer .gt) (.buffer .moeS) size0
     (.moeGate c.h.nActiveExperts 1 .actExpIx),
   matmulOp .blockMatmulW1 layerIndex c.moeYqBufferIndex .moeD
     (size3D c.h.weightType c.h.nExperts c.n.w1Slice.n c.n.w1Slice.d0) c.h.nExperts
     c.h.nActiveExperts,
   matmulOp .blockMatmulW3 layerIndex c.moeYqBufferIndex .moeL
     (size3D c.h.weightType c.h.nExperts c.n.w3Slice.n c.n.w3Slice.d0) c.h.nExperts
     c.h.nActiveExperts,
   batchOp .silu .blockAct layerIndex (.buffer .moeD) (.buffer .moeD) size0 .silu,
   batchOp .mul .blockMul layerIndex (.buffer .moeD) (.buffer .moeD) size0 (.mul .moeL)]
  ++ castDCalls layerIndex .moeD c.moeDQBufferIndex
  ++ [matmulOp .blockMatmulW2 layerIndex c.moeDQBufferIndex .moeY
        (size3D c.h.weightType c.h.nExperts c.n.w2Slice.n0 c.n.w2Slice.d) c.h.nExperts
        c.h.nActiveExperts,
      batchOp .scale .blockMoeScale layerIndex (.buffer .moeY) (.buffer .moeY) size0 (.scale .moeS),
      batchOp .mergeSum .blockMoeMergeSum layerIndex (.buffer .moeY) (.buffer .y) size0 .mergeSum]

def denseCalls (layerIndex : Nat) : List BuilderCall :=
  c.castYCalls .blockCastY3 layerIndex
  ++ [matmulOp .blockMatmulW1 layerIndex c.yqBufferIndex .d
        (size2D c.h.weightType c.n.w1Slice.n c.n.w1Slice.d0) 0 0,
      matmulOp .blockMatmulW3 layerIndex c.yqBufferIndex .l
        (size2D c.h.weightType c.n.w3Slice.n c.n.w3Slice.d0) 0 0,
      batchOp .silu .blockAct layerIndex (.buffer .d) (.buffer .d) size0 .silu,
      batchOp .mul .blockMul layerIndex (.buffer .d) (.buffer .d) size0 (.mul .l)]
  ++ castDCalls layerIndex .d c.dqBufferIndex
  ++ [matmulOp .blockMatmulW2 layerIndex c.dqBufferIndex .y
        (size2D c.h.weightType c.n.w2Slice.n0 c.n.w2Slice.d) 0 0]

/-- Everything after the first op of the segment. -/
def ffBodyCalls (layerIndex : Nat) : List BuilderCall :=
  [c.invRmsOp .blockNormPre1 layerIndex .x 1,
   rmsNormOp .blockNorm1 layerIndex .x .y c.n.rmsNormSize 1]
  ++ (if c.h.archType = .qwen3Moe then c.moeCalls layerIndex else c.denseCalls layerIndex)
  ++ [castOp .blockCastD3 layerIndex (.buffer .y) (.pipe .zq), .addSync .zq .nodeSlices]

def ffCalls (subStart layerIndex : Nat) : List BuilderCall :=
  ffFirst subStart layerIndex :: c.ffBodyCalls layerIndex

/-! ## The segments around the layers -/

/-- The segment the first stage begins with; only node 0 embeds the tokens. -/
def startCalls (ppSize ppRank nodeIndex : Nat) : List BuilderCall :=
  if ppRank = 0 then
    (if nodeIndex = 0 then
      [batchOp .embedding .embedding 0 (.pipe .tok) (.pipe .x) c.n.tokenEmbeddingSize .embedding]
    else [])
    ++ if ppSize = 1 then [.addSync .x .withRoot] else []
  else []

/-- The hand-over to the next stage. -/
def bridgeCalls : List BuilderCall :=
  [mergeAddOp .stageBridgeMergeAdd 0, castOp .stageBridgeCastX 0 (.buffer .x) (.pipe .x)]

def logitsCalls (fusedLmHeadArgmax : Bool) : List BuilderCall :=
  let wcls := size2D c.h.weightType c.n.wclsSlice.n0 c.n.wclsSlice.d
  if fusedLmHeadArgmax then
    [.addOp ⟨.matmulArgmax, .finalMatmulLogits, 0,
      pointerBatchedSliceConfig (.buffer c.yqBufferIndex),
      pointerBatchConfig (.buffer .argmaxPartial), wcls, .matmul 0 0 .x⟩,
     batchOp .argmaxReduce .finalReduceArgmax 0 (.buffer .argmaxPartial) (.pipe .lg) size0
      (.argmaxReduce 64)]
  else
    [.addOp ⟨.matmul, .finalMatmulLogits, 0, pointerBatchedSliceConfig (.buffer c.yqBufferIndex),
      pointerBatchConfig (.pipe .lg), wcls, .matmul 0 0 .x⟩]

/-- The last stage ends with the logits. -/
def endCalls (fusedLmHeadArgmax : Bool) : List BuilderCall :=
  [mergeAddOp .finalMergeAdd 0, c.invRmsOp .finalNormPre 0 .x 1,
   rmsNormOp .finalNorm 0 .x .y c.n.rmsNormSize 1]
  ++ c.castYCalls .finalCastY 0
  ++ c.logitsCalls fusedLmHeadArgmax
  ++ [.addSync .lg .nodeSlices]

/-! ## The segments of a node -/

/-- The segments of one layer that a stage with the sub-blocks `[subStart, subEnd)` owns. -/
def layerSegments (subStart subEnd layerIndex : Nat) : List NnSegmentConfig :=
  let subAtt := layerIndex * 2
  let subFf := subAtt + 1
  (if subStart ≤ subAtt ∧ subAtt < subEnd then
    [NnSegmentConfigBuilder.segmentOf (c.attCalls subStart layerIndex)] else [])
  ++ if subStart ≤ subFf ∧ subFf < subEnd then
    [NnSegmentConfigBuilder.segmentOf (c.ffCalls subStart layerIndex)] else []

/-- `layerStart` and `layerEnd`. -/
def layerRange (subStart subEnd : Nat) : List Nat :=
  List.range' (subStart / 2) (u32 (subEnd + 1) / 2 - subStart / 2)

def nodeSegments (ppSize ppRank nodeIndex subStart subEnd : Nat) (fusedLmHeadArgmax : Bool) :
    List NnSegmentConfig :=
  [NnSegmentConfigBuilder.segmentOf (c.startCalls ppSize ppRank nodeIndex)]
  ++ (layerRange subStart subEnd).flatMap (c.layerSegments subStart subEnd)
  ++ (if ppRank < ppSize - 1 then [NnSegmentConfigBuilder.segmentOf bridgeCalls] else [])
  ++ if ppRank = ppSize - 1 then [NnSegmentConfigBuilder.segmentOf (c.endCalls fusedLmHeadArgmax)]
    else []

end BlockContext

/-! ## The net -/

structure NnNodeConfig where
  nodeIndex : Nat
  placement : NnNodePlacement
  segments : List NnSegmentConfig

structure LlmNet where
  header : LlmHeader
  slices : LlmSlices
  nNodes : Nat
  /-- What `nnNetworkSetPpLayerOffsets` is given. -/
  ppLayerOffsets : List Nat
  nodeConfigs : List NnNodeConfig

/-- The arguments of `buildLlmNet` besides the header and the topology, and its one switch. -/
structure BuildOptions where
  nBatches : Nat
  /-- Empty when `--pp-layers` is not given. -/
  ppStageLayerCounts : List Nat
  pruneLayer : Option Nat
  fusedLmHeadArgmax : Bool
  /-- `DLLAMA_SP_NOSHARD` -/
  spNoShard : Bool

def buildNode (h : LlmHeader) (t : NnParallelTopology) (o : BuildOptions) (n : LlmSlices)
    (offsets : List Nat) (nodeIndex : Nat) : Except String NnNodeConfig := do
  let placement ← t.getPlacement nodeIndex
  let kvCacheSlice ←
    (if o.spNoShard then sliceKvCache h.kvDim h.seqLen t.tpSize 1 0
    else sliceKvCache h.kvDim h.seqLen t.tpSize t.spSize placement.spRank)
  let ropeSlice ← sliceRope h.ropeType h.qDim h.kvDim h.nKvHeads t.tpSize h.seqLen h.headDim
    h.ropeTheta placement.tpRank
  let c : BlockContext := ⟨h, n, t.spSize, o.spNoShard, o.pruneLayer, kvCacheSlice, ropeSlice⟩
  let subStart := offsets.getD placement.ppRank 0
  let subEnd := offsets.getD (placement.ppRank + 1) 0
  return ⟨nodeIndex, placement,
    c.nodeSegments t.ppSize placement.ppRank nodeIndex subStart subEnd o.fusedLmHeadArgmax⟩

/-- The context of a node once its slicers have passed. -/
def blockContext (h : LlmHeader) (t : NnParallelTopology) (o : BuildOptions) (n : LlmSlices)
    (ropeSlice : NnRopeSlice) (spRank : Nat) : BlockContext :=
  let kvCacheSlice :=
    if o.spNoShard then kvCacheSlice h.kvDim h.seqLen t.tpSize 1 0
    else kvCacheSlice h.kvDim h.seqLen t.tpSize t.spSize spRank
  ⟨h, n, t.spSize, o.spNoShard, o.pruneLayer, kvCacheSlice, ropeSlice⟩

def buildLlmNet (h : LlmHeader) (t : NnParallelTopology) (o : BuildOptions) :
    Except String LlmNet := do
  let slices ← buildLlmSlices h t.tpSize o.nBatches
  let offsets ← stageOffsets h.nLayers t.ppSize o.ppStageLayerCounts
  let nodeConfigs ← (List.range t.nNodes).mapM (buildNode h t o slices offsets)
  return ⟨h, slices, t.nNodes, offsets, nodeConfigs⟩

/-- A dense model with heads of two numbers, to run the builder on. -/
def tinyHeader (nLayers : Nat) : LlmHeader where
  headerSize := 0
  fileSize := 0
  archType := .llama
  dim := 4
  nLayers := nLayers
  nHeads := 2
  headDim := 2
  nKvHeads := 2
  nExperts := 0
  nActiveExperts := 0
  seqLen := 4
  hiddenDim := 4
  moeHiddenDim := 0
  qDim := 4
  kvDim := 4
  vocabSize := 4
  weightType := .f32
  syncType := .f32
  normEpsilon := 0
  ropeType := .llama
  ropeTheta := 0
  ropeScalingFactor := 0
  ropeScalingLowFreqFactor := 0
  ropeScalingHighFreqFactory := 0
  ropeScalingOrigMaxSeqLen := 0

/-! ## What an accepted net looks like -/

section Net

variable {h : LlmHeader} {t : NnParallelTopology} {o : BuildOptions} {n : LlmSlices}
  {offsets : List Nat} {net : LlmNet}

theorem sliceKvCache_eq_ok {kvDim seqLen nNodes spSize spRank : Nat} {s : NnKvCacheSlice}
    (hok : sliceKvCache kvDim seqLen nNodes spSize spRank = .ok s) :
    s = kvCacheSlice kvDim seqLen nNodes spSize spRank ∧ seqLen % spSize = 0 := by
  rcases bind_eq_ok hok with ⟨_, -, hok⟩
  rcases bind_eq_ok hok with ⟨_, -, hok⟩
  rcases bind_eq_ok hok with ⟨_, hseq, hok⟩
  cases hok
  exact ⟨rfl, by simpa using assertThat_eq_ok hseq⟩

/-- The segments of an accepted node. -/
theorem buildNode_eq_ok {nodeIndex : Nat} {cfg : NnNodeConfig}
    (hok : buildNode h t o n offsets nodeIndex = .ok cfg) :
    ∃ ropeSlice,
      sliceRope h.ropeType h.qDim h.kvDim h.nKvHeads t.tpSize h.seqLen h.headDim h.ropeTheta
        (t.placement nodeIndex).tpRank = .ok ropeSlice ∧
      (o.spNoShard = false → h.seqLen % t.spSize = 0) ∧
      cfg = ⟨nodeIndex, t.placement nodeIndex,
        (blockContext h t o n ropeSlice (t.placement nodeIndex).spRank).nodeSegments t.ppSize
          (t.placement nodeIndex).ppRank nodeIndex
          (offsets.getD (t.placement nodeIndex).ppRank 0)
          (offsets.getD ((t.placement nodeIndex).ppRank + 1) 0) o.fusedLmHeadArgmax⟩ := by
  rcases bind_eq_ok hok with ⟨placement, hplacement, hok⟩
  rcases bind_eq_ok hok with ⟨kv, hkv, hok⟩
  rcases bind_eq_ok hok with ⟨ropeSlice, hrope, hok⟩
  have hp : placement = t.placement nodeIndex := by
    unfold NnParallelTopology.getPlacement at hplacement
    split_ifs at hplacement
    cases hplacement
    rfl
  subst hp
  cases hok
  refine ⟨ropeSlice, hrope, ?_, ?_⟩
  · intro hshard
    rw [hshard] at hkv
    exact (sliceKvCache_eq_ok hkv).2
  · -- both branches of the slice are the ones of the context
    cases hshard : o.spNoShard with
    | false =>
        rw [hshard] at hkv
        rw [(sliceKvCache_eq_ok hkv).1]
        simp only [blockContext, hshard]
        rfl
    | true =>
        rw [hshard] at hkv
        rw [(sliceKvCache_eq_ok hkv).1]
        simp only [blockContext, hshard]
        rfl

theorem buildLlmNet_eq_ok (hok : buildLlmNet h t o = .ok net) :
    buildLlmSlices h t.tpSize o.nBatches = .ok net.slices ∧
    stageOffsets h.nLayers t.ppSize o.ppStageLayerCounts = .ok net.ppLayerOffsets ∧
    net.header = h ∧ net.nNodes = t.nNodes ∧
    ∀ node < t.nNodes, ∃ cfg, net.nodeConfigs[node]? = some cfg ∧
      buildNode h t o net.slices net.ppLayerOffsets node = .ok cfg := by
  rcases bind_eq_ok hok with ⟨slices, hslices, hok⟩
  rcases bind_eq_ok hok with ⟨offsets, hoffsets, hok⟩
  rcases bind_eq_ok hok with ⟨nodeConfigs, hnodes, hok⟩
  cases hok
  exact ⟨hslices, hoffsets, rfl, rfl, fun node hnode =>
    getElem?_of_mapM_ok hnodes node (by simp [hnode])⟩

end Net
end PrefillOpt
