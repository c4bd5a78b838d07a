import Mathlib.Data.Rat.Defs
import PrefillOpt.Core
import PrefillOpt.CpuShift

/-!
# Config — the data a graph is made of

The pipe, buffer, op, sync and segment records of `nn-core.hpp` and the segment builder of
`nn-config-builder.hpp`.  A pipe or buffer index is the symbolic name the graph builder gives it;
the key and value buffers of a layer carry the layer.  A `float` field is the rational it stands
for.
-/

namespace PrefillOpt

/-! ## Pipes, buffers and pointers -/

/-- The pipes of an LLM: `"POS"`, `"TOK"`, `"X"`, `"LG"` and `"ZQ"`. -/
inductive PipeIndex where
  | pos
  | tok
  | x
  | lg
  | zq
  deriving DecidableEq, Repr

/-- The buffers of a node.  The ones with a `q` in front hold the synchronisation type. -/
inductive BufferIndex where
  | x
  | y
  | qY
  | z
  | qZSlice
  | q
  | kTemp
  | vTemp
  | invRms
  | ropeCache
  | att
  | lg
  | argmaxPartial
  | d
  | qD
  | l
  | gt
  | actExpIx
  | moeY
  | qMoeY
  | moeD
  | qMoeD
  | moeL
  | moeS
  | k (layerIndex : Nat)
  | v (layerIndex : Nat)
  deriving DecidableEq, Repr

/-- `SRC_PIPE` or `SRC_BUFFER` with the index. -/
inductive NnPointerSource where
  | pipe (index : PipeIndex)
  | buffer (index : BufferIndex)
  deriving DecidableEq, Repr

inductive NnPointerType where
  | raw
  | batch
  | batchedSlice
  deriving DecidableEq, Repr

structure NnPointerConfig where
  source : NnPointerSource
  type : NnPointerType
  deriving DecidableEq, Repr

def pointerBatchConfig (source : NnPointerSource) : NnPointerConfig := ⟨source, .batch⟩

def pointerBatchedSliceConfig (source : NnPointerSource) : NnPointerConfig :=
  ⟨source, .batchedSlice⟩

def pointerRawConfig (source : NnPointerSource) : NnPointerConfig := ⟨source, .raw⟩

/-! ## Ops -/

inductive NnOpCode where
  | mergeAdd
  | mergeSum
  | embedding
  | invRms
  | rmsNorm
  | matmul
  | rope
  | multiheadAtt
  | silu
  | mul
  | scale
  | cast
  | repeatZ
  | shift
  | softmax
  | matmulArgmax
  | argmaxReduce
  | moeGate
  | pruneTokens
  deriving DecidableEq, Repr

inductive NnRopeType where
  | llama
  | falcon
  | llama3_1
  deriving DecidableEq, Repr

structure NnRopeSlice where
  qDim0 : Nat
  qDimStart : Nat
  qDimEnd : Nat
  qShift : Nat
  kvDim : Nat
  kvDim0 : Nat
  kvDimStart : Nat
  sliceDim : Nat
  seqLen : Nat
  headDim : Nat
  nKvHeads : Nat
  ropeTheta : ℚ
  cacheSize : NnSize3D
  deriving DecidableEq

/-- The config of an op, one constructor for each config type of the source. -/
inductive NnOpParams where
  | embedding
  | invRms (epsilon : ℚ) (nColumns : Nat)
  | rmsNorm (invRmsBufferIndex : BufferIndex) (nColumns : Nat)
  | matmul (nExperts nActiveExperts : Nat) (activeExpertIndexesBufferIndex : BufferIndex)
  | rope (type : NnRopeType) (isQ : Bool) (positionPipeIndex : PipeIndex)
      (ropeCacheBufferIndex : BufferIndex)
      (ropeScalingFactor ropeScalingLowFreqFactor ropeScalingHighFreqFactor : ℚ)
      (ropeScalingOrigMaxSeqLen : Nat) (slice : NnRopeSlice)
  | multiHeadAtt (nHeads nHeads0 nKvHeads headDim seqLen qSliceD0 kvDim0 : Nat)
      (localSeqLen localSeqStart spSize : Nat) (positionPipeIndex : PipeIndex)
      (queryBufferIndex keyCacheBufferIndex valueCacheBufferIndex attBufferIndex : BufferIndex)
  | mergeAdd
  | mergeSum
  | silu
  | mul (multiplierBufferIndex : BufferIndex)
  | scale (scaleBufferIndex : BufferIndex)
  | cast
  | repeatZ
  | shift (indexPipeIndex : PipeIndex) (range : NnShiftOpCodeConfig)
  | pruneTokens (positionPipeIndex : PipeIndex)
  | softmax
  | moeGate (k normTopk : Nat) (indexesBufferIndex : BufferIndex)
  | argmaxReduce (maxThreads : Nat)
  deriving DecidableEq

/-- The op names of the graph, in the order in which the builder first uses them. -/
inductive OpName where
  | embedding
  | blockPruneTokens
  | blockCastX
  | blockMergeAdd
  | blockNormPre0
  | blockNorm0
  | blockCastY
  | blockMatmulQ
  | blockMatmulK
  | blockMatmulV
  | blockNormPreQ
  | blockNormQ
  | blockNormPreK
  | blockNormK
  | blockRopeQ
  | blockRopeK
  | blockShiftK
  | blockShiftV
  | blockMultiheadAtt
  | blockCastY2
  | blockMatmulWo
  | blockCastD
  | blockMergeAdd2
  | blockCastXFf
  | blockNormPre1
  | blockNorm1
  | blockMoeYRepeat
  | blockMoeGate
  | blockMoeSoftmax
  | blockMoeGate2
  | blockMatmulW1
  | blockMatmulW3
  | blockAct
  | blockMul
  | blockCastD2
  | blockMatmulW2
  | blockMoeScale
  | blockMoeMergeSum
  | blockCastY3
  | blockCastD3
  | stageBridgeMergeAdd
  | stageBridgeCastX
  | finalMergeAdd
  | finalNormPre
  | finalNorm
  | finalCastY
  | finalMatmulLogits
  | finalReduceArgmax
  deriving DecidableEq, Repr

/-- The text the source gives the op. -/
def OpName.text : OpName → String
  | .embedding => "embedding"
  | .blockPruneTokens => "block_prune_tokens"
  | .blockCastX => "block_cast_x"
  | .blockMergeAdd => "block_merge_add"
  | .blockNormPre0 => "block_norm_pre_0"
  | .blockNorm0 => "block_norm_0"
  | .blockCastY => "block_cast_y"
  | .blockMatmulQ => "block_matmul_q"
  | .blockMatmulK => "block_matmul_k"
  | .blockMatmulV => "block_matmul_v"
  | .blockNormPreQ => "block_norm_pre_q"
  | .blockNormQ => "block_norm_q"
  | .blockNormPreK => "block_norm_pre_k"
  | .blockNormK => "block_norm_k"
  | .blockRopeQ => "block_rope_q"
  | .blockRopeK => "block_rope_k"
  | .blockShiftK => "block_shift_k"
  | .blockShiftV => "block_shift_v"
  | .blockMultiheadAtt => "block_multihead_att"
  | .blockCastY2 => "block_cast_y2"
  | .blockMatmulWo => "block_matmul_wo"
  | .blockCastD => "block_cast_d"
  | .blockMergeAdd2 => "block_merge_add2"
  | .blockCastXFf => "block_cast_x_ff"
  | .blockNormPre1 => "block_norm_pre_1"
  | .blockNorm1 => "block_norm_1"
  | .blockMoeYRepeat => "block_moe_y_repeat"
  | .blockMoeGate => "block_moe_gate"
  | .blockMoeSoftmax => "block_moe_softmax"
  | .blockMoeGate2 => "block_moe_gate2"
  | .blockMatmulW1 => "block_matmul_w1"
  | .blockMatmulW3 => "block_matmul_w3"
  | .blockAct => "block_act"
  | .blockMul => "block_mul"
  | .blockCastD2 => "block_cast_d2"
  | .blockMatmulW2 => "block_matmul_w2"
  | .blockMoeScale => "block_moe_scale"
  | .blockMoeMergeSum => "block_moe_merge_sum"
  | .blockCastY3 => "block_cast_y3"
  | .blockCastD3 => "block_cast_d3"
  | .stageBridgeMergeAdd => "stage_bridge_merge_add"
  | .stageBridgeCastX => "stage_bridge_cast_x"
  | .finalMergeAdd => "final_merge_add"
  | .finalNormPre => "final_norm_pre"
  | .finalNorm => "final_norm"
  | .finalCastY => "final_cast_y"
  | .finalMatmulLogits => "final_matmul_logits"
  | .finalReduceArgmax => "final_reduce_argmax"

structure NnOpConfig where
  code : NnOpCode
  name : OpName
  index : Nat
  input : NnPointerConfig
  output : NnPointerConfig
  weightSize : NnSize3D
  config : NnOpParams
  deriving DecidableEq

/-! ## Syncs and segments -/

inductive NnSyncType where
  | withRoot
  | nodeSlices
  | nodeSlicesExceptRoot
  | spKv
  | cpLogits
  deriving DecidableEq, Repr

/-- A sync; the `spKv` fields are only set by `addSpKvSync`. -/
structure NnSyncConfig where
  pipeIndex : PipeIndex
  syncType : NnSyncType
  spKvBuffers : Option (BufferIndex × BufferIndex)
  spKvLocalSeqStart : Nat
  spKvLocalSeqLen : Nat
  spKvDim0 : Nat
  deriving DecidableEq, Repr

structure NnSegmentConfig where
  ops : List NnOpConfig
  syncs : List NnSyncConfig
  deriving DecidableEq

/-- The builder keeps the ops and the syncs of a segment in two lists. -/
structure NnSegmentConfigBuilder where
  ops : List NnOpConfig
  syncs : List NnSyncConfig

/-- A call of one of the builder's methods. -/
inductive BuilderCall where
  | addOp (op : NnOpConfig)
  | addSync (pipeIndex : PipeIndex) (syncType : NnSyncType)
  | addSpKvSync (positionPipeIndex : PipeIndex) (kBufferIndex vBufferIndex : BufferIndex)
      (localSeqStart localSeqLen kvDim0 : Nat)

namespace NnSegmentConfigBuilder

def empty : NnSegmentConfigBuilder := ⟨[], []⟩

def call (b : NnSegmentConfigBuilder) : BuilderCall → NnSegmentConfigBuilder
  | .addOp op => { b with ops := b.ops ++ [op] }
  | .addSync pipeIndex syncType =>
      { b with syncs := b.syncs ++ [⟨pipeIndex, syncType, none, 0, 0, 0⟩] }
  | .addSpKvSync positionPipeIndex kBufferIndex vBufferIndex localSeqStart localSeqLen kvDim0 =>
      { b with syncs := b.syncs ++ [⟨positionPipeIndex, .spKv, some (kBufferIndex, vBufferIndex),
        localSeqStart, localSeqLen, kvDim0⟩] }

def build (b : NnSegmentConfigBuilder) : NnSegmentConfig := ⟨b.ops, b.syncs⟩

/-- The segment that a sequence of calls on a new builder gives. -/
def segmentOf (calls : List BuilderCall) : NnSegmentConfig :=
  (calls.foldl call empty).build

end NnSegmentConfigBuilder

/-- The ops a sequence of calls adds. -/
def BuilderCall.op? : BuilderCall → Option NnOpConfig
  | .addOp op => some op
  | _ => none

/-- The syncs a sequence of calls adds. -/
def BuilderCall.sync? : BuilderCall → Option NnSyncConfig
  | .addOp _ => none
  | .addSync pipeIndex syncType => some ⟨pipeIndex, syncType, none, 0, 0, 0⟩
  | .addSpKvSync positionPipeIndex kBufferIndex vBufferIndex localSeqStart localSeqLen kvDim0 =>
      some ⟨positionPipeIndex, .spKv, some (kBufferIndex, vBufferIndex), localSeqStart,
        localSeqLen, kvDim0⟩

namespace NnSegmentConfigBuilder

theorem foldl_call (calls : List BuilderCall) (b : NnSegmentConfigBuilder) :
    calls.foldl call b
      = ⟨b.ops ++ calls.filterMap BuilderCall.op?,
          b.syncs ++ calls.filterMap BuilderCall.sync?⟩ := by
  induction calls generalizing b with
  | nil => simp
  | cons c calls ih =>
      rw [List.foldl_cons, ih]
      cases c <;> simp [call, List.filterMap_cons, BuilderCall.op?, BuilderCall.sync?]

/-- Where a sync is called among the ops is lost. -/
theorem segmentOf_eq (calls : List BuilderCall) :
    segmentOf calls
      = ⟨calls.filterMap BuilderCall.op?, calls.filterMap BuilderCall.sync?⟩ := by
  rw [segmentOf, foldl_call]
  simp [empty, build]

end NnSegmentConfigBuilder
end PrefillOpt
