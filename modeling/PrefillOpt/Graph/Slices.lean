import Mathlib.Data.List.GetD
import PrefillOpt.Graph.Config

/-!
# Slices — the header of a model, its tensor-parallel slices and its pipeline split

`LlmHeader` of `llm.hpp`, the slicers of `nn-core.cpp` and the offsets of `llm.cpp`.  A slicer
fails where an `assert` of the source does; the error is the text of the condition.
-/

namespace PrefillOpt

inductive LlmArchType where
  | llama
  | qwen3
  | qwen3Moe
  deriving DecidableEq, Repr

structure LlmHeader where
  headerSize : Nat
  fileSize : Nat
  archType : LlmArchType
  dim : Nat
  nLayers : Nat
  nHeads : Nat
  headDim : Nat
  nKvHeads : Nat
  nExperts : Nat
  nActiveExperts : Nat
  seqLen : Nat
  hiddenDim : Nat
  moeHiddenDim : Nat
  qDim : Nat
  kvDim : Nat
  vocabSize : Nat
  weightType : NnFloatType
  syncType : NnFloatType
  normEpsilon : ℚ
  ropeType : NnRopeType
  ropeTheta : ℚ
  ropeScalingFactor : ℚ
  ropeScalingLowFreqFactor : ℚ
  ropeScalingHighFreqFactory : ℚ
  ropeScalingOrigMaxSeqLen : Nat
  deriving DecidableEq

/-- Query and key heads are normalised. -/
def LlmHeader.hasQkNorm (h : LlmHeader) : Bool :=
  h.archType == .qwen3 || h.archType == .qwen3Moe

def LlmHeader.ffDim (h : LlmHeader) : Nat :=
  if h.archType = .qwen3Moe then h.moeHiddenDim else h.hiddenDim

/-! ## Slicers -/

/-- `getBytes` throws for an unknown type and asserts that blocks are whole. -/
def checkBytes (floatType : NnFloatType) (n : Nat) : Except String Unit :=
  match floatType with
  | .unk => .error "Unsupported float type: -1"
  | .q40 => assertThat (n % 32 == 0) "n % Q40_BLOCK_SIZE == 0"
  | .q80 => assertThat (n % 32 == 0) "n % Q80_BLOCK_SIZE == 0"
  | .f32 => .ok ()
  | .f16 => .ok ()

/-- A size whose byte counts exist. -/
def checkSize (s : NnSize3D) : Except String NnSize3D := do
  checkBytes s.floatType s.length
  checkBytes s.floatType (u32 (s.y * s.x))
  return s

structure NnRowMatmulSlice where
  type : NnFloatType
  nNodes : Nat
  d0 : Nat
  n : Nat
  size : NnSize3D
  sliceSize : NnSize3D
  deriving DecidableEq, Repr

structure NnColMatmulSlice where
  type : NnFloatType
  nNodes : Nat
  n : Nat
  n0 : Nat
  d : Nat
  size : NnSize3D
  sliceSize : NnSize3D
  deriving DecidableEq, Repr

structure NnMultiHeadAttSlice where
  nHeads : Nat
  nHeads0 : Nat
  attSize : NnSize3D
  deriving DecidableEq, Repr

def sliceRowMatmul (type : NnFloatType) (nNodes n d : Nat) : Except String NnRowMatmulSlice := do
  assertThat (d % nNodes == 0) "d % nNodes == 0"
  let size ← checkSize (size2D type n d)
  let sliceSize ← checkSize (size2D type n (d / nNodes))
  return ⟨type, nNodes, d / nNodes, n, size, sliceSize⟩

def sliceColMatmul (type : NnFloatType) (nNodes n d : Nat) : Except String NnColMatmulSlice := do
  assertThat (n % nNodes == 0) "n % nNodes == 0"
  let size ← checkSize (size2D type n d)
  let sliceSize ← checkSize (size2D type (n / nNodes) d)
  return ⟨type, nNodes, n, n / nNodes, d, size, sliceSize⟩

/-- The fields the source leaves unset for `ROPE_FALCON` are zero here. -/
def sliceRope (type : NnRopeType) (qDim kvDim nKvHeads nNodes seqLen headDim : Nat)
    (ropeTheta : ℚ) (nodeIndex : Nat) : Except String NnRopeSlice := do
  assertThat (kvDim ≤ qDim) "qDim >= kvDim"
  assertThat (qDim % nNodes == 0) "qDim % nNodes == 0"
  assertThat (kvDim % nNodes == 0) "kvDim % nNodes == 0"
  let qDim0 := qDim / nNodes
  let kvDim0 := kvDim / nNodes
  assertThat (qDim0 % 2 == 0) "s.qDim0 % 2 == 0"
  assertThat (kvDim0 % 2 == 0) "s.kvDim0 % 2 == 0"
  if type = .falcon then
    return {
      qDim0, kvDim, kvDim0, seqLen, headDim, nKvHeads, ropeTheta
      qDimStart := 0, qDimEnd := 0, qShift := 0, kvDimStart := 0, sliceDim := 0
      cacheSize := size2D .f32 seqLen headDim }
  else
    let kvDimStart := kvDim0 * nodeIndex
    let qDimStart := qDim0 * nodeIndex
    let qDimEnd := qDimStart + qDim0
    let sliceDim := qDimEnd - kvDimStart
    assertThat (sliceDim % 2 == 0) "s.sliceDim % 2 == 0"
    return {
      qDim0, qDimStart, qDimEnd, kvDim, kvDim0, kvDimStart, sliceDim, seqLen, headDim, nKvHeads
      ropeTheta
      qShift := qDimStart - kvDimStart
      cacheSize := size2D .f32 seqLen sliceDim }

def sliceMultiHeadAtt (nHeads seqLen nNodes nBatches : Nat) :
    Except String NnMultiHeadAttSlice := do
  assertThat (nHeads % nNodes == 0) "nHeads % nNodes == 0"
  return ⟨nHeads, nHeads / nNodes, size2D .f32 nBatches (u32 (nHeads / nNodes * seqLen))⟩

/-- The sizes and slices that `buildLlmNet` computes before it looks at the nodes. -/
structure LlmSlices where
  tokenEmbeddingSize : NnSize3D
  rmsNormSize : NnSize3D
  qkRmsNormSize : NnSize3D
  moeGateSize : NnSize3D
  multiHeadAttSlice : NnMultiHeadAttSlice
  qSlice : NnRowMatmulSlice
  kSlice : NnRowMatmulSlice
  vSlice : NnRowMatmulSlice
  woSlice : NnColMatmulSlice
  w1Slice : NnRowMatmulSlice
  w2Slice : NnColMatmulSlice
  w3Slice : NnRowMatmulSlice
  wclsSlice : NnColMatmulSlice
  nQNormColumns : Nat
  nKNormColumns : Nat
  deriving DecidableEq

def buildLlmSlices (h : LlmHeader) (tpSize nBatches : Nat) : Except String LlmSlices := do
  let multiHeadAttSlice ← sliceMultiHeadAtt h.nHeads h.seqLen tpSize nBatches
  let qSlice ← sliceRowMatmul h.weightType tpSize h.dim h.qDim
  let kSlice ← sliceRowMatmul h.weightType tpSize h.dim h.kvDim
  let vSlice ← sliceRowMatmul h.weightType tpSize h.dim h.kvDim
  let woSlice ← sliceColMatmul h.weightType tpSize h.qDim h.dim
  let w1Slice ← sliceRowMatmul h.weightType tpSize h.dim h.ffDim
  let w2Slice ← sliceColMatmul h.weightType tpSize h.ffDim h.dim
  let w3Slice ← sliceRowMatmul h.weightType tpSize h.dim h.ffDim
  let wclsSlice ← sliceColMatmul h.weightType tpSize h.dim h.vocabSize
  if h.hasQkNorm then
    assertThat (qSlice.d0 % h.headDim == 0) "n.qSlice.d0 % h->headDim == 0"
    assertThat (kSlice.d0 % h.headDim == 0) "n.kSlice.d0 % h->headDim == 0"
  return {
    tokenEmbeddingSize := size2D .f32 h.vocabSize h.dim
    rmsNormSize := size1D .f32 h.dim
    qkRmsNormSize := size1D .f32 h.headDim
    moeGateSize := size2D .f32 h.dim h.nExperts
    multiHeadAttSlice, qSlice, kSlice, vSlice, woSlice, w1Slice, w2Slice, w3Slice, wclsSlice
    nQNormColumns := if h.hasQkNorm then qSlice.d0 / h.headDim else 1
    nKNormColumns := if h.hasQkNorm then kSlice.d0 / h.headDim else 1 }

/-! ## The pipeline split -/

/-- Running sums in `NnUint`, from 0. -/
def runningOffsets (counts : List Nat) : List Nat :=
  counts.scanl (fun sum count => u32 (sum + count)) 0

/-- The sum of the counts as `NnUint` arithmetic forms it. -/
def countSum (counts : List Nat) : Nat :=
  counts.foldl (fun sum count => u32 (sum + count)) 0

/-- Offsets in sub-blocks: a layer is cut into `att` and `ff`. -/
def buildSubBlockOffsets (nLayers ppSize : Nat) (ppStageSubCounts : List Nat) :
    Except String (List Nat) :=
  let nSub := u32 (nLayers * 2)
  if ppStageSubCounts ≠ [] then
    if ppStageSubCounts.length ≠ ppSize then
      .error "ppStageSubCounts size mismatch with ppSize"
    else if 0 ∈ ppStageSubCounts then
      .error "ppStageSubCounts must be > 0 for all stages"
    else if countSum ppStageSubCounts ≠ nSub then
      .error "ppStageSubCounts sum must match nLayers*2"
    else .ok (runningOffsets ppStageSubCounts)
  else
    .ok (runningOffsets ((List.range ppSize).map fun i =>
      nSub / ppSize + if i < nSub % ppSize then 1 else 0))

/-- Offsets in layers. -/
def buildLayerStartOffsets (nLayers ppSize : Nat) (ppStageLayerCounts : List Nat) :
    Except String (List Nat) :=
  if ppStageLayerCounts ≠ [] then
    if ppStageLayerCounts.length ≠ ppSize then
      .error "ppStageLayerCounts size mismatch with ppSize"
    else if 0 ∈ ppStageLayerCounts then
      .error "ppStageLayerCounts must be > 0 for all stages"
    else if countSum ppStageLayerCounts ≠ nLayers then
      .error "ppStageLayerCounts sum must match nLayers"
    else .ok (runningOffsets ppStageLayerCounts)
  else .ok ((List.range ppSize).map (fun i => i * (nLayers / ppSize)) ++ [nLayers])

/-- `subMode`: the counts are sub-blocks.  No counts at all is the empty list. -/
def subMode (nLayers ppSize : Nat) (ppStageLayerCounts : List Nat) : Bool :=
  !ppStageLayerCounts.isEmpty && ppStageLayerCounts.length == ppSize &&
    countSum ppStageLayerCounts == u32 (nLayers * 2)

/-- Where each stage starts, in sub-blocks: `subStart` and `subEnd` of the graph builder, and what
it hands to `nnNetworkSetPpLayerOffsets` for the weight loader. -/
def stageOffsets (nLayers ppSize : Nat) (ppStageLayerCounts : List Nat) :
    Except String (List Nat) :=
  if subMode nLayers ppSize ppStageLayerCounts then
    buildSubBlockOffsets nLayers ppSize ppStageLayerCounts
  else do
    let layerOffsets ← buildLayerStartOffsets nLayers ppSize ppStageLayerCounts
    return layerOffsets.map fun offset => u32 (offset * 2)

/-! ## The offsets of an accepted split -/

section Offsets

variable {nLayers ppSize : Nat} {counts offsets : List Nat}

/-- Where stages start and end: the first at the first sub-block, the last at the last one. -/
structure SpansSubBlocks (nLayers ppSize : Nat) (offsets : List Nat) : Prop where
  length : offsets.length = ppSize + 1
  head : offsets.getD 0 0 = 0
  last : offsets.getD ppSize 0 = u32 (nLayers * 2)

theorem scanl_getD_head {f : Nat → Nat → Nat} (a : Nat) (counts : List Nat) :
    (counts.scanl f a).getD 0 0 = a := by
  cases counts <;> simp

theorem scanl_getD_length {f : Nat → Nat → Nat} (a : Nat) (counts : List Nat) :
    (counts.scanl f a).getD counts.length 0 = counts.foldl f a := by
  simp

theorem spansSubBlocks_sub (hlen : counts.length = ppSize)
    (hsum : countSum counts = u32 (nLayers * 2)) :
    SpansSubBlocks nLayers ppSize (runningOffsets counts) where
  length := by simp [runningOffsets, hlen]
  head := scanl_getD_head 0 counts
  last := by
    rw [← hlen, ← hsum]
    exact scanl_getD_length 0 counts

theorem getD_map_doubled (layerOffsets : List Nat) (i : Nat) :
    (layerOffsets.map fun offset => u32 (offset * 2)).getD i 0 = u32 (layerOffsets.getD i 0 * 2) :=
  List.getD_map layerOffsets 0 fun offset => u32 (offset * 2)

/-- Doubling turns offsets in layers into offsets in sub-blocks. -/
theorem spansSubBlocks_layers {layerOffsets : List Nat} (hlen : layerOffsets.length = ppSize + 1)
    (hhead : layerOffsets.getD 0 0 = 0) (hlast : layerOffsets.getD ppSize 0 = nLayers) :
    SpansSubBlocks nLayers ppSize (layerOffsets.map fun offset => u32 (offset * 2)) where
  length := by simp [hlen]
  head := by rw [getD_map_doubled, hhead]; rfl
  last := by rw [getD_map_doubled, hlast]

/-- Every accepted split spans the sub-blocks of the model. -/
theorem spansSubBlocks_of_ok (hpp : 0 < ppSize)
    (hok : stageOffsets nLayers ppSize counts = .ok offsets) :
    SpansSubBlocks nLayers ppSize offsets := by
  unfold stageOffsets at hok
  by_cases hsub : subMode nLayers ppSize counts = true
  · rw [if_pos hsub] at hok
    simp only [subMode, Bool.and_eq_true, beq_iff_eq, Bool.not_eq_true', List.isEmpty_eq_false_iff]
      at hsub
    rcases hsub with ⟨⟨hne, hlen⟩, hsum⟩
    by_cases hzero : 0 ∈ counts
    · simp [buildSubBlockOffsets, hne, hlen, hzero] at hok
    · simp only [buildSubBlockOffsets, hne, hlen, hzero, hsum, ne_eq, not_false_eq_true,
        not_true_eq_false, if_true, if_false, Except.ok.injEq] at hok
      rw [← hok]
      exact spansSubBlocks_sub hlen hsum
  · rw [if_neg hsub] at hok
    rcases hlayers : buildLayerStartOffsets nLayers ppSize counts with e | layerOffsets
    · rw [hlayers] at hok
      cases hok
    rw [hlayers] at hok
    cases hok
    unfold buildLayerStartOffsets at hlayers
    split_ifs at hlayers with hne hlen hzero hsum
    · cases hlayers
      rw [ne_eq, Decidable.not_not] at hlen hsum
      refine spansSubBlocks_layers (by simp [runningOffsets, hlen]) (scanl_getD_head 0 counts) ?_
      rw [← hlen, ← hsum]
      exact scanl_getD_length 0 counts
    · cases hlayers
      refine spansSubBlocks_layers (by simp) ?_ (by simp)
      rcases ppSize with _ | n
      · omega
      · simp [List.range_succ_eq_map]

end Offsets

end PrefillOpt
