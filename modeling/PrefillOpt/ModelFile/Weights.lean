import PrefillOpt.Kernels.Repack
import PrefillOpt.Lib.Dispatch
import PrefillOpt.MatmulSlices
import PrefillOpt.ModelFile.WeightOps

/-!
# ModelFile.Weights — from the file into the ops

`loadLlmNetWeight` of `llm.cpp` over the methods of `NnRootWeightLoader`, then the `loadWeight` of
the executor and of a CPU segment.  A record is what the root writes to a worker, or hands to its
own executor.
-/

namespace PrefillOpt
namespace ModelFile

open Lib (Mem dispatch itemsOf)
open Network (NnRootWeightLoader)
open Network.NnRootWeightLoader (SliceLoad)

/-! ## The calls of the loader -/

/-- A method of the loader with its arguments besides the name and the index. -/
inductive LoadMethod where
  | loadRoot (size : NnSize3D)
  | loadAll (size : NnSize3D)
  | loadRowMatmulSlices (expertIndex : Nat) (slice : NnRowMatmulSlice)
  | loadColMatmulSlices (expertIndex : Nat) (slice : NnColMatmulSlice)
      (overridePpRank : Option Nat)

structure LoaderCall where
  opName : OpName
  opIndex : Nat
  method : LoadMethod

def LoaderCall.key (call : LoaderCall) : OpName × Nat :=
  (call.opName, call.opIndex)

/-- How far the cursor moves on. -/
def LoaderCall.load (l : NnRootWeightLoader) (call : LoaderCall) : WeightLoad :=
  match call.method with
  | .loadRoot size => ModelFile.loadAll call.opName call.opIndex size
  | .loadAll size => ModelFile.loadAll call.opName call.opIndex size
  | .loadRowMatmulSlices expertIndex slice =>
      loadRow l call.opName call.opIndex expertIndex slice
  | .loadColMatmulSlices expertIndex slice overridePpRank =>
      loadCol l call.opName call.opIndex expertIndex slice overridePpRank

section Calls

variable (h : LlmHeader) (n : LlmSlices) (lastPpStage : Option Nat)

def ffCallsOf (layerIndex expertIndex : Nat) : List LoaderCall :=
  [⟨.blockMatmulW1, layerIndex, .loadRowMatmulSlices expertIndex n.w1Slice⟩,
    ⟨.blockMatmulW2, layerIndex, .loadColMatmulSlices expertIndex n.w2Slice none⟩,
    ⟨.blockMatmulW3, layerIndex, .loadRowMatmulSlices expertIndex n.w3Slice⟩]

def mlpCallsOf (layerIndex : Nat) : List LoaderCall :=
  if 0 < h.nExperts then
    ⟨.blockMoeGate, layerIndex, .loadAll n.moeGateSize⟩
      :: (List.range h.nExperts).flatMap (ffCallsOf n layerIndex)
  else ffCallsOf n layerIndex 0

def qkNormCallsOf (layerIndex : Nat) : List LoaderCall :=
  if h.hasQkNorm then
    [⟨.blockNormQ, layerIndex, .loadAll n.qkRmsNormSize⟩,
      ⟨.blockNormK, layerIndex, .loadAll n.qkRmsNormSize⟩]
  else []

def layerCallsOf (layerIndex : Nat) : List LoaderCall :=
  [⟨.blockMatmulQ, layerIndex, .loadRowMatmulSlices 0 n.qSlice⟩,
    ⟨.blockMatmulK, layerIndex, .loadRowMatmulSlices 0 n.kSlice⟩,
    ⟨.blockMatmulV, layerIndex, .loadRowMatmulSlices 0 n.vSlice⟩,
    ⟨.blockMatmulWo, layerIndex, .loadColMatmulSlices 0 n.woSlice none⟩]
  ++ mlpCallsOf h n layerIndex ++ qkNormCallsOf h n layerIndex
  ++ [⟨.blockNorm0, layerIndex, .loadAll n.rmsNormSize⟩,
    ⟨.blockNorm1, layerIndex, .loadAll n.rmsNormSize⟩]

/-- The calls of `loadLlmNetWeight`, in order. -/
def netCalls : List LoaderCall :=
  [⟨.embedding, 0, .loadRoot n.tokenEmbeddingSize⟩]
  ++ (List.range h.nLayers).flatMap (layerCallsOf h n)
  ++ [⟨.finalNorm, 0, .loadAll n.rmsNormSize⟩,
    ⟨.finalMatmulLogits, 0, .loadColMatmulSlices 0 n.wclsSlice lastPpStage⟩]

/-- The cursor moves as these calls say. -/
theorem map_load_netCalls (l : NnRootWeightLoader) :
    (netCalls h n lastPpStage).map (LoaderCall.load l) = netLoads l h n lastPpStage := by
  have hff (layerIndex expertIndex : Nat) :
      (ffCallsOf n layerIndex expertIndex).map (LoaderCall.load l)
        = ffLoads l n layerIndex expertIndex := rfl
  have hmlp (layerIndex : Nat) : (mlpCallsOf h n layerIndex).map (LoaderCall.load l)
      = mlpLoads l h n layerIndex := by
    unfold mlpCallsOf mlpLoads
    split_ifs
    · rw [List.map_cons, List.map_flatMap]
      rfl
    · exact hff layerIndex 0
  have hqk (layerIndex : Nat) : (qkNormCallsOf h n layerIndex).map (LoaderCall.load l)
      = qkNormLoads h n layerIndex := by
    unfold qkNormCallsOf qkNormLoads
    split_ifs <;> rfl
  have hlayer (layerIndex : Nat) : (layerCallsOf h n layerIndex).map (LoaderCall.load l)
      = layerLoads l h n layerIndex := by
    rw [layerCallsOf, List.map_append, List.map_append, List.map_append, hmlp, hqk]
    rfl
  rw [netCalls, List.map_append, List.map_append, List.map_flatMap, funext hlayer]
  rfl

end Calls

/-! ## The records of the root -/

/-- A weight for a node: for the root's own executor, or written to a worker. -/
structure WeightRecord where
  nodeIndex : Nat
  opName : OpName
  opIndex : Nat
  offset : Nat
  weight : List UInt8

def WeightRecord.key (record : WeightRecord) : OpName × Nat :=
  (record.opName, record.opIndex)

/-- The bytes of the file from the cursor on. -/
def memOf (bytes : List UInt8) : Mem UInt8 :=
  fun i => bytes.getD i 0

namespace LoaderCall

variable (l : NnRootWeightLoader) (call : LoaderCall)

def record (load : SliceLoad) (source : Mem UInt8) : WeightRecord :=
  ⟨load.nodeIndex, call.opName, call.opIndex, load.offset, source.slice 0 load.nBytes⟩

section Slices

variable (split : Nat → Mem UInt8 → Except String (Mem UInt8 × Nat))

/-- One turn over the nodes: the part of a rank is copied into `temp` and sent from there. -/
def sendSlice (sent : List WeightRecord × Mem UInt8) (load : SliceLoad) :
    Except String (List WeightRecord × Mem UInt8) := do
  let (temp, _) ← split load.tpRank sent.2
  return (sent.1 ++ [call.record load temp], temp)

/-- A single node takes the weight as it is. -/
def sendSlices (loads : List SliceLoad) (weight temp : Mem UInt8) :
    Except String (List WeightRecord) :=
  if l.nNodes = 1 then .ok (loads.map fun load => call.record load weight)
  else (loads.foldlM (call.sendSlice split) ([], temp)).map Prod.fst

end Slices

/-- The records of a call; `temp` is what the buffer of the loader holds before it. -/
def send (weight temp : Mem UInt8) : Except String (List WeightRecord) :=
  match call.method with
  | .loadRoot size => .ok [call.record ⟨0, 0, 0, size.nBytes⟩ weight]
  | .loadAll size =>
      .ok ((List.range l.nNodes).map fun nodeIndex =>
        call.record ⟨nodeIndex, 0, 0, size.nBytes⟩ weight)
  | .loadRowMatmulSlices expertIndex slice =>
      call.sendSlices l (fun tpRank temp => splitRowMatmulWeight slice tpRank weight temp)
        (l.loadRowMatmulSlices call.opName call.opIndex expertIndex slice).1 weight temp
  | .loadColMatmulSlices expertIndex slice overridePpRank =>
      call.sendSlices l (fun tpRank temp => splitColMatmulWeight slice tpRank weight temp)
        (l.loadColMatmulSlices call.opName call.opIndex expertIndex slice overridePpRank).1
        weight temp

end LoaderCall

/-- All records.  The buffer grows with the weights: `temps` gives what it holds before each
call, which may be anything. -/
def sendAll (l : NnRootWeightLoader) (calls : List (LoaderCall × List UInt8))
    (temps : Nat → Mem UInt8) : Except String (List WeightRecord) := do
  let sent ← calls.zipIdx.mapM fun ((call, bytes), i) => call.send l (memOf bytes) (temps i)
  return sent.flatten

/-- `loadLlmNetWeight` with what it sends.  Where the cursor ends is checked last. -/
def sendNetWeight (l : NnRootWeightLoader) (file : List UInt8) (h : LlmHeader) (n : LlmSlices)
    (lastPpStage : Option Nat) (temps : Nat → Mem UInt8) : Except String (List WeightRecord) := do
  let found := visit file h.headerSize (netLoads l h n lastPpStage)
  let records ← sendAll l ((netCalls h n lastPpStage).zip (found.map Prod.snd)) temps
  let _ ← loadLlmNetWeight l file h n lastPpStage
  return records

/-! ## The executor of a node -/

/-- The weight of an op, `loadedBytes` and `isRepacked` of its context. -/
structure OpWeight where
  weight : Mem UInt8
  loadedBytes : Nat
  isRepacked : Bool

/-- A full weight of this size is repacked, where the device can. -/
def repacks (size : NnSize3D) : Bool :=
  size.floatType == .q40 && decide (0 < size.y) && decide (size.z ≤ 1)
    && size.x * (size.y / 32) * 18 == size.nBytes

/-- `NnCpuDeviceSegment::loadWeight` -/
def OpWeight.load (repackOn : Bool) (size : NnSize3D) (w : OpWeight) (record : WeightRecord) :
    Except String OpWeight := do
  assertThat (decide (record.offset + record.weight.length ≤ size.nBytes))
    "offset + nBytes <= context->weightSize.nBytes"
  let weight := w.weight.store record.offset record.weight
  let loadedBytes := w.loadedBytes + record.weight.length
  if !w.isRepacked && decide (size.nBytes ≤ loadedBytes) && repacks size then
    let (weight, isRepacked) := Kernels.nnRepackQ40InPlace repackOn weight size.x (size.y / 32)
    return ⟨weight, loadedBytes, isRepacked⟩
  else return ⟨weight, loadedBytes, w.isRepacked⟩

/-- The context as it is built: the memory may hold anything. -/
def freshWeights (memory : Nat → Mem UInt8) (i : Nat) : OpWeight :=
  ⟨memory i, 0, false⟩

/-- The size of the weight of an op. -/
def opWeightSize (ops : List NnOpConfig) (i : Nat) : NnSize3D :=
  (ops[i]?.map NnOpConfig.weightSize).getD size0

/-- `NnExecutor::loadWeight`; what is not found is passed over by both callers. -/
def loadRecord (repackOn : Bool) (ops : List NnOpConfig) :
    (Nat → OpWeight) → WeightRecord → Except String (Nat → OpWeight) :=
  dispatch (fun record => locateOp ops record.opName record.opIndex)
    fun i => OpWeight.load repackOn (opWeightSize ops i)

/-- The buffer of a worker has the size of the record cut to 32 bits. -/
def readRecord (repackOn : Bool) (ops : List NnOpConfig) (nodeIndex : Nat)
    (devices : Nat → OpWeight) (record : WeightRecord) : Except String (Nat → OpWeight) := do
  if nodeIndex ≠ 0 then
    assertThat (decide (record.weight.length < 2 ^ 32)) "the weight does not fit temp"
  loadRecord repackOn ops devices record

/-- A node takes its records in the order in which the root sends them. -/
def loadNode (repackOn : Bool) (ops : List NnOpConfig) (nodeIndex : Nat)
    (records : List WeightRecord) (devices : Nat → OpWeight) : Except String (Nat → OpWeight) :=
  (records.filter fun record => record.nodeIndex = nodeIndex).foldlM
    (readRecord repackOn ops nodeIndex) devices

end ModelFile

/-- `lastPpStage` of `loadLlmNetWeight`: `none` where no stage is given. -/
def LlmNet.lastPpStage (net : LlmNet) : Option Nat :=
  let tpGroupEnd := (net.nodeConfigs[0]?.map fun cfg => cfg.placement.tpGroupEnd).getD 0
  let lastPpStage := if 1 < net.nNodes then net.nNodes / tpGroupEnd - 1 else 0
  if 0 < lastPpStage then some lastPpStage else none

/-- The loader that `app.cpp` makes for a net. -/
def LlmNet.weightLoader (net : LlmNet) (ppSize : Nat) : Network.NnRootWeightLoader :=
  ⟨net.nNodes, net.header.nLayers, ppSize, net.ppLayerOffsets⟩

end PrefillOpt
