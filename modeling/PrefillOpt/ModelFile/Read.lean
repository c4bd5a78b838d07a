import PrefillOpt.Lib.Binary32
import PrefillOpt.Network.WeightLoader
import PrefillOpt.ModelFile.Config
import PrefillOpt.Tokenizer.File

/-!
# ModelFile.Read — the model file of the program

`loadLlmHeader` and the cursor of `loadLlmNetWeight` in `llm.cpp`.  The file has no names: the
cursor moves on by what each load says its weight takes.
-/

namespace PrefillOpt
namespace ModelFile

open Lib (Binary32)
open TokenizerFile (File ints)
open Network (NnRootWeightLoader)

/-! ## The header -/

/-- `(float)value`, which is an integer again. -/
def floatOfInt (value : Int) : Int :=
  let magnitude := Binary32.significand value.natAbs * 2 ^ Binary32.excess value.natAbs
  if value < 0 then -(magnitude : Int) else magnitude

/-- `LlmHeader` as it is read: the enumerations hold any `int`. -/
structure LoadedHeader where
  headerSize : Nat
  fileSize : Nat
  version : Int
  archType : Int
  dim : Nat
  nLayers : Nat
  nHeads : Nat
  headDim : Nat
  nKvHeads : Nat
  nExperts : Nat
  nActiveExperts : Nat
  origSeqLen : Nat
  seqLen : Nat
  hiddenDim : Nat
  moeHiddenDim : Nat
  hiddenAct : Int
  qDim : Nat
  kvDim : Nat
  vocabSize : Nat
  normEpsilon : ℚ
  ropeType : Int
  ropeTheta : ℚ
  ropeScalingFactor : ℚ
  ropeScalingLowFreqFactor : ℚ
  ropeScalingHighFreqFactory : ℚ
  ropeScalingOrigMaxSeqLen : Nat
  weightType : Int
  syncType : NnFloatType

/-- The defaults that `loadLlmHeader` starts from. -/
def emptyHeader : LoadedHeader where
  headerSize := 0
  fileSize := 0
  version := 0
  archType := 0
  dim := 0
  nLayers := 0
  nHeads := 0
  headDim := 0
  nKvHeads := 0
  nExperts := 0
  nActiveExperts := 0
  origSeqLen := 0
  seqLen := 0
  hiddenDim := 0
  moeHiddenDim := 0
  hiddenAct := hiddenActCode .silu
  qDim := 0
  kvDim := 0
  vocabSize := 0
  normEpsilon := 1 / 100000
  ropeType := ropeTypeCode .llama
  ropeTheta := 10000
  ropeScalingFactor := 1
  ropeScalingLowFreqFactor := 0
  ropeScalingHighFreqFactory := 0
  ropeScalingOrigMaxSeqLen := 0
  weightType := floatTypeCode .unk
  syncType := .f32

def convertNormEpsilon (value : Int) : Except String ℚ :=
  if value = 5 then .ok (1 / 100000)
  else if value = 6 then .ok (1 / 1000000)
  else .error "Unsupported norm epsilon"

/-- An `int` in an `NnUint`. -/
def toUint (value : Int) : Nat := (value % 2 ^ 32).toNat

/-- One key with its value. -/
def readKey (key value : Int) (h : LoadedHeader) : Except String LoadedHeader :=
  if key = 0 then .ok { h with version := value }
  else if key = 1 then .ok { h with archType := value }
  else if key = 2 then .ok { h with dim := toUint value }
  else if key = 3 then .ok { h with hiddenDim := toUint value }
  else if key = 4 then .ok { h with nLayers := toUint value }
  else if key = 5 then .ok { h with nHeads := toUint value }
  else if key = 6 then .ok { h with nKvHeads := toUint value }
  else if key = 7 then .ok { h with nExperts := toUint value }
  else if key = 8 then .ok { h with nActiveExperts := toUint value }
  else if key = 9 then .ok { h with vocabSize := toUint value }
  else if key = 10 then .ok { h with seqLen := toUint value }
  else if key = 11 then .ok { h with hiddenAct := value }
  else if key = 12 then .ok { h with ropeTheta := floatOfInt value }
  else if key = 13 then .ok { h with weightType := value }
  else if key = 14 then .ok { h with ropeScalingFactor := floatOfInt value }
  else if key = 15 then .ok { h with ropeScalingLowFreqFactor := floatOfInt value }
  else if key = 16 then .ok { h with ropeScalingHighFreqFactory := floatOfInt value }
  else if key = 17 then .ok { h with ropeScalingOrigMaxSeqLen := toUint value }
  else if key = 18 then .ok { h with ropeType := value }
  else if key = 19 then .ok { h with headDim := toUint value }
  else if key = 20 then do
    let normEpsilon ← convertNormEpsilon value
    return { h with normEpsilon }
  else if key = 21 then .ok { h with moeHiddenDim := toUint value }
  else .error "Unsupported header key"

def readKeys : List Int → LoadedHeader → Except String LoadedHeader
  | key :: value :: buffer, h => do
      let h ← readKey key value h
      readKeys buffer h
  | [_], _ => .error "buffer[i + 1]"
  | [], h => .ok h

/-- What is computed from the keys; `maxSeqLen` is 0 where there is no cap. -/
def finishHeader (maxSeqLen : Nat) (syncType : NnFloatType) (fileSize : Nat) (h : LoadedHeader) :
    Except String LoadedHeader := do
  if h.weightType = floatTypeCode .unk then .error "Model does not specify weight type" else .ok ()
  if h.headDim = 0 ∧ h.nHeads = 0 then .error "header.dim / header.nHeads" else .ok ()
  let headDim := if h.headDim = 0 then h.dim / h.nHeads else h.headDim
  return { h with
    headDim, syncType, fileSize
    origSeqLen := h.seqLen
    seqLen := if 0 < maxSeqLen ∧ maxSeqLen < h.seqLen then maxSeqLen else h.seqLen
    qDim := u32 (headDim * h.nHeads)
    kvDim := u32 (headDim * h.nKvHeads)
    ropeType :=
      if h.archType = archTypeCode .qwen3 ∨ h.archType = archTypeCode .qwen3Moe then
        ropeTypeCode .falcon else h.ropeType }

/-- The buffer is read for the size of the whole header, so it goes two integers into the first
tensor.  A last key without a value takes the integer behind it. -/
def loadLlmHeader (file : List UInt8) (maxSeqLen : Nat) (syncType : NnFloatType) :
    Except String LoadedHeader := do
  let (magic, f) ← File.freadInt ⟨file, 0⟩ "Cannot read magic value"
  if magic = 0xABCD00 ∨ magic = 0xABCD01 then .error "Old model format is not supported" else .ok ()
  if magic ≠ 0xA00ABCD then .error "Unsupported magic number" else .ok ()
  let (headerSize, f) ← f.freadInt "Cannot read header size"
  let headerSize := toUint headerSize
  let (buffer, _) ← f.fread headerSize "Cannot read header values"
  let nKv := (i32 (((headerSize : Int) - 8) % 2 ^ 64 / 4)).toNat
  let h ← readKeys ((ints buffer).take (nKv + nKv % 2)) { emptyHeader with headerSize }
  finishHeader maxSeqLen syncType file.length h

/-- The enumerations of a header, where it has values of them. -/
def archTypeOf (code : Int) : Option LlmArchType :=
  [LlmArchType.llama, .qwen3, .qwen3Moe].find? fun x => archTypeCode x == code

def floatTypeOf (code : Int) : Option NnFloatType :=
  [NnFloatType.unk, .f32, .f16, .q40, .q80].find? fun x => floatTypeCode x == code

def ropeTypeOf (code : Int) : Option NnRopeType :=
  [NnRopeType.llama, .falcon, .llama3_1].find? fun x => ropeTypeCode x == code

/-- The header as the graph builder takes it. -/
def LoadedHeader.graphHeader (h : LoadedHeader) : Option LlmHeader := do
  let archType ← archTypeOf h.archType
  let weightType ← floatTypeOf h.weightType
  let ropeType ← ropeTypeOf h.ropeType
  return {
    archType, weightType, ropeType
    headerSize := h.headerSize
    fileSize := h.fileSize
    dim := h.dim
    nLayers := h.nLayers
    nHeads := h.nHeads
    headDim := h.headDim
    nKvHeads := h.nKvHeads
    nExperts := h.nExperts
    nActiveExperts := h.nActiveExperts
    seqLen := h.seqLen
    hiddenDim := h.hiddenDim
    moeHiddenDim := h.moeHiddenDim
    qDim := h.qDim
    kvDim := h.kvDim
    vocabSize := h.vocabSize
    syncType := h.syncType
    normEpsilon := h.normEpsilon
    ropeTheta := h.ropeTheta
    ropeScalingFactor := h.ropeScalingFactor
    ropeScalingLowFreqFactor := h.ropeScalingLowFreqFactor
    ropeScalingHighFreqFactory := h.ropeScalingHighFreqFactory
    ropeScalingOrigMaxSeqLen := h.ropeScalingOrigMaxSeqLen }

/-! ## The weights -/

/-- A call of the weight loader, and what it returns. -/
structure WeightLoad where
  opName : OpName
  opIndex : Nat
  expertIndex : Nat
  nBytes : Nat
  deriving DecidableEq, Repr

section Loads

variable (l : NnRootWeightLoader) (h : LlmHeader) (n : LlmSlices)

/-- `loadRoot` and `loadAll` return the size they are given. -/
def loadAll (opName : OpName) (opIndex : Nat) (size : NnSize3D) : WeightLoad :=
  ⟨opName, opIndex, 0, size.nBytes⟩

def loadRow (opName : OpName) (opIndex expertIndex : Nat) (slice : NnRowMatmulSlice) :
    WeightLoad :=
  ⟨opName, opIndex, expertIndex, (l.loadRowMatmulSlices opName opIndex expertIndex slice).2⟩

def loadCol (opName : OpName) (opIndex expertIndex : Nat) (slice : NnColMatmulSlice)
    (overridePpRank : Option Nat) : WeightLoad :=
  ⟨opName, opIndex, expertIndex,
    (l.loadColMatmulSlices opName opIndex expertIndex slice overridePpRank).2⟩

def ffLoads (layerIndex expertIndex : Nat) : List WeightLoad :=
  [loadRow l .blockMatmulW1 layerIndex expertIndex n.w1Slice,
    loadCol l .blockMatmulW2 layerIndex expertIndex n.w2Slice none,
    loadRow l .blockMatmulW3 layerIndex expertIndex n.w3Slice]

def mlpLoads (layerIndex : Nat) : List WeightLoad :=
  if 0 < h.nExperts then
    loadAll .blockMoeGate layerIndex n.moeGateSize
      :: (List.range h.nExperts).flatMap (ffLoads l n layerIndex)
  else ffLoads l n layerIndex 0

def qkNormLoads (layerIndex : Nat) : List WeightLoad :=
  if h.hasQkNorm then
    [loadAll .blockNormQ layerIndex n.qkRmsNormSize,
      loadAll .blockNormK layerIndex n.qkRmsNormSize]
  else []

def layerLoads (layerIndex : Nat) : List WeightLoad :=
  [loadRow l .blockMatmulQ layerIndex 0 n.qSlice, loadRow l .blockMatmulK layerIndex 0 n.kSlice,
    loadRow l .blockMatmulV layerIndex 0 n.vSlice,
    loadCol l .blockMatmulWo layerIndex 0 n.woSlice none]
  ++ mlpLoads l h n layerIndex ++ qkNormLoads h n layerIndex
  ++ [loadAll .blockNorm0 layerIndex n.rmsNormSize, loadAll .blockNorm1 layerIndex n.rmsNormSize]

/-- The calls of `loadLlmNetWeight`; the rank is that of the stage that gets the logits. -/
def netLoads (lastPpStage : Option Nat) : List WeightLoad :=
  [loadAll .embedding 0 n.tokenEmbeddingSize]
  ++ (List.range h.nLayers).flatMap (layerLoads l h n)
  ++ [loadAll .finalNorm 0 n.rmsNormSize, loadCol l .finalMatmulLogits 0 0 n.wclsSlice lastPpStage]

end Loads

/-- What each call finds at the cursor. -/
def visit (file : List UInt8) : Nat → List WeightLoad → List (WeightLoad × List UInt8)
  | _, [] => []
  | b, load :: loads =>
      (load, (file.drop b).take load.nBytes) :: visit file (b + load.nBytes) loads

/-- Where the cursor ends. -/
def cursorEnd (b : Nat) (loads : List WeightLoad) : Nat :=
  loads.foldl (fun b load => b + load.nBytes) b

/-- The calls with their bytes, if the cursor ends at the end of the file. -/
def loadLlmNetWeight (l : NnRootWeightLoader) (file : List UInt8) (h : LlmHeader) (n : LlmSlices)
    (lastPpStage : Option Nat) : Except String (List (WeightLoad × List UInt8)) :=
  let loads := netLoads l h n lastPpStage
  let missingBytes := (cursorEnd h.headerSize loads : Int) - h.fileSize
  if missingBytes ≠ 0 then .error s!"Missing bytes in weight file: {missingBytes}"
  else .ok (visit file h.headerSize loads)

end ModelFile
end PrefillOpt
