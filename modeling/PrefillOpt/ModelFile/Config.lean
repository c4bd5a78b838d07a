import PrefillOpt.Graph.Slices

/-!
# ModelFile.Config — the configuration of the converter

`loadConfig` of `convert-hf.py`, from the fields of `config.json` to the parameters of the header.
Counts and sizes are natural numbers; a JSON number with a fraction is the rational of its text.
-/

namespace PrefillOpt
namespace ModelFile

/-! ## Codes of the file -/

inductive LlmHiddenAct where
  | gelu
  | silu
  deriving DecidableEq, Repr

def archTypeCode : LlmArchType → Int
  | .llama => 0xABCD00
  | .qwen3 => 0xABCD01
  | .qwen3Moe => 0xABCD02

def hiddenActCode : LlmHiddenAct → Int
  | .gelu => 0
  | .silu => 1

def floatTypeCode : NnFloatType → Int
  | .unk => -1
  | .f32 => 0
  | .f16 => 1
  | .q40 => 2
  | .q80 => 3

def ropeTypeCode : NnRopeType → Int
  | .llama => 0
  | .falcon => 1
  | .llama3_1 => 2

/-! ## The configuration of a checkpoint -/

structure HfRopeScaling where
  factor : ℚ
  lowFreqFactor : ℚ
  highFreqFactor : ℚ
  originalMaxPositionEmbeddings : Nat
  ropeType : String

/-- The fields of `config.json` that the converter reads; `none` is an absent or null field. -/
structure HfConfig where
  modelType : String
  hiddenAct : String
  hiddenSize : Nat
  intermediateSize : Nat
  numHiddenLayers : Nat
  numAttentionHeads : Nat
  numKeyValueHeads : Nat
  maxPositionEmbeddings : Nat
  vocabSize : Nat
  numExperts : Option Nat
  numExpertsPerTok : Option Nat
  ropeTheta : Option ℚ
  ropeScaling : Option HfRopeScaling
  headDim : Option Nat
  rmsNormEps : Option ℚ
  moeIntermediateSize : Option Nat

structure RopeScaling where
  factor : Int
  lowFreqFactor : Int
  highFreqFactory : Int
  origMaxSeqLen : Nat
  ropeType : NnRopeType

/-- The `result` of `loadConfig`. -/
structure Config where
  archType : LlmArchType
  hiddenAct : LlmHiddenAct
  dim : Nat
  hiddenDim : Nat
  nLayers : Nat
  nHeads : Nat
  nKvHeads : Nat
  weightsFloatType : NnFloatType
  maxSeqLen : Nat
  vocabSize : Nat
  nExperts : Nat
  nActiveExperts : Nat
  ropeTheta : Option Int
  ropeScaling : Option RopeScaling
  headDim : Option Nat
  normEpsilon : Option Int
  moeHiddenDim : Option Nat

/-- `int(x)`, which cuts off towards zero. -/
def int (x : ℚ) : Int := x.num.tdiv x.den

def parseArchType (type : String) : Except String LlmArchType :=
  if type = "llama" then .ok .llama
  else if type = "mistral" then .ok .llama
  else if type = "qwen3" then .ok .qwen3
  else if type = "qwen3_moe" then .ok .qwen3Moe
  else .error s!"Unsupported arch type: {type}"

def parseHiddenAct (act : String) : Except String LlmHiddenAct :=
  if act = "gelu" then .ok .gelu
  else if act = "silu" then .ok .silu
  else .error s!"Unsupported hidden act: {act}"

/-- The message shows the result of the lookup. -/
def parseRopeType (rt : String) : Except String NnRopeType :=
  if rt = "llama3" then .ok .llama3_1 else .error "Unsupported rope type: None"

/-- The message also shows the number. -/
def parseRmsNormEpsilon (epsilon : ℚ) : Except String Int :=
  if epsilon = 1 / 100000 then .ok 5
  else if epsilon = 1 / 1000000 then .ok 6
  else .error "Unsupported epsilon"

def parseRopeScaling (s : HfRopeScaling) : Except String RopeScaling := do
  let ropeType ← parseRopeType s.ropeType
  return ⟨int s.factor, int s.lowFreqFactor, int s.highFreqFactor,
    s.originalMaxPositionEmbeddings, ropeType⟩

def loadConfig (config : HfConfig) (weightsFloatType : NnFloatType) : Except String Config := do
  let archType ← parseArchType config.modelType
  let hiddenAct ← parseHiddenAct config.hiddenAct
  let ropeScaling ← config.ropeScaling.mapM parseRopeScaling
  let normEpsilon ← config.rmsNormEps.mapM parseRmsNormEpsilon
  return {
    archType, hiddenAct, weightsFloatType, ropeScaling, normEpsilon
    dim := config.hiddenSize
    hiddenDim := config.intermediateSize
    nLayers := config.numHiddenLayers
    nHeads := config.numAttentionHeads
    nKvHeads := config.numKeyValueHeads
    maxSeqLen := config.maxPositionEmbeddings
    vocabSize := config.vocabSize
    nExperts := config.numExperts.getD 0
    nActiveExperts := config.numExpertsPerTok.getD 0
    ropeTheta := config.ropeTheta.map int
    headDim := config.headDim
    moeHiddenDim := config.moeIntermediateSize }

/-! ## The parameters of the header -/

/-- `headerKeys` -/
inductive HeaderKey where
  | version
  | archType
  | dim
  | hiddenDim
  | nLayers
  | nHeads
  | nKvHeads
  | nExperts
  | nActiveExperts
  | vocabSize
  | maxSeqLen
  | hiddenAct
  | ropeTheta
  | weightsFloatType
  | ropeScalingFactor
  | ropeScalingLowFreqFactor
  | ropeScalingHighFreqFactory
  | ropeScalingOrigMaxSeqLen
  | ropeType
  | headDim
  | normEpsilon
  | moeHiddenDim
  deriving DecidableEq, Repr

def HeaderKey.code : HeaderKey → Int
  | .version => 0
  | .archType => 1
  | .dim => 2
  | .hiddenDim => 3
  | .nLayers => 4
  | .nHeads => 5
  | .nKvHeads => 6
  | .nExperts => 7
  | .nActiveExperts => 8
  | .vocabSize => 9
  | .maxSeqLen => 10
  | .hiddenAct => 11
  | .ropeTheta => 12
  | .weightsFloatType => 13
  | .ropeScalingFactor => 14
  | .ropeScalingLowFreqFactor => 15
  | .ropeScalingHighFreqFactory => 16
  | .ropeScalingOrigMaxSeqLen => 17
  | .ropeType => 18
  | .headDim => 19
  | .normEpsilon => 20
  | .moeHiddenDim => 21

namespace Config

variable (c : Config)

def ropeScalingParams : List (HeaderKey × Int) :=
  match c.ropeScaling with
  | some s =>
      [(.ropeScalingFactor, s.factor), (.ropeScalingLowFreqFactor, s.lowFreqFactor),
        (.ropeScalingHighFreqFactory, s.highFreqFactory),
        (.ropeScalingOrigMaxSeqLen, s.origMaxSeqLen), (.ropeType, ropeTypeCode s.ropeType)]
  | none => []

def optional (key : HeaderKey) (value : Option Int) : List (HeaderKey × Int) :=
  value.toList.map fun v => (key, v)

/-- The parameters of every model. -/
def fixedParams : List (HeaderKey × Int) :=
  [(.version, 0), (.archType, archTypeCode c.archType), (.hiddenAct, hiddenActCode c.hiddenAct),
    (.dim, c.dim), (.hiddenDim, c.hiddenDim), (.nLayers, c.nLayers), (.nHeads, c.nHeads),
    (.nKvHeads, c.nKvHeads), (.weightsFloatType, floatTypeCode c.weightsFloatType),
    (.maxSeqLen, c.maxSeqLen), (.vocabSize, c.vocabSize), (.nExperts, c.nExperts),
    (.nActiveExperts, c.nActiveExperts)]

/-- In the order of the dictionary; `files` is no header key. -/
def params : List (HeaderKey × Int) :=
  c.fixedParams ++ optional .ropeTheta c.ropeTheta ++ c.ropeScalingParams
  ++ optional .headDim (c.headDim.map Int.ofNat) ++ optional .normEpsilon c.normEpsilon
  ++ optional .moeHiddenDim (c.moeHiddenDim.map Int.ofNat)

end Config

end ModelFile
end PrefillOpt
