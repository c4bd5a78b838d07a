import PrefillOpt.Kernels.RopePermute
import PrefillOpt.ModelFile.Config
import PrefillOpt.Tokenizer.File

/-!
# ModelFile.Write — the model file of the converter

`writeHeader` and `writeTensor` of `writer.py`, the plan and `write` of `Processor` in
`convert-hf.py`, with all tensors in one file.  What a block of numbers is quantised to is left
open, its size is that of `struct.pack`.
-/

namespace PrefillOpt
namespace ModelFile

open Lib (leBytes)
open TokenizerFile (packInt)

/-! ## The header -/

/-- Keys and values as pairs of integers. -/
def packPairs : List (HeaderKey × Int) → Option (List UInt8)
  | [] => some []
  | (key, value) :: params => do
      let key ← packInt key.code
      let value ← packInt value
      let data ← packPairs params
      return key ++ value ++ data

/-- The header, unless `struct.pack` raises an exception. -/
def writeHeader (params : List (HeaderKey × Int)) : Option (List UInt8) := do
  let header ← packInt 0xA00ABCD
  let data ← packPairs params
  let size ← packInt (header.length * 2 + data.length : Nat)
  return header ++ size ++ data

/-! ## Tensors -/

section Tensors

variable {α : Type}

/-- A tensor of numbers, which lie in the order of their indices. -/
structure Tensor (α : Type) where
  shape : List Nat
  data : Nat → α

def Tensor.numel (t : Tensor α) : Nat := t.shape.prod

/-- `permute` of a tensor whose rows are the slices along its first axis. -/
def Tensor.permute (t : Tensor α) (nHeads nKvHeads : Nat) : Except String (Tensor α) := do
  let width := t.shape.tail.prod
  let rows ← Kernels.permute (fun row i => t.data (row * width + i)) (t.shape.headD 0) nHeads
    nKvHeads
  return ⟨t.shape, fun i => rows (i / width) (i % width)⟩

/-- How a block of numbers is packed. -/
structure BlockCodec (α : Type) where
  pack : NnFloatType → List α → List UInt8
  pack_length : ∀ floatType block,
    (pack floatType block).length = getBytes floatType (getBlockSize floatType)

/-- A quantised tensor has whole blocks; a block of the other types is one number. -/
def writeTensor (codec : BlockCodec α) (t : Tensor α) (floatType : NnFloatType) :
    Except String (List UInt8) := do
  let blockSize := getBlockSize floatType
  if blockSize = 0 then .error "Unknown float type" else .ok ()
  assertThat (t.numel % blockSize == 0) "x.shape[0] % blockSize == 0"
  return (List.range (t.numel / blockSize)).flatMap fun group =>
    codec.pack floatType ((List.range blockSize).map fun i => t.data (group * blockSize + i))

end Tensors

/-! ## The plan -/

/-- The tensors of a checkpoint, with their layer and expert. -/
inductive TensorName where
  | embedTokens
  | qProj (l : Nat)
  | kProj (l : Nat)
  | vProj (l : Nat)
  | oProj (l : Nat)
  | gate (l : Nat)
  | expertGateProj (l e : Nat)
  | expertDownProj (l e : Nat)
  | expertUpProj (l e : Nat)
  | gateProj (l : Nat)
  | downProj (l : Nat)
  | upProj (l : Nat)
  | qNorm (l : Nat)
  | kNorm (l : Nat)
  | inputLayernorm (l : Nat)
  | postAttentionLayernorm (l : Nat)
  | norm
  | lmHead
  deriving DecidableEq, Repr

def TensorName.text : TensorName → String
  | .embedTokens => "model.embed_tokens.weight"
  | .qProj l => s!"model.layers.{l}.self_attn.q_proj.weight"
  | .kProj l => s!"model.layers.{l}.self_attn.k_proj.weight"
  | .vProj l => s!"model.layers.{l}.self_attn.v_proj.weight"
  | .oProj l => s!"model.layers.{l}.self_attn.o_proj.weight"
  | .gate l => s!"model.layers.{l}.mlp.gate.weight"
  | .expertGateProj l e => s!"model.layers.{l}.mlp.experts.{e}.gate_proj.weight"
  | .expertDownProj l e => s!"model.layers.{l}.mlp.experts.{e}.down_proj.weight"
  | .expertUpProj l e => s!"model.layers.{l}.mlp.experts.{e}.up_proj.weight"
  | .gateProj l => s!"model.layers.{l}.mlp.gate_proj.weight"
  | .downProj l => s!"model.layers.{l}.mlp.down_proj.weight"
  | .upProj l => s!"model.layers.{l}.mlp.up_proj.weight"
  | .qNorm l => s!"model.layers.{l}.self_attn.q_norm.weight"
  | .kNorm l => s!"model.layers.{l}.self_attn.k_norm.weight"
  | .inputLayernorm l => s!"model.layers.{l}.input_layernorm.weight"
  | .postAttentionLayernorm l => s!"model.layers.{l}.post_attention_layernorm.weight"
  | .norm => "model.norm.weight"
  | .lmHead => "lm_head.weight"

inductive Transform where
  | q
  | k
  deriving DecidableEq, Repr

structure PlanItem where
  floatType : NnFloatType
  transform : Option Transform
  /-- The first name, then the ones that are taken where it is missing. -/
  name : TensorName
  fallback : List TensorName

namespace Config

variable (c : Config)

def item (floatType : NnFloatType) (name : TensorName) : PlanItem := ⟨floatType, none, name, []⟩

def mlpPlan (l : Nat) : List PlanItem :=
  let wt := c.weightsFloatType
  if 0 < c.nExperts then
    item .f32 (.gate l) :: (List.range c.nExperts).flatMap fun e =>
      [item wt (.expertGateProj l e), item wt (.expertDownProj l e), item wt (.expertUpProj l e)]
  else [item wt (.gateProj l), item wt (.downProj l), item wt (.upProj l)]

def qkNormPlan (l : Nat) : List PlanItem :=
  if c.archType = .qwen3 ∨ c.archType = .qwen3Moe then
    [item .f32 (.qNorm l), item .f32 (.kNorm l)]
  else []

def layerPlan (l : Nat) : List PlanItem :=
  let wt := c.weightsFloatType
  [⟨wt, some .q, .qProj l, []⟩, ⟨wt, some .k, .kProj l, []⟩, item wt (.vProj l),
    item wt (.oProj l)]
  ++ c.mlpPlan l ++ c.qkNormPlan l
  ++ [item .f32 (.inputLayernorm l), item .f32 (.postAttentionLayernorm l)]

/-- `__preparePlan` -/
def plan : List PlanItem :=
  [item .f32 .embedTokens] ++ (List.range c.nLayers).flatMap c.layerPlan
  ++ [item .f32 .norm, ⟨c.weightsFloatType, none, .lmHead, [.embedTokens]⟩]

section Write

variable {α : Type}

/-- `__transformQ` and `__transformK` -/
def applyTransform (t : Tensor α) : Option Transform → Except String (Tensor α)
  | none => .ok t
  | some .q => if c.archType = .llama then t.permute c.nHeads c.nHeads else .ok t
  | some .k => if c.archType = .llama then t.permute c.nHeads c.nKvHeads else .ok t

/-- The tensor of a checkpoint that an item writes. -/
def findTensor (model : TensorName → Option (Tensor α)) (p : PlanItem) :
    Except String (Tensor α) :=
  match (p.name :: p.fallback).findSome? model with
  | some t => .ok t
  | none => .error s!"Layer {p.name.text} not found"

def writeItem (codec : BlockCodec α) (model : TensorName → Option (Tensor α)) (p : PlanItem) :
    Except String (List UInt8) := do
  let tensor ← findTensor model p
  let tensor ← c.applyTransform tensor p.transform
  writeTensor codec tensor p.floatType

/-- The bytes of every tensor, in the order of the file. -/
def write (codec : BlockCodec α) (model : TensorName → Option (Tensor α)) :
    Except String (List (List UInt8)) :=
  c.plan.mapM (c.writeItem codec model)

end Write

end Config

/-- The whole file. -/
def convert {α : Type} (codec : BlockCodec α) (c : Config)
    (model : TensorName → Option (Tensor α)) : Except String (List UInt8) := do
  let header ← match writeHeader c.params with
    | some header => .ok header
    | none => .error "'i' format requires -2147483648 <= number <= 2147483647"
  let tensors ← c.write codec model
  return header ++ tensors.flatten

end ModelFile
end PrefillOpt
