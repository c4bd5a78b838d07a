import Mathlib.Data.List.Infix
import PrefillOpt.Graph.Slices
import PrefillOpt.Network.WeightWire

/-!
# WeightLoader — sizes and offsets of large weights

The loads of `NnRootWeightLoader::loadRowMatmulSlices` and `loadColMatmulSlices`, and the sizes that
`size3D`, `sliceMultiHeadAtt` and the workers' buffer are computed with.  Sizes are `NnSize`, but
several products are formed in `NnUint`, or cut to one.
-/

namespace PrefillOpt
namespace Network

open Wire (NnUint NnSize allocate le_allocate)

/-! ## Which nodes a weight goes to -/

structure NnRootWeightLoader where
  nNodes : Nat
  nLayers : Nat
  ppSize : Nat
  /-- `gPpLayerOffsets`, in sub-blocks. -/
  ppLayerOffsets : List Nat

/-- 1 for an op of the feed-forward sub-block. -/
def subPartOfOp (opName : OpName) : Nat :=
  let contains (part : String) : Bool := decide (part.toList <:+: opName.text.toList)
  if contains "matmul_w1" || contains "matmul_w2" || contains "matmul_w3" || contains "moe" ||
    contains "norm_1" then 1 else 0

namespace NnRootWeightLoader

variable (l : NnRootWeightLoader)

/-- `none` is `UINT_MAX`. -/
def getLayerOwnerPpRank (layerIndex : Nat) (opName : OpName) : Option Nat :=
  if l.ppSize ≤ 1 ∨ l.nLayers = 0 then none
  else if l.ppLayerOffsets.length = l.ppSize + 1 then
    let sub := u32 (layerIndex * 2 + subPartOfOp opName)
    let owner := (List.range l.ppSize).find? fun r =>
      decide (l.ppLayerOffsets.getD r 0 ≤ sub ∧ sub < l.ppLayerOffsets.getD (r + 1) 0)
    some (owner.getD (l.ppSize - 1))
  else
    let layersPerStage := l.nLayers / l.ppSize
    if layersPerStage = 0 then none
    else
      -- the last stage gets the remainder
      let ppRank := layerIndex / layersPerStage
      some (if l.ppSize ≤ ppRank then l.ppSize - 1 else ppRank)

def nodeInPpStage (nodeIndex targetPpRank tpSize : Nat) : Bool :=
  nodeIndex / tpSize == targetPpRank

/-- A slice for a node: `executor->loadWeight` on the root, `writeWeight` for a worker. -/
structure SliceLoad where
  nodeIndex : Nat
  tpRank : Nat
  offset : Nat
  nBytes : Nat
deriving DecidableEq, Repr

/-- What the row and the column loader do once they know the owner; `const NnUint offset` cuts the
product to 32 bits. -/
def loadSlices (ownerPpRank : Option Nat) (expertIndex tpSize : Nat) (sliceSize : NnSize3D) :
    List SliceLoad :=
  let offset := u32 (expertIndex * sliceSize.nBytes)
  if l.nNodes = 1 then [⟨0, 0, offset, sliceSize.nBytes⟩]
  else
    let nodes := (List.range l.nNodes).filter fun nodeIndex =>
      ownerPpRank.all fun ppRank => nodeInPpStage nodeIndex ppRank tpSize
    nodes.map fun nodeIndex => ⟨nodeIndex, nodeIndex % tpSize, offset, sliceSize.nBytes⟩

/-- The loads, and how far the weight in the file goes. -/
def loadRowMatmulSlices (opName : OpName) (opIndex expertIndex : Nat) (slice : NnRowMatmulSlice) :
    List SliceLoad × Nat :=
  let ownerPpRank := l.getLayerOwnerPpRank opIndex opName
  (l.loadSlices ownerPpRank expertIndex slice.nNodes slice.sliceSize, slice.size.nBytes)

def loadColMatmulSlices (opName : OpName) (opIndex expertIndex : Nat) (slice : NnColMatmulSlice)
    (overridePpRank : Option Nat) : List SliceLoad × Nat :=
  let ownerPpRank := overridePpRank <|> l.getLayerOwnerPpRank opIndex opName
  (l.loadSlices ownerPpRank expertIndex slice.nNodes slice.sliceSize, slice.size.nBytes)

end NnRootWeightLoader

/-! ## Where a product overflows -/

/-- A product is kept when it fits. -/
theorem u32_eq_iff {n : Nat} : u32 n = n ↔ n < 2 ^ 32 := by
  rw [u32]
  omega

/-- Blocks divide 2³², so a wrapped length has other bytes. -/
theorem getBytes_u32_eq_iff {floatType : NnFloatType} (h : floatType ≠ .unk) {n : Nat} :
    getBytes floatType (u32 n) = getBytes floatType n ↔ n < 2 ^ 32 := by
  constructor
  · intro heq
    cases floatType with
    | unk => exact absurd rfl h
    | f32 =>
        simp only [getBytes, u32] at heq
        omega
    | f16 =>
        simp only [getBytes, u32] at heq
        omega
    | q40 =>
        simp only [getBytes, u32] at heq
        omega
    | q80 =>
        simp only [getBytes, u32] at heq
        omega
  · intro hlt
    rw [u32_of_lt hlt]

/-- A size that has the elements and bytes of its dimensions. -/
def SizeExact (s : NnSize3D) (z y x : Nat) : Prop :=
  s.length = z * y * x ∧ s.nBytes = getBytes s.floatType (z * y * x) ∧
    s.nBytesXY = getBytes s.floatType (y * x)

theorem checkSize_ok {s s' : NnSize3D} (h : checkSize s = .ok s') :
    s' = s ∧ s.floatType ≠ .unk := by
  rw [checkSize] at h
  rcases bind_eq_ok h with ⟨u, hbytes, h⟩
  rcases bind_eq_ok h with ⟨u', -, h⟩
  refine ⟨(Except.ok.inj h).symm, fun hunk => ?_⟩
  rw [hunk] at hbytes
  cases hbytes

theorem size3D_exact_iff {floatType : NnFloatType} {z y x : Nat} {s : NnSize3D}
    (h : checkSize (size3D floatType z y x) = .ok s) :
    SizeExact s z y x ↔ z * y * x < 2 ^ 32 ∧ y * x < 2 ^ 32 := by
  rcases checkSize_ok h with ⟨rfl, hunk⟩
  simp only [SizeExact, size3D, u32_eq_iff, getBytes_u32_eq_iff (show floatType ≠ .unk from hunk)]
  exact ⟨fun h => ⟨h.1, h.2.2⟩, fun h => ⟨h.1, h.1, h.2⟩⟩

theorem mem_loadSlices {l : NnRootWeightLoader} {owner : Option Nat} {expertIndex tpSize : Nat}
    {sliceSize : NnSize3D} {load : NnRootWeightLoader.SliceLoad}
    (h : load ∈ l.loadSlices owner expertIndex tpSize sliceSize) :
    load.offset = u32 (expertIndex * sliceSize.nBytes) := by
  rw [NnRootWeightLoader.loadSlices] at h
  split_ifs at h
  · rw [List.mem_singleton.1 h]
  · rcases List.mem_map.1 h with ⟨node, -, rfl⟩
    rfl

theorem loadSlices_exact_iff {l : NnRootWeightLoader} {owner : Option Nat}
    {expertIndex tpSize : Nat} {sliceSize : NnSize3D} :
    (∀ load ∈ l.loadSlices owner expertIndex tpSize sliceSize,
        load.offset = expertIndex * sliceSize.nBytes) ↔
      l.loadSlices owner expertIndex tpSize sliceSize = [] ∨
        expertIndex * sliceSize.nBytes < 2 ^ 32 := by
  constructor
  · intro h
    cases hloads : l.loadSlices owner expertIndex tpSize sliceSize with
    | nil => exact .inl rfl
    | cons load loads =>
        have hmem : load ∈ l.loadSlices owner expertIndex tpSize sliceSize := by
          rw [hloads]
          exact List.mem_cons_self
        exact .inr (u32_eq_iff.1 ((mem_loadSlices hmem).symm.trans (h load hmem)))
  · rintro (hnil | hlt) load hload
    · rw [hnil] at hload
      cases hload
    · rw [mem_loadSlices hload, u32_of_lt hlt]

/-- `allocate` cuts the size to 32 bits, so its buffer holds a payload that fits into them. -/
theorem le_allocate_iff {tempSize : NnUint} {nBytes : NnSize} :
    nBytes.toNat ≤ (allocate tempSize nBytes.toUInt32).toNat ↔ nBytes.toNat < 2 ^ 32 :=
  ⟨fun h => Nat.lt_of_le_of_lt h (UInt32.toNat_lt _), le_allocate⟩

/-- The scores of a batch: `nHeads0 * seqLen` is an argument, so it is cut as well. -/
theorem attSize_exact_iff {nHeads seqLen nNodes nBatches : Nat} {att : NnMultiHeadAttSlice}
    (h : sliceMultiHeadAtt nHeads seqLen nNodes nBatches = .ok att) :
    att.attSize.length = nBatches * (att.nHeads0 * seqLen) ↔
      nBatches * (att.nHeads0 * seqLen) < 2 ^ 32 := by
  rw [sliceMultiHeadAtt] at h
  rcases bind_eq_ok h with ⟨u, -, h⟩
  cases h
  have hlength : u32 (1 * nBatches * u32 (nHeads / nNodes * seqLen))
      = u32 (nBatches * (nHeads / nNodes * seqLen)) := by
    rw [Nat.one_mul, u32, u32, u32, Nat.mul_mod_mod]
  simp only [size2D, size3D, hlength]
  exact u32_eq_iff

/-- Sizes and offsets are exact where no product overflows, and the buffer of a worker is large
enough for what is less than 4 GiB. -/
theorem sizes_exact_iff (floatType : NnFloatType) (z y x nHeads seqLen nNodes nBatches : Nat)
    (l : NnRootWeightLoader) (opName : OpName) (opIndex expertIndex : Nat)
    (rowSlice : NnRowMatmulSlice) (colSlice : NnColMatmulSlice) (overridePpRank : Option Nat)
    (tempSize : NnUint) (nBytes : NnSize) :
    (∀ s, checkSize (size3D floatType z y x) = .ok s →
      (SizeExact s z y x ↔ z * y * x < 2 ^ 32 ∧ y * x < 2 ^ 32)) ∧
    (∀ att, sliceMultiHeadAtt nHeads seqLen nNodes nBatches = .ok att →
      (att.attSize.length = nBatches * (att.nHeads0 * seqLen) ↔
        nBatches * (att.nHeads0 * seqLen) < 2 ^ 32)) ∧
    ((∀ load ∈ (l.loadRowMatmulSlices opName opIndex expertIndex rowSlice).1,
        load.offset = expertIndex * rowSlice.sliceSize.nBytes) ↔
      (l.loadRowMatmulSlices opName opIndex expertIndex rowSlice).1 = [] ∨
        expertIndex * rowSlice.sliceSize.nBytes < 2 ^ 32) ∧
    ((∀ load ∈ (l.loadColMatmulSlices opName opIndex expertIndex colSlice overridePpRank).1,
        load.offset = expertIndex * colSlice.sliceSize.nBytes) ↔
      (l.loadColMatmulSlices opName opIndex expertIndex colSlice overridePpRank).1 = [] ∨
        expertIndex * colSlice.sliceSize.nBytes < 2 ^ 32) ∧
    (nBytes.toNat ≤ (allocate tempSize nBytes.toUInt32).toNat ↔ nBytes.toNat < 2 ^ 32) :=
  ⟨fun _ => size3D_exact_iff, fun _ => attSize_exact_iff, loadSlices_exact_iff,
    loadSlices_exact_iff, le_allocate_iff⟩

/-- A slice of 2³⁰ floats, whose bytes do not fit into 32 bits. -/
def largeSlice : NnRowMatmulSlice :=
  ⟨.f32, 1, 32768, 32768, size2D .f32 32768 32768, size2D .f32 32768 32768⟩

def largeColSlice : NnColMatmulSlice :=
  ⟨.f32, 1, 32768, 32768, 32768, size2D .f32 32768 32768, size2D .f32 32768 32768⟩

def oneNode : NnRootWeightLoader :=
  ⟨1, 1, 1, []⟩

theorem sizes_exact_iff_large :
    (SizeExact (size3D .f32 1 32768 32768) 1 32768 32768 ↔
      1 * 32768 * 32768 < 2 ^ 32 ∧ 32768 * 32768 < 2 ^ 32) ∧
    ((∀ load ∈ (oneNode.loadRowMatmulSlices .blockMatmulW1 0 0 largeSlice).1,
        load.offset = 0 * largeSlice.sliceSize.nBytes) ↔
      (oneNode.loadRowMatmulSlices .blockMatmulW1 0 0 largeSlice).1 = [] ∨
        0 * largeSlice.sliceSize.nBytes < 2 ^ 32) :=
  have hexact := sizes_exact_iff .f32 1 32768 32768 32 1024 4 1 oneNode .blockMatmulW1 0 0
    largeSlice largeColSlice none 0 0
  ⟨hexact.1 _ rfl, hexact.2.2.1⟩

/-- A batch of 65536 rows of 65536 floats has length 0; expert 1 of the large slices is loaded over
expert 0; and for a payload of 4 GiB the worker takes no buffer. -/
theorem sizes_wrap :
    ¬SizeExact (size3D .f32 1 65536 65536) 1 65536 65536 ∧
    (¬∀ load ∈ (oneNode.loadRowMatmulSlices .blockMatmulW1 0 1 largeSlice).1,
      load.offset = 1 * largeSlice.sliceSize.nBytes) ∧
    ¬(0x100000000 : NnSize).toNat ≤ (allocate 0 (0x100000000 : NnSize).toUInt32).toNat := by
  refine ⟨fun h => absurd h.1 (by decide), fun h => ?_, by decide⟩
  exact absurd (h ⟨0, 0, 0, 2 ^ 32⟩ (by decide)) (by decide)

end Network
end PrefillOpt
