import Mathlib.Algebra.BigOperators.Intervals
import Mathlib.Algebra.BigOperators.Ring.Finset
import Mathlib.Tactic.IntervalCases
import PrefillOpt.Graph.Slices
import PrefillOpt.Lib.BlockSplit
import PrefillOpt.Lib.Memory
import PrefillOpt.Topology

/-!
# MatmulSlices — tensor-parallel weights and the products they give

`nn-core.cpp`, the splitters; `nn-cpu.cpp`, `resolvePointer`; `nn-cpu-ops.cpp`, the two matmul
kernels.  A weight is `d` rows of `n` elements in quantisation blocks.  A row slice holds `d / tp`
whole rows, a column slice `n / tp` elements of every row.
-/

namespace PrefillOpt

open Lib

variable {β : Type}

/-! ## The splitters -/

/-- The new contents of `weight0` and the bytes copied, with the asserts as errors. -/
def splitRowMatmulWeight (s : NnRowMatmulSlice) (nodeIndex : Nat) (weight weight0 : Mem β) :
    Except String (Mem β × Nat) := do
  if s.type = .unk then throw "Unsupported float type"
  let blockSize := getBlockSize s.type
  let batchBytes := getBytes s.type blockSize
  assertThat (s.n % blockSize == 0) "slice->n % blockSize == 0"
  let n := s.n / blockSize
  -- the first product is formed in `NnUint`
  let offset := u32 (s.d0 * nodeIndex) * n * batchBytes
  let copies := (List.range s.d0).flatMap fun d => (List.range n).map fun j =>
    let o := (d * n + j) * batchBytes
    (o, weight.slice (offset + o) batchBytes)
  return (weight0.stores copies, u32 (s.d0 * (n * batchBytes)))

def splitColMatmulWeight (s : NnColMatmulSlice) (nodeIndex : Nat) (weight weight0 : Mem β) :
    Except String (Mem β × Nat) := do
  if s.type = .unk then throw "Unsupported float type"
  let blockSize := getBlockSize s.type
  let batchBytes := getBytes s.type blockSize
  assertThat (s.n0 % blockSize == 0) "slice->n0 % blockSize == 0"
  let n := s.n / blockSize
  let rowBytes := n * batchBytes
  let row0Bytes := s.n0 / blockSize * batchBytes
  let rowOffsetBytes := nodeIndex * row0Bytes
  let copies := (List.range s.d).map fun d =>
    (row0Bytes * d, weight.slice (rowBytes * d + rowOffsetBytes) row0Bytes)
  return (weight0.stores copies, u32 (s.d * row0Bytes))

/-! ## Pointers -/

/-- `resolvePointer`: the size the op sees and the offsets of its rows in the source, for a node
whose TP group and rank are given. -/
def resolvePointer (sourceSize : NnSize3D) (nBatches : Nat) (placement : NnNodePlacement)
    (type : NnPointerType) : Except String (NnSize3D × List Nat) := do
  match type with
  | .raw =>
      let size ← checkSize (size1D sourceSize.floatType sourceSize.length)
      return (size, [0])
  | .batch | .batchedSlice =>
      assertThat (sourceSize.y == nBatches) "sourceSize->y == netConfig->nBatches"
      checkBytes sourceSize.floatType sourceSize.x
      let batchBytes := getBytes sourceSize.floatType sourceSize.x
      let pntr := (List.range (sourceSize.z * sourceSize.y)).map (· * batchBytes)
      if type = .batchedSlice then
        let tpSize := placement.tpGroupEnd - placement.tpGroupStart
        assertThat (sourceSize.x % tpSize == 0) "sourceSize->x % tpSize == 0"
        let xSlice := sourceSize.x / tpSize
        checkBytes sourceSize.floatType xSlice
        let xSliceBytes := getBytes sourceSize.floatType xSlice
        let size ← checkSize (size3D sourceSize.floatType sourceSize.z sourceSize.y xSlice)
        return (size, pntr.map (· + xSliceBytes * placement.tpRank))
      else return (sourceSize, pntr)

/-! ## The kernels -/

/-- Exact values of floats in memory, in any commutative ring. -/
structure ExactFloats (R : Type) where
  loadF32 : List UInt8 → R
  /-- `CONVERT_F16_TO_F32` of two bytes. -/
  loadF16 : List UInt8 → R

def int8Value (b : UInt8) : Int :=
  if b.toNat < 128 then b.toNat else b.toNat - 256

section Kernels

variable {R : Type} [CommRing R] (e : ExactFloats R)

/-- `w[i * n + j] * x[j]` of two floats. -/
def dotF32 (w x : List UInt8) : R :=
  e.loadF32 w * e.loadF32 x

/-- One block of weights against one block of inputs: two bytes of scale, then the quants. -/
def dotQ40Q80 (w x : List UInt8) : R :=
  let s := e.loadF16 (w.take 2) * e.loadF16 (x.take 2)
  let wqs := w.drop 2
  let xqs := x.drop 2
  ∑ k ∈ Finset.range 16,
    (let w0 : Int := (wqs.getD k 0).toNat % 16 - 8
     let w1 : Int := (wqs.getD k 0).toNat / 16 - 8
     let i1 := int8Value (xqs.getD k 0)
     let i2 := int8Value (xqs.getD (k + 16) 0)
     ((w0 * i1 + w1 * i2 : Int) : R) * s)

/-- The row loop both kernels share: `nBlocks` weight blocks of a row against those of the input. -/
def blockRow (dot : List UInt8 → List UInt8 → R) (wBytes xBytes nBlocks : Nat) (x w : Mem UInt8)
    (i : Nat) : R :=
  ∑ j ∈ Finset.range nBlocks,
    dot (w.slice ((i * nBlocks + j) * wBytes) wBytes) (x.slice (j * xBytes) xBytes)

/-- The index of a number of the weight, `i * n + j`, is an `NnUint` in the source and exact where
the weight has at most `2 ^ 32` numbers; `size3D` keeps their count within `NnUint`. -/
def matmul_F32_F32_F32 (x w : Mem UInt8) (n d : Nat) : List R :=
  (List.range d).map fun i => blockRow (dotF32 e) 4 4 n x w i

/-- The index of a block of the weight is an `NnUint` likewise: exact where the weight has at most
`2 ^ 32` blocks. -/
def matmul_Q80_Q40_F32 (x w : Mem UInt8) (n d : Nat) : List R :=
  (List.range d).map fun i => blockRow (dotQ40Q80 e) 18 34 (n / 32) x w i

/-- The kernel for a weight type, and the type of its input. -/
def matmul (weightType : NnFloatType) (x w : Mem UInt8) (n d : Nat) : List R :=
  if weightType = .q40 then matmul_Q80_Q40_F32 e x w n d else matmul_F32_F32_F32 e x w n d

def matmulInputType (weightType : NnFloatType) : NnFloatType :=
  if weightType = .q40 then .q80 else .f32

end Kernels

/-! ## What the splitters copy -/

theorem splitRow_ok {s : NnRowMatmulSlice} {r : Nat} {weight weight0 out : Mem β} {copied : Nat}
    (h : splitRowMatmulWeight s r weight weight0 = .ok (out, copied)) :
    s.type ≠ .unk ∧ s.n % getBlockSize s.type = 0 ∧
      ∀ i < s.d0 * (s.n / getBlockSize s.type * getBytes s.type (getBlockSize s.type)),
        out i = weight (u32 (s.d0 * r) * (s.n / getBlockSize s.type)
          * getBytes s.type (getBlockSize s.type) + i) := by
  unfold splitRowMatmulWeight at h
  split_ifs at h with hunk
  · cases h
  by_cases hmod : s.n % getBlockSize s.type = 0
  swap
  · simp [assertThat, hmod, bind, Except.bind] at h
  simp only [assertThat, hmod, beq_self_eq_true, if_true, bind, Except.bind, pure, Except.pure,
    Except.ok.injEq, Prod.mk.injEq] at h
  refine ⟨hunk, hmod, fun i hi => ?_⟩
  rcases h with ⟨rfl, -⟩
  generalize s.n / getBlockSize s.type = n at *
  generalize getBytes s.type (getBlockSize s.type) = bytes at *
  have hpos : 0 < n * bytes := by
    refine Nat.pos_of_ne_zero fun h0 => ?_
    rw [h0, Nat.mul_zero] at hi
    exact Nat.not_lt_zero _ hi
  have hbytes : 0 < bytes := Nat.pos_of_mul_pos_left hpos
  refine Mem.stores_apply_eq ?_ (.inr ?_)
  · intro w hw hle hlt
    simp only [List.mem_flatMap, List.mem_range, List.mem_map] at hw
    rcases hw with ⟨d, -, j, -, rfl⟩
    simp only [Mem.slice_length] at hle hlt ⊢
    rw [List.getElem?_eq_getElem (by simp only [Mem.slice_length]; omega), Mem.slice_getElem]
    congr 2
    omega
  · -- the block that holds byte `i`
    have hblock : i / bytes < s.d0 * n := by
      refine Nat.div_lt_of_lt_mul ?_
      rw [Nat.mul_comm, Nat.mul_assoc]
      exact hi
    have hn : 0 < n := Nat.pos_of_mul_pos_right hpos
    have hsplit := Nat.div_add_mod (i / bytes) n
    have hrow : i / bytes / n < s.d0 := Nat.div_lt_of_lt_mul (by rwa [Nat.mul_comm])
    refine ⟨_, List.mem_flatMap.mpr ⟨i / bytes / n, List.mem_range.mpr hrow,
      List.mem_map.mpr ⟨i / bytes % n, List.mem_range.mpr (Nat.mod_lt _ hn), rfl⟩⟩, ?_⟩
    simp only [Mem.slice_length]
    rw [Nat.mul_comm (i / bytes / n), hsplit]
    have hlow := Nat.div_mul_le_self i bytes
    have hhigh := Nat.lt_div_mul_add hbytes (a := i)
    exact ⟨hlow, hhigh⟩

theorem splitCol_ok {s : NnColMatmulSlice} {r : Nat} {weight weight0 out : Mem β} {copied : Nat}
    (h : splitColMatmulWeight s r weight weight0 = .ok (out, copied)) :
    s.type ≠ .unk ∧ s.n0 % getBlockSize s.type = 0 ∧
      ∀ d < s.d, ∀ i < s.n0 / getBlockSize s.type * getBytes s.type (getBlockSize s.type),
        out (s.n0 / getBlockSize s.type * getBytes s.type (getBlockSize s.type) * d + i)
          = weight (s.n / getBlockSize s.type * getBytes s.type (getBlockSize s.type) * d
            + r * (s.n0 / getBlockSize s.type * getBytes s.type (getBlockSize s.type)) + i) := by
  unfold splitColMatmulWeight at h
  split_ifs at h with hunk
  · cases h
  by_cases hmod : s.n0 % getBlockSize s.type = 0
  swap
  · simp [assertThat, hmod, bind, Except.bind] at h
  simp only [assertThat, hmod, beq_self_eq_true, if_true, bind, Except.bind, pure, Except.pure,
    Except.ok.injEq, Prod.mk.injEq] at h
  refine ⟨hunk, hmod, fun d hd i hi => ?_⟩
  rcases h with ⟨rfl, -⟩
  generalize s.n0 / getBlockSize s.type * getBytes s.type (getBlockSize s.type) = row0 at *
  generalize s.n / getBlockSize s.type * getBytes s.type (getBlockSize s.type) = row at *
  refine Mem.stores_apply_eq ?_ (.inr ?_)
  · intro w hw hle hlt
    simp only [List.mem_map, List.mem_range] at hw
    rcases hw with ⟨d', -, rfl⟩
    simp only [Mem.slice_length] at hle hlt ⊢
    -- the rows of the slice do not overlap
    have hdiv : ∀ k j, j < row0 → (row0 * k + j) / row0 = k := fun k j hj => by
      rw [Nat.mul_add_div (by omega), Nat.div_eq_of_lt hj, Nat.add_zero]
    have hj : row0 * d + i - row0 * d' < row0 := by omega
    have hsame : row0 * d + i = row0 * d' + (row0 * d + i - row0 * d') := by omega
    have hd' : d = d' := by
      rw [← hdiv d i hi, hsame, hdiv d' _ hj]
    subst hd'
    rw [List.getElem?_eq_getElem (by simp only [Mem.slice_length]; omega), Mem.slice_getElem,
      Nat.add_sub_cancel_left]
  · refine ⟨_, List.mem_map.mpr ⟨d, List.mem_range.mpr hd, rfl⟩, ?_⟩
    simp only [Mem.slice_length]
    omega

/-! ## Slices as blocks of the whole -/

theorem sliceRowMatmul_ok {type : NnFloatType} {tp n d : Nat} {s : NnRowMatmulSlice}
    (h : sliceRowMatmul type tp n d = .ok s) :
    s.type = type ∧ s.n = n ∧ s.d0 = d / tp ∧ d % tp = 0 := by
  by_cases hmod : d % tp = 0
  swap
  · simp [sliceRowMatmul, assertThat, hmod, bind, Except.bind] at h
  simp only [sliceRowMatmul, assertThat, hmod, beq_self_eq_true, if_true, bind, Except.bind] at h
  split at h
  · cases h
  split at h
  · cases h
  · cases h
    exact ⟨rfl, rfl, rfl, hmod⟩

theorem sliceColMatmul_ok {type : NnFloatType} {tp n d : Nat} {s : NnColMatmulSlice}
    (h : sliceColMatmul type tp n d = .ok s) :
    s.type = type ∧ s.n = n ∧ s.n0 = n / tp ∧ s.d = d ∧ n % tp = 0 := by
  by_cases hmod : n % tp = 0
  swap
  · simp [sliceColMatmul, assertThat, hmod, bind, Except.bind] at h
  simp only [sliceColMatmul, assertThat, hmod, beq_self_eq_true, if_true, bind, Except.bind] at h
  split at h
  · cases h
  split at h
  · cases h
  · cases h
    exact ⟨rfl, rfl, rfl, rfl, hmod⟩

namespace Lib.Mem

/-- The blocks of a buffer, one after the other. -/
theorem slice_blocks (m : Mem β) (off n k : Nat) :
    ((List.range n).flatMap fun r => m.slice (off + r * k) k) = m.slice off (n * k) := by
  have h := flatMap_blocks n k fun i => m (off + i)
  simpa only [slice, Nat.add_assoc] using h

end Lib.Mem

section Kernels

variable {R : Type} [CommRing R] (e : ExactFloats R)

def kernelDot (weightType : NnFloatType) : List UInt8 → List UInt8 → R :=
  if weightType = .q40 then dotQ40Q80 e else dotF32 e

/-- Both kernels are the block loop at the block sizes of their types. -/
theorem matmul_eq {type : NnFloatType} (htype : type = .f32 ∨ type = .q40) (x w : Mem UInt8)
    (n d : Nat) : matmul e type x w n d = (List.range d).map fun i =>
      blockRow (kernelDot e type) (getBytes type (getBlockSize type))
        (getBytes (matmulInputType type) (getBlockSize type)) (n / getBlockSize type) x w i := by
  rcases htype with rfl | rfl
  · have hn : n / getBlockSize .f32 = n := Nat.div_one n
    rw [hn]
    rfl
  · rfl

theorem blockRow_congr {dot : List UInt8 → List UInt8 → R} {wB xB nb : Nat} {x x' w w' : Mem UInt8}
    {i i' : Nat}
    (hx : ∀ j < nb, x.slice (j * xB) xB = x'.slice (j * xB) xB)
    (hw : ∀ j < nb, w.slice ((i * nb + j) * wB) wB = w'.slice ((i' * nb + j) * wB) wB) :
    blockRow dot wB xB nb x w i = blockRow dot wB xB nb x' w' i' := by
  refine Finset.sum_congr rfl fun j hj => ?_
  rw [hx j (Finset.mem_range.mp hj), hw j (Finset.mem_range.mp hj)]

/-- Rank `r` of a row split holds rows `r * d0` to `r * d0 + d0`. -/
theorem blockRow_rowSlice {dot : List UInt8 → List UInt8 → R} {wB xB nb d0 r i : Nat}
    {x w w0 : Mem UInt8} (hi : i < d0)
    (h : ∀ k < d0 * (nb * wB), w0 k = w (r * (d0 * (nb * wB)) + k)) :
    blockRow dot wB xB nb x w0 i = blockRow dot wB xB nb x w (r * d0 + i) := by
  refine blockRow_congr (fun j _ => rfl) fun j hj => Mem.slice_congr fun k hk => ?_
  have hblock : i * nb + j + 1 ≤ d0 * nb := by
    calc i * nb + j + 1
        ≤ i * nb + nb := by omega
      _ = (i + 1) * nb := (Nat.succ_mul ..).symm
      _ ≤ d0 * nb := Nat.mul_le_mul_right _ hi
  have hbyte : (i * nb + j) * wB + k < d0 * (nb * wB) := by
    calc (i * nb + j) * wB + k
        < (i * nb + j) * wB + wB := by omega
      _ = (i * nb + j + 1) * wB := (Nat.succ_mul ..).symm
      _ ≤ d0 * nb * wB := Nat.mul_le_mul_right _ hblock
      _ = d0 * (nb * wB) := Nat.mul_assoc ..
  rw [h _ hbyte]
  congr 1
  ring

/-- Rank `r` of a column split holds blocks `r * nb0` to `r * nb0 + nb0` of every row; against the
same blocks of the input, the ranks add up to the whole row. -/
theorem sum_blockRow_colSlice {dot : List UInt8 → List UInt8 → R} {wB xB nb0 tp i : Nat}
    {x w : Mem UInt8} {xs ws : Nat → Mem UInt8}
    (hx : ∀ r < tp, ∀ k, xs r k = x (r * (nb0 * xB) + k))
    (hw : ∀ r < tp, ∀ k < nb0 * wB,
      ws r (nb0 * wB * i + k) = w (tp * nb0 * wB * i + r * (nb0 * wB) + k)) :
    ∑ r ∈ Finset.range tp, blockRow dot wB xB nb0 (xs r) (ws r) i
      = blockRow dot wB xB (tp * nb0) x w i := by
  unfold blockRow
  rw [← sum_blocks tp nb0]
  refine Finset.sum_congr rfl fun r hr => Finset.sum_congr rfl fun j hj => ?_
  have hr := Finset.mem_range.mp hr
  have hj := Finset.mem_range.mp hj
  have hxs : (xs r).slice (j * xB) xB = x.slice ((r * nb0 + j) * xB) xB := by
    refine Mem.slice_congr fun k _ => ?_
    rw [hx r hr]
    congr 1
    ring
  have hws : (ws r).slice ((i * nb0 + j) * wB) wB
      = w.slice ((i * (tp * nb0) + (r * nb0 + j)) * wB) wB := by
    refine Mem.slice_congr fun k hk => ?_
    have hbyte : j * wB + k < nb0 * wB := by
      calc j * wB + k
          < j * wB + wB := by omega
        _ = (j + 1) * wB := (Nat.succ_mul ..).symm
        _ ≤ nb0 * wB := Nat.mul_le_mul_right _ hj
    have hat : (i * nb0 + j) * wB + k = nb0 * wB * i + (j * wB + k) := by ring
    rw [hat, hw r hr _ hbyte]
    congr 1
    ring
  rw [hxs, hws]

end Kernels

/-! ## Pointers to slices -/

theorem resolvePointer_batch {source : NnSize3D} {nBatches : Nat} {p : NnNodePlacement}
    {size : NnSize3D} {ps : List Nat}
    (h : resolvePointer source nBatches p .batch = .ok (size, ps)) :
    ps = (List.range (source.z * source.y)).map (· * getBytes source.floatType source.x) := by
  simp only [resolvePointer, bind, Except.bind, pure, Except.pure] at h
  split at h
  · cases h
  split at h
  · cases h
  cases h
  rfl

/-- The pointer of TP rank `r` is `r` slices into the row. -/
theorem resolvePointer_batchedSlice {source : NnSize3D} {nBatches : Nat} {p : NnNodePlacement}
    {size : NnSize3D} {ps : List Nat}
    (h : resolvePointer source nBatches p .batchedSlice = .ok (size, ps)) :
    ps = (List.range (source.z * source.y)).map fun k =>
      k * getBytes source.floatType source.x
        + getBytes source.floatType (source.x / (p.tpGroupEnd - p.tpGroupStart)) * p.tpRank := by
  simp only [resolvePointer, bind, Except.bind, pure, Except.pure] at h
  split at h
  · cases h
  split at h
  · cases h
  simp only [if_true] at h
  split at h
  · cases h
  split at h
  · cases h
  split at h
  · cases h
  cases h
  simp

/-! ## The distributed products -/

/-- Whole blocks of a type with a kernel. -/
theorem getBytes_blocks {type : NnFloatType} (htype : type = .f32 ∨ type = .q40) (n : Nat) :
    n / getBlockSize type * getBytes type (getBlockSize type) = getBytes type n ∧
      n / getBlockSize type * getBytes (matmulInputType type) (getBlockSize type)
        = getBytes (matmulInputType type) n := by
  rcases htype with rfl | rfl
  · have hn : n / getBlockSize .f32 = n := Nat.div_one n
    rw [hn]
    exact ⟨rfl, rfl⟩
  · exact ⟨rfl, rfl⟩

section Kernels

variable {R : Type} [CommRing R] (e : ExactFloats R) (t : NnParallelTopology)
variable {type : NnFloatType} {n d : Nat} {weight : Mem UInt8}

/-- The row slices are the weight, and their products are the product. -/
theorem rowSlices_exact (htype : type = .f32 ∨ type = .q40) (hd : d < 2 ^ 32)
    {s : NnRowMatmulSlice} (hs : sliceRowMatmul type t.tpSize n d = .ok s)
    {init out : Nat → Mem UInt8} {copied : Nat → Nat}
    (hsplit : ∀ r < t.tpSize,
      splitRowMatmulWeight s r weight (init r) = .ok (out r, copied r)) :
    ((List.range t.tpSize).flatMap fun r => (out r).slice 0 (s.d0 * getBytes type n))
        = weight.slice 0 (d * getBytes type n) ∧
      ∀ x, ((List.range t.tpSize).flatMap fun r => matmul e type x (out r) n s.d0)
        = matmul e type x weight n d := by
  rcases sliceRowMatmul_ok hs with ⟨htp, hn, hd0, hmod⟩
  have hwhole : t.tpSize * s.d0 = d := by
    rw [hd0, Nat.mul_div_cancel' (Nat.dvd_of_mod_eq_zero hmod)]
  have hbytes := getBytes_blocks htype n
  have hcopy : ∀ r < t.tpSize, ∀ i < s.d0 * getBytes type n,
      out r i = weight (r * (s.d0 * getBytes type n) + i) := by
    intro r hr i hi
    have hok := (splitRow_ok (hsplit r hr)).2.2
    rw [htp, hn, hbytes.1] at hok
    have hwrap : u32 (s.d0 * r) = s.d0 * r := by
      refine u32_of_lt (lt_of_le_of_lt ?_ hd)
      rw [← hwhole, Nat.mul_comm]
      exact Nat.mul_le_mul_right _ hr.le
    rw [hok i hi, hwrap, Nat.mul_assoc, hbytes.1]
    congr 1
    ring
  constructor
  · have hslices : ∀ r ∈ List.range t.tpSize, (out r).slice 0 (s.d0 * getBytes type n)
        = weight.slice (0 + r * (s.d0 * getBytes type n)) (s.d0 * getBytes type n) := by
      intro r hr
      refine Mem.slice_congr fun i hi => ?_
      rw [Nat.zero_add, Nat.zero_add, hcopy r (List.mem_range.mp hr) i hi]
    rw [List.flatMap_congr hslices, Mem.slice_blocks, ← Nat.mul_assoc, hwhole]
  · intro x
    rw [matmul_eq e htype, ← hwhole, ← flatMap_blocks]
    refine List.flatMap_congr fun r hr => ?_
    rw [matmul_eq e htype]
    refine List.map_congr_left fun i hi => ?_
    refine blockRow_rowSlice (List.mem_range.mp hi) ?_
    rw [hbytes.1]
    exact hcopy r (List.mem_range.mp hr)

/-- The column slices are the weight row by row; against the ranks' slices of the input, their
products add up to the product. -/
theorem colSlices_exact (htype : type = .f32 ∨ type = .q40)
    {s : NnColMatmulSlice} (hs : sliceColMatmul type t.tpSize n d = .ok s)
    {init out : Nat → Mem UInt8} {copied : Nat → Nat}
    (hsplit : ∀ r < t.tpSize,
      splitColMatmulWeight s r weight (init r) = .ok (out r, copied r))
    {source : NnSize3D} (hsource : source.floatType = matmulInputType type) (hx : source.x = n)
    {nBatches : Nat} {p : Nat → NnNodePlacement}
    (hp : ∀ r < t.tpSize,
      (p r).tpRank = r ∧ (p r).tpGroupEnd = (p r).tpGroupStart + t.tpSize)
    {size : NnSize3D} {ps : List Nat} {sizes : Nat → NnSize3D} {pss : Nat → List Nat}
    (hbatch : ∀ r < t.tpSize, resolvePointer source nBatches (p r) .batch = .ok (size, ps))
    (hslice : ∀ r < t.tpSize,
      resolvePointer source nBatches (p r) .batchedSlice = .ok (sizes r, pss r)) :
    (∀ i < d, ((List.range t.tpSize).flatMap fun r =>
          (out r).slice (getBytes type s.n0 * i) (getBytes type s.n0))
        = weight.slice (getBytes type n * i) (getBytes type n)) ∧
      ∀ (x : Mem UInt8) (k : Nat), k < ps.length → ∀ i < d,
        ∑ r ∈ Finset.range t.tpSize,
            (matmul e type (fun b => x ((pss r).getD k 0 + b)) (out r) s.n0 d).getD i 0
          = (matmul e type (fun b => x (ps.getD k 0 + b)) weight n d).getD i 0 := by
  rcases sliceColMatmul_ok hs with ⟨htp, hn, hn0, hsd, hmod⟩
  have hwhole : t.tpSize * s.n0 = n := by
    rw [hn0, Nat.mul_div_cancel' (Nat.dvd_of_mod_eq_zero hmod)]
  have hblocks : s.n0 % getBlockSize type = 0 := by
    have h := (splitCol_ok (hsplit 0 t.tpSize_pos)).2.1
    rwa [htp] at h
  have hcount : n / getBlockSize type = t.tpSize * (s.n0 / getBlockSize type) := by
    rw [← hwhole, Nat.mul_div_assoc _ (Nat.dvd_of_mod_eq_zero hblocks)]
  have hbytes := getBytes_blocks htype
  have hrow : getBytes type n = t.tpSize * getBytes type s.n0 := by
    rw [← (hbytes n).1, ← (hbytes s.n0).1, hcount, Nat.mul_assoc]
  have hcopy : ∀ r < t.tpSize, ∀ i < d, ∀ k < getBytes type s.n0,
      out r (getBytes type s.n0 * i + k)
        = weight (getBytes type n * i + r * getBytes type s.n0 + k) := by
    intro r hr i hi k hk
    have hok := (splitCol_ok (hsplit r hr)).2.2
    rw [htp, hn, (hbytes s.n0).1, (hbytes n).1] at hok
    exact hok i (hsd ▸ hi) k hk
  refine ⟨fun i hi => ?_, fun x k hk i hi => ?_⟩
  · have hslices : ∀ r ∈ List.range t.tpSize,
        (out r).slice (getBytes type s.n0 * i) (getBytes type s.n0)
          = weight.slice (getBytes type n * i + r * getBytes type s.n0)
            (getBytes type s.n0) := by
      intro r hr
      exact Mem.slice_congr fun k hk => hcopy r (List.mem_range.mp hr) i hi k hk
    rw [List.flatMap_congr hslices, Mem.slice_blocks, ← hrow]
  · have hps := resolvePointer_batch (hbatch 0 t.tpSize_pos)
    have hk' : k < source.z * source.y := by simpa [hps] using hk
    -- where the pointers of the whole row and of the slices lead
    have hat : ps.getD k 0 = k * getBytes source.floatType source.x := by
      simp [hps, hk']
    have hats : ∀ r < t.tpSize, (pss r).getD k 0
        = ps.getD k 0 + r * (s.n0 / getBlockSize type
          * getBytes (matmulInputType type) (getBlockSize type)) := by
      intro r hr
      have hpr := hp r hr
      have hpss := resolvePointer_batchedSlice (hslice r hr)
      rw [hpr.1, hpr.2, Nat.add_sub_cancel_left, hx, ← hn0, hsource] at hpss
      rw [hat, hsource, hx, (hbytes s.n0).2, hpss]
      simp [hk', Nat.mul_comm]
    have hget : ∀ (y w : Mem UInt8) (m : Nat), (matmul e type y w m d).getD i 0
        = blockRow (kernelDot e type) (getBytes type (getBlockSize type))
          (getBytes (matmulInputType type) (getBlockSize type)) (m / getBlockSize type) y w i := by
      intro y w m
      rw [matmul_eq e htype]
      simp [hi]
    simp only [hget]
    rw [hcount]
    refine sum_blockRow_colSlice ?_ ?_
    · intro r hr b
      rw [hats r hr, Nat.add_assoc]
    · intro r hr b hb
      rw [(hbytes s.n0).1] at hb
      rw [Nat.mul_assoc t.tpSize, (hbytes s.n0).1, ← hrow]
      exact hcopy r hr i hi b hb

/-- Tensor-parallel matmul slicing is exact for both splits of a weight: the slices put together
are the weight, and the distributed products are the product. -/
theorem matmul_slices_exact (htype : type = .f32 ∨ type = .q40) (hd : d < 2 ^ 32)
    {row : NnRowMatmulSlice} (hrow : sliceRowMatmul type t.tpSize n d = .ok row)
    {rowInit rowOut : Nat → Mem UInt8} {rowCopied : Nat → Nat}
    (hrowSplit : ∀ r < t.tpSize,
      splitRowMatmulWeight row r weight (rowInit r) = .ok (rowOut r, rowCopied r))
    {n' d' : Nat} {weight' : Mem UInt8}
    {col : NnColMatmulSlice} (hcol : sliceColMatmul type t.tpSize n' d' = .ok col)
    {colInit colOut : Nat → Mem UInt8} {colCopied : Nat → Nat}
    (hcolSplit : ∀ r < t.tpSize,
      splitColMatmulWeight col r weight' (colInit r) = .ok (colOut r, colCopied r))
    {source : NnSize3D} (hsource : source.floatType = matmulInputType type) (hx : source.x = n')
    {nBatches pp sp : Nat} (hsp : sp < t.spSize)
    {size : NnSize3D} {ps : List Nat} {sizes : Nat → NnSize3D} {pss : Nat → List Nat}
    (hbatch : ∀ r < t.tpSize, resolvePointer source nBatches
      (t.placement (t.rankAt pp sp r)) .batch = .ok (size, ps))
    (hslice : ∀ r < t.tpSize, resolvePointer source nBatches
      (t.placement (t.rankAt pp sp r)) .batchedSlice = .ok (sizes r, pss r)) :
    (((List.range t.tpSize).flatMap fun r => (rowOut r).slice 0 (row.d0 * getBytes type n))
        = weight.slice 0 (d * getBytes type n) ∧
      ∀ x, ((List.range t.tpSize).flatMap fun r => matmul e type x (rowOut r) n row.d0)
        = matmul e type x weight n d) ∧
    ((∀ i < d', ((List.range t.tpSize).flatMap fun r =>
          (colOut r).slice (getBytes type col.n0 * i) (getBytes type col.n0))
        = weight'.slice (getBytes type n' * i) (getBytes type n')) ∧
      ∀ (x : Mem UInt8) (k : Nat), k < ps.length → ∀ i < d',
        ∑ r ∈ Finset.range t.tpSize,
            (matmul e type (fun b => x ((pss r).getD k 0 + b)) (colOut r) col.n0 d').getD i 0
          = (matmul e type (fun b => x (ps.getD k 0 + b)) weight' n' d').getD i 0) := by
  have hplace : ∀ r < t.tpSize, (t.placement (t.rankAt pp sp r)).tpRank = r ∧
      (t.placement (t.rankAt pp sp r)).tpGroupEnd
        = (t.placement (t.rankAt pp sp r)).tpGroupStart + t.tpSize := fun r hr =>
    ⟨(t.placement_rankAt pp hsp hr).2.2, t.tpGroupEnd_eq _⟩
  exact ⟨rowSlices_exact e t htype hd hrow hrowSplit,
    colSlices_exact e t htype hcol hcolSplit hsource hx hplace hbatch hslice⟩

end Kernels

/-- Floats that are read off their first byte. -/
def firstByte : ExactFloats Int where
  loadF32 w := (w.getD 0 0).toNat
  loadF16 w := (w.getD 0 0).toNat

/-- Two ranks of one stage and a 2 by 2 weight. -/
theorem matmul_slices_exact_two_by_two :
    ∃ (row : NnRowMatmulSlice) (col : NnColMatmulSlice) (rowOut colOut : Nat → Mem UInt8)
      (ps : List Nat) (pss : Nat → List Nat),
    (((List.range 2).flatMap fun r => (rowOut r).slice 0 (row.d0 * getBytes .f32 2))
        = Mem.slice UInt8.ofNat 0 (2 * getBytes .f32 2) ∧
      ∀ x, ((List.range 2).flatMap fun r => matmul firstByte .f32 x (rowOut r) 2 row.d0)
        = matmul firstByte .f32 x UInt8.ofNat 2 2) ∧
    ((∀ i < 2, ((List.range 2).flatMap fun r =>
          (colOut r).slice (getBytes .f32 col.n0 * i) (getBytes .f32 col.n0))
        = Mem.slice UInt8.ofNat (getBytes .f32 2 * i) (getBytes .f32 2)) ∧
      ∀ (x : Mem UInt8) (k : Nat), k < ps.length → ∀ i < 2,
        ∑ r ∈ Finset.range 2,
            (matmul firstByte .f32 (fun b => x ((pss r).getD k 0 + b)) (colOut r) col.n0 2).getD i 0
          = (matmul firstByte .f32 (fun b => x (ps.getD k 0 + b)) UInt8.ofNat 2 2).getD i 0) := by
  have hslice : ∀ r < 2, resolvePointer (size2D .f32 1 2) 1
      (twoTpNodes.placement (twoTpNodes.rankAt 0 0 r)) .batchedSlice
        = .ok (size2D .f32 1 1, [4 * r]) := by
    intro r hr
    interval_cases r <;> rfl
  exact ⟨_, _, _, _, _, _, matmul_slices_exact firstByte twoTpNodes
    (.inl rfl) (by decide) (rfl : sliceRowMatmul .f32 2 2 2 = .ok _)
    (fun r _ => (rfl : splitRowMatmulWeight _ r UInt8.ofNat (fun _ => 0) = .ok (_, _)))
    (rfl : sliceColMatmul .f32 2 2 2 = .ok _)
    (fun r _ => (rfl : splitColMatmulWeight _ r UInt8.ofNat (fun _ => 0) = .ok (_, _)))
    rfl rfl (show 0 < 1 by decide) (fun r _ => (rfl : resolvePointer _ 1 _ _ = .ok (_, _)))
    hslice⟩

end PrefillOpt
