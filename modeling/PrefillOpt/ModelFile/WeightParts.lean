import PrefillOpt.ModelFile.Weights

/-!
# ModelFile.WeightParts — the part of a weight that a rank gets

A tensor of the file is a matrix of rows.  The ranks of a TP group share its rows, or the columns
of every row, or each of them takes the whole.  Every call sends each of its nodes the part of the
rank that the node has.
-/

namespace PrefillOpt
namespace ModelFile

open Lib (Mem)
open Network (NnRootWeightLoader)
open Network.NnRootWeightLoader (SliceLoad)

/-! ## Tensors and their parts -/

inductive WeightSplit where
  | whole
  | rows
  | columns
  deriving DecidableEq, Repr

/-- A weight: as many matrices of `d` rows with `n` elements as there are experts. -/
structure TensorShape where
  split : WeightSplit
  floatType : NnFloatType
  nExperts : Nat
  d : Nat
  n : Nat

namespace TensorShape

variable (s : TensorShape) (tpSize : Nat)

/-- The rows of a part, and the elements of a row of it. -/
def partD : Nat := if s.split = .rows then s.d / tpSize else s.d

def partN : Nat := if s.split = .columns then s.n / tpSize else s.n

/-- The bytes of one matrix in the file, and of its part. -/
def nBytes : Nat := getBytes s.floatType (s.n * s.d)

def partBytes : Nat := getBytes s.floatType (s.partN tpSize * s.partD tpSize)

/-- The part of a rank, cut out of the bytes of a matrix. -/
def part (rank : Nat) (bytes : List UInt8) : List UInt8 :=
  match s.split with
  | .whole => bytes
  | .rows => (bytes.drop (rank * s.partBytes tpSize)).take (s.partBytes tpSize)
  | .columns =>
      let rowBytes := getBytes s.floatType s.n
      let rowPartBytes := getBytes s.floatType (s.partN tpSize)
      (List.range s.d).flatMap fun i =>
        (bytes.drop (i * rowBytes + rank * rowPartBytes)).take rowPartBytes

/-- The ranks have equal shares. -/
def Even : Prop :=
  (s.split = .rows → s.d % tpSize = 0) ∧ (s.split = .columns → s.n % tpSize = 0)

instance : Decidable (s.Even tpSize) :=
  inferInstanceAs (Decidable (_ ∧ _))

/-- Every product that the loader and the graph builder form fits, and a part has whole blocks. -/
structure Fits : Prop where
  known : s.floatType ≠ .unk
  tensor : s.n * s.d < 2 ^ 32
  weight : s.nExperts * (s.partN tpSize * s.partD tpSize) < 2 ^ 32
  offset : (s.nExperts - 1) * s.partBytes tpSize < 2 ^ 32
  blocks : s.partN tpSize % getBlockSize s.floatType = 0

instance : Decidable (s.Fits tpSize) :=
  decidable_of_iff (s.floatType ≠ .unk ∧ s.n * s.d < 2 ^ 32 ∧
      s.nExperts * (s.partN tpSize * s.partD tpSize) < 2 ^ 32 ∧
      (s.nExperts - 1) * s.partBytes tpSize < 2 ^ 32 ∧
      s.partN tpSize % getBlockSize s.floatType = 0)
    ⟨fun h => ⟨h.1, h.2.1, h.2.2.1, h.2.2.2.1, h.2.2.2.2⟩,
      fun h => ⟨h.known, h.tensor, h.weight, h.offset, h.blocks⟩⟩

end TensorShape

/-! ## Bytes of whole blocks -/

theorem getBytes_mul {floatType : NnFloatType} {n : Nat}
    (h : n % getBlockSize floatType = 0) (k : Nat) :
    getBytes floatType (n * k) = k * getBytes floatType n := by
  have hblocks (hn : n % 32 = 0) : n * k / 32 = k * (n / 32) := by
    rw [Nat.mul_comm n k, Nat.mul_div_assoc k (Nat.dvd_of_mod_eq_zero hn)]
  cases floatType with
  | unk => rfl
  | f32 => simp only [getBytes]; ring
  | f16 => simp only [getBytes]; ring
  | q40 => simp only [getBytes, hblocks h]; ring
  | q80 => simp only [getBytes, hblocks h]; ring

theorem getBlockSize_ne_zero {floatType : NnFloatType} (h : floatType ≠ .unk) :
    getBlockSize floatType ≠ 0 := by
  cases floatType with
  | unk => exact absurd rfl h
  | f32 | f16 | q40 | q80 => exact Nat.succ_ne_zero _

theorem size3D_nBytes {floatType : NnFloatType} {z y x : Nat}
    (hblocks : y % getBlockSize floatType = 0) (hfits : z * (y * x) < 2 ^ 32) :
    (size3D floatType z y x).nBytes = z * getBytes floatType (y * x) := by
  have hprod : z * y * x = y * (x * z) := by ring
  have hfits' : z * y * x < 2 ^ 32 := by rwa [Nat.mul_assoc]
  simp only [size3D, u32_of_lt hfits']
  rw [hprod, getBytes_mul hblocks, getBytes_mul hblocks]
  ring

namespace TensorShape

variable {s : TensorShape} {tpSize : Nat}

/-- Whole blocks in every row of the whole, too. -/
theorem Fits.blocks_whole (h : s.Fits tpSize) (heven : s.Even tpSize) :
    s.n % getBlockSize s.floatType = 0 := by
  have hblocks := h.blocks
  unfold partN at hblocks
  split_ifs at hblocks with hcolumns
  · have hn := Nat.div_mul_cancel (Nat.dvd_of_mod_eq_zero (heven.2 hcolumns))
    have hdvd := (Nat.dvd_of_mod_eq_zero hblocks).mul_right tpSize
    rw [hn] at hdvd
    exact Nat.mod_eq_zero_of_dvd hdvd
  · exact hblocks

/-- What is behind the last whole row. -/
theorem nBytes_eq (h : s.Fits tpSize) (heven : s.Even tpSize) :
    s.nBytes = s.d * getBytes s.floatType s.n :=
  getBytes_mul (h.blocks_whole heven) s.d

theorem partBytes_eq (h : s.Fits tpSize) :
    s.partBytes tpSize = s.partD tpSize * getBytes s.floatType (s.partN tpSize) :=
  getBytes_mul h.blocks _

theorem nBytes_of_whole (hsplit : s.split = .whole) : s.partBytes tpSize = s.nBytes := by
  rw [partBytes, nBytes, partN, partD, hsplit, if_neg (by decide), if_neg (by decide)]

end TensorShape

/-! ## Reading parts out of the file -/

theorem memOf_slice {bytes : List UInt8} {off k : Nat} (h : off + k ≤ bytes.length) :
    (memOf bytes).slice off k = (bytes.drop off).take k := by
  apply List.ext_getElem
  · rw [Mem.slice_length, List.length_take, List.length_drop, Nat.min_eq_left (by omega)]
  · intro i hi hi'
    rw [Mem.slice_length] at hi
    rw [Mem.slice_getElem, List.getElem_take, List.getElem_drop, memOf,
      List.getD_eq_getElem _ _ (by omega)]

theorem memOf_slice_whole (bytes : List UInt8) :
    (memOf bytes).slice 0 bytes.length = bytes := by
  rw [memOf_slice (Nat.zero_add _).le, List.drop_zero, List.take_length]

/-! ## Slices -/

/-- What the slicers return. -/
def rowSlice (type : NnFloatType) (tpSize n d : Nat) : NnRowMatmulSlice :=
  ⟨type, tpSize, d / tpSize, n, size2D type n d, size2D type n (d / tpSize)⟩

def colSlice (type : NnFloatType) (tpSize n d : Nat) : NnColMatmulSlice :=
  ⟨type, tpSize, n, n / tpSize, d, size2D type n d, size2D type (n / tpSize) d⟩

theorem sliceRowMatmul_eq {type : NnFloatType} {tpSize n d : Nat} {s : NnRowMatmulSlice}
    (h : sliceRowMatmul type tpSize n d = .ok s) :
    s = rowSlice type tpSize n d ∧ d % tpSize = 0 := by
  rcases bind_eq_ok h with ⟨_, hmod, h⟩
  rcases bind_eq_ok h with ⟨size, hsize, h⟩
  rcases bind_eq_ok h with ⟨sliceSize, hslice, h⟩
  cases h
  rw [(Network.checkSize_ok hsize).1, (Network.checkSize_ok hslice).1]
  exact ⟨rfl, by simpa using assertThat_eq_ok hmod⟩

theorem sliceColMatmul_eq {type : NnFloatType} {tpSize n d : Nat} {s : NnColMatmulSlice}
    (h : sliceColMatmul type tpSize n d = .ok s) :
    s = colSlice type tpSize n d ∧ n % tpSize = 0 := by
  rcases bind_eq_ok h with ⟨_, hmod, h⟩
  rcases bind_eq_ok h with ⟨size, hsize, h⟩
  rcases bind_eq_ok h with ⟨sliceSize, hslice, h⟩
  cases h
  rw [(Network.checkSize_ok hsize).1, (Network.checkSize_ok hslice).1]
  exact ⟨rfl, by simpa using assertThat_eq_ok hmod⟩

/-- The splitters do not fail on known types with whole blocks. -/
theorem splitRowMatmulWeight_ok {s : NnRowMatmulSlice} (hknown : s.type ≠ .unk)
    (hblocks : s.n % getBlockSize s.type = 0) (nodeIndex : Nat) (weight weight0 : Mem UInt8) :
    ∃ out copied, splitRowMatmulWeight s nodeIndex weight weight0 = .ok (out, copied) := by
  simp [splitRowMatmulWeight, hknown, hblocks, assertThat, bind, Except.bind, pure, Except.pure]

theorem splitColMatmulWeight_ok {s : NnColMatmulSlice} (hknown : s.type ≠ .unk)
    (hblocks : s.n0 % getBlockSize s.type = 0) (nodeIndex : Nat) (weight weight0 : Mem UInt8) :
    ∃ out copied, splitColMatmulWeight s nodeIndex weight weight0 = .ok (out, copied) := by
  simp [splitColMatmulWeight, hknown, hblocks, assertThat, bind, Except.bind, pure, Except.pure]

section Parts

variable {s : TensorShape} {tpSize : Nat} {bytes : List UInt8}

/-- The rows of a rank lie in one block. -/
theorem splitRow_part (hsplit : s.split = .rows) (hfits : s.Fits tpSize) (heven : s.Even tpSize)
    (hbytes : bytes.length = s.nBytes) {rank : Nat} (hrank : rank < tpSize) (temp : Mem UInt8) :
    ∃ out copied,
      splitRowMatmulWeight (rowSlice s.floatType tpSize s.n s.d) rank (memOf bytes) temp
        = .ok (out, copied) ∧ out.slice 0 (s.partBytes tpSize) = s.part tpSize rank bytes := by
  have hblocks := hfits.blocks_whole heven
  rcases splitRowMatmulWeight_ok (s := rowSlice s.floatType tpSize s.n s.d) hfits.known hblocks
    rank (memOf bytes) temp with ⟨out, copied, hok⟩
  refine ⟨out, copied, hok, ?_⟩
  rcases splitRow_ok hok with ⟨-, -, hout⟩
  have hd : s.partD tpSize = s.d / tpSize := if_pos hsplit
  have hn : s.partN tpSize = s.n := if_neg (by rw [hsplit]; decide)
  have hpart := TensorShape.partBytes_eq hfits
  rw [hd, hn] at hpart
  have hrow : s.n / getBlockSize s.floatType * getBytes s.floatType (getBlockSize s.floatType)
      = getBytes s.floatType s.n := getBytes_blocks (getBlockSize_ne_zero hfits.known) hblocks
  simp only [rowSlice, hrow] at hout
  have hwhole : rank * s.partBytes tpSize + s.partBytes tpSize ≤ bytes.length := by
    calc rank * s.partBytes tpSize + s.partBytes tpSize
        = (rank + 1) * s.partBytes tpSize := (Nat.succ_mul ..).symm
      _ ≤ tpSize * s.partBytes tpSize := Nat.mul_le_mul_right _ hrank
      _ = s.d / tpSize * tpSize * getBytes s.floatType s.n := by rw [hpart]; ring
      _ = bytes.length := by
          rw [Nat.div_mul_cancel (Nat.dvd_of_mod_eq_zero (heven.1 hsplit)), hbytes,
            TensorShape.nBytes_eq hfits heven]
  have hsplit' : s.part tpSize rank bytes
      = (bytes.drop (rank * s.partBytes tpSize)).take (s.partBytes tpSize) := by
    rw [TensorShape.part, hsplit]
  rw [hsplit', ← memOf_slice hwhole]
  refine Mem.slice_congr fun i hi => ?_
  have hrow0 : 0 < getBytes s.floatType s.n := by
    refine Nat.pos_of_ne_zero fun h0 => ?_
    rw [hpart, h0, Nat.mul_zero] at hi
    exact Nat.not_lt_zero _ hi
  rw [Nat.zero_add, hout i (hpart ▸ hi)]
  -- the first row of the rank is counted in `NnUint`
  have hfirst : u32 (s.d / tpSize * rank) = s.d / tpSize * rank := by
    refine u32_of_lt (lt_of_le_of_lt ?_ hfits.tensor)
    have hn0 : 0 < s.n := by
      refine Nat.pos_of_ne_zero fun h0 => ?_
      rw [h0] at hrow0
      cases htype : s.floatType <;> simp [htype, getBytes] at hrow0
    calc s.d / tpSize * rank
        ≤ s.d / tpSize * tpSize := Nat.mul_le_mul_left _ hrank.le
      _ ≤ s.d := Nat.div_mul_le_self ..
      _ ≤ s.n * s.d := Nat.le_mul_of_pos_left _ hn0
  rw [hfirst, Nat.mul_assoc, hrow]
  refine congrArg (memOf bytes) ?_
  rw [hpart]
  ring

/-- The columns of a rank lie in one block of every row. -/
theorem splitCol_part (hsplit : s.split = .columns) (hfits : s.Fits tpSize)
    (heven : s.Even tpSize) (hbytes : bytes.length = s.nBytes) {rank : Nat}
    (hrank : rank < tpSize) (temp : Mem UInt8) :
    ∃ out copied,
      splitColMatmulWeight (colSlice s.floatType tpSize s.n s.d) rank (memOf bytes) temp
        = .ok (out, copied) ∧ out.slice 0 (s.partBytes tpSize) = s.part tpSize rank bytes := by
  have hn : s.partN tpSize = s.n / tpSize := if_pos hsplit
  have hd : s.partD tpSize = s.d := if_neg (by rw [hsplit]; decide)
  have hblocks : s.n / tpSize % getBlockSize s.floatType = 0 := hn ▸ hfits.blocks
  rcases splitColMatmulWeight_ok (s := colSlice s.floatType tpSize s.n s.d) hfits.known hblocks
    rank (memOf bytes) temp with ⟨out, copied, hok⟩
  refine ⟨out, copied, hok, ?_⟩
  rcases splitCol_ok hok with ⟨-, -, hout⟩
  have hpart := TensorShape.partBytes_eq hfits
  rw [hd, hn] at hpart
  have hne := getBlockSize_ne_zero hfits.known
  have hrow : s.n / getBlockSize s.floatType * getBytes s.floatType (getBlockSize s.floatType)
      = getBytes s.floatType s.n := getBytes_blocks hne (hfits.blocks_whole heven)
  have hrow0 : s.n / tpSize / getBlockSize s.floatType
      * getBytes s.floatType (getBlockSize s.floatType) = getBytes s.floatType (s.n / tpSize) :=
    getBytes_blocks hne hblocks
  simp only [colSlice, hrow, hrow0] at hout
  have htp : s.n / tpSize * tpSize = s.n :=
    Nat.div_mul_cancel (Nat.dvd_of_mod_eq_zero (heven.2 hsplit))
  have hranks : getBytes s.floatType s.n = tpSize * getBytes s.floatType (s.n / tpSize) := by
    rw [← getBytes_mul hblocks, htp]
  have hcolumns : s.part tpSize rank bytes = (List.range s.d).flatMap fun i =>
      (bytes.drop (i * getBytes s.floatType s.n + rank * getBytes s.floatType (s.n / tpSize))).take
        (getBytes s.floatType (s.n / tpSize)) := by
    rw [TensorShape.part, hsplit]
    simp only [hn]
  rw [hpart, ← Mem.slice_blocks out 0, hcolumns]
  refine List.flatMap_congr fun i hi => ?_
  have hi := List.mem_range.1 hi
  have hwhole : i * getBytes s.floatType s.n + rank * getBytes s.floatType (s.n / tpSize)
      + getBytes s.floatType (s.n / tpSize) ≤ bytes.length := by
    calc i * getBytes s.floatType s.n + rank * getBytes s.floatType (s.n / tpSize)
          + getBytes s.floatType (s.n / tpSize)
        = i * getBytes s.floatType s.n + (rank + 1) * getBytes s.floatType (s.n / tpSize) := by
          ring
      _ ≤ i * getBytes s.floatType s.n + getBytes s.floatType s.n := by
          rw [hranks]
          exact Nat.add_le_add_left (Nat.mul_le_mul_right _ hrank) _
      _ = (i + 1) * getBytes s.floatType s.n := (Nat.succ_mul ..).symm
      _ ≤ s.d * getBytes s.floatType s.n := Nat.mul_le_mul_right _ hi
      _ = bytes.length := by rw [hbytes, TensorShape.nBytes_eq hfits heven]
  rw [← memOf_slice hwhole]
  refine Mem.slice_congr fun k hk => ?_
  rw [Nat.zero_add, Nat.mul_comm i, hout i hi k hk, Nat.mul_comm]

/-- A group of one rank has no parts. -/
theorem part_of_one (hfits : s.Fits 1) (heven : s.Even 1) (hbytes : bytes.length = s.nBytes) :
    s.part 1 0 bytes = bytes ∧ s.partBytes 1 = s.nBytes := by
  have hpart : s.partBytes 1 = s.nBytes := by
    simp only [TensorShape.partBytes, TensorShape.nBytes, TensorShape.partN, TensorShape.partD,
      Nat.div_one, ite_self]
  refine ⟨?_, hpart⟩
  have hrows := TensorShape.nBytes_eq hfits heven
  cases hsplit : s.split with
  | whole => rw [TensorShape.part, hsplit]
  | rows =>
      rw [TensorShape.part, hsplit]
      simp only
      rw [Nat.zero_mul, List.drop_zero, hpart, ← hbytes, List.take_length]
  | columns =>
      rw [TensorShape.part, hsplit]
      simp only [TensorShape.partN, hsplit, if_true, Nat.div_one, Nat.zero_mul, Nat.add_zero]
      have hslices : (List.range s.d).flatMap (fun i =>
          (memOf bytes).slice (0 + i * getBytes s.floatType s.n) (getBytes s.floatType s.n))
          = bytes := by
        rw [Mem.slice_blocks, ← hrows, ← hbytes, memOf_slice_whole]
      refine Eq.trans (List.flatMap_congr fun i hi => ?_) hslices
      have hi := List.mem_range.1 hi
      rw [Nat.zero_add, memOf_slice]
      calc i * getBytes s.floatType s.n + getBytes s.floatType s.n
          = (i + 1) * getBytes s.floatType s.n := (Nat.succ_mul ..).symm
        _ ≤ s.d * getBytes s.floatType s.n := Nat.mul_le_mul_right _ hi
        _ = bytes.length := by rw [hbytes, hrows]

end Parts

/-! ## The tensors of a model -/

section Shapes

variable (h : LlmHeader)

/-- The experts of a feed-forward weight: a dense one counts as one expert. -/
def ffExperts : Nat := if h.archType = .qwen3Moe then h.nExperts else 1

def tensorShape : OpName → TensorShape
  | .embedding => ⟨.whole, .f32, 1, h.vocabSize, h.dim⟩
  | .blockMatmulQ => ⟨.rows, h.weightType, 1, h.qDim, h.dim⟩
  | .blockMatmulK => ⟨.rows, h.weightType, 1, h.kvDim, h.dim⟩
  | .blockMatmulV => ⟨.rows, h.weightType, 1, h.kvDim, h.dim⟩
  | .blockMatmulWo => ⟨.columns, h.weightType, 1, h.dim, h.qDim⟩
  | .blockMoeGate => ⟨.whole, .f32, 1, h.nExperts, h.dim⟩
  | .blockMatmulW1 => ⟨.rows, h.weightType, ffExperts h, h.ffDim, h.dim⟩
  | .blockMatmulW2 => ⟨.columns, h.weightType, ffExperts h, h.dim, h.ffDim⟩
  | .blockMatmulW3 => ⟨.rows, h.weightType, ffExperts h, h.ffDim, h.dim⟩
  | .blockNormQ => ⟨.whole, .f32, 1, 1, h.headDim⟩
  | .blockNormK => ⟨.whole, .f32, 1, 1, h.headDim⟩
  | .finalMatmulLogits => ⟨.columns, h.weightType, 1, h.vocabSize, h.dim⟩
  | _ => ⟨.whole, .f32, 1, 1, h.dim⟩

/-- All weights of a model. -/
def weightNames : List OpName :=
  [.embedding] ++ h.attWeights ++ h.ffWeights ++ [.finalNorm, .finalMatmulLogits]

/-- Every size that is computed for a weight is exact, and what goes to a worker is smaller than
4 GiB.  The embedding stays on the root. -/
structure WeightsFit (t : NnParallelTopology) : Prop where
  shapes : ∀ name ∈ weightNames h, (tensorShape h name).Fits t.tpSize
  payload : t.nNodes ≠ 1 → ∀ name ∈ weightNames h, name ≠ .embedding →
    (tensorShape h name).partBytes t.tpSize < 2 ^ 32

end Shapes

/-- The slices are those of the tensors. -/
structure SlicesOf (h : LlmHeader) (tpSize : Nat) (n : LlmSlices) : Prop where
  sizes : SliceSizes h n
  q : n.qSlice = rowSlice h.weightType tpSize h.dim h.qDim
  k : n.kSlice = rowSlice h.weightType tpSize h.dim h.kvDim
  v : n.vSlice = rowSlice h.weightType tpSize h.dim h.kvDim
  wo : n.woSlice = colSlice h.weightType tpSize h.qDim h.dim
  w1 : n.w1Slice = rowSlice h.weightType tpSize h.dim h.ffDim
  w2 : n.w2Slice = colSlice h.weightType tpSize h.ffDim h.dim
  w3 : n.w3Slice = rowSlice h.weightType tpSize h.dim h.ffDim
  wcls : n.wclsSlice = colSlice h.weightType tpSize h.dim h.vocabSize
  even : ∀ name, (tensorShape h name).Even tpSize

theorem slicesOf_ok {h : LlmHeader} {tpSize nBatches : Nat} {n : LlmSlices}
    (hok : buildLlmSlices h tpSize nBatches = .ok n) : SlicesOf h tpSize n := by
  have hsizes := sliceSizes_of_ok hok
  rcases bind_eq_ok hok with ⟨att, -, hok⟩
  rcases bind_eq_ok hok with ⟨q, hq, hok⟩
  rcases bind_eq_ok hok with ⟨k, hk, hok⟩
  rcases bind_eq_ok hok with ⟨v, hv, hok⟩
  rcases bind_eq_ok hok with ⟨wo, hwo, hok⟩
  rcases bind_eq_ok hok with ⟨w1, hw1, hok⟩
  rcases bind_eq_ok hok with ⟨w2, hw2, hok⟩
  rcases bind_eq_ok hok with ⟨w3, hw3, hok⟩
  rcases bind_eq_ok hok with ⟨wcls, hwcls, hok⟩
  have hlast : n.qSlice = q ∧ n.kSlice = k ∧ n.vSlice = v ∧ n.woSlice = wo ∧ n.w1Slice = w1 ∧
      n.w2Slice = w2 ∧ n.w3Slice = w3 ∧ n.wclsSlice = wcls := by
    split_ifs at hok with hnorm
    · rcases bind_eq_ok hok with ⟨_, -, hok⟩
      rcases bind_eq_ok hok with ⟨_, -, hok⟩
      cases hok
      exact ⟨rfl, rfl, rfl, rfl, rfl, rfl, rfl, rfl⟩
    · cases hok
      exact ⟨rfl, rfl, rfl, rfl, rfl, rfl, rfl, rfl⟩
  rcases hlast with ⟨rfl, rfl, rfl, rfl, rfl, rfl, rfl, rfl⟩
  refine ⟨hsizes, (sliceRowMatmul_eq hq).1, (sliceRowMatmul_eq hk).1, (sliceRowMatmul_eq hv).1,
    (sliceColMatmul_eq hwo).1, (sliceRowMatmul_eq hw1).1, (sliceColMatmul_eq hw2).1,
    (sliceRowMatmul_eq hw3).1, (sliceColMatmul_eq hwcls).1, fun name => ?_⟩
  have hrows {floatType : NnFloatType} {z n d : Nat} (hd : d % tpSize = 0) :
      (TensorShape.mk .rows floatType z d n).Even tpSize := ⟨fun _ => hd, (nomatch ·)⟩
  have hcolumns {floatType : NnFloatType} {z n d : Nat} (hn : n % tpSize = 0) :
      (TensorShape.mk .columns floatType z d n).Even tpSize := ⟨(nomatch ·), fun _ => hn⟩
  have hwhole {floatType : NnFloatType} {z n d : Nat} :
      (TensorShape.mk .whole floatType z d n).Even tpSize :=
    ⟨(nomatch ·), (nomatch ·)⟩
  unfold tensorShape
  split
  case h_2 => exact hrows (sliceRowMatmul_eq hq).2
  case h_3 => exact hrows (sliceRowMatmul_eq hk).2
  case h_4 => exact hrows (sliceRowMatmul_eq hv).2
  case h_5 => exact hcolumns (sliceColMatmul_eq hwo).2
  case h_7 => exact hrows (sliceRowMatmul_eq hw1).2
  case h_8 => exact hcolumns (sliceColMatmul_eq hw2).2
  case h_9 => exact hrows (sliceRowMatmul_eq hw3).2
  case h_12 => exact hcolumns (sliceColMatmul_eq hwcls).2
  all_goals exact hwhole

/-! ## What a call sends -/

namespace LoaderCall

variable {l : NnRootWeightLoader} {call : LoaderCall}

/-- The nodes that the slices of a weight go to. -/
def sliceNodes (l : NnRootWeightLoader) (ownerPpRank : Option Nat) (tpSize : Nat) : List Nat :=
  if l.nNodes = 1 then [0]
  else (List.range l.nNodes).filter fun nodeIndex =>
    ownerPpRank.all fun ppRank => NnRootWeightLoader.nodeInPpStage nodeIndex ppRank tpSize

/-- The nodes that a call sends records to. -/
def nodes (l : NnRootWeightLoader) (call : LoaderCall) : List Nat :=
  match call.method with
  | .loadRoot _ => [0]
  | .loadAll _ => List.range l.nNodes
  | .loadRowMatmulSlices _ slice =>
      sliceNodes l (l.getLayerOwnerPpRank call.opIndex call.opName) slice.nNodes
  | .loadColMatmulSlices _ slice overridePpRank =>
      sliceNodes l (overridePpRank <|> l.getLayerOwnerPpRank call.opIndex call.opName)
        slice.nNodes

theorem loadSlices_eq (ownerPpRank : Option Nat) (expertIndex tpSize : Nat)
    (sliceSize : NnSize3D) :
    l.loadSlices ownerPpRank expertIndex tpSize sliceSize
      = (sliceNodes l ownerPpRank tpSize).map fun nodeIndex =>
          ⟨nodeIndex, nodeIndex % tpSize, u32 (expertIndex * sliceSize.nBytes),
            sliceSize.nBytes⟩ := by
  unfold NnRootWeightLoader.loadSlices sliceNodes
  split_ifs
  · rw [List.map_singleton, Nat.zero_mod]
  · rfl

/-- A record with given bytes. -/
def recordOf (call : LoaderCall) (nodeIndex offset : Nat) (weight : List UInt8) : WeightRecord :=
  ⟨nodeIndex, call.opName, call.opIndex, offset, weight⟩

/-- Whatever `temp` holds at first, every load gets the part of its rank. -/
theorem sendSlices_ok {split : Nat → Mem UInt8 → Except String (Mem UInt8 × Nat)}
    {loads : List SliceLoad} {weight : Mem UInt8} (temp : Mem UInt8) {part : Nat → List UInt8}
    (hone : l.nNodes = 1 → ∀ load ∈ loads, weight.slice 0 load.nBytes = part load.tpRank)
    (hmany : l.nNodes ≠ 1 → ∀ load ∈ loads, ∀ temp, ∃ out copied,
      split load.tpRank temp = .ok (out, copied) ∧ out.slice 0 load.nBytes = part load.tpRank) :
    call.sendSlices l split loads weight temp
      = .ok (loads.map fun load =>
          call.recordOf load.nodeIndex load.offset (part load.tpRank)) := by
  unfold sendSlices
  split_ifs with hnodes
  · refine congrArg Except.ok (List.map_congr_left fun load hload => ?_)
    rw [record, recordOf, hone hnodes load hload]
  · have hloop : ∀ (loads : List SliceLoad) (sent : List WeightRecord × Mem UInt8),
        (∀ load ∈ loads, ∀ temp, ∃ out copied, split load.tpRank temp = .ok (out, copied) ∧
          out.slice 0 load.nBytes = part load.tpRank) →
        (loads.foldlM (call.sendSlice split) sent).map Prod.fst
          = .ok (sent.1 ++ loads.map fun load =>
              call.recordOf load.nodeIndex load.offset (part load.tpRank)) := by
      intro loads
      induction loads with
      | nil =>
          intro sent _
          rw [List.map_nil, List.append_nil]
          rfl
      | cons load loads ih =>
          intro sent hparts
          rcases hparts load List.mem_cons_self sent.2 with ⟨out, copied, hok, hpart⟩
          have hturn : call.sendSlice split sent load
              = .ok (sent.1 ++ [call.recordOf load.nodeIndex load.offset (part load.tpRank)],
                out) := by
            rw [sendSlice, hok, ← hpart]
            rfl
          rw [List.foldlM_cons, ok_bind_of_eq hturn,
            ih _ fun load hload => hparts load (List.mem_cons_of_mem _ hload), List.map_cons,
            List.append_assoc]
          rfl
    exact hloop loads ([], temp) (hmany hnodes)

end LoaderCall

end ModelFile
end PrefillOpt
