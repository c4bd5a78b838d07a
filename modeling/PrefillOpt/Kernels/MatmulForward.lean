import PrefillOpt.ContextParallel
import PrefillOpt.Kernels.Repack

/-!
# Kernels.MatmulForward — repacked weights behind the matmul op

`nn-cpu.cpp`, `loadWeight`; `nn-cpu-ops.cpp`, `matmulForward_repack`.  Threads share the columns
of the output; in each share the rows up to a multiple of four go through the matrix kernel and
the others through the vector kernel.
-/

namespace PrefillOpt
namespace Kernels

open Lib (Mem Lanes)

/-! ## The op -/

/-- What the matmul op knows of its memory. -/
structure NnCpuOpContext where
  weightSize : NnSize3D
  weight : Mem UInt8
  loadedBytes : Nat
  isRepacked : Bool
  isLmHead : Bool
  hasInputContinuousMemory : Bool
  hasOutputContinuousMemory : Bool
  /-- `inputSize.z`. -/
  inputZ : Nat

/-- The weight of the context is repacked once the last of its bytes are loaded. -/
def repacksAfterLoad (repackOn : Bool) (size : NnSize3D) : Bool :=
  decide (size.floatType = .q40) && decide (0 < size.y) && decide (size.z ≤ 1) &&
    decide (size.x * (size.y / 32) * 18 = size.nBytes) && nnRepackSupported repackOn size.x
      (size.y / 32)

/-- `NnCpuDeviceSegment::loadWeight`. -/
def loadWeight (repackOn : Bool) (ctx : NnCpuOpContext) (offset nBytes : Nat)
    (weight : Mem UInt8) : Except String NnCpuOpContext := do
  assertThat (offset + nBytes ≤ ctx.weightSize.nBytes)
    "offset + nBytes <= context->weightSize.nBytes"
  let ctx := { ctx with
    weight := ctx.weight.store offset (weight.slice 0 nBytes)
    loadedBytes := ctx.loadedBytes + nBytes }
  if !ctx.isRepacked && decide (ctx.weightSize.nBytes ≤ ctx.loadedBytes) &&
      repacksAfterLoad repackOn ctx.weightSize then
    let (repacked, _) :=
      nnRepackQ40InPlace repackOn ctx.weight ctx.weightSize.x (ctx.weightSize.y / 32)
    return { ctx with weight := repacked, isRepacked := true }
  return ctx

/-- Only the last row of a prefill chunk needs logits. -/
def lmHeadRowRange (g : CpuRowState) (isDecodePhase isLmHead : Bool) (batchSize : Nat) :
    Nat × Nat :=
  if isLmHead && decide (1 < batchSize) && !isDecodePhase then (batchSize - 1, 1)
  else cpRowWindow g batchSize

section Forward

variable {R : Type} [CommRing R] (f16 : UInt16 → R)

/-- The vendored kernels, with the floats they write relative to their output pointer. -/
structure GgmlKernels (R : Type) where
  /-- `ggml_gemm_q4_0_4x4_q8_0`. -/
  gemm : (n bs : Nat) → (vx : Nat → BlockQ40x4) → (vy : Nat → BlockQ80x4) → (nr nc : Nat) →
    List (Nat × R)
  /-- `ggml_gemv_q4_0_4x4_q8_0`. -/
  gemv : (n : Nat) → (vx : Nat → BlockQ40x4) → (vy : Nat → NnBlockQ80) → (nc : Nat) →
    List (Nat × R)

/-- Column `c` of interleaved weights against a row of scales and entries. -/
def columnProduct (n : Nat) (vx : Nat → BlockQ40x4) (c : Nat) (scales : Nat → UInt16)
    (entries : Nat → Lanes) : R :=
  ∑ b ∈ Finset.range (n / 32),
    ((∑ k ∈ Finset.range 32, (vx (c / 4 * (n / 32) + b)).entry (c % 4) k * entries b k : Int) : R)
      * (f16 ((vx (c / 4 * (n / 32) + b)).scale c) * f16 (scales b))

/-- The kernels write the products their layouts document, for whole blocks, groups of four
columns and, in the matrix kernel, groups of four rows. -/
structure GgmlKernels.Documented (kernels : GgmlKernels R) : Prop where
  gemm : ∀ n bs vx vy nr nc, 32 ∣ n → 4 ∣ nr → 4 ∣ nc →
    (kernels.gemm n bs vx vy nr nc).Perm
      ((List.range nr).flatMap fun i => (List.range nc).map fun c =>
        (i * bs + c, columnProduct f16 n vx c
          (fun b => (vy (i / 4 * (n / 32) + b)).scale i)
          fun b => (vy (i / 4 * (n / 32) + b)).entry (i % 4)))
  gemv : ∀ n vx vy nc, 32 ∣ n → 4 ∣ nc →
    (kernels.gemv n vx vy nc).Perm
      ((List.range nc).map fun c =>
        (c, columnProduct f16 n vx c (fun b => (vy b).d) fun b => vld1q_s8 (vy b).qs 0))

/-- Kernels that loop over rows and columns in order. -/
def rowByRow : GgmlKernels R where
  gemm n bs vx vy nr nc := (List.range nr).flatMap fun i => (List.range nc).map fun c =>
    (i * bs + c, columnProduct f16 n vx c (fun b => (vy (i / 4 * (n / 32) + b)).scale i)
      fun b => (vy (i / 4 * (n / 32) + b)).entry (i % 4))
  gemv n vx vy nc := (List.range nc).map fun c =>
    (c, columnProduct f16 n vx c (fun b => (vy b).d) fun b => vld1q_s8 (vy b).qs 0)

theorem rowByRow_documented : (rowByRow f16).Documented f16 :=
  ⟨fun _ _ _ _ _ _ _ _ _ => List.Perm.refl _, fun _ _ _ _ _ _ => List.Perm.refl _⟩

/-- `c0` and `cN` of `matmulForward_repack`; no columns where it returns early.  The numbers are
exact with `id` and of `NnUint` with `u32`. -/
def repackColumns (wrap : Nat → Nat) (d nThreads threadIndex : Nat) : Nat × Nat :=
  let nCols4 := d / 4
  let per4 := wrap (nCols4 + nThreads - 1) / nThreads
  let c0 := wrap (threadIndex * per4 * 4)
  if d ≤ c0 then (c0, 0)
  else
    let cN := wrap (per4 * 4)
    (c0, if d < wrap (c0 + cN) then d - c0 else cN)

variable (kernels : GgmlKernels R)

/-- The floats one thread writes, from `output[0]` on; nothing when another path has to run.  The
columns are those of exact numbers; `WorkSplits` says when the threads have them. -/
def matmulForward_repack (nThreads threadIndex rowBegin rowCount : Nat) (input : Nat → NnBlockQ80)
    (ctx : NnCpuOpContext) : Option (List (Nat × R)) :=
  if !ctx.isRepacked || !ctx.hasInputContinuousMemory || !ctx.hasOutputContinuousMemory ||
      ctx.inputZ != 1 then none
  else
    let d := ctx.weightSize.x
    let kElems := ctx.weightSize.y
    let kBlocks := kElems / 32
    let (c0, cN) := repackColumns id d nThreads threadIndex
    if d ≤ c0 then some []
    else
      let x80 := fun i => input (rowBegin * kBlocks + i)
      let out := rowBegin * d
      let wCol := fun i => loadQ40x4 ctx.weight (c0 / 4 * kBlocks * 72 + i * 72)
      let nGemm := rowCount / 4 * 4
      -- group `g` of the packed rows starts at block `g * kBlocks`
      let xr := fun i => nnPackQ80To4x4 (fun j => x80 (i / kBlocks * 4 * kBlocks + j)) kBlocks
        (i % kBlocks)
      let gemm := if 0 < nGemm then kernels.gemm kElems d wCol xr nGemm cN else []
      let gemv := (List.range' nGemm (rowCount - nGemm)).flatMap fun b =>
        (kernels.gemv kElems wCol (fun i => x80 (b * kBlocks + i)) cN).map fun w =>
          (out + b * d + c0 + w.1, w.2)
      some (gemm.map (fun w => (out + c0 + w.1, w.2)) ++ gemv)

/-! ## One element -/

variable {repackOn : Bool} {d kBlocks : Nat}

/-- The row of the weight for a column of the output, and a row of the input. -/
def weightRow (weight : Mem UInt8) (kBlocks c : Nat) : Nat → NnBlockQ40 :=
  fun j => loadQ40 weight ((c * kBlocks + j) * 18)

def inputRow (input : Nat → NnBlockQ80) (kBlocks i : Nat) : Nat → NnBlockQ80 :=
  fun j => input (i * kBlocks + j)

/-- The column product over a repacked weight is the product of the row it was. -/
theorem columnProduct_repacked (weight : Mem UInt8)
    (hs : nnRepackSupported repackOn d kBlocks = true) {c0 c : Nat} (hc0 : 4 ∣ c0)
    (hc : c0 + c < d) (x : Nat → NnBlockQ80) {scales : Nat → UInt16} {entries : Nat → Lanes}
    (hscales : ∀ b < kBlocks, scales b = (x b).d)
    (hentries : ∀ b < kBlocks, ∀ k < 32, entries b k = vld1q_s8 (x b).qs 0 k) :
    columnProduct f16 (32 * kBlocks)
        (fun i => loadQ40x4 (nnRepackQ40InPlace repackOn weight d kBlocks).1
          (c0 / 4 * kBlocks * 72 + i * 72)) c scales entries
      = rowProduct f16 (weightRow weight kBlocks (c0 + c)) x kBlocks := by
  have hd : 4 ∣ d := by
    simp only [nnRepackSupported, Bool.and_eq_true, beq_iff_eq] at hs
    exact Nat.dvd_of_mod_eq_zero hs.1.2
  have hdiv : 32 * kBlocks / 32 = kBlocks := Nat.mul_div_cancel_left _ (by omega)
  rw [columnProduct, rowProduct, hdiv]
  refine Finset.sum_congr rfl fun b hb => ?_
  have hb := Finset.mem_range.1 hb
  have hgroup : c0 / 4 + c / 4 < d / 4 := by omega
  have haddr : c0 / 4 * kBlocks * 72 + (c / 4 * kBlocks + b) * 72
      = ((c0 / 4 + c / 4) * kBlocks + b) * 72 := by ring
  have hrow : 4 * (c0 / 4 + c / 4) + c % 4 = c0 + c := by omega
  have hblock := nnRepackQ40InPlace_ok weight hs hgroup hb
  have hw : loadQ40 weight (((4 * (c0 / 4 + c / 4) + c % 4) * kBlocks + b) * 18)
      = weightRow weight kBlocks (c0 + c) b := by rw [hrow, weightRow]
  rw [haddr, hblock, blockProduct, hscales b hb, ← hw]
  refine congrArg₂ (· * ·) (congrArg Int.cast ?_) rfl
  rw [← sum_entry]
  refine Finset.sum_congr rfl fun k hk => ?_
  have hk := Finset.mem_range.1 hk
  rw [makeBlockQ40x4_entry _ (Nat.mod_lt c (by omega)) hk, hentries b hb k hk]

/-! ## One thread -/

/-- The element of the output for a row of the input and a column. -/
def outputElement (weight : Mem UInt8) (input : Nat → NnBlockQ80) (d kBlocks row col : Nat) :
    Nat × R :=
  (row * d + col, rowProduct f16 (weightRow weight kBlocks col) (inputRow input kBlocks row)
    kBlocks)

variable {kernels}

theorem gemm_writes (hk : kernels.Documented f16) (weight : Mem UInt8)
    (hs : nnRepackSupported repackOn d kBlocks = true) (input : Nat → NnBlockQ80)
    {c0 cN nGemm rowBegin : Nat} (hc0 : 4 ∣ c0) (hcN : 4 ∣ cN) (hd : c0 + cN ≤ d)
    (hrows : 4 ∣ nGemm) :
    ((kernels.gemm (32 * kBlocks) d
        (fun i => loadQ40x4 (nnRepackQ40InPlace repackOn weight d kBlocks).1
          (c0 / 4 * kBlocks * 72 + i * 72))
        (fun i => nnPackQ80To4x4
          (fun j => input (rowBegin * kBlocks + (i / kBlocks * 4 * kBlocks + j))) kBlocks
          (i % kBlocks)) nGemm cN).map fun w => (rowBegin * d + c0 + w.1, w.2)).Perm
      ((List.range nGemm).flatMap fun i => (List.range' c0 cN).map fun col =>
        outputElement f16 weight input d kBlocks (rowBegin + i) col) := by
  have hdiv : 32 * kBlocks / 32 = kBlocks := Nat.mul_div_cancel_left _ (by omega)
  refine ((hk.gemm (32 * kBlocks) d _ _ nGemm cN (Nat.dvd_mul_right _ _) hrows hcN).map _).trans ?_
  rw [List.map_flatMap]
  refine List.Perm.of_eq (List.flatMap_congr fun i _ => ?_)
  rw [List.map_map, List.range'_eq_map_range, List.map_map]
  refine List.map_congr_left fun c hc => ?_
  have hc := List.mem_range.1 hc
  simp only [Function.comp_def, outputElement, Prod.mk.injEq, hdiv]
  constructor
  · ring
  -- row `i` is row `i % 4` of its group
  have hgroup : ∀ b < kBlocks, (i / 4 * kBlocks + b) / kBlocks = i / 4 ∧
      (i / 4 * kBlocks + b) % kBlocks = b := by
    intro b hb
    rw [Nat.div_mod_unique (Nat.zero_lt_of_lt hb)]
    exact ⟨by ring, hb⟩
  have hrow : ∀ b, rowBegin * kBlocks + (i / 4 * 4 * kBlocks + (i % 4 * kBlocks + b))
      = (rowBegin + i) * kBlocks + b := by
    intro b
    have hi := Nat.div_add_mod' i 4
    calc rowBegin * kBlocks + (i / 4 * 4 * kBlocks + (i % 4 * kBlocks + b))
        = rowBegin * kBlocks + (i / 4 * 4 + i % 4) * kBlocks + b := by ring
      _ = (rowBegin + i) * kBlocks + b := by rw [hi]; ring
  refine columnProduct_repacked f16 weight hs hc0 (by omega) _ ?_ ?_
  · intro b hb
    rw [(hgroup b hb).1, (hgroup b hb).2]
    exact congrArg (fun j => (input j).d) (hrow b)
  · intro b hb k hk
    rw [(hgroup b hb).1, (hgroup b hb).2, nnPackQ80To4x4,
      packQ80Block_entry _ (Nat.mod_lt i (by omega)) hk, hrow b]
    rfl

theorem gemv_writes (hk : kernels.Documented f16) (weight : Mem UInt8)
    (hs : nnRepackSupported repackOn d kBlocks = true) (input : Nat → NnBlockQ80)
    {c0 cN rowBegin : Nat} (hc0 : 4 ∣ c0) (hcN : 4 ∣ cN) (hd : c0 + cN ≤ d) (i : Nat) :
    ((kernels.gemv (32 * kBlocks)
        (fun i => loadQ40x4 (nnRepackQ40InPlace repackOn weight d kBlocks).1
          (c0 / 4 * kBlocks * 72 + i * 72))
        (fun j => input (rowBegin * kBlocks + (i * kBlocks + j))) cN).map fun w =>
          (rowBegin * d + i * d + c0 + w.1, w.2)).Perm
      ((List.range' c0 cN).map fun col =>
        outputElement f16 weight input d kBlocks (rowBegin + i) col) := by
  refine ((hk.gemv (32 * kBlocks) _ _ cN (Nat.dvd_mul_right _ _) hcN).map _).trans ?_
  rw [List.map_map, List.range'_eq_map_range, List.map_map]
  refine List.Perm.of_eq (List.map_congr_left fun c hc => ?_)
  have hc := List.mem_range.1 hc
  simp only [Function.comp_def, outputElement, Prod.mk.injEq]
  constructor
  · ring
  have hrow : ∀ b, rowBegin * kBlocks + (i * kBlocks + b) = (rowBegin + i) * kBlocks + b :=
    fun b => by ring
  refine columnProduct_repacked f16 weight hs hc0 (by omega) _ ?_ ?_
  · intro b _
    exact congrArg (fun j => (input j).d) (hrow b)
  · intro b _ k _
    rw [hrow b]
    rfl

/-- The op once its weight is repacked, on contiguous rows of one layer. -/
structure OnRepackedPath (repackOn : Bool) (weight : Mem UInt8) (d kBlocks : Nat)
    (ctx : NnCpuOpContext) : Prop where
  weight : ctx.weight = (nnRepackQ40InPlace repackOn weight d kBlocks).1
  columns : ctx.weightSize.x = d
  elements : ctx.weightSize.y = 32 * kBlocks
  isRepacked : ctx.isRepacked = true
  hasInputContinuousMemory : ctx.hasInputContinuousMemory = true
  hasOutputContinuousMemory : ctx.hasOutputContinuousMemory = true
  inputZ : ctx.inputZ = 1

/-- First column and number of columns of a thread. -/
def threadColumns (d nThreads threadIndex : Nat) : List Nat :=
  let per := (d / 4 + nThreads - 1) / nThreads * 4
  List.range' (threadIndex * per) (min per (d - threadIndex * per))

theorem repackColumns_id (d nThreads threadIndex : Nat) :
    repackColumns id d nThreads threadIndex
      = (threadIndex * ((d / 4 + nThreads - 1) / nThreads * 4),
        min ((d / 4 + nThreads - 1) / nThreads * 4)
          (d - threadIndex * ((d / 4 + nThreads - 1) / nThreads * 4))) := by
  simp only [repackColumns, id_eq, Nat.mul_assoc]
  generalize (d / 4 + nThreads - 1) / nThreads * 4 = per
  generalize threadIndex * per = c0
  split_ifs <;> (rw [Prod.mk.injEq]; omega)

theorem matmulForward_repack_writes (hk : kernels.Documented f16) {weight : Mem UInt8}
    (hs : nnRepackSupported repackOn d kBlocks = true) {ctx : NnCpuOpContext}
    (hctx : OnRepackedPath repackOn weight d kBlocks ctx) (input : Nat → NnBlockQ80)
    (nThreads threadIndex rowBegin rowCount : Nat) :
    ∃ writes, matmulForward_repack kernels nThreads threadIndex rowBegin rowCount input ctx
        = some writes ∧
      writes.Perm ((List.range rowCount).flatMap fun i =>
        (threadColumns d nThreads threadIndex).map fun col =>
          outputElement f16 weight input d kBlocks (rowBegin + i) col) := by
  have hd : 4 ∣ d := by
    simp only [nnRepackSupported, Bool.and_eq_true, beq_iff_eq] at hs
    exact Nat.dvd_of_mod_eq_zero hs.1.2
  have hdiv : 32 * kBlocks / 32 = kBlocks := Nat.mul_div_cancel_left _ (by omega)
  rw [matmulForward_repack, threadColumns]
  simp only [hctx.isRepacked, hctx.hasInputContinuousMemory, hctx.hasOutputContinuousMemory,
    hctx.inputZ, hctx.columns, hctx.elements, hctx.weight, hdiv, repackColumns_id]
  generalize hper : (d / 4 + nThreads - 1) / nThreads * 4 = per
  have hper4 : 4 ∣ per := ⟨_, by rw [← hper, Nat.mul_comm]⟩
  have hc0 : 4 ∣ threadIndex * per := Dvd.dvd.mul_left hper4 threadIndex
  generalize threadIndex * per = c0 at *
  rcases Nat.lt_or_ge c0 d with hlt | hge
  swap
  · -- the thread has no columns
    have hnone : min per (d - c0) = 0 := by omega
    refine ⟨[], by simp [hge], ?_⟩
    rw [hnone, List.range'_zero]
    simp
  have hcN4 : 4 ∣ min per (d - c0) := by
    rcases Nat.le_total per (d - c0) with h | h
    · rwa [Nat.min_eq_left h]
    · rw [Nat.min_eq_right h]
      exact Nat.dvd_sub hd hc0
  have hfit : c0 + min per (d - c0) ≤ d := by omega
  simp only [Bool.not_true, Bool.or_false, bne_self_eq_false, Bool.false_eq_true, if_false,
    if_neg (Nat.not_le.2 hlt)]
  refine ⟨_, rfl, ?_⟩
  have hrows : List.range rowCount
      = List.range (rowCount / 4 * 4) ++ List.range' (rowCount / 4 * 4)
        (rowCount - rowCount / 4 * 4) := by
    have hle := Nat.div_mul_le_self rowCount 4
    rw [List.range_eq_range', List.range_eq_range']
    conv_lhs => rw [← Nat.add_sub_cancel' hle, ← List.range'_append_1, Nat.zero_add]
  rw [hrows, List.flatMap_append]
  refine List.Perm.append ?_ ?_
  · split_ifs with hpos
    · exact gemm_writes f16 hk weight hs input hc0 hcN4 hfit (Nat.dvd_mul_left _ _)
    · have hnone : rowCount / 4 * 4 = 0 := by omega
      rw [hnone]
      exact List.Perm.nil
  · exact List.Perm.flatMap_left _ fun i _ => gemv_writes f16 hk weight hs input hc0 hcN4 hfit i

/-! ## All threads -/

theorem threadColumns_flatMap {nThreads : Nat} (ht : 1 ≤ nThreads) (hd : 4 ∣ d) :
    (List.range nThreads).flatMap (threadColumns d nThreads) = List.range d := by
  have hceil : d / 4 ≤ nThreads * ((d / 4 + nThreads - 1) / nThreads) := by
    have hdiv := Nat.div_add_mod (d / 4 + nThreads - 1) nThreads
    have hmod := Nat.mod_lt (d / 4 + nThreads - 1) ht
    omega
  refine Lib.flatMap_chunks ?_
  calc d = d / 4 * 4 := (Nat.div_mul_cancel hd).symm
    _ ≤ nThreads * ((d / 4 + nThreads - 1) / nThreads) * 4 := Nat.mul_le_mul_right 4 hceil
    _ = nThreads * ((d / 4 + nThreads - 1) / nThreads * 4) := Nat.mul_assoc _ _ _

/-- What `loadWeight` repacks has less than 2^27 blocks. -/
theorem blocks_of_repacksAfterLoad {z : Nat}
    (h : repacksAfterLoad repackOn (size3D .q40 z (32 * kBlocks) d) = true) :
    d * kBlocks < 2 ^ 27 := by
  have hdiv : 32 * kBlocks / 32 = kBlocks := Nat.mul_div_cancel_left _ (by omega)
  simp only [repacksAfterLoad, size3D, hdiv, getBytes, Bool.and_eq_true, decide_eq_true_eq] at h
  have hlt := u32_lt (z * (32 * kBlocks) * d)
  omega

end Forward

/-- Nothing is lost in a repacked weight, and the op computes from it what the plain kernel
computes from the weight as it was. -/
structure RepackPreservesProduct (repackOn : Bool) (weight : Mem UInt8) (d kBlocks : Nat)
    (f16 : UInt16 → Rat) (kernels : GgmlKernels Rat) : Prop where
  /-- Row `row` of the weight is column `row % 4` of group `row / 4`. -/
  weights : ∀ row < d, ∀ b < kBlocks,
    (loadQ40x4 (nnRepackQ40InPlace repackOn weight d kBlocks).1
        ((row / 4 * kBlocks + b) * 72)).scale row = (weightRow weight kBlocks row b).d ∧
      ∀ k < 32, (loadQ40x4 (nnRepackQ40InPlace repackOn weight d kBlocks).1
        ((row / 4 * kBlocks + b) * 72)).entry (row % 4) k
          = (weightRow weight kBlocks row b).entry k
  inputs : ∀ (input : Nat → NnBlockQ80) (b : Nat), ∀ r < 4,
    (nnPackQ80To4x4 input kBlocks b).scale r = (inputRow input kBlocks r b).d ∧
      ∀ k < 32, (nnPackQ80To4x4 input kBlocks b).entry r k
        = ((inputRow input kBlocks r b).quant k).toInt
  /-- All threads together write each element of the rows once. -/
  writes : ∀ (ctx : NnCpuOpContext), OnRepackedPath repackOn weight d kBlocks ctx →
    ∀ (input : Nat → NnBlockQ80) (nThreads rowBegin rowCount : Nat), 1 ≤ nThreads →
      ∃ threadWrites : Nat → List (Nat × Rat),
        (∀ t < nThreads, matmulForward_repack kernels nThreads t rowBegin rowCount input ctx
          = some (threadWrites t)) ∧
        ((List.range nThreads).flatMap threadWrites).Perm
          ((List.range rowCount).flatMap fun i => (List.range d).map
            (outputElement f16 weight input d kBlocks (rowBegin + i)))
  /-- A weight that `loadWeight` repacks has the same products in every build of the plain
  kernel. -/
  plain : ∀ z, repacksAfterLoad repackOn (size3D .q40 z (32 * kBlocks) d) = true →
    ∀ (build : Build) (input : Nat → NnBlockQ80) (nThreads row : Nat), 1 ≤ nThreads →
      ((List.range nThreads).mapM fun t => matmul_Q80_Q40_F32 f16 build
          (inputRow input kBlocks row) (fun i => loadQ40 weight (i * 18)) (32 * kBlocks) d
          nThreads t).map List.flatten
        = some ((List.range d).map fun col =>
          (col, (outputElement f16 weight input d kBlocks row col).2))

end Kernels
end PrefillOpt
