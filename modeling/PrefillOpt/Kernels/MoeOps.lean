import Mathlib.Data.List.Sort
import PrefillOpt.Kernels.Attention
import PrefillOpt.Kernels.RepeatZ
import PrefillOpt.Lib.Selection

/-!
# Kernels.MoeOps — the ops of a mixture of experts

`llm.cpp`, `buildLlmNet`, the ops from `block_moe_y_repeat` to `block_moe_merge_sum`, and their
kernels in `nn-cpu-ops.cpp`.  A buffer of three dimensions is a family of rows: row
`z * nBatches + y` is row `y` of slot `z`.  Floats are the elements of an ordered field, and
quantising changes nothing.  A kernel is what its threads do together with a row, but for the copies
of the activation, which depend on the schedule of the threads.
-/

namespace PrefillOpt
namespace Kernels.Moe

open Lib

/-- The pointers `context->output[r]`. -/
abbrev Rows (R : Type) := Nat → Mem R

def slotRow (nBatches : Nat) (k : Nat × Nat) : Nat :=
  k.1 * nBatches + k.2

/-- `for (z = 0; z < nZ; z++) for (y = 0; y < batchSize; y++)`. -/
def zyRows (nZ batchSize : Nat) : List (Nat × Nat) :=
  (List.range nZ).flatMap fun z => (List.range batchSize).map fun y => (z, y)

/-- `for (y = 0; y < batchSize; y++) for (e = 0; e < n; e++)`, the slot first. -/
def yeRows (n batchSize : Nat) : List (Nat × Nat) :=
  (List.range batchSize).flatMap fun y => (List.range n).map fun e => (e, y)

section Kernels

variable {R : Type}

/-- The first `n` floats of a row are written. -/
def writeRow (n : Nat) (v row : Mem R) : Mem R :=
  fun x => if x < n then v x else row x

/-- A kernel for each row, which sees what the row was. -/
def forRows (nBatches : Nat) (keys : List (Nat × Nat)) (n : Nat) (v : Nat × Nat → Mem R → Mem R)
    (output : Rows R) : Rows R :=
  keys.foldl (fun out k => Function.update out (slotRow nBatches k)
    (writeRow n (v k (out (slotRow nBatches k))) (out (slotRow nBatches k)))) output

/-- Blocks of `Q_80` that lose nothing: the 34 bytes of a block give its 32 floats back. -/
structure ExactQ80 (R α : Type) where
  quantize : (Nat → R) → Nat → α
  dequantize : (Nat → α) → Nat → R
  exact : ∀ v a, (∀ k < 34, a k = quantize v k) → ∀ j < 32, dequantize a j = v j

/-- The floats that a kernel finds in quantised rows. -/
def ExactQ80.floats {α : Type} (q : ExactQ80 R α) (bytes : Nat × Nat → α) : Rows R :=
  fun r i => q.dequantize (fun k => bytes (r, i / 32 * 34 + k)) (i % 32)

/-- `block_moe_y_repeat` in a run of its threads. -/
def repeatRows {α : Type} (q : ExactQ80 R α) (nBatches : Nat) (trace : List (Nat × RepeatStep))
    (input : Rows R) (output : Nat × Nat → α) : Nat × Nat → α :=
  runTrace (RepeatStep.exec nBatches (quantizedByte q.quantize input)) output trace

def castForward (nBatches nZ batchSize x : Nat) (input output : Rows R) : Rows R :=
  forRows nBatches (zyRows nZ batchSize) x (fun k _ => input (slotRow nBatches k)) output

structure NnMatmulOpConfig where
  nExperts : Nat
  nActiveExperts : Nat
deriving DecidableEq, Repr

variable [Field R]

/-- `matmul_F32_F32_F32` and `matmul_Q80_Q40_F32` with `w = &weight[expert * nBytesXY]`. -/
def matmulRow (n d : Nat) (weight : Mem R) (expert : Nat) (x : Mem R) : Mem R :=
  fun i => ∑ j ∈ Finset.range n, weight (expert * (d * n) + (i * n + j)) * x j

/-- `fast` says whether `matmulForward_repack` or `matmulForward_llamafile` takes the op on, given
that the input has one slot; both multiply the rows with the matrix at the start of the weight. -/
def matmulForward (fast : Bool) (config : NnMatmulOpConfig) (n d nBatches inputZ batchSize : Nat)
    (weight : Mem R) (activeExpertIndexes : Mem Nat) (input output : Rows R) : Rows R :=
  if inputZ = 1 ∧ fast then
    forRows nBatches ((List.range batchSize).map fun y => (0, y)) d
      (fun k _ => matmulRow n d weight 0 (input k.2)) output
  else
    let nActiveExpertsOr1 := max config.nActiveExperts 1
    forRows nBatches (yeRows nActiveExpertsOr1 batchSize) d
      (fun k _ =>
        let activeExpertIndex :=
          if config.nActiveExperts = 0 then 0
          else activeExpertIndexes (k.2 * config.nActiveExperts + k.1)
        matmulRow n d weight activeExpertIndex (input (slotRow nBatches k))) output

def siluForward (m : Libm R) (nBatches nZ batchSize x : Nat) (output : Rows R) : Rows R :=
  forRows nBatches (zyRows nZ batchSize) x (fun _ row i => row i / (1 + m.expf (-row i))) output

/-- In place; the multiplier has rows of the same length. -/
def mulForward (nBatches nZ batchSize x : Nat) (multiplier output : Rows R) : Rows R :=
  forRows nBatches (zyRows nZ batchSize) x
    (fun k row i => row i * multiplier (slotRow nBatches k) i) output

/-- In place; the rows of `scale` have one float. -/
def scaleForward (nBatches nZ batchSize x : Nat) (scale output : Rows R) : Rows R :=
  forRows nBatches (zyRows nZ batchSize) x
    (fun k row i => row i * scale (slotRow nBatches k) 0) output

def mergeSumForward (nBatches nZ batchSize x : Nat) (input output : Rows R) : Rows R :=
  forRows nBatches ((List.range batchSize).map fun y => (0, y)) x
    (fun k _ i => ∑ z ∈ Finset.range nZ, input (k.2 + z * nBatches) i) output

variable [LinearOrder R]

def softmaxForward (m : Libm R) (batchSize x : Nat) (output : Rows R) : Rows R :=
  (List.range batchSize).foldl
    (fun out y => Function.update out y (softmax_F32 m (out y) 0 x)) output

/-- `std::sort` by `x[a] > x[b]`, which says nothing of the order of equal values. -/
def topk_F32 (x : Mem R) (size k : Nat) : List Nat :=
  ((List.range size).mergeSort fun a b => decide (x b ≤ x a)).take k

/-- A row: the indexes of the selected experts and their shares. -/
def moeGateRow (nBatches size k : Nat) (normTopk : Bool) (input : Rows R)
    (s : Mem Nat × Rows R) (y : Nat) : Mem Nat × Rows R :=
  let pos := topk_F32 (input y) size k
  let sum := if normTopk then (pos.map (input y)).sum else 1
  (List.range k).foldl (fun s j =>
    let p := pos.getD j 0
    (Function.update s.1 (y * k + j) p,
      Function.update s.2 (slotRow nBatches (j, y))
        (writeRow 1 (fun _ => input y p / sum) (s.2 (slotRow nBatches (j, y)))))) s

def moeGateForward (nBatches size k : Nat) (normTopk : Bool) (batchSize : Nat) (input : Rows R)
    (s : Mem Nat × Rows R) : Mem Nat × Rows R :=
  (List.range batchSize).foldl (moeGateRow nBatches size k normTopk input) s

end Kernels

/-! ## The ops of a layer -/

structure MoeConfig where
  nExperts : Nat
  nActiveExperts : Nat
  nBatches : Nat
  dim : Nat
  hiddenDim : Nat

structure MoeWeights (R : Type) where
  moeGate : Mem R
  w1 : Mem R
  w2 : Mem R
  w3 : Mem R

structure MoeBuffers (R α : Type) where
  y : Rows R
  moeYq : Nat × Nat → α
  moeGt : Rows R
  moeExpertIndexes : Mem Nat
  moeS : Rows R
  moeD : Rows R
  moeDQ : Rows R
  moeL : Rows R
  moeY : Rows R

variable {R α : Type} [Field R] [LinearOrder R]

/-- The ops of the gate. -/
def gateForward (m : Libm R) (c : MoeConfig) (moeGate : Mem R) (fastGate : Bool) (batchSize : Nat)
    (b : MoeBuffers R α) : Rows R :=
  softmaxForward m batchSize c.nExperts
    (matmulForward fastGate ⟨0, 0⟩ c.dim c.nExperts c.nBatches 1 batchSize moeGate
      b.moeExpertIndexes b.y b.moeGt)

/-- The ops in their order, on one node.  `fastGate` and `fast` are about the floats of the gate and
the quantised weights of the experts, `trace` about the threads of `block_moe_y_repeat`. -/
def moeForward (m : Libm R) (q : ExactQ80 R α) (c : MoeConfig) (w : MoeWeights R)
    (fastGate fast : Bool) (batchSize : Nat) (trace : List (Nat × RepeatStep))
    (b : MoeBuffers R α) : MoeBuffers R α :=
  let nZ := max c.nActiveExperts 1
  let experts : NnMatmulOpConfig := ⟨c.nExperts, c.nActiveExperts⟩
  let moeYq := repeatRows q c.nBatches trace b.y b.moeYq
  let moeGt := gateForward m c w.moeGate fastGate batchSize b
  let (moeExpertIndexes, moeS) := moeGateForward c.nBatches c.nExperts c.nActiveExperts true
    batchSize moeGt (b.moeExpertIndexes, b.moeS)
  let moeD := matmulForward fast experts c.dim c.hiddenDim c.nBatches nZ batchSize w.w1
    moeExpertIndexes (q.floats moeYq) b.moeD
  let moeL := matmulForward fast experts c.dim c.hiddenDim c.nBatches nZ batchSize w.w3
    moeExpertIndexes (q.floats moeYq) b.moeL
  let moeD := siluForward m c.nBatches nZ batchSize c.hiddenDim moeD
  let moeD := mulForward c.nBatches nZ batchSize c.hiddenDim moeL moeD
  let moeDQ := castForward c.nBatches nZ batchSize c.hiddenDim moeD b.moeDQ
  let moeY := matmulForward fast experts c.hiddenDim c.dim c.nBatches nZ batchSize w.w2
    moeExpertIndexes moeDQ b.moeY
  let moeY := scaleForward c.nBatches nZ batchSize c.dim moeS moeY
  let y := mergeSumForward c.nBatches nZ batchSize c.dim moeY b.y
  ⟨y, moeYq, moeGt, moeExpertIndexes, moeS, moeD, moeDQ, moeL, moeY⟩

end Kernels.Moe
end PrefillOpt
