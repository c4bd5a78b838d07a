import Mathlib.Algebra.Order.Floor.Defs
import PrefillOpt.Graph.Semantics
import PrefillOpt.Kernels.AttentionBatch
import PrefillOpt.Kernels.MoeOps
import PrefillOpt.Kernels.RopePermute
import PrefillOpt.Lib.Shards

/-!
# RowOps — what the ops of a graph do to the rows of a batch

`nn-cpu-ops.cpp`, the kernels behind the op codes, on the rows that `nn-cpu.cpp` resolves their
pointers to.  Floats are the elements of an ordered field, a row holds the numbers of its slots and
columns, and a quantised row the numbers its blocks stand for.  An op is what the threads of its
node do together; for `repeatZ`, whose threads have no barrier between quantising and copying, that
is what they do with even shares (`Kernels.EvenShares`).  Pruning and the fused head are left open.
-/

namespace PrefillOpt

open Lib (Mem mapBlocks dotRow runTrace)
open Kernels (Libm RopeMath NnRopeOpConfig)

/-- A row of a pipe or buffer, by slot and column. -/
abbrev BatchRow (F : Type) := Nat → Nat → F

/-- The functions behind the kernels. -/
structure RowMath (F : Type) where
  libm : Libm F
  rope : RopeMath F
  /-- a block of 32 floats after the conversion between two float types -/
  convert : NnFloatType → NnFloatType → List F → List F

/-- A node with the weights it has been given. -/
structure RowNode (F : Type) where
  math : RowMath F
  context : BlockContext
  nBatches : Nat
  tpSize : Nat
  tpRank : Nat
  /-- of an op: the number at an expert, an output and an input -/
  weight : OpName → Nat → Nat → Nat → Nat → F
  /-- what the buffer of the rope cache holds before it is filled -/
  ropeMemory : Mem F
  /-- whether `matmulForward_repack` or `matmulForward_llamafile` takes an op of one slot on -/
  fast : NnOpConfig → Bool
  /-- pruning and the fused head -/
  other : NnOpConfig → Nat → NnMemory (BatchRow F) → NnMemory (BatchRow F)

/-! ## Sizes -/

/-- The sizes that `buildLlmNet` gives its pipes and buffers. -/
def BlockContext.sourceSize (c : BlockContext) (tpSize nBatches : Nat) :
    NnPointerSource → NnSize3D
  | .pipe .pos => size2D .f32 nBatches 1
  | .pipe .tok => size2D .f32 nBatches 1
  | .pipe .x => size2D .f32 nBatches c.h.dim
  | .pipe .lg => size2D .f32 nBatches c.h.vocabSize
  | .pipe .zq => size2D .f32 nBatches c.h.dim
  | .buffer .x => size2D .f32 nBatches c.h.dim
  | .buffer .y => size2D .f32 nBatches c.h.dim
  | .buffer .qY => size2D c.h.syncType nBatches c.h.dim
  | .buffer .z => size2D .f32 nBatches c.h.qDim
  | .buffer .qZSlice => size2D c.h.syncType nBatches (c.h.qDim / tpSize)
  | .buffer .q => size2D .f32 nBatches c.n.qSlice.d0
  | .buffer .kTemp => size2D .f32 nBatches c.n.kSlice.d0
  | .buffer .vTemp => size2D .f32 nBatches c.n.vSlice.d0
  | .buffer .invRms => size2D .f32 nBatches (max c.n.nQNormColumns c.n.nKNormColumns)
  | .buffer .ropeCache => c.ropeSlice.cacheSize
  | .buffer .att => c.n.multiHeadAttSlice.attSize
  | .buffer .lg => size2D .f32 nBatches c.h.vocabSize
  | .buffer .argmaxPartial => size2D .f32 nBatches 128
  | .buffer .d => size2D .f32 nBatches c.n.w1Slice.d0
  | .buffer .qD => size2D c.h.syncType nBatches c.n.w1Slice.d0
  | .buffer .l => size2D .f32 nBatches c.n.w3Slice.d0
  | .buffer .gt => size2D .f32 nBatches (max c.h.nExperts 1)
  | .buffer .actExpIx => size2D .f32 nBatches (max c.h.nActiveExperts 1)
  | .buffer .moeY => size3D .f32 (max c.h.nActiveExperts 1) nBatches c.h.dim
  | .buffer .qMoeY => size3D c.h.syncType (max c.h.nActiveExperts 1) nBatches c.h.dim
  | .buffer .moeD => size3D .f32 (max c.h.nActiveExperts 1) nBatches c.n.w1Slice.d0
  | .buffer .qMoeD => size3D c.h.syncType (max c.h.nActiveExperts 1) nBatches c.n.w1Slice.d0
  | .buffer .moeL => size3D .f32 (max c.h.nActiveExperts 1) nBatches c.n.w3Slice.d0
  | .buffer .moeS => size3D .f32 (max c.h.nActiveExperts 1) nBatches 1
  | .buffer (.k _) => c.kvCacheSlice.keySize
  | .buffer (.v _) => c.kvCacheSlice.valueSize

namespace RowNode

variable {F : Type} (D : RowNode F)

/-- `size.x` and `size.z` of a pipe or buffer. -/
def width (source : NnPointerSource) : Nat := (D.context.sourceSize D.tpSize D.nBatches source).x

def slots (source : NnPointerSource) : Nat := (D.context.sourceSize D.tpSize D.nBatches source).z

/-! ## Pointers -/

/-- `xSlice` of `resolvePointer`. -/
def sliceWidth (p : NnPointerConfig) : Nat := D.width p.source / D.tpSize

/-- The column at which a pointer into a row starts. -/
def sliceStart (p : NnPointerConfig) : Nat :=
  if p.type = .batchedSlice then D.tpRank * D.sliceWidth p else 0

/-- The row an op reads through a pointer. -/
def load (p : NnPointerConfig) (s : NnMemory (BatchRow F)) (b : Nat) : BatchRow F :=
  fun z x => s (p.source, b) z (D.sliceStart p + x)

/-- The row after an op has written through a pointer. -/
def store (p : NnPointerConfig) (new old : BatchRow F) : BatchRow F :=
  if p.type = .batchedSlice then fun z x =>
    if D.sliceStart p ≤ x ∧ x < D.sliceStart p + D.sliceWidth p then new z (x - D.sliceStart p)
    else old z x
  else new

/-! ## Kernels of one row -/

section Kernels

variable [Field F]

/-- `invRms_F32`. -/
def invRms (x : Mem F) (off size : Nat) (epsilon : ℚ) : F :=
  1 / D.math.libm.sqrtf
    ((∑ j ∈ Finset.range size, x (off + j) * x (off + j)) / size + D.math.rope.ofRat epsilon)

/-- A row through the float types of two sources. -/
def castRow (input output : NnPointerSource) (row : BatchRow F) : BatchRow F :=
  let inputType := input.floatType D.context.h.syncType
  let outputType := output.floatType D.context.h.syncType
  if inputType = outputType then row
  else fun z => mapBlocks 32 (D.math.convert inputType outputType) (row z)

variable [LinearOrder F]

/-- `ropeLlama_F32` or `ropeFalcon_F32` of one thread, with the cache the config gives. -/
def ropeRow (config : NnRopeOpConfig) (pos : Nat) (x : Mem F) : Mem F :=
  match config.type with
  | .falcon =>
      runTrace (Kernels.ropeFalconStep
          (Kernels.fullfillRopeFalconCache D.math.rope config D.ropeMemory) pos config.slice) x
        ((Kernels.ropeFalconThreads config.isQ config.slice 1 0).map fun turn => (0, turn))
  | _ =>
      runTrace (Kernels.ropeLlamaStep
          (Kernels.fullfillRopeLlamaCache D.math.rope config D.ropeMemory) config.isQ pos
          config.slice) x
        ((Kernels.ropeLlamaThreads config.isQ config.slice 1 0).map fun i => (0, i))

variable [FloorSemiring F]

/-- `(NnUint)positions[b]`. -/
def position (pipe : PipeIndex) (s : NnMemory (BatchRow F)) (b : Nat) : Nat :=
  ⌊s (.pipe pipe, b) 0 0⌋₊

/-- Rows one after the other. -/
def flatten (width : Nat) (s : NnMemory (BatchRow F)) (source : NnPointerSource) : Mem F :=
  fun i => s (source, i / width) 0 (i % width)

/-- The memory that the attention kernels read. -/
def attInput (qSliceD0 kvDim0 : Nat) (pipe : PipeIndex) (query key value : BufferIndex)
    (s : NnMemory (BatchRow F)) : Kernels.AttInput F where
  query := flatten qSliceD0 s (.buffer query)
  keyCache := flatten kvDim0 s (.buffer key)
  valueCache := flatten kvDim0 s (.buffer value)
  positions := position pipe s

/-- The matrix of a slot: the fast ways take the first one for an op of one slot. -/
def expertOf (op : NnOpConfig) (nActiveExperts : Nat) (indexes : BufferIndex)
    (s : NnMemory (BatchRow F)) (b z : Nat) : Nat :=
  if nActiveExperts = 0 then 0
  else if D.slots op.input.source = 1 ∧ D.fast op = true then 0
  else ⌊s (.buffer indexes, b) 0 z⌋₊

/-- The experts of a row. -/
def gateTop (k : Nat) (width : Nat) (x : Mem F) : List Nat := Kernels.Moe.topk_F32 x width k

/-- What `moeGateForward_F32_F32` divides their probabilities by. -/
def gateSum (k normTopk width : Nat) (x : Mem F) : F :=
  if normTopk = 1 then ((gateTop k width x).map x).sum else 1

/-- The row that an op with one output row for each input row computes. -/
def rowOf (op : NnOpConfig) (s : NnMemory (BatchRow F)) (b : Nat) : BatchRow F :=
  let input := D.load op.input s b
  let output := D.load op.output s b
  match op.config with
  | .embedding => fun _ x => D.weight op.name op.index 0 ⌊input 0 0⌋₊ x
  | .invRms epsilon nColumns =>
      let colSize := D.width op.input.source / nColumns
      fun z col => D.invRms (input z) (col * colSize) colSize epsilon
  | .rmsNorm inv _ =>
      let colSize := op.weightSize.x
      fun z x => D.weight op.name op.index 0 0 (x % colSize)
        * (s (.buffer inv, b) 0 (x / colSize) * input z x)
  | .matmul _ nActiveExperts indexes => fun z =>
      dotRow op.weightSize.y
        (D.weight op.name op.index (D.expertOf op nActiveExperts indexes s b z)) (input z)
  | .rope type isQ pipe _ factor low high origMaxSeqLen slice => fun z =>
      D.ropeRow ⟨type, isQ, factor, low, high, origMaxSeqLen, slice⟩ (position pipe s b) (input z)
  | .multiHeadAtt nHeads nHeads0 nKvHeads headDim seqLen qSliceD0 kvDim0 _ _ _ pipe query key value
      _ => fun _ x =>
      Kernels.attentionOut D.math.libm
        ⟨nHeads, nHeads0, nKvHeads, headDim, seqLen, qSliceD0, kvDim0⟩
        (attInput qSliceD0 kvDim0 pipe query key value s) (Finset.range (position pipe s b + 1)) b
        (x / headDim) (x % headDim)
  | .mergeAdd => fun z x => output z x + input z x
  | .mergeSum => fun _ x => ∑ z ∈ Finset.range (D.slots op.input.source), input z x
  | .silu => fun z x => output z x / (1 + D.math.libm.expf (-output z x))
  | .mul multiplier => fun z x => input z x * s (.buffer multiplier, b) z x
  | .scale scale => fun z x => input z x * s (.buffer scale, b) z 0
  | .cast => D.castRow op.input.source op.output.source input
  -- every slot, as the threads leave it with `Kernels.EvenShares`
  | .repeatZ => fun _ => D.castRow op.input.source op.output.source input 0
  | .softmax => fun z => Kernels.softmax_F32 D.math.libm (output z) 0 (D.width op.output.source)
  | .moeGate k normTopk _ => fun z _ =>
      let width := D.width op.input.source
      input 0 ((gateTop k width (input 0)).getD z 0) / gateSum k normTopk width (input 0)
  | _ => output

/-! ## Ops -/

/-- One row for each row of the batch. -/
def writeRows (batchSize : Nat) (p : NnPointerConfig) (rows : Nat → BatchRow F)
    (s : NnMemory (BatchRow F)) : NnMemory (BatchRow F) :=
  fun row => if row.1 = p.source ∧ row.2 < batchSize then D.store p (rows row.2) (s row) else s row

/-- `shiftForward_F32_F32`: the rows of a cache are positions. -/
def shiftRows (batchSize : Nat) (op : NnOpConfig) (pipe : PipeIndex) (range : NnShiftOpCodeConfig)
    (s : NnMemory (BatchRow F)) : NnMemory (BatchRow F) :=
  (PrefillOpt.shiftRows ⟨0, 1, 0⟩ range batchSize (position pipe s)).foldl
    (fun s' b => Function.update s' (op.output.source, position pipe s b) (D.load op.input s b)) s

/-- `indexes[y * k + i] = (float)p`. -/
def storeIndexes (batchSize : Nat) (op : NnOpConfig) (k : Nat) (indexes : BufferIndex)
    (s s' : NnMemory (BatchRow F)) : NnMemory (BatchRow F) :=
  fun row => if row.1 = .buffer indexes ∧ row.2 < batchSize then
    fun _ i => ((gateTop k (D.width op.input.source) (D.load op.input s row.2 0)).getD i 0 : F)
  else s' row

/-- An op of a node on a batch. -/
def execute (batchSize : Nat) (op : NnOpConfig) (s : NnMemory (BatchRow F)) :
    NnMemory (BatchRow F) :=
  let s' := D.writeRows batchSize op.output (D.rowOf op s) s
  match op.code, op.config with
  | .pruneTokens, _ => D.other op batchSize s
  | .matmulArgmax, _ => D.other op batchSize s
  | .argmaxReduce, _ => D.other op batchSize s
  | _, .shift pipe range => D.shiftRows batchSize op pipe range s
  | _, .moeGate k _ indexes => D.storeIndexes batchSize op k indexes s s'
  | _, _ => s'

end Kernels

end RowNode

end PrefillOpt
