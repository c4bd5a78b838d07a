import Mathlib.Algebra.Order.Field.Basic
import PrefillOpt.AttentionHeads
import PrefillOpt.CpuShift
import PrefillOpt.Lib.Loops
import PrefillOpt.Lib.Softmax

/-!
# Kernels.Attention — the decode kernel and the batch kernel of attention

`nn-cpu-ops.cpp`, `softmax_F32`, `multiheadAtt_F32`, `multiheadAttBatch_F32`.  Floats are the
elements of an ordered field with an exponential; the vector forms of a loop over the elements of
a head regroup its sums and are not told apart.  Indices are `NnUint` products as in the source.
-/

namespace PrefillOpt
namespace Kernels

open Lib (Mem add_mul_lt add_mul_inj)

/-! ## Data -/

/-- The functions of the C library. -/
structure Libm (R : Type) where
  expf : R → R
  sqrtf : R → R

structure NnMultiHeadAttOpConfig where
  nHeads : Nat
  nHeads0 : Nat
  nKvHeads : Nat
  headDim : Nat
  seqLen : Nat
  qSliceD0 : Nat
  kvDim0 : Nat
  deriving DecidableEq, Repr

/-- What the kernels read.  `positions b` is the float of row `b` as an `NnUint`. -/
structure AttInput (R : Type) where
  query : Mem R
  keyCache : Mem R
  valueCache : Mem R
  positions : Nat → Nat

/-- `gBlockSize` and `gAnchorLen`. -/
structure BlockMask where
  blockSize : Nat
  anchorLen : Nat
  deriving DecidableEq, Repr

def blockMaskActive (mask : BlockMask) : Bool := mask.blockSize != 0

def blockMaskAllows (mask : BlockMask) (q t : Nat) : Bool :=
  if mask.blockSize = 0 then true
  else if t < mask.anchorLen then true
  else t / mask.blockSize == q / mask.blockSize

/-- An element of an output row, and whether a kernel has stored it. -/
structure Cell (R : Type) where
  val : R
  stored : Bool

/-- The row pointers `outputs[b]`; the rows do not overlap. -/
abbrev Outputs (R : Type) := Nat → Mem (Cell R)

/-- `for (i = 0; i < headDim; i++) hY[i] = f(i, hY[i])` with `hY = &outputs[b][base]`. -/
def Outputs.mapHead {R : Type} (o : Outputs R) (b base headDim : Nat) (f : Nat → R → R) :
    Outputs R := fun b' col =>
  if b' = b ∧ base ≤ col ∧ col < base + headDim then ⟨f (col - base) (o b' col).val, true⟩
  else o b' col

/-- The score buffer and the output rows. -/
structure AttState (R : Type) where
  att : Mem R
  outputs : Outputs R

section Defs

variable {R : Type} [Field R] [LinearOrder R]

def dotProduct_F32 (a b : Mem R) (size : Nat) : R :=
  (List.range size).foldl (fun sum i => sum + a i * b i) 0

/-- In place on `x = &buf[off]`. -/
def softmax_F32 (m : Libm R) (buf : Mem R) (off size : Nat) : Mem R :=
  if size = 0 then buf
  else
    let maxVal := (List.range' 1 (size - 1)).foldl
      (fun maxVal i => if maxVal < buf (off + i) then buf (off + i) else maxVal) (buf off)
    let exps := (List.range size).foldl
      (Lib.mapSumStep (fun i => off + i) fun _ x => m.expf (x - maxVal)) (buf, 0)
    let sum := if exps.2 = 0 then 1 / 1000000 else exps.2
    (List.range size).foldl (fun x i => Function.update x (off + i) (x (off + i) / sum)) exps.1

variable (m : Libm R) (mask : BlockMask) (c : NnMultiHeadAttOpConfig) (inp : AttInput R)

/-- `dotProduct_F32(hQ, posK, headDim) / headDimRoot` with `hQ = &query[qOff]` and
`posK = &keyCache[column][t * kvDim0]`. -/
def attScore (qOff column t : Nat) : R :=
  dotProduct_F32 (fun i => inp.query (qOff + i))
    (fun i => inp.keyCache (column + u32 (t * c.kvDim0) + i)) c.headDim / m.sqrtf c.headDim

/-- `hY[i] += p * posV[i]`. -/
def addValue (o : Outputs R) (b h0 column t : Nat) (p : R) : Outputs R :=
  o.mapHead b (u32 (h0 * c.headDim)) c.headDim fun i y =>
    y + p * inp.valueCache (column + u32 (t * c.kvDim0) + i)

/-- `std::memset(hY, 0, headDim * sizeof(float))`. -/
def clearHead (o : Outputs R) (b h0 : Nat) : Outputs R :=
  o.mapHead b (u32 (h0 * c.headDim)) c.headDim fun _ _ => 0

/-! ## One row at a time -/

/-- One turn of the head loop of `multiheadAtt_F32`, with `q = &query[qOff]`,
`att = &att[attOff]` and `y = outputs[b]`. -/
def multiheadAttHead (b qOff attOff pos : Nat) (s : AttState R) (r : HeadRead) : AttState R :=
  let hAtt := attOff + u32 (r.h0 * c.seqLen)
  let att := (List.range (pos + 1)).foldl (fun att t => Function.update att (hAtt + t)
    (attScore m c inp (qOff + u32 (r.h0 * c.headDim)) r.column t)) s.att
  let att := softmax_F32 m att hAtt (pos + 1)
  ⟨att, (List.range (pos + 1)).foldl
    (fun o t => addValue c inp o b r.h0 r.column t (att (hAtt + t))) (clearHead c s.outputs b r.h0)⟩

def multiheadAtt_F32 (b qOff attOff pos nThreads threadIndex : Nat) (s : AttState R) :
    AttState R :=
  (multiheadAttReads c.nHeads c.nHeads0 c.nKvHeads c.headDim nThreads threadIndex).foldl
    (multiheadAttHead m c inp b qOff attOff pos) s

/-- The loop of `multiHeadAttForward_F32_F32` over the rows. -/
def multiheadAttRows (batchSize nThreads threadIndex : Nat) (s : AttState R) : AttState R :=
  (List.range batchSize).foldl (fun s batchIndex =>
    multiheadAtt_F32 m c inp batchIndex (u32 (batchIndex * c.qSliceD0))
      (u32 (batchIndex * c.nHeads0 * c.seqLen)) (inp.positions batchIndex) nThreads threadIndex s) s

/-! ## The batch kernel -/

/-- One turn of the head loop of the batch kernels: query heads that share a key head, and the
first column of that key head. -/
structure HeadGroup where
  h0Base : Nat
  nHeadsInGroup : Nat
  column : Nat
  deriving DecidableEq, Repr

/-- `h0Begin`, `h0Limit` and `headStride` of a thread. -/
structure HeadLoop where
  h0Begin : Nat
  h0Limit : Nat
  headStride : Nat
  deriving DecidableEq, Repr

def headLoop (nThreads threadIndex : Nat) : HeadLoop :=
  let kvMul := c.nHeads / c.nKvHeads
  let nGroups := if 0 < kvMul ∧ c.nHeads0 % kvMul = 0 then c.nHeads0 / kvMul else 0
  let groupSplit := nThreads ≤ nGroups ∧ 0 < nGroups
  if groupSplit then
    let (gStart, gEnd) := splitThreads nGroups nThreads threadIndex
    ⟨gStart * kvMul, gEnd * kvMul, kvMul⟩
  else
    let (hStart, hEnd) := splitThreads c.nHeads0 nThreads threadIndex
    ⟨hStart, hEnd, 1⟩

/-- The turns of `for (h0Base = h0Begin; h0Base < h0Limit; h0Base += headStride)`. -/
def HeadLoop.turns (l : HeadLoop) : Nat :=
  (l.h0Limit - l.h0Begin + (l.headStride - 1)) / l.headStride

def headGroup (l : HeadLoop) (turn : Nat) : HeadGroup :=
  let h0Base := l.h0Begin + turn * l.headStride
  let nHeadsInGroup :=
    if h0Base + l.headStride ≤ l.h0Limit then l.headStride else l.h0Limit - h0Base
  let headIndex := h0Base / (c.nHeads / c.nKvHeads)
  ⟨h0Base, nHeadsInGroup, u32 (headIndex * c.headDim)⟩

def headGroups (nThreads threadIndex : Nat) : List HeadGroup :=
  let l := headLoop c nThreads threadIndex
  (List.range l.turns).map (headGroup c l)

/-- The rows from `winBegin` to `winEnd`. -/
def windowRows (w : CpuRowState) (batchSize : Nat) : List Nat :=
  let (winBegin, winCount) := cpRowWindow w batchSize
  List.range' winBegin winCount

/-- The farthest position of some rows. -/
def maxPosition (rows : List Nat) : Nat :=
  rows.foldl (fun maxPos b => if maxPos < inp.positions b then inp.positions b else maxPos) 0

def attIndex (b h0 t : Nat) : Nat := u32 ((b * c.nHeads0 + h0) * c.seqLen + t)

/-- A query at `q` sees a key at `t`: neither `continue` is taken. -/
def attends (q t : Nat) : Bool := decide (t ≤ q) && blockMaskAllows mask q t

/-- A slot is a head `h0` of the group and a row `b`. -/
@[ext] structure Slot where
  h0 : Nat
  b : Nat
  deriving DecidableEq, Repr

/-- The loops over the heads of a group and the rows. -/
def slotTurns (g : HeadGroup) (rows : List Nat) : List Slot :=
  (List.range' g.h0Base g.nHeadsInGroup).flatMap fun h0 => rows.map fun b => ⟨h0, b⟩

def scoreTurn (column t : Nat) (att : Mem R) (s : Slot) : Mem R :=
  if attends mask (inp.positions s.b) t then
    Function.update att (attIndex c s.b s.h0 t)
      (attScore m c inp (u32 (s.b * c.qSliceD0 + s.h0 * c.headDim)) column t)
  else att

/-- (1): the key at `t` is read once for all slots. -/
def batchScores (maxPos column : Nat) (slots : List Slot) (att : Mem R) : Mem R :=
  (List.range (maxPos + 1)).foldl
    (fun att t => slots.foldl (scoreTurn m mask c inp column t) att) att

/-- (2): a slot is normalised from its start to the position of its row. -/
def softmaxTurn (att : Mem R) (s : Slot) : Mem R :=
  softmax_F32 m att (u32 ((s.b * c.nHeads0 + s.h0) * c.seqLen)) (inp.positions s.b + 1)

/-- (3) -/
def clearSlots (slots : List Slot) (o : Outputs R) : Outputs R :=
  slots.foldl (fun o s => clearHead c o s.b s.h0) o

def valueTurn (column : Nat) (att : Mem R) (t : Nat) (o : Outputs R) (s : Slot) : Outputs R :=
  if attends mask (inp.positions s.b) t then
    addValue c inp o s.b s.h0 column t (att (attIndex c s.b s.h0 t))
  else o

/-- (4): the value at `t` is read once for all slots. -/
def batchValues (maxPos column : Nat) (slots : List Slot) (att : Mem R) (o : Outputs R) :
    Outputs R :=
  (List.range (maxPos + 1)).foldl
    (fun o t => slots.foldl (valueTurn mask c inp column att t) o) o

/-- One turn of the loop over the key heads. -/
def batchGroup (rows : List Nat) (s : AttState R) (g : HeadGroup) : AttState R :=
  let maxPos := maxPosition inp rows
  let slots := slotTurns g rows
  let att := batchScores m mask c inp maxPos g.column slots s.att
  let att := slots.foldl (softmaxTurn m c inp) att
  ⟨att, batchValues mask c inp maxPos g.column slots att (clearSlots c slots s.outputs)⟩

def multiheadAttBatch_F32 (w : CpuRowState) (batchSize nThreads threadIndex : Nat)
    (s : AttState R) : AttState R :=
  (headGroups c nThreads threadIndex).foldl (batchGroup m mask c inp (windowRows w batchSize)) s

end Defs

/-! ## Buffers -/

/-- The heads of a row lie in the row, and no buffer is shorter than the product of its sides:
`size2D` forms the product as an `NnUint`. -/
structure NnMultiHeadAttOpConfig.Allocated (c : NnMultiHeadAttOpConfig) (nBatches : Nat) :
    Prop where
  heads : c.nHeads0 * c.headDim ≤ c.qSliceD0
  query : (size2D .f32 nBatches c.qSliceD0).length = nBatches * c.qSliceD0
  cache : (size2D .f32 c.seqLen c.kvDim0).length = c.seqLen * c.kvDim0
  att : (size2D .f32 nBatches (c.nHeads0 * c.seqLen)).length = nBatches * (c.nHeads0 * c.seqLen)

namespace NnMultiHeadAttOpConfig.Allocated

variable {c : NnMultiHeadAttOpConfig} {nBatches b h0 t : Nat}

theorem lt_of_length {y x : Nat} (h : (size2D .f32 y x).length = y * x) : y * x < 2 ^ 32 := by
  rw [← h]
  exact u32_lt _

theorem u32_query (ha : c.Allocated nBatches) (hb : b < nBatches) (hh : h0 < c.nHeads0) :
    u32 (b * c.qSliceD0 + h0 * c.headDim) = b * c.qSliceD0 + h0 * c.headDim := by
  apply u32_of_lt
  have hfits := lt_of_length ha.query
  have hrow : h0 * c.headDim ≤ c.qSliceD0 :=
    (Nat.mul_le_mul_right c.headDim hh.le).trans ha.heads
  have hlast : (b + 1) * c.qSliceD0 ≤ nBatches * c.qSliceD0 := Nat.mul_le_mul_right _ hb
  rw [Nat.succ_mul] at hlast
  omega

theorem u32_queryRow (ha : c.Allocated nBatches) (hb : b < nBatches) :
    u32 (b * c.qSliceD0) = b * c.qSliceD0 := by
  apply u32_of_lt
  exact (Nat.mul_le_mul_right _ hb.le).trans_lt (lt_of_length ha.query)

theorem u32_head (ha : c.Allocated nBatches) (hb : b < nBatches) (hh : h0 ≤ c.nHeads0) :
    u32 (h0 * c.headDim) = h0 * c.headDim := by
  apply u32_of_lt
  have hfits := lt_of_length ha.query
  have hrow : h0 * c.headDim ≤ c.qSliceD0 := (Nat.mul_le_mul_right c.headDim hh).trans ha.heads
  have hone : c.qSliceD0 ≤ nBatches * c.qSliceD0 := Nat.le_mul_of_pos_left _ (by omega)
  omega

theorem u32_key (ha : c.Allocated nBatches) (ht : t < c.seqLen) :
    u32 (t * c.kvDim0) = t * c.kvDim0 := by
  apply u32_of_lt
  exact (Nat.mul_le_mul_right _ ht.le).trans_lt (lt_of_length ha.cache)

theorem attIndex_eq (ha : c.Allocated nBatches) (hb : b < nBatches) (hh : h0 < c.nHeads0)
    (ht : t < c.seqLen) : attIndex c b h0 t = (b * c.nHeads0 + h0) * c.seqLen + t := by
  apply u32_of_lt
  have hslot : b * c.nHeads0 + h0 < nBatches * c.nHeads0 := add_mul_lt hb hh
  have hfits := lt_of_length ha.att
  rw [← Nat.mul_assoc] at hfits
  exact (add_mul_lt hslot ht).trans hfits

/-- The score slots of different rows and heads do not overlap. -/
theorem attIndex_inj (ha : c.Allocated nBatches) {b' h0' t' : Nat} (hb : b < nBatches)
    (hh : h0 < c.nHeads0) (ht : t < c.seqLen) (hb' : b' < nBatches) (hh' : h0' < c.nHeads0)
    (ht' : t' < c.seqLen) (h : attIndex c b h0 t = attIndex c b' h0' t') :
    b = b' ∧ h0 = h0' ∧ t = t' := by
  rw [ha.attIndex_eq hb hh ht, ha.attIndex_eq hb' hh' ht'] at h
  have hslot := add_mul_inj ht ht' h
  have hrow := add_mul_inj hh hh' hslot.1
  exact ⟨hrow.1, hrow.2, hslot.2⟩

/-- Both ways of addressing the slot of a row and a head. -/
theorem u32_slot_add (ha : c.Allocated nBatches) (hb : b < nBatches) (hh : h0 < c.nHeads0)
    (ht : t < c.seqLen) :
    u32 ((b * c.nHeads0 + h0) * c.seqLen) + t = attIndex c b h0 t ∧
      u32 (b * c.nHeads0 * c.seqLen) + u32 (h0 * c.seqLen) + t = attIndex c b h0 t := by
  have hfits : attIndex c b h0 t < 2 ^ 32 := u32_lt _
  rw [ha.attIndex_eq hb hh ht] at hfits ⊢
  rw [Nat.add_mul] at hfits ⊢
  rw [u32_of_lt (by omega), u32_of_lt (by omega), u32_of_lt (by omega)]
  exact ⟨rfl, rfl⟩

end NnMultiHeadAttOpConfig.Allocated

/-! ## The elements of a head -/

/-- The element is one of the head `h0` of row `b`. -/
def InHead (c : NnMultiHeadAttOpConfig) (b h0 b' col : Nat) : Prop :=
  b' = b ∧ h0 * c.headDim ≤ col ∧ col < h0 * c.headDim + c.headDim

section Cells

variable {R : Type} {c : NnMultiHeadAttOpConfig} {inp : AttInput R} {o : Outputs R} {b h0 : Nat}

/-- An element is in one head only. -/
theorem InHead.unique {b' h0' i : Nat} (hi : i < c.headDim)
    (h : InHead c b' h0' b (h0 * c.headDim + i)) : b' = b ∧ h0' = h0 := by
  rcases h with ⟨hb, hle, hlt⟩
  refine ⟨hb.symm, ?_⟩
  have hsplit : h0 * c.headDim + i = h0' * c.headDim + (h0 * c.headDim + i - h0' * c.headDim) := by
    omega
  exact (add_mul_inj hi (by omega) hsplit).1.symm

theorem mapHead_self {f : Nat → R → R} {base i : Nat} (hi : i < c.headDim) :
    o.mapHead b base c.headDim f b (base + i) = ⟨f i (o b (base + i)).val, true⟩ := by
  have hin : b = b ∧ base ≤ base + i ∧ base + i < base + c.headDim :=
    ⟨rfl, Nat.le_add_right _ _, Nat.add_lt_add_left hi _⟩
  rw [Outputs.mapHead, if_pos hin, Nat.add_sub_cancel_left]

theorem mapHead_other {f : Nat → R → R} {b' col : Nat} (h : ¬InHead c b h0 b' col) :
    o.mapHead b (h0 * c.headDim) c.headDim f b' col = o b' col :=
  if_neg h

variable [Field R] {nBatches : Nat} (ha : c.Allocated nBatches) (hb : b < nBatches)
  (hh : h0 < c.nHeads0)
include ha hb hh

theorem clearHead_self {i : Nat} (hi : i < c.headDim) :
    clearHead c o b h0 b (h0 * c.headDim + i) = ⟨0, true⟩ := by
  rw [clearHead, ha.u32_head hb hh.le, mapHead_self hi]

theorem clearHead_other {b' col : Nat} (h : ¬InHead c b h0 b' col) :
    clearHead c o b h0 b' col = o b' col := by
  rw [clearHead, ha.u32_head hb hh.le]
  exact mapHead_other h

theorem addValue_self {column t i : Nat} {p : R} (hi : i < c.headDim) (ht : t < c.seqLen) :
    addValue c inp o b h0 column t p b (h0 * c.headDim + i)
      = ⟨(o b (h0 * c.headDim + i)).val + p * inp.valueCache (column + t * c.kvDim0 + i),
        true⟩ := by
  rw [addValue, ha.u32_head hb hh.le, mapHead_self hi, ha.u32_key ht]

theorem addValue_other {column t b' col : Nat} {p : R} (h : ¬InHead c b h0 b' col) :
    addValue c inp o b h0 column t p b' col = o b' col := by
  rw [addValue, ha.u32_head hb hh.le]
  exact mapHead_other h

end Cells

/-! ## The softmax of a slice of a buffer -/

section Softmax

variable {R : Type} [Field R] [LinearOrder R] {m : Libm R} {buf : Mem R} {off size : Nat}

theorem softmax_F32_other {i : Nat} (h : ∀ j < size, off + j ≠ i) :
    softmax_F32 m buf off size i = buf i := by
  have hlist : ∀ j ∈ List.range size, off + j ≠ i := fun j hj => h j (List.mem_range.1 hj)
  unfold softmax_F32
  split_ifs with hsize
  · rfl
  · refine Lib.foldl_keeps (P := fun x : Mem R => x i = buf i) (fun j hj x hx => ?_) ?_
    · exact (Function.update_of_ne (hlist j hj).symm ..).trans hx
    · exact Lib.foldl_mapSum_of_ne (fun j => off + j) _ hlist (buf, 0)

/-- Every entry becomes its share of the exponentials of all entries. -/
theorem softmax_F32_self [IsStrictOrderedRing R] (he : Lib.IsExp m.expf) {i : Nat}
    (hi : i < size) :
    softmax_F32 m buf off size (off + i)
      = m.expf (buf (off + i)) / ∑ j ∈ Finset.range size, m.expf (buf (off + j)) := by
  have hinj : ∀ a ∈ List.range size, ∀ b ∈ List.range size, off + a = off + b → a = b :=
    fun a _ b _ hab => Nat.add_left_cancel hab
  have hmem := List.mem_range.2 hi
  have hne : size ≠ 0 := by omega
  rw [softmax_F32, if_neg hne]
  generalize (List.range' 1 (size - 1)).foldl _ (buf off) = maxVal
  have hexp := Lib.foldl_mapSum_of_mem (fun j => off + j) (fun _ x => m.expf (x - maxVal))
    List.nodup_range hinj hmem (buf, 0)
  have hsum := Lib.foldl_mapSum_sum (fun j => off + j) (fun _ x => m.expf (x - maxVal))
    List.nodup_range hinj (buf, 0)
  rw [List.toFinset_range, zero_add] at hsum
  generalize (List.range size).foldl (Lib.mapSumStep _ _) (buf, 0) = exps at hexp hsum ⊢
  have hpos : 0 < exps.2 := by
    rw [hsum]
    exact Finset.sum_pos (fun j _ => he.pos _) ⟨i, Finset.mem_range.2 hi⟩
  simp only [if_neg hpos.ne']
  have hdiv : (List.range size).foldl
      (fun x i => Function.update x (off + i) (x (off + i) / exps.2)) exps.1 (off + i)
        = exps.1 (off + i) / exps.2 := by
    refine Lib.foldl_once (P := fun x : Mem R => x (off + i) = exps.1 (off + i))
      (Q := fun x : Mem R => x (off + i) = exps.1 (off + i) / exps.2) List.nodup_range hmem
      (fun j _ hne x hx => ?_) (fun x hx => ?_) (fun j _ hne x hx => ?_) rfl
    · exact (Function.update_of_ne (by omega) ..).trans hx
    · rw [← hx]
      exact Function.update_self ..
    · exact (Function.update_of_ne (by omega) ..).trans hx
  rw [hdiv, hexp, hsum]
  exact he.sub_div_sum (s := fun j => buf (off + j)) (Finset.range size) maxVal i

end Softmax

end Kernels
end PrefillOpt
