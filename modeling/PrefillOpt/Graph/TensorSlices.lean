import PrefillOpt.Graph.RowOps

/-!
# TensorSlices — the slices of a tensor parallel net against those of a single node

A net of `n` ranks and a net of one node for the same model.  Both slice the model with the same
functions of `nn-core.cpp`; every rank has a part of each weight that is cut, and all of the
others.
-/

namespace PrefillOpt

open Lib (Mem)

/-! ## Accepted slices -/

/-- The slices for `n` ranks put together are as large as the model. -/
structure RankSlices (h : LlmHeader) (n : Nat) (s : LlmSlices) : Prop where
  qSlice : s.qSlice.n = h.dim ∧ n * s.qSlice.d0 = h.qDim
  kSlice : s.kSlice.n = h.dim ∧ n * s.kSlice.d0 = h.kvDim
  vSlice : s.vSlice.n = h.dim ∧ n * s.vSlice.d0 = h.kvDim
  woSlice : s.woSlice.d = h.dim ∧ n * s.woSlice.n0 = h.qDim
  w1Slice : s.w1Slice.n = h.dim ∧ n * s.w1Slice.d0 = h.ffDim
  w2Slice : s.w2Slice.d = h.dim ∧ n * s.w2Slice.n0 = h.ffDim
  w3Slice : s.w3Slice.n = h.dim ∧ n * s.w3Slice.d0 = h.ffDim
  wclsSlice : s.wclsSlice.d = h.vocabSize ∧ n * s.wclsSlice.n0 = h.dim
  heads : s.multiHeadAttSlice.nHeads = h.nHeads ∧ n * s.multiHeadAttSlice.nHeads0 = h.nHeads
  rmsNormSize : s.rmsNormSize = size1D .f32 h.dim
  moeGateSize : s.moeGateSize = size2D .f32 h.dim h.nExperts
  tokenEmbeddingSize : s.tokenEmbeddingSize = size2D .f32 h.vocabSize h.dim
  qNorm : h.hasQkNorm = true → s.nQNormColumns * h.headDim = s.qSlice.d0
  kNorm : h.hasQkNorm = true → s.nKNormColumns * h.headDim = s.kSlice.d0

theorem rowSlice_of_ok {type : NnFloatType} {nNodes n d : Nat} {s : NnRowMatmulSlice}
    (hok : sliceRowMatmul type nNodes n d = .ok s) : s.n = n ∧ nNodes * s.d0 = d := by
  rcases bind_eq_ok hok with ⟨_, hmod, hok⟩
  rcases bind_eq_ok hok with ⟨_, -, hok⟩
  rcases bind_eq_ok hok with ⟨_, -, hok⟩
  cases hok
  exact ⟨rfl, Nat.mul_div_cancel' (Nat.dvd_of_mod_eq_zero (eq_of_beq (assertThat_eq_ok hmod)))⟩

theorem colSlice_of_ok {type : NnFloatType} {nNodes n d : Nat} {s : NnColMatmulSlice}
    (hok : sliceColMatmul type nNodes n d = .ok s) : s.d = d ∧ nNodes * s.n0 = n := by
  rcases bind_eq_ok hok with ⟨_, hmod, hok⟩
  rcases bind_eq_ok hok with ⟨_, -, hok⟩
  rcases bind_eq_ok hok with ⟨_, -, hok⟩
  cases hok
  exact ⟨rfl, Nat.mul_div_cancel' (Nat.dvd_of_mod_eq_zero (eq_of_beq (assertThat_eq_ok hmod)))⟩

theorem headSlice_of_ok {nHeads seqLen nNodes nBatches : Nat} {s : NnMultiHeadAttSlice}
    (hok : sliceMultiHeadAtt nHeads seqLen nNodes nBatches = .ok s) :
    s.nHeads = nHeads ∧ nNodes * s.nHeads0 = nHeads := by
  rcases bind_eq_ok hok with ⟨_, hmod, hok⟩
  cases hok
  exact ⟨rfl, Nat.mul_div_cancel' (Nat.dvd_of_mod_eq_zero (eq_of_beq (assertThat_eq_ok hmod)))⟩

theorem rankSlices_of_ok {h : LlmHeader} {n nBatches : Nat} {s : LlmSlices}
    (hok : buildLlmSlices h n nBatches = .ok s) : RankSlices h n s := by
  rcases bind_eq_ok hok with ⟨att, hatt, hok⟩
  rcases bind_eq_ok hok with ⟨q, hq, hok⟩
  rcases bind_eq_ok hok with ⟨k, hk, hok⟩
  rcases bind_eq_ok hok with ⟨v, hv, hok⟩
  rcases bind_eq_ok hok with ⟨wo, hwo, hok⟩
  rcases bind_eq_ok hok with ⟨w1, hw1, hok⟩
  rcases bind_eq_ok hok with ⟨w2, hw2, hok⟩
  rcases bind_eq_ok hok with ⟨w3, hw3, hok⟩
  rcases bind_eq_ok hok with ⟨wcls, hwcls, hok⟩
  -- the check of the head norms comes last
  have hnorm : (h.hasQkNorm = true → q.d0 % h.headDim = 0 ∧ k.d0 % h.headDim = 0) ∧
      s = ⟨size2D .f32 h.vocabSize h.dim, size1D .f32 h.dim, size1D .f32 h.headDim,
        size2D .f32 h.dim h.nExperts, att, q, k, v, wo, w1, w2, w3, wcls,
        if h.hasQkNorm then q.d0 / h.headDim else 1,
        if h.hasQkNorm then k.d0 / h.headDim else 1⟩ := by
    cases hnorm : h.hasQkNorm with
    | false =>
        simp only [hnorm, Bool.false_eq_true, if_false] at hok
        cases hok
        exact ⟨fun hfalse => absurd hfalse Bool.false_ne_true, rfl⟩
    | true =>
        simp only [hnorm, if_true] at hok
        rcases bind_eq_ok hok with ⟨_, hqmod, hok⟩
        rcases bind_eq_ok hok with ⟨_, hkmod, hok⟩
        cases hok
        exact ⟨fun _ => ⟨eq_of_beq (assertThat_eq_ok hqmod), eq_of_beq (assertThat_eq_ok hkmod)⟩,
          rfl⟩
  rcases hnorm with ⟨hnorm, rfl⟩
  exact {
    qSlice := rowSlice_of_ok hq
    kSlice := rowSlice_of_ok hk
    vSlice := rowSlice_of_ok hv
    woSlice := colSlice_of_ok hwo
    w1Slice := rowSlice_of_ok hw1
    w2Slice := colSlice_of_ok hw2
    w3Slice := rowSlice_of_ok hw3
    wclsSlice := colSlice_of_ok hwcls
    heads := headSlice_of_ok hatt
    rmsNormSize := rfl
    moeGateSize := rfl
    tokenEmbeddingSize := rfl
    qNorm := fun hqk => by
      simp only [hqk, if_true]
      exact Nat.div_mul_cancel (Nat.dvd_of_mod_eq_zero (hnorm hqk).1)
    kNorm := fun hqk => by
      simp only [hqk, if_true]
      exact Nat.div_mul_cancel (Nat.dvd_of_mod_eq_zero (hnorm hqk).2) }

/-! ## The weights of a rank -/

/-- What a node holds of a weight of the model: a row slice, a column slice or all of it. -/
def rankWeight {F : Type} (s : LlmSlices) (tpRank : Nat)
    (weight : OpName → Nat → Nat → Nat → Nat → F) (name : OpName) (index expert i j : Nat) : F :=
  match name with
  | .blockMatmulQ => weight name index expert (tpRank * s.qSlice.d0 + i) j
  | .blockMatmulK => weight name index expert (tpRank * s.kSlice.d0 + i) j
  | .blockMatmulV => weight name index expert (tpRank * s.vSlice.d0 + i) j
  | .blockMatmulWo => weight name index expert i (tpRank * s.woSlice.n0 + j)
  | .blockMatmulW1 => weight name index expert (tpRank * s.w1Slice.d0 + i) j
  | .blockMatmulW2 => weight name index expert i (tpRank * s.w2Slice.n0 + j)
  | .blockMatmulW3 => weight name index expert (tpRank * s.w3Slice.d0 + i) j
  | .finalMatmulLogits => weight name index expert i (tpRank * s.wclsSlice.n0 + j)
  | _ => weight name index expert i j

/-- The functions and the weights of a model. -/
structure RowModel (F : Type) where
  math : RowMath F
  weight : OpName → Nat → Nat → Nat → Nat → F

/-- What differs from node to node without a meaning for the results. -/
structure RowDevice (F : Type) where
  ropeMemory : Mem F
  fast : NnOpConfig → Bool
  other : NnOpConfig → Nat → NnMemory (BatchRow F) → NnMemory (BatchRow F)

/-- A rank with its part of a model. -/
def RowModel.node {F : Type} (M : RowModel F) (d : RowDevice F) (c : BlockContext)
    (nBatches tpSize tpRank : Nat) : RowNode F where
  math := M.math
  context := c
  nBatches := nBatches
  tpSize := tpSize
  tpRank := tpRank
  weight := rankWeight c.n tpRank M.weight
  ropeMemory := d.ropeMemory
  fast := d.fast
  other := d.other

/-! ## Two nets of one model -/

/-- The context of a rank without pipeline and sequence parallelism. -/
def rankContext (h : LlmHeader) (s : LlmSlices) (spNoShard : Bool) (tpSize : Nat)
    (ropeSlice : NnRopeSlice) : BlockContext :=
  ⟨h, s, 1, spNoShard, none, kvCacheSlice h.kvDim h.seqLen tpSize 1 0, ropeSlice⟩

/-- A model on `n` ranks and on a single node.  Heads are cut where key heads are, the rope caches
have the sizes that are asked for, quantised slices are whole blocks, and an op does not choose
among experts through the ways that know only one. -/
structure TensorSplit (F : Type) (n : Nat) where
  h : LlmHeader
  nBatches : Nat
  spNoShard : Bool
  model : RowModel F
  devices : Fin n → RowDevice F
  device : RowDevice F
  slices : LlmSlices
  wholeSlices : LlmSlices
  rope : Fin n → NnRopeSlice
  wholeRope : NnRopeSlice
  slicesOf : RankSlices h n slices
  wholeSlicesOf : RankSlices h 1 wholeSlices
  sliceRope_eq : ∀ r : Fin n, sliceRope h.ropeType h.qDim h.kvDim h.nKvHeads n h.seqLen h.headDim
    h.ropeTheta r.val = .ok (rope r)
  sliceRope_whole : sliceRope h.ropeType h.qDim h.kvDim h.nKvHeads 1 h.seqLen h.headDim h.ropeTheta
    0 = .ok wholeRope
  ropeCache : ∀ r : Fin n, (rope r).cacheSize.length
    = h.seqLen * if h.ropeType = .falcon then h.headDim else (rope r).sliceDim
  wholeRopeCache : wholeRope.cacheSize.length
    = h.seqLen * if h.ropeType = .falcon then h.headDim else wholeRope.sliceDim
  qDim_eq : h.qDim = h.nHeads * h.headDim
  kvDim_eq : h.kvDim = h.nKvHeads * h.headDim
  kvHeads_dvd : h.nKvHeads ∣ h.nHeads
  ranks_dvd : n ∣ h.nKvHeads
  heads_pos : 0 < h.nHeads
  headDim_pos : 0 < h.headDim
  blocks : h.syncType ≠ .f32 → 32 ∣ slices.wclsSlice.n0 ∧ 32 ∣ slices.qSlice.d0 ∧
    32 ∣ slices.w1Slice.d0
  experts : h.archType = .qwen3Moe → h.nActiveExperts ≠ 1

namespace TensorSplit

variable {F : Type} {n : Nat} (T : TensorSplit F n)

def rankContext (r : Fin n) : BlockContext :=
  PrefillOpt.rankContext T.h T.slices T.spNoShard n (T.rope r)

def wholeContext : BlockContext :=
  PrefillOpt.rankContext T.h T.wholeSlices T.spNoShard 1 T.wholeRope

def rank (r : Fin n) : RowNode F :=
  T.model.node (T.devices r) (T.rankContext r) T.nBatches n r.val

def whole : RowNode F := T.model.node T.device T.wholeContext T.nBatches 1 0

@[simp] theorem rankContext_h (r : Fin n) : (T.rankContext r).h = T.h := rfl

@[simp] theorem rankContext_n (r : Fin n) : (T.rankContext r).n = T.slices := rfl

@[simp] theorem wholeContext_h : T.wholeContext.h = T.h := rfl

@[simp] theorem wholeContext_n : T.wholeContext.n = T.wholeSlices := rfl

/-! ## Widths -/

include T in
theorem ranks_pos : 0 < n :=
  Nat.pos_of_dvd_of_pos (T.ranks_dvd.trans T.kvHeads_dvd) T.heads_pos

include T in
/-- Equal parts of one width. -/
theorem width_eq {a b w : Nat} (ha : n * a = w) (hb : n * b = w) : a = b :=
  Nat.eq_of_mul_eq_mul_left T.ranks_pos (ha.trans hb.symm)

/-- Keys and values of a rank. -/
theorem kvDim0_eq : T.h.kvDim / n = T.slices.kSlice.d0 := by
  rw [← T.slicesOf.kSlice.2, Nat.mul_div_cancel_left _ T.ranks_pos]

end TensorSplit
end PrefillOpt
