import PrefillOpt.Graph.ShardedOps

/-!
# ShardedRope — rotations on ranks

The rotation of neighbours knows where the slice of a rank starts, the one of halves knows only
heads.  Both turn a dimension of a rank as the single node turns the dimension it stands for.
-/

namespace PrefillOpt

open Lib Kernels

/-! ## One thread -/

/-- A single thread is an interleaving of its own. -/
theorem interleaves_single {ι : Type} (prog : Nat → List ι) (h : ∀ t, t ≠ 0 → prog t = []) :
    Interleaves prog ((prog 0).map fun i => (0, i)) := by
  intro t
  rcases eq_or_ne t 0 with rfl | hne
  · exact projection_map_self 0 _
  · rw [projection_map_of_ne hne.symm, h t hne]

theorem ropeLlamaThreads_of_ne {isQ : Bool} {s : NnRopeSlice} {t : Nat} (h : t ≠ 0) :
    ropeLlamaThreads isQ s 1 t = [] :=
  if_neg (by omega)

theorem ropeFalconThreads_of_ne {isQ : Bool} {s : NnRopeSlice} {t : Nat} (h : t ≠ 0) :
    ropeFalconThreads isQ s 1 t = [] :=
  if_neg (by omega)

/-! ## Halves -/

section Halves

variable {F : Type} [Add F] [Sub F] [Mul F]

/-- Column `d` of heads of `headDim` columns whose halves are rotated; the last column of a head
of odd width has no partner. -/
def halvesRotated (m : RopeMath F) (freq : Nat → F) (pos headDim : Nat) (x : Mem F) (d : Nat) : F :=
  let half := headDim / 2
  let j := d % headDim
  if j < half then
    x d * m.cosf (m.ofNat pos * freq j) - x (d + half) * m.sinf (m.ofNat pos * freq j)
  else if j < half + half then
    x (d - half) * m.sinf (m.ofNat pos * freq (j - half))
      + x d * m.cosf (m.ofNat pos * freq (j - half))
  else x d

variable {type : NnRopeType} {qDim kvDim nKvHeads nNodes seqLen headDim nodeIndex k pos d : Nat}
  {ropeTheta : ℚ} {s : NnRopeSlice} {isQ : Bool}

/-- The slice of any rank rotates its own heads. -/
theorem falconSlice_of_rank
    (h : sliceRope .falcon qDim kvDim nKvHeads nNodes seqLen headDim ropeTheta nodeIndex = .ok s) :
    FalconSlice (qDim / nNodes) (kvDim / nNodes) seqLen headDim s ∧ s.ropeTheta = ropeTheta := by
  rcases bind_eq_ok h with ⟨_, -, h⟩
  rcases bind_eq_ok h with ⟨_, -, h⟩
  rcases bind_eq_ok h with ⟨_, -, h⟩
  rcases bind_eq_ok h with ⟨_, -, h⟩
  rcases bind_eq_ok h with ⟨_, -, h⟩
  cases h
  exact ⟨⟨rfl, rfl, rfl, rfl, rfl⟩, rfl⟩

/-- The row after the op. -/
theorem ropeFalcon_eq (h : FalconSlice qDim kvDim seqLen headDim s)
    (hcache : s.cacheSize.length = seqLen * headDim) (hhead : 0 < headDim)
    (hdim : wholeDim isQ qDim kvDim = k * headDim) (hpos : pos < seqLen) (hd : d < k * headDim)
    (m : RopeMath F) (freq : Nat → F) (cache x : Mem F) :
    runTrace (ropeFalconStep (fillRopeFalconCache m s freq cache) pos s) x
        ((ropeFalconThreads isQ s 1 0).map fun turn => (0, turn)) d
      = halvesRotated m freq pos headDim x d := by
  have htr := interleaves_single (ropeFalconThreads isQ s 1) fun t ht =>
    ropeFalconThreads_of_ne ht
  have hi : d / headDim < k := Nat.div_lt_of_lt_mul (by rwa [Nat.mul_comm])
  have hsplit : d / headDim * headDim + d % headDim = d := Nat.div_add_mod' d headDim
  have hpair := fun j (hj : j < headDim / 2) =>
    falcon_rotated h hcache hdim htr Nat.one_pos hpos hi hj m freq cache x
  simp only [halvesRotated]
  split_ifs with hleft hright
  · -- the column is a first half
    have hl := (hpair _ hleft).1
    simp only [Nat.zero_mul, Nat.zero_add, Nat.one_mul, hsplit] at hl
    rw [hl]
    congr 3
    omega
  · -- the column is a second half
    have hr := (hpair (d % headDim - headDim / 2) (by omega)).2
    have hcol : d / headDim * headDim + (1 * (headDim / 2) + (d % headDim - headDim / 2)) = d := by
      omega
    rw [hcol] at hr
    rw [hr]
    congr 3
    omega
  · -- no turn touches the column
    refine runTrace_frame _ (fun t turn hturn y => ?_) x
    have hmem := mem_ropeFalconThreads.1 (htr.mem_prog.1 hturn)
    rw [h.headDim_eq] at hmem
    have hapart : ∀ j < headDim / 2, ∀ e, (e = 0 ∨ e = headDim / 2) →
        d ≠ turn.1 * headDim + (j + e) := by
      intro j hj e he heq
      have hmod := (add_mul_inj (Nat.mod_lt d hhead) (by omega) (hsplit.trans heq)).2
      omega
    have hl := hapart turn.2 hmem.2.2 0 (.inl rfl)
    have hr := hapart turn.2 hmem.2.2 _ (.inr rfl)
    rw [ropeFalconStep, h.headDim_eq]
    exact rotatePair_of_ne _ (by omega) (by omega) _ _

/-- The heads of a rank are rotated as in the whole row. -/
theorem halvesRotated_cut (m : RopeMath F) (freq : Nat → F) {r : Nat} (hhead : 0 < headDim)
    {v u : Mem F} (h : ∀ x < k * headDim, v x = u (r * (k * headDim) + x)) (hd : d < k * headDim) :
    halvesRotated m freq pos headDim v d
      = halvesRotated m freq pos headDim u (r * (k * headDim) + d) := by
  have hmod := (div_mod_cut (m := k) (r := r) (x := d) hhead).2
  have hi : d / headDim < k := Nat.div_lt_of_lt_mul (by rwa [Nat.mul_comm])
  have hsplit : d / headDim * headDim + d % headDim = d := Nat.div_add_mod' d headDim
  simp only [halvesRotated, hmod]
  split_ifs with hleft hright
  · have hroom := add_mul_lt hi (show d % headDim + headDim / 2 < headDim by omega)
    rw [h d hd, h (d + headDim / 2) (by omega), Nat.add_assoc]
  · rw [h d hd, h (d - headDim / 2) (by omega)]
    congr 3
    omega
  · exact h d hd

end Halves

/-! ## Neighbours -/

section Neighbours

variable {F : Type} [Add F] [Sub F] [Mul F] [Div F] [LT F] [DecidableLT F]

/-- A rotated column depends on the column and its neighbour. -/
theorem rotated_congr {m : RopeMath F} {config : NnRopeOpConfig} {pos d : Nat} {x x' : Mem F}
    (h : x d = x' d) (hnext : d % 2 = 0 → x (d + 1) = x' (d + 1))
    (hprev : d % 2 = 1 → x (d - 1) = x' (d - 1)) :
    rotated m config pos x d = rotated m config pos x' d := by
  simp only [rotated]
  split_ifs with heven
  · rw [h, hnext heven]
  · rw [h, hprev (by omega)]

variable {qDim kvDim nNodes seqLen headDim nodeIndex pos d : Nat} {ropeTheta : ℚ}
  {s w : NnRopeSlice} {isQ : Bool}

/-- The row of a rank after the op. -/
theorem ropeLlama_eq (h : LlamaSlice qDim kvDim nNodes seqLen headDim ropeTheta nodeIndex s)
    (hr : nodeIndex < nNodes) (hcache : s.cacheSize.length = seqLen * s.sliceDim)
    (hpos : pos < seqLen) (hhead : w.headDim = headDim) (htheta : w.ropeTheta = ropeTheta)
    (hd : d < dim0 isQ s) (m : RopeMath F) (config : NnRopeOpConfig) (cache : Mem F) {v u : Mem F}
    (hv : ∀ x < dim0 isQ s, v x = u (dimStart isQ s + x)) :
    runTrace (ropeLlamaStep (fullfillRopeLlamaCache m { config with slice := s } cache) isQ pos s) v
        ((ropeLlamaThreads isQ s 1 0).map fun i => (0, i)) d
      = rotated m { config with slice := w } pos u (dimStart isQ s + d) := by
  have htr := interleaves_single (ropeLlamaThreads isQ s 1) fun t ht =>
    ropeLlamaThreads_of_ne ht
  have hstart := dimStart_even h isQ
  have hdim := dim0_even h isQ
  -- the columns of the rank in their place
  obtain ⟨x, hx⟩ : ∃ x : Mem F, ∀ i, x (dimStart isQ s + i) = v i :=
    ⟨fun d => v (d - dimStart isQ s), fun i => congrArg v (Nat.add_sub_cancel_left ..)⟩
  have hin : ∀ i < dim0 isQ s, x (dimStart isQ s + i) = u (dimStart isQ s + i) :=
    fun i hi => (hx i).trans (hv i hi)
  have hrow : rotated m { config with slice := w } pos x (dimStart isQ s + d)
      = rotated m { config with slice := w } pos u (dimStart isQ s + d) := by
    refine rotated_congr (hin d hd) (fun heven => ?_) fun hodd => ?_
    · rw [Nat.add_assoc]
      exact hin (d + 1) (by omega)
    · rw [show dimStart isQ s + d - 1 = dimStart isQ s + (d - 1) by omega]
      exact hin (d - 1) (by omega)
  rw [← hrow, ← rank_rotated h hr hcache hpos hhead htheta Nat.one_pos htr cache x hd, funext hx]

end Neighbours

/-! ## The op on ranks -/

namespace RowNode

variable {F : Type} [Field F] [LinearOrder F] {D : RowNode F} {config : NnRopeOpConfig} {pos : Nat}
  {x : Mem F}

theorem ropeRow_falcon (h : config.type = .falcon) :
    D.ropeRow config pos x
      = runTrace (ropeFalconStep (fullfillRopeFalconCache D.math.rope config D.ropeMemory) pos
            config.slice) x
          ((ropeFalconThreads config.isQ config.slice 1 0).map fun turn => (0, turn)) := by
  rw [ropeRow, h]

theorem ropeRow_llama (h : config.type ≠ .falcon) :
    D.ropeRow config pos x
      = runTrace (ropeLlamaStep (fullfillRopeLlamaCache D.math.rope config D.ropeMemory) config.isQ
            pos config.slice) x
          ((ropeLlamaThreads config.isQ config.slice 1 0).map fun i => (0, i)) := by
  unfold ropeRow
  split
  · rename_i htype
    exact absurd htype h
  · rfl

end RowNode

namespace TensorSplit

variable {F : Type} {n : Nat} (T : TensorSplit F n)

/-- The queries or the keys of a rank. -/
def ropeDim (isQ : Bool) : Nat := if isQ then T.slices.qSlice.d0 else T.slices.kSlice.d0

theorem ropeDim_eq (isQ : Bool) : n * T.ropeDim isQ = wholeDim isQ T.h.qDim T.h.kvDim := by
  cases isQ with
  | true => exact T.slicesOf.qSlice.2
  | false => exact T.slicesOf.kSlice.2

/-- Ranks have whole heads. -/
theorem exists_heads (isQ : Bool) : ∃ k, T.ropeDim isQ = k * T.h.headDim := by
  rcases T.ranks_dvd with ⟨nKv0, hkv⟩
  cases isQ with
  | true =>
      refine ⟨T.slices.multiHeadAttSlice.nHeads0, T.width_eq T.slicesOf.qSlice.2 ?_⟩
      rw [← Nat.mul_assoc, T.slicesOf.heads.2, T.qDim_eq]
  | false =>
      refine ⟨nKv0, T.width_eq T.slicesOf.kSlice.2 ?_⟩
      rw [← Nat.mul_assoc, ← hkv, T.kvDim_eq]

theorem wholeDim_div (isQ : Bool) :
    wholeDim isQ (T.h.qDim / n) (T.h.kvDim / n) = T.ropeDim isQ := by
  rw [← T.slicesOf.qSlice.2, ← T.slicesOf.kSlice.2, Nat.mul_div_cancel_left _ T.ranks_pos,
    Nat.mul_div_cancel_left _ T.ranks_pos]
  rfl

/-- The config of the rotations, for a slice. -/
def ropeConfig (isQ : Bool) (slice : NnRopeSlice) : NnRopeOpConfig :=
  ⟨T.h.ropeType, isQ, T.h.ropeScalingFactor, T.h.ropeScalingLowFreqFactor,
    T.h.ropeScalingHighFreqFactory, T.h.ropeScalingOrigMaxSeqLen, slice⟩

variable [Field F] [LinearOrder F]

/-- A rank rotates its part of a row. -/
theorem ropeRow_cut (isQ : Bool) {pos : Nat} (hpos : pos < T.h.seqLen) (r : Fin n) {v u : Mem F}
    (h : ∀ x < T.ropeDim isQ, v x = u (r.val * T.ropeDim isQ + x)) {d : Nat}
    (hd : d < T.ropeDim isQ) :
    (T.rank r).ropeRow (T.ropeConfig isQ (T.rope r)) pos v d
      = T.whole.ropeRow (T.ropeConfig isQ T.wholeRope) pos u (r.val * T.ropeDim isQ + d) := by
  have hcut := add_mul_lt r.isLt hd
  rw [T.ropeDim_eq] at hcut
  have hok := T.sliceRope_eq r
  have hwhole := T.sliceRope_whole
  have hcache := T.ropeCache r
  have hwholeCache := T.wholeRopeCache
  by_cases htype : T.h.ropeType = .falcon
  · rw [RowNode.ropeRow_falcon htype, RowNode.ropeRow_falcon htype]
    rw [htype] at hok hwhole
    rw [if_pos htype] at hcache hwholeCache
    rcases falconSlice_of_rank hok with ⟨hslice, htheta⟩
    rcases falconSlice_of_rank hwhole with ⟨hslice', htheta'⟩
    rcases T.exists_heads isQ with ⟨k, hk⟩
    rw [Nat.div_one, Nat.div_one] at hslice'
    have hdim : wholeDim isQ T.h.qDim T.h.kvDim = n * k * T.h.headDim := by
      rw [← T.ropeDim_eq, hk, Nat.mul_assoc]
    have hfreq : ropeFalconFreq T.model.math.rope (T.ropeConfig isQ (T.rope r))
        = ropeFalconFreq T.model.math.rope (T.ropeConfig isQ T.wholeRope) := by
      funext j
      simp only [ropeFalconFreq, ropeConfig, hslice.headDim_eq, hslice'.headDim_eq, htheta,
        htheta']
    have hrank := ropeFalcon_eq hslice hcache T.headDim_pos ((T.wholeDim_div isQ).trans hk) hpos
      (hk ▸ hd) T.model.math.rope (ropeFalconFreq T.model.math.rope
        (T.ropeConfig isQ (T.rope r))) (T.devices r).ropeMemory v
    have hall := ropeFalcon_eq hslice' hwholeCache T.headDim_pos hdim hpos (hdim ▸ hcut)
      T.model.math.rope (ropeFalconFreq T.model.math.rope (T.ropeConfig isQ T.wholeRope))
      T.device.ropeMemory u
    rw [hk] at h hd hall ⊢
    refine hrank.trans (Eq.trans ?_ hall.symm)
    rw [hfreq]
    exact halvesRotated_cut _ _ T.headDim_pos h hd
  · rw [RowNode.ropeRow_llama htype, RowNode.ropeRow_llama htype]
    rw [if_neg htype] at hcache hwholeCache
    have hslice := llamaSlice_of_sliceRope htype hok
    have hslice' := llamaSlice_of_sliceRope htype hwhole
    have hdim : dim0 isQ (T.rope r) = T.ropeDim isQ :=
      T.width_eq (hslice.wholeDim_eq isQ).symm (T.ropeDim_eq isQ)
    have hdim' : dim0 isQ T.wholeRope = wholeDim isQ T.h.qDim T.h.kvDim :=
      ((hslice'.wholeDim_eq isQ).trans (Nat.one_mul _)).symm
    have hstart : dimStart isQ (T.rope r) = r.val * T.ropeDim isQ :=
      (hslice.dimStart_eq isQ).trans (congrArg (r.val * ·) hdim)
    have hstart' : dimStart isQ T.wholeRope = 0 :=
      (hslice'.dimStart_eq isQ).trans (Nat.zero_mul _)
    have hrank := ropeLlama_eq hslice r.isLt hcache hpos hslice'.headDim_eq hslice'.ropeTheta_eq
      (hdim ▸ hd) T.model.math.rope (T.ropeConfig isQ (T.rope r)) (T.devices r).ropeMemory
      (by rwa [hdim, hstart])
    have hall := ropeLlama_eq hslice' Nat.one_pos hwholeCache hpos hslice'.headDim_eq
      hslice'.ropeTheta_eq (hdim' ▸ hcut) T.model.math.rope (T.ropeConfig isQ T.wholeRope)
      T.device.ropeMemory (v := u) (u := u)
      (fun x _ => by rw [hstart', Nat.zero_add])
    rw [hstart] at hrank
    rw [hstart', Nat.zero_add] at hall
    exact hrank.trans hall.symm

variable {T} [FloorSemiring F] {batchSize : Nat} {κ : ShardMap}

theorem keeps_rope {name : OpName} {index : Nat} (isQ : Bool) {buffer : BufferIndex}
    (hcache : (NnPointerSource.buffer buffer).isCache = false)
    (hpos : κ (.pipe .pos) = some .equal)
    (hin : κ (.buffer buffer) = some (.cut (T.ropeDim isQ))) :
    T.Keeps batchSize κ (Function.update κ (.buffer buffer) (some (.cut (T.ropeDim isQ))))
      (fun r => [(T.rankContext r).ropeOp name index isQ buffer])
      [T.wholeContext.ropeOp name index isQ buffer] := by
  refine keeps_batchOp hcache (by simp) (fun _ => ⟨rfl, rfl⟩) ⟨rfl, rfl⟩
    fun s u hs b hb z r x hx => ?_
  simp only [RowNode.rowOf, RowNode.load_batch]
  rw [hs.position_eq hpos hb r]
  exact T.ropeRow_cut isQ (hs.position b hb) r (hs.row hin hb z r) hx

end TensorSplit

end PrefillOpt
