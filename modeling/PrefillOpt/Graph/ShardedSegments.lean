import PrefillOpt.Graph.ShardedAttention
import PrefillOpt.Graph.ShardedFeedForward
import PrefillOpt.Graph.SubBlocks

/-!
# ShardedSegments — the segments of the ranks against those of a single node

The root embeds the tokens, every sub-block starts from a row that all ranks have and leaves
summands, and so does the product with the logits.
-/

namespace PrefillOpt

open Lib

namespace TensorSplit

variable {F : Type} {n : Nat} [Field F] [LinearOrder F] [FloorSemiring F] {T : TensorSplit F n}
  {batchSize : Nat}

/-! ## Around the layers -/

section Known

variable (T)

/-- The root has the tokens. -/
def loaded : ShardMap := Function.update T.base (.pipe .tok) (some (.root 1))

/-- The root has the embedded row. -/
def embedded : ShardMap := Function.update T.base (.pipe .x) (some (.root T.h.dim))

/-- What every rank has in front of a sub-block, and behind the last one. -/
def before (s : Nat) : ShardMap :=
  if s = 0 then Function.update T.base (.pipe .x) (some (.copies T.h.dim))
  else Function.update T.row (.pipe .zq) (some (.copies T.h.dim))

/-- What a sub-block leaves. -/
def behind : ShardMap := Function.update T.row (.pipe .zq) (some (.parts T.h.dim))

/-- What the last segment leaves. -/
def ended : ShardMap := Function.update T.base (.pipe .lg) (some (.parts T.h.vocabSize))

end Known

/-! ## The first segment -/

/-- The op that only the root has. -/
def embeddingCall (c : BlockContext) : BuilderCall :=
  BlockContext.batchOp .embedding .embedding 0 (.pipe .tok) (.pipe .x) c.n.tokenEmbeddingSize
    .embedding

/-- The root embeds like the single node. -/
theorem keeps_embedding :
    T.Keeps batchSize T.loaded (Function.update T.loaded (.pipe .x) (some (.root T.h.dim)))
      (fun r => [embeddingCall (T.rankContext r)]) [embeddingCall T.wholeContext] := by
  refine keeps_batchOp rfl (by simp) (fun _ => ⟨rfl, rfl⟩) ⟨rfl, rfl⟩
    fun s u hs b hb z r hr x _ => ?_
  have htok : T.loaded (.pipe .tok) = some (.root 1) := Function.update_self ..
  have hrow : s r (.pipe .tok, b) 0 0 = u (.pipe .tok, b) 0 0 :=
    hs.row htok hb 0 r hr 0 Nat.one_pos
  simp only [RowNode.rowOf, RowNode.load_batch]
  rw [hrow]
  rfl

/-- The other ranks do nothing before the row of the root arrives. -/
theorem keeps_startCalls :
    T.Keeps batchSize T.loaded T.embedded (fun r => (T.rankContext r).startCalls 1 0 r.val)
      (T.wholeContext.startCalls 1 0 0) := by
  intro s u hs
  have hall := keeps_embedding s u hs
  refine ⟨fun {source k} hk b hb z => ?_, hall.position⟩
  by_cases hsource : source = .pipe .x
  -- only the row of the root counts, and the root embeds
  · subst hsource
    rw [embedded, Function.update_self] at hk
    cases hk
    intro r hr x hx
    have hroot : Function.update T.loaded (.pipe .x) (some (.root T.h.dim)) (.pipe .x)
        = some (.root T.h.dim) := Function.update_self ..
    have hrow := hall.holds hroot hb z r hr x hx
    have hcalls : (T.rankContext r).startCalls 1 0 r.val
        = [embeddingCall (T.rankContext r), .addSync .x .withRoot] := by
      rw [hr]
      rfl
    have hrank : (T.rank r).run batchSize ((T.rankContext r).startCalls 1 0 r.val) (s r)
        = (T.rank r).run batchSize [embeddingCall (T.rankContext r)] (s r) := by
      rw [hcalls]
      rfl
    exact (congrArg (fun m => m (.pipe .x, b) z x) hrank).trans hrow
  -- nobody writes anything else
  · rw [embedded, Function.update_of_ne hsource] at hk
    have hloaded : T.loaded source = some k :=
      (Function.update_of_ne (by rintro rfl; cases hk) _ _).trans hk
    have hrank : ∀ r, (T.rank r).run batchSize ((T.rankContext r).startCalls 1 0 r.val) (s r)
        (source, b) = s r (source, b) := by
      intro r
      by_cases hr : r.val = 0
      · have hne : ¬ (source = .pipe .x ∧ b < batchSize) := fun h => hsource h.1
        rw [hr]
        exact if_neg hne
      · have hcalls : (T.rankContext r).startCalls 1 0 r.val = [.addSync .x .withRoot] := by
          simp only [BlockContext.startCalls, if_true, if_neg hr, List.nil_append]
        rw [hcalls]
        rfl
    have hnode : T.whole.run batchSize (T.wholeContext.startCalls 1 0 0) u (source, b)
        = u (source, b) := if_neg fun h => hsource h.1
    simp only [hrank, hnode]
    exact hs.holds hloaded hb z

/-! ## Sub-blocks -/

/-- The row of the layers, from the embedding or from what is pending. -/
theorem keeps_subBlockFirst {name name' : OpName} {index s : Nat} :
    T.Keeps batchSize (T.before s) T.row
      (fun _ => [if s = 0 then BlockContext.castOp name index (.pipe .x) (.buffer .x)
        else BlockContext.mergeAddOp name' index])
      [if s = 0 then BlockContext.castOp name index (.pipe .x) (.buffer .x)
        else BlockContext.mergeAddOp name' index] := by
  unfold before
  by_cases hs : s = 0
  -- the first sub-block copies the embedding, the others add what is pending
  · simp only [if_pos hs]
    have hcopy : T.Keeps batchSize (Function.update T.base (.pipe .x) (some (.copies T.h.dim)))
        (Function.update (Function.update T.base (.pipe .x) (some (.copies T.h.dim))) (.buffer .x)
          (some (.copies T.h.dim)))
        (fun _ => [BlockContext.castOp name index (.pipe .x) (.buffer .x)])
        [BlockContext.castOp name index (.pipe .x) (.buffer .x)] :=
      keeps_copy rfl (by simp) (Function.update_self ..) rfl
    refine hcopy.mono ?_
    refine row_le (Function.update_self ..) ?_ (fun layerIndex => ?_) fun layerIndex => ?_
    · simp [base]
    · simp [base]
    · simp [base]
  · simp only [if_neg hs]
    refine (keeps_mergeAdd (w := T.h.dim) (by simp) (Function.update_self ..)).mono ?_
    refine row_le (Function.update_self ..) ?_ (fun layerIndex => ?_) fun layerIndex => ?_
    · simp
    · simp
    · simp

/-- One half of a layer, on the ranks and on the single node. -/
theorem keeps_subBlockCalls (s : Nat) :
    T.Keeps batchSize (T.before s) T.behind (fun r => (T.rankContext r).subBlockCalls 0 s)
      (T.wholeContext.subBlockCalls 0 s) := by
  unfold BlockContext.subBlockCalls
  rcases Nat.even_or_odd' s with ⟨l, rfl | rfl⟩
  -- an even sub-block is the attention of a layer, an odd one its feed-forward part
  · have heven : 2 * l % 2 = 0 := by omega
    have hlayer : 2 * l / 2 = l := by omega
    have hfirst : ∀ index, BlockContext.attFirst 0 index
        = if 2 * index = 0 then BlockContext.castOp .blockCastX index (.pipe .x) (.buffer .x)
          else BlockContext.mergeAddOp .blockMergeAdd index := by
      intro index
      rw [BlockContext.attFirst, Nat.mul_comm]
    simp only [if_pos heven, hlayer]
    have hnone : T.Keeps batchSize (T.before (2 * l)) (T.before (2 * l)) (fun _ => []) [] :=
      Keeps.nil
    refine hnone.append ?_
    rw [hfirst]
    exact Keeps.cons keeps_subBlockFirst (T.keeps_attBodyCalls l)
  · have hodd : ¬ (2 * l + 1) % 2 = 0 := by omega
    have hlayer : (2 * l + 1) / 2 = l := by omega
    have hfirst : ∀ index, BlockContext.ffFirst 0 index
        = if 2 * index + 1 = 0 then
            BlockContext.castOp .blockCastXFf index (.pipe .x) (.buffer .x)
          else BlockContext.mergeAddOp .blockMergeAdd2 index := by
      intro index
      rw [BlockContext.ffFirst, Nat.mul_comm]
    simp only [if_neg hodd, hlayer]
    unfold BlockContext.ffCalls
    rw [hfirst]
    exact Keeps.cons keeps_subBlockFirst (keeps_ffBodyCalls l)

/-! ## The last segment -/

section Logits

variable {κ : ShardMap} {input : BufferIndex}

omit [Field F] [LinearOrder F] [FloorSemiring F] in
theorem sliceWidth_y (r : Fin n) :
    (T.rank r).sliceWidth (pointerBatchedSliceConfig (.buffer T.wholeContext.yqBufferIndex))
      = T.slices.wclsSlice.n0 := by
  have hwidth : (T.rank r).sliceWidth (pointerBatchedSliceConfig
      (.buffer T.wholeContext.yqBufferIndex)) = T.h.dim / n := by
    rcases ite_eq_or_eq (T.h.syncType = .f32) BufferIndex.y .qY with hy | hy
    · have hyq : T.wholeContext.yqBufferIndex = .y := hy
      rw [hyq]
      rfl
    · have hyq : T.wholeContext.yqBufferIndex = .qY := hy
      rw [hyq]
      rfl
  rw [hwidth, ← T.slicesOf.wclsSlice.2, Nat.mul_div_cancel_left _ T.ranks_pos]

/-- Every rank multiplies its columns of the row with its columns of the weight. -/
theorem keeps_logits (hin : κ (.buffer T.wholeContext.yqBufferIndex) = some (.copies T.h.dim)) :
    T.Keeps batchSize κ (Function.update κ (.pipe .lg) (some (.parts T.h.vocabSize)))
      (fun r => (T.rankContext r).logitsCalls false) (T.wholeContext.logitsCalls false) := by
  have hdim : n * T.slices.wclsSlice.n0 = T.h.dim := T.slicesOf.wclsSlice.2
  have hwholeDim : T.wholeSlices.wclsSlice.n0 = n * T.slices.wclsSlice.n0 := by
    rw [hdim, ← T.wholeSlicesOf.wclsSlice.2, Nat.one_mul]
  refine keeps_batchOp rfl (by simp) (fun _ => ⟨rfl, rfl⟩) ⟨rfl, rfl⟩
    fun s u hs b hb z => ?_
  have hrow : (Sharding.copies (n * T.slices.wclsSlice.n0)).Holds
      (fun r => s r (.buffer T.wholeContext.yqBufferIndex, b) z)
      (u (.buffer T.wholeContext.yqBufferIndex, b) z) := hdim ▸ hs.row hin hb z
  have hpart := cut_of_copies hrow
  have hload : ∀ r, (T.rank r).load
        (pointerBatchedSliceConfig (.buffer T.wholeContext.yqBufferIndex)) (s r) b z
      = fun x => s r (.buffer T.wholeContext.yqBufferIndex, b) z
          (r.val * T.slices.wclsSlice.n0 + x) :=
    fun r => RowNode.load_slice (D := T.rank r) (sliceWidth_y r) (s r) b z
  have hwhole : T.whole.load
        (pointerBatchedSliceConfig (.buffer T.wholeContext.yqBufferIndex)) u b z
      = u (.buffer T.wholeContext.yqBufferIndex, b) z := by
    rw [RowNode.load_slice (D := T.whole) rfl]
    funext x
    have hzero : T.whole.tpRank = 0 := rfl
    rw [hzero, Nat.zero_mul, Nat.zero_add]
  simp only [RowNode.rowOf, RowNode.expertOf, if_true, rankContext_yq, hload, hwhole]
  have hsize : (size2D T.wholeContext.h.weightType T.wholeContext.n.wclsSlice.n0
      T.wholeContext.n.wclsSlice.d).y = n * T.slices.wclsSlice.n0 := hwholeDim
  rw [hsize]
  -- the columns of the rank are those of the single node from its first one on
  refine parts_dotRow (fun r i _ j _ => ?_) hpart
  have hall : T.whole.weight .finalMatmulLogits 0 0 i (r.val * T.slices.wclsSlice.n0 + j)
      = T.model.weight .finalMatmulLogits 0 0 i (r.val * T.slices.wclsSlice.n0 + j) := by
    show T.model.weight .finalMatmulLogits 0 0 i
      (0 * T.wholeSlices.wclsSlice.n0 + (r.val * T.slices.wclsSlice.n0 + j)) = _
    rw [Nat.zero_mul, Nat.zero_add]
  exact hall.symm

end Logits

theorem keeps_endCalls {s : Nat} (hs : s ≠ 0) :
    T.Keeps batchSize (T.before s) T.ended (fun r => (T.rankContext r).endCalls false)
      (T.wholeContext.endCalls false) := by
  unfold before
  simp only [if_neg hs, BlockContext.endCalls, BlockContext.castYCalls, rankContext_yq,
    rankContext_n, wholeContext_n, T.slicesOf.rmsNormSize, T.wholeSlicesOf.rmsNormSize,
    List.append_assoc, List.cons_append, List.nil_append]
  refine Keeps.cons (keeps_mergeAdd (w := T.h.dim) (by simp) (Function.update_self ..)) ?_
  refine Keeps.cons (keeps_invRms_copies (Function.update_self ..) (fun _ => rfl) rfl) ?_
  refine Keeps.cons (keeps_rmsNorm_copies (w := T.h.dim) (fun _ _ _ => rfl) rfl (by simp)
    (by simp) rfl) ?_
  refine Keeps.append (keeps_castUnless (fun h => Eq.symm (not_not.1 h))
    (Function.update_self ..) (keeps_cast_copies (by simp) (by simp) (Function.update_self ..)
      wholeBlocks_dim)) ?_
  refine Keeps.append (keeps_logits (by simp)) ?_
  refine (Keeps.sync (fun _ => rfl) rfl).mono (update_le (Function.update_self ..) ?_)
  refine base_le ?_ (fun layerIndex => ?_) fun layerIndex => ?_
  · simp
  · simp
  · simp

end TensorSplit

end PrefillOpt
