import PrefillOpt.Graph.Executor
import PrefillOpt.Network.SpKv

/-!
# KvOrder — key/value rows between the shift, the exchange and the attention

The graph builder adds the key/value sync of a layer between the shift ops and the attention, but
the step list runs it after all ops of its segment.  Two readings of "attention never reads a row
that has not arrived" are compared with that: the order of the steps, and the rows that are there
when an attention op runs in a prompt of several chunks.
-/

namespace PrefillOpt

open Network

/-! ## What touches keys and values -/

/-- The call adds a shift, an attention or a key/value sync. -/
def BuilderCall.touchesKv : BuilderCall → Bool
  | .addOp op => op.code == .shift || op.code == .multiheadAtt
  | .addSync _ syncType => syncType == .spKv
  | .addSpKvSync _ _ _ _ _ _ => true

namespace BlockContext

variable {c : BlockContext} {ppSize ppRank nodeIndex subStart layerIndex : Nat} {fused : Bool}
  {calls : List BuilderCall}

theorem touchesKv_castYCalls (name : OpName) :
    ∀ call ∈ c.castYCalls name layerIndex, call.touchesKv = false := by
  unfold castYCalls
  split_ifs <;> simp [castOp, batchOp, BuilderCall.touchesKv]

theorem touchesKv_castDCalls (dBuffer dqBuffer : BufferIndex) :
    ∀ call ∈ castDCalls layerIndex dBuffer dqBuffer, call.touchesKv = false := by
  unfold castDCalls
  split_ifs <;> simp [castOp, batchOp, BuilderCall.touchesKv]

theorem touchesKv_ffFirst : (ffFirst subStart layerIndex).touchesKv = false := by
  unfold ffFirst
  split_ifs <;> rfl

theorem touchesKv_ffBodyCalls : ∀ call ∈ c.ffBodyCalls layerIndex, call.touchesKv = false := by
  intro call h
  simp only [ffBodyCalls, List.mem_append] at h
  rcases h with (h | h) | h
  · revert call
    simp [invRmsOp, rmsNormOp, batchOp, BuilderCall.touchesKv]
  · split_ifs at h
    · simp only [moeCalls, List.mem_append] at h
      rcases h with (h | h) | h
      · revert call
        simp [matmulOp, batchOp, BuilderCall.touchesKv]
      · exact touchesKv_castDCalls _ _ call h
      · revert call
        simp [matmulOp, batchOp, BuilderCall.touchesKv]
    · simp only [denseCalls, List.mem_append] at h
      rcases h with ((h | h) | h) | h
      · exact touchesKv_castYCalls _ call h
      · revert call
        simp [matmulOp, batchOp, BuilderCall.touchesKv]
      · exact touchesKv_castDCalls _ _ call h
      · revert call
        simp [matmulOp, batchOp, BuilderCall.touchesKv]
  · revert call
    simp [castOp, batchOp, BuilderCall.touchesKv]

/-- Only the attention segments touch keys and values. -/
theorem touchesKv_otherCalls (h : c.OtherCalls ppSize ppRank nodeIndex subStart fused calls) :
    ∀ call ∈ calls, call.touchesKv = false := by
  cases h with
  | start =>
      unfold startCalls
      split_ifs <;> simp [batchOp, BuilderCall.touchesKv]
  | ff layerIndex =>
      intro call h
      rcases List.mem_cons.1 h with rfl | h
      · exact touchesKv_ffFirst
      · exact touchesKv_ffBodyCalls call h
  | bridge => simp [bridgeCalls, mergeAddOp, castOp, batchOp, BuilderCall.touchesKv]
  | last =>
      intro call h
      simp only [endCalls, List.mem_append] at h
      rcases h with ((h | h) | h) | h
      · revert call
        simp [mergeAddOp, invRmsOp, rmsNormOp, batchOp, BuilderCall.touchesKv]
      · exact touchesKv_castYCalls _ call h
      · revert call
        unfold logitsCalls
        split_ifs <;> simp [batchOp, BuilderCall.touchesKv]
      · revert call
        simp [BuilderCall.touchesKv]

/-- The attention segment up to its shift ops. -/
def attHeadCalls (c : BlockContext) (subStart layerIndex : Nat) : List BuilderCall :=
  c.pruneCalls layerIndex ++ attFirst subStart layerIndex :: c.attInputCalls layerIndex

theorem attCalls_eq : c.attCalls subStart layerIndex
    = c.attHeadCalls subStart layerIndex ++ (c.shiftCalls layerIndex ++ (c.spKvCalls layerIndex
      ++ c.attOutputCalls layerIndex)) := by
  simp only [attCalls, attHeadCalls, attBodyCalls, List.append_assoc, List.cons_append]

theorem touchesKv_pruneCalls : ∀ call ∈ c.pruneCalls layerIndex, call.touchesKv = false := by
  unfold pruneCalls
  split_ifs <;> simp [batchOp, BuilderCall.touchesKv]

theorem touchesKv_attFirst : (attFirst subStart layerIndex).touchesKv = false := by
  unfold attFirst
  split_ifs <;> rfl

theorem touchesKv_qkNormCalls : ∀ call ∈ c.qkNormCalls layerIndex, call.touchesKv = false := by
  unfold qkNormCalls
  split_ifs <;> simp [invRmsOp, rmsNormOp, batchOp, BuilderCall.touchesKv]

theorem touchesKv_attInputCalls :
    ∀ call ∈ c.attInputCalls layerIndex, call.touchesKv = false := by
  intro call h
  simp only [attInputCalls, List.mem_append] at h
  rcases h with (((h | h) | h) | h) | h
  · revert call
    simp [invRmsOp, rmsNormOp, batchOp, BuilderCall.touchesKv]
  · exact touchesKv_castYCalls _ call h
  · revert call
    simp [matmulOp, batchOp, BuilderCall.touchesKv]
  · exact touchesKv_qkNormCalls call h
  · revert call
    simp [ropeOp, batchOp, BuilderCall.touchesKv]

theorem touchesKv_attHeadCalls :
    ∀ call ∈ c.attHeadCalls subStart layerIndex, call.touchesKv = false := by
  intro call h
  rcases List.mem_append.1 h with h | h
  · exact touchesKv_pruneCalls call h
  · rcases List.mem_cons.1 h with rfl | h
    · exact touchesKv_attFirst
    · exact touchesKv_attInputCalls call h

end BlockContext

/-! ## The steps up to the first attention of a node -/

/-- The step shifts, attends or exchanges keys and values. -/
def NnExecutorStep.touchesKv : NnExecutorStep → Bool
  | .executeOp op => op.code == .shift || op.code == .multiheadAtt
  | .syncNodes syncs => syncs.any fun s => s.syncType == .spKv

/-- A segment touches keys and values only where one of its calls does. -/
theorem touchesKv_segmentSteps {calls : List BuilderCall} {b : Bool}
    (h : ∀ call ∈ calls, call.touchesKv = false) :
    ∀ s ∈ segmentSteps b (NnSegmentConfigBuilder.segmentOf calls), s.touchesKv = false := by
  intro s hs
  cases s with
  | executeOp op =>
      exact h _ (NnSegmentConfigBuilder.mem_segmentOf_ops.1 (executeOp_mem_segmentSteps.1 hs))
  | syncNodes syncs =>
      rw [syncNodes_mem_segmentSteps hs]
      refine List.any_eq_false.2 fun sync hsync => ?_
      rcases NnSegmentConfigBuilder.mem_segmentOf_syncs.1 hsync with ⟨call, hcall, hmade⟩
      have hquiet := h call hcall
      cases call with
      | addOp op => cases hmade
      | addSync pipeIndex syncType =>
          cases hmade
          simpa [BuilderCall.touchesKv] using hquiet
      | addSpKvSync _ _ _ _ _ _ => cases hquiet

namespace BlockContext

variable {c : BlockContext} {subStart subEnd layerIndex : Nat} {rest : List Nat}

/-- The two shift ops and the attention op of a layer. -/
def shiftKOp (c : BlockContext) (layerIndex : Nat) : NnOpConfig :=
  ⟨.shift, .blockShiftK, layerIndex, pointerBatchConfig (.buffer .kTemp),
    pointerRawConfig (.buffer (.k layerIndex)), size0,
    .shift .pos ⟨c.kvCacheSlice.localSeqStart, c.kvCacheSlice.localSeqLen⟩⟩

def shiftVOp (c : BlockContext) (layerIndex : Nat) : NnOpConfig :=
  ⟨.shift, .blockShiftV, layerIndex, pointerBatchConfig (.buffer .vTemp),
    pointerRawConfig (.buffer (.v layerIndex)), size0,
    .shift .pos ⟨c.kvCacheSlice.localSeqStart, c.kvCacheSlice.localSeqLen⟩⟩

def attentionOp (c : BlockContext) (layerIndex : Nat) : NnOpConfig :=
  ⟨.multiheadAtt, .blockMultiheadAtt, layerIndex, pointerBatchedSliceConfig (.buffer .z),
    pointerBatchedSliceConfig (.buffer .z), size0,
    .multiHeadAtt c.n.multiHeadAttSlice.nHeads c.n.multiHeadAttSlice.nHeads0 c.h.nKvHeads
      c.h.headDim c.h.seqLen c.n.qSlice.d0 c.kvCacheSlice.kvDim0 c.kvCacheSlice.localSeqLen
      c.kvCacheSlice.localSeqStart c.spSize .pos .q (.k layerIndex) (.v layerIndex) .att⟩

/-- The calls of an attention segment that add an op: the exchange is none of them. -/
theorem attCalls_ops : ∃ after,
    (c.attCalls subStart layerIndex).filterMap BuilderCall.op?
      = (c.attHeadCalls subStart layerIndex).filterMap BuilderCall.op?
        ++ c.shiftKOp layerIndex :: c.shiftVOp layerIndex :: c.attentionOp layerIndex :: after := by
  have hsync : (c.spKvCalls layerIndex).filterMap BuilderCall.op? = [] := by
    unfold spKvCalls
    split_ifs <;> rfl
  rw [attCalls_eq, List.filterMap_append, List.filterMap_append, List.filterMap_append, hsync]
  exact ⟨_, rfl⟩

/-- A node with an attention reaches its first one after the shift ops, before any exchange. -/
theorem steps_eq_of_ownedAtts (c : BlockContext) (nNodes ppSize ppRank nodeIndex : Nat)
    (fused : Bool) (hatts : ownedAtts subStart subEnd = layerIndex :: rest) :
    ∃ before after,
      executorSteps nNodes (c.nodeSegments ppSize ppRank nodeIndex subStart subEnd fused)
        = before ++ .executeOp (c.shiftKOp layerIndex) :: .executeOp (c.shiftVOp layerIndex)
          :: .executeOp (c.attentionOp layerIndex) :: after ∧
      ∀ s ∈ before, s.touchesKv = false := by
  rcases nodeSegments_eq_of_ownedAtts hatts with
    ⟨earlier, later, hsegments, hearlier⟩
  rcases attCalls_ops with ⟨ops, hops⟩
  let head := (c.attHeadCalls subStart layerIndex).filterMap BuilderCall.op?
  have hsteps : ∃ after,
      executorSteps nNodes (c.nodeSegments ppSize ppRank nodeIndex subStart subEnd fused)
        = (earlier.flatMap (segmentSteps (decide (1 < nNodes))) ++ head.map .executeOp)
          ++ .executeOp (c.shiftKOp layerIndex) :: .executeOp (c.shiftVOp layerIndex)
          :: .executeOp (c.attentionOp layerIndex) :: after := by
    rw [executorSteps, hsegments, List.flatMap_append, List.flatMap_cons,
      NnSegmentConfigBuilder.segmentSteps_segmentOf, hops]
    simp only [List.map_append, List.map_cons, List.append_assoc, List.cons_append]
    exact ⟨_, rfl⟩
  rcases hsteps with ⟨after, hsteps⟩
  refine ⟨_, after, hsteps, fun s hs => ?_⟩
  rcases List.mem_append.1 hs with hs | hs
  · rcases List.mem_flatMap.1 hs with ⟨segment, hsegment, hs⟩
    rcases hearlier segment hsegment with ⟨calls, hcalls, rfl⟩
    exact touchesKv_segmentSteps (touchesKv_otherCalls hcalls) s hs
  · rcases List.mem_map.1 hs with ⟨op, hop, rfl⟩
    rcases List.mem_filterMap.1 hop with ⟨call, hcall, hmade⟩
    have hquiet := touchesKv_attHeadCalls call hcall
    cases call with
    | addOp op' =>
        cases hmade
        exact hquiet
    | addSync _ _ => cases hmade
    | addSpKvSync _ _ _ _ _ _ => cases hmade

/-- A node whose stage owns no attention never touches keys and values. -/
theorem touchesKv_of_ownedAtts_nil (c : BlockContext) (nNodes ppSize ppRank nodeIndex : Nat)
    (fused : Bool) (hnone : ownedAtts subStart subEnd = []) :
    ∀ s ∈ executorSteps nNodes (c.nodeSegments ppSize ppRank nodeIndex subStart subEnd fused),
      s.touchesKv = false := by
  intro s hs
  rcases mem_executorSteps.1 hs with ⟨segment, hsegment, hs⟩
  rcases otherCalls_of_mem_nodeSegments hnone hsegment with ⟨calls, hcalls, rfl⟩
  exact touchesKv_segmentSteps (touchesKv_otherCalls hcalls) s hs

end BlockContext

/-! ## The order of the steps -/

/-- The step runs the `SYNC_SP_KV` of a layer. -/
def NnExecutorStep.ExchangesKv (layerIndex : Nat) : NnExecutorStep → Prop
  | .executeOp _ => False
  | .syncNodes syncs => ∃ s ∈ syncs, s.syncType = .spKv ∧
      s.spKvBuffers = some (.k layerIndex, .v layerIndex)

/-- Every attention op comes after a step with its layer's exchange, and that step after the
layer's shift ops. -/
def ExchangesBeforeAttention (steps : List NnExecutorStep) : Prop :=
  ∀ l₁ l₂ op, steps = l₁ ++ .executeOp op :: l₂ → op.code = .multiheadAtt →
    ∃ shifts exchange between, l₁ = shifts ++ exchange :: between ∧
      exchange.ExchangesKv op.index ∧
      (∃ o, .executeOp o ∈ shifts ∧ o.name = .blockShiftK ∧ o.index = op.index) ∧
      ∃ o, .executeOp o ∈ shifts ∧ o.name = .blockShiftV ∧ o.index = op.index

theorem NnExecutorStep.ExchangesKv.touchesKv {s : NnExecutorStep} {layerIndex : Nat}
    (h : s.ExchangesKv layerIndex) : s.touchesKv = true := by
  cases s with
  | executeOp op => cases h
  | syncNodes syncs =>
      rcases h with ⟨sync, hmem, htype, -⟩
      exact List.any_eq_true.2 ⟨sync, hmem, by simp [htype]⟩

/-- The order holds exactly on the nodes without attention. -/
theorem exchangesBeforeAttention_iff_ownedAtts {c : BlockContext}
    {nNodes ppSize ppRank nodeIndex subStart subEnd : Nat} {fused : Bool} :
    ExchangesBeforeAttention
        (executorSteps nNodes (c.nodeSegments ppSize ppRank nodeIndex subStart subEnd fused))
      ↔ BlockContext.ownedAtts subStart subEnd = [] := by
  constructor
  · intro horder
    cases hatts : BlockContext.ownedAtts subStart subEnd with
    | nil => rfl
    | cons layerIndex rest =>
        rcases c.steps_eq_of_ownedAtts nNodes ppSize ppRank nodeIndex fused hatts with
          ⟨before, after, hsteps, hquiet⟩
        -- everything before the attention op is a quiet step or one of the two shift ops
        rcases horder (before ++ [.executeOp (c.shiftKOp layerIndex),
            .executeOp (c.shiftVOp layerIndex)]) after (c.attentionOp layerIndex)
          (by rw [hsteps]; simp) rfl with ⟨shifts, exchange, between, heq, hexchange, -, -⟩
        have hmem : exchange ∈ before ++ [.executeOp (c.shiftKOp layerIndex),
            .executeOp (c.shiftVOp layerIndex)] := by
          rw [heq]
          exact List.mem_append_right _ (List.mem_cons_self ..)
        rcases List.mem_append.1 hmem with hmem | hmem
        · have := hquiet _ hmem
          rw [hexchange.touchesKv] at this
          cases this
        · simp only [List.mem_cons, List.not_mem_nil, or_false] at hmem
          rcases hmem with rfl | rfl <;> cases hexchange
  · intro hnone l₁ l₂ op hsteps hcode
    have hquiet := c.touchesKv_of_ownedAtts_nil nNodes ppSize ppRank nodeIndex fused hnone
      (.executeOp op) (by rw [hsteps]; exact List.mem_append_right _ (List.mem_cons_self ..))
    simp [NnExecutorStep.touchesKv, hcode] at hquiet

end PrefillOpt
