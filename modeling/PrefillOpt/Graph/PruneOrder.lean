import PrefillOpt.Graph.Semantics

/-!
# PruneOrder — where the pruning op stands

A net prunes in at most one layer.  The op comes once, on the stage that owns the attention of the
layer, and right after it comes the op that brings the residual up to date.
-/

namespace PrefillOpt

/-! ## What changes the rows of the batch -/

/-- The step prunes, or writes positions in another way. -/
def NnExecutorStep.movesRows : NnExecutorStep → Bool
  | .executeOp op => op.code == .pruneTokens || op.writes.contains (.pipe .pos)
  | .syncNodes syncs => syncs.any fun s => s.spKvBuffers == none && s.pipeIndex == .pos

/-- The call adds such an op or sync. -/
def BuilderCall.movesRows : BuilderCall → Bool
  | .addOp op => op.code == .pruneTokens || op.writes.contains (.pipe .pos)
  | .addSync pipeIndex _ => pipeIndex == .pos
  | .addSpKvSync _ _ _ _ _ _ => false

/-- None of the calls does. -/
def sparesRows (calls : List BuilderCall) : Bool := calls.all fun call => !call.movesRows

theorem movesRows_segmentSteps {calls : List BuilderCall} {b : Bool}
    (h : sparesRows calls = true) :
    ∀ x ∈ segmentSteps b (NnSegmentConfigBuilder.segmentOf calls), x.movesRows = false := by
  have hquiet : ∀ call ∈ calls, call.movesRows = false := by
    simpa [sparesRows] using h
  intro x hx
  cases x with
  | executeOp op =>
      exact hquiet _ (NnSegmentConfigBuilder.mem_segmentOf_ops.1 (executeOp_mem_segmentSteps.1 hx))
  | syncNodes syncs =>
      rw [syncNodes_mem_segmentSteps hx]
      refine List.any_eq_false.2 fun sync hsync => ?_
      rcases NnSegmentConfigBuilder.mem_segmentOf_syncs.1 hsync with ⟨call, hcall, hmade⟩
      have hcalm := hquiet call hcall
      cases call with
      | addOp op => cases hmade
      | addSync pipeIndex syncType =>
          cases hmade
          simpa [BuilderCall.movesRows] using hcalm
      | addSpKvSync _ _ _ _ _ _ =>
          cases hmade
          simp

namespace BlockContext

open NnSegmentConfigBuilder

variable {c : BlockContext} {subStart subEnd ppSize ppRank nodeIndex layerIndex : Nat}
  {fused : Bool}

/-! ## The calls of a stage -/

theorem sparesRows_append (calls calls' : List BuilderCall) :
    sparesRows (calls ++ calls') = (sparesRows calls && sparesRows calls') :=
  List.all_append

theorem sparesRows_attBodyCalls : sparesRows (c.attBodyCalls layerIndex) = true := by
  rw [attBodyCalls]
  by_cases hsync : c.h.syncType = .f32 <;> by_cases hnorm : c.h.hasQkNorm = true <;>
    by_cases hsp : 1 < c.spSize ∧ c.spNoShard = false <;>
    simp [sparesRows, BuilderCall.movesRows, attInputCalls, castYCalls, qkNormCalls, yqBufferIndex,
      hsync, hnorm, hsp, shiftCalls, spKvCalls, attOutputCalls, batchOp, castOp, invRmsOp,
      rmsNormOp, matmulOp, ropeOp, shiftOp, multiHeadAttOp, castY2Op, NnOpConfig.writes,
      pointerBatchConfig, pointerRawConfig, pointerBatchedSliceConfig]

theorem sparesRows_ffCalls : sparesRows (c.ffCalls subStart layerIndex) = true := by
  rw [ffCalls, ffBodyCalls]
  by_cases hsync : c.h.syncType = .f32 <;> by_cases hmoe : c.h.archType = .qwen3Moe <;>
    by_cases hfirst : layerIndex * 2 + 1 = subStart <;>
    simp [sparesRows, BuilderCall.movesRows, ffFirst, moeCalls, denseCalls, castYCalls, castDCalls,
      yqBufferIndex, dqBufferIndex, moeYqBufferIndex, moeDQBufferIndex, hsync, hmoe, hfirst,
      batchOp, castOp, mergeAddOp, invRmsOp, rmsNormOp, matmulOp, NnOpConfig.writes,
      pointerBatchConfig]

theorem sparesRows_otherCalls {calls : List BuilderCall}
    (h : c.OtherCalls ppSize ppRank nodeIndex subStart fused calls) : sparesRows calls = true := by
  cases h with
  | start =>
      unfold startCalls
      split_ifs <;> rfl
  | ff layerIndex => exact sparesRows_ffCalls
  | bridge => rfl
  | last =>
      by_cases hsync : c.h.syncType = .f32 <;> by_cases hfused : fused = true <;>
        simp [sparesRows, BuilderCall.movesRows, endCalls, logitsCalls, castYCalls, yqBufferIndex,
          hsync, hfused, mergeAddOp, batchOp, castOp, invRmsOp, rmsNormOp, NnOpConfig.writes,
          pointerBatchConfig, pointerBatchedSliceConfig]

/-- The pruning op of a layer. -/
def pruneOp (layerIndex : Nat) : NnOpConfig :=
  ⟨.pruneTokens, .blockPruneTokens, layerIndex, pointerBatchConfig (.buffer .x),
    pointerBatchConfig (.buffer .x), size0, .pruneTokens .pos⟩

/-- The op behind it: the row that was received replaces the residual, or what is pending is added
to it. -/
def residualOp (subStart layerIndex : Nat) : NnOpConfig :=
  if layerIndex * 2 = subStart then
    ⟨.cast, .blockCastX, layerIndex, pointerBatchConfig (.pipe .x),
      pointerBatchConfig (.buffer .x), size0, .cast⟩
  else
    ⟨.mergeAdd, .blockMergeAdd, layerIndex, pointerBatchConfig (.pipe .zq),
      pointerBatchConfig (.buffer .x), size0, .mergeAdd⟩

theorem attFirst_eq : attFirst subStart layerIndex = .addOp (residualOp subStart layerIndex) := by
  rw [attFirst, residualOp]
  split_ifs <;> rfl

theorem sparesRows_attFirst : sparesRows [attFirst subStart layerIndex] = true := by
  rw [attFirst]
  split_ifs <;> rfl

/-- Without the pruning op a layer leaves the rows where they are. -/
theorem sparesRows_attCalls (h : c.pruneLayer ≠ some layerIndex) :
    sparesRows (c.attCalls subStart layerIndex) = true := by
  rw [attCalls, pruneCalls, if_neg h, List.nil_append, ← List.singleton_append, sparesRows_append,
    sparesRows_attFirst, sparesRows_attBodyCalls]
  rfl

/-- The steps of the layer that prunes. -/
theorem segmentSteps_attCalls (h : c.pruneLayer = some layerIndex) (b : Bool) :
    ∃ after, segmentSteps b (segmentOf (c.attCalls subStart layerIndex))
        = .executeOp (pruneOp layerIndex) :: .executeOp (residualOp subStart layerIndex) :: after ∧
      ∀ x ∈ .executeOp (residualOp subStart layerIndex) :: after, x.movesRows = false := by
  have hrest : sparesRows (attFirst subStart layerIndex :: c.attBodyCalls layerIndex) = true := by
    rw [← List.singleton_append, sparesRows_append, sparesRows_attFirst, sparesRows_attBodyCalls]
    rfl
  have hsteps : segmentSteps b (segmentOf (c.attCalls subStart layerIndex))
      = .executeOp (pruneOp layerIndex) ::
        segmentSteps b (segmentOf (attFirst subStart layerIndex :: c.attBodyCalls layerIndex)) := by
    rw [attCalls, pruneCalls, if_pos h, segmentSteps_segmentOf, segmentSteps_segmentOf]
    rfl
  have hcons : ∃ after,
      segmentSteps b (segmentOf (attFirst subStart layerIndex :: c.attBodyCalls layerIndex))
        = .executeOp (residualOp subStart layerIndex) :: after := by
    rw [attFirst_eq, segmentSteps_segmentOf]
    exact ⟨_, rfl⟩
  rcases hcons with ⟨after, hafter⟩
  exact ⟨after, hafter ▸ hsteps, hafter ▸ movesRows_segmentSteps hrest⟩

/-! ## The steps of a stage -/

theorem movesRows_layerSegments (h : c.pruneLayer ≠ some layerIndex) {segment : NnSegmentConfig}
    (hsegment : segment ∈ c.layerSegments subStart subEnd layerIndex) {b : Bool} :
    ∀ x ∈ segmentSteps b segment, x.movesRows = false := by
  rw [layerSegments, List.mem_append] at hsegment
  rcases hsegment with hsegment | hsegment
  · split_ifs at hsegment
    · rw [List.mem_singleton.1 hsegment]
      exact movesRows_segmentSteps (sparesRows_attCalls h)
    · cases hsegment
  · split_ifs at hsegment
    · rw [List.mem_singleton.1 hsegment]
      exact movesRows_segmentSteps sparesRows_ffCalls
    · cases hsegment

/-- Behind the layers nothing moves rows. -/
theorem movesRows_lastSegments {segment : NnSegmentConfig}
    (h : segment ∈ (if ppRank < ppSize - 1 then [segmentOf bridgeCalls] else [])
      ++ if ppRank = ppSize - 1 then [segmentOf (c.endCalls fused)] else []) {b : Bool} :
    ∀ x ∈ segmentSteps b segment, x.movesRows = false := by
  rw [List.mem_append] at h
  rcases h with h | h
  · split_ifs at h
    · rw [List.mem_singleton.1 h]
      exact movesRows_segmentSteps rfl
    · cases h
  · split_ifs at h
    · rw [List.mem_singleton.1 h]
      exact movesRows_segmentSteps (sparesRows_otherCalls
        (.last : c.OtherCalls ppSize ppRank 0 0 fused _))
    · cases h

/-- A stage that does not own the attention of the layer leaves the rows where they are. -/
theorem movesRows_of_not_owned {nNodes pruned : Nat} (hprune : c.pruneLayer = some pruned)
    (hown : pruned ∉ ownedAtts subStart subEnd) :
    ∀ x ∈ executorSteps nNodes (c.nodeSegments ppSize ppRank nodeIndex subStart subEnd fused),
      x.movesRows = false := by
  intro x hx
  rcases mem_executorSteps.1 hx with ⟨segment, hsegment, hx⟩
  rw [nodeSegments, List.append_assoc, List.mem_append, List.mem_append, List.mem_singleton,
    List.mem_flatMap] at hsegment
  rcases hsegment with (rfl | ⟨layerIndex, hlayer, hsegment⟩) | hsegment
  · exact movesRows_segmentSteps (sparesRows_otherCalls
      (.start : c.OtherCalls ppSize ppRank nodeIndex subStart fused _)) x hx
  · by_cases heq : layerIndex = pruned
    · subst heq
      have hnot : ¬(subStart ≤ layerIndex * 2 ∧ layerIndex * 2 < subEnd) := fun h =>
        hown (mem_ownedAtts.2 ⟨hlayer, h⟩)
      rcases @otherCalls_of_mem_layerSegments c ppSize ppRank nodeIndex subStart subEnd fused
        layerIndex segment hnot hsegment with ⟨calls, hcalls, rfl⟩
      exact movesRows_segmentSteps (sparesRows_otherCalls hcalls) x hx
    · refine movesRows_layerSegments (fun h => heq ?_) hsegment x hx
      rw [hprune] at h
      exact (Option.some.inj h).symm
  · exact @movesRows_lastSegments c ppSize ppRank fused segment hsegment _ x hx

/-- The stage that owns it prunes once, and then brings the residual up to date. -/
theorem steps_eq_of_prune {nNodes pruned : Nat} (hprune : c.pruneLayer = some pruned)
    (hown : pruned ∈ ownedAtts subStart subEnd) :
    ∃ before after,
      executorSteps nNodes (c.nodeSegments ppSize ppRank nodeIndex subStart subEnd fused)
        = before ++ .executeOp (pruneOp pruned) :: .executeOp (residualOp subStart pruned)
          :: after ∧
      (∀ x ∈ before, x.movesRows = false) ∧
      ∀ x ∈ .executeOp (residualOp subStart pruned) :: after, x.movesRows = false := by
  rcases mem_ownedAtts.1 hown with ⟨hlayer, hown⟩
  rcases List.append_of_mem hlayer with ⟨earlier, later, hrange⟩
  have hnodup : (earlier ++ pruned :: later).Nodup := hrange ▸ List.nodup_range'
  have hne (layerIndex : Nat) (h : layerIndex ≠ pruned) : c.pruneLayer ≠ some layerIndex := by
    rw [hprune]
    exact fun heq => h (Option.some.inj heq).symm
  have hearlier : ∀ layerIndex ∈ earlier, c.pruneLayer ≠ some layerIndex := fun layerIndex hmem =>
    hne layerIndex fun heq => (List.nodup_append.1 hnodup).2.2 layerIndex hmem pruned
      (List.mem_cons_self ..) heq
  have hlater : ∀ layerIndex ∈ later, c.pruneLayer ≠ some layerIndex := fun layerIndex hmem =>
    hne layerIndex fun heq => (List.nodup_cons.1 (List.nodup_append.1 hnodup).2.1).1 (heq ▸ hmem)
  rcases @segmentSteps_attCalls c subStart pruned hprune (decide (1 < nNodes)) with
    ⟨rest, hatt, hrest⟩
  let tail := (if pruned * 2 + 1 < subEnd then [segmentOf (c.ffCalls subStart pruned)] else [])
    ++ later.flatMap (c.layerSegments subStart subEnd)
    ++ ((if ppRank < ppSize - 1 then [segmentOf bridgeCalls] else [])
      ++ if ppRank = ppSize - 1 then [segmentOf (c.endCalls fused)] else [])
  have hlayerSegments : c.layerSegments subStart subEnd pruned
      = segmentOf (c.attCalls subStart pruned)
        :: if pruned * 2 + 1 < subEnd then [segmentOf (c.ffCalls subStart pruned)] else [] := by
    have hiff : (subStart ≤ pruned * 2 + 1 ∧ pruned * 2 + 1 < subEnd)
        ↔ pruned * 2 + 1 < subEnd := by
      omega
    rw [layerSegments, if_pos hown, List.singleton_append]
    simp only [hiff]
  have hsegments : c.nodeSegments ppSize ppRank nodeIndex subStart subEnd fused
      = (segmentOf (c.startCalls ppSize ppRank nodeIndex)
          :: earlier.flatMap (c.layerSegments subStart subEnd))
        ++ segmentOf (c.attCalls subStart pruned) :: tail := by
    rw [nodeSegments, hrange, List.flatMap_append, List.flatMap_cons, hlayerSegments]
    simp only [tail, List.cons_append, List.nil_append, List.append_assoc]
  refine ⟨(segmentOf (c.startCalls ppSize ppRank nodeIndex)
    :: earlier.flatMap (c.layerSegments subStart subEnd)).flatMap
      (segmentSteps (decide (1 < nNodes))),
    rest ++ tail.flatMap (segmentSteps (decide (1 < nNodes))), ?_, ?_, ?_⟩
  · rw [executorSteps, hsegments, List.flatMap_append]
    refine congrArg (List.flatMap _ _ ++ ·) ?_
    rw [List.flatMap_cons, hatt]
    rfl
  · intro x hx
    rcases List.mem_flatMap.1 hx with ⟨segment, hsegment, hx⟩
    rcases List.mem_cons.1 hsegment with rfl | hsegment
    · exact movesRows_segmentSteps (sparesRows_otherCalls
        (.start : c.OtherCalls ppSize ppRank nodeIndex subStart fused _)) x hx
    · rcases List.mem_flatMap.1 hsegment with ⟨layerIndex, hmem, hsegment⟩
      exact movesRows_layerSegments (hearlier layerIndex hmem) hsegment x hx
  · rw [← List.cons_append, List.forall_mem_append]
    refine ⟨hrest, fun x hx => ?_⟩
    rcases List.mem_flatMap.1 hx with ⟨segment, hsegment, hx⟩
    simp only [tail, List.mem_append] at hsegment
    rcases hsegment with (hsegment | hsegment) | hsegment
    · split_ifs at hsegment
      · rw [List.mem_singleton.1 hsegment] at hx
        exact movesRows_segmentSteps sparesRows_ffCalls x hx
      · cases hsegment
    · rcases List.mem_flatMap.1 hsegment with ⟨layerIndex, hmem, hsegment⟩
      exact movesRows_layerSegments (hlater layerIndex hmem) hsegment x hx
    · exact @movesRows_lastSegments c ppSize ppRank fused segment (List.mem_append.2 hsegment) _ x
        hx

end BlockContext

end PrefillOpt
