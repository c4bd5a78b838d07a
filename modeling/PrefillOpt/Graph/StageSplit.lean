import PrefillOpt.Graph.Embedding
import PrefillOpt.Graph.OpFlow

/-!
# StageSplit — the stages of a split and the single node, op by op

A stage starts from the row its predecessor sent, where one node would add what is pending in the
`ZQ` pipe, and ends by adding what is pending before it sends.  From its first sub-block on a stage
and the single node agree on the residual rows, the positions and the caches of the stage.
-/

namespace PrefillOpt

open Lib

/-! ## What a stage starts from -/

/-- The rows a stage takes over from its predecessor. -/
def receiveActivation {R : Type} (batchSize : Nat) (sent s : NnMemory R) : NnMemory R
  | (.pipe .x, b) => if b < batchSize then sent (.pipe .x, b) else s (.pipe .x, b)
  | row => s row

/-- The memory of a stage when it starts its steps. -/
def stageStart {R : Type} (place : NnNodePlacement) (f : NnForward R) (sent s : NnMemory R) :
    NnMemory R :=
  loadForward place f (if place.ppRank = 0 then s else receiveActivation f.batchSize sent s)

/-! ## Steps without a sync partner -/

theorem StepsRun.eq_runOps {R : Type} {m : NnNodeModel R} {batchSize : Nat}
    {steps : List NnExecutorStep} {s s' : NnMemory R} (h : StepsRun m batchSize steps s s')
    (hskip : ∀ syncs, .syncNodes syncs ∈ steps → ∀ sync ∈ syncs, sync.skipped m.place = true) :
    s' = runOps m.interp m.syncType batchSize (BlockContext.stepOps steps) s := by
  induction h with
  | nil => rfl
  | cons hstep _ ih =>
      rw [ih fun syncs hmem => hskip syncs (List.mem_cons_of_mem _ hmem)]
      cases hstep with
      | op op => rfl
      | @sync syncs _ _ hkeep =>
          have hsame : _ = _ := funext fun row => hkeep row fun sync hsync hmem => by
            rw [NnSyncConfig.targets, hskip syncs (List.mem_cons_self ..) sync hsync] at hmem
            cases hmem
          rw [hsame]
          rfl

namespace BlockContext

variable {c : BlockContext}

open NnSegmentConfigBuilder

/-- Syncs that only concern the nodes of one tensor-parallel group. -/
def groupSyncs (calls : List BuilderCall) : Bool :=
  calls.all fun call =>
    match call.sync? with
    | some sync => sync.syncType == .withRoot || sync.syncType == .nodeSlices
    | none => true

theorem groupSyncs_attCalls (hsp : c.spSize = 1) {subStart layerIndex : Nat} :
    groupSyncs (c.attCalls subStart layerIndex) = true := by
  rw [attCalls, attBodyCalls]
  by_cases hsync : c.h.syncType = .f32 <;> by_cases hnorm : c.h.hasQkNorm = true <;>
    by_cases hfirst : layerIndex * 2 = subStart <;>
    by_cases hprune : c.pruneLayer = some layerIndex <;>
    simp [groupSyncs, pruneCalls, attFirst, attInputCalls, castYCalls, qkNormCalls, yqBufferIndex,
      hsync, hnorm, hfirst, hprune, hsp, shiftCalls, spKvCalls, attOutputCalls, BuilderCall.sync?,
      batchOp, castOp, mergeAddOp, invRmsOp, rmsNormOp, matmulOp, ropeOp, shiftOp, multiHeadAttOp,
      castY2Op]

theorem groupSyncs_ffCalls {subStart layerIndex : Nat} :
    groupSyncs (c.ffCalls subStart layerIndex) = true := by
  rw [ffCalls, ffBodyCalls]
  by_cases hsync : c.h.syncType = .f32 <;> by_cases hmoe : c.h.archType = .qwen3Moe <;>
    by_cases hfirst : layerIndex * 2 + 1 = subStart <;>
    simp [groupSyncs, ffFirst, moeCalls, denseCalls, castYCalls, castDCalls, yqBufferIndex,
      dqBufferIndex, moeYqBufferIndex, moeDQBufferIndex, hsync, hmoe, hfirst, BuilderCall.sync?,
      batchOp, castOp, mergeAddOp, invRmsOp, rmsNormOp, matmulOp]

theorem groupSyncs_otherCalls {ppSize ppRank nodeIndex subStart : Nat} {fused : Bool}
    {calls : List BuilderCall} (h : c.OtherCalls ppSize ppRank nodeIndex subStart fused calls) :
    groupSyncs calls = true := by
  cases h with
  | start =>
      unfold startCalls
      split_ifs <;> rfl
  | ff layerIndex => exact groupSyncs_ffCalls
  | bridge => rfl
  | last =>
      by_cases hsync : c.h.syncType = .f32 <;> by_cases hfused : fused = true <;>
        simp [groupSyncs, endCalls, logitsCalls, castYCalls, yqBufferIndex, hsync, hfused,
          mergeAddOp, BuilderCall.sync?, batchOp, castOp, invRmsOp, rmsNormOp]

/-- Every segment of a stage has only such syncs. -/
theorem groupSyncs_of_mem_nodeSegments (hsp : c.spSize = 1)
    {ppSize ppRank nodeIndex subStart subEnd : Nat} {fused : Bool} {segment : NnSegmentConfig}
    (h : segment ∈ c.nodeSegments ppSize ppRank nodeIndex subStart subEnd fused) :
    ∃ calls, groupSyncs calls = true ∧ segment = segmentOf calls := by
  simp only [nodeSegments, List.mem_append, List.mem_singleton, List.mem_flatMap] at h
  rcases h with ((rfl | ⟨layerIndex, -, h⟩) | h) | h
  · exact ⟨_, groupSyncs_otherCalls (.start : c.OtherCalls _ _ _ subStart fused _), rfl⟩
  · rw [layerSegments, List.mem_append] at h
    rcases h with h | h
    · split_ifs at h
      · exact ⟨_, groupSyncs_attCalls hsp, List.mem_singleton.1 h⟩
      · cases h
    · split_ifs at h
      · exact ⟨_, groupSyncs_ffCalls, List.mem_singleton.1 h⟩
      · cases h
  · split_ifs at h
    · exact ⟨bridgeCalls, rfl, List.mem_singleton.1 h⟩
    · cases h
  · split_ifs at h
    · exact ⟨_, groupSyncs_otherCalls (.last : c.OtherCalls ppSize ppRank nodeIndex subStart _ _),
        List.mem_singleton.1 h⟩
    · cases h

/-- A stage of one node has nobody to sync with. -/
theorem skipped_of_mem_steps (hsp : c.spSize = 1)
    {nNodes ppSize ppRank nodeIndex subStart subEnd : Nat} {fused : Bool}
    {place : NnNodePlacement} (halone : place.tpGroupEnd - place.tpGroupStart ≤ 1)
    {syncs : List NnSyncConfig}
    (h : .syncNodes syncs ∈
      executorSteps nNodes (c.nodeSegments ppSize ppRank nodeIndex subStart subEnd fused))
    {sync : NnSyncConfig} (hsync : sync ∈ syncs) : sync.skipped place = true := by
  rcases mem_executorSteps.1 h with ⟨segment, hsegment, hstep⟩
  rcases groupSyncs_of_mem_nodeSegments hsp hsegment with ⟨calls, hcalls, rfl⟩
  rw [syncNodes_mem_segmentSteps hstep] at hsync
  rcases mem_segmentOf_syncs.1 hsync with ⟨call, hcall, hsome⟩
  have htype := List.all_eq_true.1 hcalls call hcall
  simp only [hsome, Bool.or_eq_true, beq_iff_eq] at htype
  rcases htype with htype | htype <;> simp [NnSyncConfig.skipped, htype, halone]

/-! ## The ops of a stage -/

variable (c) in
/-- The first op of a sub-block. -/
def firstOps (subStart s : Nat) : List NnOpConfig :=
  opsOf [if s % 2 = 0 then attFirst subStart (s / 2) else ffFirst subStart (s / 2)]

variable (c) in
/-- All others. -/
def bodyOps (s : Nat) : List NnOpConfig :=
  opsOf (if s % 2 = 0 then c.attBodyCalls (s / 2) else c.ffBodyCalls (s / 2))

variable (c) in
/-- The ops of the sub-blocks `[first, last)` in a stage that starts at `subStart`. -/
def blockOps (subStart first last : Nat) : List NnOpConfig :=
  (List.range' first (last - first)).flatMap fun s => opsOf (c.subBlockCalls subStart s)

theorem opsOf_subBlockCalls (hprune : c.pruneLayer = none) (subStart s : Nat) :
    opsOf (c.subBlockCalls subStart s) = firstOps subStart s ++ c.bodyOps s := by
  have hcons (call : BuilderCall) (calls : List BuilderCall) :
      opsOf (call :: calls) = opsOf [call] ++ opsOf calls := opsOf_append [call] calls
  unfold subBlockCalls firstOps bodyOps
  split_ifs
  · rw [attCalls, pruneCalls, hprune, if_neg (by simp), List.nil_append, hcons]
  · rw [ffCalls, hcons]

theorem blockOps_self (subStart first : Nat) : c.blockOps subStart first first = [] := by
  rw [blockOps, Nat.sub_self]
  rfl

theorem blockOps_append {subStart first mid last : Nat} (h₁ : first ≤ mid) (h₂ : mid ≤ last) :
    c.blockOps subStart first mid ++ c.blockOps subStart mid last
      = c.blockOps subStart first last := by
  have hrange := @List.range'_append_1 first (mid - first) (last - mid)
  rw [show first + (mid - first) = mid by omega, show mid - first + (last - mid) = last - first
    by omega] at hrange
  rw [blockOps, blockOps, blockOps, ← List.flatMap_append, hrange]

theorem blockOps_cons (hprune : c.pruneLayer = none) {subStart first last : Nat}
    (h : first < last) : c.blockOps subStart first last
      = firstOps subStart first ++ (c.bodyOps first ++ c.blockOps subStart (first + 1) last) := by
  rw [blockOps, show last - first = last - (first + 1) + 1 by omega, List.range'_succ,
    List.flatMap_cons, opsOf_subBlockCalls hprune, List.append_assoc]
  rfl

/-- Only the sub-block a stage starts with begins differently. -/
theorem firstOps_eq {subStart s : Nat} (h : subStart < s) : firstOps subStart s = firstOps 0 s := by
  unfold firstOps
  split_ifs with heven
  · rw [attFirst, attFirst, if_neg (by omega), if_neg (by omega)]
  · rw [ffFirst, ffFirst, if_neg (by omega), if_neg (by omega)]

theorem blockOps_eq (hprune : c.pruneLayer = none) {subStart first last : Nat}
    (h : subStart < first) : c.blockOps subStart first last = c.blockOps 0 first last := by
  unfold blockOps
  refine congrArg List.flatten (List.map_congr_left fun s hs => ?_)
  rw [opsOf_subBlockCalls hprune, opsOf_subBlockCalls hprune,
    firstOps_eq (h.trans_le (List.mem_range'_1.1 hs).1)]

/-! ## What a stage and the single node agree on -/

/-- The positions of the batch, and the caches of the layers with their attention in
`[first, last)`. -/
def keptRows (batchSize first last : Nat) : Set NnRow :=
  {row | NnRow.inBatch batchSize row = true ∧ (row.1 = .pipe .pos ∨
    ∃ layerIndex, first ≤ layerIndex * 2 ∧ layerIndex * 2 < last ∧
      (row.1 = .buffer (.k layerIndex) ∨ row.1 = .buffer (.v layerIndex)))}

/-- What the first op of a sub-block puts into the residual row. -/
def firstRow {R : Type} (I : NnInterpretation R) (subStart s : Nat) (m : NnMemory R) (b : Nat) :
    R :=
  if s = subStart then m (.pipe .x, b) else I.add (m (.buffer .x, b)) (m (.pipe .zq, b))

section Agree

variable {R : Type} {I : NnInterpretation R} {syncType : NnFloatType} {batchSize : Nat}
  {first last : Nat}

/-- A cast between rows of one type copies. -/
theorem runOps_castOp (name : OpName) (index : Nat) {input output : NnPointerSource}
    (htype : input.floatType syncType = output.floatType syncType)
    (hcache : output.isCache = false) (m : NnMemory R) (row : NnRow) :
    runOps I syncType batchSize (opsOf [castOp name index input output]) m row
      = if row.1 = output ∧ row.2 < batchSize then m (input, row.2) else m row := by
  show (if row.1 ∈ [output] ∧ NnRow.inBatch batchSize row = true then
    castRow I syncType input output (m (input, row.2)) else m row) = _
  rw [castRow, if_pos htype]
  refine if_congr (and_congr List.mem_singleton Iff.rfl |>.trans
    (and_congr_right fun hrow => ?_)) rfl rfl
  rw [NnRow.inBatch, hrow, hcache, Bool.false_or, decide_eq_true_eq]

theorem runOps_mergeAddOp (name : OpName) (index : Nat) (m : NnMemory R) (row : NnRow) :
    runOps I syncType batchSize (opsOf [mergeAddOp name index]) m row
      = if row.1 = .buffer .x ∧ row.2 < batchSize then
          I.add (m (.buffer .x, row.2)) (m (.pipe .zq, row.2)) else m row := by
  show (if row.1 ∈ [NnPointerSource.buffer .x] ∧ NnRow.inBatch batchSize row = true then
    I.add (m (.buffer .x, row.2)) (m (.pipe .zq, row.2)) else m row) = _
  refine if_congr (and_congr List.mem_singleton Iff.rfl |>.trans
    (and_congr_right fun hrow => ?_)) rfl rfl
  rw [NnRow.inBatch, hrow, show NnPointerSource.isCache (.buffer .x) = false from rfl,
    Bool.false_or, decide_eq_true_eq]

theorem runOps_firstOps (subStart s : Nat) (m : NnMemory R) (row : NnRow) :
    runOps I syncType batchSize (firstOps subStart s) m row
      = if row.1 = .buffer .x ∧ row.2 < batchSize then firstRow I subStart s m row.2
        else m row := by
  have hstart : (s % 2 = 0 → (s / 2 * 2 = subStart ↔ s = subStart)) ∧
      (s % 2 ≠ 0 → (s / 2 * 2 + 1 = subStart ↔ s = subStart)) := by omega
  have hcast (name : OpName) := @runOps_castOp R I syncType batchSize name (s / 2) (.pipe .x)
    (.buffer .x) rfl rfl m row
  unfold firstOps firstRow attFirst ffFirst
  by_cases heven : s % 2 = 0
  · simp only [if_pos heven, hstart.1 heven]
    by_cases hs : s = subStart
    · simp only [if_pos hs, hcast]
    · simp only [if_neg hs, runOps_mergeAddOp]
  · simp only [if_neg heven, hstart.2 heven]
    by_cases hs : s = subStart
    · simp only [if_pos hs, hcast]
    · simp only [if_neg hs, runOps_mergeAddOp]

theorem visibleRows_known_subset {s : Nat} (hfirst : first ≤ s) (hlast : s < last)
    (heven : s % 2 = 0) :
    visibleRows batchSize
        [.buffer .x, .pipe .pos, .buffer (.k (s / 2)), .buffer (.v (s / 2))]
      ⊆ keptRows batchSize first last ∪ visibleRows batchSize [.buffer .x] := by
  rintro row ⟨hsource, hrow⟩
  simp only [List.mem_cons, List.not_mem_nil, or_false] at hsource
  rcases hsource with hx | hpos | hcache
  · exact .inr ⟨List.mem_singleton.2 hx, hrow⟩
  · exact .inl ⟨hrow, .inl hpos⟩
  · exact .inl ⟨hrow, .inr ⟨s / 2, by omega, by omega, hcache⟩⟩

theorem covers_bodyOps {s : Nat} (hfirst : first ≤ s) (hlast : s < last) :
    Instr.Covers (keptRows batchSize first last ∪ visibleRows batchSize [.buffer .x])
      (opInstrs I syncType batchSize (c.bodyOps s)) := by
  unfold bodyOps
  split_ifs with heven
  · exact covers_of_sources coversSources_attBody (visibleRows_known_subset hfirst hlast heven)
  · exact covers_of_sources coversSources_ffBody Set.subset_union_right

theorem mem_writtenSources_opsOf {calls : List BuilderCall} {op : NnOpConfig}
    {source : NnPointerSource} (hcall : .addOp op ∈ calls) (hwrites : source ∈ op.writes) :
    source ∈ writtenSources (opsOf calls) :=
  List.mem_flatMap.2 ⟨op, List.mem_filterMap.2 ⟨_, hcall, rfl⟩, hwrites⟩

/-- Every sub-block ends with its partial sums in the `ZQ` pipe. -/
theorem zq_mem_bodyOps (s : Nat) : .pipe .zq ∈ writtenSources (c.bodyOps s) := by
  have hwrites (name : OpName) {calls : List BuilderCall}
      (hcall : castOp name (s / 2) (.buffer .y) (.pipe .zq) ∈ calls) :
      .pipe .zq ∈ writtenSources (opsOf calls) :=
    mem_writtenSources_opsOf hcall (List.mem_singleton.2 rfl)
  unfold bodyOps
  split_ifs
  · exact hwrites .blockCastD (by simp [attBodyCalls, attOutputCalls])
  · exact hwrites .blockCastD3 (by simp [ffBodyCalls])

/-- The rows that carry a stage from one sub-block to the next. -/
def stageRows (batchSize first last : Nat) : Set NnRow :=
  keptRows batchSize first last ∪ visibleRows batchSize [.buffer .x, .pipe .zq]

theorem keptRows_union_x_subset :
    keptRows batchSize first last ∪ visibleRows batchSize [.buffer .x]
      ⊆ stageRows batchSize first last :=
  Set.union_subset_union_right _ fun _ hrow =>
    ⟨List.mem_cons.2 (.inl (List.mem_singleton.1 hrow.1)), hrow.2⟩

/-- A sub-block that is not the first of its stage reads what the last one left. -/
theorem covers_subBlock (hprune : c.pruneLayer = none) {s : Nat} (hfirst : first ≤ s)
    (hlast : s < last) (hpos : 0 < s) :
    Instr.Covers (stageRows batchSize first last)
      (opInstrs I syncType batchSize (opsOf (c.subBlockCalls 0 s))) := by
  rw [opsOf_subBlockCalls hprune, opInstrs, List.map_append, Instr.covers_append]
  have hreads : coversSources [.buffer .x, .pipe .zq] (firstOps 0 s) = true := by
    unfold firstOps
    split_ifs with heven
    · rw [attFirst, if_neg (by omega)]
      rfl
    · rw [ffFirst, if_neg (by omega)]
      rfl
  exact ⟨covers_of_sources hreads Set.subset_union_right,
    (covers_bodyOps hfirst hlast).mono (keptRows_union_x_subset.trans Set.subset_union_left)⟩

theorem covers_blockOps (hprune : c.pruneLayer = none) {mid : Nat} (hmid : first < mid) :
    Instr.Covers (stageRows batchSize first last)
      (opInstrs I syncType batchSize (c.blockOps 0 mid last)) := by
  rw [blockOps, opInstrs, List.map_flatMap]
  refine Instr.covers_flatMap fun s hs => ?_
  have hrange := List.mem_range'_1.1 hs
  exact covers_subBlock hprune (by omega) (by omega) (by omega)

/-- After a first sub-block the partial sums are known. -/
theorem stageRows_subset (s : Nat) :
    stageRows batchSize first last
      ⊆ keptRows batchSize first last ∪ visibleRows batchSize [.buffer .x]
        ∪ Instr.written (opInstrs I syncType batchSize (c.bodyOps s)) := by
  rintro row (hrow | ⟨hsource, hbatch⟩)
  · exact .inl (.inl hrow)
  · rcases List.mem_cons.1 hsource with hx | hzq
    · exact .inl (.inr ⟨List.mem_singleton.2 hx, hbatch⟩)
    · refine .inr (mem_written_opInstrs.2 ⟨?_, hbatch⟩)
      rw [List.mem_singleton.1 hzq]
      exact zq_mem_bodyOps s

/-- The two first ops, where they put the same row into `x`. -/
theorem eqOn_firstOps {s : Nat} {first' : Nat} {m m' : NnMemory R}
    (hentry : ∀ b < batchSize, firstRow I 0 s m b = firstRow I first' s m' b)
    (hkept : Set.EqOn m m' (keptRows batchSize first last)) :
    Set.EqOn (runOps I syncType batchSize (firstOps 0 s) m)
      (runOps I syncType batchSize (firstOps first' s) m')
      (keptRows batchSize first last ∪ visibleRows batchSize [.buffer .x]) := by
  intro row hrow
  rw [runOps_firstOps, runOps_firstOps]
  by_cases hx : row.1 = .buffer .x ∧ row.2 < batchSize
  · rw [if_pos hx, if_pos hx, hentry row.2 hx.2]
  · rw [if_neg hx, if_neg hx]
    rcases hrow with hrow | ⟨hsource, hbatch⟩
    · exact hkept hrow
    · -- a visible row of `x` is one of the batch
      refine absurd ⟨List.mem_singleton.1 hsource, ?_⟩ hx
      rw [NnRow.inBatch, List.mem_singleton.1 hsource] at hbatch
      exact of_decide_eq_true hbatch

/-- The sub-blocks of a stage, once it has taken over the row the single node has there. -/
theorem eqOn_blockOps (hprune : c.pruneLayer = none) (h : first < last) {m m' : NnMemory R}
    (hentry : ∀ b < batchSize, firstRow I 0 first m b = firstRow I first first m' b)
    (hkept : Set.EqOn m m' (keptRows batchSize first last)) :
    Set.EqOn (runOps I syncType batchSize (c.blockOps 0 first last) m)
      (runOps I syncType batchSize (c.blockOps first first last) m')
      (stageRows batchSize first last) := by
  rw [blockOps_cons hprune h, blockOps_cons hprune h, blockOps_eq hprune (Nat.lt_succ_self first),
    runOps_append (firstOps 0 first), runOps_append (firstOps first first)]
  have hcovers : Instr.Covers (keptRows batchSize first last ∪ visibleRows batchSize [.buffer .x])
      (opInstrs I syncType batchSize (c.bodyOps first ++ c.blockOps 0 (first + 1) last)) := by
    rw [opInstrs, List.map_append, Instr.covers_append]
    exact ⟨covers_bodyOps le_rfl h,
      (covers_blockOps hprune (Nat.lt_succ_self first)).mono (stageRows_subset first)⟩
  refine (Instr.eqOn_runAll hcovers (eqOn_firstOps hentry hkept)).mono ?_
  rw [opInstrs, List.map_append, Instr.written_append, ← Set.union_assoc]
  exact (stageRows_subset first).trans Set.subset_union_left

/-! ## Rows that sub-blocks leave alone -/

/-- Sub-blocks before or after a stage keep its positions and caches. -/
theorem runOps_blockOps_of_kept (hprune : c.pruneLayer = none) {first' last' : Nat}
    (hout : last' ≤ first ∨ last ≤ first') (m : NnMemory R) {row : NnRow}
    (hrow : row ∈ keptRows batchSize first last) :
    runOps I syncType batchSize (c.blockOps 0 first' last') m row = m row := by
  refine runOps_of_notMem (fun hmem => ?_) m
  rw [writtenSources, blockOps, List.flatMap_assoc] at hmem
  rcases List.mem_flatMap.1 hmem with ⟨s, hs, hw⟩
  have hrange := List.mem_range'_1.1 hs
  have hwritable := writable_subBlockCalls hprune hw
  rcases hrow.2 with hpos | ⟨layerIndex, hge, hlt, hcache⟩
  · rw [hpos] at hwritable
    cases hwritable
  · rcases hcache with hcache | hcache <;> rw [hcache] at hwritable <;>
      split_ifs at hwritable <;> simp [writable] at hwritable <;> omega

/-- The hand-over of a stage. -/
theorem runOps_bridgeCalls (m : NnMemory R) {b : Nat} (hb : b < batchSize) :
    runOps I syncType batchSize (opsOf bridgeCalls) m (.pipe .x, b)
      = I.add (m (.buffer .x, b)) (m (.pipe .zq, b)) := by
  have hops : opsOf bridgeCalls = opsOf [mergeAddOp .stageBridgeMergeAdd 0]
      ++ opsOf [castOp .stageBridgeCastX 0 (.buffer .x) (.pipe .x)] := rfl
  rw [hops, runOps_append, runOps_castOp _ _ (by rfl) (by rfl), if_pos ⟨rfl, hb⟩,
    runOps_mergeAddOp,
    if_pos ⟨rfl, hb⟩]

/-- What comes after the sub-blocks keeps the positions and caches. -/
theorem runOps_tailCalls_of_kept {ppSize ppRank : Nat} {fused : Bool} (m : NnMemory R)
    {row : NnRow} (hrow : row ∈ keptRows batchSize first last) :
    runOps I syncType batchSize (opsOf (c.tailCalls ppSize ppRank fused)) m row = m row := by
  refine runOps_of_notMem (fun hmem => ?_) m
  have hwritable : writable none row.1 = true := by
    unfold tailCalls at hmem
    split_ifs at hmem
    · exact List.all_eq_true.1 (by decide : (writtenSources (opsOf bridgeCalls)).all
        (writable none) = true) _ hmem
    · exact List.all_eq_true.1 writable_endCalls _ hmem
    · cases hmem
  rcases hrow.2 with hpos | ⟨layerIndex, -, -, hcache⟩
  · rw [hpos] at hwritable
    cases hwritable
  · rcases hcache with hcache | hcache <;> rw [hcache] at hwritable <;> cases hwritable

end Agree

/-! ## Forwards of the stages -/

/-- The split of the sub-blocks over the stages, and what the stages hold of a model. -/
structure StageSplit where
  ppSize : Nat
  offset : Nat → Nat
  ppSize_pos : 0 < ppSize
  offset_zero : offset 0 = 0
  offset_lt : ∀ p < ppSize, offset p < offset (p + 1)

namespace StageSplit

variable (d : StageSplit)

theorem offset_le {p q : Nat} (hpq : p ≤ q) (hq : q ≤ d.ppSize) : d.offset p ≤ d.offset q := by
  induction q, hpq using Nat.le_induction with
  | base => exact le_rfl
  | succ q _ ih => exact (ih (by omega)).trans (d.offset_lt q (by omega)).le

theorem offset_pos {p : Nat} (hp : 0 < p) (hle : p ≤ d.ppSize) : 0 < d.offset p := by
  have hfirst := d.offset_lt 0 d.ppSize_pos
  rw [d.offset_zero] at hfirst
  exact hfirst.trans_le (d.offset_le hp hle)

end StageSplit

variable (c) in
/-- One forward of stage `p` of a split, on the memory it starts from. -/
def stageForward {R : Type} (d : StageSplit) (I : NnInterpretation R) (syncType : NnFloatType)
    (fused : Bool) (p batchSize : Nat) (start : NnMemory R) : NnMemory R :=
  runOps I syncType batchSize (opsOf (c.startCalls d.ppSize p p)
    ++ c.blockOps (d.offset p) (d.offset p) (d.offset (p + 1))
    ++ opsOf (c.tailCalls d.ppSize p fused)) start

section Forwards

variable {R : Type} {I : NnInterpretation R} {syncType : NnFloatType} {fused : Bool}
  {d : StageSplit} {f : NnForward R}

theorem opsOf_startCalls_zero (ppSize : Nat) :
    opsOf (c.startCalls ppSize 0 0) = [embeddingOp c.n] := by
  unfold startCalls
  split_ifs <;> simp_all [opsOf, batchOp, BuilderCall.op?, embeddingOp, List.filterMap_cons]

theorem opsOf_startCalls_of_pos {ppSize p : Nat} (hp : 0 < p) :
    opsOf (c.startCalls ppSize p p) = [] := by
  rw [startCalls, if_neg (by omega)]
  rfl

/-- When its sub-blocks begin, a stage has the positions of the batch and its own caches. -/
theorem kept_startCalls {ppSize p first last : Nat} {place : NnNodePlacement}
    (sent s : NnMemory R) {row : NnRow} (hrow : row ∈ keptRows f.batchSize first last) :
    runOps I syncType f.batchSize (opsOf (c.startCalls ppSize p p)) (stageStart place f sent s) row
      = if row.1 = .pipe .pos then f.positions row.2 else s row := by
  have hnot : row.1 ∉ writtenSources (opsOf (c.startCalls ppSize p p)) := by
    have hx : row.1 ≠ .pipe .x := by
      rcases hrow.2 with h | ⟨_, -, -, h | h⟩ <;> simp [h]
    rcases Nat.eq_zero_or_pos p with rfl | hp
    · rw [opsOf_startCalls_zero]
      exact fun hmem => hx (List.mem_singleton.1 hmem)
    · rw [opsOf_startCalls_of_pos hp]
      exact List.not_mem_nil
  rw [runOps_of_notMem hnot]
  rcases row with ⟨source, b⟩
  rcases hrow with ⟨hbatch, hpos | ⟨_, -, -, hcache | hcache⟩⟩
  · simp only at hpos
    subst hpos
    have hb : b < f.batchSize := of_decide_eq_true hbatch
    simp [stageStart, loadForward, hb]
  · simp only at hcache
    subst hcache
    simp only [stageStart, loadForward]
    split_ifs <;> simp_all [receiveActivation]
  · simp only at hcache
    subst hcache
    simp only [stageStart, loadForward]
    split_ifs <;> simp_all [receiveActivation]

/-- A later stage finds the row of its predecessor in its `X` pipe. -/
theorem x_startCalls {ppSize p : Nat} (hp : 0 < p) {place : NnNodePlacement}
    (hrank : place.ppRank = p) (sent s : NnMemory R) {b : Nat} (hb : b < f.batchSize) :
    runOps I syncType f.batchSize (opsOf (c.startCalls ppSize p p)) (stageStart place f sent s)
      (.pipe .x, b) = sent (.pipe .x, b) := by
  rw [opsOf_startCalls_of_pos hp]
  show stageStart place f sent s (.pipe .x, b) = _
  simp [stageStart, loadForward, hrank, show p ≠ 0 by omega, receiveActivation, hb]

/-- The first one finds the embedding. -/
theorem x_startCalls_zero {ppSize : Nat} {place : NnNodePlacement} (hrank : place.globalRank = 0)
    (hstage : place.ppRank = 0) (sent s : NnMemory R) {b : Nat} (hb : b < f.batchSize) :
    runOps I syncType f.batchSize (opsOf (c.startCalls ppSize 0 0)) (stageStart place f sent s)
      (.pipe .x, b) = embeddingRow I c.n f b := by
  rw [opsOf_startCalls_zero, stageStart, if_pos hstage]
  exact executeOp_embeddingOp I syncType c.n hrank f s hb

/-- The sub-blocks of a stage, after its start. -/
theorem stageForward_eq {p : Nat} (start : NnMemory R) :
    c.stageForward d I syncType fused p f.batchSize start
      = runOps I syncType f.batchSize (opsOf (c.tailCalls d.ppSize p fused))
          (runOps I syncType f.batchSize
            (c.blockOps (d.offset p) (d.offset p) (d.offset (p + 1)))
            (runOps I syncType f.batchSize (opsOf (c.startCalls d.ppSize p p)) start)) := by
  rw [stageForward, runOps_append, runOps_append]

end Forwards

/-! ## One forward -/

/-- Where a stage stands. -/
def StagePlaces (d : StageSplit) (place : Nat → NnNodePlacement) : Prop :=
  ∀ p < d.ppSize, (place p).globalRank = p ∧ (place p).ppRank = p

/-- A stage holds the caches of its layers that the single node holds. -/
def SameCaches {R : Type} (d : StageSplit) (s : Nat → NnMemory R) (whole : NnMemory R) : Prop :=
  ∀ p < d.ppSize, ∀ layerIndex, d.offset p ≤ layerIndex * 2 → layerIndex * 2 < d.offset (p + 1) →
    ∀ position, s p (.buffer (.k layerIndex), position) = whole (.buffer (.k layerIndex), position)
      ∧ s p (.buffer (.v layerIndex), position) = whole (.buffer (.v layerIndex), position)

section Simulation

variable {R : Type} {I : NnInterpretation R} {syncType : NnFloatType} {fused : Bool}
  {d d₁ : StageSplit} {f : NnForward R} {place place₁ : Nat → NnNodePlacement}
  {s s' s₁ s₁' : Nat → NnMemory R}

variable (c I syncType fused d f place s s') in
/-- Every stage has run once, from what its predecessor sent. -/
def StagesForward : Prop :=
  ∀ p < d.ppSize, s' p = c.stageForward d I syncType fused p f.batchSize
    (stageStart (place p) f (s' (p - 1)) (s p))

variable (c I syncType d f place s s') in
/-- The memory of a stage before its sub-blocks. -/
def started (p : Nat) : NnMemory R :=
  runOps I syncType f.batchSize (opsOf (c.startCalls d.ppSize p p))
    (stageStart (place p) f (s' (p - 1)) (s p))

variable (c I syncType d f place s s') in
/-- The memory of a stage after its sub-blocks. -/
def computed (p : Nat) : NnMemory R :=
  runOps I syncType f.batchSize (c.blockOps (d.offset p) (d.offset p) (d.offset (p + 1)))
    (c.started I syncType d f place s s' p)

theorem StagesForward.eq (h : c.StagesForward I syncType fused d f place s s') {p : Nat}
    (hp : p < d.ppSize) :
    s' p = runOps I syncType f.batchSize (opsOf (c.tailCalls d.ppSize p fused))
      (c.computed I syncType d f place s s' p) := by
  rw [h p hp, stageForward_eq]
  rfl

/-- The single node holds the positions and the caches that a stage begins with. -/
theorem eqOn_started (hsame : SameCaches d s (s₁ 0)) {p : Nat} (hp : p < d.ppSize) :
    Set.EqOn (c.started I syncType d₁ f place₁ s₁ s₁' 0) (c.started I syncType d f place s s' p)
      (keptRows f.batchSize (d.offset p) (d.offset (p + 1))) := by
  intro row hrow
  rw [started, started, kept_startCalls _ _ hrow, kept_startCalls _ _ hrow]
  split_ifs with hpos
  · rfl
  · rcases row with ⟨source, position⟩
    rcases hrow.2 with h | ⟨layerIndex, hge, hlt, h⟩
    · exact absurd h hpos
    · have hcaches := hsame p hp layerIndex hge hlt position
      rcases h with h | h <;> simp only at h <;> subst h
      · exact hcaches.1.symm
      · exact hcaches.2.symm

/-- What a stage sends. -/
theorem sent_eq (h : c.StagesForward I syncType fused d f place s s') {p : Nat}
    (hp : p + 1 < d.ppSize) {b : Nat} (hb : b < f.batchSize) :
    s' p (.pipe .x, b) = I.add (c.computed I syncType d f place s s' p (.buffer .x, b))
      (c.computed I syncType d f place s s' p (.pipe .zq, b)) := by
  rw [h.eq (by omega), tailCalls, if_pos (by omega)]
  exact runOps_bridgeCalls _ hb

theorem mem_stageRows {first last b batchSize : Nat} (hb : b < batchSize) :
    ((.buffer .x, b) : NnRow) ∈ stageRows batchSize first last ∧
      ((.pipe .zq, b) : NnRow) ∈ stageRows batchSize first last := by
  have hbatch : NnRow.inBatch batchSize (.buffer .x, b) = true ∧
      NnRow.inBatch batchSize (.pipe .zq, b) = true := by
    simp [NnRow.inBatch, NnPointerSource.isCache, hb]
  exact ⟨.inr ⟨by simp, hbatch.1⟩, .inr ⟨by simp, hbatch.2⟩⟩

/-- One stage, from the row the single node has at the first sub-block of the stage. -/
theorem eqOn_computed_of_entry (hprune : c.pruneLayer = none) (hsame : SameCaches d s (s₁ 0))
    {p : Nat} (hp : p < d.ppSize)
    (hentry : ∀ b < f.batchSize,
      firstRow I 0 (d.offset p) (runOps I syncType f.batchSize (c.blockOps 0 0 (d.offset p))
        (c.started I syncType d₁ f place₁ s₁ s₁' 0)) b
      = c.started I syncType d f place s s' p (.pipe .x, b)) :
    Set.EqOn (runOps I syncType f.batchSize (c.blockOps 0 0 (d.offset (p + 1)))
        (c.started I syncType d₁ f place₁ s₁ s₁' 0))
      (c.computed I syncType d f place s s' p)
      (stageRows f.batchSize (d.offset p) (d.offset (p + 1))) := by
  have hlt := d.offset_lt p hp
  rw [← blockOps_append (Nat.zero_le _) hlt.le, runOps_append]
  refine eqOn_blockOps hprune hlt (fun b hb => ?_) fun row hrow => ?_
  · rw [hentry b hb, firstRow, if_pos rfl]
  · rw [runOps_blockOps_of_kept hprune (.inl le_rfl) _ hrow]
    exact eqOn_started hsame hp hrow

/-- After each stage: what is pending in the single node is what the stage sends on. -/
theorem eqOn_computed (hprune : c.pruneLayer = none) (hplace : StagePlaces d place)
    (hplace₁ : StagePlaces d₁ place₁) (hsame : SameCaches d s (s₁ 0))
    (h : c.StagesForward I syncType fused d f place s s') {p : Nat} (hp : p < d.ppSize) :
    Set.EqOn (runOps I syncType f.batchSize (c.blockOps 0 0 (d.offset (p + 1)))
        (c.started I syncType d₁ f place₁ s₁ s₁' 0))
      (c.computed I syncType d f place s s' p)
      (stageRows f.batchSize (d.offset p) (d.offset (p + 1))) := by
  induction p with
  | zero =>
      refine eqOn_computed_of_entry hprune hsame hp fun b hb => ?_
      have h₁ := hplace₁ 0 d₁.ppSize_pos
      have h₀ := hplace 0 d.ppSize_pos
      rw [d.offset_zero, blockOps_self, firstRow, if_pos rfl]
      calc c.started I syncType d₁ f place₁ s₁ s₁' 0 (.pipe .x, b)
          = embeddingRow I c.n f b := x_startCalls_zero h₁.1 h₁.2 _ _ hb
        _ = c.started I syncType d f place s s' 0 (.pipe .x, b) :=
            (x_startCalls_zero h₀.1 h₀.2 _ _ hb).symm
  | succ p ih =>
      refine eqOn_computed_of_entry hprune hsame hp fun b hb => ?_
      have hbefore := ih (Nat.lt_of_succ_lt hp)
      have hpos : d.offset (p + 1) ≠ 0 := (d.offset_pos p.succ_pos hp.le).ne'
      rw [firstRow, if_neg hpos, hbefore (mem_stageRows hb).1, hbefore (mem_stageRows hb).2,
        ← sent_eq h hp hb]
      exact (x_startCalls p.succ_pos (hplace _ hp).2 _ _ hb).symm

/-- The sub-blocks after a stage and the end of the graph keep what the stage has computed. -/
theorem whole_of_kept (hprune : c.pruneLayer = none)
    (hwhole : c.StagesForward I syncType fused d₁ f place₁ s₁ s₁') (hone : d₁.ppSize = 1)
    (hlast : d₁.offset 1 = d.offset d.ppSize) {p : Nat} (hp : p < d.ppSize) {row : NnRow}
    (hrow : row ∈ keptRows f.batchSize (d.offset p) (d.offset (p + 1))) :
    s₁' 0 row = runOps I syncType f.batchSize (c.blockOps 0 0 (d.offset (p + 1)))
      (c.started I syncType d₁ f place₁ s₁ s₁' 0) row := by
  rw [hwhole.eq (by omega), runOps_tailCalls_of_kept _ hrow, computed, d₁.offset_zero, hlast,
    ← blockOps_append (Nat.zero_le _) (d.offset_le hp le_rfl), runOps_append,
    runOps_blockOps_of_kept hprune (.inr le_rfl) _ hrow]

/-- After a forward the stages hold the caches of the single node again. -/
theorem sameCaches_forward (hprune : c.pruneLayer = none) (hplace : StagePlaces d place)
    (hplace₁ : StagePlaces d₁ place₁) (hsame : SameCaches d s (s₁ 0))
    (h : c.StagesForward I syncType fused d f place s s')
    (hwhole : c.StagesForward I syncType fused d₁ f place₁ s₁ s₁') (hone : d₁.ppSize = 1)
    (hlast : d₁.offset 1 = d.offset d.ppSize) : SameCaches d s' (s₁' 0) := by
  intro p hp layerIndex hge hlt position
  have hrows {source : NnPointerSource}
      (hcache : source = .buffer (.k layerIndex) ∨ source = .buffer (.v layerIndex)) :
      s' p (source, position) = s₁' 0 (source, position) := by
    have hrow : ((source, position) : NnRow)
        ∈ keptRows f.batchSize (d.offset p) (d.offset (p + 1)) := by
      refine ⟨?_, .inr ⟨layerIndex, hge, hlt, hcache⟩⟩
      rcases hcache with rfl | rfl <;> rfl
    rw [whole_of_kept hprune hwhole hone hlast hp hrow, h.eq hp, runOps_tailCalls_of_kept _ hrow]
    exact (eqOn_computed hprune hplace hplace₁ hsame h hp (.inl hrow)).symm
  exact ⟨hrows (.inl rfl), hrows (.inr rfl)⟩

theorem lg_mem_endCalls : .pipe .lg ∈ writtenSources (opsOf (c.endCalls fused)) := by
  rw [endCalls, opsOf_append, opsOf_append, writtenSources, List.flatMap_append,
    List.flatMap_append]
  refine List.mem_append_left _ (List.mem_append_right _ ?_)
  unfold logitsCalls
  split_ifs
  · exact List.mem_cons_of_mem _ (List.mem_singleton_self _)
  · exact List.mem_singleton_self _

/-- The last stage ends with the logits of the single node. -/
theorem logits_forward (hprune : c.pruneLayer = none) (hplace : StagePlaces d place)
    (hplace₁ : StagePlaces d₁ place₁) (hsame : SameCaches d s (s₁ 0))
    (h : c.StagesForward I syncType fused d f place s s')
    (hwhole : c.StagesForward I syncType fused d₁ f place₁ s₁ s₁') (hone : d₁.ppSize = 1)
    (hlast : d₁.offset 1 = d.offset d.ppSize) {b : Nat} (hb : b < f.batchSize) :
    s' (d.ppSize - 1) (.pipe .lg, b) = s₁' 0 (.pipe .lg, b) := by
  have hpos := d.ppSize_pos
  have hp : d.ppSize - 1 < d.ppSize := by omega
  have hcomputed : Set.EqOn (c.computed I syncType d₁ f place₁ s₁ s₁' 0)
      (c.computed I syncType d f place s s' (d.ppSize - 1))
      (visibleRows f.batchSize [.buffer .x, .pipe .zq]) := by
    have heq := @eqOn_computed c R I syncType fused d d₁ f place place₁ s s' s₁ s₁' hprune hplace
      hplace₁ hsame h _ hp
    rw [Nat.sub_add_cancel hpos, ← hlast] at heq
    rw [computed, d₁.offset_zero]
    exact heq.mono Set.subset_union_right
  have htail : ∀ {n : Nat}, 0 < n → c.tailCalls n (n - 1) fused = c.endCalls fused := by
    intro n hn
    rw [tailCalls, if_neg (by omega), if_pos rfl]
  have hwhole₁ := hwhole.eq d₁.ppSize_pos
  rw [hone] at hwhole₁
  rw [h.eq hp, hwhole₁, htail hpos, htail Nat.one_pos]
  refine (eqOn_runOps coversSources_endCalls subset_rfl hcomputed (.inr ⟨lg_mem_endCalls, ?_⟩)).symm
  simp [NnRow.inBatch, hb]

end Simulation

end BlockContext

end PrefillOpt
