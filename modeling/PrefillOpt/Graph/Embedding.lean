import PrefillOpt.Graph.Semantics

/-!
# Embedding — what the nodes of the first stage start from

Node 0 embeds the tokens into its `X` pipe.  The sync that would hand the rows to the other nodes
of the stage is only there without pipelining, and a node of the first stage takes no activation
from another stage.  What a sync brings is left open here, except where it can bring it.
-/

namespace PrefillOpt

/-- A node's memory after some forwards. -/
inductive ForwardsRun {R : Type} (m : NnNodeModel R) (steps : List NnExecutorStep) :
    List (NnForward R) → NnMemory R → NnMemory R → Prop where
  | nil (s : NnMemory R) : ForwardsRun m steps [] s s
  | cons {f : NnForward R} {fs : List (NnForward R)} {s s₁ s' : NnMemory R}
      (hsteps : StepsRun m f.batchSize steps (loadForward m.place f s) s₁)
      (hrest : ForwardsRun m steps fs s₁ s') : ForwardsRun m steps (f :: fs) s s'

/-! ## The property -/

/-- The op that takes the `X` pipe over at the start of a stage. -/
def NnExecutorStep.isFirstCast : NnExecutorStep → Bool
  | .executeOp op => op.name == .blockCastX || op.name == .blockCastXFf
  | .syncNodes _ => false

/-- The steps before that op. -/
def stepsBeforeCast (steps : List NnExecutorStep) : List NnExecutorStep :=
  steps.takeWhile fun x => !x.isFirstCast

/-- The embedding op of the root. -/
def embeddingOp (n : LlmSlices) : NnOpConfig :=
  ⟨.embedding, .embedding, 0, pointerBatchConfig (.pipe .tok), pointerBatchConfig (.pipe .x),
    n.tokenEmbeddingSize, .embedding⟩

/-- The row the root computes for the token of a batch row. -/
def embeddingRow {R : Type} (I : NnInterpretation R) (n : LlmSlices) (f : NnForward R) (b : Nat) :
    R :=
  I.compute (embeddingOp n) f.batchSize
    [fun row => if row < f.batchSize then some (f.tokens row) else none] (.pipe .x) b

/-- In one forward from a memory: when the node takes its `X` pipe over, the rows of the batch are
the embedding rows. -/
def StartsFromEmbedding {R : Type} (m : NnNodeModel R) (n : LlmSlices)
    (steps : List NnExecutorStep) (f : NnForward R) (s : NnMemory R) : Prop :=
  steps.any NnExecutorStep.isFirstCast = true →
    ∀ s₁, StepsRun m f.batchSize (stepsBeforeCast steps) (loadForward m.place f s) s₁ →
      ∀ b < f.batchSize, s₁ (.pipe .x, b) = embeddingRow m.interp n f b

/-! ## Where a stage takes the pipe over -/

namespace NnExecutorStep

/-- The steps of a segment contain no such op if none of its calls adds one. -/
theorem any_isFirstCast_segmentSteps {calls : List BuilderCall} {b : Bool}
    (h : ∀ op, .addOp op ∈ calls → op.name ≠ .blockCastX ∧ op.name ≠ .blockCastXFf) :
    (segmentSteps b (NnSegmentConfigBuilder.segmentOf calls)).any isFirstCast = false := by
  rw [List.any_eq_false]
  intro x hx
  cases x with
  | executeOp op =>
      have hop := h op (NnSegmentConfigBuilder.mem_segmentOf_ops.1
        (executeOp_mem_segmentSteps.1 hx))
      simp [isFirstCast, hop.1, hop.2]
  | syncNodes syncs => simp [isFirstCast]

end NnExecutorStep

namespace BlockContext

variable {c : BlockContext} {nNodes ppSize nodeIndex subEnd : Nat} {fused : Bool}

/-- The pruning of layer 0, as steps. -/
def pruneSteps (c : BlockContext) : List NnExecutorStep :=
  ((c.pruneCalls 0).filterMap BuilderCall.op?).map .executeOp

/-- The embedding of the root, as steps. -/
def startSteps (c : BlockContext) (nodeIndex : Nat) : List NnExecutorStep :=
  if nodeIndex = 0 then [.executeOp (embeddingOp c.n)] else []

/-- The first op of a stage that begins with layer 0. -/
def firstCastOp : NnOpConfig :=
  ⟨.cast, .blockCastX, 0, pointerBatchConfig (.pipe .x), pointerBatchConfig (.buffer .x), size0,
    .cast⟩

theorem segmentSteps_start (hpp : 1 < ppSize) (b : Bool) :
    segmentSteps b (NnSegmentConfigBuilder.segmentOf (c.startCalls ppSize 0 nodeIndex))
      = c.startSteps nodeIndex := by
  have hne : ppSize ≠ 1 := by omega
  rw [NnSegmentConfigBuilder.segmentSteps_segmentOf]
  unfold startCalls startSteps
  split_ifs <;> simp_all [batchOp, BuilderCall.op?, BuilderCall.sync?, embeddingOp]

theorem layerRange_zero_cons (h : layerRange 0 subEnd ≠ []) :
    0 < subEnd ∧ ∃ later, layerRange 0 subEnd = 0 :: later := by
  unfold layerRange at h ⊢
  rw [Nat.zero_div, Nat.sub_zero] at h ⊢
  rcases hlen : u32 (subEnd + 1) / 2 with _ | n
  · rw [hlen] at h
    exact absurd rfl h
  · refine ⟨?_, _, List.range'_succ⟩
    rcases Nat.eq_zero_or_pos subEnd with rfl | hpos
    · cases hlen
    · exact hpos

/-- A stage with a layer takes the pipe over right after the embedding and the pruning. -/
theorem steps_eq_of_layer_zero (c : BlockContext) (nNodes nodeIndex : Nat) (fused : Bool)
    (hpp : 1 < ppSize) (h : layerRange 0 subEnd ≠ []) :
    ∃ after, executorSteps nNodes (c.nodeSegments ppSize 0 nodeIndex 0 subEnd fused)
      = c.startSteps nodeIndex ++ c.pruneSteps ++ .executeOp firstCastOp :: after := by
  rcases layerRange_zero_cons h with ⟨hpos, later, hrange⟩
  have hatt : ∃ tail, segmentSteps (decide (1 < nNodes))
      (NnSegmentConfigBuilder.segmentOf (c.attCalls 0 0))
        = c.pruneSteps ++ .executeOp firstCastOp :: tail := by
    rw [NnSegmentConfigBuilder.segmentSteps_segmentOf, attCalls, List.filterMap_append,
      List.map_append, List.append_assoc]
    exact ⟨_, rfl⟩
  rcases hatt with ⟨tail, hatt⟩
  rw [executorSteps, nodeSegments, hrange, List.flatMap_cons, layerSegments,
    if_pos (show 0 ≤ 0 * 2 ∧ 0 * 2 < subEnd by omega)]
  simp only [List.flatMap_append, List.flatMap_cons, hatt, segmentSteps_start hpp,
    List.append_assoc, List.cons_append, List.nil_append]
  exact ⟨_, rfl⟩

/-- Without a layer the stage takes no pipe over. -/
theorem any_isFirstCast_of_layerRange_nil (h : layerRange 0 subEnd = []) :
    (executorSteps nNodes (c.nodeSegments ppSize 0 nodeIndex 0 subEnd fused)).any
      NnExecutorStep.isFirstCast = false := by
  rw [executorSteps, nodeSegments, h]
  simp only [List.flatMap_append, List.flatMap_nil, List.any_append, Bool.or_eq_false_iff,
    List.append_nil, List.flatMap_cons]
  refine ⟨⟨NnExecutorStep.any_isFirstCast_segmentSteps ?_, ?_⟩, ?_⟩
  · unfold startCalls
    split_ifs <;> simp [batchOp]
  · split_ifs
    · rw [List.flatMap_cons, List.flatMap_nil, List.append_nil]
      exact NnExecutorStep.any_isFirstCast_segmentSteps
        (by simp [bridgeCalls, mergeAddOp, castOp, batchOp])
    · rfl
  · split_ifs
    · rw [List.flatMap_cons, List.flatMap_nil, List.append_nil]
      refine NnExecutorStep.any_isFirstCast_segmentSteps ?_
      unfold endCalls castYCalls logitsCalls
      split_ifs <;> simp [mergeAddOp, invRmsOp, rmsNormOp, castOp, batchOp]
    · rfl

/-- The steps before the op that takes the pipe over. -/
theorem stepsBeforeCast_eq {steps after : List NnExecutorStep}
    (h : steps = c.startSteps nodeIndex ++ c.pruneSteps ++ .executeOp firstCastOp :: after) :
    stepsBeforeCast steps = c.startSteps nodeIndex ++ c.pruneSteps := by
  rw [h, stepsBeforeCast, List.takeWhile_append_of_pos]
  · rw [List.takeWhile_cons_of_neg (by decide), List.append_nil]
  · intro x hx
    rcases List.mem_append.1 hx with hx | hx
    · unfold startSteps at hx
      split_ifs at hx
      · rw [List.mem_singleton.1 hx]
        rfl
      · cases hx
    · unfold pruneSteps pruneCalls at hx
      split_ifs at hx
      · rw [List.mem_singleton.1 hx]
        rfl
      · cases hx

theorem pruneSteps_targets {x : NnExecutorStep} (hx : x ∈ c.pruneSteps)
    (place : NnNodePlacement) : .pipe .x ∉ x.targets place := by
  unfold pruneSteps pruneCalls at hx
  split_ifs at hx
  · rw [List.mem_singleton.1 hx]
    simp [NnExecutorStep.targets, NnOpConfig.writes, pointerBatchConfig]
  · cases hx

/-- The root's embedding op puts the embedding rows into its `X` pipe. -/
theorem executeOp_embeddingOp {R : Type} (I : NnInterpretation R) (syncType : NnFloatType)
    (n : LlmSlices) {place : NnNodePlacement} (hroot : place.globalRank = 0) (f : NnForward R)
    (s : NnMemory R) {b : Nat} (hb : b < f.batchSize) :
    executeOp I syncType f.batchSize (embeddingOp n) (loadForward place f s) (.pipe .x, b)
      = embeddingRow I n f b := by
  have hrow : NnRow.inBatch f.batchSize (.pipe .x, b) = true := by
    simp [NnRow.inBatch, NnPointerSource.isCache, hb]
  have hview : viewRows f.batchSize (loadForward place f s) (.pipe .tok)
      = fun row => if row < f.batchSize then some (f.tokens row) else none := by
    funext row
    by_cases hlt : row < f.batchSize <;>
      simp [viewRows, NnRow.inBatch, NnPointerSource.isCache, loadForward, hlt, hroot]
  rw [executeOp, if_pos ⟨List.mem_singleton_self _, hrow⟩]
  show I.compute (embeddingOp n) f.batchSize
    [viewRows f.batchSize (loadForward place f s) (.pipe .tok)] (.pipe .x) b = _
  rw [hview, embeddingRow]

/-- One forward of a node of the first stage. -/
theorem startsFromEmbedding_iff {R : Type} (m : NnNodeModel R) (hpp : 1 < ppSize)
    (f : NnForward R) (s : NnMemory R) :
    StartsFromEmbedding m c.n
        (executorSteps nNodes (c.nodeSegments ppSize 0 m.place.globalRank 0 subEnd fused)) f s
      ↔ layerRange 0 subEnd = [] ∨ m.place.globalRank = 0 ∨
        ∀ b < f.batchSize, s (.pipe .x, b) = embeddingRow m.interp c.n f b := by
  rcases Decidable.em (layerRange 0 subEnd = []) with hempty | hlayer
  · refine iff_of_true (fun hany => ?_) (.inl hempty)
    rw [any_isFirstCast_of_layerRange_nil hempty] at hany
    cases hany
  rcases c.steps_eq_of_layer_zero nNodes m.place.globalRank fused hpp hlayer with ⟨after, hsteps⟩
  have hany : (executorSteps nNodes
      (c.nodeSegments ppSize 0 m.place.globalRank 0 subEnd fused)).any
      NnExecutorStep.isFirstCast = true := by
    rw [hsteps, List.any_append, List.any_cons]
    simp [NnExecutorStep.isFirstCast, firstCastOp]
  simp only [StartsFromEmbedding, hany, stepsBeforeCast_eq hsteps, true_imp_iff, hlayer, false_or]
  by_cases hroot : m.place.globalRank = 0
  · -- the embedding comes first, and pruning leaves the pipe alone
    refine iff_of_true (fun s₁ hrun b hb => ?_) (.inl hroot)
    rw [startSteps, if_pos hroot] at hrun
    rcases hrun with _ | ⟨hstep, hrest⟩
    rw [hrest.keeps fun x hx => pruneSteps_targets hx m.place]
    cases hstep
    exact executeOp_embeddingOp m.interp m.syncType c.n hroot f s hb
  · -- nothing before the cast writes the pipe
    have hkeep {s₁ : NnMemory R} (hrun : StepsRun m f.batchSize
        (c.startSteps m.place.globalRank ++ c.pruneSteps) (loadForward m.place f s) s₁)
        (b : Nat) : s₁ (.pipe .x, b) = s (.pipe .x, b) := by
      rw [startSteps, if_neg hroot] at hrun
      exact hrun.keeps fun x hx => pruneSteps_targets hx m.place
    rw [or_iff_right hroot]
    constructor
    · intro h b hb
      rcases exists_stepsRun m f.batchSize (c.startSteps m.place.globalRank ++ c.pruneSteps)
        (loadForward m.place f s) with ⟨s₁, hrun⟩
      rw [← hkeep hrun b]
      exact h s₁ hrun b hb
    · intro h s₁ hrun b hb
      rw [hkeep hrun b]
      exact h b hb

end BlockContext

/-! ## The claim of a whole net -/

section Net

variable {R : Type} {h : LlmHeader} {t : NnParallelTopology} {o : BuildOptions} {net : LlmNet}

/-- A node of a net. -/
def LlmNet.nodeModel (net : LlmNet) (t : NnParallelTopology) (I : NnInterpretation R)
    (node : Nat) : NnNodeModel R :=
  ⟨I, net.header.syncType, t.placement node⟩

/-- A node starts from the embedding in every forward of every run. -/
def AlwaysStartsFromEmbedding (t : NnParallelTopology) (o : BuildOptions) (net : LlmNet)
    (node : Nat) (init : NnMemory R) : Prop :=
  ∀ (I : NnInterpretation R) fs f s,
    (∀ g ∈ fs ++ [f], 0 < g.batchSize ∧ g.batchSize ≤ o.nBatches) →
    ForwardsRun (net.nodeModel t I node) (net.steps node) fs init s →
    StartsFromEmbedding (net.nodeModel t I node) net.slices (net.steps node) f s

/-- The first stage has no layer. -/
def LlmNet.FirstStageEmpty (net : LlmNet) : Prop :=
  BlockContext.layerRange (net.subStart 0) (net.subEnd 0) = []

theorem startsFromEmbedding_net_iff (hnet : buildLlmNet h t o = .ok net) (hpp : 1 < t.ppSize)
    {node : Nat} (hnode : node < t.nNodes) (hstage : (t.placement node).ppRank = 0)
    (I : NnInterpretation R) (f : NnForward R) (s : NnMemory R) :
    StartsFromEmbedding (net.nodeModel t I node) net.slices (net.steps node) f s
      ↔ net.FirstStageEmpty ∨ node = 0 ∨
        ∀ b < f.batchSize, s (.pipe .x, b) = embeddingRow I net.slices f b := by
  rcases LlmNet.steps_eq hnet hnode with ⟨ropeSlice, -, hsteps⟩
  have hstart : net.subStart 0 = 0 :=
    (spansSubBlocks_of_ok t.ppSize_pos (buildLlmNet_eq_ok hnet).2.1).head
  rw [hsteps, hstage, LlmNet.FirstStageEmpty, hstart]
  exact BlockContext.startsFromEmbedding_iff (net.nodeModel t I node) hpp f s

/-- Some embedding differs from what a node finds in its pipe before the first forward. -/
theorem alwaysStartsFromEmbedding_iff [Nontrivial R] (hnet : buildLlmNet h t o = .ok net)
    (hpp : 1 < t.ppSize) {node : Nat} (hnode : node < t.nNodes)
    (hstage : (t.placement node).ppRank = 0) (init : NnMemory R) :
    AlwaysStartsFromEmbedding t o net node init
      ↔ net.FirstStageEmpty ∨ node = 0 ∨ o.nBatches = 0 := by
  constructor
  · intro halways
    by_contra hno
    push Not at hno
    rcases hno with ⟨hlayer, hroot, hbatches⟩
    rcases exists_ne (init (.pipe .x, 0)) with ⟨r, hr⟩
    let I : NnInterpretation R := ⟨fun a _ => a, fun _ _ a => a, fun _ _ _ _ _ => r⟩
    let f : NnForward R := ⟨1, fun _ => r, fun _ => r⟩
    have hstarts := halways I [] f init (by simp [f]; omega) (.nil init)
    rcases (startsFromEmbedding_net_iff hnet hpp hnode hstage I f init).1 hstarts with h | h | h
    · exact hlayer h
    · exact hroot h
    · exact hr (h 0 Nat.one_pos).symm
  · rintro hcases I fs f s hsizes -
    rw [startsFromEmbedding_net_iff hnet hpp hnode hstage]
    rcases hcases with h | h | h
    · exact .inl h
    · exact .inr (.inl h)
    · have := hsizes f (by simp)
      omega

/-- Every stage-0 node of a pipelined net: it starts from the root's embedding in a forward exactly
if it is the root, has no layer, or finds the very rows left in its pipe; and in every forward of
every run exactly in the first two cases. -/
theorem first_stage_embedding_iff [Nontrivial R] (h : LlmHeader) (t : NnParallelTopology)
    (o : BuildOptions) (net : LlmNet) (hnet : buildLlmNet h t o = .ok net) (hpp : 1 < t.ppSize)
    (node : Nat) (hnode : node < t.nNodes) (hstage : (t.placement node).ppRank = 0)
    (init : NnMemory R) :
    (AlwaysStartsFromEmbedding t o net node init
      ↔ net.FirstStageEmpty ∨ node = 0 ∨ o.nBatches = 0) ∧
    ∀ (I : NnInterpretation R) fs f s,
      ForwardsRun (net.nodeModel t I node) (net.steps node) fs init s →
      (StartsFromEmbedding (net.nodeModel t I node) net.slices (net.steps node) f s
        ↔ net.FirstStageEmpty ∨ node = 0 ∨
          ∀ b < f.batchSize, s (.pipe .x, b) = embeddingRow I net.slices f b) :=
  ⟨alwaysStartsFromEmbedding_iff hnet hpp hnode hstage init, fun I _ f s _ =>
    startsFromEmbedding_net_iff hnet hpp hnode hstage I f s⟩

/-- Two stages of two tensor-parallel nodes, with batches of one row. -/
private theorem twoStages_nNodes : 4 = 2 * 1 * 2 := rfl

def twoStages : NnParallelTopology :=
  ⟨4, 2, 1, 2, Nat.two_pos, Nat.one_pos, Nat.two_pos, twoStages_nNodes⟩

def oneRow : BuildOptions := ⟨1, [], none, false, false⟩

theorem buildLlmNet_twoStages :
    ∃ net, buildLlmNet (tinyHeader 2) twoStages oneRow = .ok net ∧ ¬ net.FirstStageEmpty :=
  ⟨_, rfl, by simp only [LlmNet.FirstStageEmpty]; decide⟩

theorem first_stage_embedding_iff_two_stages :
    ∃ net, buildLlmNet (tinyHeader 2) twoStages oneRow = .ok net ∧
      (AlwaysStartsFromEmbedding twoStages oneRow net 1 (fun _ => 0 : NnMemory Nat)
        ↔ net.FirstStageEmpty ∨ 1 = 0 ∨ oneRow.nBatches = 0) := by
  rcases buildLlmNet_twoStages with ⟨net, hnet, -⟩
  exact ⟨net, hnet, (first_stage_embedding_iff (tinyHeader 2) twoStages oneRow net hnet
    (by decide) 1 (by decide) (by decide) fun _ => 0).1⟩

/-- Node 1 is in the first stage and starts from an `X` pipe of zeros, not from the embedding. -/
theorem not_startsFromEmbedding_two_stages :
    ∃ net, buildLlmNet (tinyHeader 2) twoStages oneRow = .ok net ∧
      ¬ AlwaysStartsFromEmbedding twoStages oneRow net 1 (fun _ => 0 : NnMemory Nat) := by
  rcases buildLlmNet_twoStages with ⟨net, hnet, hlayer⟩
  refine ⟨net, hnet, fun halways => ?_⟩
  rcases (alwaysStartsFromEmbedding_iff hnet (by decide) (show 1 < twoStages.nNodes by decide)
    (by decide) _).1 halways with h | h | h
  · exact hlayer h
  · exact absurd h (by decide)
  · exact absurd h (by decide)

end Net

end PrefillOpt
