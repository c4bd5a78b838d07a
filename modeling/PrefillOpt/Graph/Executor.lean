import Mathlib.Data.List.Nodup
import PrefillOpt.Graph.Build

/-!
# Executor — the step list of a node

The constructor of `NnExecutor` turns the segments of a node into steps.  The threads of a node
meet at a barrier after every step, so a node runs its list in order.
-/

namespace PrefillOpt

inductive NnExecutorStep where
  | executeOp (op : NnOpConfig)
  /-- The synchronizer then walks the syncs of the segment. -/
  | syncNodes (syncs : List NnSyncConfig)

/-- All ops of the segment, then one step for all its syncs. -/
def segmentSteps (useSynchronizer : Bool) (segment : NnSegmentConfig) : List NnExecutorStep :=
  segment.ops.map .executeOp
  ++ if useSynchronizer = true ∧ segment.syncs ≠ [] then [.syncNodes segment.syncs] else []

def executorSteps (nNodes : Nat) (segments : List NnSegmentConfig) : List NnExecutorStep :=
  segments.flatMap (segmentSteps (decide (1 < nNodes)))

/-! ## The members of a step list -/

theorem mem_executorSteps {nNodes : Nat} {segments : List NnSegmentConfig} {s : NnExecutorStep} :
    s ∈ executorSteps nNodes segments ↔
      ∃ segment ∈ segments, s ∈ segmentSteps (decide (1 < nNodes)) segment :=
  List.mem_flatMap

theorem executeOp_mem_segmentSteps {b : Bool} {segment : NnSegmentConfig} {op : NnOpConfig} :
    .executeOp op ∈ segmentSteps b segment ↔ op ∈ segment.ops := by
  unfold segmentSteps
  split_ifs <;> simp

theorem syncNodes_mem_segmentSteps {b : Bool} {segment : NnSegmentConfig}
    {syncs : List NnSyncConfig} (h : .syncNodes syncs ∈ segmentSteps b segment) :
    syncs = segment.syncs := by
  unfold segmentSteps at h
  split_ifs at h
  · simpa using h
  · simp at h

/-! ## The segments of a stage -/

namespace NnSegmentConfigBuilder

/-- Ops added by a sequence of calls. -/
theorem mem_segmentOf_ops {calls : List BuilderCall} {op : NnOpConfig} :
    op ∈ (segmentOf calls).ops ↔ .addOp op ∈ calls := by
  rw [segmentOf_eq, List.mem_filterMap]
  constructor
  · rintro ⟨call, hmem, hop⟩
    cases call with
    | addOp op' =>
        cases hop
        exact hmem
    | addSync _ _ => cases hop
    | addSpKvSync _ _ _ _ _ _ => cases hop
  · exact fun h => ⟨_, h, rfl⟩

/-- Syncs added by a sequence of calls. -/
theorem mem_segmentOf_syncs {calls : List BuilderCall} {s : NnSyncConfig} :
    s ∈ (segmentOf calls).syncs ↔ ∃ call ∈ calls, call.sync? = some s := by
  rw [segmentOf_eq, List.mem_filterMap]

/-- The steps of a segment, from its calls. -/
theorem segmentSteps_segmentOf (b : Bool) (calls : List BuilderCall) :
    segmentSteps b (segmentOf calls)
      = (calls.filterMap BuilderCall.op?).map .executeOp
        ++ if b = true ∧ calls.filterMap BuilderCall.sync? ≠ [] then
            [.syncNodes (calls.filterMap BuilderCall.sync?)] else [] := by
  rw [segmentOf_eq, segmentSteps]

end NnSegmentConfigBuilder

namespace BlockContext

variable (c : BlockContext)

open NnSegmentConfigBuilder

/-- The layers of which a stage owns the attention. -/
def ownedAtts (subStart subEnd : Nat) : List Nat :=
  (layerRange subStart subEnd).filter fun layerIndex =>
    subStart ≤ layerIndex * 2 ∧ layerIndex * 2 < subEnd

theorem mem_ownedAtts {subStart subEnd layerIndex : Nat} :
    layerIndex ∈ ownedAtts subStart subEnd ↔ layerIndex ∈ layerRange subStart subEnd ∧
      subStart ≤ layerIndex * 2 ∧ layerIndex * 2 < subEnd := by
  simp [ownedAtts]

/-- The calls of a segment before or after the first attention of a stage. -/
inductive OtherCalls (ppSize ppRank nodeIndex subStart : Nat) (fused : Bool) :
    List BuilderCall → Prop where
  | start : OtherCalls ppSize ppRank nodeIndex subStart fused
      (c.startCalls ppSize ppRank nodeIndex)
  | ff (layerIndex : Nat) : OtherCalls ppSize ppRank nodeIndex subStart fused
      (c.ffCalls subStart layerIndex)
  | bridge : OtherCalls ppSize ppRank nodeIndex subStart fused bridgeCalls
  | last : OtherCalls ppSize ppRank nodeIndex subStart fused (c.endCalls fused)

section

variable {c} {ppSize ppRank nodeIndex subStart subEnd : Nat} {fused : Bool}

/-- A layer whose attention the stage does not own adds at most its feed-forward segment. -/
theorem otherCalls_of_mem_layerSegments {layerIndex : Nat} {segment : NnSegmentConfig}
    (hnot : ¬ (subStart ≤ layerIndex * 2 ∧ layerIndex * 2 < subEnd))
    (h : segment ∈ c.layerSegments subStart subEnd layerIndex) :
    ∃ calls, c.OtherCalls ppSize ppRank nodeIndex subStart fused calls ∧
      segment = segmentOf calls := by
  rw [layerSegments, if_neg hnot, List.nil_append] at h
  split_ifs at h
  · exact ⟨_, .ff layerIndex, List.mem_singleton.1 h⟩
  · cases h

/-- A stage without attention only has the other segments. -/
theorem otherCalls_of_mem_nodeSegments (hnone : ownedAtts subStart subEnd = [])
    {segment : NnSegmentConfig}
    (h : segment ∈ c.nodeSegments ppSize ppRank nodeIndex subStart subEnd fused) :
    ∃ calls, c.OtherCalls ppSize ppRank nodeIndex subStart fused calls ∧
      segment = segmentOf calls := by
  simp only [nodeSegments, List.mem_append, List.mem_singleton, List.mem_flatMap] at h
  rcases h with ((rfl | ⟨layerIndex, hlayer, h⟩) | h) | h
  · exact ⟨_, .start, rfl⟩
  · refine otherCalls_of_mem_layerSegments (fun hown => ?_) h
    have hmem := mem_ownedAtts.2 ⟨hlayer, hown⟩
    rw [hnone] at hmem
    cases hmem
  · split_ifs at h
    · exact ⟨_, .bridge, List.mem_singleton.1 h⟩
    · cases h
  · split_ifs at h
    · exact ⟨_, .last, List.mem_singleton.1 h⟩
    · cases h

/-- Before the first attention of a stage there are only other segments. -/
theorem nodeSegments_eq_of_ownedAtts {layerIndex : Nat} {rest : List Nat}
    (hatts : ownedAtts subStart subEnd = layerIndex :: rest) :
    ∃ before after, c.nodeSegments ppSize ppRank nodeIndex subStart subEnd fused
        = before ++ segmentOf (c.attCalls subStart layerIndex) :: after ∧
      ∀ segment ∈ before, ∃ calls, c.OtherCalls ppSize ppRank nodeIndex subStart fused calls ∧
        segment = segmentOf calls := by
  rcases List.filter_eq_cons_iff.1 hatts with ⟨earlier, later, hrange, hearlier, hown, -⟩
  have hown : subStart ≤ layerIndex * 2 ∧ layerIndex * 2 < subEnd := by simpa using hown
  have hlayer : ∃ tail, c.layerSegments subStart subEnd layerIndex
      = segmentOf (c.attCalls subStart layerIndex) :: tail := by
    rw [layerSegments, if_pos hown]
    exact ⟨_, rfl⟩
  rcases hlayer with ⟨tail, hlayer⟩
  rw [nodeSegments, hrange, List.flatMap_append, List.flatMap_cons, hlayer]
  refine ⟨segmentOf (c.startCalls ppSize ppRank nodeIndex) ::
    earlier.flatMap (c.layerSegments subStart subEnd),
    tail ++ later.flatMap (c.layerSegments subStart subEnd)
      ++ (if ppRank < ppSize - 1 then [segmentOf bridgeCalls] else [])
      ++ (if ppRank = ppSize - 1 then [segmentOf (c.endCalls fused)] else []), ?_, ?_⟩
  · simp only [List.cons_append, List.nil_append, List.append_assoc]
  · intro segment h
    rcases List.mem_cons.1 h with rfl | h
    · exact ⟨_, .start, rfl⟩
    · rcases List.mem_flatMap.1 h with ⟨other, hother, h⟩
      exact otherCalls_of_mem_layerSegments (by simpa using hearlier other hother) h

end

end BlockContext

/-! ## The steps of an accepted net -/

/-- The step list of one node of a net. -/
def LlmNet.steps (net : LlmNet) (node : Nat) : List NnExecutorStep :=
  match net.nodeConfigs[node]? with
  | some nodeConfig => executorSteps net.nNodes nodeConfig.segments
  | none => []

/-- `subStart` and `subEnd` of a stage. -/
def LlmNet.subStart (net : LlmNet) (ppRank : Nat) : Nat := net.ppLayerOffsets.getD ppRank 0

def LlmNet.subEnd (net : LlmNet) (ppRank : Nat) : Nat := net.ppLayerOffsets.getD (ppRank + 1) 0

/-- The layers of which a stage owns the attention. -/
def LlmNet.attLayers (net : LlmNet) (ppRank : Nat) : List Nat :=
  BlockContext.ownedAtts (net.subStart ppRank) (net.subEnd ppRank)

/-- The steps of a node come from its stage and its context. -/
theorem LlmNet.steps_eq {h : LlmHeader} {t : NnParallelTopology} {o : BuildOptions} {net : LlmNet}
    (hnet : buildLlmNet h t o = .ok net) {node : Nat} (hnode : node < t.nNodes) :
    ∃ ropeSlice,
      (o.spNoShard = false → h.seqLen % t.spSize = 0) ∧
      net.steps node = executorSteps t.nNodes
        ((blockContext h t o net.slices ropeSlice (t.placement node).spRank).nodeSegments t.ppSize
          (t.placement node).ppRank node (net.subStart (t.placement node).ppRank)
          (net.subEnd (t.placement node).ppRank) o.fusedLmHeadArgmax) := by
  rcases buildLlmNet_eq_ok hnet with ⟨-, -, -, hnodes, hcfgs⟩
  rcases hcfgs node hnode with ⟨cfg, hcfg, hbuild⟩
  rcases buildNode_eq_ok hbuild with ⟨ropeSlice, -, hseq, rfl⟩
  refine ⟨ropeSlice, hseq, ?_⟩
  rw [LlmNet.steps, hcfg, hnodes]
  rfl

end PrefillOpt
