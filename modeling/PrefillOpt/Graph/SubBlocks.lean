import PrefillOpt.Graph.Executor

/-!
# SubBlocks — the ops of a stage, sub-block by sub-block

Sub-block `2l` is the attention of layer `l`, sub-block `2l + 1` its feed-forward part.  The graph
builder walks layers and asks for each half whether the stage owns it; what comes out is the list
of its sub-blocks in order.
-/

namespace PrefillOpt

open NnSegmentConfigBuilder

/-! ## Intervals -/

theorem flatMap_halves (m n : Nat) :
    (List.range' m n).flatMap (fun l => [l * 2, l * 2 + 1]) = List.range' (m * 2) (n * 2) := by
  induction n generalizing m with
  | zero => rfl
  | succ n ih =>
      rw [List.range'_succ, List.flatMap_cons, ih, Nat.succ_mul n, List.range'_succ,
        List.range'_succ, Nat.succ_mul]
      rfl

/-- Cutting an interval out of a larger one. -/
theorem filter_range' {a e m n : Nat} (hm : m ≤ a) (ha : a ≤ e) (he : e ≤ m + n) :
    (List.range' m n).filter (fun s => decide (a ≤ s ∧ s < e)) = List.range' a (e - a) := by
  have hsplit : List.range' m n
      = List.range' m (a - m) ++ List.range' a (e - a) ++ List.range' e (m + n - e) := by
    have h₁ := @List.range'_append_1 m (a - m) (e - a)
    have h₂ := @List.range'_append_1 m (e - m) (m + n - e)
    rw [show m + (a - m) = a by omega, show a - m + (e - a) = e - m by omega] at h₁
    rw [show m + (e - m) = e by omega, show e - m + (m + n - e) = n by omega] at h₂
    rw [h₁, h₂]
  rw [hsplit, List.filter_append, List.filter_append,
    List.filter_eq_nil_iff.2, List.filter_eq_self.2, List.filter_eq_nil_iff.2]
  · simp
  · intro s hs
    have := List.mem_range'_1.1 hs
    simp only [decide_eq_true_eq]
    omega
  · intro s hs
    have := List.mem_range'_1.1 hs
    simp only [decide_eq_true_eq]
    omega
  · intro s hs
    have := List.mem_range'_1.1 hs
    simp only [decide_eq_true_eq]
    omega

namespace BlockContext

variable (c : BlockContext)

/-! ## Sub-blocks -/

/-- The calls of one sub-block of a stage that starts at `subStart`. -/
def subBlockCalls (subStart s : Nat) : List BuilderCall :=
  if s % 2 = 0 then c.attCalls subStart (s / 2) else c.ffCalls subStart (s / 2)

theorem layerSegments_eq (subStart subEnd layerIndex : Nat) :
    c.layerSegments subStart subEnd layerIndex
      = ([layerIndex * 2, layerIndex * 2 + 1].filter
          fun s => decide (subStart ≤ s ∧ s < subEnd)).map
        fun s => segmentOf (c.subBlockCalls subStart s) := by
  have hatt : c.subBlockCalls subStart (layerIndex * 2) = c.attCalls subStart layerIndex := by
    rw [subBlockCalls, if_pos (by omega), Nat.mul_div_cancel _ (by decide)]
  have hff : c.subBlockCalls subStart (layerIndex * 2 + 1) = c.ffCalls subStart layerIndex := by
    rw [subBlockCalls, if_neg (by omega), show (layerIndex * 2 + 1) / 2 = layerIndex by omega]
  unfold layerSegments
  by_cases h₁ : subStart ≤ layerIndex * 2 ∧ layerIndex * 2 < subEnd <;>
    by_cases h₂ : subStart ≤ layerIndex * 2 + 1 ∧ layerIndex * 2 + 1 < subEnd <;>
    simp [h₁, h₂, hatt, hff]

/-- The layers of a stage give its sub-blocks, each once and in order. -/
theorem flatMap_layerSegments {subStart subEnd : Nat} (h : subStart ≤ subEnd)
    (hfits : subEnd + 1 < 2 ^ 32) :
    (layerRange subStart subEnd).flatMap (c.layerSegments subStart subEnd)
      = (List.range' subStart (subEnd - subStart)).map
        fun s => segmentOf (c.subBlockCalls subStart s) := by
  have hfilter : (layerRange subStart subEnd).flatMap (fun l =>
      [l * 2, l * 2 + 1].filter fun s => decide (subStart ≤ s ∧ s < subEnd))
        = List.range' subStart (subEnd - subStart) := by
    rw [← List.filter_flatMap, layerRange, flatMap_halves, u32_of_lt hfits]
    exact filter_range' (by omega) h (by omega)
  rw [← hfilter, List.map_flatMap]
  exact congrArg (fun g => (layerRange subStart subEnd).flatMap g)
    (funext fun l => c.layerSegments_eq subStart subEnd l)

/-! ## The ops of a stage -/

/-- The ops a sequence of calls adds. -/
def opsOf (calls : List BuilderCall) : List NnOpConfig :=
  calls.filterMap BuilderCall.op?

/-- The ops of a list of steps. -/
def stepOps (steps : List NnExecutorStep) : List NnOpConfig :=
  steps.filterMap fun
    | .executeOp op => some op
    | .syncNodes _ => none

theorem stepOps_segmentSteps (b : Bool) (calls : List BuilderCall) :
    stepOps (segmentSteps b (segmentOf calls)) = opsOf calls := by
  rw [segmentSteps_segmentOf, stepOps, List.filterMap_append, List.filterMap_map]
  have hops : (opsOf calls).filterMap (fun op => some op) = opsOf calls := List.filterMap_some
  split_ifs
  · rw [List.filterMap_cons_none rfl, List.filterMap_nil, List.append_nil]
    exact hops
  · rw [List.filterMap_nil, List.append_nil]
    exact hops

/-- What comes after the sub-blocks of a stage. -/
def tailCalls (ppSize ppRank : Nat) (fused : Bool) : List BuilderCall :=
  if ppRank < ppSize - 1 then bridgeCalls
  else if ppRank = ppSize - 1 then c.endCalls fused
  else []

/-- The ops of a stage: the start, its sub-blocks, and the bridge or the logits. -/
theorem stepOps_executorSteps {nNodes ppSize ppRank nodeIndex subStart subEnd : Nat}
    {fused : Bool} (h : subStart ≤ subEnd) (hfits : subEnd + 1 < 2 ^ 32) :
    stepOps (executorSteps nNodes (c.nodeSegments ppSize ppRank nodeIndex subStart subEnd fused))
      = opsOf (c.startCalls ppSize ppRank nodeIndex)
        ++ (List.range' subStart (subEnd - subStart)).flatMap
          (fun s => opsOf (c.subBlockCalls subStart s))
        ++ opsOf (c.tailCalls ppSize ppRank fused) := by
  have hflat (segments : List NnSegmentConfig) : stepOps (executorSteps nNodes segments)
      = segments.flatMap fun g => stepOps (segmentSteps (decide (1 < nNodes)) g) := by
    rw [executorSteps, stepOps, List.filterMap_flatMap]
    rfl
  rw [hflat, nodeSegments, c.flatMap_layerSegments h hfits, List.flatMap_append,
    List.flatMap_append, List.flatMap_append, List.flatMap_map]
  simp only [stepOps_segmentSteps, List.flatMap_cons, List.flatMap_nil, List.append_nil]
  rw [List.append_assoc, tailCalls]
  congr 1
  by_cases h₁ : ppRank < ppSize - 1
  · rw [if_pos h₁, if_neg (by omega), if_pos h₁]
    simp [stepOps_segmentSteps]
  · by_cases h₂ : ppRank = ppSize - 1
    · rw [if_neg h₁, if_pos h₂, if_neg h₁, if_pos h₂]
      simp [stepOps_segmentSteps]
    · rw [if_neg h₁, if_neg h₂, if_neg h₁, if_neg h₂]
      rfl

end BlockContext

end PrefillOpt
