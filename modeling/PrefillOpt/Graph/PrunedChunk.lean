import PrefillOpt.Graph.PipelineSplit
import PrefillOpt.Graph.PruneOrder
import PrefillOpt.Kernels.MatmulForward
import PrefillOpt.Kernels.PruneTokens

/-!
# PrunedChunk — a prompt chunk in which tokens are dropped

Every stage is a process with its own count of active rows and its own position pipe, and only the
root is told how many rows to keep.  `CAST` and `MERGE_ADD` go over all rows of the batch.
-/

namespace PrefillOpt

open Kernels

/-! ## The processes -/

/-- What the processes compute with; `keepRatio` is that of the command line. -/
structure PruneModel (F : Type) where
  interp : NnInterpretation (List F)
  partialSort : Nat → List (F × Nat) → List (F × Nat)
  toUint : F → Nat
  infinity : F
  keepRatio : F

/-- A process between two steps. -/
structure PruneProcess (F : Type) where
  mem : NnMemory (List F)
  rowState : CpuRowState

structure PrefillChunk (F : Type) where
  batchSize : Nat
  tokens : Nat → List F
  positions : Nat → F

def PrefillChunk.forward {F : Type} (f : PrefillChunk F) : NnForward (List F) :=
  ⟨f.batchSize, f.tokens, fun b => [f.positions b]⟩

/-- The row of logits that goes to the root: the last one, if there are several. -/
def logitsRow (batchSize : Nat) : Nat := if 1 < batchSize then batchSize - 1 else 0

theorem pruneKeep_pos {F : Type} [Mul F] [NatCast F] (toUint : F → Nat) (ratio : F) (cur : Nat) :
    0 < pruneKeep toUint ratio cur := by
  simp only [pruneKeep]
  split <;> omega

section Model

variable {F : Type} [Add F] [Mul F] [Zero F] [One F] [NatCast F] [LinearOrder F]

/-- `nnCpuOpsSetPrune` is only called by the root, all others have the initial 1. -/
def PruneModel.ratio (m : PruneModel F) (node : Nat) : F := if node = 0 then m.keepRatio else 1

/-- What the pruning op works on. -/
def PruneProcess.pruneState (s : PruneProcess F) : PruneState F where
  rows b := s.mem (.buffer .x, b)
  positions b := (s.mem (.pipe .pos, b)).headD 0
  rowState := s.rowState

def executePrune (m : PruneModel F) (ratio : F) (batchSize : Nat) (s : PruneProcess F) :
    PruneProcess F :=
  let s' := pruneTokensForward m.partialSort m.toUint m.infinity ratio 0 batchSize s.pruneState
  { mem := fun row =>
      if row.2 < batchSize then
        match row.1 with
        | .buffer .x => s'.rows row.2
        | .pipe .pos => [s'.positions row.2]
        | _ => s.mem row
      else s.mem row
    rowState := s'.rowState }

/-- One step of a process.  What the other ops compute is left open, as is what a sync brings. -/
inductive ProcessStep (m : PruneModel F) (syncType : NnFloatType) (place : NnNodePlacement)
    (batchSize : Nat) (ratio : F) : NnExecutorStep → PruneProcess F → PruneProcess F → Prop where
  | prune {op : NnOpConfig} (hcode : op.code = .pruneTokens) (s : PruneProcess F) :
      ProcessStep m syncType place batchSize ratio (.executeOp op) s
        (executePrune m ratio batchSize s)
  | rows {op : NnOpConfig} (hcode : op.code = .cast ∨ op.code = .mergeAdd) (s : PruneProcess F) :
      ProcessStep m syncType place batchSize ratio (.executeOp op) s
        ⟨executeOp m.interp syncType batchSize op s.mem, s.rowState⟩
  | other {op : NnOpConfig} (hprune : op.code ≠ .pruneTokens)
      (hrows : ¬(op.code = .cast ∨ op.code = .mergeAdd)) {s : PruneProcess F}
      {mem : NnMemory (List F)}
      (hkeep : ∀ row : NnRow, row.1 ∉ op.writes → mem row = s.mem row) :
      ProcessStep m syncType place batchSize ratio (.executeOp op) s ⟨mem, s.rowState⟩
  | sync {syncs : List NnSyncConfig} {s : PruneProcess F} {mem : NnMemory (List F)}
      (hkeep : ∀ row : NnRow, (∀ sync ∈ syncs, row.1 ∉ sync.targets place) → mem row = s.mem row) :
      ProcessStep m syncType place batchSize ratio (.syncNodes syncs) s ⟨mem, s.rowState⟩

/-- One forward of a chunk: the state of every node after each of its steps.  `setBatchSize` has
reset the active rows, the pipes hold what the control packet and the stage before sent. -/
structure ChunkRun (m : PruneModel F) (net : LlmNet) (t : NnParallelTopology)
    (f : PrefillChunk F) where
  state : Nat → Nat → PruneProcess F
  start : ∀ node < t.nNodes, ∃ mem,
    state node 0 = ⟨loadForward (t.placement node) f.forward mem, ⟨0, 1, 0⟩⟩
  step : ∀ node < t.nNodes, ∀ j x, (net.steps node)[j]? = some x →
    ProcessStep m net.header.syncType (t.placement node) f.batchSize (m.ratio node) x
      (state node j) (state node (j + 1))

/-- The tokens whose rows survive the op, in their order. -/
def PruneModel.kept (m : PruneModel F) (ratio : F) (batchSize : Nat) (s : PruneProcess F) :
    List Nat :=
  let cur := activeRowCount s.rowState batchSize
  let keep := pruneKeep m.toUint ratio cur
  if 1 ≤ ratio ∨ cur ≤ keep then List.range cur
  else keepIdx m.partialSort m.infinity s.pruneState.rows cur keep

/-! ## The property -/

/-- The residual of a token as it would be without pruning: the row that was received, or the row
with what is pending for it. -/
def PruneModel.residual (m : PruneModel F) (net : LlmNet) (node layerIndex : Nat)
    (s : PruneProcess F) (b : Nat) : List F :=
  if layerIndex * 2 = net.subStart node then s.mem (.pipe .x, b)
  else m.interp.add (s.mem (.buffer .x, b)) (s.mem (.pipe .zq, b))

variable {m : PruneModel F} {net : LlmNet} {t : NnParallelTopology} {f : PrefillChunk F}

/-- Rows, residuals and positions stay together when a node prunes in its step `k`. -/
structure ChunkRun.KeepsTokensAt (run : ChunkRun m net t f) (node k layerIndex : Nat)
    (kept : List Nat) : Prop where
  /-- The op behind it brings row `i` up to date with the token that is now in it. -/
  residuals : activeRowCount (run.state node (k + 2)).rowState f.batchSize = kept.length ∧
    ∀ i b, kept[i]? = some b → (run.state node (k + 2)).mem (.buffer .x, i)
      = m.residual net node layerIndex (run.state node k) b
  /-- Wherever a later layer runs, row `i` has the position of that token. -/
  positions : ∀ stage < t.nNodes, ∀ j op, (net.steps stage)[j]? = some (.executeOp op) →
    layerIndex < op.index → ∀ i b, kept[i]? = some b →
      (run.state stage j).mem (.pipe .pos, i) = [f.positions b]
  /-- The logits are computed for the row that is sent. -/
  computed : ∀ stage < t.nNodes, ∀ j op, (net.steps stage)[j]? = some (.executeOp op) →
    op.code = .matmul → op.name = .finalMatmulLogits →
      let rows := lmHeadRowRange (run.state stage j).rowState false true f.batchSize
      rows.1 ≤ logitsRow f.batchSize ∧ logitsRow f.batchSize < rows.1 + rows.2
  /-- That row has the last token. -/
  sent : kept[logitsRow f.batchSize]? = some (f.batchSize - 1)

/-- The same of every pruning op of the chunk. -/
def ChunkRun.KeepsTokens (run : ChunkRun m net t f) : Prop :=
  ∀ node < t.nNodes, ∀ k op, (net.steps node)[k]? = some (.executeOp op) →
    op.code = .pruneTokens →
      run.KeepsTokensAt node k op.index
        (m.kept (m.ratio node) f.batchSize (run.state node k))

/-! ## One step -/

theorem activeRowCount_unpruned (batchSize : Nat) :
    activeRowCount ⟨0, 1, 0⟩ batchSize = batchSize :=
  activeRowCount_eq_batchSize (.inl rfl)

section Prune

variable {ratio : F} {batchSize : Nat} {s : PruneProcess F}

theorem kept_of_all (hstate : s.rowState = ⟨0, 1, 0⟩)
    (h : 1 ≤ ratio ∨ batchSize ≤ pruneKeep m.toUint ratio batchSize) :
    m.kept ratio batchSize s = List.range batchSize := by
  simp only [PruneModel.kept, hstate, activeRowCount_unpruned, if_pos h]

theorem kept_of_drop (hstate : s.rowState = ⟨0, 1, 0⟩) (hratio : ratio < 1)
    (hdrop : pruneKeep m.toUint ratio batchSize < batchSize) :
    m.kept ratio batchSize s = keepIdx m.partialSort m.infinity s.pruneState.rows batchSize
      (pruneKeep m.toUint ratio batchSize) := by
  have hnot : ¬(1 ≤ ratio ∨ batchSize ≤ pruneKeep m.toUint ratio batchSize) := by
    rw [not_or, not_le, not_le]
    exact ⟨hratio, hdrop⟩
  simp only [PruneModel.kept, hstate, activeRowCount_unpruned, if_neg hnot]

/-- Nothing but the rows and their positions is touched. -/
theorem executePrune_of_ne {row : NnRow} (hx : row.1 ≠ .buffer .x) (hpos : row.1 ≠ .pipe .pos) :
    (executePrune m ratio batchSize s).mem row = s.mem row := by
  rcases row with ⟨source, b⟩
  simp only [executePrune]
  split_ifs <;> rfl

/-- Row `i` becomes that of the `i`-th surviving token, and so does its position. -/
theorem executePrune_kept
    (hsort : ∀ keep l, keep ≤ l.length → IsPartialSort keep l (m.partialSort keep l))
    (hstate : s.rowState = ⟨0, 1, 0⟩) (hbatch : 0 < batchSize) :
    (m.kept ratio batchSize s).length ≤ batchSize ∧
    activeRowCount (executePrune m ratio batchSize s).rowState batchSize
      = (m.kept ratio batchSize s).length ∧
    ∀ i b, (m.kept ratio batchSize s)[i]? = some b →
      (executePrune m ratio batchSize s).mem (.buffer .x, i) = s.mem (.buffer .x, b) ∧
      (executePrune m ratio batchSize s).mem (.pipe .pos, i)
        = [(s.mem (.pipe .pos, b)).headD 0] := by
  have hcur : activeRowCount s.pruneState.rowState batchSize = batchSize := by
    rw [show s.pruneState.rowState = ⟨0, 1, 0⟩ from hstate, activeRowCount_unpruned]
  have hkeep := pruneKeep_pos m.toUint ratio batchSize
  -- what is left to show once the rows that the op leaves are known
  have hrows (s' : PruneState F)
      (hrun : pruneTokensForward m.partialSort m.toUint m.infinity ratio 0 batchSize s.pruneState
        = s') (kept : List Nat) (hlt : kept.length ≤ batchSize)
      (hmoved : ∀ i b, kept[i]? = some b → s'.rows i = s.pruneState.rows b ∧
        s'.positions i = s.pruneState.positions b) :
      ∀ i b, kept[i]? = some b →
        (executePrune m ratio batchSize s).mem (.buffer .x, i) = s.mem (.buffer .x, b) ∧
        (executePrune m ratio batchSize s).mem (.pipe .pos, i)
          = [(s.mem (.pipe .pos, b)).headD 0] := by
    intro i b hi
    have hlt' : i < batchSize := (List.getElem?_eq_some_iff.1 hi).1.trans_le hlt
    simp only [executePrune, hrun, if_pos hlt', hmoved i b hi]
    exact ⟨rfl, rfl⟩
  by_cases hall : 1 ≤ ratio ∨ batchSize ≤ pruneKeep m.toUint ratio batchSize
  · have hrun : pruneTokensForward m.partialSort m.toUint m.infinity ratio 0 batchSize s.pruneState
        = { s.pruneState with
            rowState := { s.pruneState.rowState with activeRows := batchSize } } := by
      simp only [pruneTokensForward, hcur, ne_eq, not_true, if_false]
      split_ifs with hone hle
      · rfl
      · rfl
      · rcases hall with hratio | hle'
        · exact absurd (.inl hratio) hone
        · exact absurd hle' hle
    rw [kept_of_all hstate hall, List.length_range]
    refine ⟨le_rfl, ?_, hrows _ hrun _ (by rw [List.length_range]) fun i b hi => ?_⟩
    · simp only [executePrune, hrun]
      exact activeRowCount_eq_batchSize (.inr le_rfl)
    · rcases List.getElem?_eq_some_iff.1 hi with ⟨hlt, rfl⟩
      rw [List.getElem_range]
      exact ⟨rfl, rfl⟩
  · have hparts := not_or.1 hall
    have hratio := not_le.1 hparts.1
    have hdrop := not_le.1 hparts.2
    have hs := hsort (pruneKeep m.toUint ratio batchSize)
      (pruneScores m.infinity s.pruneState.rows batchSize) (by
        rw [pruneScores_eq, List.length_map, List.length_range]
        exact hdrop.le)
    have hlength := keepIdx_length hs hdrop.le
    have hrun : pruneTokensForward m.partialSort m.toUint m.infinity ratio 0 batchSize s.pruneState
        = { (keepIdx m.partialSort m.infinity s.pruneState.rows batchSize
              (pruneKeep m.toUint ratio batchSize)).zipIdx.foldl moveRow s.pruneState with
            rowState := { s.pruneState.rowState with
              activeRows := pruneKeep m.toUint ratio batchSize } } := by
      have hone : ¬(1 ≤ ratio ∨ batchSize ≤ 1) := by
        rintro (h | h)
        · exact hparts.1 h
        · omega
      simp only [pruneTokensForward, hcur, ne_eq, not_true, if_false, if_neg hone,
        if_neg hparts.2]
    rw [kept_of_drop hstate hratio hdrop, hlength]
    refine ⟨hdrop.le, ?_, hrows _ hrun _ (by rw [hlength]; exact hdrop.le) fun i b hi => ?_⟩
    · simp only [executePrune, hrun]
      rw [activeRowCount, if_neg]
      simp only
      omega
    · rcases List.getElem?_eq_some_iff.1 hi with ⟨hlt, rfl⟩
      rcases foldl_moveRow (keepIdx m.partialSort m.infinity s.pruneState.rows batchSize
        (pruneKeep m.toUint ratio batchSize)) s.pruneState with ⟨hmem, hpositions⟩
      simp only [hmem, hpositions]
      rw [(Lib.compact_spec (keepIdx_increasing hs) _).1 i hlt,
        (Lib.compact_spec (keepIdx_increasing hs) _).1 i hlt]
      exact ⟨rfl, rfl⟩

end Prune

/-- Other steps leave positions and active rows alone. -/
theorem ProcessStep.keeps {syncType : NnFloatType} {place : NnNodePlacement} {batchSize : Nat}
    {ratio : F} {x : NnExecutorStep} {s s' : PruneProcess F}
    (h : ProcessStep m syncType place batchSize ratio x s s') (hcalm : x.movesRows = false) :
    s'.rowState = s.rowState ∧ ∀ b, s'.mem (.pipe .pos, b) = s.mem (.pipe .pos, b) := by
  cases h with
  | prune hcode => simp [NnExecutorStep.movesRows, hcode] at hcalm
  | rows hcode =>
      refine ⟨rfl, fun b => if_neg fun hw => ?_⟩
      simp [NnExecutorStep.movesRows, hw.1] at hcalm
  | other hprune hrows hkeep =>
      refine ⟨rfl, fun b => hkeep _ fun hw => ?_⟩
      simp [NnExecutorStep.movesRows, hw] at hcalm
  | sync hkeep =>
      refine ⟨rfl, fun b => hkeep _ fun sync hsync htarget => ?_⟩
      have hquiet := List.any_eq_false.1 hcalm sync hsync
      unfold NnSyncConfig.targets at htarget
      split_ifs at htarget
      · cases htarget
      · cases hkv : sync.spKvBuffers with
        | some kv => simp [hkv] at htarget
        | none =>
            simp only [hkv, List.mem_singleton, NnPointerSource.pipe.injEq] at htarget
            simp [hkv, ← htarget] at hquiet

/-! ## The steps of a node -/

section Net

variable {h : LlmHeader} {o : BuildOptions} {layerIndex node : Nat}

/-- A node prunes at most once. -/
theorem steps_prune (hnet : buildLlmNet h t o = .ok net) (ht : t.Plain)
    (hprune : o.pruneLayer = some layerIndex) (hnode : node < t.nNodes) :
    (layerIndex ∉ net.attLayers node → ∀ x ∈ net.steps node, x.movesRows = false) ∧
    (layerIndex ∈ net.attLayers node → ∃ before after,
      net.steps node = before ++ .executeOp (BlockContext.pruneOp layerIndex)
        :: .executeOp (BlockContext.residualOp (net.subStart node) layerIndex) :: after ∧
      (∀ x ∈ before, x.movesRows = false) ∧
      ∀ x ∈ .executeOp (BlockContext.residualOp (net.subStart node) layerIndex) :: after,
        x.movesRows = false) := by
  rcases LlmNet.steps_eq hnet hnode with ⟨ropeSlice, -, hsteps⟩
  rw [(ht.placement node).2.1] at hsteps
  rw [hsteps, LlmNet.attLayers]
  exact ⟨BlockContext.movesRows_of_not_owned hprune, BlockContext.steps_eq_of_prune hprune⟩

theorem getElem?_length {before after : List NnExecutorStep} {x : NnExecutorStep}
    (h : net.steps node = before ++ x :: after) : (net.steps node)[before.length]? = some x := by
  rw [h, List.getElem?_append_right le_rfl, Nat.sub_self]
  rfl

/-- Where the pruning op stands. -/
theorem index_of_prune {before after : List NnExecutorStep} {op : NnOpConfig} {x : NnExecutorStep}
    {k : Nat} (hbefore : ∀ y ∈ before, y.movesRows = false)
    (hafter : ∀ y ∈ after, y.movesRows = false)
    (hk : (before ++ x :: after)[k]? = some (.executeOp op)) (hcode : op.code = .pruneTokens) :
    k = before.length ∧ x = .executeOp op := by
  have hmoves : (NnExecutorStep.executeOp op).movesRows = true := by
    simp [NnExecutorStep.movesRows, hcode]
  rcases Nat.lt_trichotomy k before.length with hlt | heq | hgt
  · rw [List.getElem?_append_left hlt] at hk
    rw [hbefore _ (List.mem_of_getElem? hk)] at hmoves
    cases hmoves
  · rw [heq, List.getElem?_append_right le_rfl, Nat.sub_self] at hk
    exact ⟨heq, Option.some.inj hk⟩
  · rw [List.getElem?_append_right hgt.le,
      show k - before.length = k - before.length - 1 + 1 by omega, List.getElem?_cons_succ] at hk
    rw [hafter _ (List.mem_of_getElem? hk)] at hmoves
    cases hmoves

namespace ChunkRun

variable (run : ChunkRun m net t f)

/-- Over steps that move no rows, positions and active rows stay. -/
theorem keeps (hnode : node < t.nNodes) {i j : Nat} (hij : i ≤ j)
    (hj : j ≤ (net.steps node).length)
    (hcalm : ∀ k x, i ≤ k → k < j → (net.steps node)[k]? = some x → x.movesRows = false) :
    (run.state node j).rowState = (run.state node i).rowState ∧
    ∀ b, (run.state node j).mem (.pipe .pos, b) = (run.state node i).mem (.pipe .pos, b) := by
  induction j, hij using Nat.le_induction with
  | base => exact ⟨rfl, fun _ => rfl⟩
  | succ j hij ih =>
      have hsome := List.getElem?_eq_getElem (show j < (net.steps node).length from hj)
      have hbefore := ih (by omega) fun k x hik hkj => hcalm k x hik (by omega)
      have hstep := (run.step node hnode j _ hsome).keeps
        (hcalm j _ hij (Nat.lt_succ_self j) hsome)
      exact ⟨hstep.1.trans hbefore.1, fun b => (hstep.2 b).trans (hbefore.2 b)⟩

/-- Up to its pruning op a node has the state of the start. -/
theorem before_prune (hnode : node < t.nNodes) {before after : List NnExecutorStep}
    (hsteps : net.steps node = before ++ after) (hbefore : ∀ x ∈ before, x.movesRows = false)
    {j : Nat} (hj : j ≤ before.length) :
    (run.state node j).rowState = ⟨0, 1, 0⟩ ∧
    ∀ b < f.batchSize, (run.state node j).mem (.pipe .pos, b) = [f.positions b] := by
  rcases run.start node hnode with ⟨mem, hstart⟩
  have hcalm : ∀ k x, 0 ≤ k → k < j → (net.steps node)[k]? = some x → x.movesRows = false := by
    intro k x _ hkj hx
    rw [hsteps, List.getElem?_append_left (by omega)] at hx
    exact hbefore x (List.mem_of_getElem? hx)
  have hlength : j ≤ (net.steps node).length := by
    rw [hsteps, List.length_append]
    omega
  have hkeeps := run.keeps hnode (Nat.zero_le j) hlength hcalm
  rw [hstart] at hkeeps
  refine ⟨hkeeps.1, fun b hb => (hkeeps.2 b).trans ?_⟩
  exact if_pos hb

/-- What a pruning op does. -/
theorem state_prune (hnode : node < t.nNodes) {k : Nat} {op : NnOpConfig}
    (hop : (net.steps node)[k]? = some (.executeOp op)) (hcode : op.code = .pruneTokens) :
    run.state node (k + 1) = executePrune m (m.ratio node) f.batchSize (run.state node k) := by
  have hstep := run.step node hnode k _ hop
  generalize run.state node (k + 1) = s' at hstep ⊢
  cases hstep with
  | prune => rfl
  | rows hrows => simp [hcode] at hrows
  | other hprune => exact absurd hcode hprune

/-- Row `i` is brought up to date with what is pending for row `i`, whichever token is in it. -/
theorem residual_row
    (hsort : ∀ keep l, keep ≤ l.length → IsPartialSort keep l (m.partialSort keep l))
    (hnode : node < t.nNodes) (hbatch : 0 < f.batchSize) {before after : List NnExecutorStep}
    (hsteps : net.steps node = before ++ .executeOp (BlockContext.pruneOp layerIndex)
      :: .executeOp (BlockContext.residualOp (net.subStart node) layerIndex) :: after)
    (hbefore : ∀ x ∈ before, x.movesRows = false) :
    let s := run.state node before.length
    let kept := m.kept (m.ratio node) f.batchSize s
    activeRowCount (run.state node (before.length + 2)).rowState f.batchSize = kept.length ∧
    ∀ i b, kept[i]? = some b → (run.state node (before.length + 2)).mem (.buffer .x, i)
      = if layerIndex * 2 = net.subStart node then s.mem (.pipe .x, i)
        else m.interp.add (s.mem (.buffer .x, b)) (s.mem (.pipe .zq, i)) := by
  intro s kept
  have hprune := getElem?_length hsteps
  have hresidual : (net.steps node)[before.length + 1]?
      = some (.executeOp (BlockContext.residualOp (net.subStart node) layerIndex)) := by
    rw [hsteps, List.getElem?_append_right (Nat.le_add_right _ 1), Nat.add_sub_cancel_left]
    rfl
  have hstate := (run.before_prune hnode hsteps hbefore le_rfl).1
  have hpruned := run.state_prune hnode hprune rfl
  rcases executePrune_kept hsort hstate hbatch with ⟨hlength, hactive, hmoved⟩
  have hstep := run.step node hnode _ _ hresidual
  rw [hpruned] at hstep
  -- the op behind is a cast or a sum
  have hafter : run.state node (before.length + 2)
      = ⟨executeOp m.interp net.header.syncType f.batchSize
          (BlockContext.residualOp (net.subStart node) layerIndex)
          (executePrune m (m.ratio node) f.batchSize s).mem,
        (executePrune m (m.ratio node) f.batchSize s).rowState⟩ := by
    have hcode : (BlockContext.residualOp (net.subStart node) layerIndex).code = .cast ∨
        (BlockContext.residualOp (net.subStart node) layerIndex).code = .mergeAdd := by
      unfold BlockContext.residualOp
      split_ifs
      · exact .inl rfl
      · exact .inr rfl
    generalize run.state node (before.length + 1 + 1) = s' at hstep ⊢
    cases hstep with
    | prune hcode' => rcases hcode with h | h <;> simp [h] at hcode'
    | rows => rfl
    | other _ hrows => exact absurd hcode hrows
  rw [hafter]
  refine ⟨hactive, fun i b hi => ?_⟩
  have hlt : i < f.batchSize := (List.getElem?_eq_some_iff.1 hi).1.trans_le hlength
  have hrow : NnRow.inBatch f.batchSize (.buffer .x, i) = true := by
    simp [NnRow.inBatch, NnPointerSource.isCache, hlt]
  have hx := (hmoved i b hi).1
  have hpipe : (executePrune m (m.ratio node) f.batchSize s).mem (.pipe .x, i)
      = s.mem (.pipe .x, i) := executePrune_of_ne (by simp) (by simp)
  have hzq : (executePrune m (m.ratio node) f.batchSize s).mem (.pipe .zq, i)
      = s.mem (.pipe .zq, i) := executePrune_of_ne (by simp) (by simp)
  unfold BlockContext.residualOp
  split_ifs with hfirst
  · exact (if_pos ⟨List.mem_singleton_self _, hrow⟩).trans hpipe
  · exact (if_pos ⟨List.mem_singleton_self _, hrow⟩).trans (congrArg₂ m.interp.add hx hzq)

/-- On a stage that drops no row every token keeps its position. -/
theorem positions_of_all
    (hsort : ∀ keep l, keep ≤ l.length → IsPartialSort keep l (m.partialSort keep l))
    (hnet : buildLlmNet h t o = .ok net) (ht : t.Plain)
    (hprune : o.pruneLayer = some layerIndex) (hnode : node < t.nNodes) (hbatch : 0 < f.batchSize)
    (hall : layerIndex ∈ net.attLayers node →
      1 ≤ m.ratio node ∨ f.batchSize ≤ pruneKeep m.toUint (m.ratio node) f.batchSize)
    {j : Nat} (hj : j ≤ (net.steps node).length) {b : Nat} (hb : b < f.batchSize) :
    (run.state node j).mem (.pipe .pos, b) = [f.positions b] := by
  rcases steps_prune hnet ht hprune hnode with ⟨hnone, hone⟩
  by_cases hown : layerIndex ∈ net.attLayers node
  · rcases hone hown with ⟨before, after, hsteps, hbefore, hafter⟩
    rcases Nat.lt_or_ge before.length j with hlt | hle
    · have hop := getElem?_length hsteps
      rcases run.before_prune hnode hsteps hbefore le_rfl with ⟨hstate, hpositions⟩
      have hcalm : ∀ k x, before.length + 1 ≤ k → k < j → (net.steps node)[k]? = some x →
          x.movesRows = false := by
        intro k x hik _ hx
        rw [hsteps, List.getElem?_append_right (by omega),
          show k - before.length = k - before.length - 1 + 1 by omega,
          List.getElem?_cons_succ] at hx
        exact hafter x (List.mem_of_getElem? hx)
      have hkept : (m.kept (m.ratio node) f.batchSize (run.state node before.length))[b]?
          = some b := by
        rw [kept_of_all hstate (hall hown), List.getElem?_range hb]
      have hmoved := ((executePrune_kept hsort hstate hbatch).2.2 b b hkept).2
      rw [(run.keeps hnode hlt hj hcalm).2 b, run.state_prune hnode hop rfl, hmoved,
        hpositions b hb]
      rfl
    · exact (run.before_prune hnode hsteps hbefore hle).2 b hb
  · have hsteps : net.steps node = net.steps node ++ [] := (List.append_nil _).symm
    exact (run.before_prune hnode hsteps (hnone hown) hj).2 b hb

end ChunkRun

/-- The rows of the output are computed where they are sent. -/
theorem logitsRow_mem_lmHeadRowRange (g : CpuRowState) {batchSize : Nat} (hbatch : 0 < batchSize) :
    (lmHeadRowRange g false true batchSize).1 ≤ logitsRow batchSize ∧
    logitsRow batchSize < (lmHeadRowRange g false true batchSize).1
      + (lmHeadRowRange g false true batchSize).2 := by
  rcases Nat.lt_or_ge 1 batchSize with hmany | hone
  · simp [lmHeadRowRange, logitsRow, hmany]
  · have hsingle : batchSize = 1 := by omega
    subst hsingle
    have hactive : activeRowCount g 1 = 1 := by
      unfold activeRowCount
      split_ifs <;> omega
    simp only [lmHeadRowRange, logitsRow, cpRowWindow, hactive]
    by_cases hn : g.cpSize ≤ 1 ∨ 1 < g.cpSize
    · simp [hn]
    · omega

namespace ChunkRun

/-- What is sent is an active row only if the root keeps all rows. -/
theorem all_kept_of_keepsTokens
    (hsort : ∀ keep l, keep ≤ l.length → IsPartialSort keep l (m.partialSort keep l))
    (hnet : buildLlmNet h t o = .ok net) (ht : t.Plain)
    (hprune : o.pruneLayer = some layerIndex) (hratio : m.keepRatio < 1)
    {run : ChunkRun m net t f} (hkeeps : run.KeepsTokens) (hown : layerIndex ∈ net.attLayers 0) :
    f.batchSize ≤ pruneKeep m.toUint m.keepRatio f.batchSize := by
  by_contra hdrop
  have hdrop := not_le.1 hdrop
  have hroot : 0 < t.nNodes := ht.nNodes ▸ t.ppSize_pos
  rcases (steps_prune hnet ht hprune hroot).2 hown with ⟨before, after, hsteps, hbefore, -⟩
  have hsent := (hkeeps 0 hroot before.length _ (getElem?_length hsteps) rfl).sent
  have hstate := (run.before_prune hroot hsteps hbefore le_rfl).1
  have hsorted := hsort (pruneKeep m.toUint m.keepRatio f.batchSize)
    (pruneScores m.infinity (run.state 0 before.length).pruneState.rows f.batchSize) (by
      rw [pruneScores_eq, List.length_map, List.length_range]
      exact hdrop.le)
  have hlength : (m.kept m.keepRatio f.batchSize (run.state 0 before.length)).length
      = pruneKeep m.toUint m.keepRatio f.batchSize := by
    rw [kept_of_drop hstate hratio hdrop, keepIdx_length hsorted hdrop.le]
  have hkeep := pruneKeep_pos m.toUint m.keepRatio f.batchSize
  have hlt := (List.getElem?_eq_some_iff.1 hsent).1
  rw [logitsRow, if_pos (by omega)] at hlt
  have hlt' : f.batchSize - 1 < pruneKeep m.toUint m.keepRatio f.batchSize := hlength ▸ hlt
  omega

/-- Rows, residuals and positions stay together where no node drops a row. -/
theorem keepsTokens_of_all
    (hsort : ∀ keep l, keep ≤ l.length → IsPartialSort keep l (m.partialSort keep l))
    (hnet : buildLlmNet h t o = .ok net) (ht : t.Plain)
    (hprune : o.pruneLayer = some layerIndex) (hbatch : 0 < f.batchSize)
    (hall : ∀ node, layerIndex ∈ net.attLayers node →
      1 ≤ m.ratio node ∨ f.batchSize ≤ pruneKeep m.toUint (m.ratio node) f.batchSize)
    (run : ChunkRun m net t f) : run.KeepsTokens := by
  intro node hnode k op hop hcode
  rcases steps_prune hnet ht hprune hnode with ⟨hnone, hone⟩
  have hown : layerIndex ∈ net.attLayers node := by
    by_contra hnot
    have hcalm := hnone hnot _ (List.mem_of_getElem? hop)
    simp [NnExecutorStep.movesRows, hcode] at hcalm
  rcases hone hown with ⟨before, after, hsteps, hbefore, hafter⟩
  rw [hsteps] at hop
  rcases index_of_prune hbefore hafter hop hcode with ⟨rfl, hsame⟩
  cases hsame
  have hstate := (run.before_prune hnode hsteps hbefore le_rfl).1
  have hkept := kept_of_all hstate (hall node hown)
  have hself {i b : Nat}
      (hi : (m.kept (m.ratio node) f.batchSize (run.state node before.length))[i]? = some b) :
      i < f.batchSize ∧ b = i := by
    rw [hkept] at hi
    rcases List.getElem?_eq_some_iff.1 hi with ⟨hlt, rfl⟩
    rw [List.getElem_range]
    rw [List.length_range] at hlt
    exact ⟨hlt, rfl⟩
  have hrow := run.residual_row hsort hnode hbatch hsteps hbefore
  refine ⟨⟨hrow.1, fun i b hi => ?_⟩, fun stage hstage j op hop _ i b hi => ?_,
    fun _ _ _ _ _ _ _ => logitsRow_mem_lmHeadRowRange _ hbatch, ?_⟩
  · rw [hrow.2 i b hi, (hself hi).2]
    rfl
  · rw [(hself hi).2]
    exact run.positions_of_all hsort hnet ht hprune hstage hbatch (hall stage)
      (List.getElem?_eq_some_iff.1 hop).1.le (hself hi).1
  · rw [hkept, logitsRow]
    split_ifs with hmany
    · exact List.getElem?_range (by omega)
    · rw [show f.batchSize = 1 by omega]
      rfl

end ChunkRun

/-- A chunk keeps tokens and rows together exactly when the root has nothing to prune, or keeps all
rows of it. -/
theorem prunedChunk_keepsTokens_iff
    (hsort : ∀ keep l, keep ≤ l.length → IsPartialSort keep l (m.partialSort keep l))
    (hnet : buildLlmNet h t o = .ok net) (ht : t.Plain)
    (hprune : o.pruneLayer = some layerIndex) (hratio : m.keepRatio < 1)
    (hbatch : 0 < f.batchSize) (run : ChunkRun m net t f) :
    run.KeepsTokens ↔ layerIndex ∉ net.attLayers 0 ∨
      f.batchSize ≤ pruneKeep m.toUint m.keepRatio f.batchSize := by
  constructor
  · intro hkeeps
    by_cases hown : layerIndex ∈ net.attLayers 0
    · exact .inr (ChunkRun.all_kept_of_keepsTokens hsort hnet ht hprune hratio hkeeps hown)
    · exact .inl hown
  · intro hcond
    refine run.keepsTokens_of_all hsort hnet ht hprune hbatch fun node hown => ?_
    unfold PruneModel.ratio
    split_ifs with hzero
    · subst hzero
      exact .inr (hcond.resolve_left (not_not.2 hown))
    · exact .inl le_rfl

end Net

/-! ## Runs -/

/-- A step in which everything that is left open does nothing. -/
def quietStep (m : PruneModel F) (syncType : NnFloatType) (batchSize : Nat) (ratio : F)
    (s : PruneProcess F) : NnExecutorStep → PruneProcess F
  | .executeOp op =>
      if op.code = .pruneTokens then executePrune m ratio batchSize s
      else if op.code = .cast ∨ op.code = .mergeAdd then
        ⟨executeOp m.interp syncType batchSize op s.mem, s.rowState⟩
      else s
  | .syncNodes _ => s

theorem processStep_quietStep (syncType : NnFloatType) (place : NnNodePlacement) (batchSize : Nat)
    (ratio : F) (s : PruneProcess F) (x : NnExecutorStep) :
    ProcessStep m syncType place batchSize ratio x s
      (quietStep m syncType batchSize ratio s x) := by
  cases x with
  | executeOp op =>
      simp only [quietStep]
      split_ifs with hprune hrows
      · exact .prune hprune s
      · exact .rows hrows s
      · exact .other hprune hrows fun _ _ => rfl
  | syncNodes syncs => exact .sync fun _ _ => rfl

/-- Every chunk can be run. -/
theorem nonempty_chunkRun (m : PruneModel F) (net : LlmNet) (t : NnParallelTopology)
    (f : PrefillChunk F) : Nonempty (ChunkRun m net t f) := by
  let step (node : Nat) (j : Nat) (s : PruneProcess F) : PruneProcess F :=
    ((net.steps node)[j]?.map (quietStep m net.header.syncType f.batchSize (m.ratio node) s)).getD s
  let state (node : Nat) (j : Nat) : PruneProcess F :=
    j.rec ⟨loadForward (t.placement node) f.forward fun _ => [], ⟨0, 1, 0⟩⟩ (step node)
  refine ⟨⟨state, fun node _ => ⟨_, rfl⟩, fun node _ j x hx => ?_⟩⟩
  have hnext : state node (j + 1)
      = quietStep m net.header.syncType f.batchSize (m.ratio node) (state node j) x := by
    show ((net.steps node)[j]?.map _).getD _ = _
    rw [hx]
    rfl
  rw [hnext]
  exact processStep_quietStep ..

end Model

/-! ## Small nets -/

private theorem rootAndWorker_nNodes : 2 = 2 * 1 * 1 := rfl

def rootAndWorker : NnParallelTopology :=
  ⟨2, 2, 1, 1, Nat.two_pos, Nat.one_pos, Nat.one_pos, rootAndWorker_nNodes⟩

/-- Two layers on the root and one behind, with pruning in one of them. -/
def prunedLayer (layerIndex : Nat) : BuildOptions := ⟨2, [4, 2], some layerIndex, false, false⟩

/-- Half of the rows stay. -/
def halfModel : PruneModel ℚ where
  interp := ⟨List.zipWith (· + ·), fun _ _ row => row, fun _ _ _ _ _ => []⟩
  partialSort _ l := l.mergeSort fun a b => b.1 ≤ a.1
  toUint := Nat.floor
  infinity := 100
  keepRatio := 1 / 2

/-- Two tokens. -/
def twoTokens : PrefillChunk ℚ := ⟨2, fun _ => [], fun b => b⟩

theorem attLayers_rootAndWorker (layerIndex : Nat) :
    ∃ net, buildLlmNet (tinyHeader 3) rootAndWorker (prunedLayer layerIndex) = .ok net ∧
      net.attLayers 0 = [0, 1] := by
  have hnet : ∃ net, buildLlmNet (tinyHeader 3) rootAndWorker (prunedLayer layerIndex)
      = .ok net := ⟨_, rfl⟩
  rcases hnet with ⟨net, hnet⟩
  have hoffsets : net.ppLayerOffsets = [0, 4, 6] := by
    have hok := (buildLlmNet_eq_ok hnet).2.1
    exact (Except.ok.inj hok).symm
  refine ⟨net, hnet, ?_⟩
  rw [LlmNet.attLayers, LlmNet.subStart, LlmNet.subEnd, hoffsets]
  decide

theorem halfModel_sorts (keep : Nat) (l : List (ℚ × Nat)) (_ : keep ≤ l.length) :
    IsPartialSort keep l (halfModel.partialSort keep l) :=
  isPartialSort_mergeSort keep l

/-- The worker keeps both tokens. -/
theorem prunedChunk_keepsTokens_worker :
    ∃ net, buildLlmNet (tinyHeader 3) rootAndWorker (prunedLayer 2) = .ok net ∧
      ∃ run : ChunkRun halfModel net rootAndWorker twoTokens, run.KeepsTokens := by
  rcases attLayers_rootAndWorker 2 with ⟨net, hnet, hlayers⟩
  rcases nonempty_chunkRun halfModel net rootAndWorker twoTokens with ⟨run⟩
  refine ⟨net, hnet, run, (prunedChunk_keepsTokens_iff halfModel_sorts hnet ⟨rfl, rfl⟩ rfl
    (by norm_num [halfModel]) Nat.two_pos run).2 (.inl ?_)⟩
  rw [hlayers]
  decide

/-- The root drops one of them. -/
theorem prunedChunk_loses_token :
    ∃ net, buildLlmNet (tinyHeader 3) rootAndWorker (prunedLayer 1) = .ok net ∧
      ∃ run : ChunkRun halfModel net rootAndWorker twoTokens, ¬run.KeepsTokens := by
  rcases attLayers_rootAndWorker 1 with ⟨net, hnet, hlayers⟩
  rcases nonempty_chunkRun halfModel net rootAndWorker twoTokens with ⟨run⟩
  refine ⟨net, hnet, run, fun hkeeps => ?_⟩
  have hall := ChunkRun.all_kept_of_keepsTokens halfModel_sorts hnet ⟨rfl, rfl⟩ rfl
    (by norm_num [halfModel]) hkeeps (by rw [hlayers]; decide)
  norm_num [pruneKeep, halfModel, twoTokens] at hall

end PrefillOpt
