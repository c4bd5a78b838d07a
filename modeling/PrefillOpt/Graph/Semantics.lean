import PrefillOpt.Graph.Executor
import PrefillOpt.Lib.Dataflow
import PrefillOpt.Network.Collectives

/-!
# Semantics — what the ops of a graph compute

A memory holds one value for each row of each pipe and buffer.  `CAST` and `MERGE_ADD` are as in
`nn-cpu-ops.cpp`; every other op is an unknown function of what it reads.  A row of a pipe or
buffer with several `z` slices is the batch row of all of them.
-/

namespace PrefillOpt

open Lib

/-- A row of a pipe or buffer; a row of a key or value cache is a position. -/
abbrev NnRow := NnPointerSource × Nat

/-- The memory of a node. -/
abbrev NnMemory (R : Type) := NnRow → R

/-- Key and value caches keep their rows over the forwards, all other rows belong to the batch. -/
def NnPointerSource.isCache : NnPointerSource → Bool
  | .buffer (.k _) => true
  | .buffer (.v _) => true
  | _ => false

/-- The rows an op can see in a forward of `batchSize` rows. -/
def NnRow.inBatch (batchSize : Nat) (row : NnRow) : Bool :=
  row.1.isCache || decide (row.2 < batchSize)

/-- The float type of a pipe or buffer; the pipes are all `F_32`. -/
def NnPointerSource.floatType (syncType : NnFloatType) : NnPointerSource → NnFloatType
  | .buffer .qY => syncType
  | .buffer .qZSlice => syncType
  | .buffer .qD => syncType
  | .buffer .qMoeY => syncType
  | .buffer .qMoeD => syncType
  | _ => .f32

/-! ## Reads and writes -/

/-- The pipes and buffers an op's config points to.  The rope cache is filled once from the
config when the op is made. -/
def NnOpParams.sources : NnOpParams → List NnPointerSource
  | .rmsNorm buffer _ => [.buffer buffer]
  | .matmul _ nActiveExperts indexes => if 0 < nActiveExperts then [.buffer indexes] else []
  | .rope _ _ position _ _ _ _ _ _ => [.pipe position]
  | .multiHeadAtt _ _ _ _ _ _ _ _ _ _ position query key value _ =>
      [.pipe position, .buffer query, .buffer key, .buffer value]
  | .mul buffer => [.buffer buffer]
  | .scale buffer => [.buffer buffer]
  | .shift position _ => [.pipe position]
  | .pruneTokens position => [.pipe position]
  | _ => []

/-- What an op reads.  Attention takes its queries from the config, and a shift keeps the rows of
its output that it does not copy. -/
def NnOpConfig.reads (op : NnOpConfig) : List NnPointerSource :=
  match op.code with
  | .multiheadAtt => op.config.sources
  | .mergeAdd => [op.output.source, op.input.source]
  | .shift => op.output.source :: op.input.source :: op.config.sources
  | _ => op.input.source :: op.config.sources

/-- What an op writes.  The `att` buffer is scratch of the attention op that no op reads. -/
def NnOpConfig.writes (op : NnOpConfig) : List NnPointerSource :=
  match op.config with
  | .moeGate _ _ indexes => [op.output.source, .buffer indexes]
  | .pruneTokens position => [op.output.source, .pipe position]
  | _ => [op.output.source]

/-! ## The ops -/

/-- The unknown part: the sum of two rows, the conversion of a row from one float type to another,
and the ops with weights, positions or row statistics as functions of the rows they see. -/
structure NnInterpretation (R : Type) where
  add : R → R → R
  convert : NnFloatType → NnFloatType → R → R
  compute : NnOpConfig → Nat → List (Nat → Option R) → NnPointerSource → Nat → R

section Ops

variable {R : Type} (I : NnInterpretation R) (syncType : NnFloatType) (batchSize : Nat)

/-- The rows of one source that an op sees. -/
def viewRows (s : NnMemory R) (source : NnPointerSource) (row : Nat) : Option R :=
  if NnRow.inBatch batchSize (source, row) then some (s (source, row)) else none

/-- `castForward_ANY` copies, the other casts convert. -/
def castRow (input output : NnPointerSource) (r : R) : R :=
  if input.floatType syncType = output.floatType syncType then r
  else I.convert (input.floatType syncType) (output.floatType syncType) r

/-- The row an op puts at one place of its output. -/
def computeRow (op : NnOpConfig) (s : NnMemory R) (row : NnRow) : R :=
  match op.code with
  | .cast => castRow I syncType op.input.source op.output.source (s (op.input.source, row.2))
  | .mergeAdd => I.add (s (op.output.source, row.2)) (s (op.input.source, row.2))
  | _ => I.compute op batchSize (op.reads.map (viewRows batchSize s)) row.1 row.2

def executeOp (op : NnOpConfig) (s : NnMemory R) : NnMemory R :=
  fun row => if row.1 ∈ op.writes ∧ NnRow.inBatch batchSize row = true then
    computeRow I syncType batchSize op s row else s row

/-! ## Ops as instructions -/

/-- The visible rows of some sources. -/
def visibleRows (sources : List NnPointerSource) : Set NnRow :=
  {row | row.1 ∈ sources ∧ NnRow.inBatch batchSize row = true}

/-- A cast or sum into a cache would go beyond the rows of the batch. -/
def NnOpConfig.leavesBatch (op : NnOpConfig) : Bool :=
  (op.code == .cast || op.code == .mergeAdd) && op.writes.any NnPointerSource.isCache

variable {batchSize}

theorem viewRows_congr {sources : List NnPointerSource} {s s' : NnMemory R}
    (h : Set.EqOn s s' (visibleRows batchSize sources)) {source : NnPointerSource}
    (hsource : source ∈ sources) : viewRows batchSize s source = viewRows batchSize s' source := by
  funext row
  unfold viewRows
  split_ifs with hrow
  · rw [h ⟨hsource, hrow⟩]
  · rfl

/-- The rows an op may look at. -/
def NnOpConfig.readRows (batchSize : Nat) (op : NnOpConfig) : Set NnRow :=
  {row | row.1 ∈ op.reads ∧ (NnRow.inBatch batchSize row = true ∨ op.leavesBatch = true)}

theorem visibleRows_subset_readRows (op : NnOpConfig) :
    visibleRows batchSize op.reads ⊆ op.readRows batchSize :=
  fun _ hrow => ⟨hrow.1, .inl hrow.2⟩

theorem computeRow_congr {op : NnOpConfig} {s s' : NnMemory R}
    (h : Set.EqOn s s' (op.readRows batchSize)) {row : NnRow} (hmem : row.1 ∈ op.writes)
    (hrow : NnRow.inBatch batchSize row = true) :
    computeRow I syncType batchSize op s row = computeRow I syncType batchSize op s' row := by
  -- a row of the batch is one in every pipe and buffer
  have hread (hcode : op.code = .cast ∨ op.code = .mergeAdd) {source : NnPointerSource}
      (hsource : source ∈ op.reads) : s (source, row.2) = s' (source, row.2) := by
    refine h ⟨hsource, ?_⟩
    rcases Bool.or_eq_true _ _ ▸ hrow with hcache | hlt
    · right
      simp only [NnOpConfig.leavesBatch, Bool.and_eq_true, Bool.or_eq_true, beq_iff_eq,
        List.any_eq_true]
      exact ⟨hcode, row.1, hmem, hcache⟩
    · left
      simp only [NnRow.inBatch, hlt, Bool.or_true]
  unfold computeRow
  split
  · rename_i hcode
    rw [hread (.inl hcode) (by simp [NnOpConfig.reads, hcode])]
  · rename_i hcode
    rw [hread (.inr hcode) (by simp [NnOpConfig.reads, hcode]),
      hread (.inr hcode) (by simp [NnOpConfig.reads, hcode])]
  · have hviews : op.reads.map (viewRows batchSize s) = op.reads.map (viewRows batchSize s') :=
      List.map_congr_left fun source hsource =>
        viewRows_congr (h.mono (visibleRows_subset_readRows op)) hsource
    rw [hviews]

/-- An op as an instruction. -/
def opInstr (batchSize : Nat) (op : NnOpConfig) : Instr NnRow R where
  reads := op.readRows batchSize
  writes := visibleRows batchSize op.writes
  run := executeOp I syncType batchSize op
  run_of_notMem s row hrow := if_neg hrow
  run_congr s s' h row hrow := by
    have hrow' : row.1 ∈ op.writes ∧ NnRow.inBatch batchSize row = true := hrow
    simp only [executeOp, hrow', and_self, if_true]
    exact computeRow_congr I syncType h hrow'.1 hrow'.2

end Ops

/-! ## Steps of a node -/

/-- One forward as the control packet and the root describe it. -/
structure NnForward (R : Type) where
  batchSize : Nat
  tokens : Nat → R
  positions : Nat → R

/-- What a node writes into its pipes before it runs its steps; only the root has the tokens. -/
def loadForward {R : Type} (place : NnNodePlacement) (f : NnForward R) (s : NnMemory R) :
    NnMemory R
  | (.pipe .pos, b) => if b < f.batchSize then f.positions b else s (.pipe .pos, b)
  | (.pipe .tok, b) =>
      if place.globalRank = 0 ∧ b < f.batchSize then f.tokens b else s (.pipe .tok, b)
  | row => s row

/-- `sync` skips the syncs of a TP group of one node. -/
def NnSyncConfig.skipped (place : NnNodePlacement) (sync : NnSyncConfig) : Bool :=
  (sync.syncType == .withRoot || sync.syncType == .nodeSlices
    || sync.syncType == .nodeSlicesExceptRoot)
  && decide (place.tpGroupEnd - place.tpGroupStart ≤ 1)

/-- The pipe or the buffers a sync can write. -/
def NnSyncConfig.targets (place : NnNodePlacement) (sync : NnSyncConfig) : List NnPointerSource :=
  if sync.skipped place then []
  else
    match sync.spKvBuffers with
    | some (k, v) => [.buffer k, .buffer v]
    | none => [.pipe sync.pipeIndex]

/-- A node and the interpretation it computes with. -/
structure NnNodeModel (R : Type) where
  interp : NnInterpretation R
  syncType : NnFloatType
  place : NnNodePlacement

section Runs

variable {R : Type} (m : NnNodeModel R) (batchSize : Nat)

/-- One step of a node, whatever the other nodes send it in a sync. -/
inductive StepRuns : NnExecutorStep → NnMemory R → NnMemory R → Prop where
  | op (op : NnOpConfig) (s : NnMemory R) :
      StepRuns (.executeOp op) s (executeOp m.interp m.syncType batchSize op s)
  | sync {syncs : List NnSyncConfig} {s s' : NnMemory R}
      (hkeep : ∀ row : NnRow, (∀ sync ∈ syncs, row.1 ∉ sync.targets m.place) → s' row = s row) :
      StepRuns (.syncNodes syncs) s s'

inductive StepsRun : List NnExecutorStep → NnMemory R → NnMemory R → Prop where
  | nil (s : NnMemory R) : StepsRun [] s s
  | cons {x : NnExecutorStep} {l : List NnExecutorStep} {s s₁ s' : NnMemory R}
      (hstep : StepRuns m batchSize x s s₁) (hrest : StepsRun l s₁ s') : StepsRun (x :: l) s s'

end Runs

/-- What a step can write. -/
def NnExecutorStep.targets (place : NnNodePlacement) : NnExecutorStep → List NnPointerSource
  | .executeOp op => op.writes
  | .syncNodes syncs => syncs.flatMap (NnSyncConfig.targets place)

section Runs

variable {R : Type} {m : NnNodeModel R} {batchSize : Nat}

theorem StepRuns.keeps {x : NnExecutorStep} {s s' : NnMemory R} {row : NnRow}
    (h : StepRuns m batchSize x s s') (hrow : row.1 ∉ x.targets m.place) : s' row = s row := by
  cases h with
  | op op => exact if_neg fun hw => hrow hw.1
  | sync hkeep =>
      exact hkeep row fun sync hsync hmem => hrow (List.mem_flatMap.2 ⟨sync, hsync, hmem⟩)

theorem StepsRun.keeps {l : List NnExecutorStep} {s s' : NnMemory R} {row : NnRow}
    (h : StepsRun m batchSize l s s') (hrow : ∀ x ∈ l, row.1 ∉ x.targets m.place) :
    s' row = s row := by
  induction h with
  | nil => rfl
  | cons hstep _ ih =>
      rw [ih fun x hx => hrow x (List.mem_cons_of_mem _ hx)]
      exact hstep.keeps (hrow _ (List.mem_cons_self ..))

/-- Steps can always be run: a sync may bring nothing. -/
theorem exists_stepsRun (m : NnNodeModel R) (batchSize : Nat) (l : List NnExecutorStep)
    (s : NnMemory R) : ∃ s', StepsRun m batchSize l s s' := by
  induction l generalizing s with
  | nil => exact ⟨s, .nil s⟩
  | cons x l ih =>
      cases x with
      | executeOp op =>
          rcases ih (executeOp m.interp m.syncType batchSize op s) with ⟨s', hrest⟩
          exact ⟨s', .cons (.op op s) hrest⟩
      | syncNodes syncs =>
          rcases ih s with ⟨s', hrest⟩
          exact ⟨s', .cons (.sync fun _ _ => rfl) hrest⟩

end Runs

end PrefillOpt
