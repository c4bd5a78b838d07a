import PrefillOpt.Graph.Semantics
import PrefillOpt.Graph.SubBlocks

/-!
# OpFlow — which pipes and buffers a segment depends on

A sub-block reads the residual row `x`, the positions and the caches of its layer; everything else
it reads it has written before.  The check is on the sources of the ops alone.
-/

namespace PrefillOpt

open Lib

/-! ## The check -/

/-- Every op reads only sources that are known at its turn. -/
def coversSources : List NnPointerSource → List NnOpConfig → Bool
  | _, [] => true
  | known, op :: ops =>
      op.reads.all (fun source => decide (source ∈ known)) && !op.leavesBatch
        && coversSources (op.writes ++ known) ops

/-- All sources some ops write. -/
def writtenSources (ops : List NnOpConfig) : List NnPointerSource :=
  ops.flatMap NnOpConfig.writes

section Check

variable {R : Type} (I : NnInterpretation R) (syncType : NnFloatType) (batchSize : Nat)

/-- The ops as instructions. -/
def opInstrs (ops : List NnOpConfig) : List (Instr NnRow R) :=
  ops.map (opInstr I syncType batchSize)

/-- Run ops in order. -/
def runOps (ops : List NnOpConfig) (s : NnMemory R) : NnMemory R :=
  Instr.runAll (opInstrs I syncType batchSize ops) s

variable {I syncType batchSize}

theorem runOps_append (ops ops' : List NnOpConfig) (s : NnMemory R) :
    runOps I syncType batchSize (ops ++ ops') s
      = runOps I syncType batchSize ops' (runOps I syncType batchSize ops s) := by
  rw [runOps, opInstrs, List.map_append, Instr.runAll_append]
  rfl

theorem mem_written_opInstrs {ops : List NnOpConfig} {row : NnRow} :
    row ∈ Instr.written (opInstrs I syncType batchSize ops)
      ↔ row.1 ∈ writtenSources ops ∧ NnRow.inBatch batchSize row = true := by
  constructor
  · rintro ⟨i, hi, hw⟩
    rcases List.mem_map.1 hi with ⟨op, hop, rfl⟩
    exact ⟨List.mem_flatMap.2 ⟨op, hop, hw.1⟩, hw.2⟩
  · rintro ⟨hsource, hrow⟩
    rcases List.mem_flatMap.1 hsource with ⟨op, hop, hw⟩
    exact ⟨_, List.mem_map_of_mem hop, hw, hrow⟩

/-- Ops leave alone what they do not write. -/
theorem runOps_of_notMem {ops : List NnOpConfig} {row : NnRow}
    (h : row.1 ∉ writtenSources ops) (s : NnMemory R) :
    runOps I syncType batchSize ops s row = s row :=
  Instr.runAll_of_notMem (fun hw => h (mem_written_opInstrs.1 hw).1) s

theorem covers_of_sources {ops : List NnOpConfig} {known : List NnPointerSource} {K : Set NnRow}
    (hcovers : coversSources known ops = true) (hknown : visibleRows batchSize known ⊆ K) :
    Instr.Covers K (opInstrs I syncType batchSize ops) := by
  induction ops generalizing known K with
  | nil => trivial
  | cons op ops ih =>
      simp only [coversSources, Bool.and_eq_true, List.all_eq_true, decide_eq_true_eq,
        Bool.not_eq_true'] at hcovers
      rcases hcovers with ⟨⟨hreads, hbatch⟩, hrest⟩
      refine ⟨?_, ih hrest ?_⟩
      · rintro row ⟨hsource, hrow⟩
        rw [hbatch] at hrow
        exact hknown ⟨hreads _ hsource, by simpa using hrow⟩
      · rintro row ⟨hsource, hrow⟩
        rcases List.mem_append.1 hsource with hw | hk
        · exact .inr ⟨hw, hrow⟩
        · exact .inl (hknown ⟨hk, hrow⟩)

/-- Memories that agree on the known sources agree on what covered ops compute. -/
theorem eqOn_runOps {ops : List NnOpConfig} {known : List NnPointerSource} {K : Set NnRow}
    {s s' : NnMemory R} (hcovers : coversSources known ops = true)
    (hknown : visibleRows batchSize known ⊆ K) (h : Set.EqOn s s' K) :
    Set.EqOn (runOps I syncType batchSize ops s) (runOps I syncType batchSize ops s')
      (K ∪ visibleRows batchSize (writtenSources ops)) := by
  have hknows : Instr.Covers K (opInstrs I syncType batchSize ops) :=
    covers_of_sources hcovers hknown
  have hrun := Instr.eqOn_runAll hknows h
  refine hrun.mono (Set.union_subset_union_right K fun row hrow => ?_)
  exact mem_written_opInstrs.2 hrow

end Check

namespace BlockContext

variable {c : BlockContext} {layerIndex : Nat}

/-- The exchange adds no op. -/
theorem opsOf_spKvCalls : opsOf (c.spKvCalls layerIndex) = [] := by
  unfold spKvCalls
  split_ifs <;> rfl

theorem opsOf_append (calls calls' : List BuilderCall) :
    opsOf (calls ++ calls') = opsOf calls ++ opsOf calls' :=
  List.filterMap_append

/-! ## What a sub-block reads -/

theorem coversSources_attBody :
    coversSources [.buffer .x, .pipe .pos, .buffer (.k layerIndex), .buffer (.v layerIndex)]
      (opsOf (c.attBodyCalls layerIndex)) = true := by
  rw [attBodyCalls, opsOf_append, opsOf_append, opsOf_spKvCalls, List.append_nil]
  by_cases hsync : c.h.syncType = .f32 <;> by_cases hnorm : c.h.hasQkNorm = true <;>
    simp [opsOf, attInputCalls, castYCalls, qkNormCalls, yqBufferIndex, hsync, hnorm, shiftCalls,
      attOutputCalls, BuilderCall.op?, batchOp, castOp, invRmsOp, rmsNormOp, matmulOp, ropeOp,
      shiftOp, multiHeadAttOp, castY2Op, coversSources, NnOpConfig.reads, NnOpConfig.writes,
      NnOpConfig.leavesBatch, NnOpParams.sources, pointerBatchConfig, pointerRawConfig,
      pointerBatchedSliceConfig, NnPointerSource.isCache, List.filterMap_cons]

theorem coversSources_ffBody :
    coversSources [.buffer .x] (opsOf (c.ffBodyCalls layerIndex)) = true := by
  rw [ffBodyCalls, opsOf_append, opsOf_append]
  by_cases hsync : c.h.syncType = .f32 <;> by_cases hmoe : c.h.archType = .qwen3Moe <;>
    by_cases hactive : 0 < c.h.nActiveExperts <;>
    simp [opsOf, moeCalls, denseCalls, castYCalls, castDCalls, yqBufferIndex, dqBufferIndex,
      moeYqBufferIndex, moeDQBufferIndex, hsync, hmoe, hactive, BuilderCall.op?, batchOp, castOp,
      invRmsOp, rmsNormOp, matmulOp, coversSources, NnOpConfig.reads, NnOpConfig.writes,
      NnOpConfig.leavesBatch, NnOpParams.sources, pointerBatchConfig, NnPointerSource.isCache,
      List.filterMap_cons]

/-- The logits, after the last sum. -/
theorem coversSources_endCalls {fused : Bool} :
    coversSources [.buffer .x, .pipe .zq] (opsOf (c.endCalls fused)) = true := by
  by_cases hsync : c.h.syncType = .f32 <;> by_cases hfused : fused = true <;>
    simp [opsOf, endCalls, logitsCalls, castYCalls, yqBufferIndex, hsync, hfused, mergeAddOp,
      BuilderCall.op?, batchOp, castOp, invRmsOp, rmsNormOp, coversSources, NnOpConfig.reads,
      NnOpConfig.writes, NnOpConfig.leavesBatch, NnOpParams.sources, pointerBatchConfig,
      pointerBatchedSliceConfig, NnPointerSource.isCache, List.filterMap_cons]

/-! ## What a sub-block leaves alone -/

/-- A source that a sub-block may write: not the positions, and of the caches only its own. -/
def writable (layer? : Option Nat) : NnPointerSource → Bool
  | .pipe .pos => false
  | .buffer (.k layerIndex) => layer? == some layerIndex
  | .buffer (.v layerIndex) => layer? == some layerIndex
  | _ => true

theorem writable_attCalls (hprune : c.pruneLayer = none) {subStart : Nat} :
    (writtenSources (opsOf (c.attCalls subStart layerIndex))).all (writable (some layerIndex))
      = true := by
  rw [attCalls, attBodyCalls, opsOf_append, opsOf, opsOf, List.filterMap_cons]
  by_cases hsync : c.h.syncType = .f32 <;> by_cases hnorm : c.h.hasQkNorm = true <;>
    by_cases hfirst : layerIndex * 2 = subStart <;>
    by_cases hsp : 1 < c.spSize ∧ c.spNoShard = false <;>
    simp [pruneCalls, attFirst, attInputCalls, castYCalls, qkNormCalls, yqBufferIndex, hsync,
      hnorm, hfirst, hsp, hprune, shiftCalls, spKvCalls, attOutputCalls, BuilderCall.op?, batchOp,
      castOp, mergeAddOp, invRmsOp, rmsNormOp, matmulOp, ropeOp, shiftOp, multiHeadAttOp, castY2Op,
      writtenSources, writable, NnOpConfig.writes, pointerBatchConfig, pointerRawConfig,
      pointerBatchedSliceConfig, List.filterMap_cons]

theorem writable_ffCalls {subStart : Nat} :
    (writtenSources (opsOf (c.ffCalls subStart layerIndex))).all (writable none) = true := by
  rw [ffCalls, ffBodyCalls, opsOf, List.filterMap_cons]
  by_cases hsync : c.h.syncType = .f32 <;> by_cases hmoe : c.h.archType = .qwen3Moe <;>
    by_cases hfirst : layerIndex * 2 + 1 = subStart <;>
    simp [ffFirst, moeCalls, denseCalls, castYCalls, castDCalls, yqBufferIndex, dqBufferIndex,
      moeYqBufferIndex, moeDQBufferIndex, hsync, hmoe, hfirst, BuilderCall.op?, batchOp, castOp,
      mergeAddOp, invRmsOp, rmsNormOp, matmulOp, writtenSources, writable, NnOpConfig.writes,
      pointerBatchConfig, List.filterMap_cons]

theorem writable_endCalls {fused : Bool} :
    (writtenSources (opsOf (c.endCalls fused))).all (writable none) = true := by
  by_cases hsync : c.h.syncType = .f32 <;> by_cases hfused : fused = true <;>
    simp [opsOf, endCalls, logitsCalls, castYCalls, yqBufferIndex, hsync, hfused, mergeAddOp,
      BuilderCall.op?, batchOp, castOp, invRmsOp, rmsNormOp, writtenSources, writable,
      NnOpConfig.writes, pointerBatchConfig, List.filterMap_cons]

/-- A sub-block writes the caches of its layer or none. -/
theorem writable_subBlockCalls (hprune : c.pruneLayer = none) {subStart s : Nat}
    {source : NnPointerSource} (h : source ∈ writtenSources (opsOf (c.subBlockCalls subStart s))) :
    writable (if s % 2 = 0 then some (s / 2) else none) source = true := by
  unfold subBlockCalls at h
  split_ifs at h ⊢
  · exact List.all_eq_true.1 (writable_attCalls hprune) _ h
  · exact List.all_eq_true.1 writable_ffCalls _ h

end BlockContext

end PrefillOpt
