import Mathlib.Data.Rat.Floor
import PrefillOpt.Graph.PipelineSplit
import PrefillOpt.Graph.ShardedSegments
import PrefillOpt.Graph.TensorSyncs
import PrefillOpt.Lib.Rendezvous

/-!
# TensorParallel — ranks compute what one node computes

Every rank runs the step list of its net, in its own time, and the ranks meet at the syncs.  A sync
is a run of `sync` of its own; that a rank goes on while others are still in a sync is left out.
Syncs go row by row: the batched path and the ring do not sum.
-/

namespace PrefillOpt

open Lib hiding Reach
open Network Rendezvous

/-! ## Ranks as processes -/

section System

variable {F : Type} {n : Nat} [Field F] [LinearOrder F] [FloorSemiring F]

/-- What a rank does on its own. -/
inductive RankAct (F : Type) where
  /-- the positions and tokens of a forward -/
  | load (f : NnForward (BatchRow F))
  | op (batchSize : Nat) (op : NnOpConfig)

/-- A step of the executor; the ranks meet at their syncs. -/
def stepPhase (batchSize : Nat) : NnExecutorStep → Phase (RankAct F) (Nat × List NnSyncConfig)
  | .executeOp op => .act (.op batchSize op)
  | .syncNodes syncs => .meet (batchSize, syncs)

/-- The forwards of a node, one after the other. -/
def LlmNet.program (net : LlmNet) (fs : List (NnForward (BatchRow F))) (node : Nat) :
    List (Phase (RankAct F) (Nat × List NnSyncConfig)) :=
  fs.flatMap fun f => .act (.load f) :: (net.steps node).map (stepPhase f.batchSize)

/-- The ranks with their weights and memories.  They enter and leave a sync together; in the
source a rank leaves it once its own sockets are done. -/
def rankSystem (h : LlmHeader) (t : NnParallelTopology) (o : SyncOptions) (D : Fin n → RowNode F) :
    Rendezvous (Fin n) (RankAct F) (Nat × List NnSyncConfig) (NnMemory (BatchRow F)) where
  act r
    | .load f => loadForward (t.placement r.val) f
    | .op batchSize op => (D r).execute batchSize op
  Meets m := SyncsMeet h t o m.1 m.2

variable {h : LlmHeader} {t : NnParallelTopology} {o : SyncOptions} {D : Fin n → RowNode F}

/-- The ops among some calls. -/
theorem acts_ops (r : Fin n) (batchSize : Nat) (calls : List BuilderCall)
    (s : NnMemory (BatchRow F)) :
    (rankSystem h t o D).acts r ((BlockContext.opsOf calls).map (.op batchSize)) s
      = (D r).run batchSize calls s :=
  List.foldl_map ..

omit [LinearOrder F] [FloorSemiring F] in
theorem syncsMeet_singleton {batchSize : Nat} {sync : NnSyncConfig}
    {s s' : Fin n → NnMemory (BatchRow F)} (hmeet : SyncsMeet h t o batchSize [sync] s s') :
    SyncMeets h t o batchSize sync s s' := by
  rcases hmeet with ⟨s₁, hfirst, hlast⟩
  rw [show s' = s₁ from hlast]
  exact hfirst

end System

/-! ## The segments of a forward -/

namespace BlockContext

variable (c : BlockContext)

/-- The syncs a sequence of calls adds. -/
def syncsOf (calls : List BuilderCall) : List NnSyncConfig := calls.filterMap BuilderCall.sync?

/-- The calls of a stage that has the whole model, segment by segment. -/
def forwardCalls (nodeIndex nSubBlocks : Nat) : List (List BuilderCall) :=
  c.startCalls 1 0 nodeIndex :: (List.range' 0 nSubBlocks).map (c.subBlockCalls 0)
    ++ [c.endCalls false]

theorem nodeSegments_eq {nodeIndex nSubBlocks : Nat} (hfits : nSubBlocks + 1 < 2 ^ 32) :
    c.nodeSegments 1 0 nodeIndex 0 nSubBlocks false
      = (c.forwardCalls nodeIndex nSubBlocks).map NnSegmentConfigBuilder.segmentOf := by
  rw [nodeSegments, c.flatMap_layerSegments (Nat.zero_le _) hfits, Nat.sub_zero, forwardCalls]
  simp

theorem syncsOf_startCalls (nodeIndex : Nat) :
    syncsOf (c.startCalls 1 0 nodeIndex) = [⟨.x, .withRoot, none, 0, 0, 0⟩] := by
  by_cases h : nodeIndex = 0
  · rw [startCalls, if_pos rfl, if_pos h]
    rfl
  · rw [startCalls, if_pos rfl, if_neg h]
    rfl

theorem syncsOf_endCalls : syncsOf (c.endCalls false) = [⟨.lg, .nodeSlices, none, 0, 0, 0⟩] := by
  unfold endCalls castYCalls
  split_ifs
  · rfl
  · rfl

/-- Without sequence parallelism a sub-block has one sync. -/
theorem syncsOf_subBlockCalls (hsp : c.spSize = 1) (s : Nat) :
    syncsOf (c.subBlockCalls 0 s) = [⟨.zq, .nodeSlices, none, 0, 0, 0⟩] := by
  have hcast (p : Prop) [Decidable p] (call : BuilderCall) (hcall : call.sync? = none) :
      (if p then [call] else []).filterMap BuilderCall.sync? = [] := by
    split_ifs
    · simp [hcall]
    · rfl
  have hite (p : Prop) [Decidable p] (call call' : BuilderCall) (hcall : call.sync? = none)
      (hcall' : call'.sync? = none) : (if p then call else call').sync? = none := by
    split_ifs
    · exact hcall
    · exact hcall'
  unfold subBlockCalls
  split_ifs
  -- an attention segment: its optional calls are ops
  · have hsplit : c.qkNormCalls (s / 2) = [] ∨ ∃ a b d e : NnOpConfig,
        c.qkNormCalls (s / 2) = [.addOp a, .addOp b, .addOp d, .addOp e] := by
      unfold qkNormCalls
      split_ifs
      · exact .inr ⟨_, _, _, _, rfl⟩
      · exact .inl rfl
    have hnorm : (c.qkNormCalls (s / 2)).filterMap BuilderCall.sync? = [] := by
      rcases hsplit with h | ⟨a, b, d, e, h⟩
      · rw [h]
        rfl
      · rw [h]
        rfl
    have hkv : c.spKvCalls (s / 2) = [] := by
      rw [spKvCalls, if_neg]
      rw [hsp]
      exact fun h => absurd h.1 (lt_irrefl 1)
    have hfirst : (attFirst 0 (s / 2)).sync? = none := hite _ _ _ rfl rfl
    have hprune : (c.pruneCalls (s / 2)).filterMap BuilderCall.sync? = [] := hcast _ _ rfl
    have hy : (c.castYCalls .blockCastY (s / 2)).filterMap BuilderCall.sync? = [] := hcast _ _ rfl
    simp only [syncsOf, attCalls, attBodyCalls, attInputCalls, List.filterMap_append,
      List.filterMap_cons, hprune, hfirst, hy, hnorm, hkv]
    rfl
  -- a feed-forward segment, dense or with experts
  · have hfirst : (ffFirst 0 (s / 2)).sync? = none := hite _ _ _ rfl rfl
    have hd (b b' : BufferIndex) : (castDCalls (s / 2) b b').filterMap BuilderCall.sync? = [] :=
      hcast _ _ rfl
    have hy : (c.castYCalls .blockCastY3 (s / 2)).filterMap BuilderCall.sync? = [] := hcast _ _ rfl
    have hpart : (if c.h.archType = .qwen3Moe then c.moeCalls (s / 2)
        else c.denseCalls (s / 2)).filterMap BuilderCall.sync? = [] := by
      split_ifs
      · simp only [moeCalls, List.filterMap_append, hd]
        rfl
      · simp only [denseCalls, List.filterMap_append, hd, hy]
        rfl
    simp only [syncsOf, ffCalls, ffBodyCalls, List.filterMap_append, List.filterMap_cons, hfirst,
      hpart]
    rfl

end BlockContext

/-! ## Rounds -/

section Rounds

variable {F : Type} {n : Nat}

/-- The phases of a segment that ends with a sync. -/
theorem map_stepPhase (batchSize : Nat) {nNodes : Nat} (hn : 1 < nNodes) {calls : List BuilderCall}
    {sync : NnSyncConfig} (hsync : BlockContext.syncsOf calls = [sync]) :
    (segmentSteps (decide (1 < nNodes)) (NnSegmentConfigBuilder.segmentOf calls)).map
        (stepPhase (F := F) batchSize)
      = ((BlockContext.opsOf calls).map (.op batchSize)).map .act
        ++ [.meet (batchSize, [sync])] := by
  have hsyncs : calls.filterMap BuilderCall.sync? = [sync] := hsync
  rw [NnSegmentConfigBuilder.segmentSteps_segmentOf, hsyncs,
    if_pos ⟨decide_eq_true hn, List.cons_ne_nil _ _⟩, List.map_append, List.map_map, List.map_map]
  rfl

/-- Alone, a node skips its syncs. -/
theorem map_stepPhase_alone (batchSize : Nat) (calls : List BuilderCall) :
    (segmentSteps (decide (1 < 1)) (NnSegmentConfigBuilder.segmentOf calls)).map
        (stepPhase (F := F) batchSize)
      = ((BlockContext.opsOf calls).map (.op batchSize)).map .act := by
  rw [NnSegmentConfigBuilder.segmentSteps_segmentOf, if_neg (by simp), List.append_nil,
    List.map_map, List.map_map]
  rfl

namespace TensorSplit

variable (T : TensorSplit F n) (nSubBlocks : Nat)

/-- What the ranks do up to a sync. -/
def segmentRound (batchSize : Nat) (calls : Fin n → List BuilderCall) (pipe : PipeIndex)
    (type : NnSyncType) : Round (Fin n) (RankAct F) (Nat × List NnSyncConfig) :=
  ⟨fun r => (BlockContext.opsOf (calls r)).map (.op batchSize),
    (batchSize, [⟨pipe, type, none, 0, 0, 0⟩])⟩

def firstRound (f : NnForward (BatchRow F)) :
    Round (Fin n) (RankAct F) (Nat × List NnSyncConfig) :=
  ⟨fun r => .load f :: (BlockContext.opsOf ((T.rankContext r).startCalls 1 0 r.val)).map
    (.op f.batchSize), (f.batchSize, [⟨.x, .withRoot, none, 0, 0, 0⟩])⟩

def subBlockRound (batchSize s : Nat) : Round (Fin n) (RankAct F) (Nat × List NnSyncConfig) :=
  segmentRound batchSize (fun r => (T.rankContext r).subBlockCalls 0 s) .zq .nodeSlices

def lastRound (batchSize : Nat) : Round (Fin n) (RankAct F) (Nat × List NnSyncConfig) :=
  segmentRound batchSize (fun r => (T.rankContext r).endCalls false) .lg .nodeSlices

/-- The rounds of a forward. -/
def forwardRounds (f : NnForward (BatchRow F)) :
    List (Round (Fin n) (RankAct F) (Nat × List NnSyncConfig)) :=
  T.firstRound f :: (List.range' 0 nSubBlocks).map (T.subBlockRound f.batchSize)
    ++ [T.lastRound f.batchSize]

/-- What the single node does in a forward. -/
def wholeActs (f : NnForward (BatchRow F)) : List (RankAct F) :=
  .load f :: (T.wholeContext.forwardCalls 0 nSubBlocks).flatMap fun calls =>
    (BlockContext.opsOf calls).map (.op f.batchSize)

/-- The memory of the single node after a forward. -/
def wholeForward [Field F] [LinearOrder F] [FloorSemiring F] (u : NnMemory (BatchRow F))
    (f : NnForward (BatchRow F)) : NnMemory (BatchRow F) :=
  (T.wholeContext.forwardCalls 0 nSubBlocks).foldl (fun u calls => T.whole.run f.batchSize calls u)
    (loadForward (singleNode.placement 0) f u)

end TensorSplit

end Rounds

/-! ## A forward -/

namespace TensorSplit

variable {F : Type} [Field F] [LinearOrder F] [FloorSemiring F] {t : NnParallelTopology}
  {T : TensorSplit F t.nNodes} {o : SyncOptions} {batchSize nSubBlocks : Nat}
  {s s' : Fin t.nNodes → NnMemory (BatchRow F)} {u : NnMemory (BatchRow F)}

/-- The keys and values of a rank are its columns of those of the single node. -/
def KvPieces {n : Nat} (T : TensorSplit F n) (s : Fin n → NnMemory (BatchRow F))
    (u : NnMemory (BatchRow F)) : Prop :=
  ∀ layerIndex p z,
    (Sharding.cut T.slices.kSlice.d0).Holds (fun r => s r (.buffer (.k layerIndex), p) z)
      (u (.buffer (.k layerIndex), p) z) ∧
    (Sharding.cut T.slices.kSlice.d0).Holds (fun r => s r (.buffer (.v layerIndex), p) z)
      (u (.buffer (.v layerIndex), p) z)

/-- A forward whose positions are in the context and whose syncs go row by row. -/
structure Accepts (T : TensorSplit F t.nNodes) (o : SyncOptions) (f : NnForward (BatchRow F)) :
    Prop where
  positions : ∀ b < f.batchSize, ⌊f.positions b 0 0⌋₊ < T.h.seqLen
  rows : o.batchedSyncOff = true ∨ f.batchSize ≤ 1
  star : o.collectiveType = .star ∨ t.nNodes < 8

theorem Sharded.kvPieces {κ : ShardMap} (h : T.Sharded batchSize κ s u)
    (hle : ∀ source k, T.base source = some k → κ source = some k) : T.KvPieces s u :=
  fun _ _ z => ⟨h.holds (hle _ _ rfl) rfl z, h.holds (hle _ _ rfl) rfl z⟩

/-- The logits lie apart from the keys and values. -/
theorem Sharded.kvPieces_of_logits {k : Sharding}
    (h : T.Sharded batchSize (Function.update T.base (.pipe .lg) (some k)) s u) :
    T.KvPieces s u := by
  refine h.kvPieces (base_le ?_ (fun _ => ?_) fun _ => ?_)
  · simp [base]
  · simp [base]
  · simp [base]

/-- The tokens go to the root, the positions to all ranks. -/
theorem KvPieces.load (h : T.KvPieces s u) {f : NnForward (BatchRow F)} (hf : T.Accepts o f) :
    T.Sharded f.batchSize T.loaded (fun r => loadForward (t.placement r.val) f (s r))
      (loadForward (singleNode.placement 0) f u) := by
  constructor
  -- what a pipe or a cache holds, the tokens first
  · intro source k hk b hb z
    by_cases htok : source = .pipe .tok
    · subst htok
      rw [loaded, Function.update_self] at hk
      cases hk
      have hlt : b < f.batchSize := by simpa [NnRow.inBatch, NnPointerSource.isCache] using hb
      intro r hr x _
      have hrank : loadForward (t.placement r.val) f (s r) (.pipe .tok, b) = f.tokens b :=
        if_pos ⟨hr, hlt⟩
      have hwhole : loadForward (singleNode.placement 0) f u (.pipe .tok, b) = f.tokens b :=
        if_pos ⟨rfl, hlt⟩
      simp only [hrank, hwhole]
    · rw [loaded, Function.update_of_ne htok] at hk
      unfold base at hk
      -- the positions, the keys, the values, and nothing else
      split at hk
      · cases hk
        have hlt : b < f.batchSize := by simpa [NnRow.inBatch, NnPointerSource.isCache] using hb
        intro r
        have hrank : loadForward (t.placement r.val) f (s r) (.pipe .pos, b) = f.positions b :=
          if_pos hlt
        have hwhole : loadForward (singleNode.placement 0) f u (.pipe .pos, b) = f.positions b :=
          if_pos hlt
        simp only [hrank, hwhole]
      · cases hk
        exact (h _ b z).1
      · cases hk
        exact (h _ b z).2
      · cases hk
  -- the positions of the forward are those the op was built for
  · intro b hb
    have hpos : loadForward (singleNode.placement 0) f u (.pipe .pos, b) = f.positions b :=
      if_pos hb
    rw [RowNode.position, hpos]
    exact hf.positions b hb

/-! ### Syncs -/

/-- A sync changes the rows of its pipe. -/
theorem Sharded.sync {κ : ShardMap} {k : Sharding} {sync : NnSyncConfig}
    (h : T.Sharded batchSize κ s u) (hmeet : SyncMeets T.h t o batchSize sync s s')
    (hrows : ∀ b < batchSize, ∀ z, k.Holds (fun r => s' r (.pipe sync.pipeIndex, b) z)
      (u (.pipe sync.pipeIndex, b) z)) :
    T.Sharded batchSize (Function.update κ (.pipe sync.pipeIndex) (some k)) s' u := by
  refine ⟨fun {source k'} hk b hb z => ?_, h.position⟩
  by_cases hsource : source = .pipe sync.pipeIndex
  · subst hsource
    rw [Function.update_self] at hk
    cases hk
    exact hrows b (by simpa [NnRow.inBatch, NnPointerSource.isCache] using hb) z
  · rw [Function.update_of_ne hsource] at hk
    have hsame : ∀ r, s' r (source, b) = s r (source, b) :=
      fun r => sync_other hmeet r hsource b
    simp only [hsame]
    exact h.holds hk hb z

section Rounds

variable (hwhole : t.tpSize = t.nNodes) (hn : 2 ≤ t.nNodes) (hT : ∀ a, 0 < o.nThreads a)
include hwhole hn hT

/-- Summands become copies. -/
theorem sharded_round {κ κ' : ShardMap} {calls : Fin t.nNodes → List BuilderCall}
    {wholeCalls : List BuilderCall} {pipe : PipeIndex} (hs : T.Sharded batchSize κ s u)
    (hkeeps : T.Keeps batchSize κ κ' calls wholeCalls)
    (hparts : κ' (.pipe pipe) = some (.parts (pipeWidth T.h pipe)))
    (hrow : RowWise t (o.shape T.h batchSize pipe))
    (hmeet : (rankSystem T.h t o T.rank).Meets
      (batchSize, [⟨pipe, .nodeSlices, none, 0, 0, 0⟩])
      (fun r => (rankSystem T.h t o T.rank).acts r
        ((BlockContext.opsOf (calls r)).map (.op batchSize)) (s r)) s') :
    T.Sharded batchSize (Function.update κ' (.pipe pipe) (some (.copies (pipeWidth T.h pipe)))) s'
      (T.whole.run batchSize wholeCalls u) := by
  have hbefore := hkeeps s u hs
  have hsync : SyncMeets T.h t o batchSize ⟨pipe, .nodeSlices, none, 0, 0, 0⟩
      (fun r => (T.rank r).run batchSize (calls r) (s r)) s' := by
    have hmeet := syncsMeet_singleton hmeet
    simp only [acts_ops] at hmeet
    exact hmeet
  refine hbefore.sync hsync fun b hb z => ?_
  exact copies_of_parts (hbefore.row hparts hb z) fun r x hx =>
    nodeSlices_apply hwhole hn hT hrow hsync r hb hx z

/-- The embedded row of the root becomes a copy. -/
theorem sharded_firstRound {f : NnForward (BatchRow F)} (hf : T.Accepts o f)
    (hkv : T.KvPieces s u)
    (hmeet : (rankSystem T.h t o T.rank).Meets (T.firstRound f).meeting
      (fun r => (rankSystem T.h t o T.rank).acts r ((T.firstRound f).acts r) (s r)) s') :
    T.Sharded f.batchSize (T.before 0) s'
      (T.whole.run f.batchSize (T.wholeContext.startCalls 1 0 0)
        (loadForward (singleNode.placement 0) f u)) := by
  have hbefore := keeps_startCalls _ _ (hkv.load hf)
  have hsync : SyncMeets T.h t o f.batchSize ⟨.x, .withRoot, none, 0, 0, 0⟩
      (fun r => (T.rank r).run f.batchSize ((T.rankContext r).startCalls 1 0 r.val)
        (loadForward (t.placement r.val) f (s r))) s' := by
    have hacts : ∀ r, (rankSystem T.h t o T.rank).acts r ((T.firstRound f).acts r) (s r)
        = (T.rank r).run f.batchSize ((T.rankContext r).startCalls 1 0 r.val)
            (loadForward (t.placement r.val) f (s r)) := by
      intro r
      exact acts_ops r f.batchSize _ (loadForward (t.placement r.val) f (s r))
    have hmeet := syncsMeet_singleton hmeet
    simp only [hacts] at hmeet
    exact hmeet
  have hafter := hbefore.sync (k := .copies T.h.dim) hsync fun b hb z =>
    copies_of_root (hbefore.row (Function.update_self ..) hb z) fun r x hx =>
      ⟨⟨0, by omega⟩, rfl, withRoot_apply hwhole hn hT hsync r hb hx z⟩
  have hmap : Function.update T.embedded (.pipe .x) (some (.copies T.h.dim)) = T.before 0 := by
    rw [embedded, Function.update_idem, before, if_pos rfl]
  rw [← hmap]
  exact hafter

/-- Sub-block by sub-block. -/
theorem sharded_subBlocks {f : NnForward (BatchRow F)} (hf : T.Accepts o f) (m : Nat)
    {first : Nat} {rest : List (Round (Fin t.nNodes) (RankAct F) (Nat × List NnSyncConfig))}
    (hs : T.Sharded f.batchSize (T.before first) s u)
    (hrun : RoundsRun (rankSystem T.h t o T.rank) (fun _ => [])
      ((List.range' first m).map (T.subBlockRound f.batchSize) ++ rest) s s') :
    ∃ s₁, RoundsRun (rankSystem T.h t o T.rank) (fun _ => []) rest s₁ s' ∧
      T.Sharded f.batchSize (T.before (first + m)) s₁
        ((List.range' first m).foldl
          (fun u i => T.whole.run f.batchSize (T.wholeContext.subBlockCalls 0 i) u) u) := by
  -- on the sub-blocks that are left; the pending row of the ranks is what `before` says
  induction m generalizing first s u with
  | zero => exact ⟨s, hrun, hs⟩
  | succ m ih =>
      rw [List.range'_succ, List.map_cons, List.cons_append] at hrun
      cases hrun with
      | cons hmeet hrest =>
          have hnext := sharded_round hwhole hn hT hs (keeps_subBlockCalls first)
            (Function.update_self ..) ⟨hf.rows, hf.star⟩ hmeet
          have hmap : Function.update T.behind (.pipe .zq)
              (some (.copies (pipeWidth T.h .zq))) = T.before (first + 1) := by
            rw [behind, Function.update_idem, before, if_neg (Nat.succ_ne_zero first)]
            rfl
          rw [hmap] at hnext
          rcases ih hnext hrest with ⟨s₁, hrun₁, hs₁⟩
          refine ⟨s₁, hrun₁, ?_⟩
          rw [Nat.add_right_comm] at hs₁
          rw [List.range'_succ, List.foldl_cons]
          exact hs₁

/-- A forward of the ranks gives every rank the logits of the single node, and keeps the pieces of
its keys and values. -/
theorem sharded_forward {f : NnForward (BatchRow F)} (hf : T.Accepts o f)
    (hblocks : nSubBlocks ≠ 0)
    {rest : List (Round (Fin t.nNodes) (RankAct F) (Nat × List NnSyncConfig))}
    (hkv : T.KvPieces s u)
    (hrun : RoundsRun (rankSystem T.h t o T.rank) (fun _ => [])
      (T.forwardRounds nSubBlocks f ++ rest) s s') :
    ∃ s₁, RoundsRun (rankSystem T.h t o T.rank) (fun _ => []) rest s₁ s' ∧
      T.Sharded f.batchSize
        (Function.update T.base (.pipe .lg) (some (.copies T.h.vocabSize))) s₁
        (T.wholeForward nSubBlocks u f) := by
  rw [forwardRounds, List.append_assoc] at hrun
  -- the first round, the rounds of the sub-blocks, the last round
  cases hrun with
  | cons hmeet hrest =>
      have hfirst := sharded_firstRound hwhole hn hT hf hkv hmeet
      rcases sharded_subBlocks hwhole hn hT hf nSubBlocks hfirst hrest with ⟨s₁, hrun₁, hs₁⟩
      rw [Nat.zero_add] at hs₁
      cases hrun₁ with
      | cons hmeet₂ hrest₂ =>
          have hlast := sharded_round hwhole hn hT hs₁ (keeps_endCalls hblocks)
            (Function.update_self ..) ⟨hf.rows, hf.star⟩ hmeet₂
          have hmap : Function.update T.ended (.pipe .lg)
              (some (.copies (pipeWidth T.h .lg)))
              = Function.update T.base (.pipe .lg) (some (.copies T.h.vocabSize)) := by
            rw [ended, Function.update_idem]
            rfl
          rw [hmap] at hlast
          refine ⟨_, hrest₂, ?_⟩
          simp only [wholeForward, BlockContext.forwardCalls, List.cons_append, List.foldl_cons,
            List.foldl_append, List.foldl_map, List.foldl_nil]
          exact hlast

/-- Forward after forward. -/
theorem kvPieces_forwards (hblocks : nSubBlocks ≠ 0) {fs : List (NnForward (BatchRow F))}
    (hfs : ∀ f ∈ fs, T.Accepts o f)
    {rest : List (Round (Fin t.nNodes) (RankAct F) (Nat × List NnSyncConfig))}
    (hkv : T.KvPieces s u)
    (hrun : RoundsRun (rankSystem T.h t o T.rank) (fun _ => [])
      (fs.flatMap (T.forwardRounds nSubBlocks) ++ rest) s s') :
    ∃ s₁, RoundsRun (rankSystem T.h t o T.rank) (fun _ => []) rest s₁ s' ∧
      T.KvPieces s₁ (fs.foldl (T.wholeForward nSubBlocks) u) := by
  -- between forwards only the pieces of the keys and values matter
  induction fs generalizing s u with
  | nil => exact ⟨s, hrun, hkv⟩
  | cons f fs ih =>
      rw [List.forall_mem_cons] at hfs
      rw [List.flatMap_cons, List.append_assoc] at hrun
      rcases sharded_forward hwhole hn hT hfs.1 hblocks hkv hrun with ⟨s₁, hrun₁, hs₁⟩
      exact ih hfs.2 hs₁.kvPieces_of_logits hrun₁

end Rounds

/-- Every sync of a forward can take place. -/
theorem Accepts.exists_meets (hwhole : t.tpSize = t.nNodes) (hn : 2 ≤ t.nNodes)
    (hT : ∀ a, 0 < o.nThreads a) {f : NnForward (BatchRow F)} (hf : T.Accepts o f)
    {x : Round (Fin t.nNodes) (RankAct F) (Nat × List NnSyncConfig)}
    (hx : x ∈ T.forwardRounds nSubBlocks f) (s : Fin t.nNodes → NnMemory (BatchRow F)) :
    ∃ s', (rankSystem T.h t o T.rank).Meets x.meeting s s' := by
  have hslices (pipe : PipeIndex) : ∃ s', SyncsMeet T.h t o f.batchSize
      [⟨pipe, .nodeSlices, none, 0, 0, 0⟩] s s' := by
    have hmeet : ∃ s', SyncMeets T.h t o f.batchSize ⟨pipe, .nodeSlices, none, 0, 0, 0⟩ s s' :=
      exists_nodeSlices hwhole hn hT ⟨hf.rows, hf.star⟩ s
    rcases hmeet with ⟨s', hs'⟩
    exact ⟨s', s', hs', rfl⟩
  simp only [forwardRounds, List.cons_append, List.mem_cons, List.mem_append, List.mem_map,
    List.not_mem_nil, or_false] at hx
  -- the row of the root, a sub-block, the logits
  rcases hx with rfl | ⟨i, -, rfl⟩ | rfl
  · have hmeet : ∃ s', SyncMeets T.h t o f.batchSize ⟨.x, .withRoot, none, 0, 0, 0⟩ s s' :=
      exists_withRoot hwhole hn hT s
    rcases hmeet with ⟨s', hs'⟩
    exact ⟨s', s', hs', rfl⟩
  · exact hslices .zq
  · exact hslices .lg

end TensorSplit

/-! ## Two nets -/

section Nets

variable {F : Type} {t : NnParallelTopology} {net net₁ : LlmNet}

/-- The nets of the ranks and of the single node. -/
structure TensorSplit.Nets (T : TensorSplit F t.nNodes) (net net₁ : LlmNet) : Prop where
  ppSize : t.ppSize = 1
  spSize : t.spSize = 1
  ranks : ∃ counts, buildLlmNet T.h t ⟨T.nBatches, counts, none, false, T.spNoShard⟩ = .ok net
  whole : ∃ counts, buildLlmNet T.h singleNode ⟨T.nBatches, counts, none, false, T.spNoShard⟩
    = .ok net₁
  slices : net.slices = T.slices
  wholeSlices : net₁.slices = T.wholeSlices
  layers : 0 < net.subEnd 0

namespace TensorSplit

variable {T : TensorSplit F t.nNodes}

theorem Nets.tpSize_eq (h : T.Nets net net₁) : t.tpSize = t.nNodes := by
  rw [t.nNodes_eq, h.ppSize, h.spSize, Nat.one_mul]

theorem Nets.placement (h : T.Nets net net₁) {node : Nat} (hnode : node < t.nNodes) :
    (t.placement node).ppRank = 0 ∧ (t.placement node).spRank = 0 ∧
      (t.placement node).tpRank = node := by
  simp [NnParallelTopology.placement, h.spSize, h.tpSize_eq, Nat.div_eq_of_lt hnode,
    Nat.mod_eq_of_lt hnode]

theorem Nets.subEnd_eq (h : T.Nets net net₁) : net.subEnd 0 = net₁.subEnd 0 := by
  rcases h.ranks with ⟨counts, hnet⟩
  rcases h.whole with ⟨counts₁, hnet₁⟩
  have hlast := subStart_ppSize hnet
  rw [h.ppSize] at hlast
  exact hlast.trans (subStart_ppSize hnet₁).symm

theorem Nets.fits (h : T.Nets net net₁) : net.subEnd 0 + 1 < 2 ^ 32 := by
  rcases h.ranks with ⟨counts, hnet⟩
  refine subEnd_lt hnet (fun p hp => ?_) t.ppSize_pos
  have hzero : p = 0 := by
    rw [h.ppSize] at hp
    exact Nat.lt_one_iff.1 hp
  rw [hzero, subStart_zero hnet]
  exact h.layers

/-- The steps of a rank. -/
theorem Nets.steps_eq (h : T.Nets net net₁) (r : Fin t.nNodes) :
    net.steps r.val = executorSteps t.nNodes
      ((T.rankContext r).nodeSegments 1 0 r.val 0 (net.subEnd 0) false) := by
  rcases h.ranks with ⟨counts, hnet⟩
  rcases buildLlmNet_eq_ok hnet with ⟨-, -, -, hnodes, hcfgs⟩
  rcases hcfgs r.val r.isLt with ⟨cfg, hcfg, hbuild⟩
  rcases buildNode_eq_ok hbuild with ⟨ropeSlice, hrope, -, rfl⟩
  rcases h.placement r.isLt with ⟨hpp, hsp, htp⟩
  rw [h.tpSize_eq, htp, T.sliceRope_eq r] at hrope
  cases hrope
  have hcontext : blockContext T.h t ⟨T.nBatches, counts, none, false, T.spNoShard⟩ net.slices
      (T.rope r) 0 = T.rankContext r := by
    simp only [blockContext, h.spSize, h.tpSize_eq, ite_self, h.slices]
    rfl
  have hstart : net.ppLayerOffsets.getD 0 0 = 0 := subStart_zero hnet
  simp only [LlmNet.steps, hcfg, hnodes, hpp, hsp, hcontext, h.ppSize, hstart]
  rfl

/-- The steps of the single node. -/
theorem Nets.wholeSteps_eq (h : T.Nets net net₁) :
    net₁.steps 0 = executorSteps 1
      (T.wholeContext.nodeSegments 1 0 0 0 (net.subEnd 0) false) := by
  rcases h.whole with ⟨counts₁, hnet₁⟩
  have hsteps := steps_eq_of_plain hnet₁ singleNode_plain T.sliceRope_whole Nat.one_pos
  rw [subStart_zero hnet₁, ← h.subEnd_eq, h.wholeSlices] at hsteps
  exact hsteps

/-- The program of a rank is the one of its rounds. -/
theorem Nets.program_eq (h : T.Nets net net₁) (hn : 2 ≤ t.nNodes)
    (fs : List (NnForward (BatchRow F))) :
    (fun r : Fin t.nNodes => net.program fs r.val)
      = programs (fs.flatMap (T.forwardRounds (net.subEnd 0))) fun _ => [] := by
  funext r
  rw [programs_eq_flatMap, List.flatMap_assoc, LlmNet.program]
  refine List.flatMap_congr fun f _ => ?_
  have hstart := map_stepPhase (F := F) f.batchSize hn
    ((T.rankContext r).syncsOf_startCalls r.val)
  have hend := map_stepPhase (F := F) f.batchSize hn
    (T.rankContext r).syncsOf_endCalls
  have hblock := fun s => map_stepPhase (F := F) f.batchSize hn
    ((T.rankContext r).syncsOf_subBlockCalls rfl s)
  rw [h.steps_eq r, BlockContext.nodeSegments_eq _ h.fits, executorSteps, List.flatMap_map,
    List.map_flatMap]
  simp only [BlockContext.forwardCalls, forwardRounds, List.cons_append, List.flatMap_cons,
    List.flatMap_append, List.flatMap_map, List.flatMap_nil, List.append_nil, hstart, hend, hblock]
  rfl

/-- The single node runs through its ops without meeting anybody. -/
theorem Nets.wholeProgram_eq (h : T.Nets net net₁) (fs : List (NnForward (BatchRow F))) :
    (fun r : Fin singleNode.nNodes => net₁.program fs r.val)
      = programs [] fun _ => fs.flatMap (T.wholeActs (net.subEnd 0)) := by
  funext r
  have hzero : r.val = 0 := Nat.lt_one_iff.1 r.isLt
  rw [hzero, LlmNet.program, programs, List.map_flatMap]
  refine List.flatMap_congr fun f _ => ?_
  rw [h.wholeSteps_eq, BlockContext.nodeSegments_eq _ h.fits, executorSteps, List.flatMap_map,
    List.map_flatMap]
  simp only [map_stepPhase_alone, wholeActs, List.map_cons, List.map_flatMap]

variable [Field F] [LinearOrder F] [FloorSemiring F] {o : SyncOptions}

/-- What the single node does is what its forwards do to its memory. -/
theorem acts_wholeActs (nSubBlocks : Nat) (fs : List (NnForward (BatchRow F)))
    (u : NnMemory (BatchRow F)) (r : Fin singleNode.nNodes) :
    (rankSystem T.h singleNode o fun _ : Fin singleNode.nNodes => T.whole).acts r
        (fs.flatMap (T.wholeActs nSubBlocks)) u
      = fs.foldl (T.wholeForward nSubBlocks) u := by
  have hzero : r.val = 0 := Nat.lt_one_iff.1 r.isLt
  have hforward : ∀ (u : NnMemory (BatchRow F)) (f : NnForward (BatchRow F)),
      (rankSystem T.h singleNode o fun _ : Fin singleNode.nNodes => T.whole).acts r
        (T.wholeActs nSubBlocks f) u = T.wholeForward nSubBlocks u f := by
    intro u f
    have hload : (rankSystem T.h singleNode o fun _ : Fin singleNode.nNodes => T.whole).act r
        (.load f) u = loadForward (singleNode.placement 0) f u := by
      rw [← hzero]
      rfl
    have hops := fun calls u => acts_ops (h := T.h) (t := singleNode) (o := o)
      (D := fun _ : Fin singleNode.nNodes => T.whole) r f.batchSize calls u
    rw [wholeActs, wholeForward, Rendezvous.acts, List.foldl_cons, hload, List.foldl_flatMap]
    exact congrArg (fun g => List.foldl g _ _) (funext fun u => funext fun calls => hops calls u)
  rw [Rendezvous.acts, List.foldl_flatMap]
  exact congrArg (fun g => List.foldl g u fs) (funext fun u => funext fun f => hforward u f)

/-- From pieces of the keys and values of a single node, the ranks of an accepted net come to the
end of any forwards, and so does the single node.  However the ranks interleave, every rank then
has the logits of the single node and its pieces of the keys and values of the single node. -/
theorem ranks_computeLike_singleNode (hnets : T.Nets net net₁) (hn : 2 ≤ t.nNodes)
    (hT : ∀ a, 0 < o.nThreads a) (fs : List (NnForward (BatchRow F)))
    (f : NnForward (BatchRow F)) (hfs : ∀ g ∈ fs ++ [f], T.Accepts o g)
    (s : Fin t.nNodes → NnMemory (BatchRow F)) (u : NnMemory (BatchRow F))
    (hkv : T.KvPieces s u) :
    (∀ c, Reach (rankSystem T.h t o T.rank) ⟨fun r => net.program (fs ++ [f]) r.val, s⟩ c →
      ∃ d, Reach (rankSystem T.h t o T.rank) c d ∧ d.Finished) ∧
    (∃ d₁, Reach (rankSystem T.h singleNode o fun _ : Fin singleNode.nNodes => T.whole)
      ⟨fun r => net₁.program (fs ++ [f]) r.val, fun _ => u⟩ d₁ ∧ d₁.Finished) ∧
    ∀ d d₁, Reach (rankSystem T.h t o T.rank) ⟨fun r => net.program (fs ++ [f]) r.val, s⟩ d →
      d.Finished →
      Reach (rankSystem T.h singleNode o fun _ : Fin singleNode.nNodes => T.whole)
        ⟨fun r => net₁.program (fs ++ [f]) r.val, fun _ => u⟩ d₁ → d₁.Finished →
      ∀ r₁, (∀ r, ∀ b < f.batchSize, ∀ z, ∀ x < T.h.vocabSize,
          d.mem r (.pipe .lg, b) z x = d₁.mem r₁ (.pipe .lg, b) z x) ∧
        T.KvPieces d.mem (d₁.mem r₁) := by
  have : Nonempty (Fin t.nNodes) := ⟨⟨0, t.nNodes_pos⟩⟩
  have : Nonempty (Fin singleNode.nNodes) := ⟨⟨0, singleNode.nNodes_pos⟩⟩
  rw [hnets.program_eq hn, hnets.wholeProgram_eq]
  refine ⟨fun c hc => exists_finished (fun x hx s => ?_) hc,
    exists_finished (fun x hx => absurd hx List.not_mem_nil) .refl,
    fun d d₁ hd hfin hd₁ hfin₁ r₁ => ?_⟩
  · rcases List.mem_flatMap.1 hx with ⟨g, hg, hx⟩
    exact (hfs g hg).exists_meets hnets.tpSize_eq hn hT hx s
  -- however the ranks interleave, they end like round by round
  · have hrun := roundsRun_of_reach hd hfin
    have hwhole : d₁.mem r₁ = (fs ++ [f]).foldl (T.wholeForward (net.subEnd 0)) u := by
      have hrun₁ := roundsRun_of_reach hd₁ hfin₁
      generalize d₁.mem = m at hrun₁ ⊢
      cases hrun₁
      exact acts_wholeActs (net.subEnd 0) (fs ++ [f]) u r₁
    have hfs' := List.forall_mem_append.1 hfs
    rw [List.flatMap_append, List.flatMap_singleton] at hrun
    -- the forwards before the last one, and the last one
    rcases kvPieces_forwards hnets.tpSize_eq hn hT hnets.layers.ne' hfs'.1 hkv hrun with
      ⟨s₁, hrun₁, hkv₁⟩
    rw [← List.append_nil (T.forwardRounds (net.subEnd 0) f)] at hrun₁
    rcases sharded_forward hnets.tpSize_eq hn hT (hfs'.2 f (List.mem_singleton_self f))
      hnets.layers.ne' hkv₁ hrun₁ with ⟨s₂, hrun₂, hs₂⟩
    have hlast : s₂ = d.mem := by
      generalize d.mem = m at hrun₂ ⊢
      cases hrun₂
      rfl
    rw [hlast] at hs₂
    rw [hwhole, List.foldl_append, List.foldl_cons, List.foldl_nil]
    exact ⟨fun r b hb z x hx => hs₂.row (Function.update_self ..) hb z r x hx,
      hs₂.kvPieces_of_logits⟩

end TensorSplit

end Nets

/-! ## Two ranks -/

/-- Functions that are easy to compute with. -/
def flatRowMath : RowMath ℚ := ⟨⟨fun x => x, fun x => x⟩, Kernels.flatMath, fun _ _ block => block⟩

def flatModel : RowModel ℚ := ⟨flatRowMath, fun _ index _ i j => index + i + j⟩

def plainDevice : RowDevice ℚ := ⟨fun _ => 0, fun _ => false, fun _ _ s => s⟩

/-- Two threads on each node, links that hold nothing, and all rows through the root. -/
def rowSyncs : SyncOptions := ⟨true, false, .star, fun _ => 2, fun _ => 0⟩

/-- One row at a position. -/
def oneRowAt (position : ℚ) : NnForward (BatchRow ℚ) :=
  ⟨1, fun _ _ _ => 1, fun _ _ _ => position⟩

/-- Three forwards of a model of one layer on two ranks, and on one node. -/
theorem ranks_computeLike_singleNode_two_ranks :
    ∃ (T : TensorSplit ℚ twoTpNodes.nNodes) (net net₁ : LlmNet), T.h = tinyHeader 1 ∧
      T.model = flatModel ∧ T.Nets net net₁ ∧
      ∀ d d₁,
        Reach (rankSystem T.h twoTpNodes rowSyncs T.rank)
          ⟨fun r => net.program [oneRowAt 0, oneRowAt 1, oneRowAt 2] r.val, fun _ _ _ _ => 0⟩ d →
        d.Finished →
        Reach (rankSystem T.h singleNode rowSyncs fun _ : Fin singleNode.nNodes => T.whole)
          ⟨fun r => net₁.program [oneRowAt 0, oneRowAt 1, oneRowAt 2] r.val, fun _ _ _ _ => 0⟩
          d₁ →
        d₁.Finished → ∀ r r₁, ∀ x < 4,
          d.mem r (.pipe .lg, 0) 0 x = d₁.mem r₁ (.pipe .lg, 0) 0 x := by
  have hnet : ∃ net, buildLlmNet (tinyHeader 1) twoTpNodes ⟨1, [], none, false, false⟩ = .ok net :=
    ⟨_, rfl⟩
  have hnet₁ : ∃ net₁, buildLlmNet (tinyHeader 1) singleNode ⟨1, [], none, false, false⟩
      = .ok net₁ := ⟨_, rfl⟩
  have hrope : ∀ r : Fin 2, ∃ rope, sliceRope .llama 4 4 2 2 4 2 0 r.val = .ok rope ∧
      rope.cacheSize.length = 4 * rope.sliceDim :=
    Fin.forall_fin_two.2 ⟨⟨_, rfl, by decide⟩, ⟨_, rfl, by decide⟩⟩
  have hwholeRope : ∃ rope, sliceRope .llama 4 4 2 1 4 2 0 0 = .ok rope ∧
      rope.cacheSize.length = 4 * rope.sliceDim := ⟨_, rfl, by decide⟩
  rcases hnet with ⟨net, hnet⟩
  rcases hnet₁ with ⟨net₁, hnet₁⟩
  choose rope hrope hcache using hrope
  rcases hwholeRope with ⟨wholeRope, hwholeRope, hwholeCache⟩
  have hsubEnd : net.subEnd 0 = 2 := by
    have hok := (buildLlmNet_eq_ok hnet).2.1
    have hoffsets : net.ppLayerOffsets = [0, 2] := (Except.ok.inj hok).symm
    rw [LlmNet.subEnd, hoffsets]
    rfl
  let T : TensorSplit ℚ twoTpNodes.nNodes :=
    { h := tinyHeader 1
      nBatches := 1
      spNoShard := false
      model := flatModel
      devices := fun _ => plainDevice
      device := plainDevice
      slices := net.slices
      wholeSlices := net₁.slices
      rope := rope
      wholeRope := wholeRope
      slicesOf := rankSlices_of_ok (buildLlmNet_eq_ok hnet).1
      wholeSlicesOf := rankSlices_of_ok (buildLlmNet_eq_ok hnet₁).1
      sliceRope_eq := hrope
      sliceRope_whole := hwholeRope
      ropeCache := hcache
      wholeRopeCache := hwholeCache
      qDim_eq := rfl
      kvDim_eq := rfl
      kvHeads_dvd := dvd_rfl
      ranks_dvd := dvd_rfl
      heads_pos := Nat.two_pos
      headDim_pos := Nat.two_pos
      blocks := fun h => absurd rfl h
      experts := fun h => by cases h }
  have hnets : T.Nets net net₁ :=
    ⟨rfl, rfl, ⟨[], hnet⟩, ⟨[], hnet₁⟩, rfl, rfl, hsubEnd ▸ Nat.two_pos⟩
  have haccepts : ∀ g ∈ [oneRowAt 0, oneRowAt 1] ++ [oneRowAt 2], T.Accepts rowSyncs g := by
    have hone : ∀ position : ℚ, ⌊position⌋₊ < 4 → T.Accepts rowSyncs (oneRowAt position) :=
      fun position h => ⟨fun _ _ => h, .inl rfl, .inl rfl⟩
    intro g hg
    simp only [List.cons_append, List.nil_append, List.mem_cons, List.not_mem_nil, or_false] at hg
    rcases hg with rfl | rfl | rfl
    · exact hone 0 (by norm_num)
    · exact hone 1 (by norm_num)
    · exact hone 2 (by norm_num)
  have hruns := T.ranks_computeLike_singleNode hnets le_rfl (fun _ => Nat.two_pos)
    [oneRowAt 0, oneRowAt 1] (oneRowAt 2) haccepts (fun _ _ _ _ => 0) (fun _ _ _ => 0)
    fun _ _ _ => ⟨fun _ _ _ => rfl, fun _ _ _ => rfl⟩
  refine ⟨T, net, net₁, rfl, rfl, hnets, fun d d₁ hd hfin hd₁ hfin₁ r r₁ x hx => ?_⟩
  exact (hruns.2.2 d d₁ hd hfin hd₁ hfin₁ r₁).1 r 0 Nat.one_pos 0 x hx

end PrefillOpt
