import PrefillOpt.Graph.ShardedOps
import PrefillOpt.Network.RootSync

/-!
# TensorSyncs — what the syncs of a tensor parallel group do to the pipes of the ranks

A sync is a run of `sync` on all threads of all nodes, over the rows of the pipe as they lie in
memory.  Where it goes row by row, the summands of the ranks become copies, and so does what only
the root has.
-/

namespace PrefillOpt

open Lib Network

/-! ## The row-wise path -/

namespace Network

variable {β : Type}

theorem effectiveCollective_of_small {cellBytes : Nat} {c : RowCall} {type : CollectiveType}
    (h : c.nNodes < 8) : effectiveCollective cellBytes c type = .star := by
  have hsmall : ¬ 8 ≤ c.nNodes := not_le.2 h
  cases type with
  | auto => simp [effectiveCollective, hsmall]
  | star => simp [effectiveCollective]
  | ring => simp [effectiveCollective, hsmall]

theorem syncNodeSlices_eq_star [Add β] {cellBytes : Nat} {c : RowCall} {type : CollectiveType}
    (h : type = .star ∨ c.nNodes < 8) (buffer : Mem β) :
    syncNodeSlices cellBytes type c buffer = syncNodeSlices cellBytes .star c buffer := by
  rcases h with rfl | hsmall
  · rfl
  · rw [syncNodeSlices, syncNodeSlices, effectiveCollective_of_small hsmall,
      effectiveCollective_of_small hsmall]

/-- One row at a time, through the root of the group: the batched path needs two rows, and the ring
eight nodes. -/
structure RowWise (t : NnParallelTopology) (s : SliceShape) : Prop where
  rows : s.batchedSyncOff = true ∨ s.batchSize ≤ 1
  star : s.collectiveType = .star ∨ t.nNodes < 8

/-- The call that goes row by row whatever the batch. -/
def SliceSyncCall.rowWise (c : SliceSyncCall) : SliceSyncCall :=
  { c with batchedSyncOff := true, collectiveType := .star }

def SliceShape.rowWise (s : SliceShape) : SliceShape :=
  { s with batchedSyncOff := true, collectiveType := .star }

theorem syncSlices_rowWise [Add β] {cellBytes : Nat} {c : SliceSyncCall}
    (hrows : c.batchedSyncOff = true ∨ c.batchSize ≤ 1)
    (hstar : c.collectiveType = .star ∨ c.rowCall.nNodes < 8) (sendBuf recvBuf pipe : Mem β) :
    syncSlices cellBytes c sendBuf recvBuf pipe
      = syncSlices cellBytes c.rowWise sendBuf recvBuf pipe := by
  -- neither call takes the batched path
  have hpath : ¬ (c.batchedSyncOff = false ∧ 1 < c.batchSize) := by
    rintro ⟨hoff, hbatch⟩
    rcases hrows with hrows | hrows
    · exact absurd (hoff.symm.trans hrows) Bool.false_ne_true
    · omega
  have hpath' : ¬ (c.rowWise.batchedSyncOff = false ∧ 1 < c.rowWise.batchSize) :=
    fun h => Bool.noConfusion h.1
  have hrow : c.syncRow cellBytes pipe = c.rowWise.syncRow cellBytes pipe := by
    funext batchIndex log
    simp only [SliceSyncCall.syncRow, syncNodeSlices_eq_star hstar]
    rfl
  rw [syncSlices, syncSlices, if_neg hpath, if_neg hpath', hrow]
  rfl

theorem RowWise.sliceSystem_eq [Add β] {t : NnParallelTopology} {s : SliceShape}
    (h : RowWise t s) (hwhole : t.tpSize = t.nNodes) (cellBytes : Nat)
    (scratch : Party → Mem β × Mem β) (pipe : Nat → Mem β) :
    sliceSystem cellBytes t s scratch pipe = sliceSystem cellBytes t s.rowWise scratch pipe := by
  unfold sliceSystem
  congr 1
  funext p
  -- parties that do not exist have nothing to do on either side
  by_cases hp : p.1 < t.nNodes ∧ p.2 < s.nThreads p.1
  · have hp' : p.1 < t.nNodes ∧ p.2 < s.rowWise.nThreads p.1 := hp
    have hgroup : (sliceCall t s p).rowCall.nNodes = t.nNodes := by
      rw [sliceCall_rowCall hwhole s hp.1, memberCall_nNodes]
    rw [if_pos hp, if_pos hp', syncSlices_rowWise h.rows (h.star.imp_right (hgroup.symm ▸ ·))]
    rfl
  · have hp' : ¬ (p.1 < t.nNodes ∧ p.2 < s.rowWise.nThreads p.1) := hp
    rw [if_neg hp, if_neg hp']

/-- The links as the path uses them. -/
def sliceNet (s : SliceShape) (cap : Port → Nat) : Net Party Port :=
  if s.batchedSyncOff = false ∧ 1 < s.batchSize then threadNet s.nThreads cap else mainNet cap

theorem RowWise.sliceNet_eq {t : NnParallelTopology} {s : SliceShape} (h : RowWise t s)
    (cap : Port → Nat) : sliceNet s cap = mainNet cap := by
  refine if_neg ?_
  rintro ⟨hoff, hbatch⟩
  rcases h.rows with hrows | hrows
  · exact absurd (hoff.symm.trans hrows) Bool.false_ne_true
  · omega

end Network

/-! ## Syncs and memories -/

/-- The switches and the threads of the nodes, and the room on their links. -/
structure SyncOptions where
  batchedSyncOff : Bool
  skipTp1NoopSyncs : Bool
  collectiveType : CollectiveType
  nThreads : Nat → Nat
  cap : Port → Nat

/-- The columns of a pipe. -/
def pipeWidth (h : LlmHeader) : PipeIndex → Nat
  | .pos => 1
  | .tok => 1
  | .x => h.dim
  | .lg => h.vocabSize
  | .zq => h.dim

def SyncOptions.shape (o : SyncOptions) (h : LlmHeader) (batchSize : Nat) (pipe : PipeIndex) :
    SliceShape :=
  ⟨o.batchedSyncOff, o.skipTp1NoopSyncs, o.collectiveType, pipeWidth h pipe, batchSize, o.nThreads⟩

section Meets

variable {F : Type} {n : Nat}

/-- The rows of a slot of a pipe, as they lie in the memory of a node. -/
def pipeRows [Zero F] (width : Nat) (s : Fin n → NnMemory (BatchRow F)) (pipe : PipeIndex)
    (z node : Nat) : Mem F :=
  if h : node < n then fun i => s ⟨node, h⟩ (.pipe pipe, i / width) z (i % width) else fun _ => 0

/-- The memories after the rows of a pipe have been replaced. -/
def storeRows (width batchSize : Nat) (s : Fin n → NnMemory (BatchRow F)) (pipe : PipeIndex)
    (rows : Nat → Nat → Mem F) (r : Fin n) : NnMemory (BatchRow F) :=
  fun row z x =>
    if row.1 = .pipe pipe ∧ row.2 < batchSize ∧ x < width then rows z r.val (row.2 * width + x)
    else s r row z x

/-- How a sync of all ranks can end.  A pipe has one slot; the others go the same way. -/
def SyncMeets [AddCommMonoid F] (h : LlmHeader) (t : NnParallelTopology) (o : SyncOptions)
    (batchSize : Nat) (sync : NnSyncConfig) (s s' : Fin n → NnMemory (BatchRow F)) : Prop :=
  let shape := o.shape h batchSize sync.pipeIndex
  let rows := pipeRows shape.rowBytes s sync.pipeIndex
  ∃ d : Nat → Config Party Port F (Mem.Log F),
    (∀ z, (d z).Final ∧
      match sync.syncType with
      | .nodeSlices => ∃ scratch,
          Reach (sliceNet shape o.cap) (sliceSystem 4 t shape scratch (rows z)) (d z)
      | .withRoot => Reach (threadNet o.nThreads o.cap) (rootSystem t shape (rows z)) (d z)
      | _ => False) ∧
    s' = storeRows shape.rowBytes batchSize s sync.pipeIndex fun z => pipeAfter shape (rows z) (d z)

/-- The syncs of a segment, one after the other. -/
def SyncsMeet [AddCommMonoid F] (h : LlmHeader) (t : NnParallelTopology) (o : SyncOptions)
    (batchSize : Nat) : List NnSyncConfig → (Fin n → NnMemory (BatchRow F)) →
      (Fin n → NnMemory (BatchRow F)) → Prop
  | [], s, s' => s' = s
  | sync :: syncs, s, s' =>
      ∃ s₁, SyncMeets h t o batchSize sync s s₁ ∧ SyncsMeet h t o batchSize syncs s₁ s'

end Meets

/-! ## How they end -/

section Ends

variable {F : Type} [AddCommMonoid F] {h : LlmHeader} {t : NnParallelTopology} {o : SyncOptions}
  {batchSize : Nat} {pipe : PipeIndex} {s s' : Fin t.nNodes → NnMemory (BatchRow F)}

theorem pipeRows_apply {width b z x : Nat} (r : Fin t.nNodes) (hx : x < width) :
    pipeRows width s pipe z r.val (b * width + x) = s r (.pipe pipe, b) z x := by
  have hw : 0 < width := by omega
  rw [pipeRows, dif_pos r.isLt, Nat.mul_comm b width, Nat.mul_add_div hw, Nat.mul_add_mod,
    Nat.div_eq_of_lt hx, Nat.mod_eq_of_lt hx, Nat.add_zero]

variable (hwhole : t.tpSize = t.nNodes) (hn : 2 ≤ t.nNodes) (hT : ∀ a, 0 < o.nThreads a)
include hwhole hn hT

/-- A row-wise all-reduce leaves the sum of the rows everywhere. -/
theorem nodeSlices_apply (hrow : RowWise t (o.shape h batchSize pipe))
    (hmeet : SyncMeets h t o batchSize ⟨pipe, .nodeSlices, none, 0, 0, 0⟩ s s') (r : Fin t.nNodes)
    {b x : Nat} (hb : b < batchSize) (hx : x < pipeWidth h pipe) (z : Nat) :
    s' r (.pipe pipe, b) z x = ∑ i, s i (.pipe pipe, b) z x := by
  rcases hmeet with ⟨d, hd, rfl⟩
  rcases hd z with ⟨hfin, scratch, hreach⟩
  rw [hrow.sliceNet_eq, hrow.sliceSystem_eq hwhole] at hreach
  have hsum := rowLoop_pipeAfter hwhole hn rfl rfl hT hreach hfin r.isLt hb hx
  rw [Finset.sum_range] at hsum
  rw [storeRows, if_pos ⟨rfl, hb, hx⟩]
  refine hsum.trans (Finset.sum_congr rfl fun i _ => ?_)
  exact pipeRows_apply i hx

/-- The row of the root gets everywhere. -/
theorem withRoot_apply
    (hmeet : SyncMeets h t o batchSize ⟨pipe, .withRoot, none, 0, 0, 0⟩ s s') (r : Fin t.nNodes)
    {b x : Nat} (hb : b < batchSize) (hx : x < pipeWidth h pipe) (z : Nat) :
    s' r (.pipe pipe, b) z x = s ⟨0, by omega⟩ (.pipe pipe, b) z x := by
  rcases hmeet with ⟨d, hd, rfl⟩
  rcases hd z with ⟨hfin, hreach⟩
  rw [storeRows, if_pos ⟨rfl, hb, hx⟩]
  refine (root_pipeAfter hwhole hn hT hreach hfin r.isLt hb hx).trans ?_
  exact pipeRows_apply ⟨0, by omega⟩ hx

omit hwhole hn hT in
theorem sync_other {sync : NnSyncConfig} (hmeet : SyncMeets h t o batchSize sync s s')
    (r : Fin t.nNodes) {source : NnPointerSource} (hsource : source ≠ .pipe sync.pipeIndex)
    (b : Nat) : s' r (source, b) = s r (source, b) := by
  rcases hmeet with ⟨d, -, rfl⟩
  funext z x
  exact if_neg fun hrow => hsource hrow.1

/-- A sync of the graph can take place, whatever is in the pipes. -/
theorem exists_nodeSlices (hrow : RowWise t (o.shape h batchSize pipe))
    (s : Fin t.nNodes → NnMemory (BatchRow F)) :
    ∃ s', SyncMeets h t o batchSize ⟨pipe, .nodeSlices, none, 0, 0, 0⟩ s s' := by
  have hcomp := fun z => rowLoop_completes 4 (s := (o.shape h batchSize pipe).rowWise) hwhole hn rfl
    rfl hT o.cap (fun _ => (fun _ => 0, fun _ => 0))
    (pipeRows (pipeWidth h pipe) s pipe z)
  refine ⟨_, fun z => .done (rowLoopResult t (o.shape h batchSize pipe).rowWise
    (pipeRows (pipeWidth h pipe) s pipe z)), fun z => ⟨Completes.done_final _,
    fun _ => (fun _ => 0, fun _ => 0), ?_⟩, rfl⟩
  rw [hrow.sliceNet_eq, hrow.sliceSystem_eq hwhole]
  exact (hcomp z).reach_done

theorem exists_withRoot (s : Fin t.nNodes → NnMemory (BatchRow F)) :
    ∃ s', SyncMeets h t o batchSize ⟨pipe, .withRoot, none, 0, 0, 0⟩ s s' := by
  have hcomp := fun z => root_completes (s := o.shape h batchSize pipe) hwhole hn hT o.cap
    (pipeRows (pipeWidth h pipe) s pipe z)
  exact ⟨_, fun z => _, fun z => ⟨Completes.done_final _, (hcomp z).reach_done⟩, rfl⟩

end Ends

end PrefillOpt
