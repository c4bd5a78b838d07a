import PrefillOpt.Network.SliceSync

/-!
# RootSync — the row of the root on every node

`syncWithRoot` of `nn-network.cpp` and the loop of `sync` around it.  The threads of the root share
its sockets among them, and thread 0 of a worker waits for the row.
-/

namespace PrefillOpt
namespace Network

open Lib

variable {β : Type}

/-- The arguments of `syncWithRoot` on one thread, but for the buffer. -/
structure RootCall where
  /-- `network->nSockets` -/
  networkSockets : Nat
  nodeIndex : Nat
  nBytes : Nat
  nThreads : Nat
  threadIndex : Nat
  deriving DecidableEq, Repr

def RootCall.nSocketsPerThread (c : RootCall) : Nat :=
  c.networkSockets / c.nThreads + if c.threadIndex < c.networkSockets % c.nThreads then 1 else 0

def syncWithRoot (c : RootCall) (buffer : Mem β) : Prog Port β (Mem.Log β) :=
  if c.nodeIndex = 0 then
    if c.nSocketsPerThread = 0 then pure []
    else do
      Prog.writeMany ((List.range c.nSocketsPerThread).map fun i =>
        ((0, c.threadIndex + i * c.nThreads), buffer.slice 0 c.nBytes))
      pure []
  else if c.threadIndex ≠ 0 then pure []
  else do
    let xs ← Prog.read1 (c.nodeIndex, 0) c.nBytes
    pure [(0, xs)]

namespace SliceSyncCall

variable (c : SliceSyncCall)

def rootCall : RootCall where
  networkSockets := c.netNodes - 1
  nodeIndex := c.node.globalRank
  nBytes := c.rowBytes
  nThreads := c.nThreads
  threadIndex := c.threadIndex

/-- One turn of the row loop, on the row as the stores so far have left it. -/
def syncRootRow (pipe : Mem β) (batchIndex : Nat) (log : Mem.Log β) :
    Prog Port β (Mem.Log β) := do
  let pipeBatch : Mem β := fun i => pipe.stores log (batchIndex * c.rowBytes + i)
  let stores ← syncWithRoot c.rootCall pipeBatch
  pure (log ++ stores.map fun w => (batchIndex * c.rowBytes + w.1, w.2))

end SliceSyncCall

/-- `sync` for a `SYNC_WITH_ROOT`; it never takes the batched path. -/
def syncRoot (c : SliceSyncCall) (pipe : Mem β) : Prog Port β (Mem.Log β) :=
  if c.skipTp1NoopSyncs = true ∧ c.declaredTpSize ≤ 1 then pure []
  else Prog.loop (c.syncRootRow pipe) c.batchSize []

/-- Every thread of every node is about to synchronise its pipe with the root. -/
def rootSystem (t : NnParallelTopology) (s : SliceShape) (pipe : Nat → Mem β) :
    Config Party Port β (Mem.Log β) where
  proc p :=
    if p.1 < t.nNodes ∧ p.2 < s.nThreads p.1 then syncRoot (sliceCall t s p) (pipe p.1)
    else .ret []
  sent _ := []

/-! ## The messages -/

section Round

variable (rowBytes : Nat) (pipe : Nat → Mem β)

/-- The row of the root, cell by cell. -/
def rootRow (b : Nat) : List β := (pipe 0).slice (b * rowBytes) rowBytes

/-- What thread 0 of a node stores in the first `rows` turns. -/
def rootLogs (node rows : Nat) : Mem.Log β :=
  if node = 0 then [] else (List.range rows).map fun b => (b * rowBytes, rootRow rowBytes pipe b)

/-- The messages of row `b`, one through each socket of the root. -/
def rootRound (n b : Nat) : List (GEv Port β) :=
  (List.range (n - 1)).map fun w => .msg (0, w) (rootRow rowBytes pipe b)

variable {rowBytes pipe} {nThreads : Nat → Nat} (cap : Port → Nat)

theorem farEnd_root (w : Nat) : farEnd (0, w) = (w + 1, 0) := by
  simp [farEnd, socketPeer, port, getSocketIndexForNode]

/-- A message of the root is its own thread's and thread 0's of one worker. -/
theorem view_rootMsg (w : Nat) (xs : List β) (p : Party) :
    (GEv.msg ((0, w) : Port) xs).view (threadNet nThreads cap) p
      = if ((0, w % nThreads 0) : Party) = p then [.out (0, w) xs]
        else if ((w + 1, 0) : Party) = p then [.inp (w + 1, 0) xs] else [] := by
  simp only [GEv.view, threadNet, socketNet_owner, socketNet_peer, farEnd_root, Nat.zero_mod]

theorem view_rootRound_root {n b thread : Nat} (hthread : thread < nThreads 0) :
    view (threadNet nThreads cap) (0, thread) (rootRound rowBytes pipe n b)
      = (List.range (blockCount (n - 1) (nThreads 0) thread)).map fun i =>
          .out (0, thread + i * nThreads 0) (rootRow rowBytes pipe b) := by
  have hstride := flatMap_stride (m := n - 1) hthread fun w =>
    [LEv.out ((0, w) : Port) (rootRow rowBytes pipe b)]
  rw [← List.map_eq_flatMap] at hstride
  rw [rootRound, view, List.flatMap_map, ← hstride]
  refine List.flatMap_congr fun w _ => ?_
  rw [view_rootMsg]
  simp

theorem view_rootRound_worker {n b w : Nat} (hw : w + 1 < n) :
    view (threadNet nThreads cap) (w + 1, 0) (rootRound rowBytes pipe n b)
      = [.inp (w + 1, 0) (rootRow rowBytes pipe b)] := by
  rw [rootRound, view, List.flatMap_map]
  have hone : ∀ w' ∈ List.range (n - 1),
      (GEv.msg ((0, w') : Port) (rootRow rowBytes pipe b)).view (threadNet nThreads cap) (w + 1, 0)
        = if w' = w then [.inp (w + 1, 0) (rootRow rowBytes pipe b)] else [] := by
    intro w' _
    rw [view_rootMsg]
    rcases eq_or_ne w' w with rfl | hne
    · simp
    · simp [hne]
  rw [List.flatMap_congr hone]
  exact flatMap_ite_eq List.nodup_range (List.mem_range.2 (by omega)) fun _ =>
    [LEv.inp ((w + 1, 0) : Port) (rootRow rowBytes pipe b)]

/-- Nobody else takes part. -/
theorem view_rootRound_of_not_mem {n b : Nat} {p : Party} (hT : ∀ a, 0 < nThreads a)
    (hp : ¬ (p.1 < n ∧ p.2 < nThreads p.1 ∧ (p.1 = 0 ∨ p.2 = 0))) :
    view (threadNet nThreads cap) p (rootRound rowBytes pipe n b) = [] := by
  rw [rootRound, view, List.flatMap_map]
  refine List.flatMap_eq_nil_iff.2 fun w hw => ?_
  have hw := List.mem_range.1 hw
  rw [view_rootMsg, if_neg, if_neg]
  · rintro rfl
    exact hp ⟨by simp only; omega, hT _, .inr rfl⟩
  · rintro rfl
    exact hp ⟨by simp only; omega, Nat.mod_lt _ (hT 0), .inl rfl⟩

end Round

/-! ## The traces of the threads -/

section Traces

variable {t : NnParallelTopology} {s : SliceShape} (cap : Port → Nat) (pipe : Nat → Mem β)

theorem rootLogs_succ (rowBytes node b : Nat) :
    rootLogs rowBytes pipe node (b + 1) = rootLogs rowBytes pipe node b
      ++ if node = 0 then [] else [(b * rowBytes, rootRow rowBytes pipe b)] := by
  unfold rootLogs
  split_ifs
  · rfl
  · rw [List.range_succ, List.map_append]
    rfl

/-- A thread of the root hands the row to each of its sockets. -/
theorem trace_syncRootRow_root {thread : Nat} (hthread : thread < s.nThreads 0) (b : Nat) :
    Trace ((sliceCall t s (0, thread)).syncRootRow (pipe 0) b [])
      (view (threadNet s.nThreads cap) (0, thread) (rootRound s.rowBytes pipe t.nNodes b)) [] := by
  have hT : 0 < s.nThreads 0 := by omega
  have hrank : (sliceCall t s (0, thread)).rootCall.nodeIndex = 0 := rfl
  have hcount : (sliceCall t s (0, thread)).rootCall.nSocketsPerThread
      = blockCount (t.nNodes - 1) (s.nThreads 0) thread := rfl
  have hrow : Mem.slice (fun i => (pipe 0).stores [] (b * s.rowBytes + i)) 0 s.rowBytes
      = rootRow s.rowBytes pipe b := by
    refine Mem.slice_congr fun i _ => ?_
    rw [Nat.zero_add]
    rfl
  rw [view_rootRound_root cap hthread, SliceSyncCall.syncRootRow, syncWithRoot, if_pos hrank,
    hcount]
  split_ifs with hnone
  · rw [hnone]
    exact .ret _
  -- one write of the row through each socket of the thread
  · have hnodup : ((List.range (blockCount (t.nNodes - 1) (s.nThreads 0) thread)).map fun i =>
        ((0, thread + i * s.nThreads 0) : Port)).Nodup := by
      refine List.Nodup.map (fun i i' h => ?_) List.nodup_range
      have hsocket := congrArg Prod.snd h
      exact Nat.eq_of_mul_eq_mul_right hT (by simpa using hsocket)
    have hwrite := Trace.writeMany_map hnodup fun _ => rootRow s.rowBytes pipe b
    have hret := hwrite.bind (f := fun _ => Prog.ret ([] : Mem.Log β)) (.ret _)
    rw [List.append_nil] at hret
    have hdone := hret.bind (f := fun stores => Prog.ret
      ([] ++ stores.map fun w => (b * s.rowBytes + w.1, w.2))) (.ret _)
    rw [List.append_nil] at hdone
    have hprog : (sliceCall t s (0, thread)).rootCall.nBytes = s.rowBytes := rfl
    rw [hprog]
    have hbuf : (sliceCall t s (0, thread)).rowBytes = s.rowBytes := rfl
    rw [hbuf, hrow]
    exact hdone

/-- Thread 0 of a worker takes the row. -/
theorem trace_syncRootRow_worker {w : Nat} (hw : w + 1 < t.nNodes) (b : Nat) :
    Trace ((sliceCall t s (w + 1, 0)).syncRootRow (pipe (w + 1)) b
        (rootLogs s.rowBytes pipe (w + 1) b))
      (view (threadNet s.nThreads cap) (w + 1, 0) (rootRound s.rowBytes pipe t.nNodes b))
      (rootLogs s.rowBytes pipe (w + 1) (b + 1)) := by
  have hrank : ¬ (sliceCall t s (w + 1, 0)).rootCall.nodeIndex = 0 := Nat.succ_ne_zero w
  have hthread : ¬ (sliceCall t s (w + 1, 0)).rootCall.threadIndex ≠ 0 := fun h => h rfl
  rw [view_rootRound_worker cap hw, rootLogs_succ, if_neg (Nat.succ_ne_zero w),
    SliceSyncCall.syncRootRow, syncWithRoot, if_neg hrank, if_neg hthread]
  have hlength : (rootRow s.rowBytes pipe b).length = s.rowBytes := by simp [rootRow]
  have hread := Trace.read1 (a := ((w + 1, 0) : Port)) hlength
  have hret := hread.bind (f := fun xs => Prog.ret [(0, xs)]) (.ret _)
  rw [List.append_nil] at hret
  have hdone := hret.bind (f := fun stores => Prog.ret (rootLogs s.rowBytes pipe (w + 1) b
    ++ stores.map fun w => (b * s.rowBytes + w.1, w.2))) (.ret _)
  rw [List.append_nil] at hdone
  exact hdone

/-- The other threads of a worker have nothing to do. -/
theorem loop_syncRootRow_thread {p : Party} (hnode : p.1 ≠ 0) (hthread : p.2 ≠ 0) (rows : Nat) :
    Prog.loop ((sliceCall t s p).syncRootRow (pipe p.1)) rows [] = .ret [] := by
  have hrank : ¬ (sliceCall t s p).rootCall.nodeIndex = 0 := hnode
  have hindex : (sliceCall t s p).rootCall.threadIndex ≠ 0 := hthread
  induction rows with
  | zero => rfl
  | succ b ih =>
      rw [Prog.loop, ih, Prog.ret_bind, SliceSyncCall.syncRootRow, syncWithRoot, if_neg hrank,
        if_pos hindex]
      rfl

end Traces

/-! ## The whole synchronisation -/

section Whole

variable {t : NnParallelTopology} {s : SliceShape} {pipe : Nat → Mem β}

def rootResult (t : NnParallelTopology) (s : SliceShape) (pipe : Nat → Mem β) (p : Party) :
    Mem.Log β :=
  if (p.1 < t.nNodes ∧ p.2 < s.nThreads p.1) ∧ p.2 = 0 then
    rootLogs s.rowBytes pipe p.1 s.batchSize
  else []

theorem syncRoot_eq_loop (hwhole : t.tpSize = t.nNodes) (hn : 2 ≤ t.nNodes) {p : Party}
    (hp : p.1 < t.nNodes) (buffer : Mem β) :
    syncRoot (sliceCall t s p) buffer
      = Prog.loop ((sliceCall t s p).syncRootRow buffer) s.batchSize [] := by
  rcases placement_of_whole hwhole hp with ⟨h₁, h₂⟩
  have htp : ¬ (sliceCall t s p).declaredTpSize ≤ 1 := by
    simp only [SliceSyncCall.declaredTpSize, sliceCall, h₁, h₂]
    omega
  rw [syncRoot, if_neg fun h => htp h.2]
  rfl

/-- Every thread plays its part of the rounds. -/
theorem trace_syncRoot (hwhole : t.tpSize = t.nNodes) (hn : 2 ≤ t.nNodes)
    (hT : ∀ a, 0 < s.nThreads a) (cap : Port → Nat) (p : Party) :
    Trace ((rootSystem t s pipe).proc p)
      (view (threadNet s.nThreads cap) p
        ((List.range s.batchSize).flatMap (rootRound s.rowBytes pipe t.nNodes)))
      (rootResult t s pipe p) := by
  rcases p with ⟨node, thread⟩
  have hidle (hnot : ¬ (node < t.nNodes ∧ thread < s.nThreads node ∧ (node = 0 ∨ thread = 0))) :
      view (threadNet s.nThreads cap) (node, thread)
        ((List.range s.batchSize).flatMap (rootRound s.rowBytes pipe t.nNodes)) = [] := by
    rw [view_flatMap]
    exact List.flatMap_eq_nil_iff.2 fun b _ => view_rootRound_of_not_mem cap hT hnot
  by_cases hmem : node < t.nNodes ∧ thread < s.nThreads node
  · have hprog := syncRoot_eq_loop (s := s) hwhole hn (p := (node, thread)) hmem.1 (pipe node)
    simp only [rootSystem, rootResult, if_pos hmem, hprog]
    rcases node with _ | w
    · -- the root stores nothing
      rw [view_flatMap, rootLogs, if_pos rfl, ite_self]
      exact Trace.loop (fun _ => []) _ fun b _ =>
        trace_syncRootRow_root (t := t) cap pipe hmem.2 b
    -- thread 0 of a worker reads its rows, the other threads skip the loop
    · by_cases hthread : thread = 0
      · subst hthread
        rw [view_flatMap, if_pos ⟨hmem, rfl⟩]
        have hloop := Trace.loop (n := s.batchSize)
          (f := (sliceCall t s (w + 1, 0)).syncRootRow (pipe (w + 1)))
          (rootLogs s.rowBytes pipe (w + 1)) _
          fun b _ => trace_syncRootRow_worker cap pipe hmem.1 b
        exact hloop
      · rw [hidle (by simp [hthread]), if_neg fun h => hthread h.2,
          loop_syncRootRow_thread (p := (w + 1, thread)) pipe (Nat.succ_ne_zero w) hthread]
        exact .ret _
  · rw [hidle (fun h => hmem ⟨h.1, h.2.1⟩)]
    simp only [rootSystem, rootResult, if_neg hmem, if_neg fun h => hmem (And.left h)]
    exact .ret _

/-- On links of any capacity the synchronisation ends, whatever the interleaving. -/
theorem root_completes (hwhole : t.tpSize = t.nNodes) (hn : 2 ≤ t.nNodes)
    (hT : ∀ a, 0 < s.nThreads a) (cap : Port → Nat) (pipe : Nat → Mem β) :
    Completes (threadNet s.nThreads cap) (rootSystem t s pipe) (rootResult t s pipe) := by
  refine Sched.completes
    (G := (List.range s.batchSize).flatMap (rootRound s.rowBytes pipe t.nNodes))
    (Sched.of_msgs fun e he => ?_)
    ((List.range t.nNodes).flatMap fun a => (List.range (s.nThreads a)).map fun th => (a, th))
    ?_ (trace_syncRoot hwhole hn hT cap)
  · rcases List.mem_flatMap.1 he with ⟨b, -, he⟩
    rcases List.mem_map.1 he with ⟨w, -, rfl⟩
    exact ⟨_, _, rfl, owner_ne_owner_peer _ _ _⟩
  · rintro ⟨node, thread⟩ hp
    have hnot : ¬ (node < t.nNodes ∧ thread < s.nThreads node) := by simpa using hp
    simp [rootSystem, rootResult, hnot]

/-- However a run ends, every node has the row of the root. -/
theorem root_pipeAfter (hwhole : t.tpSize = t.nNodes) (hn : 2 ≤ t.nNodes)
    (hT : ∀ a, 0 < s.nThreads a) {cap : Port → Nat} {d : Config Party Port β (Mem.Log β)}
    (hd : Reach (threadNet s.nThreads cap) (rootSystem t s pipe) d) (hfin : d.Final)
    {a b e : Nat} (ha : a < t.nNodes) (hb : b < s.batchSize) (he : e < s.rowBytes) :
    pipeAfter s pipe d a (b * s.rowBytes + e) = pipe 0 (b * s.rowBytes + e) := by
  have hcomp := root_completes hwhole hn hT cap pipe
  have hlog : ∀ thread ∈ List.range (s.nThreads a), resultLog d (a, thread)
      = if thread = 0 then rootLogs s.rowBytes pipe a s.batchSize else [] := by
    intro thread hthread
    rw [resultLog_of_completes hcomp hd hfin]
    simp only [rootResult, ha, List.mem_range.1 hthread, and_self, true_and]
  rw [pipeAfter, List.flatMap_congr hlog,
    flatMap_ite_eq List.nodup_range (List.mem_range.2 (hT a)) fun _ =>
      rootLogs s.rowBytes pipe a s.batchSize, rootLogs]
  split_ifs with hroot
  -- the root keeps its row; on a worker the store of turn `b` covers the cell
  · rw [hroot]
    rfl
  · refine Mem.stores_apply_eq ?_ (.inr ⟨(b * s.rowBytes, rootRow s.rowBytes pipe b),
      List.mem_map.2 ⟨b, List.mem_range.2 hb, rfl⟩, by simp only; omega,
      by simp only [rootRow, Mem.slice_length]; omega⟩)
    intro w hw hle hlt
    rcases List.mem_map.1 hw with ⟨b', -, rfl⟩
    simp only [rootRow, Mem.slice_length] at hle hlt ⊢
    rw [List.getElem?_eq_getElem (by simp only [Mem.slice_length]; omega), Mem.slice_getElem]
    congr 2
    omega

end Whole

end Network
end PrefillOpt
