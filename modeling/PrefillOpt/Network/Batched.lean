import Mathlib.Data.List.Nodup
import PrefillOpt.Lib.BlockSplit
import PrefillOpt.Lib.Loops
import PrefillOpt.Network.Collectives

/-!
# Batched — the chunked all-to-all of a group that is the whole network

All threads of all nodes run the same loop.  In every turn each node leaves one chunk in every
link before anybody reads, so the turn needs links that hold a chunk, and then every link is
empty again.  At the end slice `j` of every row is the one node `j` had.
-/

namespace PrefillOpt
namespace Network

open Lib

variable {β : Type}

/-! ## The call of each thread -/

/-- What the nodes share in one slice synchronisation. -/
structure SliceShape where
  batchedSyncOff : Bool
  skipTp1NoopSyncs : Bool
  collectiveType : CollectiveType
  rowBytes : Nat
  batchSize : Nat
  nThreads : Nat → Nat

/-- A `SYNC_NODE_SLICES` on one thread of one node of the topology. -/
def sliceCall (t : NnParallelTopology) (s : SliceShape) (p : Party) : SliceSyncCall where
  batchedSyncOff := s.batchedSyncOff
  skipTp1NoopSyncs := s.skipTp1NoopSyncs
  collectiveType := s.collectiveType
  exceptRoot := false
  netNodes := t.nNodes
  node := t.placement p.1
  rowBytes := s.rowBytes
  batchSize := s.batchSize
  nThreads := s.nThreads p.1
  threadIndex := p.2

/-- Every thread of every node is about to synchronise its pipe. -/
def sliceSystem [Add β] (cellBytes : Nat) (t : NnParallelTopology) (s : SliceShape)
    (scratch : Party → Mem β × Mem β) (pipe : Nat → Mem β) :
    Config Party Port β (Mem.Log β) where
  proc p :=
    if p.1 < t.nNodes ∧ p.2 < s.nThreads p.1 then
      syncSlices cellBytes (sliceCall t s p) (scratch p).1 (scratch p).2 (pipe p.1)
    else .ret []
  sent _ := []

/-- The pipe of a node once its threads have returned. -/
def pipeAfter (s : SliceShape) (pipe : Nat → Mem β) (d : Config Party Port β (Mem.Log β))
    (node : Nat) : Mem β :=
  (pipe node).stores ((List.range (s.nThreads node)).flatMap fun thread =>
    resultLog d (node, thread))

/-- The mesh as the batched path uses it: socket `s` is driven by thread `s % nThreads`. -/
def threadNet (nThreads : Nat → Nat) (cap : Port → Nat) : Net Party Port :=
  socketNet (fun p => p.2 % nThreads p.1) cap

/-- The group of every node, when there is one TP group. -/
theorem placement_of_whole {t : NnParallelTopology} (h : t.tpSize = t.nNodes) {node : Nat}
    (hnode : node < t.nNodes) :
    (t.placement node).tpGroupStart = 0 ∧ (t.placement node).tpGroupEnd = t.nNodes := by
  have h₁ := t.tpGroupEnd_le hnode
  have h₂ := t.tpGroupEnd_eq node
  omega

theorem sliceCall_group {t : NnParallelTopology} (s : SliceShape) {p : Party}
    (hp : p.1 < t.nNodes) :
    (sliceCall t s p).group = ((t.placement p.1).tpGroupStart, (t.placement p.1).tpGroupEnd) := by
  have h₁ := t.mem_tpGroup p.1
  have h₂ := t.tpGroupEnd_le hp
  have hnode : (t.placement p.1).globalRank = p.1 := rfl
  simp only [SliceSyncCall.group, sliceCall, hnode]
  rw [if_neg (by omega)]

/-! ## One thread in a network of `n` nodes -/

/-- The batched call of thread `thread` of node `a`. -/
def wholeCall (n rowBytes batchSize : Nat) (nThreads : Nat → Nat) (a thread : Nat) : BatchedCall :=
  ⟨false, n - 1, a, 0, n, rowBytes, batchSize, nThreads a, thread⟩

theorem sliceCall_batchedCall {t : NnParallelTopology} (h : t.tpSize = t.nNodes) (s : SliceShape)
    {p : Party} (hp : p.1 < t.nNodes) :
    (sliceCall t s p).batchedCall
      = wholeCall t.nNodes s.rowBytes s.batchSize s.nThreads p.1 p.2 := by
  obtain ⟨h₁, h₂⟩ := placement_of_whole h hp
  simp only [SliceSyncCall.batchedCall, sliceCall_group s hp, h₁, h₂]
  rfl

section Thread

variable {n rowBytes batchSize a thread : Nat} {nThreads : Nat → Nat}

@[simp] theorem wholeCall_nNodes :
    (wholeCall n rowBytes batchSize nThreads a thread).nNodes = n := by
  simp [wholeCall, BatchedCall.nNodes]

@[simp] theorem wholeCall_rowBytes :
    (wholeCall n rowBytes batchSize nThreads a thread).rowBytes = rowBytes := rfl

@[simp] theorem wholeCall_batchSize :
    (wholeCall n rowBytes batchSize nThreads a thread).batchSize = batchSize := rfl

@[simp] theorem wholeCall_sliceBytes :
    (wholeCall n rowBytes batchSize nThreads a thread).sliceBytes = rowBytes / n := by
  rw [BatchedCall.sliceBytes, wholeCall_nNodes]
  rfl

@[simp] theorem wholeCall_packBytes :
    (wholeCall n rowBytes batchSize nThreads a thread).packBytes
      = batchSize * (rowBytes / n) := by
  rw [BatchedCall.packBytes, wholeCall_sliceBytes]
  rfl

theorem wholeCall_nSocketsPerThread :
    (wholeCall n rowBytes batchSize nThreads a thread).nSocketsPerThread
      = blockCount (n - 1) (nThreads a) thread := rfl

/-- The slice a socket fills belongs to the node it leads to. -/
theorem wholeCall_sliceIndex (i : Nat) :
    (wholeCall n rowBytes batchSize nThreads a thread).sliceIndex i
      = socketPeer a (thread + i * nThreads a) := by
  have hlocal : (wholeCall n rowBytes batchSize nThreads a thread).localIndex = a := rfl
  have hsocket : (wholeCall n rowBytes batchSize nThreads a thread).socketIndex i
      = thread + i * nThreads a := rfl
  rw [BatchedCall.sliceIndex, hlocal, hsocket, socketPeer]
  split_ifs <;> omega

/-- The own slices of the rows of node `a`, one after the other. -/
def packed (n rowBytes : Nat) (pipe : Nat → Mem β) (a : Nat) : Mem β :=
  fun x => pipe a (x / (rowBytes / n) * rowBytes + a * (rowBytes / n) + x % (rowBytes / n))

/-- A cell lies in one slice of the packed rows only. -/
theorem packed_row (len : Nat) {b x : Nat} (h₁ : b * len ≤ x) (h₂ : x < b * len + len) :
    x / len = b ∧ x % len = x - b * len := by
  rw [Nat.div_mod_unique (show 0 < len by omega), Nat.mul_comm len]
  omega

theorem packed_apply {pipe : Nat → Mem β} {b y : Nat} (hy : y < rowBytes / n) :
    packed n rowBytes pipe a (b * (rowBytes / n) + y)
      = pipe a (b * rowBytes + a * (rowBytes / n) + y) := by
  obtain ⟨hq, hr⟩ := packed_row (rowBytes / n) (b := b) (x := b * (rowBytes / n) + y)
    (by omega) (by omega)
  simp only [packed, hq, hr, Nat.add_sub_cancel_left]

theorem pack_apply (pipe : Nat → Mem β) (sendBuf : Mem β) {x : Nat}
    (hx : x < batchSize * (rowBytes / n)) :
    (wholeCall n rowBytes batchSize nThreads a thread).pack (pipe a) sendBuf x
      = packed n rowBytes pipe a x := by
  have hlen : 0 < rowBytes / n := Nat.pos_of_ne_zero fun h => by simp [h] at hx
  have hmod := Nat.mod_lt x hlen
  have hdiv := Nat.div_add_mod x (rowBytes / n)
  rw [Nat.mul_comm] at hdiv
  have hb : x / (rowBytes / n) < batchSize := by
    rw [Nat.div_lt_iff_lt_mul hlen]
    exact hx
  have hlocal : (wholeCall n rowBytes batchSize nThreads a thread).localIndex = a := rfl
  simp only [BatchedCall.pack, wholeCall_sliceBytes, hlocal, wholeCall_rowBytes,
    wholeCall_batchSize]
  refine Mem.stores_apply_eq ?_ (.inr ⟨_, List.mem_map_of_mem (List.mem_range.2 hb), ?_, ?_⟩)
  · intro w hw hle hlt
    obtain ⟨b, -, rfl⟩ := List.mem_map.1 hw
    simp only [Mem.slice_length] at hle hlt ⊢
    obtain ⟨hq, hr⟩ := packed_row _ hle hlt
    simp only [packed, hq, hr]
    rw [List.getElem?_eq_getElem (by simp only [Mem.slice_length]; omega), Mem.slice_getElem]
  · simp only
    omega
  · simp only [Mem.slice_length]
    omega

end Thread

/-! ## Chunks -/

section Chunks

variable {c : BatchedCall} {chunk k x : Nat}

theorem chunk_end_le (h : k < c.nChunks chunk) (hchunk : 0 < chunk) :
    k * chunk + c.chunkLen chunk k ≤ c.packBytes := by
  have hk : k * chunk < c.packBytes := by
    have := Nat.mul_le_mul_right chunk (show k + 1 ≤ c.nChunks chunk from h)
    have hmul := Nat.div_mul_le_self (c.packBytes + chunk - 1) chunk
    rw [Nat.succ_mul] at this
    rw [BatchedCall.nChunks] at this
    omega
  unfold BatchedCall.chunkLen
  split_ifs <;> omega

theorem lt_chunk_end (h : x < k * chunk + chunk) (hx : x < c.packBytes) :
    x < k * chunk + c.chunkLen chunk k := by
  unfold BatchedCall.chunkLen
  split_ifs <;> omega

theorem chunkLen_le : c.chunkLen chunk k ≤ chunk := by
  unfold BatchedCall.chunkLen
  split_ifs <;> omega

theorem packBytes_le_nChunks_mul (hchunk : 0 < chunk) :
    c.packBytes ≤ c.nChunks chunk * chunk := by
  have h := Nat.lt_div_mul_add (a := c.packBytes + chunk - 1) hchunk
  rw [BatchedCall.nChunks]
  omega

/-- The receive buffer of a thread after `k` turns, when socket `i` delivers `data i`. -/
def recvAfter (c : BatchedCall) (chunk : Nat) (data : Nat → Mem β) (recvBuf : Mem β) :
    Nat → Mem β
  | 0 => recvBuf
  | k + 1 => (recvAfter c chunk data recvBuf k).stores
      ((List.range c.nSocketsPerThread).map fun i =>
        (i * c.packBytes + k * chunk, (data i).slice (k * chunk) (c.chunkLen chunk k)))

/-- What has arrived is what was sent. -/
theorem recvAfter_apply (data : Nat → Mem β) (recvBuf : Mem β) (hchunk : 0 < chunk) {i : Nat}
    (hi : i < c.nSocketsPerThread) (hx : x < c.packBytes) (hk : k ≤ c.nChunks chunk)
    (hxk : x < k * chunk) :
    recvAfter c chunk data recvBuf k (i * c.packBytes + x) = data i x := by
  induction k with
  | zero => omega
  | succ k ih =>
      have hend := chunk_end_le (show k < c.nChunks chunk from hk) hchunk
      rw [Nat.succ_mul] at hxk
      refine Mem.stores_apply_eq ?_ ?_
      · intro w hw hle hlt
        obtain ⟨i', -, rfl⟩ := List.mem_map.1 hw
        simp only [Mem.slice_length] at hle hlt ⊢
        -- the slots of the sockets do not overlap
        have hslot : i' = i := by
          rcases Nat.lt_trichotomy i' i with h | h | h
          · have := Nat.mul_le_mul_right c.packBytes (show i' + 1 ≤ i from h)
            rw [Nat.succ_mul] at this
            omega
          · exact h
          · have := Nat.mul_le_mul_right c.packBytes (show i + 1 ≤ i' from h)
            rw [Nat.succ_mul] at this
            omega
        subst hslot
        rw [List.getElem?_eq_getElem (by simp only [Mem.slice_length]; omega), Mem.slice_getElem]
        congr 2
        omega
      · rcases Nat.lt_or_ge x (k * chunk) with h | h
        · exact .inl (ih (by omega) h)
        · have hlt := lt_chunk_end hxk hx
          refine .inr ⟨_, List.mem_map_of_mem (List.mem_range.2 hi), ?_, ?_⟩
          · simp only
            omega
          · simp only [Mem.slice_length]
            omega

/-- The moves of one turn of one thread. -/
def chunkEvents (c : BatchedCall) (out : List β) (inp : Nat → List β) : List (LEv Port β) :=
  (List.range c.nSocketsPerThread).map (fun i => .out (c.nodeIndex, c.socketIndex i) out)
    ++ (List.range c.nSocketsPerThread).map fun i => .inp (c.nodeIndex, c.socketIndex i) (inp i)

theorem socketIndex_inj {i i' : Nat} (hT : 0 < c.nThreads)
    (h : c.socketIndex i = c.socketIndex i') : i = i' := by
  simp only [BatchedCall.socketIndex] at h
  exact Nat.eq_of_mul_eq_mul_right hT (by omega)

theorem trace_exchangeChunk (hT : 0 < c.nThreads) (honly : c.onlyFromWorkerToRoot = false)
    {data : Nat → Mem β} {sendBuf recvBuf : Mem β} :
    Trace (c.exchangeChunk chunk sendBuf k (recvAfter c chunk data recvBuf k))
      (chunkEvents c (sendBuf.slice (k * chunk) (c.chunkLen chunk k))
        fun i => (data i).slice (k * chunk) (c.chunkLen chunk k))
      (recvAfter c chunk data recvBuf (k + 1)) := by
  have hnodup : ((List.range c.nSocketsPerThread).map fun i =>
      ((c.nodeIndex, c.socketIndex i) : Port)).Nodup :=
    List.Nodup.map (fun i i' h => socketIndex_inj hT (congrArg Prod.snd h)) List.nodup_range
  obtain ⟨got, hgot, hread⟩ := Trace.readMany_map hnodup (fun _ => c.chunkLen chunk k)
    (fun i => (data i).slice (k * chunk) (c.chunkLen chunk k)) (by simp)
  have hstores : (List.range c.nSocketsPerThread).map
      (fun i => (i * c.packBytes + k * chunk, got (c.nodeIndex, c.socketIndex i)))
      = (List.range c.nSocketsPerThread).map fun i =>
        (i * c.packBytes + k * chunk, (data i).slice (k * chunk) (c.chunkLen chunk k)) :=
    List.map_congr_left fun i hi => by rw [hgot i hi]
  have hsend : c.doSend = true := by simp [BatchedCall.doSend, honly]
  have hrecv : c.doRecv = true := by simp [BatchedCall.doRecv, honly]
  simp only [BatchedCall.exchangeChunk, hsend, hrecv, if_true]
  refine (Trace.writeMany_map hnodup _).bind ?_
  have hret := hread.bind (f := fun got => Prog.ret ((recvAfter c chunk data recvBuf k).stores
    ((List.range c.nSocketsPerThread).map fun i =>
      (i * c.packBytes + k * chunk, got (c.nodeIndex, c.socketIndex i))))) (.ret _)
  rw [List.append_nil, hstores] at hret
  exact hret

/-- The whole call of one thread, when socket `i` delivers `data i`. -/
theorem trace_syncNodeSlicesBatched (cellBytes : Nat) (hT : 0 < c.nThreads) (hn : 1 < c.nNodes)
    (honly : c.onlyFromWorkerToRoot = false) (data : Nat → Mem β) (sendBuf recvBuf pipe : Mem β) :
    Trace (syncNodeSlicesBatched cellBytes c sendBuf recvBuf pipe)
      ((List.range (c.nChunks (chunkCells cellBytes))).flatMap fun k =>
        chunkEvents c ((c.pack pipe sendBuf).slice (k * chunkCells cellBytes)
            (c.chunkLen (chunkCells cellBytes) k))
          fun i => (data i).slice (k * chunkCells cellBytes) (c.chunkLen (chunkCells cellBytes) k))
      (c.unpack (recvAfter c (chunkCells cellBytes) data recvBuf
        (c.nChunks (chunkCells cellBytes)))) := by
  rw [syncNodeSlicesBatched, if_neg (by omega)]
  by_cases hnone : c.nSocketsPerThread = 0
  · -- a thread without sockets
    simp only [chunkEvents, hnone, BatchedCall.unpack, if_true, List.range_zero, List.map_nil,
      List.append_nil, List.flatMap_nil]
    rw [List.flatMap_eq_nil_iff.2 fun _ _ => rfl]
    exact .ret _
  · rw [if_neg hnone]
    have hsend : c.doSend = true := by simp [BatchedCall.doSend, honly]
    have hrecv : c.doRecv = true := by simp [BatchedCall.doRecv, honly]
    simp only [hsend, hrecv, if_true]
    have hloop := Trace.loop (n := c.nChunks (chunkCells cellBytes))
      (f := c.exchangeChunk (chunkCells cellBytes) (c.pack pipe sendBuf))
      (recvAfter c (chunkCells cellBytes) data recvBuf) _
      fun k _ => trace_exchangeChunk hT honly
    have hret := hloop.bind (f := fun recvBuf => Prog.ret (c.unpack recvBuf)) (.ret _)
    rw [List.append_nil] at hret
    exact hret

end Chunks

/-! ## The schedule -/

section Schedule

/-- Every port of a network of `n` nodes. -/
def allPorts (n : Nat) : List Port :=
  (List.range n).flatMap fun a => (List.range (n - 1)).map fun s => (a, s)

theorem mem_allPorts {n : Nat} {p : Port} : p ∈ allPorts n ↔ p.1 < n ∧ p.2 < n - 1 := by
  obtain ⟨a, s⟩ := p
  simp [allPorts]

theorem nodup_allPorts (n : Nat) : (allPorts n).Nodup :=
  nodup_nested List.nodup_range (fun _ => List.nodup_range) fun h => Prod.mk.inj h

theorem farEnd_mem_allPorts {n : Nat} {p : Port} (hp : p ∈ allPorts n) : farEnd p ∈ allPorts n := by
  rw [mem_allPorts] at hp ⊢
  exact ⟨socketPeer_lt hp.2,
    getSocketIndexForNode_lt (socketPeer_lt hp.2) hp.1 (socketPeer_ne _ _).symm⟩

/-- All ports of the network, as the thread that drives them sees them. -/
theorem flatMap_allPorts {τ : Type} {n a thread : Nat} {nThreads : Nat → Nat} (ha : a < n)
    (hthread : thread < nThreads a) (F : Port → List τ) :
    ((allPorts n).flatMap fun p => if (p.1, p.2 % nThreads p.1) = (a, thread) then F p else [])
      = (List.range (blockCount (n - 1) (nThreads a) thread)).flatMap fun i =>
        F (a, thread + i * nThreads a) := by
  have hnode : ∀ a' ∈ List.range n,
      (((List.range (n - 1)).map fun s => (a', s)).flatMap fun p : Port =>
        if (p.1, p.2 % nThreads p.1) = (a, thread) then F p else [])
      = if a' = a then (List.range (blockCount (n - 1) (nThreads a) thread)).flatMap fun i =>
          F (a, thread + i * nThreads a) else [] := by
    intro a' _
    rw [List.flatMap_map]
    split_ifs with h
    · subst h
      rw [← flatMap_stride hthread fun s => F (a', s)]
      exact List.flatMap_congr fun s _ => by simp
    · exact List.flatMap_eq_nil_iff.2 fun s _ => by simp [h]
  rw [allPorts, List.flatMap_assoc, List.flatMap_congr hnode]
  exact flatMap_ite_eq List.nodup_range (List.mem_range.2 ha) _

/-- One turn of everybody: all chunks are left in the links, then all are taken out. -/
def chunkRound (n : Nat) (d : Nat → List β) : List (GEv Port β) :=
  (allPorts n).map (fun p => .snd p (d p.1))
    ++ ((allPorts n).map farEnd).map fun p => .rcv p (d p.1)

theorem view_chunkRound {n a thread : Nat} {nThreads : Nat → Nat} (cap : Port → Nat) (ha : a < n)
    (hthread : thread < nThreads a) (d : Nat → List β) :
    view (threadNet nThreads cap) (a, thread) (chunkRound n d)
      = (List.range (blockCount (n - 1) (nThreads a) thread)).map
          (fun i => .out (a, thread + i * nThreads a) (d a))
        ++ (List.range (blockCount (n - 1) (nThreads a) thread)).map
          fun i =>
            .inp (a, thread + i * nThreads a) (d (socketPeer a (thread + i * nThreads a))) := by
  have hout := flatMap_allPorts ha hthread fun p => [LEv.out p (d p.1)]
  have hinp := flatMap_allPorts ha hthread fun p => [LEv.inp p (d (socketPeer p.1 p.2))]
  rw [← List.map_eq_flatMap] at hout hinp
  rw [chunkRound, view_append, ← hout, ← hinp]
  simp only [view, List.map_map, List.flatMap_map, GEv.view, threadNet, socketNet_owner,
    socketNet_peer, Function.comp_apply, farEnd_farEnd]
  rfl

theorem view_chunkRound_of_not_mem {n : Nat} {nThreads : Nat → Nat} (cap : Port → Nat) {p : Party}
    (hT : ∀ a, 0 < nThreads a) (hp : ¬ (p.1 < n ∧ p.2 < nThreads p.1)) (d : Nat → List β) :
    view (threadNet nThreads cap) p (chunkRound n d) = [] := by
  have hnot : ∀ q ∈ allPorts n, (q.1, q.2 % nThreads q.1) ≠ p := by
    rintro q hq rfl
    exact hp ⟨(mem_allPorts.1 hq).1, Nat.mod_lt _ (hT _)⟩
  rw [chunkRound, view_append]
  simp only [view, List.map_map, List.flatMap_map, GEv.view, threadNet, socketNet_owner,
    socketNet_peer, Function.comp_apply, farEnd_farEnd]
  rw [List.append_eq_nil_iff]
  exact ⟨List.flatMap_eq_nil_iff.2 fun q hq => if_neg (hnot q hq),
    List.flatMap_eq_nil_iff.2 fun q hq => if_neg (hnot q hq)⟩

theorem sched_chunkRounds {n : Nat} {nThreads : Nat → Nat} {cap : Port → Nat}
    (d : Nat → Nat → List β) (hcap : ∀ k a p, (d k a).length ≤ cap p) (l : List Nat) :
    Sched (threadNet nThreads cap) (fun _ => []) (l.flatMap fun k => chunkRound n (d k)) := by
  have hinj : Function.Injective farEnd := Function.LeftInverse.injective farEnd_farEnd
  induction l with
  | nil => rfl
  | cons k l ih =>
      rw [List.flatMap_cons, chunkRound, List.append_assoc]
      refine Sched.bulk (d := fun p => d k p.1) (allPorts n) ((allPorts n).map farEnd)
        (nodup_allPorts n) ((nodup_allPorts n).map hinj) (fun p => ?_) (fun p _ => hcap k _ _) ih
      constructor
      · intro hp
        exact List.mem_map.2 ⟨farEnd p, farEnd_mem_allPorts hp, farEnd_farEnd p⟩
      · intro hp
        obtain ⟨q, hq, rfl⟩ := List.mem_map.1 hp
        exact farEnd_mem_allPorts hq

end Schedule

/-! ## The whole network -/

section Whole

variable [Add β] {n rowBytes batchSize : Nat} {nThreads : Nat → Nat}

/-- What node `a` sends in turn `k`. -/
def chunkData (cellBytes n rowBytes batchSize : Nat) (pipe : Nat → Mem β) (k a : Nat) : List β :=
  (packed n rowBytes pipe a).slice (k * chunkCells cellBytes)
    ((wholeCall n rowBytes batchSize (fun _ => 1) a 0).chunkLen (chunkCells cellBytes) k)

/-- The receive buffer of a thread at the end, when node `b` sends `data b`. -/
def recvFinal (cellBytes n rowBytes batchSize : Nat) (nThreads : Nat → Nat) (recvBuf : Mem β)
    (data : Nat → Mem β) (a thread : Nat) : Mem β :=
  let c := wholeCall n rowBytes batchSize nThreads a thread
  recvAfter c (chunkCells cellBytes) (fun i => data (socketPeer a (thread + i * nThreads a)))
    recvBuf (c.nChunks (chunkCells cellBytes))

/-- The number of turns is the same on every thread of every node. -/
def batchedSchedule (cellBytes n rowBytes batchSize : Nat) (pipe : Nat → Mem β) :
    List (GEv Port β) :=
  (List.range ((wholeCall n rowBytes batchSize (fun _ => 1) 0 0).nChunks
      (chunkCells cellBytes))).flatMap fun k =>
    chunkRound n (chunkData cellBytes n rowBytes batchSize pipe k)

omit [Add β] in
theorem trace_batched {cellBytes a thread : Nat} (cap : Port → Nat)
    (hchunk : 0 < chunkCells cellBytes) (hn : 2 ≤ n)
    (ha : a < n) (hthread : thread < nThreads a) (sendBuf recvBuf : Mem β) (pipe : Nat → Mem β) :
    Trace (syncNodeSlicesBatched cellBytes (wholeCall n rowBytes batchSize nThreads a thread)
        sendBuf recvBuf (pipe a))
      (view (threadNet nThreads cap) (a, thread)
        (batchedSchedule cellBytes n rowBytes batchSize pipe))
      ((wholeCall n rowBytes batchSize nThreads a thread).unpack
        (recvFinal cellBytes n rowBytes batchSize nThreads recvBuf (packed n rowBytes pipe) a
          thread)) := by
  simp only [batchedSchedule, view_flatMap, view_chunkRound cap ha hthread]
  have htrace := trace_syncNodeSlicesBatched cellBytes
    (c := wholeCall n rowBytes batchSize nThreads a thread) (show 0 < nThreads a by omega)
    (by rw [wholeCall_nNodes]; omega) rfl
    (fun i => packed n rowBytes pipe (socketPeer a (thread + i * nThreads a))) sendBuf recvBuf
    (pipe a)
  -- the buffer that is sent holds the packed slices
  have hturn : ∀ k ∈ List.range ((wholeCall n rowBytes batchSize nThreads a thread).nChunks
      (chunkCells cellBytes)),
      chunkEvents (wholeCall n rowBytes batchSize nThreads a thread)
        (((wholeCall n rowBytes batchSize nThreads a thread).pack (pipe a) sendBuf).slice
          (k * chunkCells cellBytes)
          ((wholeCall n rowBytes batchSize nThreads a thread).chunkLen (chunkCells cellBytes) k))
        (fun i => (packed n rowBytes pipe (socketPeer a (thread + i * nThreads a))).slice
          (k * chunkCells cellBytes)
          ((wholeCall n rowBytes batchSize nThreads a thread).chunkLen (chunkCells cellBytes) k))
      = chunkEvents (wholeCall n rowBytes batchSize nThreads a thread)
        (chunkData cellBytes n rowBytes batchSize pipe k a) fun i =>
          chunkData cellBytes n rowBytes batchSize pipe k
            (socketPeer a (thread + i * nThreads a)) := by
    intro k hk
    have hend := chunk_end_le (List.mem_range.1 hk) hchunk
    rw [wholeCall_packBytes] at hend
    rw [Mem.slice_congr fun i hi => pack_apply pipe sendBuf (by omega)]
    rfl
  rw [List.flatMap_congr hturn] at htrace
  exact htrace

/-- All threads of all nodes call `syncNodeSlicesBatched`. -/
def batchedSystem (cellBytes n rowBytes batchSize : Nat) (nThreads : Nat → Nat)
    (scratch : Party → Mem β × Mem β) (pipe : Nat → Mem β) : Config Party Port β (Mem.Log β) where
  proc p :=
    if p.1 < n ∧ p.2 < nThreads p.1 then
      syncNodeSlicesBatched cellBytes (wholeCall n rowBytes batchSize nThreads p.1 p.2)
        (scratch p).1 (scratch p).2 (pipe p.1)
    else .ret []
  sent _ := []

def batchedLogs (cellBytes n rowBytes batchSize : Nat) (nThreads : Nat → Nat)
    (scratch : Party → Mem β × Mem β) (pipe : Nat → Mem β) (p : Party) : Mem.Log β :=
  if p.1 < n ∧ p.2 < nThreads p.1 then
    (wholeCall n rowBytes batchSize nThreads p.1 p.2).unpack
      (recvFinal cellBytes n rowBytes batchSize nThreads (scratch p).2 (packed n rowBytes pipe)
        p.1 p.2)
  else []

omit [Add β] in
/-- On links that hold a chunk all threads can play the turns one after the other. -/
theorem batched_plays (cellBytes rowBytes batchSize : Nat) (hchunk : 0 < chunkCells cellBytes)
    (hn : 2 ≤ n) (hT : ∀ a, 0 < nThreads a) (cap : Port → Nat)
    (hcap : ∀ p, chunkCells cellBytes ≤ cap p) (scratch : Party → Mem β × Mem β)
    (pipe : Nat → Mem β) :
    Plays (threadNet nThreads cap)
      (batchedSystem cellBytes n rowBytes batchSize nThreads scratch pipe)
      (batchedSchedule cellBytes n rowBytes batchSize pipe)
      ((List.range n).flatMap fun a => (List.range (nThreads a)).map fun th => (a, th))
      (batchedLogs cellBytes n rowBytes batchSize nThreads scratch pipe) := by
  refine ⟨sched_chunkRounds _ (fun k a p => ?_) _, ?_, ?_⟩
  · rw [chunkData, Mem.slice_length]
    exact chunkLen_le.trans (hcap p)
  · rintro ⟨a, th⟩ hp
    have hnot : ¬ (a < n ∧ th < nThreads a) := by simpa using hp
    simp [batchedSystem, batchedLogs, hnot]
  · rintro ⟨a, th⟩
    by_cases hp : a < n ∧ th < nThreads a
    · simp only [batchedSystem, batchedLogs, if_pos hp]
      exact trace_batched cap hchunk hn hp.1 hp.2 (scratch (a, th)).1 (scratch (a, th)).2 pipe
    · have hview : view (threadNet nThreads cap) (a, th)
          (batchedSchedule cellBytes n rowBytes batchSize pipe) = [] := by
        rw [batchedSchedule, view_flatMap]
        exact List.flatMap_eq_nil_iff.2 fun k _ => view_chunkRound_of_not_mem cap hT hp _
      simp only [batchedSystem, batchedLogs, if_neg hp, hview]
      exact .ret _

/-- The logs of the batched synchronisation. -/
def batchedResult (cellBytes : Nat) (t : NnParallelTopology) (s : SliceShape)
    (scratch : Party → Mem β × Mem β) (pipe : Nat → Mem β) (p : Party) : Mem.Log β :=
  if p.1 < t.nNodes ∧ p.2 < s.nThreads p.1 then
    (wholeCall t.nNodes s.rowBytes s.batchSize s.nThreads p.1 p.2).unpack
      (recvFinal cellBytes t.nNodes s.rowBytes s.batchSize s.nThreads (scratch p).2
        (packed t.nNodes s.rowBytes pipe) p.1 p.2)
  else []

/-- For more than one row `sync` makes the batched call, unless that is switched off. -/
theorem sliceSystem_batched (cellBytes : Nat) {t : NnParallelTopology} {s : SliceShape}
    (hwhole : t.tpSize = t.nNodes) (hn : 2 ≤ t.nNodes) (hoff : s.batchedSyncOff = false)
    (hB : 1 < s.batchSize) (scratch : Party → Mem β × Mem β) (pipe : Nat → Mem β) :
    sliceSystem cellBytes t s scratch pipe
      = batchedSystem cellBytes t.nNodes s.rowBytes s.batchSize s.nThreads scratch pipe := by
  refine Config.ext (funext fun p => ?_) rfl
  simp only [sliceSystem, batchedSystem]
  split_ifs with hp
  · rcases placement_of_whole hwhole hp.1 with ⟨h₁, h₂⟩
    have htp : ¬ (sliceCall t s p).declaredTpSize ≤ 1 := by
      simp only [SliceSyncCall.declaredTpSize, sliceCall, h₁, h₂]
      omega
    rw [syncSlices, if_neg (fun h => htp h.2), if_pos ⟨hoff, hB⟩,
      sliceCall_batchedCall hwhole s hp.1]
  · rfl

/-- On links that hold a chunk the batched synchronisation ends, whatever the interleaving of the
threads of all nodes. -/
theorem batched_completes (cellBytes : Nat) {t : NnParallelTopology} {s : SliceShape}
    (hchunk : 0 < chunkCells cellBytes) (hwhole : t.tpSize = t.nNodes) (hn : 2 ≤ t.nNodes)
    (hoff : s.batchedSyncOff = false) (hB : 1 < s.batchSize) (hT : ∀ a, 0 < s.nThreads a)
    (cap : Port → Nat) (hcap : ∀ p, chunkCells cellBytes ≤ cap p)
    (scratch : Party → Mem β × Mem β) (pipe : Nat → Mem β) :
    Completes (threadNet s.nThreads cap) (sliceSystem cellBytes t s scratch pipe)
      (batchedResult cellBytes t s scratch pipe) := by
  rw [sliceSystem_batched cellBytes hwhole hn hoff hB]
  exact (batched_plays cellBytes s.rowBytes s.batchSize hchunk hn hT cap hcap scratch pipe).completes

/-! ## What the pipes hold afterwards -/

/-- Two cells of the same row and slice. -/
theorem row_slice_unique {rowBytes b e : Nat} (len b' j : Nat) (hj : j * len + len ≤ rowBytes)
    (he : e < rowBytes) (h₁ : b' * rowBytes + j * len ≤ b * rowBytes + e)
    (h₂ : b * rowBytes + e < b' * rowBytes + j * len + len) : b' = b ∧ e / len = j := by
  have hb : b' = b := by
    rcases Nat.lt_trichotomy b' b with h | h | h
    · have := Nat.mul_le_mul_right rowBytes (show b' + 1 ≤ b from h)
      rw [Nat.succ_mul] at this
      omega
    · exact h
    · have := Nat.mul_le_mul_right rowBytes (show b + 1 ≤ b' from h)
      rw [Nat.succ_mul] at this
      omega
  subst hb
  exact ⟨rfl, (packed_row len (b := j) (x := e) (by omega) (by omega)).1⟩

omit [Add β] in
/-- A received slice, in the receive buffer of the thread whose socket it came from. -/
theorem recvFinal_apply {cellBytes a thread i b y : Nat} (hchunk : 0 < chunkCells cellBytes)
    (recvBuf : Mem β) (data : Nat → Mem β)
    (hi : i < blockCount (n - 1) (nThreads a) thread) (hb : b < batchSize)
    (hy : y < rowBytes / n) :
    recvFinal cellBytes n rowBytes batchSize nThreads recvBuf data a thread
        (i * (batchSize * (rowBytes / n)) + b * (rowBytes / n) + y)
      = data (socketPeer a (thread + i * nThreads a)) (b * (rowBytes / n) + y) := by
  have hx : b * (rowBytes / n) + y < batchSize * (rowBytes / n) := by
    have := Nat.mul_le_mul_right (rowBytes / n) (show b + 1 ≤ batchSize from hb)
    rw [Nat.succ_mul] at this
    omega
  have hpack : (wholeCall n rowBytes batchSize nThreads a thread).packBytes
      = batchSize * (rowBytes / n) := wholeCall_packBytes
  have h := recvAfter_apply (c := wholeCall n rowBytes batchSize nThreads a thread)
    (fun i => data (socketPeer a (thread + i * nThreads a))) recvBuf (x := b * (rowBytes / n) + y)
    hchunk hi (hpack ▸ hx) le_rfl
    (lt_of_lt_of_le (hpack ▸ hx) (packBytes_le_nChunks_mul hchunk))
  rw [hpack, ← Nat.add_assoc] at h
  exact h

omit [Add β] in
/-- Every store of a thread of node `a` fills one slice of one row with what the node owning that
slice sent for the row. -/
theorem mem_unpack {cellBytes a thread : Nat} {w : Nat × List β} (hthread : thread < nThreads a)
    (hchunk : 0 < chunkCells cellBytes) (recvBuf : Mem β) (data : Nat → Mem β)
    (hw : w ∈ (wholeCall n rowBytes batchSize nThreads a thread).unpack
      (recvFinal cellBytes n rowBytes batchSize nThreads recvBuf data a thread)) :
    ∃ j b, j < n ∧ j ≠ a ∧ b < batchSize ∧
      w = (b * rowBytes + j * (rowBytes / n),
        (data j).slice (b * (rowBytes / n)) (rowBytes / n)) := by
  simp only [BatchedCall.unpack, List.mem_flatMap, List.mem_range, List.mem_map,
    wholeCall_rowBytes, wholeCall_batchSize, wholeCall_sliceBytes, wholeCall_packBytes,
    wholeCall_sliceIndex] at hw
  obtain ⟨i, hi, b, hb, rfl⟩ := hw
  rw [wholeCall_nSocketsPerThread] at hi
  refine ⟨_, b, socketPeer_lt (stride_lt hthread hi), socketPeer_ne _ _, hb, ?_⟩
  rw [Mem.slice_congr fun y hy => recvFinal_apply hchunk recvBuf data hi hb hy]

omit [Add β] in
/-- Conversely every slice but the own one is filled, by the thread that drives the socket of its
owner. -/
theorem exists_mem_unpack {cellBytes a b j : Nat} (ha : a < n) (hT : 0 < nThreads a)
    (hchunk : 0 < chunkCells cellBytes) (hj : j < n) (hself : j ≠ a) (hb : b < batchSize)
    (recvBuf : Nat → Mem β) (data : Nat → Mem β) :
    (b * rowBytes + j * (rowBytes / n), (data j).slice (b * (rowBytes / n)) (rowBytes / n)) ∈
      (List.range (nThreads a)).flatMap fun thread =>
        (wholeCall n rowBytes batchSize nThreads a thread).unpack
          (recvFinal cellBytes n rowBytes batchSize nThreads (recvBuf thread) data a thread) := by
  have hsocket := getSocketIndexForNode_lt ha hj hself
  have hdecomp := Nat.mod_add_div (getSocketIndexForNode a j) (nThreads a)
  rw [Nat.mul_comm] at hdecomp
  have hi := div_lt_blockCount (n := nThreads a) hsocket
  simp only [List.mem_flatMap, List.mem_range, BatchedCall.unpack, List.mem_map,
    wholeCall_rowBytes, wholeCall_batchSize, wholeCall_sliceBytes, wholeCall_packBytes,
    wholeCall_sliceIndex]
  refine ⟨_, Nat.mod_lt _ hT, _, hi, b, hb, ?_⟩
  rw [Mem.slice_congr fun y hy => recvFinal_apply hchunk _ data hi hb hy, hdecomp,
    socketPeer_getSocketIndexForNode hself]

omit [Add β] in
/-- Slice `j` of every row is what node `j` sent, the own slice is left alone. -/
theorem batched_stores {cellBytes a b e : Nat} (hchunk : 0 < chunkCells cellBytes) (ha : a < n)
    (hT : 0 < nThreads a) (hb : b < batchSize) (he : e < n * (rowBytes / n))
    (recvBuf : Nat → Mem β) (data : Nat → Mem β) (pipe : Mem β) :
    pipe.stores ((List.range (nThreads a)).flatMap fun thread =>
        (wholeCall n rowBytes batchSize nThreads a thread).unpack
          (recvFinal cellBytes n rowBytes batchSize nThreads (recvBuf thread) data a thread))
      (b * rowBytes + e)
      = if e / (rowBytes / n) = a then pipe (b * rowBytes + e)
        else data (e / (rowBytes / n)) (b * (rowBytes / n) + e % (rowBytes / n)) := by
  have hrow := Nat.div_mul_le_self rowBytes n
  rw [Nat.mul_comm] at hrow
  have hlen0 : 0 < rowBytes / n := Nat.pos_of_ne_zero fun h => by simp [h] at he
  have hfits : ∀ j, j < n → j * (rowBytes / n) + rowBytes / n ≤ n * (rowBytes / n) := by
    intro j hj
    have := Nat.mul_le_mul_right (rowBytes / n) (show j + 1 ≤ n from hj)
    rwa [Nat.succ_mul] at this
  have hj : e / (rowBytes / n) < n := by
    rw [Nat.div_lt_iff_lt_mul hlen0]
    exact he
  have hdiv := Nat.div_add_mod e (rowBytes / n)
  rw [Nat.mul_comm] at hdiv
  have hmod := Nat.mod_lt e hlen0
  -- every store into this cell brings the value of the owner of the slice
  refine Mem.stores_apply_eq ?_ ?_
  · intro w hw hle hlt
    obtain ⟨thread, hthread, hw⟩ := List.mem_flatMap.1 hw
    obtain ⟨j, b', hj', hself, -, rfl⟩ := mem_unpack (List.mem_range.1 hthread) hchunk _ data hw
    simp only [Mem.slice_length] at hle hlt ⊢
    obtain ⟨rfl, rfl⟩ := row_slice_unique _ _ _ ((hfits _ hj').trans hrow) (by omega) hle hlt
    rw [List.getElem?_eq_getElem (by simp only [Mem.slice_length]; omega), Mem.slice_getElem,
      if_neg hself]
    congr 2
    omega
  · by_cases hself : e / (rowBytes / n) = a
    · exact .inl (by rw [if_pos hself])
    · refine .inr ⟨_, exists_mem_unpack ha hT hchunk hj hself hb recvBuf data, ?_, ?_⟩
      · simp only
        omega
      · simp only [Mem.slice_length]
        omega

end Whole

end Network
end PrefillOpt
