import PrefillOpt.Lib.Exec
import PrefillOpt.Network.Delivery

/-!
# TpGroup — which nodes the batched synchronisation talks to

Each thread walks the sockets of its node, and there is one to every other node of the network.
The slice a socket fills skips the own one in the order of the group.
-/

namespace PrefillOpt
namespace Network

open Lib

/-! ## One thread against fixed incoming data -/

section Thread

variable {β : Type} {c : BatchedCall}

/-- The thread exchanges data with this port. -/
def BatchedCall.Drives (c : BatchedCall) (p : Port) : Prop :=
  ∃ i < c.nSocketsPerThread, (c.nodeIndex, c.socketIndex i) = p

instance (c : BatchedCall) (p : Port) : Decidable (c.Drives p) :=
  inferInstanceAs (Decidable (∃ i < c.nSocketsPerThread, (c.nodeIndex, c.socketIndex i) = p))

/-- The loop over the sockets of a thread, seen from one of them. -/
theorem flatMap_sockets {τ : Type} (hT : 0 < c.nThreads) {i : Nat} (hi : i < c.nSocketsPerThread)
    (F : Nat → List τ) :
    ((List.range c.nSocketsPerThread).flatMap fun j =>
      if ((c.nodeIndex, c.socketIndex j) : Port) = (c.nodeIndex, c.socketIndex i) then F j else [])
      = F i := by
  have hport : ∀ j ∈ List.range c.nSocketsPerThread,
      (if ((c.nodeIndex, c.socketIndex j) : Port) = (c.nodeIndex, c.socketIndex i) then F j else [])
        = if j = i then F j else [] := by
    intro j _
    by_cases hij : j = i
    · simp [hij]
    · rw [if_neg hij, if_neg fun h => hij (socketIndex_inj hT (congrArg Prod.snd h))]
  rw [List.flatMap_congr hport]
  exact flatMap_ite_eq List.nodup_range (List.mem_range.2 hi) F

theorem outs_chunkEvents (hT : 0 < c.nThreads) (p : Port) (out : List β) (inp : Nat → List β) :
    outs p (chunkEvents c out inp) = if c.Drives p then out else [] := by
  have hinp : outs p ((List.range c.nSocketsPerThread).map fun i =>
      LEv.inp ((c.nodeIndex, c.socketIndex i) : Port) (inp i)) = [] := by
    simp [outs]
  rw [chunkEvents, outs_append, hinp, List.append_nil, outs, List.flatMap_map]
  split_ifs with hp
  · obtain ⟨i, hi, rfl⟩ := hp
    exact flatMap_sockets hT hi fun _ => out
  · exact List.flatMap_eq_nil_iff.2 fun i hi =>
      if_neg fun h => hp ⟨i, List.mem_range.1 hi, h⟩

theorem ins_chunkEvents (hT : 0 < c.nThreads) (p : Port) (out : List β) (inp : Port → List β) :
    ins p (chunkEvents c out fun i => inp (c.nodeIndex, c.socketIndex i))
      = if c.Drives p then inp p else [] := by
  have hout : ins p ((List.range c.nSocketsPerThread).map fun i =>
      LEv.out ((c.nodeIndex, c.socketIndex i) : Port) out) = [] := by
    simp [ins]
  rw [chunkEvents, ins_append, hout, List.nil_append, ins, List.flatMap_map]
  split_ifs with hp
  · obtain ⟨i, hi, rfl⟩ := hp
    exact flatMap_sockets hT hi fun j => inp (c.nodeIndex, c.socketIndex j)
  · exact List.flatMap_eq_nil_iff.2 fun i hi =>
      if_neg fun h => hp ⟨i, List.mem_range.1 hi, h⟩

/-- The call sends its packed slices to every socket of its thread and takes as much from each. -/
theorem exec_syncNodeSlicesBatched {cellBytes : Nat} (hchunk : 0 < chunkCells cellBytes)
    (hT : 0 < c.nThreads) (hn : 1 < c.nNodes) (honly : c.onlyFromWorkerToRoot = false)
    (sendBuf recvBuf pipe : Mem β) (inc : Port → Mem β) :
    (syncNodeSlicesBatched cellBytes c sendBuf recvBuf pipe).exec inc
      = ⟨fun p => if c.Drives p then (c.pack pipe sendBuf).slice 0 c.packBytes else [],
        fun p => if c.Drives p then c.packBytes else 0,
        c.unpack (recvAfter c (chunkCells cellBytes)
          (fun i => inc (c.nodeIndex, c.socketIndex i)) recvBuf
          (c.nChunks (chunkCells cellBytes)))⟩ := by
  have htrace := trace_syncNodeSlicesBatched cellBytes hT hn honly
    (fun i => inc (c.nodeIndex, c.socketIndex i)) sendBuf recvBuf pipe
  have hins : ∀ p, ins p ((List.range (c.nChunks (chunkCells cellBytes))).flatMap fun k =>
      chunkEvents c ((c.pack pipe sendBuf).slice (k * chunkCells cellBytes)
          (c.chunkLen (chunkCells cellBytes) k))
        fun i => (inc (c.nodeIndex, c.socketIndex i)).slice (k * chunkCells cellBytes)
          (c.chunkLen (chunkCells cellBytes) k))
      = if c.Drives p then (inc p).slice 0 c.packBytes else [] := by
    intro p
    rw [ins_flatMap, List.flatMap_congr fun k _ => ins_chunkEvents hT p _ fun q =>
      (inc q).slice (k * chunkCells cellBytes) (c.chunkLen (chunkCells cellBytes) k)]
    split_ifs
    · exact flatMap_chunkLen c hchunk (inc p)
    · exact List.flatMap_eq_nil_iff.2 fun _ _ => rfl
  rw [htrace.exec_eq fun p => by rw [hins]; split_ifs <;> simp]
  refine Outcome.ext (funext fun p => ?_) (funext fun p => ?_) rfl
  · simp only [outs_flatMap, outs_chunkEvents hT]
    split_ifs
    · exact flatMap_chunkLen c hchunk _
    · exact List.flatMap_eq_nil_iff.2 fun _ _ => rfl
  · simp only [hins]
    split_ifs <;> simp

end Thread

/-! ## The threads of one node -/

variable (t : NnParallelTopology) (s : SliceShape)

/-- What one thread of a node does in a `SYNC_NODE_SLICES`, byte by byte. -/
def threadOutcome (node : Nat) (scratch : Nat → Mem UInt8 × Mem UInt8) (pipe : Mem UInt8)
    (inc : Port → Mem UInt8) (thread : Nat) : Outcome Port UInt8 (Mem.Log UInt8) :=
  (syncSlices 1 (sliceCall t s (node, thread)) (scratch thread).1 (scratch thread).2 pipe).exec inc

/-- The synchronisation of one node stays inside its TP group. -/
structure StaysInGroup (node : Nat) (scratch : Nat → Mem UInt8 × Mem UInt8) (pipe : Mem UInt8)
    (inc : Port → Mem UInt8) : Prop where
  /-- The node sends to the other members of its group and to nobody else. -/
  sends : ∀ peer, peer ≠ node →
    ((∃ thread < s.nThreads node,
        (threadOutcome t s node scratch pipe inc thread).sent (port node peer) ≠ []) ↔
      (t.placement node).tpGroupStart ≤ peer ∧ peer < (t.placement node).tpGroupEnd)
  /-- The node receives from the other members of its group and from nobody else. -/
  receives : ∀ peer, peer ≠ node →
    ((∃ thread < s.nThreads node,
        (threadOutcome t s node scratch pipe inc thread).taken (port node peer) ≠ 0) ↔
      (t.placement node).tpGroupStart ≤ peer ∧ peer < (t.placement node).tpGroupEnd)
  /-- Every byte is written in the first `batchSize` rows. -/
  bounds : ∀ thread < s.nThreads node,
    ∀ w ∈ (threadOutcome t s node scratch pipe inc thread).result,
      ∀ x, w.1 ≤ x → x < w.1 + w.2.length → x < s.batchSize * s.rowBytes
  /-- Slice `i` of every row is what the member with local index `i` sent for it. -/
  slices : ∀ b i y, b < s.batchSize → i < t.tpSize → y < s.rowBytes / t.tpSize →
    pipe.stores ((List.range (s.nThreads node)).flatMap fun thread =>
        (threadOutcome t s node scratch pipe inc thread).result)
      (b * s.rowBytes + i * (s.rowBytes / t.tpSize) + y)
      = if i = (t.placement node).tpRank then
          pipe (b * s.rowBytes + i * (s.rowBytes / t.tpSize) + y)
        else inc (port node ((t.placement node).tpGroupStart + i))
          (b * (s.rowBytes / t.tpSize) + y)

variable {t s} {node : Nat} (scratch : Nat → Mem UInt8 × Mem UInt8) (pipe : Mem UInt8)
  (inc : Port → Mem UInt8)

theorem sliceCall_nNodes {thread : Nat} (hnode : node < t.nNodes) :
    (sliceCall t s (node, thread)).batchedCall.nNodes = t.tpSize := by
  simp only [BatchedCall.nNodes, SliceSyncCall.batchedCall,
    sliceCall_group s (show (node, thread).1 < t.nNodes from hnode), t.tpGroupEnd_eq]
  omega

theorem sliceCall_packBytes {thread : Nat} (hnode : node < t.nNodes) :
    (sliceCall t s (node, thread)).batchedCall.packBytes
      = s.batchSize * (s.rowBytes / t.tpSize) := by
  rw [BatchedCall.packBytes, BatchedCall.sliceBytes, sliceCall_nNodes hnode]
  rfl

/-- The threads of a node share out the sockets to all other nodes of the network. -/
theorem exists_drives_iff (hT : 0 < s.nThreads node) (hnode : node < t.nNodes) {peer : Nat}
    (hpeer : peer ≠ node) :
    (∃ thread < s.nThreads node,
      (sliceCall t s (node, thread)).batchedCall.Drives (port node peer)) ↔ peer < t.nNodes := by
  constructor
  · rintro ⟨thread, hthread, i, hi, hport⟩
    have hsocket : thread + i * s.nThreads node = getSocketIndexForNode node peer :=
      congrArg Prod.snd hport
    have hi : i < blockCount (t.nNodes - 1) (s.nThreads node) thread := hi
    have hlt := stride_lt hthread hi
    rw [← socketPeer_getSocketIndexForNode hpeer, ← hsocket]
    exact socketPeer_lt hlt
  · intro hlt
    have hsocket := getSocketIndexForNode_lt hnode hlt hpeer
    have hdecomp := Nat.mod_add_div (getSocketIndexForNode node peer) (s.nThreads node)
    rw [Nat.mul_comm] at hdecomp
    exact ⟨_, Nat.mod_lt _ hT, _, div_lt_blockCount hsocket, Prod.ext rfl hdecomp⟩

theorem threadOutcome_eq (htp : 2 ≤ t.tpSize) (hB : 2 ≤ s.batchSize)
    (hT : 0 < s.nThreads node) (hoff : s.batchedSyncOff = false) (hnode : node < t.nNodes)
    (thread : Nat) :
    threadOutcome t s node scratch pipe inc thread
      = ⟨fun p => if (sliceCall t s (node, thread)).batchedCall.Drives p then
            ((sliceCall t s (node, thread)).batchedCall.pack pipe (scratch thread).1).slice 0
              (s.batchSize * (s.rowBytes / t.tpSize))
          else [],
        fun p => if (sliceCall t s (node, thread)).batchedCall.Drives p then
            s.batchSize * (s.rowBytes / t.tpSize) else 0,
        (sliceCall t s (node, thread)).batchedCall.unpack
          (recvAfter (sliceCall t s (node, thread)).batchedCall (chunkCells 1)
            (fun i => inc (node, thread + i * s.nThreads node)) (scratch thread).2
            ((sliceCall t s (node, thread)).batchedCall.nChunks (chunkCells 1)))⟩ := by
  have hskip : ¬ (sliceCall t s (node, thread)).declaredTpSize ≤ 1 := by
    have h : (sliceCall t s (node, thread)).declaredTpSize
      = (t.placement node).tpGroupEnd - (t.placement node).tpGroupStart := rfl
    rw [h, t.tpGroupEnd_eq]
    omega
  rw [threadOutcome, syncSlices, if_neg fun h => hskip h.2, if_pos ⟨hoff, hB⟩,
    exec_syncNodeSlicesBatched (by decide) hT (by rw [sliceCall_nNodes hnode]; omega) rfl,
    sliceCall_packBytes hnode]
  rfl

/-- A node sends to every other node of the network as soon as a slice has a byte, and takes as
much from it. -/
theorem exists_sent_iff (htp : 2 ≤ t.tpSize) (hB : 2 ≤ s.batchSize)
    (hT : 0 < s.nThreads node) (hoff : s.batchedSyncOff = false) (hnode : node < t.nNodes)
    {peer : Nat} (hpeer : peer ≠ node) :
    ((∃ thread < s.nThreads node,
        (threadOutcome t s node scratch pipe inc thread).sent (port node peer) ≠ []) ↔
      peer < t.nNodes ∧ t.tpSize ≤ s.rowBytes) ∧
    ((∃ thread < s.nThreads node,
        (threadOutcome t s node scratch pipe inc thread).taken (port node peer) ≠ 0) ↔
      peer < t.nNodes ∧ t.tpSize ≤ s.rowBytes) := by
  have hbytes : s.batchSize * (s.rowBytes / t.tpSize) ≠ 0 ↔ t.tpSize ≤ s.rowBytes := by
    rw [Nat.mul_ne_zero_iff, Nat.div_ne_zero_iff]
    omega
  have hlist : ∀ m : Mem UInt8, m.slice 0 (s.batchSize * (s.rowBytes / t.tpSize)) ≠ [] ↔
      t.tpSize ≤ s.rowBytes := by
    intro m
    rw [← hbytes, ← List.length_pos_iff, Mem.slice_length, Nat.pos_iff_ne_zero]
  simp only [threadOutcome_eq scratch pipe inc htp hB hT hoff hnode, ne_eq, ite_eq_right_iff,
    Classical.not_imp,
    hbytes, hlist, ← exists_drives_iff hT hnode hpeer]
  constructor <;> exact ⟨fun ⟨thread, hthread, hp, hle⟩ => ⟨⟨thread, hthread, hp⟩, hle⟩,
    fun ⟨⟨thread, hthread, hp⟩, hle⟩ => ⟨thread, hthread, hp, hle⟩⟩

/-! ## One group -/

/-- The result of a thread, when the group is the network. -/
theorem threadOutcome_result (htp : 2 ≤ t.tpSize) (hB : 2 ≤ s.batchSize)
    (hT : 0 < s.nThreads node) (hoff : s.batchedSyncOff = false) (hnode : node < t.nNodes)
    (hwhole : t.tpSize = t.nNodes) (thread : Nat) :
    (threadOutcome t s node scratch pipe inc thread).result
      = (wholeCall t.nNodes s.rowBytes s.batchSize s.nThreads node thread).unpack
        (recvFinal 1 t.nNodes s.rowBytes s.batchSize s.nThreads (scratch thread).2
          (fun j => inc (port node j)) node thread) := by
  rw [threadOutcome_eq scratch pipe inc htp hB hT hoff hnode,
    sliceCall_batchedCall hwhole s (show (node, thread).1 < t.nNodes from hnode)]
  simp only [recvFinal, port_socketPeer]

/-- The batched synchronisation stays inside the TP group exactly when this is the whole network
and a row has a byte for every member. -/
theorem staysInGroup_iff (t : NnParallelTopology) (s : SliceShape) (htp : 2 ≤ t.tpSize)
    (hB : 2 ≤ s.batchSize) (hoff : s.batchedSyncOff = false) {node : Nat}
    (hnode : node < t.nNodes) (hT : 0 < s.nThreads node)
    (scratch : Nat → Mem UInt8 × Mem UInt8) (pipe : Mem UInt8) (inc : Port → Mem UInt8) :
    StaysInGroup t s node scratch pipe inc ↔ t.tpSize = t.nNodes ∧ t.tpSize ≤ s.rowBytes := by
  have hends := t.tpGroupEnd_le hnode
  have hend := t.tpGroupEnd_eq node
  have hmem := t.mem_tpGroup node
  constructor
  · intro h
    -- another member of the group shows that a slice has a byte
    have hmember : ∃ peer, peer ≠ node ∧ (t.placement node).tpGroupStart ≤ peer ∧
        peer < (t.placement node).tpGroupEnd := by
      by_cases hfirst : node = (t.placement node).tpGroupStart
      · exact ⟨node + 1, by omega, by omega, by omega⟩
      · exact ⟨(t.placement node).tpGroupStart, by omega, by omega, by omega⟩
    obtain ⟨peer, hpeer, hgroup⟩ := hmember
    have hrow := ((exists_sent_iff scratch pipe inc htp hB hT hoff hnode hpeer).1.1
      ((h.sends peer hpeer).2 hgroup)).2
    refine ⟨?_, hrow⟩
    -- a node outside the group gets something all the same
    by_contra hne
    have houtside : ∃ peer < t.nNodes, ¬ ((t.placement node).tpGroupStart ≤ peer ∧
        peer < (t.placement node).tpGroupEnd) := by
      by_cases hstart : (t.placement node).tpGroupStart = 0
      · exact ⟨(t.placement node).tpGroupEnd, by omega, by omega⟩
      · exact ⟨0, t.nNodes_pos, by omega⟩
    obtain ⟨peer, hlt, hout⟩ := houtside
    have hpeer : peer ≠ node := by
      rintro rfl
      exact hout hmem
    exact hout ((h.sends peer hpeer).1
      ((exists_sent_iff scratch pipe inc htp hB hT hoff hnode hpeer).1.2 ⟨hlt, hrow⟩))
  · rintro ⟨hwhole, hrow⟩
    obtain ⟨hstart, hend⟩ := placement_of_whole hwhole hnode
    have hresult := threadOutcome_result scratch pipe inc htp hB hT
      hoff hnode hwhole
    have hrank : (t.placement node).tpRank = node := by
      have := t.tpGroupStart_add_tpRank node
      omega
    refine ⟨fun peer hpeer => ?_, fun peer hpeer => ?_, ?_, ?_⟩
    · rw [(exists_sent_iff scratch pipe inc htp hB hT hoff hnode hpeer).1, hstart, hend]
      omega
    · rw [(exists_sent_iff scratch pipe inc htp hB hT hoff hnode hpeer).2, hstart, hend]
      omega
    · intro thread hthread w hw x _ hx
      rw [hresult] at hw
      obtain ⟨j, b, hj, -, hb, rfl⟩ := mem_unpack hthread (by decide) _ _ hw
      rw [Mem.slice_length] at hx
      have hslice := Nat.mul_le_mul_right (s.rowBytes / t.nNodes) (show j + 1 ≤ t.nNodes from hj)
      have hrows := Nat.mul_le_mul_right s.rowBytes (show b + 1 ≤ s.batchSize from hb)
      have hdiv := Nat.div_mul_le_self s.rowBytes t.nNodes
      rw [Nat.mul_comm] at hdiv
      rw [Nat.succ_mul] at hslice hrows
      omega
    · intro b i y hb hi hy
      rw [hwhole] at hi hy ⊢
      have hslice := Nat.mul_le_mul_right (s.rowBytes / t.nNodes) (show i + 1 ≤ t.nNodes from hi)
      rw [Nat.succ_mul] at hslice
      obtain ⟨hq, hr⟩ := packed_row (s.rowBytes / t.nNodes) (b := i)
        (x := i * (s.rowBytes / t.nNodes) + y) (by omega) (by omega)
      rw [List.flatMap_congr fun thread _ => hresult thread, Nat.add_assoc,
        batched_stores (by decide) hnode hT hb (by omega) (fun thread => (scratch thread).2), hq,
        hr, hrank, hstart, Nat.zero_add, Nat.add_sub_cancel_left]

/-- Two nodes in one group, rows of two bytes. -/
theorem staysInGroup_two_nodes :
    StaysInGroup ⟨2, 1, 1, 2, by decide, by decide, by decide, rfl⟩
      ⟨false, true, .auto, 2, 2, fun _ => 1⟩ 0 (fun _ => (fun _ => 0, fun _ => 0)) (fun _ => 0)
      fun _ _ => 0 :=
  (staysInGroup_iff ⟨2, 1, 1, 2, by decide, by decide, by decide, rfl⟩
    ⟨false, true, .auto, 2, 2, fun _ => 1⟩ (by decide) (by decide) rfl (by decide) Nat.one_pos
    _ _ _).2 ⟨rfl, by decide⟩

/-- Two pipeline stages of two nodes each: node 0 also sends to node 2. -/
theorem not_staysInGroup_two_stages :
    ¬ StaysInGroup ⟨4, 2, 1, 2, by decide, by decide, by decide, rfl⟩
      ⟨false, true, .auto, 2, 2, fun _ => 1⟩ 0 (fun _ => (fun _ => 0, fun _ => 0)) (fun _ => 0)
      fun _ _ => 0 := by
  intro h
  have hsent := (exists_sent_iff (t := ⟨4, 2, 1, 2, by decide, by decide, by decide, rfl⟩)
    (s := ⟨false, true, .auto, 2, 2, fun _ => 1⟩) (fun _ => (fun _ => 0, fun _ => 0)) (fun _ => 0)
    (fun _ _ => 0) (by decide) (by decide) Nat.one_pos rfl (show 0 < 4 by decide)
    (show 2 ≠ 0 by decide)).1.2 ⟨by decide, by decide⟩
  exact absurd ((h.sends 2 (by decide)).1 hsent) (by decide)

end Network
end PrefillOpt
