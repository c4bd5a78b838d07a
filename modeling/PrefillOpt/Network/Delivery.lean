import PrefillOpt.Lib.History
import PrefillOpt.Network.Batched
import PrefillOpt.Network.Ring

/-!
# Delivery — what the reads of the collectives get

The ring and the chunked all-to-all cannot deadlock, and every read takes the bytes of the write
it is meant for: block by block around the ring, and the packed slices of the peer on every socket
of the all-to-all.
-/

namespace PrefillOpt
namespace Network

open Lib

variable {β : Type}

/-! ## The ring -/

section Ring

/-- In a step a member hands one block to its successor. -/
theorem outs_ringEvents {start n i : Nat} (d : Nat → List β) :
    LEv.outs (port (start + i) (start + ringSucc n i)) (ringEvents start n d i)
      = blocks (d i) := by
  simp only [ringEvents]
  split_ifs <;> simp [LEv.outs]

/-- A member sends one chunk in every step of both phases. -/
theorem outs_ringSchedule [Add β] {n i : Nat} (start chunk : Nat) (hn : 2 ≤ n) (hi : i < n)
    (cap : Port → Nat) (buffer : Nat → Mem β) :
    ∃ data : Nat → List β, (∀ k, (data k).length = chunk) ∧
      LEv.outs (port (start + i) (start + ringSucc n i))
          (view (mainNet cap) (start + i, 0) (ringSchedule start n chunk buffer))
        = (List.range (2 * (n - 1))).flatMap fun k => blocks (data k) := by
  let scattered := reduceScatterBufs n chunk buffer
  let gathered := allGatherBufs n chunk (scattered (n - 1))
  refine ⟨fun k => if k < n - 1 then ringData n chunk k (scattered k) i
    else ringData n chunk (k - (n - 1)) (gathered (k - (n - 1))) i, fun k => ?_, ?_⟩
  · simp only [ringData]
    split_ifs <;> exact Mem.slice_length _ _ _
  · rw [Nat.two_mul, List.range_add, List.flatMap_append, List.flatMap_map]
    simp only [ringSchedule, view_append, view_flatMap, view_ringRound cap hn hi,
      LEv.outs_append, LEv.outs_flatMap, outs_ringEvents]
    congr 1
    · refine List.flatMap_congr fun k hk => ?_
      rw [if_pos (List.mem_range.mp hk)]
    · refine List.flatMap_congr fun k _ => ?_
      rw [if_neg (by omega), Nat.add_sub_cancel_left]

/-- The ring cannot deadlock, for any group, slice size and room in the links.  Its members have
then taken from the member before, block by block, what that member wrote: one block of the slice
size in each of the `2 * (n - 1)` steps. -/
theorem ring_never_stuck [Add β] (start n nBytes : Nat) (hn : 2 ≤ n) (cap : Port → Nat)
    (buffer : Nat → Mem β) :
    (∀ d, Reach (mainNet cap)
      (rowSystem syncNodeSlices_ringAllReduce start n nBytes buffer) d →
        Stuck (mainNet cap) d → d.Final) ∧
    ∀ d, Reach (mainNet cap)
      (rowSystem syncNodeSlices_ringAllReduce start n nBytes buffer).logged d → d.Final →
        ∀ i < n,
          let received := Call.taken (port (start + i) (start + ringPred n i))
            (d.history (start + i, 0))
          let sent := Call.written (port (start + ringPred n i) (start + i))
            (d.history (start + ringPred n i, 0))
          received = sent ∧ (∀ xs ∈ sent, xs.length = nBytes / n) ∧
            sent.length = if nBytes / n = 0 then 0 else 2 * (n - 1) := by
  have hplays := ring_plays start (show nBytes / n = nBytes / n from rfl) hn cap buffer
  refine ⟨fun d hd => hplays.completes.final_of_stuck hd, fun d hd hfin i hi => ?_⟩
  rcases hplays.completes_logged fun _ => rfl with ⟨calls, hcomp, hcalls⟩
  have hp := ringPred_lt hi
  have hne : start + i ≠ start + ringPred n i := by
    rw [ringPred_eq hi]
    split_ifs <;> omega
  have hsucc : ringSucc n (ringPred n i) = i := (ringSucc_eq_iff hi hp).mpr rfl
  have hlink := hcalls (port (start + ringPred n i) (start + i))
  simp only [mainNet, socketNet_owner, socketNet_peer, farEnd_port hne, port_fst] at hlink
  rcases outs_ringSchedule start (nBytes / n) hn hp cap buffer with ⟨data, hlen, hsent⟩
  rw [hsucc] at hsent
  simp only [hcomp.history_eq hd hfin]
  have hwritten := hlink.1.trans hsent
  refine ⟨hlink.2, fun xs hxs => ?_, ?_⟩
  · rw [hwritten] at hxs
    rcases List.mem_flatMap.mp hxs with ⟨k, -, hk⟩
    rw [eq_of_mem_blocks hk, hlen]
  · rw [hwritten, List.length_flatMap]
    simp only [blocks_length, hlen]
    split_ifs <;> simp

/-- Three members with one byte each on links without room. -/
theorem ring_never_stuck_three :
    (2 ≤ 3) ∧ ∀ d, Reach (mainNet fun _ => 0)
      (rowSystem syncNodeSlices_ringAllReduce 0 3 3 fun i e => (i : Int) + e) d →
        Stuck (mainNet fun _ => 0) d → d.Final :=
  ⟨by decide, (ring_never_stuck 0 3 3 (by decide) (fun _ => 0) fun i e => (i : Int) + e).1⟩

end Ring

/-! ## The chunked all-to-all -/

section Batched

variable {n a thread : Nat} {nThreads : Nat → Nat}

/-- In a turn a node leaves its chunk in the link of every socket. -/
theorem outs_chunkRound {i : Nat} (cap : Port → Nat) (ha : a < n) (hthread : thread < nThreads a)
    (hi : i < blockCount (n - 1) (nThreads a) thread) (d : Nat → List β) :
    LEv.outs (a, thread + i * nThreads a)
        (view (threadNet nThreads cap) (a, thread) (chunkRound n d)) = blocks (d a) := by
  have hT : 0 < nThreads a := by omega
  have hport : ∀ j,
      ((a, thread + j * nThreads a) : Port) = (a, thread + i * nThreads a) ↔ j = i := by
    intro j
    rw [Prod.mk.injEq, Nat.add_left_cancel_iff, Nat.mul_left_inj hT.ne']
    simp
  rw [view_chunkRound cap ha hthread, LEv.outs_append]
  simp only [LEv.outs, List.flatMap_map, hport]
  rw [flatMap_ite_eq List.nodup_range (List.mem_range.mpr hi) fun _ => blocks (d a)]
  simp

/-- The chunks put together again. -/
theorem flatMap_chunkLen (c : BatchedCall) {chunk : Nat} (hchunk : 0 < chunk) (m : Mem β) :
    ((List.range (c.nChunks chunk)).flatMap fun k => m.slice (k * chunk) (c.chunkLen chunk k))
      = m.slice 0 c.packBytes := by
  have hjoined : ∀ k ≤ c.nChunks chunk,
      ((List.range k).flatMap fun k => m.slice (k * chunk) (c.chunkLen chunk k))
        = m.slice 0 (min (k * chunk) c.packBytes) := by
    intro k hk
    induction k with
    | zero => simp
    | succ k ih =>
        have hend := chunk_end_le (show k < c.nChunks chunk from hk) hchunk
        have hlast : min ((k + 1) * chunk) c.packBytes = k * chunk + c.chunkLen chunk k := by
          simp only [BatchedCall.chunkLen] at hend ⊢
          rw [Nat.succ_mul]
          split_ifs at hend ⊢ <;> omega
        rw [List.range_succ, List.flatMap_append, ih (by omega),
          Nat.min_eq_left (by omega), hlast]
        simp [← Mem.slice_append]
  rw [hjoined _ le_rfl, Nat.min_eq_right (packBytes_le_nChunks_mul hchunk)]

/-- What a node leaves in the link of a socket in all turns are its packed slices. -/
theorem outs_batchedSchedule {cellBytes i : Nat} (rowBytes batchSize : Nat) (cap : Port → Nat)
    (hchunk : 0 < chunkCells cellBytes) (ha : a < n) (hthread : thread < nThreads a)
    (hi : i < blockCount (n - 1) (nThreads a) thread) (pipe : Nat → Mem β) :
    (LEv.outs (a, thread + i * nThreads a) (view (threadNet nThreads cap) (a, thread)
        (batchedSchedule cellBytes n rowBytes batchSize pipe))).flatten
      = (packed n rowBytes pipe a).slice 0 (batchSize * (rowBytes / n)) := by
  have hchunks := flatMap_chunkLen (wholeCall n rowBytes batchSize (fun _ => 1) a 0) hchunk
    (packed n rowBytes pipe a)
  rw [wholeCall_packBytes] at hchunks
  rw [batchedSchedule, view_flatMap, LEv.outs_flatMap]
  simp only [outs_chunkRound cap ha hthread hi, List.flatten_eq_flatMap, List.flatMap_assoc]
  simp only [← List.flatten_eq_flatMap, blocks_flatten]
  exact hchunks

/-- On links with room for 32 KiB the chunked all-to-all cannot deadlock, for any numbers of
threads, rows and bytes.  Every thread has then taken from each of its sockets the packed slices
of the node the socket leads to, which is what the thread at the other end wrote. -/
theorem batched_never_stuck (n rowBytes batchSize : Nat) (nThreads : Nat → Nat) (hn : 2 ≤ n)
    (hT : ∀ a, 0 < nThreads a) (cap : Port → Nat) (hcap : ∀ p, 32 * 1024 ≤ cap p)
    (scratch : Party → Mem β × Mem β) (pipe : Nat → Mem β) :
    (∀ d, Reach (threadNet nThreads cap)
      (batchedSystem 1 n rowBytes batchSize nThreads scratch pipe) d →
        Stuck (threadNet nThreads cap) d → d.Final) ∧
    ∀ d, Reach (threadNet nThreads cap)
      (batchedSystem 1 n rowBytes batchSize nThreads scratch pipe).logged d → d.Final →
        ∀ a < n, ∀ thread < nThreads a,
          let c := wholeCall n rowBytes batchSize nThreads a thread
          ∀ i < c.nSocketsPerThread,
            let peer := socketPeer a (c.socketIndex i)
            let received := Call.taken (a, c.socketIndex i) (d.history (a, thread))
            let sent := Call.written (port peer a)
              (d.history (peer, getSocketIndexForNode peer a % nThreads peer))
            received = sent ∧
              received.flatten = (packed n rowBytes pipe peer).slice 0 c.packBytes := by
  have hplays := batched_plays 1 rowBytes batchSize (by decide) hn hT cap hcap scratch pipe
  refine ⟨fun d hd => hplays.completes.final_of_stuck hd, ?_⟩
  intro d hd hfin a ha thread hthread c i hi peer
  rcases hplays.completes_logged fun _ => rfl with ⟨calls, hcomp, hcalls⟩
  have hsocket : c.socketIndex i < n - 1 := stride_lt hthread hi
  have hpeer : peer < n := socketPeer_lt hsocket
  have hself : a ≠ peer := (socketPeer_ne a _).symm
  -- the socket of the peer, and the thread that drives it
  have hback : getSocketIndexForNode peer a < n - 1 := getSocketIndexForNode_lt hpeer ha hself
  have hdecomp := Nat.mod_add_div (getSocketIndexForNode peer a) (nThreads peer)
  rw [Nat.mul_comm] at hdecomp
  have hsent := outs_batchedSchedule rowBytes batchSize cap
    (show 0 < chunkCells 1 by decide) hpeer (Nat.mod_lt _ (hT peer))
    (div_lt_blockCount hback) pipe
  rw [hdecomp] at hsent
  have hlink := hcalls (port peer a)
  have hfar : farEnd (port peer a) = (a, c.socketIndex i) := by
    rw [farEnd_port hself, port_socketPeer]
  have hdriver : c.socketIndex i % nThreads a = thread := by
    simp only [BatchedCall.socketIndex, wholeCall, c, Nat.add_mul_mod_self_right]
    exact Nat.mod_eq_of_lt hthread
  simp only [threadNet, socketNet_owner, socketNet_peer, hfar, hdriver] at hlink
  simp only [hcomp.history_eq hd hfin]
  refine ⟨hlink.2, ?_⟩
  rw [hlink.2]
  exact (congrArg List.flatten hlink.1).trans (hsent.trans (by rw [wholeCall_packBytes]))

/-- Three nodes with one, two and three threads, four rows of seven bytes. -/
theorem batched_never_stuck_three :
    (2 ≤ 3) ∧ ∀ d, Reach (threadNet (fun a => a + 1) fun _ => 32 * 1024)
      (batchedSystem 1 3 7 4 (fun a => a + 1) (fun _ => (fun _ => 0, fun _ => 0))
        fun i e => i + e) d →
        Stuck (threadNet (fun a => a + 1) fun _ => 32 * 1024) d → d.Final :=
  ⟨by decide, (batched_never_stuck 3 7 4 (fun a => a + 1) (by decide) (fun a => a.succ_pos)
    (fun _ => 32 * 1024) (fun _ => le_rfl) (fun _ => (fun _ => 0, fun _ => 0))
    fun i e => i + e).1⟩

end Batched

end Network
end PrefillOpt
