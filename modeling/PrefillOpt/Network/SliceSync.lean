import PrefillOpt.Network.Batched
import PrefillOpt.Network.Star

/-!
# SliceSync — the batched path against the row loop

`sync` serves a `SYNC_NODE_SLICES` either row by row, with an all-reduce of each row, or, for a
batch of two rows or more, with the chunked all-to-all of the own slices.  Decode takes the
first way and prefill the second.
-/

namespace PrefillOpt
namespace Network

open Lib

variable {β : Type}

/-! ## The row loop -/

section RowLoop

variable [Add β] (n rowBytes : Nat) (pipe : Nat → Mem β)

/-- The sum of row `b` over the nodes. -/
def pipeRowSum (b : Nat) : List β :=
  rowSum (fun i => (pipe i).slice (b * rowBytes) rowBytes) n

/-- The stores of the first `rows` turns; a row without cells is not synchronised. -/
def rowLogs (rows : Nat) : Mem.Log β :=
  (List.range rows).flatMap fun b =>
    if rowBytes = 0 then [] else [(b * rowBytes, pipeRowSum n rowBytes pipe b)]

/-- The messages of row `b`. -/
def rowRound (b : Nat) : List (GEv Port β) :=
  if rowBytes = 0 then []
  else starRound 0 n fun i => (pipe i).slice (b * rowBytes) rowBytes

variable {n rowBytes pipe}

theorem pipeRowSum_length (b : Nat) : (pipeRowSum n rowBytes pipe b).length = rowBytes :=
  rowSum_length (by simp) n

/-- The rows done so far do not reach into row `b`. -/
theorem slice_stores_rowLogs (pipe : Nat → Mem β) (m : Mem β) (b : Nat) :
    Mem.slice (fun i => m.stores (rowLogs n rowBytes pipe b) (b * rowBytes + i)) 0 rowBytes
      = m.slice (b * rowBytes) rowBytes := by
  refine Mem.slice_congr fun i _ => ?_
  rw [Nat.zero_add]
  refine Mem.stores_apply_of_forall fun w hw => ?_
  simp only [rowLogs, List.mem_flatMap, List.mem_range] at hw
  obtain ⟨b', hb', hw⟩ := hw
  split_ifs at hw
  · cases hw
  · obtain rfl := List.mem_singleton.1 hw
    have := Nat.mul_le_mul_right rowBytes (show b' + 1 ≤ b from hb')
    rw [Nat.succ_mul] at this
    simp only [pipeRowSum_length]
    omega

theorem rowLogs_succ (b : Nat) :
    rowLogs n rowBytes pipe (b + 1)
      = rowLogs n rowBytes pipe b
        ++ if rowBytes = 0 then [] else [(b * rowBytes, pipeRowSum n rowBytes pipe b)] := by
  simp [rowLogs, List.range_succ]

/-- The row call of a node in a network that is one group. -/
theorem sliceCall_rowCall {t : NnParallelTopology} (h : t.tpSize = t.nNodes) (s : SliceShape)
    {p : Party} (hp : p.1 < t.nNodes) :
    (sliceCall t s p).rowCall = memberCall 0 t.nNodes s.rowBytes p.1 p.2 := by
  obtain ⟨h₁, h₂⟩ := placement_of_whole h hp
  simp only [SliceSyncCall.rowCall, sliceCall_group s hp, h₁, h₂, memberCall, Nat.zero_add]
  rfl

theorem syncNodeSlices_star (cellBytes : Nat) {c : RowCall} (hn : ¬ c.nNodes ≤ 1)
    (buffer : Mem β) :
    syncNodeSlices cellBytes .star c buffer
      = if c.nBytes = 0 then pure [] else syncNodeSlices_starAllReduce c buffer := by
  simp [syncNodeSlices, effectiveCollective, hn]

/-- Thread 0 synchronises one row. -/
theorem trace_syncRow {cellBytes : Nat} {t : NnParallelTopology} {s : SliceShape}
    (hwhole : t.tpSize = t.nNodes) (hn : 2 ≤ t.nNodes) (hstar : s.collectiveType = .star)
    (cap : Port → Nat) (pipe : Nat → Mem β) {a : Nat} (ha : a < t.nNodes) (b : Nat) :
    Trace ((sliceCall t s (a, 0)).syncRow cellBytes (pipe a) b
        (rowLogs t.nNodes s.rowBytes pipe b))
      (view (mainNet cap) (a, 0) (rowRound t.nNodes s.rowBytes pipe b))
      (rowLogs t.nNodes s.rowBytes pipe (b + 1)) := by
  have hrow : (sliceCall t s (a, 0)).rowBytes = s.rowBytes := rfl
  have htype : (sliceCall t s (a, 0)).collectiveType = .star := hstar
  rw [SliceSyncCall.syncRow, hrow, htype, sliceCall_rowCall hwhole s ha,
    syncNodeSlices_star _ (by rw [memberCall_nNodes]; omega), rowLogs_succ, rowRound,
    show (memberCall 0 t.nNodes s.rowBytes a 0).nBytes = s.rowBytes from rfl]
  split_ifs with h0
  · simpa using Trace.ret _
  · have htrace := trace_star cap 0 hn (i := a)
      (x := fun i => (pipe i).slice (b * s.rowBytes) s.rowBytes) (by simp) ha
      (slice_stores_rowLogs (n := t.nNodes) pipe (pipe a) b)
    rw [Nat.zero_add] at htrace
    have hret := htrace.bind (f := fun stores => Prog.ret
      (rowLogs t.nNodes s.rowBytes pipe b
        ++ stores.map fun w => (b * s.rowBytes + w.1, w.2))) (.ret _)
    rw [List.append_nil] at hret
    exact hret

/-- The other threads have nothing to do. -/
theorem loop_syncRow_thread {cellBytes : Nat} {t : NnParallelTopology} {s : SliceShape}
    (hwhole : t.tpSize = t.nNodes) (hn : 2 ≤ t.nNodes) (hstar : s.collectiveType = .star)
    (pipe : Nat → Mem β) {p : Party} (hp : p.1 < t.nNodes) (hthread : p.2 ≠ 0) (rows : Nat) :
    Prog.loop ((sliceCall t s p).syncRow cellBytes (pipe p.1)) rows [] = .ret [] := by
  induction rows with
  | zero => rfl
  | succ b ih =>
      have htype : (sliceCall t s p).collectiveType = .star := hstar
      rw [Prog.loop, ih, Prog.ret_bind, SliceSyncCall.syncRow, htype,
        sliceCall_rowCall hwhole s hp, syncNodeSlices_star _ (by rw [memberCall_nNodes]; omega)]
      split_ifs
      · rfl
      · simp [syncNodeSlices_starAllReduce, memberCall, hthread]

/-- The logs of the row loop: thread 0 stores the sums. -/
def rowLoopResult (t : NnParallelTopology) (s : SliceShape) (pipe : Nat → Mem β) (p : Party) :
    Mem.Log β :=
  if (p.1 < t.nNodes ∧ p.2 < s.nThreads p.1) ∧ p.2 = 0 then
    rowLogs t.nNodes s.rowBytes pipe s.batchSize
  else []

theorem rowLoop_completes (cellBytes : Nat) {t : NnParallelTopology} {s : SliceShape}
    (hwhole : t.tpSize = t.nNodes) (hn : 2 ≤ t.nNodes) (hoff : s.batchedSyncOff = true)
    (hstar : s.collectiveType = .star) (hT : ∀ a, 0 < s.nThreads a) (cap : Port → Nat)
    (scratch : Party → Mem β × Mem β) (pipe : Nat → Mem β) :
    Completes (mainNet cap) (sliceSystem cellBytes t s scratch pipe)
      (rowLoopResult t s pipe) := by
  have hprog : ∀ p : Party, p.1 < t.nNodes →
      syncSlices cellBytes (sliceCall t s p) (scratch p).1 (scratch p).2 (pipe p.1)
        = Prog.loop ((sliceCall t s p).syncRow cellBytes (pipe p.1)) s.batchSize [] := by
    intro p hp
    obtain ⟨h₁, h₂⟩ := placement_of_whole hwhole hp
    have htp : ¬ (sliceCall t s p).declaredTpSize ≤ 1 := by
      simp only [SliceSyncCall.declaredTpSize, sliceCall, h₁, h₂]
      omega
    have hoff : (sliceCall t s p).batchedSyncOff = true := hoff
    rw [syncSlices, if_neg (fun h => htp h.2), hoff, if_neg (by simp)]
    rfl
  have hidle : ∀ p : Party, ¬ ((p.1 < t.nNodes ∧ p.2 < s.nThreads p.1) ∧ p.2 = 0) →
      (sliceSystem cellBytes t s scratch pipe).proc p = .ret (rowLoopResult t s pipe p) := by
    rintro ⟨a, th⟩ hp
    simp only [rowLoopResult, if_neg hp, sliceSystem]
    split_ifs with hmem
    · rw [hprog _ hmem.1]
      exact loop_syncRow_thread hwhole hn hstar pipe hmem.1 (fun h => hp ⟨hmem, h⟩) _
    · rfl
  refine Sched.completes
    (G := (List.range s.batchSize).flatMap (rowRound t.nNodes s.rowBytes pipe))
    (Sched.of_msgs ?_) ((List.range t.nNodes).map fun a => (a, 0)) ?_ ?_
  · intro e he
    obtain ⟨b, -, he⟩ := List.mem_flatMap.1 he
    unfold rowRound at he
    split_ifs at he
    · cases he
    · exact sched_starRound cap _ _ _ e he
  · rintro ⟨a, th⟩ hp
    refine hidle _ ?_
    rintro ⟨⟨ha, -⟩, rfl⟩
    exact hp (List.mem_map.2 ⟨a, List.mem_range.2 ha, rfl⟩)
  · rintro ⟨a, th⟩
    by_cases hp : (a < t.nNodes ∧ th < s.nThreads a) ∧ th = 0
    · obtain ⟨hmem, rfl⟩ := hp
      simp only [sliceSystem, rowLoopResult, hmem, true_and, if_true, view_flatMap,
        hprog (a, 0) hmem.1]
      exact Trace.loop (rowLogs t.nNodes s.rowBytes pipe) _ fun b _ =>
        trace_syncRow hwhole hn hstar cap pipe hmem.1 b
    · rw [hidle _ hp, view_flatMap]
      have hout : th ≠ 0 ∨ a < 0 ∨ 0 + t.nNodes ≤ a := by
        have := hT a
        by_contra hno
        push Not at hno
        exact hp ⟨⟨by omega, by omega⟩, hno.1⟩
      rw [List.flatMap_eq_nil_iff.2 fun b _ => ?_]
      · exact .ret _
      · unfold rowRound
        split_ifs
        · rfl
        · exact view_starRound_of_not_mem cap _ _ _ hout

end RowLoop

/-! ## How the runs end -/

section Ends

variable {cellBytes : Nat} {t : NnParallelTopology} {s : SliceShape}
  {scratch : Party → Mem β × Mem β} {pipe : Nat → Mem β} {d : Config Party Port β (Mem.Log β)}

/-- However a run of the batched path ends, on links of any capacity, slice `j` of every row is
the one node `j` had. -/
theorem batched_pipeAfter [Add β] (hchunk : 0 < chunkCells cellBytes)
    (hwhole : t.tpSize = t.nNodes) (hn : 2 ≤ t.nNodes) (hoff : s.batchedSyncOff = false)
    (hB : 1 < s.batchSize) (hT : ∀ a, 0 < s.nThreads a) (hdvd : t.nNodes ∣ s.rowBytes)
    {cap : Port → Nat}
    (hd : Reach (threadNet s.nThreads cap) (sliceSystem cellBytes t s scratch pipe) d)
    (hfin : d.Final) {a b e : Nat} (ha : a < t.nNodes) (hb : b < s.batchSize)
    (he : e < s.rowBytes) :
    pipeAfter s pipe d a (b * s.rowBytes + e)
      = pipe (e / (s.rowBytes / t.nNodes)) (b * s.rowBytes + e) := by
  -- with more room the run is still a run, and there the end is known
  have hroom : Reach (threadNet s.nThreads fun p => max (cap p) (chunkCells cellBytes))
      (sliceSystem cellBytes t s scratch pipe) d :=
    Reach.mono_cap (N := threadNet s.nThreads cap) rfl rfl (fun p => le_max_left _ _) hd
  have hcomp := batched_completes cellBytes hchunk hwhole hn hoff hB hT
    (fun p => max (cap p) (chunkCells cellBytes)) (fun p => le_max_right _ _) scratch pipe
  have hlog : ∀ thread ∈ List.range (s.nThreads a), resultLog d (a, thread)
      = (wholeCall t.nNodes s.rowBytes s.batchSize s.nThreads a thread).unpack
        (recvFinal cellBytes t.nNodes s.rowBytes s.batchSize s.nThreads (scratch (a, thread)).2
          (packed t.nNodes s.rowBytes pipe) a thread) := by
    intro thread hthread
    rw [resultLog_of_completes hcomp hroom hfin]
    simp only [batchedResult, ha, List.mem_range.1 hthread, and_self, if_true]
  have hmul : t.nNodes * (s.rowBytes / t.nNodes) = s.rowBytes := Nat.mul_div_cancel' hdvd
  rw [pipeAfter, List.flatMap_congr hlog,
    batched_stores hchunk ha (hT a) hb (hmul.symm ▸ he) (fun thread => (scratch (a, thread)).2)]
  split_ifs with hself
  · rw [hself]
  · have hdiv := Nat.div_add_mod e (s.rowBytes / t.nNodes)
    rw [Nat.mul_comm] at hdiv
    have hlen : 0 < s.rowBytes / t.nNodes := Nat.pos_of_ne_zero fun h => by simp [h] at hmul; omega
    rw [packed_apply (Nat.mod_lt e hlen)]
    congr 1
    omega

/-- However a run of the row loop ends, every row is the sum over the nodes. -/
theorem rowLoop_pipeAfter [AddCommMonoid β] (hwhole : t.tpSize = t.nNodes) (hn : 2 ≤ t.nNodes)
    (hoff : s.batchedSyncOff = true) (hstar : s.collectiveType = .star)
    (hT : ∀ a, 0 < s.nThreads a) {cap : Port → Nat}
    (hd : Reach (mainNet cap) (sliceSystem cellBytes t s scratch pipe) d) (hfin : d.Final)
    {a b e : Nat} (ha : a < t.nNodes) (hb : b < s.batchSize) (he : e < s.rowBytes) :
    pipeAfter s pipe d a (b * s.rowBytes + e)
      = ∑ i ∈ Finset.range t.nNodes, pipe i (b * s.rowBytes + e) := by
  have hcomp := rowLoop_completes cellBytes hwhole hn hoff hstar hT cap scratch pipe
  have hlog : ∀ thread ∈ List.range (s.nThreads a), resultLog d (a, thread)
      = if thread = 0 then rowLogs t.nNodes s.rowBytes pipe s.batchSize else [] := by
    intro thread hthread
    rw [resultLog_of_completes hcomp hd hfin]
    simp only [rowLoopResult, ha, List.mem_range.1 hthread, and_self, true_and]
  rw [pipeAfter, List.flatMap_congr hlog,
    flatMap_ite_eq List.nodup_range (List.mem_range.2 (hT a)) fun _ =>
      rowLogs t.nNodes s.rowBytes pipe s.batchSize]
  have hW : s.rowBytes ≠ 0 := by omega
  refine Mem.stores_apply_eq ?_ (.inr ⟨(b * s.rowBytes, pipeRowSum t.nNodes s.rowBytes pipe b),
    ?_, by simp only; omega, by simp only [pipeRowSum_length]; omega⟩)
  · intro w hw hle hlt
    simp only [rowLogs, List.mem_flatMap, if_neg hW, List.mem_singleton] at hw
    obtain ⟨b', -, rfl⟩ := hw
    simp only [pipeRowSum_length] at hle hlt ⊢
    obtain ⟨rfl, -⟩ := row_slice_unique (b := b) s.rowBytes b' 0
      (by omega) he (by omega) (by omega)
    have hsum := rowSum_getElem? (x := fun i => (pipe i).slice (b' * s.rowBytes) s.rowBytes)
      (v := fun i e => pipe i (b' * s.rowBytes + e))
      (fun i => by simp [Mem.slice]) (show 0 < t.nNodes by omega) he
    rw [Nat.add_sub_cancel_left]
    exact hsum
  · simp only [rowLogs, List.mem_flatMap, if_neg hW, List.mem_singleton]
    exact ⟨b, List.mem_range.2 hb, rfl⟩

end Ends

/-! ## The batched path against the sum -/

/-- Rows of exact `F_32` numbers: however a run of the batched path and a run of the row loop
end, all pipes agree on the rows of the batch, and each row is the sum over the nodes. -/
def BatchedAgrees [AddCommMonoid β] (t : NnParallelTopology) (s : SliceShape)
    (scratch : Party → Mem β × Mem β) (pipe : Nat → Mem β) : Prop :=
  ∀ cap cap' d d',
    Reach (threadNet s.nThreads cap)
      (sliceSystem 4 t { s with batchedSyncOff := false } scratch pipe) d → d.Final →
    Reach (mainNet cap')
      (sliceSystem 4 t { s with batchedSyncOff := true } scratch pipe) d' → d'.Final →
    ∀ a b e, a < t.nNodes → b < s.batchSize → e < s.rowBytes →
      pipeAfter s pipe d a (b * s.rowBytes + e) = pipeAfter s pipe d' a (b * s.rowBytes + e) ∧
      pipeAfter s pipe d a (b * s.rowBytes + e)
        = ∑ i ∈ Finset.range t.nNodes, pipe i (b * s.rowBytes + e)

/-- Both ways finish, the batched one on links that hold a chunk.  They agree exactly when, in
every slice of every row, what the nodes that do not own the slice have there adds up to zero. -/
theorem batched_agrees_iff [AddCommGroup β] (t : NnParallelTopology) (s : SliceShape)
    (hwhole : t.tpSize = t.nNodes) (hn : 2 ≤ t.nNodes) (hB : 2 ≤ s.batchSize)
    (hdvd : t.nNodes ∣ s.rowBytes) (hT : ∀ a, 0 < s.nThreads a) (hstar : s.collectiveType = .star)
    (scratch : Party → Mem β × Mem β) (pipe : Nat → Mem β) :
    (∀ cap : Port → Nat, (∀ p, chunkCells 4 ≤ cap p) → ∃ result,
      Completes (threadNet s.nThreads cap)
        (sliceSystem 4 t { s with batchedSyncOff := false } scratch pipe) result) ∧
    (∀ cap : Port → Nat, ∃ result,
      Completes (mainNet cap)
        (sliceSystem 4 t { s with batchedSyncOff := true } scratch pipe) result) ∧
    (BatchedAgrees t s scratch pipe ↔
      ∀ b e, b < s.batchSize → e < s.rowBytes →
        ∑ i ∈ (Finset.range t.nNodes).erase (e / (s.rowBytes / t.nNodes)),
          pipe i (b * s.rowBytes + e) = 0) := by
  have hchunk : 0 < chunkCells 4 := by decide
  have hbatched := fun cap hcap => batched_completes 4 (s := { s with batchedSyncOff := false })
    hchunk hwhole hn rfl hB hT cap hcap scratch pipe
  have hrows := fun cap => rowLoop_completes 4 (s := { s with batchedSyncOff := true })
    hwhole hn rfl hstar hT cap scratch pipe
  have howner : ∀ e, e < s.rowBytes →
      e / (s.rowBytes / t.nNodes) ∈ Finset.range t.nNodes := by
    intro e he
    have hmul : t.nNodes * (s.rowBytes / t.nNodes) = s.rowBytes := Nat.mul_div_cancel' hdvd
    rw [Finset.mem_range, Nat.div_lt_iff_lt_mul, hmul]
    · exact he
    · exact Nat.pos_of_ne_zero fun h => by simp [h] at hmul; omega
  refine ⟨fun cap hcap => ⟨_, hbatched cap hcap⟩, fun cap => ⟨_, hrows cap⟩, ?_⟩
  constructor
  · intro h b e hb he
    have hrun := (hbatched (fun _ => chunkCells 4) fun _ => le_rfl).reach_done
    have hrun' := (hrows fun _ => 0).reach_done
    have hfin := Completes.done_final (P := Party) (π := Port) (β := β) (ρ := Mem.Log β)
    have heq := (h _ _ _ _ hrun (hfin _) hrun' (hfin _) 0 b e (by omega) hb he).2
    have hval := batched_pipeAfter (s := { s with batchedSyncOff := false }) hchunk hwhole hn rfl
      hB hT hdvd hrun (hfin _) (a := 0) (by omega) hb he
    rw [← Finset.add_sum_erase _ _ (howner e he)] at heq
    exact left_eq_add.1 (hval.symm.trans heq)
  · intro h cap cap' d d' hd hfin hd' hfin' a b e ha hb he
    have hval := batched_pipeAfter (s := { s with batchedSyncOff := false }) hchunk hwhole hn rfl
      hB hT hdvd hd hfin ha hb he
    have hval' := rowLoop_pipeAfter (s := { s with batchedSyncOff := true }) hwhole hn rfl hstar hT
      hd' hfin' ha hb he
    have hsum : pipe (e / (s.rowBytes / t.nNodes)) (b * s.rowBytes + e)
        = ∑ i ∈ Finset.range t.nNodes, pipe i (b * s.rowBytes + e) := by
      rw [← Finset.add_sum_erase _ _ (howner e he), h b e hb he, add_zero]
    exact ⟨hval.trans (hsum.trans hval'.symm), hval.trans hsum⟩

/-- Two nodes whose rows are zero outside the own slice. -/
theorem batched_agrees_iff_two_nodes :
    BatchedAgrees ⟨2, 1, 1, 2, by decide, by decide, by decide, rfl⟩
      ⟨false, true, .star, 2, 2, fun _ => 1⟩ (fun _ => (fun _ => 0, fun _ => 0))
      (fun i e => if e % 2 = i then (5 : Int) else 0) := by
  have hzero : ∀ b < 2, ∀ e < 2, ∑ i ∈ (Finset.range 2).erase (e / (2 / 2)),
      (if (b * 2 + e) % 2 = i then (5 : Int) else 0) = 0 := by decide
  exact (batched_agrees_iff ⟨2, 1, 1, 2, by decide, by decide, by decide, rfl⟩
    ⟨false, true, .star, 2, 2, fun _ => 1⟩ rfl (by decide) (by decide) (by decide)
    (fun _ => Nat.one_pos) rfl _ _).2.2.2 fun b e hb he => hzero b hb e he

/-- Two nodes with rows of ones: the batched path leaves ones, the row loop twos. -/
theorem not_batchedAgrees_ones :
    ¬ BatchedAgrees ⟨2, 1, 1, 2, by decide, by decide, by decide, rfl⟩
      ⟨false, true, .star, 2, 2, fun _ => 1⟩ (fun _ => (fun _ => 0, fun _ => 0))
      (fun _ _ => (1 : Int)) := by
  intro h
  let t : NnParallelTopology := ⟨2, 1, 1, 2, by decide, by decide, by decide, rfl⟩
  let scratch : Party → Mem Int × Mem Int := fun _ => (fun _ => 0, fun _ => 0)
  have hrun := (batched_completes 4 (t := t) (s := ⟨false, true, .star, 2, 2, fun _ => 1⟩)
    (by decide) rfl (by decide) rfl (by decide) (fun _ => Nat.one_pos) (fun _ => chunkCells 4)
    (fun _ => le_rfl) scratch fun _ _ => (1 : Int)).reach_done
  have hrun' := (rowLoop_completes 4 (t := t) (s := ⟨true, true, .star, 2, 2, fun _ => 1⟩)
    rfl (by decide) rfl rfl (fun _ => Nat.one_pos) (fun _ => 0) scratch
    fun _ _ => (1 : Int)).reach_done
  have hfin := Completes.done_final (P := Party) (π := Port) (β := Int) (ρ := Mem.Log Int)
  have heq := (h _ _ _ _ hrun (hfin _) hrun' (hfin _) 0 0 0 (by decide) (by decide) (by decide)).2
  have hval := batched_pipeAfter (t := t) (s := ⟨false, true, .star, 2, 2, fun _ => 1⟩) (a := 0)
    (b := 0) (e := 0) (by decide) rfl (by decide) rfl (by decide) (fun _ => Nat.one_pos) (by decide)
    hrun (hfin _) (by decide) (by decide) (by decide)
  exact absurd (hval.symm.trans heq) (by decide)

end Network
end PrefillOpt
