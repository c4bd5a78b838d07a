import Mathlib.Tactic.Abel
import PrefillOpt.Network.Star

/-!
# Ring — reduce-scatter and all-gather around a ring

In every step each member hands one chunk to its successor and takes one from its predecessor;
members of even local index send first, the others receive first.  The steps with the even senders
in increasing order and then the odd ones are one complete schedule, for an odd group as well:
there the last member and member 0 are both even, and member 0 sends long before it receives.

The second phase starts from the same chunk as the first, so what it passes around is the chunk
each member has not touched yet.
-/

namespace PrefillOpt
namespace Network

open Lib

variable {β : Type}

/-! ## Positions on the ring -/

theorem mod_of_lt_two_mul {x n : Nat} (h : x < 2 * n) :
    x % n = if x < n then x else x - n := by
  split_ifs with hx
  · exact Nat.mod_eq_of_lt hx
  · rw [Nat.mod_eq_sub_mod (by omega), Nat.mod_eq_of_lt (by omega)]

/-- The member after local index `i`. -/
def ringSucc (n i : Nat) : Nat := (i + 1) % n

/-- The member before local index `i`. -/
def ringPred (n i : Nat) : Nat := (i + n - 1) % n

/-- The chunk member `i` sends in a step. -/
def sendChunk (n i step : Nat) : Nat := (i + n - step) % n

section Positions

variable {n i j step : Nat}

theorem ringSucc_eq (hi : i < n) : ringSucc n i = if i + 1 < n then i + 1 else 0 := by
  rw [ringSucc, mod_of_lt_two_mul (by omega)]
  split_ifs <;> omega

theorem ringPred_eq (hi : i < n) : ringPred n i = if i = 0 then n - 1 else i - 1 := by
  rw [ringPred, mod_of_lt_two_mul (by omega)]
  split_ifs <;> omega

theorem sendChunk_eq (hi : i < n) (hs : step < n) :
    sendChunk n i step = if step ≤ i then i - step else i + n - step := by
  rw [sendChunk, mod_of_lt_two_mul (by omega)]
  split_ifs <;> omega

theorem ringPred_lt (hi : i < n) : ringPred n i < n :=
  Nat.mod_lt _ (by omega)

theorem sendChunk_lt (hn : 0 < n) : sendChunk n i step < n :=
  Nat.mod_lt _ hn

theorem ringSucc_eq_iff (hi : i < n) (hj : j < n) : ringSucc n j = i ↔ j = ringPred n i := by
  rw [ringSucc_eq hj, ringPred_eq hi]
  split_ifs <;> omega

/-- What the predecessor sends is what is received: the chunk one further back. -/
theorem sendChunk_ringPred (hi : i < n) (hs : step + 1 < n) :
    sendChunk n (ringPred n i) step = (i + n - step - 1) % n := by
  rw [sendChunk_eq (ringPred_lt hi) (by omega), ringPred_eq hi, mod_of_lt_two_mul (by omega)]
  split_ifs <;> omega

end Positions

/-! ## The messages of one step -/

/-- The order in which the members of a step are served. -/
def ringOrder (n : Nat) : List Nat :=
  (List.range n).filter (fun i => i % 2 = 0) ++ (List.range n).filter (fun i => i % 2 = 1)

/-- Each member `i` hands `d i` to its successor. -/
def ringRound (start n : Nat) (d : Nat → List β) : List (GEv Port β) :=
  (ringOrder n).map fun i => send (start + i) (start + ringSucc n i) (d i)

/-- What member `i` does in a step. -/
def ringEvents (start n : Nat) (d : Nat → List β) (i : Nat) : List (LEv Port β) :=
  let out := LEv.out (port (start + i) (start + ringSucc n i)) (d i)
  let inp := LEv.inp (port (start + i) (start + ringPred n i)) (d (ringPred n i))
  if i % 2 = 0 then [out, inp] else [inp, out]

/-- Among the senders of one parity, walked in increasing order, a member meets itself and its
predecessor. -/
private theorem flatMap_parity {τ : Type} {n i r : Nat} (hi : i < n) (O I : List τ)
    (hpred : ringPred n i ≠ i) (hlast : i % 2 = r → ringPred n i % 2 = r → i = 0) :
    (((List.range n).filter fun j => j % 2 = r).flatMap fun j =>
        if j = i then O else if j = ringPred n i then I else [])
      = (if i % 2 = r then O else []) ++ (if ringPred n i % 2 = r then I else []) := by
  have hp := ringPred_lt hi
  have hnodup : ((List.range n).filter fun j => j % 2 = r).Nodup := List.nodup_range.filter _
  by_cases hir : i % 2 = r
  · by_cases hpr : ringPred n i % 2 = r
    · -- both have this parity, so `i` is 0 and stands first
      have h0 := hlast hir hpr
      subst h0
      obtain ⟨m, rfl⟩ : ∃ m, n = m + 1 := ⟨n - 1, by omega⟩
      have hcons : ((List.range (m + 1)).filter fun j => j % 2 = r)
          = 0 :: ((List.range m).map (· + 1)).filter fun j => j % 2 = r := by
        rw [List.range_succ_eq_map, List.filter_cons_of_pos (by simpa using hir)]
      rw [hcons] at hnodup ⊢
      rw [List.flatMap_cons, if_pos rfl, if_pos hir, if_pos hpr]
      congr 1
      have hmem : ringPred (m + 1) 0 ∈ ((List.range m).map (· + 1)).filter fun j => j % 2 = r := by
        simp only [List.mem_filter, List.mem_map, List.mem_range, decide_eq_true_eq]
        exact ⟨⟨ringPred (m + 1) 0 - 1, by omega, by omega⟩, hpr⟩
      refine Eq.trans (List.flatMap_congr fun j hj => ?_)
        (flatMap_ite_eq (List.nodup_cons.1 hnodup).2 hmem fun _ => I)
      have hj0 : j ≠ 0 := ne_of_mem_of_not_mem hj (List.nodup_cons.1 hnodup).1
      rw [if_neg hj0]
    · rw [if_pos hir, if_neg hpr, List.append_nil]
      refine Eq.trans (List.flatMap_congr fun j hj => ?_)
        (flatMap_ite_eq hnodup (by simpa using ⟨hi, hir⟩) fun _ => O)
      have hjr : j % 2 = r := by simpa using (List.mem_filter.1 hj).2
      have hjp : j ≠ ringPred n i := fun h => hpr (h ▸ hjr)
      simp [hjp]
  · rw [if_neg hir, List.nil_append]
    by_cases hpr : ringPred n i % 2 = r
    · rw [if_pos hpr]
      refine Eq.trans (List.flatMap_congr fun j hj => ?_)
        (flatMap_ite_eq hnodup (by simpa using ⟨hp, hpr⟩) fun _ => I)
      have hjr : j % 2 = r := by simpa using (List.mem_filter.1 hj).2
      have hji : j ≠ i := fun h => hir (h ▸ hjr)
      rw [if_neg hji]
    · rw [if_neg hpr]
      refine List.flatMap_eq_nil_iff.2 fun j hj => ?_
      have hjr : j % 2 = r := by simpa using (List.mem_filter.1 hj).2
      have hji : j ≠ i := fun h => hir (h ▸ hjr)
      have hjp : j ≠ ringPred n i := fun h => hpr (h ▸ hjr)
      rw [if_neg hji, if_neg hjp]

theorem view_ringRound (cap : Port → Nat) {start n i : Nat} (hn : 2 ≤ n) (hi : i < n)
    (d : Nat → List β) :
    view (mainNet cap) (start + i, 0) (ringRound start n d) = ringEvents start n d i := by
  have hp := ringPred_lt hi
  have hpred : ringPred n i ≠ i := by
    rw [ringPred_eq hi]
    split_ifs <;> omega
  have hview : ∀ j ∈ ringOrder n,
      (send (start + j) (start + ringSucc n j) (d j)).view (mainNet cap) (start + i, 0)
        = if j = i then [.out (port (start + i) (start + ringSucc n i)) (d i)]
          else if j = ringPred n i then
            [.inp (port (start + i) (start + ringPred n i)) (d (ringPred n i))] else [] := by
    intro j hj
    have hjn : j < n := by
      simp only [ringOrder, List.mem_append, List.mem_filter, List.mem_range] at hj
      rcases hj with h | h <;> exact h.1
    have hne : start + ringSucc n j ≠ start + j := by
      rw [ringSucc_eq hjn]
      split_ifs <;> omega
    rw [view_send cap hne]
    by_cases hji : j = i
    · subst hji
      simp
    · have hsucc : (start + ringSucc n j = start + i) ↔ j = ringPred n i := by
        rw [← ringSucc_eq_iff hi hjn]
        omega
      simp only [hji, if_false, hsucc, if_neg (show ¬ start + j = start + i by omega)]
      split_ifs with h
      · rw [h]
      · rfl
  rw [ringRound, view_map, List.flatMap_congr hview, ringOrder, List.flatMap_append,
    flatMap_parity hi _ _ hpred, flatMap_parity hi _ _ hpred, ringEvents]
  · rw [ringPred_eq hi] at *
    split_ifs <;> first | rfl | omega
  · rw [ringPred_eq hi]
    split_ifs <;> omega
  · rw [ringPred_eq hi]
    split_ifs <;> omega

theorem view_ringRound_of_not_mem (cap : Port → Nat) {start n : Nat} (hn : 2 ≤ n)
    (d : Nat → List β) {p : Party} (hp : p.2 ≠ 0 ∨ p.1 < start ∨ start + n ≤ p.1) :
    view (mainNet cap) p (ringRound start n d) = [] := by
  obtain ⟨c, thread⟩ := p
  rw [ringRound, view_map]
  refine List.flatMap_eq_nil_iff.2 fun j hj => ?_
  have hjn : j < n := by
    simp only [ringOrder, List.mem_append, List.mem_filter, List.mem_range] at hj
    rcases hj with h | h <;> exact h.1
  have hsucc : ringSucc n j < n := Nat.mod_lt _ (by omega)
  have hne : start + ringSucc n j ≠ start + j := by
    rw [ringSucc_eq hjn]
    split_ifs <;> omega
  by_cases hthread : thread = 0
  · subst hthread
    have hp : c < start ∨ start + n ≤ c := hp.resolve_left (by simp)
    rw [view_send cap hne, if_neg (by omega), if_neg (by omega)]
  · exact view_send_thread cap hne hthread _

/-! ## The buffers of all members, step by step -/

section Buffers

variable [Add β] (n chunk : Nat)

/-- What member `i` sends in a step. -/
def ringData (step : Nat) (bufs : Nat → Mem β) (i : Nat) : List β :=
  (bufs i).slice (chunk * sendChunk n i step) chunk

def reduceScatterNext (step : Nat) (bufs : Nat → Mem β) (i : Nat) : Mem β :=
  reduceSum (bufs i) (chunk * sendChunk n (ringPred n i) step)
    (ringData n chunk step bufs (ringPred n i))

def allGatherNext (step : Nat) (bufs : Nat → Mem β) (i : Nat) : Mem β :=
  (bufs i).store (chunk * sendChunk n (ringPred n i) step)
    (ringData n chunk step bufs (ringPred n i))

/-- The buffers after that many steps of the first phase. -/
def reduceScatterBufs (bufs : Nat → Mem β) : Nat → Nat → Mem β
  | 0 => bufs
  | step + 1 => reduceScatterNext n chunk step (reduceScatterBufs bufs step)

/-- The buffers after that many steps of the second phase. -/
def allGatherBufs (bufs : Nat → Mem β) : Nat → Nat → Mem β
  | 0 => bufs
  | step + 1 => allGatherNext n chunk step (allGatherBufs bufs step)

end Buffers

section Steps

variable [Add β] {start n nBytes chunk i step : Nat}

omit [Add β] in
/-- The indices a member computes are its positions on the ring. -/
theorem memberCall_ring (start : Nat) (hchunk : nBytes / n = chunk) (hi : i < n)
    (hs : step + 1 < n) :
    let c := memberCall start n nBytes i 0
    c.localNodeIndex = i ∧ c.sliceBytes = chunk ∧
    c.sendToNode = start + ringSucc n i ∧ c.recvFromNode = start + ringPred n i ∧
    c.sendChunkIndex step = sendChunk n i step ∧
    c.recvChunkIndex step = sendChunk n (ringPred n i) step := by
  have hlocal : (memberCall start n nBytes i 0).localNodeIndex = i := by
    simp [memberCall, RowCall.localNodeIndex]
  have hslice : (memberCall start n nBytes i 0).sliceBytes = chunk := by
    rw [RowCall.sliceBytes, memberCall_nNodes]
    exact hchunk
  refine ⟨hlocal, hslice, ?_, ?_, ?_, ?_⟩
  · rw [RowCall.sendToNode, hlocal, memberCall_nNodes]
    rfl
  · rw [RowCall.recvFromNode, hlocal, memberCall_nNodes]
    rfl
  · rw [RowCall.sendChunkIndex, hlocal, memberCall_nNodes]
    rfl
  · rw [RowCall.recvChunkIndex, hlocal, memberCall_nNodes, sendChunk_ringPred hi hs]

theorem trace_reduceScatterStep (hchunk : nBytes / n = chunk) (hi : i < n) (hs : step + 1 < n)
    (bufs : Nat → Mem β) :
    Trace ((memberCall start n nBytes i 0).reduceScatterStep step (bufs i))
      (ringEvents start n (ringData n chunk step bufs) i)
      (reduceScatterNext n chunk step bufs i) := by
  obtain ⟨hlocal, hslice, hto, hfrom, hsend, hrecv⟩ :=
    memberCall_ring start hchunk hi hs
  have hlt : sendChunk n (ringPred n i) step < n := sendChunk_lt (by omega)
  have hbound : chunk * sendChunk n (ringPred n i) step + chunk ≤ nBytes := by
    rw [← Nat.mul_succ]
    refine (Nat.mul_le_mul_left chunk hlt).trans ?_
    rw [← hchunk]
    exact Nat.div_mul_le_self nBytes n
  have hlen : (ringData n chunk step bufs (ringPred n i)).length = chunk := by
    simp [ringData]
  simp only [RowCall.reduceScatterStep, hlocal, hslice, hto, hfrom, hsend, hrecv,
    show (memberCall start n nBytes i 0).nodeIndex = start + i from rfl,
    show (memberCall start n nBytes i 0).nBytes = nBytes from rfl, if_pos hbound,
    ringEvents]
  split_ifs with hpar
  · refine (Trace.write1 _ _).bind (l := [_]) ?_
    exact (Trace.read1 hlen).bind (.ret _)
  · refine (Trace.read1 hlen).bind (l := [_]) ?_
    exact (Trace.write1 _ _).bind (.ret _)

omit [Add β] in
/-- A chunk is not touched by a store into another chunk. -/
theorem store_chunk_apply {j j' k : Nat} (hne : j ≠ j') (buffer : Mem β) {xs : List β}
    (hlen : xs.length = chunk) (hk : k < chunk) :
    buffer.store (chunk * j) xs (chunk * j' + k) = buffer (chunk * j' + k) := by
  rcases Nat.lt_or_gt_of_ne hne with h | h
  · have := Nat.mul_le_mul_left chunk (show j + 1 ≤ j' from h)
    rw [Nat.mul_succ] at this
    exact Mem.store_apply_of_ge (by omega)
  · have := Nat.mul_le_mul_left chunk (show j' + 1 ≤ j from h)
    rw [Nat.mul_succ] at this
    exact Mem.store_apply_of_lt (by omega)

omit [Add β] in
theorem trace_allGatherStep (start : Nat) (hchunk : nBytes / n = chunk) (hi : i < n)
    (hs : step + 1 < n) (bufs : Nat → Mem β) :
    Trace ((memberCall start n nBytes i 0).allGatherStep step (bufs i))
      (ringEvents start n (ringData n chunk step bufs) i)
      (allGatherNext n chunk step bufs i) := by
  obtain ⟨hlocal, hslice, hto, hfrom, hsend, hrecv⟩ :=
    memberCall_ring start hchunk hi hs
  have hlen : (ringData n chunk step bufs (ringPred n i)).length = chunk := by
    simp [ringData]
  have hne : sendChunk n (ringPred n i) step ≠ sendChunk n i step := by
    rw [sendChunk_eq (ringPred_lt hi) (by omega), sendChunk_eq hi (by omega), ringPred_eq hi]
    split_ifs <;> omega
  simp only [RowCall.allGatherStep, hlocal, hslice, hto, hfrom, hsend, hrecv,
    show (memberCall start n nBytes i 0).nodeIndex = start + i from rfl, ringEvents]
  split_ifs with hpar
  · refine (Trace.write1 _ _).bind (l := [_]) ?_
    exact (Trace.read1 hlen).bind (.ret _)
  · refine (Trace.read1 hlen).bind (l := [_]) ?_
    rw [Mem.slice_congr fun k hk => store_chunk_apply hne _ hlen hk]
    exact (Trace.write1 _ _).bind (.ret _)

/-- In the first phase a member never adds to the chunk of its own index. -/
theorem reduceScatterBufs_own (bufs : Nat → Mem β) (hi : i < n) {steps k : Nat}
    (hsteps : steps < n) (hk : k < chunk) :
    reduceScatterBufs n chunk bufs steps i (chunk * i + k) = bufs i (chunk * i + k) := by
  induction steps with
  | zero => rfl
  | succ step ih =>
      have hne : sendChunk n (ringPred n i) step ≠ i := by
        rw [sendChunk_eq (ringPred_lt hi) (by omega), ringPred_eq hi]
        split_ifs <;> omega
      rw [reduceScatterBufs, reduceScatterNext, reduceSum,
        store_chunk_apply hne _ (by simp [ringData]) hk]
      exact ih (by omega)

omit [Add β] in
/-- After `steps` steps of the second phase a member has the untouched chunks of the `steps`
members before it. -/
theorem allGatherBufs_apply (bufs : Nat → Mem β) {steps j k : Nat} (hi : i < n) (hj : j < n)
    (hsteps : steps < n) (hdist : sendChunk n i j ≤ steps) (hk : k < chunk) :
    allGatherBufs n chunk bufs steps i (chunk * j + k) = bufs j (chunk * j + k) := by
  induction steps generalizing i j with
  | zero =>
      have hij : i = j := by
        rw [sendChunk_eq hi hj] at hdist
        split_ifs at hdist <;> omega
      rw [hij]
      rfl
  | succ step ih =>
      have hp := ringPred_lt hi
      rw [allGatherBufs, allGatherNext]
      by_cases hr : sendChunk n (ringPred n i) step = j
      · have hback : sendChunk n (ringPred n i) j ≤ step := by
          rw [← hr, sendChunk_eq hp (sendChunk_lt (by omega)), sendChunk_eq hp (by omega)]
          split_ifs <;> omega
        rw [ringData, hr, Mem.store_slice_apply, if_pos (by omega), Nat.add_sub_cancel_left]
        exact ih hp hj (by omega) hback
      · have hless : sendChunk n i j ≤ step := by
          rw [sendChunk_eq hp (by omega), ringPred_eq hi] at hr
          rw [sendChunk_eq hi hj] at hdist ⊢
          split_ifs at hr hdist ⊢ <;> omega
        rw [store_chunk_apply hr _ (by simp [ringData]) hk]
        exact ih hi hj (by omega) hless

end Steps

/-! ## The whole collective -/

section Collective

variable [Add β]

/-- The buffers at the end of both phases. -/
def ringFinal (n chunk : Nat) (buffer : Nat → Mem β) : Nat → Mem β :=
  allGatherBufs n chunk (reduceScatterBufs n chunk buffer (n - 1)) (n - 1)

def ringSchedule (start n chunk : Nat) (buffer : Nat → Mem β) : List (GEv Port β) :=
  ((List.range (n - 1)).flatMap fun step => ringRound start n
      (ringData n chunk step (reduceScatterBufs n chunk buffer step)))
    ++ (List.range (n - 1)).flatMap fun step => ringRound start n
      (ringData n chunk step
        (allGatherBufs n chunk (reduceScatterBufs n chunk buffer (n - 1)) step))

theorem trace_ring {start n nBytes chunk i : Nat} (hchunk : nBytes / n = chunk) (hn : 2 ≤ n)
    (hi : i < n) (cap : Port → Nat) (buffer : Nat → Mem β) :
    Trace (syncNodeSlices_ringAllReduce (memberCall start n nBytes i 0) (buffer i))
      (view (mainNet cap) (start + i, 0) (ringSchedule start n chunk buffer))
      [(0, (ringFinal n chunk buffer i).slice 0 nBytes)] := by
  simp only [ringSchedule, view_append, view_flatMap, view_ringRound cap hn hi]
  simp only [syncNodeSlices_ringAllReduce, memberCall_nNodes, if_neg (show ¬ n ≤ 1 by omega)]
  simp only [memberCall, ne_eq, not_true_eq_false, if_false, Bool.false_eq_true]
  refine (Trace.loop (fun step => reduceScatterBufs n chunk buffer step i) _ fun step hstep =>
    trace_reduceScatterStep hchunk hi (by omega) _).bind ?_
  have hgather := (Trace.loop (n := n - 1)
    (fun step => allGatherBufs n chunk (reduceScatterBufs n chunk buffer (n - 1)) step i) _
    fun step hstep => trace_allGatherStep start hchunk hi
      (show step + 1 < n by omega) _).bind
    (f := fun buffer => Prog.ret [(0, buffer.slice 0 nBytes)]) (.ret _)
  rwa [List.append_nil] at hgather

/-- What the ring computes: every member ends with chunk `j` as member `j` had it at the start. -/
theorem ringFinal_apply {n chunk i e : Nat} (buffer : Nat → Mem β) (hi : i < n)
    (he : e < n * chunk) : ringFinal n chunk buffer i e = buffer (e / chunk) e := by
  have hchunk : 0 < chunk := Nat.pos_of_ne_zero fun h => by simp [h] at he
  have hj : e / chunk < n := by
    rw [Nat.div_lt_iff_lt_mul hchunk]
    exact he
  have hk : e % chunk < chunk := Nat.mod_lt _ hchunk
  have hsplit : chunk * (e / chunk) + e % chunk = e := Nat.div_add_mod e chunk
  have hdist : sendChunk n i (e / chunk) ≤ n - 1 := by
    have : sendChunk n i (e / chunk) < n := sendChunk_lt (by omega)
    omega
  have hgather := allGatherBufs_apply (reduceScatterBufs n chunk buffer (n - 1)) hi hj
    (show n - 1 < n by omega) hdist hk
  have hown := reduceScatterBufs_own buffer hj (show n - 1 < n by omega) hk
  rw [hsplit] at hgather hown
  exact hgather.trans hown

/-- The members can play the steps one after the other, whatever the room in the links. -/
theorem ring_plays {n nBytes chunk : Nat} (start : Nat) (hchunk : nBytes / n = chunk)
    (hn : 2 ≤ n) (cap : Port → Nat) (buffer : Nat → Mem β) :
    Plays (mainNet cap) (rowSystem syncNodeSlices_ringAllReduce start n nBytes buffer)
      (ringSchedule start n chunk buffer) (rowParties start n)
      (rowResult start n fun i => [(0, (ringFinal n chunk buffer i).slice 0 nBytes)]) := by
  refine rowSystem_plays (Sched.of_msgs ?_) ?_ ?_ ?_
  · intro e he
    simp only [ringSchedule, List.mem_append, List.mem_flatMap, ringRound, List.mem_map] at he
    rcases he with ⟨step, -, i, -, rfl⟩ | ⟨step, -, i, -, rfl⟩ <;> exact sched_send cap _
  · intro i thread hthread
    simp [syncNodeSlices_ringAllReduce, memberCall, hthread]
  · intro p hp
    simp only [ringSchedule, view_append, view_flatMap, view_ringRound_of_not_mem cap hn _ hp]
    simp
  · exact fun i hi => trace_ring hchunk hn hi cap buffer

/-- Whatever the interleaving, the ring runs to its end. -/
theorem ring_completes {n : Nat} (start chunk : Nat) (hn : 2 ≤ n) (cap : Port → Nat)
    (buffer : Nat → Mem β) :
    Completes (mainNet cap) (rowSystem syncNodeSlices_ringAllReduce start n (n * chunk) buffer)
      (rowResult start n fun i => [(0, (ringFinal n chunk buffer i).slice 0 (n * chunk))]) :=
  (ring_plays start (Nat.mul_div_cancel_left chunk (by omega)) hn cap buffer).completes

/-- However a run of the ring ends, chunk `j` of every member is the one member `j` started
with. -/
theorem ring_rowAfter {start n chunk : Nat} (hn : 2 ≤ n) {cap : Port → Nat}
    {buffer : Nat → Mem β} {d : Config Party Port β (Mem.Log β)}
    (hd : Reach (mainNet cap)
      (rowSystem syncNodeSlices_ringAllReduce start n (n * chunk) buffer) d)
    (hfin : d.Final) {i e : Nat} (hi : i < n) (he : e < n * chunk) :
    rowAfter buffer start d i e = buffer (e / chunk) e := by
  rw [rowAfter, resultLog_of_completes (ring_completes start chunk hn cap buffer) hd hfin,
    rowResult_member hi]
  simp only [Mem.stores_cons, Mem.stores_nil, Mem.store_slice_apply]
  rw [if_pos (by omega), ringFinal_apply buffer hi (by omega)]
  simp

end Collective

/-! ## The ring against the sum -/

/-- Every member ends with the element-wise sum of all rows, which is also what the star gives. -/
def RingSums [AddCommMonoid β] (cap : Port → Nat) (start n chunk : Nat) (buffer : Nat → Mem β) :
    Prop :=
  ∀ d d', Reach (mainNet cap)
      (rowSystem syncNodeSlices_ringAllReduce start n (n * chunk) buffer) d → d.Final →
    Reach (mainNet cap)
      (rowSystem syncNodeSlices_starAllReduce start n (n * chunk) buffer) d' → d'.Final →
    ∀ i, i < n → ∀ e, e < n * chunk →
      rowAfter buffer start d i e = ∑ m ∈ Finset.range n, buffer m e ∧
      rowAfter buffer start d i e = rowAfter buffer start d' i e

/-- The ring always finishes, and gives the sum exactly when in every chunk the rows of the
members that do not own the chunk cancel out. -/
theorem ring_completes_and_sums_iff [AddCommGroup β] (start n chunk : Nat) (hn : 2 ≤ n)
    (cap : Port → Nat) (buffer : Nat → Mem β) :
    (∃ result, Completes (mainNet cap)
      (rowSystem syncNodeSlices_ringAllReduce start n (n * chunk) buffer) result) ∧
    (RingSums cap start n chunk buffer ↔
      ∀ e, e < n * chunk → ∑ m ∈ (Finset.range n).erase (e / chunk), buffer m e = 0) := by
  refine ⟨⟨_, ring_completes start chunk hn cap buffer⟩, ?_⟩
  have howner : ∀ e, e < n * chunk → e / chunk ∈ Finset.range n := by
    intro e he
    rw [Finset.mem_range, Nat.div_lt_iff_lt_mul]
    · exact he
    · exact Nat.pos_of_ne_zero fun h => by simp [h] at he
  constructor
  · intro h e he
    have hring := (ring_completes start chunk hn cap buffer).reach_done
    have hstar := (star_completes start (n * chunk) hn cap buffer).reach_done
    have hfin := Completes.done_final (P := Party) (π := Port) (β := β) (ρ := Mem.Log β)
    have heq := (h _ _ hring (hfin _) hstar (hfin _) 0 (by omega) e he).1
    rw [ring_rowAfter hn hring (hfin _) (by omega) he,
      ← Finset.add_sum_erase _ _ (howner e he)] at heq
    exact (left_eq_add.1 heq)
  · intro h d d' hd hfin hd' hfin' i hi e he
    have hsum : buffer (e / chunk) e = ∑ m ∈ Finset.range n, buffer m e := by
      rw [← Finset.add_sum_erase _ _ (howner e he), h e he, add_zero]
    rw [ring_rowAfter hn hd hfin hi he, star_rowAfter hn hd' hfin' hi he]
    exact ⟨hsum, hsum⟩

/-- Two members whose chunks are zero where they are not the owner. -/
theorem ring_completes_and_sums_iff_two :
    RingSums (fun _ => 0) 0 2 1 (fun i e => if i = e then (5 : Int) else 0) :=
  (ring_completes_and_sums_iff 0 2 1 (by decide) (fun _ => 0) _).2.2 (by decide)

/-- Eight members with rows of ones end with ones, not with eights. -/
theorem not_ringSums_ones : ¬ RingSums (fun _ => 0) 0 8 1 (fun _ _ => (1 : Int)) := by
  intro h
  have hring := (ring_completes 0 1 (show 2 ≤ 8 by decide) (fun _ => 0)
    (fun _ _ => (1 : Int))).reach_done
  have hstar := (star_completes 0 (8 * 1) (show 2 ≤ 8 by decide) (fun _ => 0)
    (fun _ _ => (1 : Int))).reach_done
  have hfin := Completes.done_final (P := Party) (π := Port) (β := Int) (ρ := Mem.Log Int)
  have heq := (h _ _ hring (hfin _) hstar (hfin _) 0 (by decide) 0 (by decide)).1
  rw [ring_rowAfter (by decide) hring (hfin _) (by decide) (by decide)] at heq
  exact absurd heq (by decide)

end Network
end PrefillOpt
