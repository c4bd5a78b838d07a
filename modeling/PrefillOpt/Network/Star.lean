import Mathlib.Algebra.BigOperators.Group.List.Basic
import Mathlib.Algebra.BigOperators.Group.Finset.Basic
import PrefillOpt.Network.Collectives

/-!
# Star — the gather, reduce and broadcast of one row

The root of the group reads a row from every worker, adds them up in the order of the workers and
writes the sum back to all of them.  Each worker hands its row over and then waits, so the rows in
the order of the workers, followed by the sums in the same order, are one complete schedule.
-/

namespace PrefillOpt
namespace Network

open Lib

variable {β : Type}

/-! ## The sum the root forms -/

section Sum

variable [Add β]

/-- The rows of local indices `0..n-1`, added in this order. -/
def rowSum (x : Nat → List β) (n : Nat) : List β :=
  (List.range (n - 1)).foldl (fun acc w => List.zipWith (· + ·) acc (x (w + 1))) (x 0)

theorem rowSum_length {x : Nat → List β} {nBytes : Nat} (hx : ∀ i, (x i).length = nBytes)
    (n : Nat) : (rowSum x n).length = nBytes := by
  unfold rowSum
  induction n - 1 with
  | zero => exact hx 0
  | succ m ih => simp [List.range_succ, List.foldl_append, ih, hx]

theorem slice_reduceSum {buffer : Mem β} {xs : List β} {nBytes : Nat} (hx : xs.length = nBytes) :
    (reduceSum buffer 0 xs).slice 0 nBytes
      = List.zipWith (· + ·) (buffer.slice 0 nBytes) xs := by
  subst hx
  refine List.ext_getElem (by simp) fun i h₁ h₂ => ?_
  have hi : i < xs.length := by simpa using h₁
  simp [reduceSum, Mem.store, hi]

theorem slice_foldl_reduceSum {x : Nat → List β} {nBytes : Nat} (hx : ∀ i, (x i).length = nBytes)
    {buffer : Mem β} (hbuf : buffer.slice 0 nBytes = x 0) (n : Nat) :
    ((List.range (n - 1)).foldl (fun buf w => reduceSum buf 0 (x (w + 1))) buffer).slice 0 nBytes
      = rowSum x n := by
  unfold rowSum
  induction n - 1 with
  | zero => simpa using hbuf
  | succ m ih =>
      simp only [List.range_succ, List.foldl_append, List.foldl_cons, List.foldl_nil]
      rw [slice_reduceSum (hx _), ih]

end Sum

/-- The sum, element by element. -/
theorem rowSum_getElem? [AddCommMonoid β] {x : Nat → List β} {v : Nat → Nat → β} {nBytes : Nat}
    (hx : ∀ i, x i = (List.range nBytes).map (v i)) {n : Nat} (hn : 0 < n) {e : Nat}
    (he : e < nBytes) : (rowSum x n)[e]? = some (∑ i ∈ Finset.range n, v i e) := by
  obtain ⟨m, rfl⟩ : ∃ m, n = m + 1 := ⟨n - 1, by omega⟩
  unfold rowSum
  rw [Nat.add_sub_cancel]
  induction m with
  | zero => simp [hx, he]
  | succ m ih =>
      have ih := ih (by omega)
      simp only [List.range_succ, List.foldl_append, List.foldl_cons, List.foldl_nil]
      rw [Finset.sum_range_succ, List.getElem?_zipWith, ih]
      simp [hx, he]

/-! ## One row -/

section Row

variable [Add β]

/-- The call of local index `i` in the group of `n` nodes from `start` on. -/
def memberCall (start n nBytes i threadIndex : Nat) : RowCall :=
  ⟨false, start + i, start, start + n, nBytes, threadIndex⟩

@[simp] theorem memberCall_nNodes (start n nBytes i threadIndex : Nat) :
    (memberCall start n nBytes i threadIndex).nNodes = n := by
  simp [memberCall, RowCall.nNodes]

def starRound (start n : Nat) (x : Nat → List β) : List (GEv Port β) :=
  (List.range (n - 1)).map (fun w => send (start + 1 + w) start (x (w + 1)))
    ++ (List.range (n - 1)).map fun w => send start (start + 1 + w) (rowSum x n)

omit [Add β] in
theorem view_map {ι : Type} (cap : Port → Nat) (p : Party) (l : List ι) (e : ι → GEv Port β) :
    view (mainNet cap) p (l.map e) = l.flatMap fun i => (e i).view (mainNet cap) p := by
  simp [view, List.flatMap_map]

theorem view_starRound_root (cap : Port → Nat) (start n : Nat) (x : Nat → List β) :
    view (mainNet cap) (start, 0) (starRound start n x)
      = (List.range (n - 1)).map (fun w => LEv.inp (port start (start + 1 + w)) (x (w + 1)))
        ++ (List.range (n - 1)).map fun w => LEv.out (port start (start + 1 + w)) (rowSum x n) := by
  have hne : ∀ w, start ≠ start + 1 + w := fun w => by omega
  simp only [starRound, view_append, view_map, view_send cap (hne _), view_send cap (hne _).symm,
    if_true, if_neg (hne _).symm]
  rw [List.map_eq_flatMap, List.map_eq_flatMap]

theorem view_starRound_worker (cap : Port → Nat) (start n : Nat) (x : Nat → List β) {w : Nat}
    (hw : w < n - 1) :
    view (mainNet cap) (start + 1 + w, 0) (starRound start n x)
      = [.out (port (start + 1 + w) start) (x (w + 1)),
        .inp (port (start + 1 + w) start) (rowSum x n)] := by
  have hne : ∀ w, start ≠ start + 1 + w := fun w => by omega
  have hiff : ∀ w', start + 1 + w' = start + 1 + w ↔ w' = w := fun w' => by omega
  simp only [starRound, view_append, view_map, view_send cap (hne _), view_send cap (hne _).symm,
    if_neg (hne _), hiff]
  rw [flatMap_ite_eq List.nodup_range (List.mem_range.2 hw) fun w' =>
      [LEv.out (port (start + 1 + w) start) (x (w' + 1))],
    flatMap_ite_eq List.nodup_range (List.mem_range.2 hw) fun _ =>
      [LEv.inp (port (start + 1 + w) start) (rowSum x n)]]
  rfl

theorem view_starRound_of_not_mem (cap : Port → Nat) (start n : Nat) (x : Nat → List β) {p : Party}
    (hp : p.2 ≠ 0 ∨ p.1 < start ∨ start + n ≤ p.1) :
    view (mainNet cap) p (starRound start n x) = [] := by
  obtain ⟨c, thread⟩ := p
  have hne : ∀ w, start ≠ start + 1 + w := fun w => by omega
  simp only [starRound, view_append, view_map, List.append_eq_nil_iff, List.flatMap_eq_nil_iff,
    List.mem_range]
  by_cases hthread : thread = 0
  · subst hthread
    have hp : c < start ∨ start + n ≤ c := hp.resolve_left (by simp)
    constructor
    · intro w hw
      rw [view_send cap (hne _), if_neg (by omega), if_neg (by omega)]
    · intro w hw
      rw [view_send cap (hne _).symm, if_neg (by omega), if_neg (by omega)]
  · exact ⟨fun w _ => view_send_thread cap (hne _) hthread _,
      fun w _ => view_send_thread cap (hne _).symm hthread _⟩

omit [Add β] in
theorem nodup_workerPorts (start m : Nat) :
    ((List.range m).map fun w => port start (start + 1 + w)).Nodup := by
  refine List.nodup_range.map_on fun w _ w' _ h => ?_
  have := port_inj (by omega) (by omega) h
  omega

theorem trace_star_root (cap : Port → Nat) {start n nBytes : Nat} (hn : 2 ≤ n)
    {x : Nat → List β} (hx : ∀ i, (x i).length = nBytes) {buffer : Mem β}
    (hbuf : buffer.slice 0 nBytes = x 0) :
    Trace (syncNodeSlices_starAllReduce (memberCall start n nBytes 0 0) buffer)
      (view (mainNet cap) (start, 0) (starRound start n x)) [(0, rowSum x n)] := by
  obtain ⟨got, hgot, hread⟩ := Trace.readMany_map (nodup_workerPorts start (n - 1))
    (fun _ => nBytes) (fun w => x (w + 1)) (fun w _ => hx (w + 1))
  have hsum : ((List.range (n - 1)).foldl
      (fun buf w => reduceSum buf 0 (got (port start (start + 1 + w)))) buffer).slice 0 nBytes
        = rowSum x n := by
    rw [← slice_foldl_reduceSum hx hbuf n]
    congr 1
    refine List.foldl_ext _ _ _ fun buf w hw => ?_
    rw [hgot w hw]
  rw [view_starRound_root]
  simp only [syncNodeSlices_starAllReduce, memberCall_nNodes, if_neg (show ¬ n ≤ 1 by omega)]
  simp only [memberCall, ne_eq, not_true_eq_false, if_false, Nat.add_zero, if_true,
    Bool.false_eq_true]
  refine hread.bind ?_
  rw [hsum]
  have hret := (Trace.writeMany_map (nodup_workerPorts start (n - 1)) fun _ => rowSum x n).bind
    (f := fun _ => Prog.ret [(0, rowSum x n)]) (.ret _)
  rwa [List.append_nil] at hret

theorem trace_star_worker (cap : Port → Nat) (start : Nat) {n nBytes : Nat} (hn : 2 ≤ n)
    {x : Nat → List β} (hx : ∀ i, (x i).length = nBytes) {w : Nat} (hw : w < n - 1)
    {buffer : Mem β} (hbuf : buffer.slice 0 nBytes = x (w + 1)) :
    Trace (syncNodeSlices_starAllReduce (memberCall start n nBytes (w + 1) 0) buffer)
      (view (mainNet cap) (start + 1 + w, 0) (starRound start n x)) [(0, rowSum x n)] := by
  rw [view_starRound_worker cap start n x hw]
  simp only [syncNodeSlices_starAllReduce, memberCall_nNodes, if_neg (show ¬ n ≤ 1 by omega)]
  simp only [memberCall, ne_eq, not_true_eq_false, if_false,
    if_neg (show ¬ start + (w + 1) = start by omega), Bool.false_eq_true, hbuf]
  rw [show start + (w + 1) = start + 1 + w by omega]
  refine (Trace.write1 _ (x (w + 1))).bind (l := [_]) ?_
  exact (Trace.read1 (rowSum_length hx n)).bind (.ret _)

theorem trace_star (cap : Port → Nat) (start : Nat) {n nBytes : Nat} (hn : 2 ≤ n)
    {x : Nat → List β} (hx : ∀ i, (x i).length = nBytes) {i : Nat} (hi : i < n)
    {buffer : Mem β} (hbuf : buffer.slice 0 nBytes = x i) :
    Trace (syncNodeSlices_starAllReduce (memberCall start n nBytes i 0) buffer)
      (view (mainNet cap) (start + i, 0) (starRound start n x)) [(0, rowSum x n)] := by
  cases i with
  | zero => exact trace_star_root cap hn hx hbuf
  | succ w =>
      have h := trace_star_worker cap start hn hx (show w < n - 1 by omega) hbuf
      rwa [show start + 1 + w = start + (w + 1) by omega] at h

omit [Add β] in
theorem sched_send {a b : Nat} (cap : Port → Nat) (xs : List β) :
    ∃ p ys, send a b xs = GEv.msg p ys ∧
      (mainNet cap).owner p ≠ (mainNet cap).owner ((mainNet cap).peer p) :=
  ⟨_, _, rfl, owner_ne_owner_peer _ _ _⟩

/-! ## A collective on one row of every member -/

/-- Every thread of every member of the group calls the collective on its row; `buffer` is by
local index. -/
def rowSystem (collective : RowCall → Mem β → Prog Port β (Mem.Log β)) (start n nBytes : Nat)
    (buffer : Nat → Mem β) : Config Party Port β (Mem.Log β) where
  proc p :=
    if start ≤ p.1 ∧ p.1 < start + n then
      collective (memberCall start n nBytes (p.1 - start) p.2) (buffer (p.1 - start))
    else .ret []
  sent _ := []

/-- The row of local index `i` when its thread 0 has returned. -/
def rowAfter (buffer : Nat → Mem β) (start : Nat) (d : Config Party Port β (Mem.Log β)) (i : Nat) :
    Mem β :=
  (buffer i).stores (resultLog d (start + i, 0))

/-- The logs of a collective that only thread 0 of the members takes part in. -/
def rowResult (start n : Nat) (log : Nat → Mem.Log β) (p : Party) : Mem.Log β :=
  if (start ≤ p.1 ∧ p.1 < start + n) ∧ p.2 = 0 then log (p.1 - start) else []

/-- Thread 0 of every member. -/
def rowParties (start n : Nat) : List Party :=
  (List.range n).map fun i => (start + i, 0)

omit [Add β] in
/-- A schedule that thread 0 of every member can play, and the others have no part in. -/
theorem rowSystem_plays {collective : RowCall → Mem β → Prog Port β (Mem.Log β)}
    {start n nBytes : Nat} {buffer : Nat → Mem β} {log : Nat → Mem.Log β} {cap : Port → Nat}
    {G : List (GEv Port β)} (hG : Sched (mainNet cap) (fun _ => []) G)
    (hthread : ∀ i thread, thread ≠ 0 →
      collective (memberCall start n nBytes i thread) (buffer i) = .ret [])
    (hout : ∀ p : Party, p.2 ≠ 0 ∨ p.1 < start ∨ start + n ≤ p.1 → view (mainNet cap) p G = [])
    (htrace : ∀ i, i < n →
      Trace (collective (memberCall start n nBytes i 0) (buffer i))
        (view (mainNet cap) (start + i, 0) G) (log i)) :
    Plays (mainNet cap) (rowSystem collective start n nBytes buffer) G (rowParties start n)
      (rowResult start n log) := by
  have hidle : ∀ p : Party, ¬ ((start ≤ p.1 ∧ p.1 < start + n) ∧ p.2 = 0) →
      (rowSystem collective start n nBytes buffer).proc p = .ret (rowResult start n log p) := by
    rintro ⟨node, thread⟩ hp
    simp only [rowResult, if_neg hp, rowSystem]
    split_ifs with hmem
    · exact hthread _ _ fun h => hp ⟨hmem, h⟩
    · rfl
  refine ⟨hG, ?_, ?_⟩
  · rintro ⟨node, thread⟩ hp
    refine hidle _ ?_
    rintro ⟨hmem, rfl⟩
    exact hp (List.mem_map.2 ⟨node - start, List.mem_range.2 (by simp only at hmem; omega),
      Prod.ext (by simp only at hmem ⊢; omega) rfl⟩)
  · rintro ⟨node, thread⟩
    by_cases hmem : (start ≤ node ∧ node < start + n) ∧ thread = 0
    · obtain ⟨hmem, rfl⟩ := hmem
      have h := htrace (node - start) (by omega)
      rw [Nat.add_sub_cancel' hmem.1] at h
      simpa [rowSystem, rowResult, hmem] using h
    · rw [hidle _ hmem, hout _ (by simp only; omega)]
      exact .ret _

theorem sched_starRound (cap : Port → Nat) (start n : Nat) (x : Nat → List β) :
    ∀ e ∈ starRound start n x, ∃ p ys, e = GEv.msg p ys ∧
      (mainNet cap).owner p ≠ (mainNet cap).owner ((mainNet cap).peer p) := by
  intro e he
  simp only [starRound, List.mem_append, List.mem_map] at he
  rcases he with ⟨w, -, rfl⟩ | ⟨w, -, rfl⟩ <;> exact sched_send cap _

/-- The star ends with the sum on every member, whatever the interleaving. -/
theorem star_completes {n : Nat} (start nBytes : Nat) (hn : 2 ≤ n) (cap : Port → Nat)
    (buffer : Nat → Mem β) :
    Completes (mainNet cap) (rowSystem syncNodeSlices_starAllReduce start n nBytes buffer)
      (rowResult start n fun _ => [(0, rowSum (fun i => (buffer i).slice 0 nBytes) n)]) := by
  refine (rowSystem_plays (G := starRound start n fun i => (buffer i).slice 0 nBytes)
    (Sched.of_msgs (sched_starRound cap start n _)) ?_ ?_ ?_).completes
  · intro i thread hthread
    simp [syncNodeSlices_starAllReduce, memberCall, hthread]
  · exact fun p hp => view_starRound_of_not_mem cap start n _ hp
  · exact fun i hi => trace_star cap start hn (by simp) hi rfl

end Row

theorem resultLog_of_completes {N : Net Party Port} {c d : Config Party Port β (Mem.Log β)}
    {r : Party → Mem.Log β} (h : Completes N c r) (hd : Reach N c d) (hfin : d.Final) (p : Party) :
    resultLog d p = r p := by
  rw [h.eq_done hd hfin]
  rfl

theorem rowResult_member {start n i : Nat} (hi : i < n) (log : Nat → Mem.Log β) :
    rowResult start n log (start + i, 0) = log i := by
  simp [rowResult, hi]

/-- However a run of the star ends, every member has the element-wise sum. -/
theorem star_rowAfter [AddCommMonoid β] {start n nBytes : Nat} (hn : 2 ≤ n) {cap : Port → Nat}
    {buffer : Nat → Mem β} {d : Config Party Port β (Mem.Log β)}
    (hd : Reach (mainNet cap) (rowSystem syncNodeSlices_starAllReduce start n nBytes buffer) d)
    (hfin : d.Final) {i e : Nat} (hi : i < n) (he : e < nBytes) :
    rowAfter buffer start d i e = ∑ m ∈ Finset.range n, buffer m e := by
  rw [rowAfter, resultLog_of_completes (star_completes start nBytes hn cap buffer) hd hfin,
    rowResult_member hi]
  have hsum := rowSum_getElem? (x := fun i => (buffer i).slice 0 nBytes) (v := buffer)
    (fun i => by simp [Mem.slice]) (show 0 < n by omega) he
  simp [Mem.store, hsum]

end Network
end PrefillOpt
