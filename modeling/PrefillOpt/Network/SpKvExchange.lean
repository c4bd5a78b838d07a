import Mathlib.Data.List.Nodup
import PrefillOpt.Network.SpKv

/-!
# SpKvExchange — the exchange is a deadlock-free all-gather

Of two ranks the lower sends first, and every rank walks its peers in increasing order, so the
pairs in lexicographic order are one complete schedule.  Every message of it is handed over
while its receiver is reading: no link needs any room.
-/

namespace PrefillOpt
namespace Network

open Lib

variable {β : Type}

/-! ## What the nodes of one topology agree on -/

section Agree

variable (t : NnParallelTopology) (f : SpKvForward) (node : Nat)

@[simp] theorem spKvCall_tpSize : (spKvCall t f node).tpSize = t.tpSize := by
  simp [SpKvCall.tpSize, spKvCall, NnParallelTopology.placement]

@[simp] theorem spKvCall_actualSpSize : (spKvCall t f node).actualSpSize = t.spSize := by
  rw [SpKvCall.actualSpSize, spKvCall_tpSize]
  simp [spKvCall, NnParallelTopology.placement, Nat.mul_div_cancel _ t.tpSize_pos]

@[simp] theorem spKvCall_myTpRank :
    (spKvCall t f node).myTpRank = (t.placement node).tpRank := by
  have h := t.tpGroupStart_add_tpRank node
  have hnode : (t.placement node).globalRank = node := rfl
  simp only [SpKvCall.myTpRank, spKvCall, hnode]
  omega

theorem spGroupStart_add (node : Nat) :
    (t.placement node).spGroupStart
      + ((t.placement node).spRank * t.tpSize + (t.placement node).tpRank) = node := by
  have h := t.rankAt_placement node
  simp only [NnParallelTopology.rankAt, NnParallelTopology.placement] at h ⊢
  rw [Nat.mul_assoc]
  omega

@[simp] theorem spKvCall_mySpRank :
    (spKvCall t f node).mySpRank = (t.placement node).spRank := by
  have h := spGroupStart_add t node
  have hsub : node - (t.placement node).spGroupStart
      = t.tpSize * (t.placement node).spRank + (t.placement node).tpRank := by
    rw [Nat.mul_comm]
    omega
  rw [SpKvCall.mySpRank, spKvCall_tpSize]
  simp only [spKvCall, show (t.placement node).globalRank = node from rfl]
  rw [hsub, Nat.mul_add_div t.tpSize_pos, Nat.div_eq_of_lt (t.tpRank_lt node), Nat.add_zero]

@[simp] theorem spKvCall_peerNode (spRank : Nat) :
    (spKvCall t f node).peerNode spRank
      = t.rankAt (t.placement node).ppRank spRank (t.placement node).tpRank := by
  rw [SpKvCall.peerNode, spKvCall_tpSize, spKvCall_myTpRank]
  simp [spKvCall, NnParallelTopology.placement, NnParallelTopology.rankAt, Nat.mul_assoc]

end Agree

namespace SpKvForward

variable (t : NnParallelTopology) (f : SpKvForward)

def localSeqLen : Nat := f.seqLen / t.spSize

def kvDim0Bytes : Nat := f.kvDim / t.tpSize * 4

def maxPos : Nat := maxPosition f.positions f.batchSize

/-- The rows of a rank, as every node of the group computes them. -/
def range (rank : Nat) : Nat × Nat :=
  if f.cpSplit && decide (1 < f.batchSize) then
    blockRange f.positions f.batchSize t.spSize rank
  else (rank * f.localSeqLen t, rank * f.localSeqLen t + f.localSeqLen t)

/-- How many rows of a rank are sent. -/
def activeRows (rank : Nat) : Nat :=
  min (f.maxPos + 1) (f.range t rank).2 - (f.range t rank).1

/-- The bytes of a rank in the key and in the value buffer. -/
def block (rank : Nat) : Mem.Block :=
  ((f.range t rank).1 * f.kvDim0Bytes t, f.activeRows t rank * f.kvDim0Bytes t)

end SpKvForward

section Agree

variable (t : NnParallelTopology) (f : SpKvForward) (node : Nat)

theorem spKvCall_peerRange (rank : Nat) :
    (spKvCall t f node).peerRange rank = f.range t rank := by
  simp only [SpKvCall.peerRange, SpKvForward.range, spKvCall_actualSpSize]
  rfl

theorem spKvCall_myRange :
    (spKvCall t f node).myRange = f.range t (t.placement node).spRank := by
  simp only [SpKvCall.myRange, SpKvForward.range, spKvCall_actualSpSize, spKvCall_mySpRank]
  rfl

theorem spKvCall_activeBytes (rank : Nat) :
    (spKvCall t f node).activeBytes (f.range t rank) = (f.block t rank).2 := by
  have hdim : (spKvCall t f node).kvDim0Bytes = f.kvDim0Bytes t := rfl
  have hmax : (spKvCall t f node).maxPos = f.maxPos := rfl
  simp only [SpKvCall.activeBytes, SpKvForward.block, SpKvForward.activeRows, hdim, hmax]
  split_ifs with h₁ h₂ h₂
  · rw [Nat.min_eq_left h₁.le]
  · rw [Nat.min_eq_left h₁.le, Nat.sub_eq_zero_of_le (by omega), Nat.zero_mul]
  · rw [Nat.min_eq_right (by omega)]
  · rw [Nat.min_eq_right (by omega), Nat.sub_eq_zero_of_le (by omega), Nat.zero_mul]

theorem spKvCall_sendBytes :
    (spKvCall t f node).sendBytes = (f.block t (t.placement node).spRank).2 := by
  rw [SpKvCall.sendBytes, spKvCall_myRange, spKvCall_activeBytes]

theorem spKvCall_recvBytes (rank : Nat) :
    (spKvCall t f node).recvBytes rank = (f.block t rank).2 := by
  rw [SpKvCall.recvBytes, spKvCall_peerRange, spKvCall_activeBytes]

end Agree

/-! ## One pair -/

/-- The keys, then the values, of a block; nothing for an empty block. -/
def kvParts {τ : Type} (mk : List β → τ) (b : Mem.Block) (kv : Kv β) : List τ :=
  if 0 < b.2 then [mk (kv.k.slice b.1 b.2), mk (kv.v.slice b.1 b.2)] else []

theorem trace_sendKv (p : Port) (b : Mem.Block) (kv : Kv β) :
    Trace (sendKv p b.1 b.2 kv) (kvParts (LEv.out p) b kv) () := by
  unfold sendKv kvParts
  split_ifs
  · exact (Trace.write1 p _).bind (Trace.write1 p _)
  · exact .ret ()

def Kv.copyIn (kv : Kv β) (b : Mem.Block) (src : Kv β) : Kv β :=
  ⟨kv.k.store b.1 (src.k.slice b.1 b.2), kv.v.store b.1 (src.v.slice b.1 b.2)⟩

theorem trace_recvKv (p : Port) (b : Mem.Block) (src kv : Kv β) :
    Trace (recvKv p b.1 b.2 kv) (kvParts (LEv.inp p) b src) (kv.copyIn b src) := by
  unfold recvKv kvParts
  split_ifs with h
  · refine (Trace.read1 (Mem.slice_length src.k b.1 b.2)).bind (l := [_]) ?_
    exact (Trace.read1 (Mem.slice_length src.v b.1 b.2)).bind (.ret _)
  · have hb : b.2 = 0 := by omega
    simpa [Kv.copyIn, hb] using Trace.ret kv

/-- The messages that carry a block from node `a` to node `b`. -/
def kvMsgs (a b : Nat) (blk : Mem.Block) (kv : Kv β) : List (GEv Port β) :=
  kvParts (send a b) blk kv

theorem view_kvMsgs (cap : Port → Nat) {a b : Nat} (h : b ≠ a) (c : Nat) (blk : Mem.Block)
    (kv : Kv β) :
    view (mainNet cap) (c, 0) (kvMsgs a b blk kv)
      = if a = c then kvParts (LEv.out (port c b)) blk kv
        else if b = c then kvParts (LEv.inp (port c a)) blk kv else [] := by
  unfold kvMsgs kvParts
  by_cases hblk : 0 < blk.2
  · simp only [if_pos hblk, view_cons, view_nil, view_send cap h, List.append_nil]
    split_ifs <;> rfl
  · simp [hblk]

theorem view_kvMsgs_thread (cap : Port → Nat) {a b : Nat} (h : b ≠ a) {p : Party} (hp : p.2 ≠ 0)
    (blk : Mem.Block) (kv : Kv β) : view (mainNet cap) p (kvMsgs a b blk kv) = [] := by
  unfold kvMsgs kvParts
  split_ifs <;> simp [view_send_thread cap h hp]

/-! ## One rank's walk over its peers -/

def Kv.gather (blk : Nat → Mem.Block) (init : Nat → Kv β) (me n : Nat) : Kv β :=
  ⟨Mem.gather blk (fun r => (init r).k) me n, Mem.gather blk (fun r => (init r).v) me n⟩

theorem Kv.gather_succ (blk : Nat → Mem.Block) (init : Nat → Kv β) (me n : Nat) :
    Kv.gather blk init me (n + 1)
      = if n = me then Kv.gather blk init me n
        else (Kv.gather blk init me n).copyIn (blk n) (init n) := by
  split_ifs with h <;> simp [Kv.gather, Kv.copyIn, Mem.gather, h]

/-- No cell lies in the blocks of two ranks. -/
def DisjointBlocks (blk : Nat → Mem.Block) (n : Nat) : Prop :=
  ∀ i r r', r < n → r' < n → (blk r).Has i → (blk r').Has i → r = r'

/-- What a rank sends is never overwritten by what it has received so far. -/
theorem kvParts_gather {τ : Type} {blk : Nat → Mem.Block} {n : Nat}
    (hdis : DisjointBlocks blk n) (mk : List β → τ) (init : Nat → Kv β) {me k : Nat}
    (hme : me < n) (hk : k ≤ n) :
    kvParts mk (blk me) (Kv.gather blk init me k) = kvParts mk (blk me) (init me) := by
  have hkeep : ∀ (init : Nat → Mem β) (i : Nat), i < (blk me).2 →
      Mem.gather blk init me k ((blk me).1 + i) = init me ((blk me).1 + i) := by
    intro init i hi
    refine Mem.gather_apply_of_not_mem fun r hr hne hmem => hne ?_
    exact hdis _ r me (by omega) hme hmem ⟨by omega, by omega⟩
  unfold kvParts Kv.gather
  rw [Mem.slice_congr (hkeep _), Mem.slice_congr (hkeep _)]

section Walk

variable (t : NnParallelTopology) (f : SpKvForward)

/-- The node of rank `r` in the lane `l` of a stage and a TP rank. -/
def laneNode (l : Nat × Nat) (r : Nat) : Nat := t.rankAt l.1 r l.2

/-- What node `x` of rank `me` does when it meets rank `r` of its lane. -/
def meetEvents (init : Nat → Kv β) (l : Nat × Nat) (me r : Nat) : List (LEv Port β) :=
  let socket := port (laneNode t l me) (laneNode t l r)
  let outs := kvParts (LEv.out socket) (f.block t me) (init me)
  let inps := kvParts (LEv.inp socket) (f.block t r) (init r)
  if r < me then inps ++ outs else if me < r then outs ++ inps else []

variable {t f}

theorem trace_exchangeWith (hdis : DisjointBlocks (f.block t) t.spSize) (init : Nat → Kv β)
    {l : Nat × Nat} (hl : l.2 < t.tpSize) {me r : Nat} (hme : me < t.spSize)
    (hr : r < t.spSize) :
    Trace ((spKvCall t f (laneNode t l me)).exchangeWith r (Kv.gather (f.block t) init me r))
      (meetEvents t f init l me r) (Kv.gather (f.block t) init me (r + 1)) := by
  obtain ⟨hpp, hsp, htp⟩ := t.placement_rankAt l.1 hme hl
  have hrank : (spKvCall t f (laneNode t l me)).mySpRank = me := by
    rw [spKvCall_mySpRank]
    exact hsp
  have hnode : (spKvCall t f (laneNode t l me)).node.globalRank = laneNode t l me := rfl
  have hpeer : (spKvCall t f (laneNode t l me)).peerNode r = laneNode t l r := by
    rw [spKvCall_peerNode, laneNode, laneNode, hpp, htp]
  have hmy : (spKvCall t f (laneNode t l me)).myRange = f.range t me := by
    rw [spKvCall_myRange]
    exact congrArg _ hsp
  have hsend : (spKvCall t f (laneNode t l me)).sendBytes = (f.block t me).2 := by
    rw [spKvCall_sendBytes]
    exact congrArg (fun x => (f.block t x).2) hsp
  have hdim : (spKvCall t f (laneNode t l me)).kvDim0Bytes = f.kvDim0Bytes t := rfl
  have hkeep : ∀ k, k ≤ t.spSize → ∀ p : Port,
      kvParts (LEv.out p) (f.block t me) (Kv.gather (f.block t) init me k)
        = kvParts (LEv.out p) (f.block t me) (init me) :=
    fun k hk p => kvParts_gather hdis _ init hme hk
  rw [SpKvCall.exchangeWith, hrank, hnode, hpeer, hmy, hsend, spKvCall_peerRange,
    spKvCall_recvBytes, hdim]
  rcases Nat.lt_trichotomy r me with h | rfl | h
  · have hout := trace_sendKv (port (laneNode t l me) (laneNode t l r)) (f.block t me)
      (Kv.gather (f.block t) init me (r + 1))
    rw [hkeep _ (by omega)] at hout
    rw [Kv.gather_succ, if_neg (by omega)] at hout ⊢
    simp only [meetEvents, if_pos h, if_neg (show ¬ r = me by omega),
      if_neg (show ¬ me < r by omega)]
    refine (trace_recvKv _ (f.block t r) (init r) _).bind ?_
    have hret := hout.bind (f := fun _ => Prog.ret
      ((Kv.gather (f.block t) init me r).copyIn (f.block t r) (init r))) (.ret _)
    rwa [List.append_nil] at hret
  · rw [Kv.gather_succ]
    simp only [meetEvents, if_true, Nat.lt_irrefl, if_false]
    exact .ret _
  · have hout := trace_sendKv (port (laneNode t l me) (laneNode t l r)) (f.block t me)
      (Kv.gather (f.block t) init me r)
    rw [hkeep _ (by omega)] at hout
    rw [Kv.gather_succ, if_neg (by omega)]
    simp only [meetEvents, if_pos h, if_neg (show ¬ r = me by omega),
      if_neg (show ¬ r < me by omega)]
    exact hout.bind (trace_recvKv _ (f.block t r) (init r) _)

theorem trace_exchange (hsp : 2 ≤ t.spSize) (hdis : DisjointBlocks (f.block t) t.spSize)
    (init : Nat → Kv β) {l : Nat × Nat} (hl : l.2 < t.tpSize) {me : Nat} (hme : me < t.spSize) :
    Trace ((spKvCall t f (laneNode t l me)).exchange (init me))
      ((List.range t.spSize).flatMap (meetEvents t f init l me))
      (Kv.gather (f.block t) init me t.spSize) := by
  rw [SpKvCall.exchange, spKvCall_actualSpSize, if_neg (by omega)]
  exact Trace.loop (Kv.gather (f.block t) init me) _ fun r hr =>
    trace_exchangeWith hdis init hl hme hr

end Walk

/-! ## The schedule of all lanes -/

section Schedule

variable (t : NnParallelTopology) (f : SpKvForward)

/-- A stage and a TP rank: the nodes that differ only in their SP rank. -/
def lanes : List (Nat × Nat) :=
  (List.range t.ppSize).product (List.range t.tpSize)

theorem mem_lanes {l : Nat × Nat} : l ∈ lanes t ↔ l.1 < t.ppSize ∧ l.2 < t.tpSize := by
  obtain ⟨a, b⟩ := l
  rw [lanes, List.pair_mem_product, List.mem_range, List.mem_range]

theorem nodup_lanes : (lanes t).Nodup :=
  List.Nodup.product List.nodup_range List.nodup_range

theorem laneNode_inj {l l' : Nat × Nat} {r r' : Nat} (hl : l.2 < t.tpSize) (hl' : l'.2 < t.tpSize)
    (hr : r < t.spSize) (hr' : r' < t.spSize) (h : laneNode t l r = laneNode t l' r') :
    l = l' ∧ r = r' := by
  obtain ⟨h₁, h₂, h₃⟩ := t.placement_rankAt l.1 hr hl
  obtain ⟨h₁', h₂', h₃'⟩ := t.placement_rankAt l'.1 hr' hl'
  have h : t.rankAt l.1 r l.2 = t.rankAt l'.1 r' l'.2 := h
  rw [h] at h₁ h₂ h₃
  exact ⟨Prod.ext (h₁.symm.trans h₁') (h₃.symm.trans h₃'), h₂.symm.trans h₂'⟩

def pairMsgs (init : Nat → Kv β) (l : Nat × Nat) (a b : Nat) : List (GEv Port β) :=
  kvMsgs (laneNode t l a) (laneNode t l b) (f.block t a) (init (laneNode t l a))
    ++ kvMsgs (laneNode t l b) (laneNode t l a) (f.block t b) (init (laneNode t l b))

/-- Every pair of every lane, the pairs of a lane in lexicographic order. -/
def spKvSchedule (init : Nat → Kv β) : List (GEv Port β) :=
  (lanes t).flatMap fun l => (List.range t.spSize).flatMap fun a =>
    (List.range t.spSize).flatMap fun b => if a < b then pairMsgs t f init l a b else []

variable {t f}

/-- A party that is not one of the two ranks of a pair has no part in it. -/
theorem view_pairMsgs_eq_nil (cap : Port → Nat) (init : Nat → Kv β) {l : Nat × Nat}
    (hl : l.2 < t.tpSize) {a b : Nat} (ha : a < t.spSize) (hb : b < t.spSize) (hab : a < b)
    {p : Party} (hp : p.2 ≠ 0 ∨ (laneNode t l a ≠ p.1 ∧ laneNode t l b ≠ p.1)) :
    view (mainNet cap) p (pairMsgs t f init l a b) = [] := by
  have hne : laneNode t l a ≠ laneNode t l b := by
    intro h
    have := (laneNode_inj t hl hl ha hb h).2
    omega
  obtain ⟨c, thread⟩ := p
  rw [pairMsgs, view_append]
  by_cases hthread : thread = 0
  · subst hthread
    have hp : laneNode t l a ≠ c ∧ laneNode t l b ≠ c := hp.resolve_left (by simp)
    rw [view_kvMsgs cap hne.symm, view_kvMsgs cap hne]
    simp [hp.1, hp.2]
  · rw [view_kvMsgs_thread cap hne.symm hthread, view_kvMsgs_thread cap hne hthread]
    rfl

theorem view_spKvSchedule (cap : Port → Nat) (init : Nat → Kv β) {l : Nat × Nat}
    (hl : l ∈ lanes t) {me : Nat} (hme : me < t.spSize) :
    view (mainNet cap) (laneNode t l me, 0) (spKvSchedule t f init)
      = (List.range t.spSize).flatMap
          (meetEvents t f (fun r => init (laneNode t l r)) l me) := by
  have htp := ((mem_lanes t).1 hl).2
  have hne : ∀ {a b}, a < t.spSize → b < t.spSize → a ≠ b →
      laneNode t l a ≠ laneNode t l b := fun ha hb hab h => hab (laneNode_inj t htp htp ha hb h).2
  -- the walk of one lane, as this node sees it
  have hlane : ∀ l' ∈ lanes t,
      view (mainNet cap) (laneNode t l me, 0) ((List.range t.spSize).flatMap fun a =>
        (List.range t.spSize).flatMap fun b => if a < b then pairMsgs t f init l' a b else [])
      = if l' = l then (List.range t.spSize).flatMap
          (meetEvents t f (fun r => init (laneNode t l r)) l me) else [] := by
    intro l' hl'
    have htp' := ((mem_lanes t).1 hl').2
    simp only [view_flatMap, apply_ite (view (mainNet cap) (laneNode t l me, 0)), view_nil]
    split_ifs with h
    · subst h
      refine flatMap_pairs hme ?_ ?_ ?_
      · intro a ha
        have hne := hne (a := a) (by omega) hme (by omega)
        rw [pairMsgs, view_append, view_kvMsgs cap hne.symm, view_kvMsgs cap hne]
        simp [hne]
      · intro b hb hbn
        have hne := hne hme hbn (by omega)
        rw [pairMsgs, view_append, view_kvMsgs cap hne.symm, view_kvMsgs cap hne]
        simp [hne.symm]
      · intro a b hab hb hame hbme
        exact view_pairMsgs_eq_nil cap init htp (by omega) hb hab
          (.inr ⟨hne (by omega) hme hame, hne hb hme hbme⟩)
    · refine List.flatMap_eq_nil_iff.2 fun a ha => List.flatMap_eq_nil_iff.2 fun b hb => ?_
      rw [List.mem_range] at ha hb
      split_ifs with hab
      · refine view_pairMsgs_eq_nil cap init htp' ha hb hab (.inr ⟨?_, ?_⟩)
        · exact fun he => h (laneNode_inj t htp' htp ha hme he).1
        · exact fun he => h (laneNode_inj t htp' htp hb hme he).1
      · rfl
  rw [spKvSchedule, view_flatMap, List.flatMap_congr hlane,
    flatMap_ite_eq (nodup_lanes t) hl]

end Schedule

/-! ## The system of all nodes -/

section System

variable (t : NnParallelTopology) (f : SpKvForward)

/-- Thread 0 of every node of the topology is about to exchange; the other threads pass by. -/
def spKvSystem (init : Nat → Kv β) : Config Party Port β (Kv β) where
  proc p :=
    if p.1 < t.nNodes ∧ p.2 = 0 then (spKvCall t f p.1).exchange (init p.1) else .ret (init p.1)
  sent _ := []

/-- The buffers after the exchange. -/
def spKvResult (init : Nat → Kv β) (p : Party) : Kv β :=
  if p.1 < t.nNodes ∧ p.2 = 0 then
    Kv.gather (f.block t)
      (fun r => init (t.rankAt (t.placement p.1).ppRank r (t.placement p.1).tpRank))
      (t.placement p.1).spRank t.spSize
  else init p.1

variable {t f}

theorem exists_laneNode {node : Nat} (h : node < t.nNodes) :
    ((t.placement node).ppRank, (t.placement node).tpRank) ∈ lanes t ∧
      laneNode t ((t.placement node).ppRank, (t.placement node).tpRank)
        (t.placement node).spRank = node :=
  ⟨(mem_lanes t).2 ⟨t.ppRank_lt h, t.tpRank_lt node⟩, t.rankAt_placement node⟩

/-- Whatever the interleaving and however little room the links have, the exchange of disjoint
blocks ends, and ends with every rank holding every block. -/
theorem spKvSystem_completes (hsp : 2 ≤ t.spSize)
    (hdis : DisjointBlocks (f.block t) t.spSize) (cap : Port → Nat) (init : Nat → Kv β) :
    Completes (mainNet cap) (spKvSystem t f init) (spKvResult t f init) := by
  refine Sched.completes (G := spKvSchedule t f init) (Sched.of_msgs ?_)
    ((List.range t.nNodes).map fun node => (node, 0)) ?_ ?_
  · intro e he
    simp only [spKvSchedule, List.mem_flatMap] at he
    obtain ⟨l, -, a, -, b, -, he⟩ := he
    split_ifs at he
    · simp only [pairMsgs, kvMsgs, kvParts, List.mem_append] at he
      rcases he with he | he
      all_goals
        split_ifs at he
        · simp only [List.mem_cons, List.not_mem_nil, or_false] at he
          rcases he with rfl | rfl <;> exact ⟨_, _, rfl, owner_ne_owner_peer _ _ _⟩
        · cases he
    · cases he
  · rintro ⟨node, thread⟩ hp
    have hnot : ¬ (node < t.nNodes ∧ thread = 0) := by
      rintro ⟨h, rfl⟩
      exact hp (List.mem_map.2 ⟨node, List.mem_range.2 h, rfl⟩)
    simp [spKvSystem, spKvResult, hnot]
  · rintro ⟨node, thread⟩
    by_cases h : node < t.nNodes ∧ thread = 0
    · obtain ⟨h, rfl⟩ := h
      obtain ⟨hl, hnode⟩ := exists_laneNode (t := t) h
      have hview := view_spKvSchedule (f := f) cap init hl (t.spRank_lt node)
      have htrace := trace_exchange hsp hdis
        (fun r => init (laneNode t ((t.placement node).ppRank, (t.placement node).tpRank) r))
        (l := ((t.placement node).ppRank, (t.placement node).tpRank))
        (t.tpRank_lt node) (t.spRank_lt node)
      rw [hnode] at hview htrace
      simp only [spKvSystem, spKvResult, h, true_and, if_true, hview]
      exact htrace
    · have hview : view (mainNet cap) (node, thread) (spKvSchedule t f init) = [] := by
        simp only [spKvSchedule, view_flatMap]
        refine List.flatMap_eq_nil_iff.2 fun l hl => List.flatMap_eq_nil_iff.2 fun a ha =>
          List.flatMap_eq_nil_iff.2 fun b hb => ?_
        rw [List.mem_range] at ha hb
        obtain ⟨hpp, htp⟩ := (mem_lanes t).1 hl
        split_ifs with hab
        · refine view_pairMsgs_eq_nil cap init htp ha hb hab ?_
          by_contra hno
          push Not at hno
          obtain ⟨hthread, hno⟩ := hno
          refine h ⟨?_, hthread⟩
          by_cases hna : laneNode t l a = node
          · exact hna ▸ t.rankAt_lt hpp ha htp
          · have hnb : laneNode t l b = node := hno hna
            exact hnb ▸ t.rankAt_lt hpp hb htp
        · rfl
      rw [hview]
      simp only [spKvSystem, spKvResult, if_neg h]
      exact .ret _

end System

/-! ## Rows -/

section Rows

variable {t : NnParallelTopology} {f : SpKvForward}

/-- A byte of row `p` lies in the block of a rank iff the row is one of the rows it sends. -/
theorem block_has_iff {rank p j : Nat} (hj : j < f.kvDim0Bytes t) :
    (f.block t rank).Has (p * f.kvDim0Bytes t + j)
      ↔ (f.range t rank).1 ≤ p ∧ p < (f.range t rank).2 ∧ p ≤ f.maxPos := by
  generalize hd : f.kvDim0Bytes t = dim at hj
  simp only [Mem.Block.Has, SpKvForward.block, SpKvForward.activeRows, hd]
  generalize (f.range t rank).1 = lo
  generalize (f.range t rank).2 = hi
  rw [← Nat.add_mul]
  constructor
  · rintro ⟨h₁, h₂⟩
    have hlo : lo ≤ p := by
      by_contra hlt
      have : (p + 1) * dim ≤ lo * dim := Nat.mul_le_mul_right _ (by omega)
      rw [Nat.succ_mul] at this
      omega
    have hhi : p < lo + (min (f.maxPos + 1) hi - lo) := by
      by_contra hge
      have := Nat.mul_le_mul_right dim (Nat.not_lt.1 hge)
      omega
    omega
  · rintro ⟨h₁, h₂, h₃⟩
    have hlo := Nat.mul_le_mul_right dim h₁
    have hhi : (p + 1) * dim ≤ (lo + (min (f.maxPos + 1) hi - lo)) * dim :=
      Nat.mul_le_mul_right _ (by omega)
    rw [Nat.succ_mul] at hhi
    omega

/-- Ranges that share no row give blocks that share no byte. -/
theorem disjointBlocks_of_rows
    (h : ∀ p r r', r < t.spSize → r' < t.spSize →
      (f.range t r).1 ≤ p → p < (f.range t r).2 →
      (f.range t r').1 ≤ p → p < (f.range t r').2 → r = r') :
    DisjointBlocks (f.block t) t.spSize := by
  intro i r r' hr hr' hi hi'
  rcases Nat.eq_zero_or_pos (f.kvDim0Bytes t) with hd | hd
  · obtain ⟨h₁, h₂⟩ := hi
    simp only [SpKvForward.block, hd, Nat.mul_zero] at h₁ h₂
    omega
  · have hsplit : i = i / f.kvDim0Bytes t * f.kvDim0Bytes t + i % f.kvDim0Bytes t := by
      rw [Nat.mul_comm]
      exact (Nat.div_add_mod _ _).symm
    rw [hsplit, block_has_iff (Nat.mod_lt _ hd)] at hi hi'
    exact h _ r r' hr hr' hi.1 hi.2.1 hi'.1 hi'.2.1

/-- Without the context-parallel cut, a row belongs to the rank `p / localSeqLen`. -/
theorem range_mem_iff (hcp : f.cpSplit = false) (rank p : Nat) :
    ((f.range t rank).1 ≤ p ∧ p < (f.range t rank).2)
      ↔ 0 < f.localSeqLen t ∧ p / f.localSeqLen t = rank := by
  simp only [SpKvForward.range, hcp, Bool.false_and, Bool.false_eq_true, if_false]
  generalize f.localSeqLen t = len
  constructor
  · rintro ⟨h₁, h₂⟩
    have hpos : 0 < len := by omega
    refine ⟨hpos, ?_⟩
    rw [Nat.div_eq_iff hpos]
    omega
  · rintro ⟨hpos, rfl⟩
    have h₁ := Nat.div_add_mod p len
    have h₂ := Nat.mod_lt p hpos
    rw [Nat.mul_comm] at h₁
    omega

theorem disjointBlocks_of_not_cpSplit (hcp : f.cpSplit = false) :
    DisjointBlocks (f.block t) t.spSize := by
  refine disjointBlocks_of_rows fun p r r' _ _ h₁ h₂ h₁' h₂' => ?_
  have h := ((range_mem_iff hcp r p).1 ⟨h₁, h₂⟩).2
  have h' := ((range_mem_iff hcp r' p).1 ⟨h₁', h₂'⟩).2
  exact h.symm.trans h'

/-- One byte of one buffer after the all-gather of disjoint blocks, by its row. -/
theorem gather_row {init : Nat → Mem β} {me p j : Nat}
    (hdis : DisjointBlocks (f.block t) t.spSize) (hj : j < f.kvDim0Bytes t) {owner : Nat}
    (howner : owner < t.spSize)
    (hrange : (f.range t owner).1 ≤ p ∧ p < (f.range t owner).2) :
    Mem.gather (f.block t) init me t.spSize (p * f.kvDim0Bytes t + j)
      = init (if p ≤ f.maxPos then owner else me) (p * f.kvDim0Bytes t + j) := by
  split_ifs with hp
  · have hhas : (f.block t owner).Has (p * f.kvDim0Bytes t + j) :=
      (block_has_iff hj).2 ⟨hrange.1, hrange.2, hp⟩
    exact Mem.gather_apply_of_mem howner hhas fun r hr h => hdis _ r owner hr howner h hhas
  · refine Mem.gather_apply_of_not_mem fun r _ _ h => hp ?_
    exact ((block_has_iff hj).1 h).2.2

end Rows

/-- The `SYNC_SP_KV` exchange of a whole topology, over links of any capacity and in any
interleaving: it never gets stuck, what a rank sends to a peer is what the peer takes from it,
and afterwards every rank has, for every position up to `maxPos`, the row its owner had. -/
theorem spKv_exchange_allgather (t : NnParallelTopology) (f : SpKvForward) (hsp : 2 ≤ t.spSize)
    (hseq : f.seqLen % t.spSize = 0) (hcp : f.cpSplit = false) (cap : Port → Nat)
    (init : Nat → Kv β) :
    ∃ result : Party → Kv β,
      Completes (mainNet cap) (spKvSystem t f init) result ∧
      (∀ d, Reach (mainNet cap) (spKvSystem t f init) d → Stuck (mainNet cap) d → d.Final) ∧
      (∀ a b, (spKvCall t f a).sendBytes
        = (spKvCall t f b).recvBytes (spKvCall t f a).mySpRank) ∧
      ∀ pp r tp, pp < t.ppSize → r < t.spSize → tp < t.tpSize →
        ∀ p j, p < f.seqLen → j < f.kvDim0Bytes t →
          let i := p * f.kvDim0Bytes t + j
          let owner := if p ≤ f.maxPos then p / f.localSeqLen t else r
          (result (t.rankAt pp r tp, 0)).k i = (init (t.rankAt pp owner tp)).k i ∧
          (result (t.rankAt pp r tp, 0)).v i = (init (t.rankAt pp owner tp)).v i := by
  have hdis : DisjointBlocks (f.block t) t.spSize := disjointBlocks_of_not_cpSplit hcp
  have hcomp := spKvSystem_completes hsp hdis cap init
  refine ⟨spKvResult t f init, hcomp, fun d => hcomp.final_of_stuck, ?_, ?_⟩
  · intro a b
    rw [spKvCall_sendBytes, spKvCall_recvBytes, spKvCall_mySpRank]
  · intro pp r tp hpp hr htp p j hp hj
    have hseqLen : t.spSize * f.localSeqLen t = f.seqLen :=
      Nat.mul_div_cancel' (Nat.dvd_of_mod_eq_zero hseq)
    have hlen : 0 < f.localSeqLen t := by
      rcases Nat.eq_zero_or_pos (f.localSeqLen t) with h | h
      · rw [h, Nat.mul_zero] at hseqLen
        omega
      · exact h
    have howner : p / f.localSeqLen t < t.spSize := by
      rw [Nat.div_lt_iff_lt_mul hlen]
      omega
    have hrange := (range_mem_iff (t := t) hcp (p / f.localSeqLen t) p).2 ⟨hlen, rfl⟩
    obtain ⟨h₁, h₂, h₃⟩ := t.placement_rankAt pp hr htp
    have hnode := t.rankAt_lt hpp hr htp
    simp only [spKvResult, hnode, true_and, if_true, h₁, h₂, h₃, Kv.gather]
    exact ⟨gather_row hdis hj howner hrange, gather_row hdis hj howner hrange⟩

/-- Two ranks, rendezvous links: rank 1 ends with row 0 of rank 0. -/
theorem spKv_exchange_allgather_two_ranks :
    ∃ result : Party → Kv Nat,
      Completes (mainNet fun _ => 0)
        (spKvSystem ⟨2, 1, 2, 1, by decide, by decide, by decide, rfl⟩ ⟨1, 4, 3, id, false⟩
          fun node => ⟨fun i => 100 * node + i, fun i => 100 * node + i⟩) result ∧
      (result (1, 0)).k 0 = 0 := by
  obtain ⟨result, hcomp, -, -, hrow⟩ := spKv_exchange_allgather
    (⟨2, 1, 2, 1, by decide, by decide, by decide, rfl⟩ : NnParallelTopology)
    ⟨1, 4, 3, id, false⟩ (by decide) (by decide) rfl (fun _ => 0)
    fun node => ⟨fun i => 100 * node + i, fun i => 100 * node + i⟩
  exact ⟨result, hcomp,
    (hrow 0 1 0 (by decide) (by decide) (by decide) 0 0 (by decide) (by decide)).1⟩

end Network
end PrefillOpt
