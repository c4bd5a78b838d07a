import PrefillOpt.Kernels.AttentionBatch

/-!
# Kernels.AttentionThreads — the threads of an attention kernel

A thread runs the head loop over its share of the heads, or over its share of the groups of heads
when there are enough of them.  Either way every head has one thread, so that every element of the
output is stored by one thread and the order of the threads does not matter.
-/

namespace PrefillOpt
namespace Kernels

open Lib (Mem blockStart blockCount)

/-! ## The head loop -/

section HeadLoop

variable {c : NnMultiHeadAttOpConfig} {nThreads threadIndex h0 turn : Nat}

/-- The head is in the share of the thread. -/
def HeadLoop.Has (l : HeadLoop) (h0 : Nat) : Prop := l.h0Begin ≤ h0 ∧ h0 < l.h0Limit

def HeadGroup.Has (g : HeadGroup) (h0 : Nat) : Prop :=
  g.h0Base ≤ h0 ∧ h0 < g.h0Base + g.nHeadsInGroup

/-- The groups of a thread are the ones `multiheadAttBatchReads` walks through. -/
theorem multiheadAttBatchReads_eq :
    multiheadAttBatchReads c.nHeads c.nHeads0 c.nKvHeads c.headDim nThreads threadIndex
      = (headGroups c nThreads threadIndex).flatMap fun g =>
          (List.range g.nHeadsInGroup).map fun j => ⟨g.h0Base + j, g.column⟩ := by
  unfold headGroups headLoop multiheadAttBatchReads
  dsimp only
  split_ifs <;> simp [HeadLoop.turns, headGroup, List.flatMap_map]

theorem headLoop_stride_pos (c : NnMultiHeadAttOpConfig) (nThreads threadIndex : Nat) :
    0 < (headLoop c nThreads threadIndex).headStride := by
  unfold headLoop
  dsimp only
  split_ifs with hgroups hsplit
  · exact hgroups.1
  · exact Nat.one_pos
  · omega
  · exact Nat.one_pos

/-- A head is in the turn that its distance from the first head says. -/
theorem headGroup_has_iff (c : NnMultiHeadAttOpConfig) {l : HeadLoop} (hstride : 0 < l.headStride) :
    (headGroup c l turn).Has h0 ↔ l.Has h0 ∧ (h0 - l.h0Begin) / l.headStride = turn := by
  have hdiv : (h0 - l.h0Begin) / l.headStride = turn ↔
      turn * l.headStride ≤ h0 - l.h0Begin ∧
        h0 - l.h0Begin < turn * l.headStride + l.headStride := by
    rw [← Nat.succ_mul, ← Nat.le_div_iff_mul_le hstride, ← Nat.div_lt_iff_lt_mul hstride]
    omega
  rw [hdiv]
  simp only [HeadGroup.Has, HeadLoop.Has, headGroup]
  split_ifs <;> omega

/-- The loop reaches the turn of every head of the share. -/
theorem turn_lt_turns {l : HeadLoop} (hstride : 0 < l.headStride) (h : l.Has h0) :
    (h0 - l.h0Begin) / l.headStride < l.turns := by
  have hlt : h0 - l.h0Begin < l.h0Limit - l.h0Begin := by
    rcases h with ⟨hle, hlt⟩
    omega
  rw [HeadLoop.turns, Nat.div_lt_iff_lt_mul hstride]
  have hmod := Nat.div_add_mod (l.h0Limit - l.h0Begin + (l.headStride - 1)) l.headStride
  have hrest := Nat.mod_lt (l.h0Limit - l.h0Begin + (l.headStride - 1)) hstride
  rw [Nat.mul_comm] at hmod
  omega

theorem exists_unique_block {m n x : Nat} (hn : 0 < n) (hx : x < m) :
    ∃! r, r < n ∧ blockStart m n r ≤ x ∧ x < blockStart m n r + blockCount m n r := by
  rcases Lib.exists_block hn hx with ⟨r, hr, hle, hlt⟩
  refine ⟨r, ⟨hr, hle, hlt⟩, fun r' h' => ?_⟩
  exact Lib.block_unique h'.2.1 h'.2.2 hle hlt

/-- In each of the two splits every local head is in the share of one thread. -/
theorem exists_unique_thread (hn : 0 < nThreads) (hh : h0 < c.nHeads0) :
    ∃! t, t < nThreads ∧ (headLoop c nThreads t).Has h0 := by
  unfold headLoop HeadLoop.Has
  simp only [splitThreads_eq]
  generalize c.nHeads / c.nKvHeads = kvMul
  generalize hgroups :
    (if 0 < kvMul ∧ c.nHeads0 % kvMul = 0 then c.nHeads0 / kvMul else 0) = nGroups
  by_cases hsplit : nThreads ≤ nGroups ∧ 0 < nGroups
  · simp only [if_pos hsplit]
    have hwhole : 0 < kvMul ∧ c.nHeads0 % kvMul = 0 := by
      by_contra hno
      rw [if_neg hno] at hgroups
      omega
    rw [if_pos hwhole] at hgroups
    have hgroup : h0 / kvMul < nGroups := by
      rw [← hgroups]
      exact Nat.div_lt_div_of_lt_of_dvd (Nat.dvd_of_mod_eq_zero hwhole.2) hh
    have hunique := exists_unique_block hn hgroup
    simp only [Nat.le_div_iff_mul_le hwhole.1, Nat.div_lt_iff_lt_mul hwhole.1] at hunique
    exact hunique
  · simp only [if_neg hsplit]
    exact exists_unique_block hn hh

/-- The heads of a turn are local heads and share a key head. -/
theorem head_of_turn (ht : threadIndex < nThreads)
    (hturn : turn < (headLoop c nThreads threadIndex).turns)
    (h : (headGroup c (headLoop c nThreads threadIndex) turn).Has h0) :
    h0 < c.nHeads0 ∧ (headGroup c (headLoop c nThreads threadIndex) turn).column
      = u32 (h0 / (c.nHeads / c.nKvHeads) * c.headDim) := by
  generalize hg : headGroup c (headLoop c nThreads threadIndex) turn = g at h ⊢
  have hread : ⟨h0, g.column⟩ ∈
      multiheadAttBatchReads c.nHeads c.nHeads0 c.nKvHeads c.headDim nThreads threadIndex := by
    rw [multiheadAttBatchReads_eq]
    refine List.mem_flatMap.2 ⟨g, ?_, List.mem_map.2 ⟨h0 - g.h0Base, ?_, ?_⟩⟩
    · exact List.mem_map.2 ⟨turn, List.mem_range.2 hturn, hg⟩
    · rw [List.mem_range]
      rcases h with ⟨hle, hlt⟩
      omega
    · rw [Nat.add_sub_cancel' h.1]
  exact column_of_mem_batch ht hread

end HeadLoop

/-! ## All threads -/

/-- From the state `s` the threads, in any order, leave `spec b h0 i` in element `i` of head `h0`
of every row `b`; each of these elements is stored by one thread, and no others are. -/
structure Delivers {R S : Type} (c : NnMultiHeadAttOpConfig) (rows : List Nat) (nThreads : Nat)
    (run : Nat → S → S) (outputs : S → Outputs R) (spec : Nat → Nat → Nat → R) (s : S) : Prop where
  value : ∀ order : List Nat, order.Perm (List.range nThreads) → ∀ b ∈ rows, ∀ h0 < c.nHeads0,
    ∀ i < c.headDim,
      (outputs (order.foldl (fun s t => run t s) s) b (h0 * c.headDim + i)).val = spec b h0 i
  writer : (∀ b col, (outputs s b col).stored = false) → ∀ b ∈ rows, ∀ h0 < c.nHeads0,
    ∀ i < c.headDim, ∃! t, t < nThreads ∧
      (outputs (run t s) b (h0 * c.headDim + i)).stored = true
  others : ∀ t < nThreads, ∀ b col,
    (∀ h0 < c.nHeads0, b ∈ rows → ¬InHead c b h0 b col) → outputs (run t s) b col = outputs s b col

/-- What one thread does: a thread that has the head leaves its elements, provided that the head
is still as before (`K`), and touches nothing else. -/
structure ThreadSpec {R S : Type} (c : NnMultiHeadAttOpConfig) (rows : List Nat) (nThreads : Nat)
    (run : Nat → S → S) (outputs : S → Outputs R) (spec : Nat → Nat → Nat → R)
    (owns : Nat → Nat → Prop) (K : Nat → Nat → S → Prop) : Prop where
  unique : ∀ h0 < c.nHeads0, ∃! t, t < nThreads ∧ owns t h0
  isLocal : ∀ t < nThreads, ∀ h0, owns t h0 → h0 < c.nHeads0
  own : ∀ t < nThreads, ∀ h0, owns t h0 → ∀ b ∈ rows, ∀ i < c.headDim, ∀ s, K b h0 s →
    outputs (run t s) b (h0 * c.headDim + i) = ⟨spec b h0 i, true⟩
  keep : ∀ t < nThreads, ∀ h0 < c.nHeads0, ¬owns t h0 → ∀ b ∈ rows, ∀ s, K b h0 s →
    K b h0 (run t s)
  other : ∀ t < nThreads, ∀ s b col, (∀ h0, owns t h0 → b ∈ rows → ¬InHead c b h0 b col) →
    outputs (run t s) b col = outputs s b col

section Threads

variable {R S : Type} {c : NnMultiHeadAttOpConfig} {rows : List Nat} {nThreads : Nat}
  {run : Nat → S → S} {outputs : S → Outputs R} {spec : Nat → Nat → Nat → R}
  {owns : Nat → Nat → Prop} {K : Nat → Nat → S → Prop} {s : S}

/-- A thread without the head leaves its elements alone. -/
theorem ThreadSpec.other_head (h : ThreadSpec c rows nThreads run outputs spec owns K)
    {t h0 i : Nat} (ht : t < nThreads) (hnot : ¬owns t h0) (hi : i < c.headDim) (b : Nat) (s : S) :
    outputs (run t s) b (h0 * c.headDim + i) = outputs s b (h0 * c.headDim + i) := by
  refine h.other t ht s b _ fun h0' howns _ hin => hnot ?_
  rw [← (hin.unique hi).2]
  exact howns

theorem ThreadSpec.delivers (h : ThreadSpec c rows nThreads run outputs spec owns K)
    (hs : ∀ b ∈ rows, ∀ h0 < c.nHeads0, K b h0 s) :
    Delivers c rows nThreads run outputs spec s where
  value := by
    intro order horder b hb h0 hh i hi
    rcases h.unique h0 hh with ⟨t, ⟨ht, howns⟩, hunique⟩
    have hlt : ∀ t' ∈ order, t' < nThreads := fun t' ht' => List.mem_range.1 (horder.mem_iff.1 ht')
    have hnot : ∀ t' ∈ order, t' ≠ t → ¬owns t' h0 :=
      fun t' ht' hne howns' => hne (hunique t' ⟨hlt t' ht', howns'⟩)
    refine Lib.foldl_once (P := K b h0)
      (Q := fun s => (outputs s b (h0 * c.headDim + i)).val = spec b h0 i)
      (horder.nodup_iff.2 List.nodup_range) (horder.mem_iff.2 (List.mem_range.2 ht))
      (fun t' ht' hne s hK => ?_) (fun s hK => ?_) (fun t' ht' hne s hval => ?_) (hs b hb h0 hh)
    · exact h.keep t' (hlt t' ht') h0 hh (hnot t' ht' hne) b hb s hK
    · rw [h.own t ht h0 howns b hb i hi s hK]
    · rw [h.other_head (hlt t' ht') (hnot t' ht' hne) hi]
      exact hval
  writer := by
    intro hclean b hb h0 hh i hi
    rcases h.unique h0 hh with ⟨t, ⟨ht, howns⟩, hunique⟩
    refine ⟨t, ⟨ht, ?_⟩, fun t' ht' => hunique t' ⟨ht'.1, ?_⟩⟩
    · rw [h.own t ht h0 howns b hb i hi s (hs b hb h0 hh)]
    · by_contra hnot
      have hstored := ht'.2
      rw [h.other_head ht'.1 hnot hi, hclean] at hstored
      exact Bool.false_ne_true hstored
  others := by
    intro t ht b col hout
    exact h.other t ht s b col fun h0 howns hb => hout h0 (h.isLocal t ht h0 howns) hb

end Threads

/-! ## The decode kernel on every row -/

section Decode

variable {R : Type} [Field R] [LinearOrder R] {m : Libm R} {c : NnMultiHeadAttOpConfig}
  {inp : AttInput R} {nBatches batchSize nThreads threadIndex b : Nat}

/-- The heads of a thread of the decode kernel. -/
def DecodeOwns (c : NnMultiHeadAttOpConfig) (nThreads threadIndex h0 : Nat) : Prop :=
  blockStart c.nHeads0 nThreads threadIndex ≤ h0 ∧
    h0 < blockStart c.nHeads0 nThreads threadIndex + blockCount c.nHeads0 nThreads threadIndex

theorem DecodeOwns.lt (ht : threadIndex < nThreads) {h0 : Nat}
    (h : DecodeOwns c nThreads threadIndex h0) : h0 < c.nHeads0 :=
  h.2.trans_le (Lib.blockStart_add_blockCount_le ht)

theorem multiheadAtt_F32_other (ha : c.Allocated nBatches) (hb : b < nBatches)
    (ht : threadIndex < nThreads) {qOff attOff pos b' col : Nat} {s : AttState R}
    (hout : ∀ h0, DecodeOwns c nThreads threadIndex h0 → ¬InHead c b h0 b' col) :
    (multiheadAtt_F32 m c inp b qOff attOff pos nThreads threadIndex s).outputs b' col
      = s.outputs b' col := by
  refine Lib.foldl_keeps (P := fun x : AttState R => x.outputs b' col = s.outputs b' col)
    (fun r hr x hx => ?_) rfl
  have howns : DecodeOwns c nThreads threadIndex r.h0 := (mem_multiheadAttReads.1 hr).1
  exact (multiheadAttHead_other ha hb (howns.lt ht) (hout r.h0 howns)).trans hx

theorem multiheadAtt_F32_self [IsStrictOrderedRing R] (he : Lib.IsExp m.expf)
    (ha : c.Allocated nBatches) (hb : b < nBatches) (hpos : inp.positions b < c.seqLen)
    (ht : threadIndex < nThreads) {h0 : Nat} (howns : DecodeOwns c nThreads threadIndex h0)
    {i : Nat} (hi : i < c.headDim) (s : AttState R) :
    (multiheadAtt_F32 m c inp b (u32 (b * c.qSliceD0)) (u32 (b * c.nHeads0 * c.seqLen))
        (inp.positions b) nThreads threadIndex s).outputs b (h0 * c.headDim + i)
      = ⟨attentionOut m c inp (Finset.range (inp.positions b + 1)) b h0 i, true⟩ := by
  refine Lib.foldl_establishes (A := fun r : HeadRead => r.h0 = h0)
    (Q := fun x : AttState R => x.outputs b (h0 * c.headDim + i)
      = ⟨attentionOut m c inp (Finset.range (inp.positions b + 1)) b h0 i, true⟩)
    ⟨⟨h0, u32 (h0 / (c.nHeads / c.nKvHeads) * c.headDim)⟩,
      mem_multiheadAttReads.2 ⟨howns, rfl⟩, rfl⟩ (fun r hr heq x => ?_)
    (fun r hr hne x hx => ?_) s
  · have hmem := mem_multiheadAttReads.1 hr
    have hlt : r.h0 < c.nHeads0 := DecodeOwns.lt ht hmem.1
    rw [← heq]
    exact multiheadAttHead_self he ha hb hpos hlt (hmem.2.trans (u32_column ha hb hlt)) hi
  · have hlt : r.h0 < c.nHeads0 := DecodeOwns.lt ht (mem_multiheadAttReads.1 hr).1
    exact (multiheadAttHead_other ha hb hlt fun hin => hne (hin.unique hi).2).trans hx

theorem multiheadAttRows_threadSpec [IsStrictOrderedRing R] (he : Lib.IsExp m.expf)
    (ha : c.Allocated nBatches) (hbatch : batchSize ≤ nBatches)
    (hpos : ∀ b < batchSize, inp.positions b < c.seqLen) (hn : 0 < nThreads) :
    ThreadSpec c (List.range batchSize) nThreads
      (fun t => multiheadAttRows m c inp batchSize nThreads t) AttState.outputs
      (fun b => attentionOut m c inp (Finset.range (inp.positions b + 1)) b)
      (DecodeOwns c nThreads) fun _ _ _ => True where
  unique h0 hh := exists_unique_block hn hh
  isLocal t ht h0 howns := howns.lt ht
  own := by
    intro t ht h0 howns b hb i hi s _
    have hb' := List.mem_range.1 hb
    refine Lib.foldl_establishes (A := fun b' => b' = b)
      (Q := fun x : AttState R => x.outputs b (h0 * c.headDim + i)
        = ⟨attentionOut m c inp (Finset.range (inp.positions b + 1)) b h0 i, true⟩)
      ⟨b, hb, rfl⟩ (fun b' _ heq x => ?_) (fun b' hmem hne x hx => ?_) s
    · rw [heq]
      exact multiheadAtt_F32_self he ha (by omega) (hpos b hb') ht howns hi x
    · have hlt := List.mem_range.1 hmem
      refine (multiheadAtt_F32_other ha (by omega) ht fun h0' _ hin => ?_).trans hx
      exact hne hin.1.symm
  keep _ _ _ _ _ _ _ _ _ := trivial
  other := by
    intro t ht s b col hout
    refine Lib.foldl_keeps (P := fun x : AttState R => x.outputs b col = s.outputs b col)
      (fun b' hmem x hx => ?_) rfl
    have hlt := List.mem_range.1 hmem
    refine (multiheadAtt_F32_other ha (by omega) ht fun h0 howns hin => ?_).trans hx
    rcases hin with ⟨rfl, hcol⟩
    exact hout h0 howns hmem ⟨rfl, hcol⟩

end Decode

/-! ## The batch kernel -/

/-- Rows of the batch with positions inside the cache. -/
structure RowsInRange {R : Type} (c : NnMultiHeadAttOpConfig) (inp : AttInput R) (nBatches : Nat)
    (rows : List Nat) : Prop where
  nodup : rows.Nodup
  row : ∀ b ∈ rows, b < nBatches ∧ inp.positions b < c.seqLen

/-- The head is in the share of a thread of the batch kernels. -/
def BatchOwns (c : NnMultiHeadAttOpConfig) (nThreads threadIndex h0 : Nat) : Prop :=
  (headLoop c nThreads threadIndex).Has h0

section Batch

variable {R : Type} {mask : BlockMask} {c : NnMultiHeadAttOpConfig} {inp : AttInput R}
  {nBatches nThreads threadIndex h0 turn : Nat} {rows : List Nat} {g : HeadGroup}

theorem slotTurns_nodup (h : rows.Nodup) : (slotTurns g rows).Nodup := by
  have hproduct : slotTurns g rows = ((List.range' g.h0Base g.nHeadsInGroup).product rows).map
      fun p => ⟨p.1, p.2⟩ := by
    simp [slotTurns, List.product, List.map_flatMap, Function.comp_def]
  have hheads : (List.range' g.h0Base g.nHeadsInGroup).Nodup := List.nodup_range'
  rw [hproduct]
  refine (hheads.product h).map fun p q hpq => ?_
  simp only [Slot.mk.injEq] at hpq
  exact Prod.ext hpq.1 hpq.2

theorem BatchOwns.lt (ht : threadIndex < nThreads) (h : BatchOwns c nThreads threadIndex h0) :
    h0 < c.nHeads0 := by
  have hstride := headLoop_stride_pos c nThreads threadIndex
  exact (head_of_turn ht (turn_lt_turns hstride h) ((headGroup_has_iff c hstride).2 ⟨h, rfl⟩)).1

/-- The slots of a turn are in range. -/
theorem slotsInRange_turn (hrows : RowsInRange c inp nBatches rows) (ht : threadIndex < nThreads)
    (hturn : turn < (headLoop c nThreads threadIndex).turns) :
    SlotsInRange c inp nBatches
      (slotTurns (headGroup c (headLoop c nThreads threadIndex) turn) rows) where
  nodup := slotTurns_nodup hrows.nodup
  head _ ha := (head_of_turn ht hturn (mem_slotTurns.1 ha).1).1
  row _ ha := hrows.row _ (mem_slotTurns.1 ha).2

theorem column_of_turn [Field R] (ha : c.Allocated nBatches)
    (hrows : RowsInRange c inp nBatches rows) {b : Nat} (hb : b ∈ rows)
    (ht : threadIndex < nThreads)
    (hturn : turn < (headLoop c nThreads threadIndex).turns)
    (h : (headGroup c (headLoop c nThreads threadIndex) turn).Has h0) :
    (headGroup c (headLoop c nThreads threadIndex) turn).column = keyColumn c h0 := by
  have hhead := head_of_turn ht hturn h
  exact hhead.2.trans (u32_column ha (hrows.row b hb).1 hhead.1)

variable [Field R] {m : Libm R} {att : Mem R}

theorem batchOut_congr {att' : Mem R} {b i : Nat} (hpos : inp.positions b < c.seqLen)
    (h : ∀ t < c.seqLen, att (attIndex c b h0 t) = att' (attIndex c b h0 t)) :
    batchOut m mask c inp att b h0 i = batchOut m mask c inp att' b h0 i := by
  unfold batchOut
  apply congrArg
  refine Finset.sum_congr rfl fun t ht => ?_
  have hlt := Finset.mem_range.1 ht
  rw [slotEntry, slotEntry, h t (by omega)]

/-- The thread that has a head computes its elements from what the slot of the head holds before
the call. -/
theorem multiheadAttBatch_threadSpec [LinearOrder R] [IsStrictOrderedRing R] (mask : BlockMask)
    (att : Mem R) (he : Lib.IsExp m.expf) (ha : c.Allocated nBatches) {w : CpuRowState}
    {batchSize : Nat} (hrows : RowsInRange c inp nBatches (windowRows w batchSize))
    (hn : 0 < nThreads) :
    ThreadSpec c (windowRows w batchSize) nThreads
      (fun t => multiheadAttBatch_F32 m mask c inp w batchSize nThreads t) AttState.outputs
      (batchOut m mask c inp att) (BatchOwns c nThreads)
      fun b h0 s => ∀ t < c.seqLen, s.att (attIndex c b h0 t) = att (attIndex c b h0 t) where
  unique h0 hh := exists_unique_thread hn hh
  isLocal t ht h0 howns := howns.lt ht
  own := by
    intro t ht h0 howns b hb i hi s hK
    have hstride := headLoop_stride_pos c nThreads t
    have hlt := turn_lt_turns hstride howns
    have hhas := (headGroup_has_iff c hstride).2 ⟨howns, rfl⟩
    have hrow := hrows.row b hb
    dsimp only [multiheadAttBatch_F32, headGroups]
    rw [List.foldl_map]
    generalize hturn : (h0 - (headLoop c nThreads t).h0Begin) / (headLoop c nThreads t).headStride
      = turn at hlt hhas
    have hout : ∀ turn' < (headLoop c nThreads t).turns, turn' ≠ turn →
        ⟨h0, b⟩ ∉ slotTurns (headGroup c (headLoop c nThreads t) turn')
          (windowRows w batchSize) := by
      intro turn' _ hne hmem
      have hother := (headGroup_has_iff c hstride).1 (mem_slotTurns.1 hmem).1
      exact hne (hother.2.symm.trans hturn)
    refine Lib.foldl_once
      (P := fun x : AttState R => ∀ t < c.seqLen,
        x.att (attIndex c b h0 t) = att (attIndex c b h0 t))
      (Q := fun x : AttState R => x.outputs b (h0 * c.headDim + i)
        = ⟨batchOut m mask c inp att b h0 i, true⟩) List.nodup_range (List.mem_range.2 hlt)
      (fun turn' hmem hne x hx t' ht' => ?_) (fun x hx => ?_) (fun turn' hmem hne x hx => ?_) hK
    · have hturn' := List.mem_range.1 hmem
      exact (batchGroup_att ha (slotsInRange_turn hrows ht hturn') hrow.1 (howns.lt ht) ht'
        (hout turn' hturn' hne)).trans (hx t' ht')
    · rw [batchGroup_self he ha (slotsInRange_turn hrows ht hlt) (mem_slotTurns.2 ⟨hhas, hb⟩)
        (column_of_turn ha hrows hb ht hlt hhas) hi, batchOut_congr hrow.2 hx]
    · have hturn' := List.mem_range.1 hmem
      refine (batchGroup_other ha (slotsInRange_turn hrows ht hturn')
        fun a hmem' hin => ?_).trans hx
      have hsame := hin.unique hi
      have hslot : a = ⟨h0, b⟩ := Slot.ext hsame.2 hsame.1
      exact hout turn' hturn' hne (hslot ▸ hmem')
  keep := by
    intro t ht h0 hh hnot b hb s hK t' ht'
    dsimp only [multiheadAttBatch_F32, headGroups]
    rw [List.foldl_map]
    refine Lib.foldl_keeps
      (P := fun x : AttState R => x.att (attIndex c b h0 t') = att (attIndex c b h0 t'))
      (fun turn hmem x hx => ?_) (hK t' ht')
    have hturn := List.mem_range.1 hmem
    refine (batchGroup_att ha (slotsInRange_turn hrows ht hturn) (hrows.row b hb).1 hh ht'
      fun hslot => hnot ?_).trans hx
    exact ((headGroup_has_iff c (headLoop_stride_pos c nThreads t)).1 (mem_slotTurns.1 hslot).1).1
  other := by
    intro t ht s b col hout
    dsimp only [multiheadAttBatch_F32, headGroups]
    rw [List.foldl_map]
    refine Lib.foldl_keeps (P := fun x : AttState R => x.outputs b col = s.outputs b col)
      (fun turn hmem x hx => ?_) rfl
    have hturn := List.mem_range.1 hmem
    refine (batchGroup_other ha (slotsInRange_turn hrows ht hturn) fun a hslot hin => ?_).trans hx
    have hmem' := mem_slotTurns.1 hslot
    have howns := ((headGroup_has_iff c (headLoop_stride_pos c nThreads t)).1 hmem'.1).1
    rw [← hin.1] at hmem'
    exact hout a.h0 howns hmem'.2 ⟨rfl, hin.2⟩

end Batch

end Kernels
end PrefillOpt
