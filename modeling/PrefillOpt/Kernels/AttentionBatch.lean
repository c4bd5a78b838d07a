import PrefillOpt.Kernels.Attention

/-!
# Kernels.AttentionBatch — what the decode kernel and the batch kernel compute

Both kernels write the scores of a query into a slot of the score buffer, normalise the slot from
its start to the position of the query, and add up the values of the visible keys.  A slot is used
by one row and one head only, so that the loops over rows, heads and threads do not interfere.
-/

namespace PrefillOpt
namespace Kernels

open Lib (Mem)

section Spec

variable {R : Type} [Field R] (m : Libm R) (c : NnMultiHeadAttOpConfig) (inp : AttInput R)

/-- The first column of the key head of a query head. -/
def keyColumn (h0 : Nat) : Nat := h0 / (c.nHeads / c.nKvHeads) * c.headDim

def headScore (b h0 t : Nat) : R :=
  (∑ i ∈ Finset.range c.headDim, inp.query (b * c.qSliceD0 + h0 * c.headDim + i)
    * inp.keyCache (keyColumn c h0 + t * c.kvDim0 + i)) / m.sqrtf c.headDim

def headValue (h0 i t : Nat) : R := inp.valueCache (keyColumn c h0 + t * c.kvDim0 + i)

/-- Attention over a set of positions: element `i` of head `h0` of row `b`. -/
def attentionOut (S : Finset Nat) (b h0 i : Nat) : R :=
  Lib.softmaxAverage m.expf S (headScore m c inp b h0) (headValue c inp h0 i)

end Spec

section Scores

variable {R : Type} [Field R] {m : Libm R} {c : NnMultiHeadAttOpConfig} {inp : AttInput R}
  {nBatches b h0 t : Nat}

/-- Values with weights that are already normalised. -/
theorem sum_div_mul (S : Finset Nat) (e w : Nat → R) (z : R) :
    ∑ t ∈ S, e t / z * w t = (∑ t ∈ S, e t * w t) / z := by
  rw [Finset.sum_div]
  exact Finset.sum_congr rfl fun t _ => div_mul_eq_mul_div ..

theorem dotProduct_F32_eq_sum (x y : Mem R) (size : Nat) :
    dotProduct_F32 x y size = ∑ i ∈ Finset.range size, x i * y i := by
  refine Lib.foldl_range (P := fun n sum => sum = ∑ i ∈ Finset.range n, x i * y i)
    (fun i _ sum hsum => ?_) (Finset.sum_range_zero _).symm
  rw [hsum, Finset.sum_range_succ]

theorem u32_column (ha : c.Allocated nBatches) (hb : b < nBatches) (hh : h0 < c.nHeads0) :
    u32 (h0 / (c.nHeads / c.nKvHeads) * c.headDim) = keyColumn c h0 :=
  ha.u32_head hb ((Nat.div_le_self ..).trans hh.le)

/-- Both ways of addressing a query give the score. -/
theorem attScore_eq (ha : c.Allocated nBatches) (hb : b < nBatches) (hh : h0 < c.nHeads0)
    (ht : t < c.seqLen) :
    attScore m c inp (u32 (b * c.qSliceD0 + h0 * c.headDim)) (keyColumn c h0) t
        = headScore m c inp b h0 t ∧
      attScore m c inp (u32 (b * c.qSliceD0) + u32 (h0 * c.headDim)) (keyColumn c h0) t
        = headScore m c inp b h0 t := by
  rw [ha.u32_query hb hh, ha.u32_queryRow hb, ha.u32_head hb hh.le, attScore, ha.u32_key ht,
    dotProduct_F32_eq_sum]
  exact ⟨rfl, rfl⟩

end Scores

/-! ## One head of one row -/

section Head

variable {R : Type} [Field R] [LinearOrder R] {m : Libm R} {c : NnMultiHeadAttOpConfig}
  {inp : AttInput R} {nBatches b pos : Nat} {s : AttState R} {r : HeadRead}

theorem multiheadAttHead_self [IsStrictOrderedRing R] (he : Lib.IsExp m.expf)
    (ha : c.Allocated nBatches) (hb : b < nBatches) (hpos : pos < c.seqLen)
    (hh : r.h0 < c.nHeads0) (hcolumn : r.column = keyColumn c r.h0) {i : Nat}
    (hi : i < c.headDim) :
    (multiheadAttHead m c inp b (u32 (b * c.qSliceD0)) (u32 (b * c.nHeads0 * c.seqLen)) pos s
        r).outputs b (r.h0 * c.headDim + i)
      = ⟨attentionOut m c inp (Finset.range (pos + 1)) b r.h0 i, true⟩ := by
  dsimp only [multiheadAttHead]
  rw [hcolumn]
  generalize hoff : u32 (b * c.nHeads0 * c.seqLen) + u32 (r.h0 * c.seqLen) = hAtt
  -- the scores
  have hscore : ∀ t < pos + 1, (List.range (pos + 1)).foldl
      (fun att t => Function.update att (hAtt + t) (attScore m c inp
        (u32 (b * c.qSliceD0) + u32 (r.h0 * c.headDim)) (keyColumn c r.h0) t)) s.att (hAtt + t)
      = headScore m c inp b r.h0 t := by
    intro t ht
    rw [← (attScore_eq ha hb hh (by omega)).2]
    refine Mem.foldl_update_of_mem (a := t) (fun t => hAtt + t) _ (List.mem_range.2 ht)
      (fun t' _ heq => ?_) s.att
    rw [Nat.add_left_cancel heq]
  generalize (List.range (pos + 1)).foldl _ s.att = att at hscore ⊢
  -- the weights
  have hweight : ∀ t < pos + 1, softmax_F32 m att hAtt (pos + 1) (hAtt + t)
      = m.expf (headScore m c inp b r.h0 t)
        / ∑ j ∈ Finset.range (pos + 1), m.expf (headScore m c inp b r.h0 j) := by
    intro t ht
    rw [softmax_F32_self he ht, hscore t ht]
    apply congrArg
    exact Finset.sum_congr rfl fun j hj => by rw [hscore j (Finset.mem_range.1 hj)]
  generalize softmax_F32 m att hAtt (pos + 1) = weights at hweight ⊢
  -- the values
  have hloop := Lib.foldl_range (n := pos + 1)
    (P := fun n (o : Outputs R) => o b (r.h0 * c.headDim + i)
      = ⟨∑ t ∈ Finset.range n, weights (hAtt + t) * headValue c inp r.h0 i t, true⟩)
    (f := fun o t => addValue c inp o b r.h0 (keyColumn c r.h0) t (weights (hAtt + t)))
    (fun t ht o ho => by
      rw [addValue_self ha hb hh hi (by omega), ho, Finset.sum_range_succ]
      rfl)
    (s := clearHead c s.outputs b r.h0) (clearHead_self ha hb hh hi)
  rw [hloop, attentionOut, Lib.softmaxAverage, ← sum_div_mul]
  apply congrArg (Cell.mk · true)
  exact Finset.sum_congr rfl fun t ht => by rw [hweight t (Finset.mem_range.1 ht)]

theorem multiheadAttHead_other (ha : c.Allocated nBatches) (hb : b < nBatches)
    (hh : r.h0 < c.nHeads0) {qOff attOff b' col : Nat} (h : ¬InHead c b r.h0 b' col) :
    (multiheadAttHead m c inp b qOff attOff pos s r).outputs b' col = s.outputs b' col := by
  dsimp only [multiheadAttHead]
  refine Lib.foldl_keeps (P := fun o : Outputs R => o b' col = s.outputs b' col)
    (fun t _ o ho => ?_) (clearHead_other ha hb hh h)
  rw [addValue_other ha hb hh h, ho]

end Head

/-! ## One key head of the batch -/

/-- The slots of a group: rows of the batch with a position inside the cache, local heads. -/
structure SlotsInRange {R : Type} (c : NnMultiHeadAttOpConfig) (inp : AttInput R) (nBatches : Nat)
    (slots : List Slot) : Prop where
  nodup : slots.Nodup
  head : ∀ a ∈ slots, a.h0 < c.nHeads0
  row : ∀ a ∈ slots, a.b < nBatches ∧ inp.positions a.b < c.seqLen

theorem attends_iff {mask : BlockMask} {q t : Nat} :
    attends mask q t = true ↔ t ≤ q ∧ blockMaskAllows mask q t = true := by
  rw [attends, Bool.and_eq_true, decide_eq_true_eq]

section Slots

variable {R : Type} {m : Libm R} {mask : BlockMask}
  {c : NnMultiHeadAttOpConfig} {inp : AttInput R} {nBatches b h0 : Nat}
  {slots : List Slot}

/-- Another slot's score is elsewhere in the buffer. -/
theorem attIndex_ne (ha : c.Allocated nBatches) (hs : SlotsInRange c inp nBatches slots)
    (hb : b < nBatches) (hh : h0 < c.nHeads0) {t : Nat} (ht : t < c.seqLen) {a : Slot}
    (hmem : a ∈ slots) (hne : a ≠ ⟨h0, b⟩) {t' : Nat} (ht' : t' < c.seqLen) :
    attIndex c a.b a.h0 t' ≠ attIndex c b h0 t := by
  intro heq
  have hrow := hs.row a hmem
  have hinj := ha.attIndex_inj hrow.1 (hs.head a hmem) ht' hb hh ht heq
  exact hne (Slot.ext hinj.2.1 hinj.1)

/-- Another slot's elements are elsewhere in the output. -/
theorem not_inHead {a : Slot} {i : Nat} (hi : i < c.headDim) (hne : a ≠ ⟨h0, b⟩) :
    ¬InHead c a.b a.h0 b (h0 * c.headDim + i) := by
  intro hin
  have heq := hin.unique hi
  exact hne (Slot.ext heq.2 heq.1)

/-- The position of a row is not beyond the farthest one. -/
theorem le_maxPosition (inp : AttInput R) {rows : List Nat} (hmem : b ∈ rows) :
    inp.positions b ≤ maxPosition inp rows := by
  refine Lib.foldl_establishes (A := fun a => a = b)
    (Q := fun maxPos : Nat => inp.positions b ≤ maxPos) ⟨b, hmem, rfl⟩ (fun a _ heq p => ?_)
    (fun a _ _ p hp => ?_) 0
  · rw [heq]
    split_ifs <;> omega
  · split_ifs <;> omega

variable [Field R]

variable {maxPos column : Nat} {att : Mem R} {o : Outputs R}

/-! ### Scores -/

/-- A turn writes into its own slot. -/
theorem scoreTurn_other (ha : c.Allocated nBatches) (hs : SlotsInRange c inp nBatches slots)
    (hb : b < nBatches) (hh : h0 < c.nHeads0) {t : Nat} (ht : t < c.seqLen) {a : Slot}
    (hmem : a ∈ slots) (hne : a ≠ ⟨h0, b⟩) (n : Nat) :
    scoreTurn m mask c inp column n att a (attIndex c b h0 t) = att (attIndex c b h0 t) := by
  unfold scoreTurn
  split_ifs with hatt
  · have hn : n < c.seqLen := (attends_iff.1 hatt).1.trans_lt (hs.row a hmem).2
    exact Function.update_of_ne (attIndex_ne ha hs hb hh ht hmem hne hn).symm ..
  · rfl

theorem batchScores_other (ha : c.Allocated nBatches) (hs : SlotsInRange c inp nBatches slots)
    (hb : b < nBatches) (hh : h0 < c.nHeads0) {t : Nat} (ht : t < c.seqLen)
    (hout : ⟨h0, b⟩ ∉ slots) :
    batchScores m mask c inp maxPos column slots att (attIndex c b h0 t)
      = att (attIndex c b h0 t) := by
  refine Lib.foldl_keeps (P := fun x : Mem R => x (attIndex c b h0 t) = att (attIndex c b h0 t))
    (fun n _ x hx => ?_) rfl
  refine Lib.foldl_keeps (P := fun x : Mem R => x (attIndex c b h0 t) = att (attIndex c b h0 t))
    (fun a hmem x hx => ?_) hx
  have hne : a ≠ ⟨h0, b⟩ := fun heq => hout (heq ▸ hmem)
  exact (scoreTurn_other ha hs hb hh ht hmem hne n).trans hx

/-- What the slot holds at `t` after the turns below `n`. -/
def slotEntry (m : Libm R) (mask : BlockMask) (c : NnMultiHeadAttOpConfig) (inp : AttInput R)
    (att : Mem R) (b h0 n t : Nat) : R :=
  if t < n ∧ attends mask (inp.positions b) t then headScore m c inp b h0 t
  else att (attIndex c b h0 t)

/-- From the position of the query on nothing is written. -/
theorem slotEntry_eq {n t : Nat} (h : inp.positions b < n) :
    slotEntry m mask c inp att b h0 n t
      = slotEntry m mask c inp att b h0 (inp.positions b + 1) t := by
  unfold slotEntry
  by_cases hatt : attends mask (inp.positions b) t = true
  · have hle := (attends_iff.1 hatt).1
    rw [if_pos ⟨by omega, hatt⟩, if_pos ⟨by omega, hatt⟩]
  · rw [if_neg fun h => hatt h.2, if_neg fun h => hatt h.2]

theorem scoreTurn_self (ha : c.Allocated nBatches) (hb : b < nBatches) (hh : h0 < c.nHeads0)
    (hpos : inp.positions b < c.seqLen) (hcolumn : column = keyColumn c h0) {t n : Nat}
    (ht : t < c.seqLen) {x : Mem R}
    (hx : x (attIndex c b h0 t) = slotEntry m mask c inp att b h0 n t) :
    scoreTurn m mask c inp column n x ⟨h0, b⟩ (attIndex c b h0 t)
      = slotEntry m mask c inp att b h0 (n + 1) t := by
  unfold slotEntry at hx ⊢
  by_cases hsame : n = t
  · subst hsame
    rw [if_neg fun h => Nat.lt_irrefl n h.1] at hx
    by_cases hatt : attends mask (inp.positions b) n = true
    · rw [scoreTurn, if_pos hatt, Function.update_self, if_pos ⟨Nat.lt_succ_self n, hatt⟩, hcolumn]
      exact (attScore_eq ha hb hh ht).1
    · rw [scoreTurn, if_neg hatt, if_neg fun h => hatt h.2, hx]
  · have hkeep : scoreTurn m mask c inp column n x ⟨h0, b⟩ (attIndex c b h0 t)
        = x (attIndex c b h0 t) := by
      unfold scoreTurn
      split_ifs with hatt
      · have hn : n < c.seqLen := (attends_iff.1 hatt).1.trans_lt hpos
        refine Function.update_of_ne (fun heq => hsame ?_) ..
        exact (ha.attIndex_inj hb hh ht hb hh hn heq).2.2.symm
      · rfl
    have hbound : t < n + 1 ↔ t < n := by omega
    simp only [hkeep, hx, hbound]

/-- Loop (1) leaves a masked position as it was. -/
theorem batchScores_self (ha : c.Allocated nBatches) (hs : SlotsInRange c inp nBatches slots)
    (hmem : ⟨h0, b⟩ ∈ slots) (hcolumn : column = keyColumn c h0)
    (hmax : inp.positions b ≤ maxPos) {t : Nat} (ht : t < c.seqLen) :
    batchScores m mask c inp maxPos column slots att (attIndex c b h0 t)
      = slotEntry m mask c inp att b h0 (inp.positions b + 1) t := by
  rcases hs.row _ hmem with ⟨hb, hpos⟩
  have hh := hs.head _ hmem
  rw [← slotEntry_eq (Nat.lt_succ_of_le hmax)]
  apply Lib.foldl_range_once
    (P := fun n (x : Mem R) => x (attIndex c b h0 t) = slotEntry m mask c inp att b h0 n t)
    hs.nodup hmem
  · intro n r a hmem' hne x hx
    exact (scoreTurn_other ha hs hb hh ht hmem' hne n).trans hx
  · intro n x hx
    exact scoreTurn_self ha hb hh hpos hcolumn ht hx
  · exact (if_neg fun h => Nat.not_lt_zero t h.1).symm

/-! ### Values -/

theorem valueTurn_other (ha : c.Allocated nBatches) (hs : SlotsInRange c inp nBatches slots)
    {a : Slot} (hmem : a ∈ slots) {b' col : Nat} (hout : ¬InHead c a.b a.h0 b' col) (n : Nat) :
    valueTurn mask c inp column att n o a b' col = o b' col := by
  unfold valueTurn
  split_ifs
  · exact addValue_other ha (hs.row a hmem).1 (hs.head a hmem) hout
  · rfl

/-- Elements outside the slots keep their value. -/
theorem batchValues_other (ha : c.Allocated nBatches) (hs : SlotsInRange c inp nBatches slots)
    {b' col : Nat} (hout : ∀ a ∈ slots, ¬InHead c a.b a.h0 b' col) :
    batchValues mask c inp maxPos column slots att (clearSlots c slots o) b' col = o b' col := by
  refine Lib.foldl_keeps (P := fun x : Outputs R => x b' col = o b' col) (fun n _ x hx => ?_) ?_
  · refine Lib.foldl_keeps (P := fun x : Outputs R => x b' col = o b' col)
      (fun a hmem x hx => ?_) hx
    exact (valueTurn_other ha hs hmem (hout a hmem) n).trans hx
  · refine Lib.foldl_keeps (P := fun x : Outputs R => x b' col = o b' col)
      (fun a hmem x hx => ?_) rfl
    exact (clearHead_other ha (hs.row a hmem).1 (hs.head a hmem) (hout a hmem)).trans hx

theorem clearSlots_self (ha : c.Allocated nBatches) (hs : SlotsInRange c inp nBatches slots)
    (hmem : ⟨h0, b⟩ ∈ slots) {i : Nat} (hi : i < c.headDim) :
    clearSlots c slots o b (h0 * c.headDim + i) = ⟨0, true⟩ := by
  refine Lib.foldl_establishes (A := fun a => a = ⟨h0, b⟩)
    (Q := fun x : Outputs R => x b (h0 * c.headDim + i) = ⟨0, true⟩) ⟨_, hmem, rfl⟩
    (fun a hmem' heq x => ?_) (fun a hmem' hne x hx => ?_) o
  · rw [heq]
    exact clearHead_self ha (hs.row _ hmem).1 (hs.head _ hmem) hi
  · exact (clearHead_other ha (hs.row a hmem').1 (hs.head a hmem')
      (not_inHead hi hne)).trans hx

/-- The visible positions below `n`. -/
def visible (mask : BlockMask) (q n : Nat) : Finset Nat :=
  (Finset.range n).filter fun t => attends mask q t

theorem visible_succ (q n : Nat) : visible mask q (n + 1)
    = if attends mask q n then insert n (visible mask q n) else visible mask q n := by
  rw [visible, Finset.range_add_one, Finset.filter_insert]
  rfl

theorem not_mem_visible (q n : Nat) : n ∉ visible mask q n := by
  simp [visible]

/-- From the position of the query on nothing is added. -/
theorem visible_eq {q n : Nat} (h : q < n) : visible mask q n = visible mask q (q + 1) := by
  ext t
  simp only [visible, Finset.mem_filter, Finset.mem_range, attends_iff]
  constructor
  · rintro ⟨-, hle, hallows⟩
    exact ⟨by omega, hle, hallows⟩
  · rintro ⟨-, hle, hallows⟩
    exact ⟨by omega, hle, hallows⟩

theorem valueTurn_self (ha : c.Allocated nBatches) (hb : b < nBatches) (hh : h0 < c.nHeads0)
    (hpos : inp.positions b < c.seqLen) {i : Nat} (hi : i < c.headDim)
    (hcolumn : column = keyColumn c h0) {n : Nat} {x : Outputs R}
    (hx : x b (h0 * c.headDim + i) = ⟨∑ t ∈ visible mask (inp.positions b) n,
      att (attIndex c b h0 t) * headValue c inp h0 i t, true⟩) :
    valueTurn mask c inp column att n x ⟨h0, b⟩ b (h0 * c.headDim + i)
      = ⟨∑ t ∈ visible mask (inp.positions b) (n + 1),
        att (attIndex c b h0 t) * headValue c inp h0 i t, true⟩ := by
  rw [visible_succ, valueTurn]
  split_ifs with hatt
  · have hn : n < c.seqLen := (attends_iff.1 hatt).1.trans_lt hpos
    rw [addValue_self ha hb hh hi hn, hx, hcolumn, Finset.sum_insert (not_mem_visible _ n),
      add_comm]
    rfl
  · exact hx

theorem batchValues_self (ha : c.Allocated nBatches) (hs : SlotsInRange c inp nBatches slots)
    (hmem : ⟨h0, b⟩ ∈ slots) (hcolumn : column = keyColumn c h0)
    (hmax : inp.positions b ≤ maxPos) {i : Nat} (hi : i < c.headDim) :
    batchValues mask c inp maxPos column slots att (clearSlots c slots o) b (h0 * c.headDim + i)
      = ⟨∑ t ∈ visible mask (inp.positions b) (inp.positions b + 1),
        att (attIndex c b h0 t) * headValue c inp h0 i t, true⟩ := by
  rcases hs.row _ hmem with ⟨hb, hpos⟩
  have hh := hs.head _ hmem
  rw [← visible_eq (Nat.lt_succ_of_le hmax)]
  apply Lib.foldl_range_once
    (P := fun n (x : Outputs R) => x b (h0 * c.headDim + i)
      = ⟨∑ t ∈ visible mask (inp.positions b) n,
        att (attIndex c b h0 t) * headValue c inp h0 i t, true⟩) hs.nodup hmem
  · intro n r a hmem' hne x hx
    exact (valueTurn_other ha hs hmem' (not_inHead hi hne) n).trans hx
  · intro n x hx
    exact valueTurn_self ha hb hh hpos hi hcolumn hx
  · exact clearSlots_self ha hs hmem hi

/-! ### Weights -/

variable [LinearOrder R]

theorem softmaxTurn_other (ha : c.Allocated nBatches) (hs : SlotsInRange c inp nBatches slots)
    (hb : b < nBatches) (hh : h0 < c.nHeads0) {t : Nat} (ht : t < c.seqLen) {a : Slot}
    (hmem : a ∈ slots) (hne : a ≠ ⟨h0, b⟩) :
    softmaxTurn m c inp att a (attIndex c b h0 t) = att (attIndex c b h0 t) := by
  rcases hs.row a hmem with ⟨hrow, hpos⟩
  refine softmax_F32_other fun j hj => ?_
  have hj' : j < c.seqLen := by omega
  rw [(ha.u32_slot_add hrow (hs.head a hmem) hj').1]
  exact attIndex_ne ha hs hb hh ht hmem hne hj'

/-- The weights of a slot with the entries `x`. -/
theorem softmaxTurn_self [IsStrictOrderedRing R] (he : Lib.IsExp m.expf)
    (ha : c.Allocated nBatches) (hb : b < nBatches) (hh : h0 < c.nHeads0)
    (hpos : inp.positions b < c.seqLen) {x : Nat → R}
    (hx : ∀ t < c.seqLen, att (attIndex c b h0 t) = x t) {t : Nat} (ht : t ≤ inp.positions b) :
    softmaxTurn m c inp att ⟨h0, b⟩ (attIndex c b h0 t)
      = m.expf (x t) / ∑ j ∈ Finset.range (inp.positions b + 1), m.expf (x j) := by
  have hindex : ∀ j < c.seqLen,
      u32 ((b * c.nHeads0 + h0) * c.seqLen) + j = attIndex c b h0 j :=
    fun j hj => (ha.u32_slot_add hb hh hj).1
  have ht' : t < c.seqLen := by omega
  rw [← hindex t ht', softmaxTurn, softmax_F32_self he (Nat.lt_succ_of_le ht), hindex t ht',
    hx t ht']
  apply congrArg
  refine Finset.sum_congr rfl fun j hj => ?_
  have hj' : j < c.seqLen := by
    have hlt := Finset.mem_range.1 hj
    omega
  rw [hindex j hj', hx j hj']

/-! ### The group -/

/-- What the batch kernel computes: the weights of the visible positions are shares of all
exponentials in the slot. -/
def batchOut (m : Libm R) (mask : BlockMask) (c : NnMultiHeadAttOpConfig) (inp : AttInput R)
    (att : Mem R) (b h0 i : Nat) : R :=
  let pos := inp.positions b
  (∑ t ∈ visible mask pos (pos + 1), m.expf (headScore m c inp b h0 t) * headValue c inp h0 i t)
    / ∑ t ∈ Finset.range (pos + 1), m.expf (slotEntry m mask c inp att b h0 (pos + 1) t)

variable {rows : List Nat} {g : HeadGroup} {s : AttState R}

theorem mem_slotTurns {a : Slot} : a ∈ slotTurns g rows ↔
    (g.h0Base ≤ a.h0 ∧ a.h0 < g.h0Base + g.nHeadsInGroup) ∧ a.b ∈ rows := by
  rcases a with ⟨h0, b⟩
  simp [slotTurns, List.mem_range'_1]

theorem batchGroup_self [IsStrictOrderedRing R] (he : Lib.IsExp m.expf)
    (ha : c.Allocated nBatches) (hs : SlotsInRange c inp nBatches (slotTurns g rows))
    (hmem : ⟨h0, b⟩ ∈ slotTurns g rows) (hcolumn : g.column = keyColumn c h0) {i : Nat}
    (hi : i < c.headDim) :
    (batchGroup m mask c inp rows s g).outputs b (h0 * c.headDim + i)
      = ⟨batchOut m mask c inp s.att b h0 i, true⟩ := by
  have hrow : b < nBatches ∧ inp.positions b < c.seqLen := hs.row _ hmem
  have hh : h0 < c.nHeads0 := hs.head _ hmem
  rcases hrow with ⟨hb, hpos⟩
  have hmax := le_maxPosition inp (mem_slotTurns.1 hmem).2
  dsimp only [batchGroup]
  rw [batchValues_self ha hs hmem hcolumn hmax hi, batchOut]
  have hscores : ∀ t < c.seqLen,
      batchScores m mask c inp (maxPosition inp rows) g.column (slotTurns g rows) s.att
        (attIndex c b h0 t) = slotEntry m mask c inp s.att b h0 (inp.positions b + 1) t :=
    fun t ht => batchScores_self ha hs hmem hcolumn hmax ht
  generalize batchScores m mask c inp _ _ _ s.att = scores at hscores ⊢
  have hweights : ∀ t ≤ inp.positions b,
      (slotTurns g rows).foldl (softmaxTurn m c inp) scores (attIndex c b h0 t)
        = m.expf (slotEntry m mask c inp s.att b h0 (inp.positions b + 1) t)
          / ∑ j ∈ Finset.range (inp.positions b + 1),
            m.expf (slotEntry m mask c inp s.att b h0 (inp.positions b + 1) j) := by
    refine Lib.foldl_once
      (P := fun x : Mem R => ∀ t < c.seqLen, x (attIndex c b h0 t)
        = slotEntry m mask c inp s.att b h0 (inp.positions b + 1) t)
      (Q := fun x : Mem R => ∀ t ≤ inp.positions b, x (attIndex c b h0 t)
        = m.expf (slotEntry m mask c inp s.att b h0 (inp.positions b + 1) t)
          / ∑ j ∈ Finset.range (inp.positions b + 1),
            m.expf (slotEntry m mask c inp s.att b h0 (inp.positions b + 1) j)) hs.nodup hmem
      (fun a hmem' hne x hx t ht => ?_) (fun x hx t ht => ?_) (fun a hmem' hne x hx t ht => ?_)
      hscores
    · exact (softmaxTurn_other ha hs hb hh ht hmem' hne).trans (hx t ht)
    · exact softmaxTurn_self he ha hb hh hpos hx ht
    · have ht' : t < c.seqLen := by omega
      exact (softmaxTurn_other ha hs hb hh ht' hmem' hne).trans (hx t ht)
  rw [← sum_div_mul]
  apply congrArg (Cell.mk · true)
  refine Finset.sum_congr rfl fun t ht => ?_
  have hvisible := (Finset.mem_filter.1 ht).2
  have hle := (attends_iff.1 hvisible).1
  rw [hweights t hle, slotEntry, if_pos ⟨Nat.lt_succ_of_le hle, hvisible⟩]

theorem batchGroup_other (ha : c.Allocated nBatches)
    (hs : SlotsInRange c inp nBatches (slotTurns g rows)) {b' col : Nat}
    (hout : ∀ a ∈ slotTurns g rows, ¬InHead c a.b a.h0 b' col) :
    (batchGroup m mask c inp rows s g).outputs b' col = s.outputs b' col :=
  batchValues_other ha hs hout

/-- A group leaves the slots of other heads alone. -/
theorem batchGroup_att (ha : c.Allocated nBatches)
    (hs : SlotsInRange c inp nBatches (slotTurns g rows)) (hb : b < nBatches)
    (hh : h0 < c.nHeads0) {t : Nat} (ht : t < c.seqLen) (hout : ⟨h0, b⟩ ∉ slotTurns g rows) :
    (batchGroup m mask c inp rows s g).att (attIndex c b h0 t) = s.att (attIndex c b h0 t) := by
  dsimp only [batchGroup]
  refine Lib.foldl_keeps
    (P := fun x : Mem R => x (attIndex c b h0 t) = s.att (attIndex c b h0 t))
    (fun a hmem x hx => ?_) (batchScores_other ha hs hb hh ht hout)
  have hne : a ≠ ⟨h0, b⟩ := fun heq => hout (heq ▸ hmem)
  exact (softmaxTurn_other ha hs hb hh ht hmem hne).trans hx

end Slots

end Kernels
end PrefillOpt
