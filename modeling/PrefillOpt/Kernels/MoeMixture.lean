import Mathlib.Algebra.BigOperators.Fin
import PrefillOpt.Kernels.MoeOps
import PrefillOpt.Lib.BlockSplit

/-!
# Kernels.MoeMixture — what the ops of a mixture compute

Each op writes rows of its own, so that a row of the result is followed back through the ops slot by
slot.  The rows of the batch do not meet, nor does a row past the batch enter.
-/

namespace PrefillOpt
namespace Kernels.Moe

open Lib

/-! ## Rows of slots -/

section Rows

variable {R : Type} {nBatches nZ batchSize n : Nat} {k : Nat × Nat}

theorem slotRow_inj {k k' : Nat × Nat} (hk : k.2 < nBatches) (hk' : k'.2 < nBatches)
    (h : slotRow nBatches k = slotRow nBatches k') : k = k' := by
  rcases add_mul_inj hk hk' h with ⟨hz, hy⟩
  exact Prod.ext hz hy

theorem mem_zyRows : k ∈ zyRows nZ batchSize ↔ k.1 < nZ ∧ k.2 < batchSize := by
  rcases k with ⟨z, y⟩
  simp [zyRows]

theorem mem_yeRows : k ∈ yeRows n batchSize ↔ k.1 < n ∧ k.2 < batchSize := by
  rcases k with ⟨e, y⟩
  simp [yeRows, and_comm]

theorem nodup_zyRows : (zyRows nZ batchSize).Nodup :=
  nodup_nested List.nodup_range (fun _ => List.nodup_range) fun h => Prod.mk.inj h

theorem nodup_yeRows : (yeRows n batchSize).Nodup :=
  nodup_nested List.nodup_range (fun _ => List.nodup_range) fun h => (Prod.mk.inj h).symm

theorem forRows_apply {keys : List (Nat × Nat)} (hnd : keys.Nodup)
    (hrows : ∀ k ∈ keys, k.2 < nBatches) (v : Nat × Nat → Mem R → Mem R) (output : Rows R)
    (hk : k ∈ keys) {x : Nat} (hx : x < n) :
    forRows nBatches keys n v output (slotRow nBatches k) x
      = v k (output (slotRow nBatches k)) x := by
  have hmodify := foldl_modify_of_mem (slotRow nBatches) (fun k row => writeRow n (v k row) row) hnd
    (fun a ha b hb h => slotRow_inj (hrows a ha) (hrows b hb) h) hk output
  rw [forRows, hmodify, writeRow, if_pos hx]

end Rows

/-! ## The copies of the activation -/

section Copies

variable {R α : Type} {q : ExactQ80 R α} {nBatches nZ batchSize n nThreads : Nat}
  {trace : List (Nat × RepeatStep)} {input : Rows R} {output : Nat × Nat → α} {z y : Nat}

/-- Bytes of the quantised row give its floats. -/
theorem floats_eq (hblocks : 32 ∣ n)
    (hbytes : ∀ k < getBytes .q80 n,
      repeatRows q nBatches trace input output (slotRow nBatches (z, y), k)
        = quantizedByte q.quantize input y k) :
    ∀ i < n, q.floats (repeatRows q nBatches trace input output) (slotRow nBatches (z, y)) i
      = input y i := by
  intro i hi
  rcases hblocks with ⟨nBlocks, rfl⟩
  have hblock : i / 32 < nBlocks := by omega
  have hexact := q.exact (fun j => input y (i / 32 * 32 + j))
    (fun k => repeatRows q nBatches trace input output (slotRow nBatches (z, y), i / 32 * 34 + k))
    (fun k hk => by
      have hdiv : (i / 32 * 34 + k) / 34 = i / 32 := by omega
      have hmod : (i / 32 * 34 + k) % 34 = k := by omega
      rw [hbytes _ (by rw [getBytes]; omega), quantizedByte, hdiv, hmod])
    (i % 32) (Nat.mod_lt i (by decide))
  rw [ExactQ80.floats, hexact, Nat.mul_comm, Nat.div_add_mod]

variable (hn : 0 < nThreads) (hn' : nThreads < 2 ^ 32) (hx : n < 2 ^ 32) (hblocks : 32 ∣ n)
  (hbatch : batchSize ≤ nBatches) (hz : z < nZ) (hy : y < batchSize)
  (htrace : Interleaves (repeatZThreads nZ n batchSize nThreads) trace)
include hn hx hblocks hbatch hz hy htrace

/-- Slot 0 holds the row in any case, the others where the threads have even shares. -/
theorem floats_repeatRows (h : z = 0 ∨ EvenShares n nThreads) :
    ∀ i < n, q.floats (repeatRows q nBatches trace input output) (slotRow nBatches (z, y)) i
      = input y i := by
  refine floats_eq hblocks fun k hk => ?_
  rcases h with rfl | heven
  · rw [slotRow, Nat.zero_mul, Nat.zero_add]
    exact quantized_of_trace hn hx hbatch hz htrace hy hk
  · exact slicesAreRows_of_evenShares hx hbatch hn heven output trace htrace z hz y hy k hk

end Copies

/-! ## The other ops -/

section OtherRows

variable {R : Type} {nBatches nZ batchSize n : Nat}

section Apply

variable (hbatch : batchSize ≤ nBatches) {z y x : Nat} (hz : z < nZ) (hy : y < batchSize)
  (hx : x < n)
include hbatch hz hy hx

/-- The row of a slot after an op that goes through slots and rows. -/
theorem forRows_zyRows (v : Nat × Nat → Mem R → Mem R) (output : Rows R) :
    forRows nBatches (zyRows nZ batchSize) n v output (slotRow nBatches (z, y)) x
      = v (z, y) (output (slotRow nBatches (z, y))) x :=
  forRows_apply nodup_zyRows (fun _ hk => (mem_zyRows.1 hk).2.trans_le hbatch) v output
    (mem_zyRows.2 ⟨hz, hy⟩) hx

theorem castForward_apply (input output : Rows R) :
    castForward nBatches nZ batchSize n input output (slotRow nBatches (z, y)) x
      = input (slotRow nBatches (z, y)) x :=
  forRows_zyRows hbatch hz hy hx (fun k _ => input (slotRow nBatches k)) output

theorem mulForward_apply [Field R] (multiplier output : Rows R) :
    mulForward nBatches nZ batchSize n multiplier output (slotRow nBatches (z, y)) x
      = output (slotRow nBatches (z, y)) x * multiplier (slotRow nBatches (z, y)) x :=
  forRows_zyRows hbatch hz hy hx (fun k row i => row i * multiplier (slotRow nBatches k) i) output

theorem scaleForward_apply [Field R] (scale output : Rows R) :
    scaleForward nBatches nZ batchSize n scale output (slotRow nBatches (z, y)) x
      = output (slotRow nBatches (z, y)) x * scale (slotRow nBatches (z, y)) 0 :=
  forRows_zyRows hbatch hz hy hx (fun k row i => row i * scale (slotRow nBatches k) 0) output

end Apply

theorem forRows_rows (hbatch : batchSize ≤ nBatches) {y x : Nat} (hy : y < batchSize) (hx : x < n)
    (v : Nat × Nat → Mem R → Mem R) (output : Rows R) :
    forRows nBatches ((List.range batchSize).map fun y => (0, y)) n v output y x
      = v (0, y) (output y) x := by
  have hrow : slotRow nBatches (0, y) = y := by
    rw [slotRow, Nat.zero_mul, Nat.zero_add]
  have hnd : ((List.range batchSize).map fun y => ((0, y) : Nat × Nat)).Nodup :=
    List.nodup_range.map fun y y' h => congrArg Prod.snd h
  have hrows : ∀ k ∈ (List.range batchSize).map fun y => ((0, y) : Nat × Nat),
      k.2 < nBatches := by
    intro k hk
    rcases List.mem_map.1 hk with ⟨y', hy', rfl⟩
    exact (List.mem_range.1 hy').trans_le hbatch
  have happly := forRows_apply hnd hrows v output (List.mem_map.2 ⟨y, List.mem_range.2 hy, rfl⟩) hx
  rwa [hrow] at happly

end OtherRows

/-! ## The matrices -/

section Matmul

variable {R : Type} [Field R] {n d nBatches batchSize : Nat} {fast : Bool}
  {config : NnMatmulOpConfig}

theorem matmulRow_congr {x x' : Mem R} (h : ∀ j < n, x j = x' j) (weight : Mem R) (expert : Nat) :
    matmulRow n d weight expert x = matmulRow n d weight expert x' := by
  funext i
  apply Finset.sum_congr rfl
  intro j hj
  rw [h j (Finset.mem_range.1 hj)]

/-- The expert whose matrix a slot of a row is multiplied with. -/
def expertOf (fast : Bool) (config : NnMatmulOpConfig) (activeExpertIndexes : Mem Nat) (e y : Nat) :
    Nat :=
  if (max config.nActiveExperts 1 = 1 ∧ fast) ∨ config.nActiveExperts = 0 then 0
  else activeExpertIndexes (y * config.nActiveExperts + e)

theorem matmulForward_apply (hbatch : batchSize ≤ nBatches) {e y i : Nat}
    (he : e < max config.nActiveExperts 1) (hy : y < batchSize) (hi : i < d) (weight : Mem R)
    (activeExpertIndexes : Mem Nat) (input output : Rows R) :
    matmulForward fast config n d nBatches (max config.nActiveExperts 1) batchSize weight
        activeExpertIndexes input output (slotRow nBatches (e, y)) i
      = matmulRow n d weight (expertOf fast config activeExpertIndexes e y)
          (input (slotRow nBatches (e, y))) i := by
  rw [matmulForward, expertOf]
  by_cases hfast : max config.nActiveExperts 1 = 1 ∧ fast
  · -- there is one slot
    have hzero : e = 0 := by
      have hone := hfast.1
      omega
    have hrow : slotRow nBatches (e, y) = y := by
      rw [slotRow, hzero, Nat.zero_mul, Nat.zero_add]
    rw [if_pos hfast, if_pos (Or.inl hfast), hrow, forRows_rows hbatch hy hi]
  · rw [if_neg hfast]
    have hkeys : (e, y) ∈ yeRows (max config.nActiveExperts 1) batchSize :=
      mem_yeRows.2 ⟨he, hy⟩
    rw [forRows_apply nodup_yeRows (fun k hk => (mem_yeRows.1 hk).2.trans_le hbatch) _ _ hkeys hi]
    simp only [hfast, false_or]

end Matmul

/-! ## The gate -/

section Gate

variable {R : Type} [Field R] [LinearOrder R] {nBatches batchSize size k : Nat}

theorem softmaxForward_apply {m : Libm R} {y : Nat} (hy : y < batchSize) (output : Rows R) :
    softmaxForward m batchSize size output y = softmax_F32 m (output y) 0 size :=
  foldl_modify_of_mem (fun y => y) (fun _ row => softmax_F32 m row 0 size) List.nodup_range
    (fun _ _ _ _ h => h) (List.mem_range.2 hy) output

omit [Field R] in
/-- The selected indices: `k` of them, those of the largest values. -/
theorem topk_F32_spec {x : Mem R} (hk : k ≤ size)
    (hdistinct : ∀ i < size, ∀ j < size, x i = x j → i = j) :
    (topk_F32 x size k).length = k ∧ (topk_F32 x size k).Nodup ∧
      IsTop x size (topk_F32 x size k).toFinset := by
  have hperm : ((List.range size).mergeSort fun a b => decide (x b ≤ x a)).Perm
      (List.range size) := List.mergeSort_perm _ _
  have hsorted : ((List.range size).mergeSort fun a b => decide (x b ≤ x a)).Pairwise
      fun i j => x j ≤ x i := by
    have htrans : ∀ a b c, decide (x b ≤ x a) = true → decide (x c ≤ x b) = true →
        decide (x c ≤ x a) = true := fun a b c hab hbc =>
      decide_eq_true ((of_decide_eq_true hbc).trans (of_decide_eq_true hab))
    have htotal : ∀ a b, (decide (x b ≤ x a) || decide (x a ≤ x b)) = true := by
      intro a b
      rw [Bool.or_eq_true, decide_eq_true_iff, decide_eq_true_iff]
      exact le_total _ _
    exact (List.pairwise_mergeSort htrans htotal (List.range size)).imp fun h =>
      of_decide_eq_true h
  refine ⟨?_, ?_, isTop_take hperm hsorted hdistinct k⟩
  · rw [topk_F32, List.length_take, hperm.length_eq, List.length_range, Nat.min_eq_left hk]
  · exact (hperm.nodup_iff.2 List.nodup_range).sublist (List.take_sublist k _)

/-- What the gate leaves for a row: the selected experts and their shares. -/
def Gated (nBatches size k : Nat) (input : Rows R) (y : Nat) (s : Mem Nat × Rows R) : Prop :=
  let pos := topk_F32 (input y) size k
  ∀ j < k, s.1 (y * k + j) = pos.getD j 0 ∧
    s.2 (slotRow nBatches (j, y)) 0 = input y (pos.getD j 0) / (pos.map (input y)).sum

theorem moeGateForward_apply (hbatch : batchSize ≤ nBatches) (input : Rows R)
    (s : Mem Nat × Rows R) {y : Nat} (hy : y < batchSize) :
    Gated nBatches size k input y
      (moeGateForward nBatches size k true batchSize input s) := by
  have hlt : ∀ y' ∈ List.range batchSize, y' < nBatches := fun y' h =>
    (List.mem_range.1 h).trans_le hbatch
  refine foldl_establishes (A := fun y' => y' = y) ⟨y, List.mem_range.2 hy, rfl⟩
    (fun y' hy' heq s => ?_) (fun y' hy' hne s hs => ?_) s
  · -- the turns of the row itself
    subst heq
    refine foldl_range (P := fun m (s : Mem Nat × Rows R) => ∀ j < m,
      s.1 (y' * k + j) = (topk_F32 (input y') size k).getD j 0 ∧
        s.2 (slotRow nBatches (j, y')) 0 = input y' ((topk_F32 (input y') size k).getD j 0)
          / ((topk_F32 (input y') size k).map (input y')).sum)
      (fun j _ s hs j' hj' => ?_) fun j hj => absurd hj (Nat.not_lt_zero j)
    rcases Nat.lt_succ_iff_lt_or_eq.1 hj' with hless | rfl
    · have hindex : y' * k + j' ≠ y' * k + j := by omega
      have hrow : slotRow nBatches (j', y') ≠ slotRow nBatches (j, y') := fun h =>
        hless.ne (congrArg Prod.fst (slotRow_inj (hlt y' hy') (hlt y' hy') h))
      simp only [Function.update_of_ne hindex, Function.update_of_ne hrow]
      exact hs j' hless
    · refine ⟨Function.update_self .., ?_⟩
      simp only [Function.update_self, writeRow, Nat.lt_one_iff, if_true]
  · -- the turns of another row
    refine foldl_keeps (fun j' hj' s hs j hj => ?_) hs
    have hj'' := List.mem_range.1 hj'
    have hindex : y * k + j ≠ y' * k + j' := fun h => hne (add_mul_inj hj hj'' h).1.symm
    have hrow : slotRow nBatches (j, y) ≠ slotRow nBatches (j', y') := fun h =>
      hne (congrArg Prod.snd
        (slotRow_inj (hy.trans_le hbatch) (hlt y' hy') h)).symm
    simp only [Function.update_of_ne hindex, Function.update_of_ne hrow]
    exact hs j hj

end Gate

/-! ## The mixture -/

section Mixture

variable {R α : Type} [Field R] [LinearOrder R] (m : Libm R) (c : MoeConfig) (w : MoeWeights R)

def gateLogits (row : Mem R) : Mem R :=
  matmulRow c.dim c.nExperts w.moeGate 0 row

def gateProb (row : Mem R) : Mem R := fun e =>
  m.expf (gateLogits c w row e)
    / ∑ e' ∈ Finset.range c.nExperts, m.expf (gateLogits c w row e')

/-- The feed-forward of an expert. -/
def expertForward (e : Nat) (row : Mem R) : Mem R :=
  matmulRow c.hiddenDim c.dim w.w2 e fun j =>
    matmulRow c.dim c.hiddenDim w.w1 e row j
      / (1 + m.expf (-matmulRow c.dim c.hiddenDim w.w1 e row j))
      * matmulRow c.dim c.hiddenDim w.w3 e row j

/-- The experts in `S`, each with its share of their probabilities. -/
def mixture (S : Finset Nat) (row : Mem R) : Mem R := fun x =>
  ∑ e ∈ S, gateProb m c w row e / (∑ e' ∈ S, gateProb m c w row e') * expertForward m c w e row x

/-- The experts that the gate of a row selects. -/
def selected (fastGate : Bool) (batchSize : Nat) (b : MoeBuffers R α) (y : Nat) : List Nat :=
  topk_F32 (gateForward m c w.moeGate fastGate batchSize b y) c.nExperts c.nActiveExperts

/-- The row that the matrices of a slot are multiplied with. -/
def slotInput (q : ExactQ80 R α) (trace : List (Nat × RepeatStep)) (b : MoeBuffers R α)
    (z y : Nat) : Mem R :=
  q.floats (repeatRows q c.nBatches trace b.y b.moeYq) (slotRow c.nBatches (z, y))

variable {m c w} {q : ExactQ80 R α} {fastGate fast : Bool} {batchSize : Nat}
  {trace : List (Nat × RepeatStep)} {b : MoeBuffers R α} {y : Nat}

omit [LinearOrder R] in
theorem expertForward_congr {e : Nat} {row row' : Mem R} (h : ∀ i < c.dim, row i = row' i) :
    expertForward m c w e row = expertForward m c w e row' := by
  simp only [expertForward, matmulRow_congr h]

variable (hbatch : batchSize ≤ c.nBatches) (hy : y < batchSize)
include hbatch hy

/-- The gate's row after the softmax. -/
theorem gateForward_eq [IsStrictOrderedRing R] (hexp : IsExp m.expf) :
    ∀ e < c.nExperts, gateForward m c w.moeGate fastGate batchSize b y e
      = gateProb m c w (b.y y) e := by
  have hlogits : ∀ e < c.nExperts,
      matmulForward fastGate ⟨0, 0⟩ c.dim c.nExperts c.nBatches 1 batchSize w.moeGate
        b.moeExpertIndexes b.y b.moeGt y e = gateLogits c w (b.y y) e := by
    intro e he
    have hrow : slotRow c.nBatches (0, y) = y := by
      rw [slotRow, Nat.zero_mul, Nat.zero_add]
    have happly : matmulForward fastGate ⟨0, 0⟩ c.dim c.nExperts c.nBatches 1 batchSize w.moeGate
        b.moeExpertIndexes b.y b.moeGt (slotRow c.nBatches (0, y)) e
          = matmulRow c.dim c.nExperts w.moeGate (expertOf fastGate ⟨0, 0⟩ b.moeExpertIndexes 0 y)
              (b.y (slotRow c.nBatches (0, y))) e :=
      matmulForward_apply hbatch Nat.one_pos hy he _ _ _ _
    rwa [hrow, expertOf, if_pos (Or.inr rfl)] at happly
  intro e he
  have hgt : gateForward m c w.moeGate fastGate batchSize b y
      = softmax_F32 m (matmulForward fastGate ⟨0, 0⟩ c.dim c.nExperts c.nBatches 1 batchSize
          w.moeGate b.moeExpertIndexes b.y b.moeGt y) 0 c.nExperts := softmaxForward_apply hy _
  rw [hgt]
  generalize matmulForward fastGate ⟨0, 0⟩ c.dim c.nExperts c.nBatches 1 batchSize w.moeGate
    b.moeExpertIndexes b.y b.moeGt y = row at *
  have hself : softmax_F32 m row 0 c.nExperts (0 + e)
      = m.expf (row (0 + e)) / ∑ e' ∈ Finset.range c.nExperts, m.expf (row (0 + e')) :=
    softmax_F32_self hexp he
  simp only [Nat.zero_add] at hself
  rw [hself, hlogits e he, gateProb]
  congr 1
  apply Finset.sum_congr rfl
  intro e' he'
  rw [hlogits e' (Finset.mem_range.1 he')]

/-- A slot of a row after the matrices of its expert, times its share. -/
theorem moeSlot_eq {z x : Nat} (hz : z < c.nActiveExperts) (hx : x < c.dim) :
    let out := moeForward m q c w fastGate fast batchSize trace b
    let pos := selected m c w fastGate batchSize b y
    let e := if c.nActiveExperts = 1 ∧ fast then 0 else pos.getD z 0
    out.moeY (slotRow c.nBatches (z, y)) x
      = expertForward m c w e (slotInput c q trace b z y) x
        * (out.moeGt y (pos.getD z 0) / (pos.map (out.moeGt y)).sum) := by
  intro out pos e
  have hmax : max c.nActiveExperts 1 = c.nActiveExperts := by omega
  have hzmax : z < max c.nActiveExperts 1 := by omega
  -- the gate
  have hgated : Gated c.nBatches c.nExperts c.nActiveExperts out.moeGt y
      (out.moeExpertIndexes, out.moeS) := moeGateForward_apply hbatch _ _ hy
  rcases hgated z hz with ⟨hindex, hshare⟩
  simp only at hindex hshare
  have hexpert : expertOf fast ⟨c.nExperts, c.nActiveExperts⟩ out.moeExpertIndexes z y = e := by
    have hne : c.nActiveExperts ≠ 0 := by omega
    simp only [expertOf, hmax, hne, or_false]
    rw [hindex]
    rfl
  -- the matrices `w1` and `w3`
  have hmatmul : ∀ (weight : Mem R) (output : Rows R), ∀ j < c.hiddenDim,
      matmulForward fast ⟨c.nExperts, c.nActiveExperts⟩ c.dim c.hiddenDim c.nBatches
        (max c.nActiveExperts 1) batchSize weight out.moeExpertIndexes (q.floats out.moeYq) output
        (slotRow c.nBatches (z, y)) j
          = matmulRow c.dim c.hiddenDim weight e (slotInput c q trace b z y) j := by
    intro weight output j hj
    rw [matmulForward_apply hbatch hzmax hy hj, hexpert]
    rfl
  -- their product, as `w2` reads it
  have hhidden : ∀ j < c.hiddenDim, out.moeDQ (slotRow c.nBatches (z, y)) j
      = matmulRow c.dim c.hiddenDim w.w1 e (slotInput c q trace b z y) j
        / (1 + m.expf (-matmulRow c.dim c.hiddenDim w.w1 e (slotInput c q trace b z y) j))
        * matmulRow c.dim c.hiddenDim w.w3 e (slotInput c q trace b z y) j := by
    intro j hj
    have hcast : out.moeDQ (slotRow c.nBatches (z, y)) j = out.moeD (slotRow c.nBatches (z, y)) j :=
      castForward_apply hbatch hzmax hy hj out.moeD b.moeDQ
    have hmul : out.moeD (slotRow c.nBatches (z, y)) j
        = siluForward m c.nBatches (max c.nActiveExperts 1) batchSize c.hiddenDim
            (matmulForward fast ⟨c.nExperts, c.nActiveExperts⟩ c.dim c.hiddenDim c.nBatches
              (max c.nActiveExperts 1) batchSize w.w1 out.moeExpertIndexes (q.floats out.moeYq)
              b.moeD)
            (slotRow c.nBatches (z, y)) j * out.moeL (slotRow c.nBatches (z, y)) j :=
      mulForward_apply hbatch hzmax hy hj out.moeL _
    have hleft : out.moeL (slotRow c.nBatches (z, y)) j
        = matmulRow c.dim c.hiddenDim w.w3 e (slotInput c q trace b z y) j :=
      hmatmul w.w3 b.moeL j hj
    rw [hcast, hmul, hleft, siluForward, forRows_zyRows hbatch hzmax hy hj, hmatmul w.w1 _ j hj]
  -- the matrix `w2` and the share
  have hscale : out.moeY (slotRow c.nBatches (z, y)) x
      = matmulForward fast ⟨c.nExperts, c.nActiveExperts⟩ c.hiddenDim c.dim c.nBatches
          (max c.nActiveExperts 1) batchSize w.w2 out.moeExpertIndexes out.moeDQ b.moeY
          (slotRow c.nBatches (z, y)) x * out.moeS (slotRow c.nBatches (z, y)) 0 :=
    scaleForward_apply hbatch hzmax hy hx out.moeS _
  rw [hscale, matmulForward_apply hbatch hzmax hy hx, hexpert, matmulRow_congr hhidden, hshare]
  rfl

theorem moeMerge_eq {x : Nat} (hpos : 0 < c.nActiveExperts) (hx : x < c.dim) :
    let out := moeForward m q c w fastGate fast batchSize trace b
    out.y y x = ∑ z ∈ Finset.range c.nActiveExperts, out.moeY (slotRow c.nBatches (z, y)) x := by
  intro out
  have hmax : max c.nActiveExperts 1 = c.nActiveExperts := by omega
  have hmerge : out.y y x
      = ∑ z ∈ Finset.range (max c.nActiveExperts 1), out.moeY (y + z * c.nBatches) x :=
    forRows_rows hbatch hy hx
      (fun k _ i => ∑ z ∈ Finset.range (max c.nActiveExperts 1),
        out.moeY (k.2 + z * c.nBatches) i) b.y
  rw [hmerge, hmax]
  apply Finset.sum_congr rfl
  intro z _
  rw [slotRow, Nat.add_comm]

end Mixture

/-- A loop over the entries of a list. -/
theorem sum_range_getD {R : Type} [AddCommMonoid R] (l : List Nat) (f : Nat → R) :
    ∑ z ∈ Finset.range l.length, f (l.getD z 0) = (l.map f).sum := by
  induction l with
  | nil => rfl
  | cons a l ih =>
      rw [List.length_cons, Finset.sum_range_succ', List.map_cons, List.sum_cons, ← ih, add_comm]
      rfl

section Result

variable {R α : Type} [Field R] [LinearOrder R] [IsStrictOrderedRing R] {m : Libm R}
  {q : ExactQ80 R α} {c : MoeConfig} {w : MoeWeights R} {fastGate fast : Bool} {batchSize : Nat}
  {trace : List (Nat × RepeatStep)} {b : MoeBuffers R α} {y : Nat}
  (hexp : IsExp m.expf)
include hexp

theorem gateProb_pos (row : Mem R) (hexperts : 0 < c.nExperts) (e : Nat) :
    0 < gateProb m c w row e :=
  div_pos (hexp.pos _) (Finset.sum_pos (fun _ _ => hexp.pos _) ⟨0, Finset.mem_range.2 hexperts⟩)

theorem mixture_singleton (row : Mem R) (hexperts : 0 < c.nExperts) (e x : Nat) :
    mixture m c w {e} row x = expertForward m c w e row x := by
  have hshare := (gateProb_pos (m := m) (w := w) hexp row hexperts e).ne'
  simp [mixture, hshare]

variable (hmono : StrictMono m.expf) (hpos : 0 < c.nActiveExperts)
  (hle : c.nActiveExperts ≤ c.nExperts) (hbatch : batchSize ≤ c.nBatches)
include hmono hle hbatch

variable (fastGate) in
/-- The selected experts, by the gate in exact arithmetic. -/
theorem selected_spec (hy : y < batchSize)
    (hdistinct : ∀ e < c.nExperts, ∀ e' < c.nExperts,
      gateLogits c w (b.y y) e = gateLogits c w (b.y y) e' → e = e') :
    (selected m c w fastGate batchSize b y).length = c.nActiveExperts ∧
      (selected m c w fastGate batchSize b y).Nodup ∧
      IsTop (gateProb m c w (b.y y)) c.nExperts
        (selected m c w fastGate batchSize b y).toFinset := by
  have hgt : ∀ e < c.nExperts, gateForward m c w.moeGate fastGate batchSize b y e
      = gateProb m c w (b.y y) e := gateForward_eq hbatch hy hexp
  have hprob : ∀ e < c.nExperts, ∀ e' < c.nExperts,
      gateForward m c w.moeGate fastGate batchSize b y e
        = gateForward m c w.moeGate fastGate batchSize b y e' → e = e' := by
    intro e he e' he' heq
    have hne : ∑ e' ∈ Finset.range c.nExperts, m.expf (gateLogits c w (b.y y) e') ≠ 0 :=
      (Finset.sum_pos (fun _ _ => hexp.pos _) ⟨e, Finset.mem_range.2 he⟩).ne'
    rw [hgt e he, hgt e' he', gateProb, gateProb, div_left_inj' hne] at heq
    exact hdistinct e he e' he' (hmono.injective heq)
  rcases topk_F32_spec hle hprob with ⟨hlen, hnd, htop⟩
  exact ⟨hlen, hnd, htop.congr hgt⟩

variable (fast) in
include hpos in
/-- A row of the result, by the experts that its gate selects and the rows of their slots. -/
theorem moeForward_row (hy : y < batchSize)
    (hdistinct : ∀ e < c.nExperts, ∀ e' < c.nExperts,
      gateLogits c w (b.y y) e = gateLogits c w (b.y y) e' → e = e') {x : Nat} (hx : x < c.dim) :
    (moeForward m q c w fastGate fast batchSize trace b).y y x
      = ∑ z ∈ Finset.range c.nActiveExperts,
        expertForward m c w (if c.nActiveExperts = 1 ∧ fast then 0
            else (selected m c w fastGate batchSize b y).getD z 0) (slotInput c q trace b z y) x
          * (gateProb m c w (b.y y) ((selected m c w fastGate batchSize b y).getD z 0)
            / ((selected m c w fastGate batchSize b y).map (gateProb m c w (b.y y))).sum) := by
  have hgt : ∀ e < c.nExperts, (moeForward m q c w fastGate fast batchSize trace b).moeGt y e
      = gateProb m c w (b.y y) e := gateForward_eq hbatch hy hexp
  rcases selected_spec fastGate hexp hmono hle hbatch hy hdistinct with ⟨hlen, -, htop⟩
  have hmem : ∀ e ∈ selected m c w fastGate batchSize b y, e < c.nExperts := fun e he =>
    htop.lt e (List.mem_toFinset.2 he)
  have hshares : (selected m c w fastGate batchSize b y).map
        ((moeForward m q c w fastGate fast batchSize trace b).moeGt y)
      = (selected m c w fastGate batchSize b y).map (gateProb m c w (b.y y)) :=
    List.map_congr_left fun e he => hgt e (hmem e he)
  rw [moeMerge_eq hbatch hy hpos hx]
  refine Finset.sum_congr rfl fun z hz => ?_
  have hz' := Finset.mem_range.1 hz
  have hentry : (selected m c w fastGate batchSize b y).getD z 0
      ∈ selected m c w fastGate batchSize b y := by
    rw [List.getD_eq_getElem _ _ (hlen ▸ hz')]
    exact List.getElem_mem _
  rw [moeSlot_eq hbatch hy hz' hx, hshares, hgt _ (hmem _ hentry)]

section Rows

variable (hy : y < batchSize) (hdistinct : ∀ e < c.nExperts, ∀ e' < c.nExperts,
  gateLogits c w (b.y y) e = gateLogits c w (b.y y) e' → e = e')
include hy hdistinct

/-- Where one expert is active and the first matrix is taken, the row is that of expert 0. -/
theorem moeForward_first (hone : c.nActiveExperts = 1) (hfast : fast = true)
    (hslot : ∀ i < c.dim, slotInput c q trace b 0 y i = b.y y i) {x : Nat} (hx : x < c.dim) :
    (moeForward m q c w fastGate fast batchSize trace b).y y x
      = expertForward m c w 0 (b.y y) x := by
  rcases selected_spec fastGate hexp hmono hle hbatch hy hdistinct with ⟨hlen, -, -⟩
  rw [moeForward_row fast hexp hmono (by omega) hle hbatch hy hdistinct hx]
  rw [hone] at hlen
  rcases List.length_eq_one_iff.1 hlen with ⟨e, he⟩
  have hshare := (gateProb_pos (m := m) (w := w) hexp (b.y y) (by omega : 0 < c.nExperts) e).ne'
  rw [hone, he, Finset.sum_range_one, if_pos ⟨rfl, hfast⟩, expertForward_congr hslot]
  simp [hshare]

include hpos

/-- Otherwise the row is the mixture of what its slots hold. -/
theorem moeForward_slots (hslots : ¬(c.nActiveExperts = 1 ∧ fast = true)) {x : Nat}
    (hx : x < c.dim) :
    (moeForward m q c w fastGate fast batchSize trace b).y y x
      = ∑ z ∈ Finset.range c.nActiveExperts,
        expertForward m c w ((selected m c w fastGate batchSize b y).getD z 0)
            (slotInput c q trace b z y) x
          * (gateProb m c w (b.y y) ((selected m c w fastGate batchSize b y).getD z 0)
            / ((selected m c w fastGate batchSize b y).map (gateProb m c w (b.y y))).sum) := by
  rw [moeForward_row fast hexp hmono hpos hle hbatch hy hdistinct hx]
  simp only [if_neg hslots]

omit hpos in
/-- The mixture of the selected experts, slot by slot. -/
theorem mixture_selected (row : Mem R) (x : Nat) :
    mixture m c w (selected m c w fastGate batchSize b y).toFinset row x
      = ∑ z ∈ Finset.range c.nActiveExperts,
        expertForward m c w ((selected m c w fastGate batchSize b y).getD z 0) row x
          * (gateProb m c w row ((selected m c w fastGate batchSize b y).getD z 0)
            / ((selected m c w fastGate batchSize b y).map (gateProb m c w row)).sum) := by
  rcases selected_spec fastGate hexp hmono hle hbatch hy hdistinct with ⟨hlen, hnd, -⟩
  rw [← hlen, sum_range_getD _ fun e => expertForward m c w e row x
    * (gateProb m c w row e / ((selected m c w fastGate batchSize b y).map
      (gateProb m c w row)).sum), ← List.sum_toFinset _ hnd, ← List.sum_toFinset _ hnd, mixture]
  exact Finset.sum_congr rfl fun e _ => mul_comm _ _

theorem moeForward_mixture (hslots : ¬(c.nActiveExperts = 1 ∧ fast = true))
    (hslot : ∀ z < c.nActiveExperts, ∀ i < c.dim, slotInput c q trace b z y i = b.y y i) {x : Nat}
    (hx : x < c.dim) :
    (moeForward m q c w fastGate fast batchSize trace b).y y x
      = mixture m c w (selected m c w fastGate batchSize b y).toFinset (b.y y) x := by
  rw [moeForward_slots hexp hmono hpos hle hbatch hy hdistinct hslots hx,
    mixture_selected hexp hmono hle hbatch hy hdistinct]
  refine Finset.sum_congr rfl fun z hz => ?_
  rw [expertForward_congr (hslot z (Finset.mem_range.1 hz))]

end Rows

end Result

end Kernels.Moe
end PrefillOpt
