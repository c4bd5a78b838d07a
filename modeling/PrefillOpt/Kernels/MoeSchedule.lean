import Mathlib.Analysis.Complex.Exponential
import Mathlib.Analysis.Real.Sqrt
import PrefillOpt.Kernels.MoeMixture

/-!
# Kernels.MoeSchedule — when the ops of a mixture compute it

Two things can go wrong: the fast path of the matmul op takes the first matrix for the only active
expert, and a thread copies bytes of the activation that no thread has quantised yet.
-/

namespace PrefillOpt
namespace Kernels.Moe

open Lib

section Statement

variable {R : Type} [Field R] [LinearOrder R]

/-- Every row of the batch becomes the mixture of its experts, whatever the matrices of the experts
are and however the threads that copy the activation are scheduled. -/
def ComputesMixture (m : Libm R) (c : MoeConfig) (moeGate : Mem R) (fastGate fast : Bool)
    (batchSize nThreads : Nat) (rows : Rows R) : Prop :=
  ∀ (α : Type) (q : ExactQ80 R α) (w : MoeWeights R) (b : MoeBuffers R α)
    (trace : List (Nat × RepeatStep)), w.moeGate = moeGate → b.y = rows →
    Interleaves (repeatZThreads (max c.nActiveExperts 1) c.dim batchSize nThreads) trace →
    ∀ y < batchSize, ∃ S : Finset Nat, S.card = c.nActiveExperts ∧
      IsTop (gateProb m c w (rows y)) c.nExperts S ∧
      ∀ x < c.dim, (moeForward m q c w fastGate fast batchSize trace b).y y x
        = mixture m c w S (rows y) x

end Statement

/-! ## Weights that show what a slot holds -/

section Probe

variable {R : Type}

theorem byteProbe_exact (k : Fin 34) (v : Nat → R) (a : Nat → Nat → R)
    (h : ∀ k' < 34, a k' = v) : ∀ j < 32, a k j = v j := by
  intro j _
  rw [h k k.isLt]

/-- Bytes that each know the whole block, and a kernel that looks at byte `k` of them. -/
def byteProbe (R : Type) (k : Fin 34) : ExactQ80 R (Nat → R) :=
  ⟨fun v _ => v, fun a => a k, byteProbe_exact k⟩

variable [Field R]

/-- Only expert `e` has an output, in place 0, and it sees float `l` of the input only. -/
def probeWeights (c : MoeConfig) (moeGate : Mem R) (e l : Nat) : MoeWeights R where
  moeGate := moeGate
  w1 := fun a => if a % (c.hiddenDim * c.dim) = l then 1 else 0
  w2 := fun a => if a = e * (c.dim * c.hiddenDim) then 1 else 0
  w3 := fun a => if a % (c.hiddenDim * c.dim) = l then 1 else 0

/-- Buffers whose quantised rows are the same everywhere. -/
def probeBuffers (rows : Rows R) (v : R) : MoeBuffers R (Nat → R) :=
  ⟨rows, fun _ _ => v, fun _ _ => 0, fun _ => 0, fun _ _ => 0, fun _ _ => 0, fun _ _ => 0,
    fun _ _ => 0, fun _ _ => 0⟩

/-- The output of the expert. -/
def activation (m : Libm R) (t : R) : R :=
  t / (1 + m.expf (-t)) * t

theorem activation_eq_zero [LinearOrder R] [IsStrictOrderedRing R] {m : Libm R}
    (hexp : IsExp m.expf) {t : R} : activation m t = 0 ↔ t = 0 := by
  have hne : 1 + m.expf (-t) ≠ 0 := (add_pos one_pos (hexp.pos _)).ne'
  rw [activation, mul_eq_zero, div_eq_zero_iff]
  tauto

theorem expertForward_probe {m : Libm R} {c : MoeConfig} {moeGate : Mem R} {e e' l : Nat}
    (hl : l < c.dim) (hhidden : 0 < c.hiddenDim) (row : Mem R) :
    expertForward m c (probeWeights c moeGate e l) e' row 0
      = if e' = e then activation m (row l) else 0 := by
  have hle : c.dim ≤ c.hiddenDim * c.dim := Nat.le_mul_of_pos_left _ hhidden
  have hle' : c.hiddenDim ≤ c.dim * c.hiddenDim := Nat.le_mul_of_pos_left _ (by omega)
  -- the first place of the hidden row is float `l`
  have hfirst : matmulRow c.dim c.hiddenDim
      (fun a => if a % (c.hiddenDim * c.dim) = l then (1 : R) else 0) e' row 0 = row l := by
    rw [matmulRow, Finset.sum_eq_single l]
    · rw [Nat.zero_mul, Nat.zero_add, Nat.mul_comm e', Nat.mul_add_mod,
        Nat.mod_eq_of_lt (hl.trans_le hle), if_pos rfl, one_mul]
    · intro j hj hne
      have hj := Finset.mem_range.1 hj
      rw [Nat.zero_mul, Nat.zero_add, Nat.mul_comm e', Nat.mul_add_mod,
        Nat.mod_eq_of_lt (hj.trans_le hle), if_neg hne, zero_mul]
    · exact fun h => absurd (Finset.mem_range.2 hl) h
  rw [expertForward, matmulRow, Finset.sum_eq_single 0]
  · simp only [probeWeights, hfirst, Nat.zero_mul, Nat.add_zero]
    by_cases he : e' = e
    · rw [if_pos he, if_pos (by rw [he]), one_mul, activation]
    · have hne : ¬e' * (c.dim * c.hiddenDim) = e * (c.dim * c.hiddenDim) := fun h =>
        he (Nat.eq_of_mul_eq_mul_right (by omega) h)
      rw [if_neg he, if_neg hne, zero_mul]
  · intro j hj hne
    have hj := Finset.mem_range.1 hj
    have hindex : ¬e' * (c.dim * c.hiddenDim) + (0 * c.hiddenDim + j)
        = e * (c.dim * c.hiddenDim) := by
      intro h
      rw [Nat.zero_mul, Nat.zero_add] at h
      exact hne (add_mul_inj (hj.trans_le hle') (by omega)
        (h : _ = e * (c.dim * c.hiddenDim) + 0)).2
    exact (congrArg (· * _) (if_neg hindex)).trans (zero_mul _)
  · exact fun h => absurd (Finset.mem_range.2 hhidden) h

end Probe

/-! ## Where the rows are the mixtures -/

section Result

variable {R : Type} [Field R] [LinearOrder R] [IsStrictOrderedRing R] {m : Libm R} {c : MoeConfig}
  {w : MoeWeights R} {fastGate fast : Bool} {batchSize nThreads : Nat} {rows : Rows R}
  (hexp : IsExp m.expf) (hmono : StrictMono m.expf) (hpos : 0 < c.nActiveExperts)
  (hle : c.nActiveExperts ≤ c.nExperts) (hbatch : batchSize ≤ c.nBatches) (hn : 0 < nThreads)
  (hdim : c.dim < 2 ^ 32)
  (hdistinct : ∀ y < batchSize, ∀ e < c.nExperts, ∀ e' < c.nExperts,
    gateLogits c w (rows y) e = gateLogits c w (rows y) e' → e = e')

omit [LinearOrder R] [IsStrictOrderedRing R] in
theorem expertForward_of_hiddenDim (h : c.hiddenDim = 0) (e : Nat) (row : Mem R) (x : Nat) :
    expertForward m c w e row x = 0 := by
  rw [expertForward, matmulRow, h, Finset.sum_range_zero]

include hexp hmono hpos hle hbatch hn hdim hdistinct

/-- The three conditions are enough. -/
theorem computesMixture (hblocks : 32 ∣ c.dim)
    (h : c.hiddenDim = 0 ∨
      (c.nActiveExperts = 1 → fast = true → ∀ y < batchSize,
        IsTop (gateProb m c w (rows y)) c.nExperts {0}) ∧
      (c.nActiveExperts = 1 ∨ batchSize = 0 ∨ EvenShares c.dim nThreads)) :
    ComputesMixture m c w.moeGate fastGate fast batchSize nThreads rows := by
  rintro α q w' b trace hgate rfl htrace y hy
  have hlogits : gateLogits c w' = gateLogits c w := by
    funext row
    rw [gateLogits, gateLogits, hgate]
  have hprob : gateProb m c w' = gateProb m c w := by
    funext row e
    rw [gateProb, gateProb, hlogits]
  have hdistinct' := hlogits ▸ hdistinct y hy
  have hmax : max c.nActiveExperts 1 = c.nActiveExperts := by omega
  rcases selected_spec fastGate hexp hmono hle hbatch hy hdistinct' with ⟨hlen, hnd, htop⟩
  have hcard := (List.toFinset_card_of_nodup hnd).trans hlen
  have hfresh : ∀ z < c.nActiveExperts, z = 0 ∨ EvenShares c.dim nThreads →
      ∀ i < c.dim, slotInput c q trace b z y i = b.y y i := fun z hz hfresh =>
    floats_repeatRows hn hdim hblocks hbatch (hz.trans_le (le_max_left _ _)) hy htrace hfresh
  rcases h with hzero | ⟨hfirst, hshares⟩
  · -- nothing but zeros
    refine ⟨_, hcard, htop, fun x hx => ?_⟩
    have hexpert := fun e row => expertForward_of_hiddenDim (m := m) (w := w') hzero e row x
    rw [moeForward_row fast hexp hmono hpos hle hbatch hy hdistinct' hx, mixture]
    simp only [hexpert, zero_mul, mul_zero, Finset.sum_const_zero]
  · by_cases hslots : c.nActiveExperts = 1 ∧ fast = true
    · refine ⟨{0}, by rw [hslots.1, Finset.card_singleton], ?_, fun x hx => ?_⟩
      · rw [hprob]
        exact hfirst hslots.1 hslots.2 y hy
      · rw [mixture_singleton hexp (b.y y) (hpos.trans_le hle),
          moeForward_first hexp hmono hle hbatch hy hdistinct' hslots.1 hslots.2
            (hfresh 0 hpos (.inl rfl)) hx]
    · refine ⟨_, hcard, htop, fun x hx => ?_⟩
      refine moeForward_mixture hexp hmono hpos hle hbatch hy hdistinct' hslots
        (fun z hz => hfresh z hz ?_) hx
      rcases hshares with hone | hnone | heven
      · exact .inl (by omega)
      · omega
      · exact .inr heven

/-- With one active expert and the first matrix that expert is the first one. -/
theorem isTop_zero_of_computesMixture (hhidden : 0 < c.hiddenDim) (hblocks : 32 ∣ c.dim)
    (h : ComputesMixture m c w.moeGate fastGate fast batchSize nThreads rows)
    (hone : c.nActiveExperts = 1) (hfast : fast = true) {y : Nat} (hy : y < batchSize) :
    IsTop (gateProb m c w (rows y)) c.nExperts {0} := by
  have hmax : max c.nActiveExperts 1 = 1 := by omega
  obtain ⟨trace, htrace⟩ : ∃ trace,
      Interleaves (repeatZThreads (max c.nActiveExperts 1) c.dim batchSize nThreads) trace :=
    ⟨_, interleaves_order _ _ _ List.nodup_range fun t ht => List.mem_range.2 ht⟩
  rcases selected_spec (b := probeBuffers rows (0 : R)) fastGate hexp hmono hle hbatch hy
    (hdistinct y hy) with ⟨hlen, hnd, htop⟩
  rw [hone] at hlen
  rcases List.length_eq_one_iff.1 hlen with ⟨e, he⟩
  rw [he, List.toFinset_cons, List.toFinset_nil, insert_empty_eq] at htop
  by_cases hzero : e = 0
  · rwa [hzero] at htop
  · -- the output of expert 0 is not in the mixture, so that the row of the input is zero
    have hrow : ∀ l < c.dim, rows y l = 0 := by
      intro l hl
      rcases h _ (byteProbe R 0) (probeWeights c w.moeGate 0 l) (probeBuffers rows 0) trace
        rfl rfl htrace y hy with ⟨S, hcard, hS, hout⟩
      have hSe : S = {e} := hS.unique htop (by rw [hcard, hone, Finset.card_singleton])
      have hmix := hout 0 (by omega)
      rw [hSe, mixture_singleton hexp (rows y) (hpos.trans_le hle),
        expertForward_probe hl hhidden, if_neg hzero] at hmix
      refine (activation_eq_zero hexp).1 (Eq.trans ?_ hmix)
      have hfirst : (moeForward m (byteProbe R 0) c (probeWeights c w.moeGate 0 l) fastGate fast
          batchSize trace (probeBuffers rows 0)).y y 0
            = expertForward m c (probeWeights c w.moeGate 0 l) 0 (rows y) 0 :=
        moeForward_first hexp hmono hle hbatch hy (hdistinct y hy) hone hfast
          (floats_repeatRows hn hdim hblocks hbatch (hpos.trans_le (le_max_left _ 1)) hy htrace
            (.inl rfl)) (show 0 < c.dim by omega)
      rw [hfirst, expertForward_probe hl hhidden, if_pos rfl]
    have hlogits : ∀ e, gateLogits c w (rows y) e = 0 := by
      intro e
      rw [gateLogits, matmulRow]
      exact Finset.sum_eq_zero fun j hj => by rw [hrow j (Finset.mem_range.1 hj), mul_zero]
    have hmem := htop.lt e (Finset.mem_singleton_self e)
    exact absurd (hdistinct y hy e hmem 0 (by omega) (by rw [hlogits, hlogits])) hzero

omit hn hdim hdistinct hpos in
/-- What the weights of the probe leave of a sum over the slots. -/
theorem sum_probe {α : Type} {b : MoeBuffers R α} {y z l : Nat} (hy : y < batchSize)
    (hdistinct : ∀ e < c.nExperts, ∀ e' < c.nExperts,
      gateLogits c w (b.y y) e = gateLogits c w (b.y y) e' → e = e')
    (hz : z < c.nActiveExperts) (hl : l < c.dim) (hhidden : 0 < c.hiddenDim) (row : Nat → Mem R)
    (share : Nat → R) :
    let pos := selected m c w fastGate batchSize b y
    ∑ z' ∈ Finset.range c.nActiveExperts,
        expertForward m c (probeWeights c w.moeGate (pos.getD z 0) l) (pos.getD z' 0) (row z') 0
          * share (pos.getD z' 0)
      = activation m (row z l) * share (pos.getD z 0) := by
  intro pos
  rcases selected_spec fastGate hexp hmono hle hbatch hy hdistinct with ⟨hlen, hnd, -⟩
  have hlen : pos.length = c.nActiveExperts := hlen
  have hnd : pos.Nodup := hnd
  rw [Finset.sum_eq_single z]
  · rw [expertForward_probe hl hhidden, if_pos rfl]
  · intro z' hz' hne
    have hz' := Finset.mem_range.1 hz'
    have hother : pos.getD z' 0 ≠ pos.getD z 0 := by
      intro heq
      rw [List.getD_eq_getElem _ _ (hlen ▸ hz'), List.getD_eq_getElem _ _ (hlen ▸ hz)] at heq
      exact hne ((List.Nodup.getElem_inj_iff hnd).1 heq)
    rw [expertForward_probe hl hhidden, if_neg hother, zero_mul]
  · exact fun hno => absurd (Finset.mem_range.2 hz) hno

omit hn hdim hdistinct in
/-- Where the rows become the mixtures, every slot held the row of the input. -/
theorem activation_slotInput {α : Type} {q : ExactQ80 R α} {trace : List (Nat × RepeatStep)}
    {b : MoeBuffers R α} {y z l : Nat} (hy : y < batchSize)
    (hdistinct : ∀ e < c.nExperts, ∀ e' < c.nExperts,
      gateLogits c w (b.y y) e = gateLogits c w (b.y y) e' → e = e')
    (hslots : ¬(c.nActiveExperts = 1 ∧ fast = true)) (hz : z < c.nActiveExperts) (hl : l < c.dim)
    (hhidden : 0 < c.hiddenDim)
    (h : ComputesMixture m c w.moeGate fastGate fast batchSize nThreads b.y)
    (htrace : Interleaves (repeatZThreads (max c.nActiveExperts 1) c.dim batchSize nThreads)
      trace) :
    activation m (slotInput c q trace b z y l) = activation m (b.y y l) := by
  have hdim : 0 < c.dim := by omega
  generalize he : (selected m c w fastGate batchSize b y).getD z 0 = e
  rcases h _ q (probeWeights c w.moeGate e l) b trace rfl rfl htrace y hy with
    ⟨S, hcard, hS, hout⟩
  rcases selected_spec fastGate hexp hmono hle hbatch hy hdistinct with ⟨hlen, hnd, htop⟩
  have hSpos : S = (selected m c w fastGate batchSize b y).toFinset :=
    hS.unique htop (hcard.trans (hlen.symm.trans (List.toFinset_card_of_nodup hnd).symm))
  let share : Nat → R := fun e' => gateProb m c w (b.y y) e'
    / ((selected m c w fastGate batchSize b y).map (gateProb m c w (b.y y))).sum
  -- the gate of the probe is that of `w`
  have hgate : ∀ e' < c.nExperts, ∀ e'' < c.nExperts,
      gateLogits c (probeWeights c w.moeGate e l) (b.y y) e'
        = gateLogits c (probeWeights c w.moeGate e l) (b.y y) e'' → e' = e'' := hdistinct
  have hslot : (moeForward m q c (probeWeights c w.moeGate e l) fastGate fast batchSize trace b).y
      y 0 = activation m (slotInput c q trace b z y l) * share e := by
    rw [moeForward_slots hexp hmono hpos hle hbatch hy hgate hslots hdim, ← he]
    exact sum_probe hexp hmono hle hbatch hy hdistinct hz hl hhidden
      (fun z => slotInput c q trace b z y) share
  have hmixture : mixture m c (probeWeights c w.moeGate e l)
      (selected m c (probeWeights c w.moeGate e l) fastGate batchSize b y).toFinset (b.y y) 0
        = activation m (b.y y l) * share e := by
    rw [mixture_selected hexp hmono hle hbatch hy hgate (b.y y) 0, ← he]
    exact sum_probe hexp hmono hle hbatch hy hdistinct hz hl hhidden (fun _ => b.y y) share
  have hshare : share e ≠ 0 := by
    have hprob := gateProb_pos (m := m) (w := w) hexp (b.y y) (hpos.trans_le hle)
    refine div_ne_zero (hprob e).ne' (List.sum_pos _ (fun p hp => ?_) ?_).ne'
    · rcases List.mem_map.1 hp with ⟨e', -, rfl⟩
      exact hprob e'
    · intro hnil
      rw [List.map_eq_nil_iff.1 hnil, List.length_nil] at hlen
      exact hpos.ne hlen
  have heq := hout 0 hdim
  rw [hslot, hSpos] at heq
  exact mul_right_cancel₀ hshare (heq.trans hmixture)

/-- With more active experts the threads that copy have even shares. -/
theorem evenShares_of_computesMixture (hn' : nThreads < 2 ^ 32) (hhidden : 0 < c.hiddenDim)
    (h : ComputesMixture m c w.moeGate fastGate fast batchSize nThreads rows)
    (hmany : 1 < c.nActiveExperts) (hrows : 0 < batchSize) : EvenShares c.dim nThreads := by
  by_contra heven
  have hslots : 1 < max c.nActiveExperts 1 := by omega
  rcases exists_stale hdim hbatch hslots hn hn' heven with ⟨k, hk, trace, htrace, hstale⟩
  have hl : k / 34 * 32 < c.dim := by omega
  -- what was there before is told apart from the row
  obtain ⟨v, hv⟩ : ∃ v : R, activation m v ≠ activation m (rows 0 (k / 34 * 32)) := by
    by_cases hzero : rows 0 (k / 34 * 32) = 0
    · refine ⟨1, fun h => ?_⟩
      rw [hzero, (activation_eq_zero hexp).2 rfl] at h
      exact one_ne_zero ((activation_eq_zero hexp).1 h)
    · refine ⟨0, fun h => hzero ?_⟩
      rw [(activation_eq_zero hexp).2 rfl] at h
      exact (activation_eq_zero hexp).1 h.symm
  -- a code that is read off the stale byte
  let q := byteProbe R ⟨k % 34, Nat.mod_lt k (by decide)⟩
  have hslot : slotInput c q trace (probeBuffers rows v) 1 0 (k / 34 * 32) = v := by
    have hindex : k / 34 * 32 / 32 * 34 + k % 34 = k := by omega
    have hrow : slotRow c.nBatches (1, 0) = c.nBatches := by
      rw [slotRow, Nat.one_mul, Nat.add_zero]
    have hcell : slotInput c q trace (probeBuffers rows v) 1 0 (k / 34 * 32)
        = repeatRows q c.nBatches trace rows (fun _ _ => v)
          (slotRow c.nBatches (1, 0), k / 34 * 32 / 32 * 34 + k % 34) (k / 34 * 32 % 32) := rfl
    rw [hcell, hindex, hrow, repeatRows, hstale]
  have hfresh : activation m (slotInput c q trace (probeBuffers rows v) 1 0 (k / 34 * 32))
      = activation m (rows 0 (k / 34 * 32)) :=
    activation_slotInput hexp hmono hpos hle hbatch hrows (hdistinct 0 hrows) (by omega) hmany hl
      hhidden h htrace
  rw [hslot] at hfresh
  exact hv hfresh

/-- The rows of a batch become the mixtures of their experts, whatever their matrices and the
schedule of the threads, exactly when the only active expert is the first one where the first matrix
is taken for it, and the threads that copy for several experts have even shares. -/
theorem moeForward_iff (hn' : nThreads < 2 ^ 32) (hblocks : 32 ∣ c.dim) :
    ComputesMixture m c w.moeGate fastGate fast batchSize nThreads rows ↔
      c.hiddenDim = 0 ∨
        (c.nActiveExperts = 1 → fast = true → ∀ y < batchSize,
          IsTop (gateProb m c w (rows y)) c.nExperts {0}) ∧
        (c.nActiveExperts = 1 ∨ batchSize = 0 ∨ EvenShares c.dim nThreads) := by
  refine ⟨fun h => or_iff_not_imp_left.2 fun hhidden => ⟨fun hone hfast y hy => ?_, ?_⟩,
    computesMixture hexp hmono hpos hle hbatch hn hdim hdistinct hblocks⟩
  · exact isTop_zero_of_computesMixture hexp hmono hpos hle hbatch hn hdim hdistinct
      (Nat.pos_of_ne_zero hhidden) hblocks h hone hfast hy
  · by_cases hone : c.nActiveExperts = 1
    · exact .inl hone
    · rcases Nat.eq_zero_or_pos batchSize with hzero | hrows
      · exact .inr (.inl hzero)
      · exact .inr (.inr (evenShares_of_computesMixture hexp hmono hpos hle hbatch hn hdim
          hdistinct hn' (Nat.pos_of_ne_zero hhidden) h (by omega) hrows))

end Result

/-! ## Two experts -/

section Example

noncomputable def realLibm : Libm ℝ :=
  ⟨Real.exp, Real.sqrt⟩

theorem realLibm_isExp : IsExp realLibm.expf :=
  ⟨Real.exp_pos, Real.exp_add⟩

/-- Rows of two blocks. -/
def twoExperts (nActiveExperts : Nat) : MoeConfig :=
  ⟨2, nActiveExperts, 1, 64, 1⟩

/-- Expert 1 has the larger gate; `w1` of expert 0 is zero. -/
def twoWeights : MoeWeights ℝ :=
  ⟨fun i => if i = 64 then 1 else 0, fun i => if i = 64 then 1 else 0, fun _ => 1, fun _ => 1⟩

/-- A one and zeros. -/
def oneRow : Rows ℝ :=
  fun _ i => if i = 0 then 1 else 0

theorem matmulRow_oneRow (d : Nat) (weight : Mem ℝ) (expert i : Nat) :
    matmulRow 64 d weight expert (oneRow 0) i = weight (expert * (d * 64) + i * 64) := by
  rw [matmulRow, Finset.sum_eq_single 0]
  · rw [oneRow, if_pos rfl, mul_one, Nat.add_zero]
  · intro j _ hne
    rw [oneRow, if_neg hne, mul_zero]
  · exact fun h => absurd (Finset.mem_range.2 (by decide)) h

theorem twoExperts_logits (k e : Nat) :
    gateLogits (twoExperts k) twoWeights (oneRow 0) e = if e = 1 then 1 else 0 := by
  have happly := matmulRow_oneRow 2 twoWeights.moeGate 0 e
  have hindex : 0 * (2 * 64) + e * 64 = 64 ↔ e = 1 := by omega
  simp only [twoWeights, hindex] at happly
  exact happly

theorem twoExperts_distinct (k : Nat) : ∀ y < 1, ∀ e < (twoExperts k).nExperts,
    ∀ e' < (twoExperts k).nExperts,
      gateLogits (twoExperts k) twoWeights (oneRow y) e
        = gateLogits (twoExperts k) twoWeights (oneRow y) e' → e = e' := by
  intro y hy e he e' he' h
  obtain rfl : y = 0 := by omega
  have he2 : e < 2 := he
  have he2' : e' < 2 := he'
  rw [twoExperts_logits, twoExperts_logits] at h
  split_ifs at h
  · omega
  · exact absurd h one_ne_zero
  · exact absurd h zero_ne_one
  · omega

/-- With both experts active and two threads, one for each block, the row is their mixture. -/
theorem moeForward_iff_two :
    ComputesMixture realLibm (twoExperts 2) twoWeights.moeGate true true 1 2 oneRow :=
  (moeForward_iff realLibm_isExp Real.exp_strictMono (by decide) (by decide) (by decide)
    (by decide) (by decide) (twoExperts_distinct 2) (by decide) (by decide)).2
    (.inr ⟨fun hone => absurd hone (by decide), .inr (.inr ⟨by decide, by decide, by decide⟩)⟩)

/-- The larger gate is not that of expert 0. -/
theorem not_top_zero :
    ¬IsTop (gateProb realLibm (twoExperts 1) twoWeights (oneRow 0)) 2 {0} := by
  intro h
  have hlt := h.2 0 (Finset.mem_singleton_self 0) 1 (by decide) (by decide)
  rw [gateProb, gateProb, twoExperts_logits, twoExperts_logits] at hlt
  have hsum : 0 < ∑ e ∈ Finset.range 2,
      realLibm.expf (gateLogits (twoExperts 1) twoWeights (oneRow 0) e) :=
    Finset.sum_pos (fun _ _ => Real.exp_pos _) ⟨0, Finset.mem_range.2 (by decide)⟩
  have hless := (div_lt_div_iff_of_pos_right hsum).1 hlt
  exact absurd (Real.exp_lt_exp.1 hless) (by norm_num)

/-- With one active expert the row is that of expert 0, zero, and not that of expert 1. -/
theorem moeForward_wrongExpert :
    ¬ComputesMixture realLibm (twoExperts 1) twoWeights.moeGate true true 1 2 oneRow := by
  intro h
  exact not_top_zero (isTop_zero_of_computesMixture realLibm_isExp Real.exp_strictMono
    (by decide) (by decide) (by decide) (by decide) (by decide) (twoExperts_distinct 1)
    (by decide) (by decide) h rfl rfl Nat.one_pos)

end Example

end Kernels.Moe
end PrefillOpt
