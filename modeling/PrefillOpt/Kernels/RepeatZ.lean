import Mathlib.Tactic.Linarith
import PrefillOpt.Core
import PrefillOpt.Lib.BlockSplit
import PrefillOpt.Lib.Interleaving
import PrefillOpt.Lib.Loops

/-!
# Kernels.RepeatZ — the activation copied for every active expert

`nn-cpu-ops.cpp`, `repeatZForward_F32_Q80` and `copy_UNK`; `nn-quants.cpp`, the thread split of
`quantizeF32toQ80`.  Slice 0 is quantised, the threads sharing its blocks; the other slices are
copied from slice 0, the threads sharing its bytes.  There is no barrier between the two.
-/

namespace PrefillOpt
namespace Kernels

open Lib

/-! ## The shares of the threads -/

/-- `SPLIT_THREADS` of a length that need not fit `NnUint`: its variables wrap around. -/
def splitRange (rangeLen nThreads threadIndex : Nat) : Nat × Nat :=
  let (start, stop) := splitThreads rangeLen nThreads threadIndex
  (u32 start, u32 stop)

theorem splitRange_eq (m n t : Nat) :
    splitRange m n t
      = (u32 (blockStart m n t), u32 (blockStart m n t + blockCount m n t)) := by
  rw [splitRange, splitThreads_eq]

/-! ## What a thread does -/

/-- One byte of the output. -/
inductive RepeatStep where
  /-- byte `k` of the quantised row `y` is stored in slice 0 -/
  | quantize (y k : Nat)
  /-- byte `k` of row `y` goes from slice 0 to slice `z` -/
  | copy (z y k : Nat)
  deriving DecidableEq, Repr

/-- The blocks of the thread, the bytes of a block one after the other. -/
def quantizeF32toQ80 (y n nThreads threadIndex : Nat) : List RepeatStep :=
  let nBlocks := n / getBlockSize .q80
  let (start, stop) := splitRange nBlocks nThreads threadIndex
  (List.range' start (stop - start)).flatMap fun i =>
    (List.range 34).map fun j => .quantize y (i * 34 + j)

/-- `memcpy` of the bytes of the thread. -/
def copyUnk (z y size nThreads threadIndex : Nat) : List RepeatStep :=
  let (start, stop) := splitRange size nThreads threadIndex
  let s := u32 (stop + (2 ^ 32 - start))
  (List.range' start s).map fun k => .copy z y k

def repeatZForward (outputZ x batchSize nThreads threadIndex : Nat) : List RepeatStep :=
  let dimSize := getBytes .q80 x
  (List.range outputZ).flatMap fun z =>
    (List.range batchSize).flatMap fun y =>
      if z = 0 then quantizeF32toQ80 y x nThreads threadIndex
      else copyUnk z y dimSize nThreads threadIndex

/-- The threads of the op. -/
def repeatZThreads (outputZ x batchSize nThreads : Nat) (threadIndex : Nat) : List RepeatStep :=
  if threadIndex < nThreads then repeatZForward outputZ x batchSize nThreads threadIndex
  else []

/-! ## The memory -/

/-- Byte `k` of an input row: a byte of the block that the 32 floats of block `k / 34` make. -/
def quantizedByte {F α : Type} (block : (Nat → F) → Nat → α) (input : Nat → Nat → F)
    (y k : Nat) : α :=
  block (fun j => input y (k / 34 * 32 + j)) (k % 34)

/-- A cell is a pointer of `context->output` and a byte behind it; slice `z` of row `y` is pointer
`z * outputSize.y + y`. -/
def RepeatStep.exec {α : Type} (outputY : Nat) (quantized : Nat → Nat → α) (m : Nat × Nat → α) :
    RepeatStep → Nat × Nat → α
  | .quantize y k => Function.update m (y, k) (quantized y k)
  | .copy z y k => Function.update m (z * outputY + y, k) (m (y, k))

/-- A thread copies no byte that it did not quantise itself before. -/
def CopiesOwnBytes (outputZ x batchSize nThreads : Nat) : Prop :=
  ∀ t < nThreads, ∀ before z y k after,
    repeatZForward outputZ x batchSize nThreads t
      = before ++ RepeatStep.copy z y k :: after →
    RepeatStep.quantize y k ∈ before

/-- However the threads are scheduled and whatever was in the output, every slice of every row of
the batch is the quantised row at the end. -/
def SlicesAreRows {α : Type} (outputY outputZ x batchSize nThreads : Nat)
    (quantized : Nat → Nat → α) : Prop :=
  ∀ (m : Nat × Nat → α) (trace : List (Nat × RepeatStep)),
    Interleaves (repeatZThreads outputZ x batchSize nThreads) trace →
    ∀ z < outputZ, ∀ y < batchSize, ∀ k < getBytes .q80 x,
      runTrace (RepeatStep.exec outputY quantized) m trace (z * outputY + y, k) = quantized y k

/-! ## What is in a program -/

section Programs

variable {outputY outputZ x batchSize nThreads threadIndex : Nat}

/-- The bytes of the blocks of a thread. -/
def OwnByte (x nThreads threadIndex k : Nat) : Prop :=
  blockStart (x / 32) nThreads threadIndex ≤ k / 34 ∧
    k / 34 < blockStart (x / 32) nThreads threadIndex + blockCount (x / 32) nThreads threadIndex

/-- The bytes that a thread copies. -/
def CopiedByte (x nThreads threadIndex k : Nat) : Prop :=
  u32 (blockStart (x / 32 * 34) nThreads threadIndex) ≤ k ∧
    k < u32 (blockStart (x / 32 * 34) nThreads threadIndex)
      + u32 (blockCount (x / 32 * 34) nThreads threadIndex)

/-- The instructions on slice 0. -/
def quantizeSteps (x batchSize nThreads threadIndex : Nat) : List RepeatStep :=
  (List.range batchSize).flatMap fun y => quantizeF32toQ80 y x nThreads threadIndex

/-- The instructions on the other slices. -/
def copySteps (outputZ x batchSize nThreads threadIndex : Nat) : List RepeatStep :=
  (List.range' 1 (outputZ - 1)).flatMap fun z =>
    (List.range batchSize).flatMap fun y =>
      copyUnk z y (getBytes .q80 x) nThreads threadIndex

theorem repeatZForward_eq (h : 0 < outputZ) :
    repeatZForward outputZ x batchSize nThreads threadIndex
      = quantizeSteps x batchSize nThreads threadIndex
        ++ copySteps outputZ x batchSize nThreads threadIndex := by
  rcases Nat.exists_eq_add_of_le h with ⟨n, rfl⟩
  have hrange : List.range (Nat.succ 0 + n) = 0 :: List.range' 1 n := by
    rw [Nat.add_comm, List.range_eq_range', List.range'_succ]
  have hcopy : ∀ z ∈ List.range' 1 n, ((List.range batchSize).flatMap fun y =>
      if z = 0 then quantizeF32toQ80 y x nThreads threadIndex
      else copyUnk z y (getBytes .q80 x) nThreads threadIndex)
      = (List.range batchSize).flatMap fun y =>
          copyUnk z y (getBytes .q80 x) nThreads threadIndex := by
    intro z hz
    have hz' : z ≠ 0 := by
      have := List.mem_range'_1.1 hz
      omega
    simp only [if_neg hz']
  rw [repeatZForward, hrange, List.flatMap_cons, List.flatMap_congr hcopy]
  simp [quantizeSteps, copySteps]

theorem copyUnk_eq (z y size : Nat) :
    copyUnk z y size nThreads threadIndex
      = (List.range' (u32 (blockStart size nThreads threadIndex))
          (u32 (blockCount size nThreads threadIndex))).map fun k => .copy z y k := by
  have hcount : u32 (u32 (blockStart size nThreads threadIndex
        + blockCount size nThreads threadIndex)
      + (2 ^ 32 - u32 (blockStart size nThreads threadIndex)))
      = u32 (blockCount size nThreads threadIndex) := by
    simp only [u32]
    omega
  simp only [copyUnk, splitRange_eq size nThreads threadIndex, hcount]

theorem mem_copySteps {i : RepeatStep} :
    i ∈ copySteps outputZ x batchSize nThreads threadIndex
      ↔ ∃ z y k, 0 < z ∧ z < outputZ ∧ y < batchSize ∧ CopiedByte x nThreads threadIndex k ∧
        i = .copy z y k := by
  simp only [copySteps, copyUnk_eq, List.mem_flatMap, List.mem_range'_1, List.mem_range,
    List.mem_map, CopiedByte, getBytes]
  constructor
  · rintro ⟨z, hz, y, hy, k, hk, rfl⟩
    exact ⟨z, y, k, by omega, by omega, hy, hk, rfl⟩
  · rintro ⟨z, y, k, hpos, hz, hy, hk, rfl⟩
    exact ⟨z, by omega, y, hy, k, hk, rfl⟩

variable (ht : threadIndex < nThreads) (hx : x < 2 ^ 32)
include ht hx

theorem mem_quantizeF32toQ80 {y : Nat} {i : RepeatStep} :
    i ∈ quantizeF32toQ80 y x nThreads threadIndex
      ↔ ∃ k, OwnByte x nThreads threadIndex k ∧ i = .quantize y k := by
  have hend := blockStart_add_blockCount_le (m := x / 32) ht
  have hsplit := splitRange_eq (x / 32) nThreads threadIndex
  rw [u32_of_lt (show blockStart (x / 32) nThreads threadIndex < 2 ^ 32 by omega),
    u32_of_lt (show blockStart (x / 32) nThreads threadIndex
      + blockCount (x / 32) nThreads threadIndex < 2 ^ 32 by omega)] at hsplit
  simp only [quantizeF32toQ80, getBlockSize, hsplit, List.mem_flatMap, List.mem_map,
    List.mem_range'_1, List.mem_range, OwnByte]
  constructor
  · rintro ⟨b, hb, j, hj, rfl⟩
    have hdiv : (b * 34 + j) / 34 = b := by omega
    refine ⟨b * 34 + j, ?_, rfl⟩
    rw [hdiv]
    omega
  · rintro ⟨k, hk, rfl⟩
    refine ⟨k / 34, by omega, k % 34, by omega, ?_⟩
    rw [Nat.mul_comm, Nat.div_add_mod]

theorem mem_quantizeSteps {i : RepeatStep} :
    i ∈ quantizeSteps x batchSize nThreads threadIndex
      ↔ ∃ y k, y < batchSize ∧ OwnByte x nThreads threadIndex k ∧ i = .quantize y k := by
  simp only [quantizeSteps, List.mem_flatMap, List.mem_range,
    mem_quantizeF32toQ80 ht hx]
  constructor
  · rintro ⟨y, hy, k, hk, rfl⟩
    exact ⟨y, k, hy, hk, rfl⟩
  · rintro ⟨y, k, hy, hk, rfl⟩
    exact ⟨y, hy, k, hk, rfl⟩

theorem mem_repeatZForward (hz : 0 < outputZ) {i : RepeatStep} :
    i ∈ repeatZForward outputZ x batchSize nThreads threadIndex
      ↔ (∃ y k, y < batchSize ∧ OwnByte x nThreads threadIndex k ∧ i = .quantize y k) ∨
        ∃ z y k, 0 < z ∧ z < outputZ ∧ y < batchSize ∧ CopiedByte x nThreads threadIndex k ∧
          i = .copy z y k := by
  rw [repeatZForward_eq hz, List.mem_append, mem_quantizeSteps ht hx,
    mem_copySteps]

end Programs

/-! ## Slice 0 -/

section Runs

variable {α : Type} {outputY outputZ x batchSize nThreads : Nat} {quantized : Nat → Nat → α}
  {m : Nat × Nat → α} {trace : List (Nat × RepeatStep)}

variable (hn : 0 < nThreads) (hn' : nThreads < 2 ^ 32) (hx : x < 2 ^ 32)
  (hbatch : batchSize ≤ outputY) (hz : 0 < outputZ)
include hn hn' hx hz

omit hn hn' in
/-- The instructions of a trace and whose they are. -/
theorem mem_trace (htr : Interleaves (repeatZThreads outputZ x batchSize nThreads) trace) {t : Nat}
    {i : RepeatStep} :
    (t, i) ∈ trace ↔ t < nThreads ∧
      ((∃ y k, y < batchSize ∧ OwnByte x nThreads t k ∧ i = .quantize y k) ∨
        ∃ z y k, 0 < z ∧ z < outputZ ∧ y < batchSize ∧ CopiedByte x nThreads t k ∧
          i = .copy z y k) := by
  rw [htr.mem_prog, repeatZThreads]
  by_cases ht : t < nThreads
  · rw [if_pos ht, mem_repeatZForward ht hx hz]
    simp only [ht, true_and]
  · simp [ht]

include hbatch

omit hn' in
theorem quantized_of_trace
    (htr : Interleaves (repeatZThreads outputZ x batchSize nThreads) trace) {y k : Nat}
    (hy : y < batchSize) (hk : k < x / 32 * 34) :
    runTrace (RepeatStep.exec outputY quantized) m trace (y, k) = quantized y k := by
  rcases exists_block (m := x / 32) (b := k / 34) hn (by omega) with ⟨t, ht, hown⟩
  have hmine : (t, RepeatStep.quantize y k) ∈ trace :=
    (mem_trace hx hz htr).2 ⟨ht, .inl ⟨y, k, hy, hown, rfl⟩⟩
  refine foldl_establishes (Q := fun m : Nat × Nat → α => m (y, k) = quantized y k)
    (A := fun e => e.2 = RepeatStep.quantize y k) ⟨_, hmine, rfl⟩ (fun e _ he m => ?_)
    (fun e he hne m hm => ?_) m
  · rw [he]
    exact Function.update_self ..
  · rcases e with ⟨u, i⟩
    rcases ((mem_trace hx hz htr).1 he).2 with ⟨y', k', -, -, rfl⟩ | hcopy
    · have hcell : (y, k) ≠ (y', k') := by
        rintro ⟨⟩
        exact hne rfl
      exact (Function.update_of_ne hcell ..).trans hm
    · rcases hcopy with ⟨z, y', k', hpos, -, hy', -, rfl⟩
      have hrow : outputY ≤ z * outputY := Nat.le_mul_of_pos_left outputY hpos
      have hcell : (y, k) ≠ (z * outputY + y', k') := by
        rw [Ne, Prod.mk.injEq]
        omega
      exact (Function.update_of_ne hcell ..).trans hm

end Runs

/-! ## Even shares -/

/-- Every thread has as many blocks as the others, and neither where its bytes start nor how many
they are wraps around. -/
def EvenShares (x nThreads : Nat) : Prop :=
  nThreads ∣ x / 32 ∧ (x / 32 - x / 32 / nThreads) * 34 < 2 ^ 32 ∧ x / 32 / nThreads * 34 < 2 ^ 32

theorem blockStart_of_dvd (n q t : Nat) (hn : 0 < n) : blockStart (n * q) n t = t * q := by
  simp [blockStart, Nat.mul_div_cancel_left q hn]

theorem blockCount_of_dvd (n q t : Nat) (hn : 0 < n) : blockCount (n * q) n t = q := by
  simp [blockCount, Nat.mul_div_cancel_left q hn]

theorem EvenShares.copied_iff {x nThreads t : Nat} (h : EvenShares x nThreads) (ht : t < nThreads)
    (k : Nat) : CopiedByte x nThreads t k ↔ OwnByte x nThreads t k := by
  rcases h with ⟨⟨q, hq⟩, hstart, hcount⟩
  have hn : 0 < nThreads := by omega
  rw [hq, Nat.mul_div_cancel_left q hn] at hstart hcount
  have hbytes : nThreads * q * 34 = nThreads * (q * 34) := Nat.mul_assoc ..
  have hlast : t * (q * 34) ≤ (nThreads * q - q) * 34 := by
    have hle : t * q ≤ (nThreads - 1) * q := Nat.mul_le_mul_right q (by omega)
    rw [Nat.sub_mul, Nat.one_mul] at hle
    calc t * (q * 34) = t * q * 34 := (Nat.mul_assoc ..).symm
      _ ≤ (nThreads * q - q) * 34 := Nat.mul_le_mul_right 34 hle
  rw [CopiedByte, OwnByte, hq, hbytes, blockStart_of_dvd _ _ _ hn, blockCount_of_dvd _ _ _ hn,
    blockStart_of_dvd _ _ _ hn, blockCount_of_dvd _ _ _ hn, u32_of_lt (by omega),
    u32_of_lt hcount, ← Nat.mul_assoc]
  omega

/-! ## A thread that copies what is its own -/

section OwnCopies

variable {α : Type} {outputY outputZ x batchSize nThreads : Nat} {quantized : Nat → Nat → α}

/-- The cells of the bytes of a thread, in every row of every slice. -/
def ownCells (x nThreads threadIndex : Nat) : Set (Nat × Nat) :=
  {c | OwnByte x nThreads threadIndex c.2}

theorem eqOn_update {S : Set (Nat × Nat)} {m m' : Nat × Nat → α} {c : Nat × Nat} {v v' : α}
    (h : Set.EqOn m m' S) (hv : v = v') :
    Set.EqOn (Function.update m c v) (Function.update m' c v') S := by
  intro a ha
  by_cases hc : a = c
  · rw [hc, Function.update_self, Function.update_self, hv]
  · rw [Function.update_of_ne hc, Function.update_of_ne hc, h ha]

theorem foldl_quantizeSteps {t : Nat} (hx : x < 2 ^ 32) (ht : t < nThreads)
    (m : Nat × Nat → α) {y k : Nat} (hy : y < batchSize) (hk : OwnByte x nThreads t k) :
    (quantizeSteps x batchSize nThreads t).foldl (RepeatStep.exec outputY quantized) m (y, k)
      = quantized y k := by
  refine foldl_establishes (Q := fun m : Nat × Nat → α => m (y, k) = quantized y k)
    (A := fun i => i = RepeatStep.quantize y k)
    ⟨_, (mem_quantizeSteps ht hx).2 ⟨y, k, hy, hk, rfl⟩, rfl⟩ (fun i _ hi m => ?_)
    (fun i hi hne m hm => ?_) m
  · rw [hi]
    exact Function.update_self ..
  · rcases (mem_quantizeSteps ht hx).1 hi with ⟨y', k', -, -, rfl⟩
    have hcell : (y, k) ≠ (y', k') := by
      rintro ⟨⟩
      exact hne rfl
    exact (Function.update_of_ne hcell ..).trans hm

/-- Copying leaves slice 0 alone. -/
theorem exec_copy_zero {t y k : Nat} {i : RepeatStep} (hy : y < outputY)
    (hi : i ∈ copySteps outputZ x batchSize nThreads t) (m : Nat × Nat → α) :
    RepeatStep.exec outputY quantized m i (y, k) = m (y, k) := by
  rcases (mem_copySteps).1 hi with ⟨z', y', k', hpos, -, -, -, rfl⟩
  have hrow : outputY ≤ z' * outputY := Nat.le_mul_of_pos_left outputY hpos
  have hcell : (y, k) ≠ (z' * outputY + y', k') := by
    rw [Ne, Prod.mk.injEq]
    omega
  exact Function.update_of_ne hcell ..

theorem foldl_copySteps_zero {t y k : Nat} (hy : y < outputY) (m : Nat × Nat → α) :
    (copySteps outputZ x batchSize nThreads t).foldl (RepeatStep.exec outputY quantized) m (y, k)
      = m (y, k) := by
  refine foldl_keeps (P := fun m' : Nat × Nat → α => m' (y, k) = m (y, k))
    (fun i hi m' hm => ?_) rfl
  exact (exec_copy_zero hy hi m').trans hm

theorem foldl_copySteps {t z y k : Nat} (hbatch : batchSize ≤ outputY) (hpos : 0 < z)
    (hz : z < outputZ) (hy : y < batchSize) (hk : CopiedByte x nThreads t k)
    (m : Nat × Nat → α) :
    (copySteps outputZ x batchSize nThreads t).foldl (RepeatStep.exec outputY quantized) m
        (z * outputY + y, k)
      = m (y, k) := by
  have hy' : y < outputY := by omega
  rw [← foldl_copySteps_zero hy' m (t := t) (k := k)]
  refine foldl_establishes
    (Q := fun m : Nat × Nat → α => m (z * outputY + y, k) = m (y, k))
    (A := fun i => i = RepeatStep.copy z y k)
    ⟨_, (mem_copySteps).2 ⟨z, y, k, hpos, hz, hy, hk, rfl⟩, rfl⟩ (fun i hi hmine m => ?_)
    (fun i hi hne m hm => ?_) m
  · rw [exec_copy_zero hy' hi m, hmine]
    exact Function.update_self ..
  · rw [exec_copy_zero hy' hi m, ← hm]
    rcases (mem_copySteps).1 hi with ⟨z', y', k', -, -, hlt, -, rfl⟩
    have hcell : (z * outputY + y, k) ≠ (z' * outputY + y', k') := by
      intro heq
      rcases add_mul_inj hy' (show y' < outputY by omega) (congrArg Prod.fst heq)
        with ⟨rfl, rfl⟩
      exact hne (congrArg (RepeatStep.copy z y) (congrArg Prod.snd heq).symm)
    exact Function.update_of_ne hcell ..

variable (hx : x < 2 ^ 32) (hbatch : batchSize ≤ outputY)
include hx

/-- The copies of a thread come after everything that it quantises. -/
theorem copy_after_quantize {t : Nat} (ht : t < nThreads)
    (hcopied : ∀ k, CopiedByte x nThreads t k → OwnByte x nThreads t k)
    {before after : List RepeatStep} {z y k : Nat}
    (h : repeatZForward outputZ x batchSize nThreads t
      = before ++ RepeatStep.copy z y k :: after) :
    RepeatStep.quantize y k ∈ before := by
  have hz : 0 < outputZ := by
    apply Nat.pos_of_ne_zero
    rintro rfl
    simp [repeatZForward] at h
  have hcopy : RepeatStep.copy z y k ∉ quantizeSteps x batchSize nThreads t := by
    intro hmem
    rcases (mem_quantizeSteps ht hx).1 hmem with ⟨y', k', -, -, heq⟩
    cases heq
  have hmem : RepeatStep.copy z y k ∈ repeatZForward outputZ x batchSize nThreads t := by
    rw [h]
    simp
  have hquant : RepeatStep.quantize y k ∈ quantizeSteps x batchSize nThreads t := by
    rcases (mem_repeatZForward ht hx hz).1 hmem with ⟨y', k', -, -, heq⟩ | hc
    · cases heq
    · rcases hc with ⟨z', y', k', -, -, hy, hk, heq⟩
      cases heq
      exact (mem_quantizeSteps ht hx).2 ⟨y, k, hy, hcopied k hk, rfl⟩
  rw [repeatZForward_eq hz] at h
  rcases List.append_eq_append_iff.1 h with ⟨more, hbefore, -⟩ | ⟨more, hbefore, hrest⟩
  · rw [hbefore]
    exact List.mem_append_left more hquant
  · cases more with
    | nil =>
        rw [List.append_nil] at hbefore
        rwa [← hbefore]
    | cons i more =>
        cases hrest
        exact absurd (hbefore ▸ List.mem_append_right before List.mem_cons_self) hcopy

/-- No thread writes the bytes of another. -/
theorem exec_other {t u : Nat} (hu : u < nThreads) (hne : u ≠ t)
    (hz : 0 < outputZ) (hcopied : ∀ k, CopiedByte x nThreads u k ↔ OwnByte x nThreads u k)
    {i : RepeatStep} (hi : i ∈ repeatZForward outputZ x batchSize nThreads u)
    (m : Nat × Nat → α) :
    Set.EqOn (RepeatStep.exec outputY quantized m i) m (ownCells x nThreads t) := by
  have hdisjoint : ∀ k, OwnByte x nThreads u k → ¬OwnByte x nThreads t k := fun k hk hk' =>
    hne (block_unique hk.1 hk.2 hk'.1 hk'.2)
  intro c hc
  rcases (mem_repeatZForward hu hx hz).1 hi with ⟨y, k, -, hk, rfl⟩ | hcopy
  · have hcell : c ≠ (y, k) := by
      rintro rfl
      exact hdisjoint k hk hc
    exact Function.update_of_ne hcell ..
  · rcases hcopy with ⟨z, y, k, -, -, -, hk, rfl⟩
    have hcell : c ≠ (z * outputY + y, k) := by
      rintro rfl
      exact hdisjoint k ((hcopied k).1 hk) hc
    exact Function.update_of_ne hcell ..

/-- A thread reads and writes its own bytes only. -/
theorem exec_own {t : Nat} (ht : t < nThreads) (hz : 0 < outputZ)
    (hcopied : ∀ k, CopiedByte x nThreads t k ↔ OwnByte x nThreads t k)
    {i : RepeatStep} (hi : i ∈ repeatZForward outputZ x batchSize nThreads t)
    {m m' : Nat × Nat → α} (h : Set.EqOn m m' (ownCells x nThreads t)) :
    Set.EqOn (RepeatStep.exec outputY quantized m i) (RepeatStep.exec outputY quantized m' i)
      (ownCells x nThreads t) := by
  rcases (mem_repeatZForward ht hx hz).1 hi with ⟨y, k, -, -, rfl⟩ | hcopy
  · exact eqOn_update h rfl
  · rcases hcopy with ⟨z, y, k, -, -, -, hk, rfl⟩
    exact eqOn_update h (h (show (y, k) ∈ ownCells x nThreads t from (hcopied k).1 hk))

include hbatch

/-- The thread alone: its bytes of the other slices. -/
theorem foldl_own {t : Nat} (ht : t < nThreads)
    (hcopied : ∀ k, CopiedByte x nThreads t k ↔ OwnByte x nThreads t k) (m : Nat × Nat → α)
    {z y k : Nat} (hpos : 0 < z) (hz : z < outputZ) (hy : y < batchSize)
    (hk : OwnByte x nThreads t k) :
    (repeatZForward outputZ x batchSize nThreads t).foldl (RepeatStep.exec outputY quantized) m
      (z * outputY + y, k) = quantized y k := by
  rw [repeatZForward_eq (show 0 < outputZ by omega), List.foldl_append,
    foldl_copySteps hbatch hpos hz hy ((hcopied k).2 hk),
    foldl_quantizeSteps hx ht m hy hk]

theorem slicesAreRows_of_evenShares (hn : 0 < nThreads) (h : EvenShares x nThreads) :
    SlicesAreRows outputY outputZ x batchSize nThreads quantized := by
  intro m trace htr z hz y hy k hk
  have hpos : 0 < outputZ := by omega
  rcases Nat.eq_zero_or_pos z with rfl | hz'
  · rw [Nat.zero_mul, Nat.zero_add]
    exact quantized_of_trace hn hx hbatch hpos htr hy hk
  · have hbytes : k < x / 32 * 34 := hk
    rcases exists_block (m := x / 32) (b := k / 34) hn (by omega) with ⟨t, ht, hown⟩
    have hprog : ∀ u, u < nThreads → repeatZThreads outputZ x batchSize nThreads u
        = repeatZForward outputZ x batchSize nThreads u := fun u hu => if_pos hu
    have hlocal := runTrace_eqOn (RepeatStep.exec outputY quantized) (S := ownCells x nThreads t)
      (fun i hi m m' hm => exec_own hx ht hpos (h.copied_iff ht)
        (hprog t ht ▸ htr.mem_prog.1 hi) hm)
      (fun u i hi hne m => by
        have hu : u < nThreads := ((mem_trace hx hpos htr).1 hi).1
        exact exec_other hx hu hne hpos (h.copied_iff hu)
          (hprog u hu ▸ htr.mem_prog.1 hi) m)
      (Set.eqOn_refl m _)
    rw [hlocal (show (z * outputY + y, k) ∈ ownCells x nThreads t from hown), htr t, hprog t ht]
    exact foldl_own hx hbatch ht (h.copied_iff ht) m hz' hz hy hown

end OwnCopies

/-! ## Uneven shares -/

section Shares

variable {m n t : Nat}

/-- The last share ends at the end of the range and is one of the small ones. -/
theorem blockStart_last (m : Nat) (hn : 0 < n) : blockStart m n (n - 1) = m - m / n := by
  have hsucc := blockStart_succ m n (n - 1)
  have hmod := Nat.mod_lt m hn
  rw [Nat.sub_add_cancel hn, blockStart_self hn, blockCount, if_neg (by omega)] at hsucc
  omega

theorem blockStart_one (m n : Nat) : blockStart m n 1 = m / n + min 1 (m % n) := by
  rw [blockStart, Nat.one_mul]

/-- When the blocks are not shared evenly, a share of the bytes has a byte of somebody else's
block. -/
theorem exists_foreign_byte (hn : 0 < n) (h : ¬n ∣ m) :
    ∃ t < n, ∃ k, (blockStart (m * 34) n t ≤ k ∧
        k < blockStart (m * 34) n t + blockCount (m * 34) n t) ∧
      ¬(blockStart m n t ≤ k / 34 ∧ k / 34 < blockStart m n t + blockCount m n t) := by
  have hrest : 0 < m % n := Nat.emod_pos_of_not_dvd h
  have hlt := Nat.mod_lt m hn
  have hlt' := Nat.mod_lt (m * 34) hn
  have hle := Nat.div_le_self m n
  have hle' := Nat.div_le_self (m * 34) n
  have hsplit := Nat.div_add_mod (m * 34) n
  have hmpos : 0 < m := by
    apply Nat.pos_of_ne_zero
    rintro rfl
    simp at hrest
  have hone := blockStart_one m n
  have hone' := blockStart_one (m * 34) n
  have hlast := blockStart_last m hn
  have hlast' := blockStart_last (m * 34) hn
  have hcount : 0 < blockCount (m * 34) n 1 := by
    rw [blockCount]
    rcases Nat.eq_zero_or_pos (m * 34 / n) with hzero | hpos
    · rw [hzero, Nat.mul_zero] at hsplit
      rw [if_pos (by omega)]
      omega
    · omega
  have hcount' : blockCount (m * 34) n (n - 1) = m * 34 / n := by
    rw [blockCount, if_neg (by omega), Nat.add_zero]
  generalize m * 34 / n = Q at *
  generalize m / n = q at *
  -- either the bytes of thread 1 start before its blocks, or those of the last thread do
  by_cases hcase : blockStart (m * 34) n 1 < (q + 1) * 34
  · refine ⟨1, by omega, blockStart (m * 34) n 1, by omega, ?_⟩
    omega
  · refine ⟨n - 1, by omega, m * 34 - Q, by omega, ?_⟩
    omega

/-- No share starts behind the range of `NnUint` or has more bytes than it. -/
def NoWrap (m n : Nat) : Prop :=
  ∀ t < n, blockStart m n t < 2 ^ 32 ∧ blockCount m n t < 2 ^ 32

theorem evenShares_of_noWrap {x : Nat} (hn : 0 < n) (h : n ∣ x / 32)
    (hwrap : NoWrap (x / 32 * 34) n) : EvenShares x n := by
  rcases hwrap (n - 1) (by omega) with ⟨hstart, hcount⟩
  rcases h with ⟨q, hq⟩
  have hbytes : n * q * 34 = n * (q * 34) := Nat.mul_assoc ..
  rw [hq, hbytes, blockStart_last _ hn, Nat.mul_div_cancel_left _ hn, ← hbytes] at hstart
  rw [hq, hbytes, blockCount_of_dvd _ _ _ hn] at hcount
  refine ⟨⟨q, hq⟩, ?_, ?_⟩
  · rw [hq, Nat.mul_div_cancel_left q hn, Nat.sub_mul]
    exact hstart
  · rw [hq, Nat.mul_div_cancel_left q hn]
    exact hcount

/-- When a share wraps around, nobody copies the last byte. -/
theorem last_byte_not_copied {x : Nat} (hn : 0 < n) (hn' : n < 2 ^ 32) (hx : x < 2 ^ 32)
    (h : ¬NoWrap (x / 32 * 34) n) (ht : t < n) : ¬CopiedByte x n t (x / 32 * 34 - 1) := by
  have hsize : x / 32 * 34 < 2 ^ 27 * 34 := by omega
  rw [CopiedByte]
  generalize x / 32 * 34 = m at *
  rcases not_forall₂.1 h with ⟨u, hu, hwrap⟩
  have hend := blockStart_add_blockCount_le (m := m) ht
  have hendu := blockStart_add_blockCount_le (m := m) hu
  have hbig : 2 ^ 32 ≤ m := by omega
  have hpos : 0 < m / n := Nat.div_pos (by omega) hn
  have hcountu : 0 < blockCount m n u := Nat.lt_of_lt_of_le hpos (Nat.le_add_right ..)
  rcases Nat.lt_or_ge (blockStart m n t) (2 ^ 32) with hsmall | hlarge
  · rw [u32_of_lt hsmall]
    rcases Nat.lt_or_ge (blockCount m n t) (2 ^ 32) with hfits | hmany
    · rw [u32_of_lt hfits]
      have hstart : 2 ^ 32 ≤ blockStart m n u := by
        -- two threads or more have less than half of the bytes each
        by_contra hno
        rcases Nat.lt_or_ge n 2 with hone | htwo
        · obtain rfl : t = u := by omega
          omega
        · have hhalf : m / n ≤ m / 2 := Nat.div_le_div_left htwo (by omega)
          have hle : blockCount m n u ≤ m / n + 1 := by
            rw [blockCount]
            split <;> omega
          omega
      have hafter : t + 1 ≤ u := by
        by_contra hno
        have := blockStart_mono m n (show u ≤ t by omega)
        omega
      have hmono := blockStart_mono m n hafter
      rw [blockStart_succ] at hmono
      omega
    · have hcount : u32 (blockCount m n t) = blockCount m n t - 2 ^ 32 := by
        rw [u32]
        omega
      omega
  · have hstart : u32 (blockStart m n t) = blockStart m n t - 2 ^ 32 := by
      rw [u32]
      omega
    have hcount : u32 (blockCount m n t) ≤ blockCount m n t := Nat.mod_le ..
    omega

end Shares

/-! ## Stale bytes -/

section Stale

variable {α : Type} {outputY outputZ x batchSize nThreads : Nat} {quantized : Nat → Nat → α}

/-- A schedule under which byte `k` of the first row of slice 1 ends as it was, if all of the
output was the same. -/
def StaleByte (outputY outputZ x batchSize nThreads : Nat) : Prop :=
  ∃ k < x / 32 * 34, ∃ trace, Interleaves (repeatZThreads outputZ x batchSize nThreads) trace ∧
    ∀ (α : Type) (quantized : Nat → Nat → α) (c : α),
      runTrace (RepeatStep.exec outputY quantized) (fun _ => c) trace (outputY, k) = c

theorem interleaves_order (outputZ x batchSize : Nat) {order : List Nat} (hnd : order.Nodup)
    (hall : ∀ t < nThreads, t ∈ order) :
    Interleaves (repeatZThreads outputZ x batchSize nThreads)
      (sequential order (repeatZThreads outputZ x batchSize nThreads)) := by
  refine interleaves_sequential hnd fun t ht => ?_
  exact if_neg fun hlt => ht (hall t hlt)

variable (hx : x < 2 ^ 32)
  (hbatch : batchSize ≤ outputY) (hz : 1 < outputZ) (hpos : 0 < batchSize)
include hx hbatch

/-- Byte `k` of the first row of slice 1 is written by those only who copy byte `k`. -/
theorem exec_slice_one {t k : Nat} (ht : t < nThreads) (hz : 0 < outputZ)
    (hk : ¬CopiedByte x nThreads t k) {i : RepeatStep}
    (hi : i ∈ repeatZForward outputZ x batchSize nThreads t) (m : Nat × Nat → α) :
    RepeatStep.exec outputY quantized m i (outputY, k) = m (outputY, k) := by
  rcases (mem_repeatZForward ht hx hz).1 hi with ⟨y, k', hy, -, rfl⟩ | hcopy
  · have hcell : (outputY, k) ≠ (y, k') := by
      rw [Ne, Prod.mk.injEq]
      omega
    exact Function.update_of_ne hcell ..
  · rcases hcopy with ⟨z, y, k', -, -, -, hk', rfl⟩
    have hcell : (outputY, k) ≠ (z * outputY + y, k') := by
      intro heq
      have hsame : k = k' := congrArg Prod.snd heq
      exact hk (hsame ▸ hk')
    exact Function.update_of_ne hcell ..

/-- Where the first row of slice 0 is stale, a thread that does not quantise it leaves it and
slice 1 stale. -/
theorem exec_stale {t k : Nat} (ht : t < nThreads) (hz : 0 < outputZ)
    (hforeign : ¬OwnByte x nThreads t k) {i : RepeatStep}
    (hi : i ∈ repeatZForward outputZ x batchSize nThreads t) {m : Nat × Nat → α} {c : α}
    (hm : m (0, k) = c ∧ m (outputY, k) = c) :
    RepeatStep.exec outputY quantized m i (0, k) = c ∧
      RepeatStep.exec outputY quantized m i (outputY, k) = c := by
  rcases (mem_repeatZForward ht hx hz).1 hi with ⟨y, k', hy, hk', rfl⟩ | hcopy
  · have hcell : (0, k) ≠ (y, k') := by
      rintro ⟨⟩
      exact hforeign hk'
    have hcell' : (outputY, k) ≠ (y, k') := by
      rw [Ne, Prod.mk.injEq]
      omega
    exact ⟨(Function.update_of_ne hcell ..).trans hm.1,
      (Function.update_of_ne hcell' ..).trans hm.2⟩
  · rcases hcopy with ⟨z, y, k', hzpos, -, hy, -, rfl⟩
    have hrow : outputY ≤ z * outputY := Nat.le_mul_of_pos_left outputY hzpos
    have hcell : (0, k) ≠ (z * outputY + y, k') := by
      rw [Ne, Prod.mk.injEq]
      omega
    refine ⟨(Function.update_of_ne hcell ..).trans hm.1, ?_⟩
    by_cases heq : (outputY, k) = (z * outputY + y, k')
    · have hrows : 1 * outputY + 0 = z * outputY + y := by
        rw [Nat.one_mul, Nat.add_zero]
        exact congrArg Prod.fst heq
      rcases add_mul_inj (by omega) (by omega) hrows with ⟨rfl, rfl⟩
      have hk : k = k' := congrArg Prod.snd heq
      rw [heq]
      refine (Function.update_self ..).trans ?_
      rw [← hk]
      exact hm.1
    · exact (Function.update_of_ne heq ..).trans hm.2

include hz

/-- A byte that nobody copies stays as it was. -/
theorem exists_stale_of_not_copied {k : Nat} (hk : k < x / 32 * 34)
    (hnone : ∀ t < nThreads, ¬CopiedByte x nThreads t k) :
    StaleByte outputY outputZ x batchSize nThreads := by
  have htr := interleaves_order outputZ x batchSize (List.nodup_range (n := nThreads))
    fun t ht => List.mem_range.2 ht
  refine ⟨k, hk, _, htr, fun α quantized c => ?_⟩
  rw [runTrace_frame]
  intro t i hi m
  rcases (mem_trace hx (show 0 < outputZ by omega) htr).1 hi with ⟨ht, -⟩
  have hprog := htr.mem_prog.1 hi
  rw [repeatZThreads, if_pos ht] at hprog
  exact exec_slice_one hx hbatch ht (by omega) (hnone t ht) hprog m

/-- A thread that runs first copies what somebody else has not yet quantised. -/
theorem exists_stale_of_foreign {t k : Nat} (ht : t < nThreads) (hk : k < x / 32 * 34)
    (hforeign : ¬OwnByte x nThreads t k)
    (hothers : ∀ u < nThreads, u ≠ t → ¬CopiedByte x nThreads u k) :
    StaleByte outputY outputZ x batchSize nThreads := by
  have hz' : 0 < outputZ := by omega
  have hnd : (List.range nThreads).Nodup := List.nodup_range
  have hrest : ((List.range nThreads).erase t).Nodup := hnd.erase t
  have htr := interleaves_order outputZ x batchSize
    (List.nodup_cons.2 ⟨hnd.not_mem_erase, hrest⟩) fun u hu => by
      by_cases hut : u = t
      · exact hut ▸ List.mem_cons_self
      · exact List.mem_cons_of_mem t ((List.mem_erase_of_ne hut).2 (List.mem_range.2 hu))
  refine ⟨k, hk, _, htr, fun α quantized c => ?_⟩
  -- after the turn of `t`
  have hfirst : (repeatZForward outputZ x batchSize nThreads t).foldl
      (RepeatStep.exec outputY quantized) (fun _ => c) (outputY, k) = c :=
    (foldl_keeps (P := fun m : Nat × Nat → α => m (0, k) = c ∧ m (outputY, k) = c)
      (fun i hi m hm => exec_stale hx hbatch ht hz' hforeign hi hm) ⟨rfl, rfl⟩).2
  rw [sequential_cons, runTrace_append, runTrace_map, repeatZThreads, if_pos ht, runTrace_frame,
    hfirst]
  intro u i hi m
  rcases mem_sequential.1 hi with ⟨horder, hprog⟩
  have hne : u ≠ t := by
    rintro rfl
    exact hnd.not_mem_erase horder
  have hu : u < nThreads := List.mem_range.1 (List.mem_of_mem_erase horder)
  rw [repeatZThreads, if_pos hu] at hprog
  exact exec_slice_one hx hbatch hu hz' (hothers u hu hne) hprog m

/-- Without even shares some schedule leaves a byte stale. -/
theorem exists_stale (hn : 0 < nThreads) (hn' : nThreads < 2 ^ 32)
    (heven : ¬EvenShares x nThreads) : StaleByte outputY outputZ x batchSize nThreads := by
  by_cases hwrap : NoWrap (x / 32 * 34) nThreads
  · have hdvd : ¬nThreads ∣ x / 32 := fun hdvd => heven (evenShares_of_noWrap hn hdvd hwrap)
    have hplain : ∀ u < nThreads, ∀ k, CopiedByte x nThreads u k →
        blockStart (x / 32 * 34) nThreads u ≤ k ∧
          k < blockStart (x / 32 * 34) nThreads u + blockCount (x / 32 * 34) nThreads u := by
      intro u hu k hk
      rw [CopiedByte, u32_of_lt (hwrap u hu).1, u32_of_lt (hwrap u hu).2] at hk
      exact hk
    rcases exists_foreign_byte hn hdvd with ⟨t, ht, k, hk, hforeign⟩
    have hend := blockStart_add_blockCount_le (m := x / 32 * 34) ht
    refine exists_stale_of_foreign hx hbatch hz ht (by omega) hforeign
      fun u hu hne hcopied => ?_
    have hk' := hplain u hu k hcopied
    exact hne (block_unique hk'.1 hk'.2 hk.1 hk.2)
  · have hbytes : 0 < x / 32 * 34 := by
      apply Nat.pos_of_ne_zero
      intro hzero
      refine hwrap fun t _ => ?_
      simp [hzero, blockStart, blockCount]
    exact exists_stale_of_not_copied hx hbatch hz (by omega)
      fun t ht => last_byte_not_copied hn hn' hx hwrap ht

include hpos in
/-- The right result under every schedule needs even shares. -/
theorem evenShares_of_slicesAreRows [Nontrivial α] (hn : 0 < nThreads) (hn' : nThreads < 2 ^ 32)
    (h : SlicesAreRows outputY outputZ x batchSize nThreads quantized) : EvenShares x nThreads := by
  by_contra heven
  rcases exists_stale hx hbatch hz hn hn' heven with ⟨k, hk, trace, htr, hstale⟩
  rcases exists_ne (quantized 0 k) with ⟨c, hc⟩
  have hrow := h (fun _ => c) trace htr 1 hz 0 hpos k hk
  rw [Nat.one_mul, Nat.add_zero, hstale α quantized c] at hrow
  exact hc hrow

end Stale

/-! ## Thread scheduling -/

theorem copiesOwnBytes_of_evenShares {outputZ x batchSize nThreads : Nat} (hx : x < 2 ^ 32)
    (h : outputZ ≤ 1 ∨ batchSize = 0 ∨ EvenShares x nThreads) :
    CopiesOwnBytes outputZ x batchSize nThreads := by
  intro t ht before z y k after hprog
  have hmem : RepeatStep.copy z y k ∈ repeatZForward outputZ x batchSize nThreads t := by
    rw [hprog]
    simp
  have hz : 0 < outputZ := by
    apply Nat.pos_of_ne_zero
    rintro rfl
    simp [repeatZForward] at hmem
  rcases (mem_repeatZForward ht hx hz).1 hmem with ⟨y', k', -, -, heq⟩ | hcopy
  · cases heq
  · rcases hcopy with ⟨z', y', k', hz', hlt, hy, -, heq⟩
    cases heq
    rcases h with hone | hnone | heven
    · omega
    · omega
    · exact copy_after_quantize hx ht (fun k' => (heven.copied_iff ht k').1) hprog

/-- The copies of the activation do not depend on the scheduling of the threads exactly when there
is nothing to copy or the threads have the same number of blocks. -/
theorem repeatZ_schedule_iff {F : Type} (block : (Nat → F) → Nat → UInt8) (input : Nat → Nat → F)
    {outputY outputZ x batchSize nThreads : Nat} (hn : 0 < nThreads) (hn' : nThreads < 2 ^ 32)
    (hx : x < 2 ^ 32) (hbatch : batchSize ≤ outputY) :
    (CopiesOwnBytes outputZ x batchSize nThreads ∧
        SlicesAreRows outputY outputZ x batchSize nThreads (quantizedByte block input))
      ↔ outputZ ≤ 1 ∨ batchSize = 0 ∨ EvenShares x nThreads := by
  constructor
  · rintro ⟨-, h⟩
    rcases Nat.lt_or_ge 1 outputZ with hz | hz
    · rcases Nat.eq_zero_or_pos batchSize with hzero | hpos
      · exact .inr (.inl hzero)
      · have : Nontrivial UInt8 := ⟨0, 1, by decide⟩
        exact .inr (.inr (evenShares_of_slicesAreRows hx hbatch hz hpos hn hn' h))
    · exact .inl hz
  · intro h
    refine ⟨copiesOwnBytes_of_evenShares hx h, ?_⟩
    rcases h with hone | hnone | heven
    · intro m trace htr z hz y hy k hk
      obtain rfl : z = 0 := by omega
      rw [Nat.zero_mul, Nat.zero_add]
      exact quantized_of_trace hn hx hbatch (by omega) htr hy hk
    · intro m trace htr z hz y hy
      omega
    · exact slicesAreRows_of_evenShares hx hbatch hn heven

/-- Two threads share four blocks, eight slices. -/
theorem repeatZ_schedule_even :
    CopiesOwnBytes 8 128 2 2 ∧
      SlicesAreRows 32 8 128 2 2
        (quantizedByte (fun f k => UInt8.ofNat (f 0 + k)) fun y j => y + j) :=
  (repeatZ_schedule_iff (fun f k => UInt8.ofNat (f 0 + k)) (fun y j => y + j) (by decide)
    (by decide) (by decide) (by decide)).2 (.inr (.inr ⟨by decide, by decide, by decide⟩))

/-- Two threads share three blocks.  The second one copies byte 51, which the first one quantises,
and a run in which it comes first leaves what was there. -/
theorem repeatZ_stale :
    ¬CopiesOwnBytes 2 96 1 2 ∧
      ¬SlicesAreRows 1 2 96 1 2
        (quantizedByte (fun f k => UInt8.ofNat (f 0 + k)) fun y j => y + j) := by
  constructor
  · intro h
    have hmem := h 1 (by decide) (quantizeSteps 96 1 2 1) 1 0 51
      ((List.range' 52 50).map fun k => RepeatStep.copy 1 0 k) (by decide +kernel)
    revert hmem
    decide +kernel
  · intro h
    have htr : Interleaves (repeatZThreads 2 96 1 2)
        (sequential [1, 0] (repeatZThreads 2 96 1 2)) :=
      interleaves_order 2 96 1 (by decide) fun t ht => by
        rw [List.mem_cons, List.mem_singleton]
        omega
    have hrow := h (fun _ => 0) _ htr 1 (by decide) 0 (by decide) 51 (by decide)
    revert hrow
    decide +kernel

end Kernels
end PrefillOpt
