import PrefillOpt.Kernels.AttentionBatch
import PrefillOpt.Kernels.RopeSlices

/-!
# Kernels.RopePermute — the permutation of the converter

`convert-hf.py`, `permute`.  A checkpoint is trained with the rotation of the two halves of a head;
the net rotates neighbours.  The converter orders the rows of the query and key weights so that the
halves become neighbours.
-/

namespace PrefillOpt
namespace Kernels

open Lib

/-! ## The converter -/

section Converter

variable {R : Type}

/-- `tensor.reshape(n, b, c, …)` of a tensor of rows. -/
def reshape3 (b c : Nat) (tensor : Nat → R) (i j k : Nat) : R :=
  tensor ((i * b + j) * c + k)

/-- `tensor.swapaxes(1, 2)`. -/
def swapaxes12 (tensor : Nat → Nat → Nat → R) (i j k : Nat) : R :=
  tensor i k j

/-- `tensor.reshape(shape)` of a tensor of shape `(n, b, c, …)`, back to rows. -/
def flatten3 (b c : Nat) (tensor : Nat → Nat → Nat → R) (row : Nat) : R :=
  tensor (row / (b * c)) (row / c % b) (row % c)

/-- `permute` of a tensor of `rows` rows. -/
def permute (tensor : Nat → R) (rows nHeads nKvHeads : Nat) : Except String (Nat → R) := do
  let nHeads := if nHeads ≠ nKvHeads then nKvHeads else nHeads
  let half := rows / nHeads / 2
  assertThat (nHeads * 2 * half == rows) "shape is invalid for input"
  return flatten3 half 2 (swapaxes12 (reshape3 2 half tensor))

/-- `__transformQ` of a converter for `ArchType.LLAMA`; other types leave the tensor as it is. -/
def transformQ (tensor : Nat → R) (rows nHeads : Nat) : Except String (Nat → R) :=
  permute tensor rows nHeads nHeads

def transformK (tensor : Nat → R) (rows nHeads nKvHeads : Nat) : Except String (Nat → R) :=
  permute tensor rows nHeads nKvHeads

/-- The order of the rows of the converter: neighbours of a head come from its halves. -/
def Permuted (headDim n : Nat) (tensor tensor' : Nat → R) : Prop :=
  ∀ h < n, ∀ j < headDim / 2, ∀ e < 2,
    tensor' (h * headDim + (j * 2 + e)) = tensor (h * headDim + (e * (headDim / 2) + j))

theorem permute_eq (tensor : Nat → R) (nHeads : Nat) {headDim nKvHeads : Nat} (hn : 0 < nKvHeads)
    (heven : headDim % 2 = 0) :
    ∃ tensor', permute tensor (nKvHeads * headDim) nHeads nKvHeads = .ok tensor' ∧
      Permuted headDim nKvHeads tensor tensor' := by
  have hheads : (if nHeads ≠ nKvHeads then nKvHeads else nHeads) = nKvHeads := by
    split
    · rfl
    · next h => exact not_not.1 h
  have hhalf : nKvHeads * headDim / nKvHeads / 2 = headDim / 2 := by
    rw [Nat.mul_div_cancel_left headDim hn]
  have hrows : nKvHeads * 2 * (headDim / 2) = nKvHeads * headDim := by
    rw [Nat.mul_assoc, Nat.mul_div_cancel' (Nat.dvd_of_mod_eq_zero heven)]
  refine ⟨flatten3 (headDim / 2) 2 (swapaxes12 (reshape3 2 (headDim / 2) tensor)), ?_, ?_⟩
  · simp only [permute, hheads, hhalf, hrows, assertThat, beq_self_eq_true, if_true]
    rfl
  · intro h hh j hj e he
    obtain ⟨half, rfl⟩ : ∃ half, headDim = half * 2 := ⟨headDim / 2, by omega⟩
    rw [Nat.mul_div_cancel half (by omega)] at hj ⊢
    have hrow : h * (half * 2) + (j * 2 + e) = (h * half + j) * 2 + e := by ring
    have hpair : ((h * half + j) * 2 + e) / 2 = h * half + j := by omega
    have hhead : ((h * half + j) * 2 + e) / (half * 2) = h := by
      rw [Nat.mul_comm half 2, ← Nat.div_div_eq_div_mul, hpair]
      exact Nat.div_eq_of_lt_le (by omega) (by rw [Nat.succ_mul]; omega)
    have hin : (h * half + j) % half = j := by
      rw [Nat.mul_comm, Nat.mul_add_mod, Nat.mod_eq_of_lt hj]
    have hlast : ((h * half + j) * 2 + e) % 2 = e := by omega
    simp only [flatten3, swapaxes12, reshape3, hrow, hpair, hhead, hin, hlast]
    congr 1
    ring

/-- `∑ k, tensor[row][k] * input[k]`, every row of a weight against an input. -/
def project {F : Type} [AddCommMonoid F] [Mul F] (dim : Nat) (weight : Nat → Nat → F)
    (input : Nat → F) (row : Nat) : F :=
  ∑ k ∈ Finset.range dim, weight row k * input k

/-- Permuted weights give the permuted vector. -/
theorem Permuted.project {F : Type} [AddCommMonoid F] [Mul F] {headDim n : Nat}
    {weight weight' : Nat → Nat → F} (h : Permuted headDim n weight weight') (dim : Nat)
    (input : Nat → F) :
    Permuted headDim n (Kernels.project dim weight input) (Kernels.project dim weight' input) := by
  intro i hi j hj e he
  rw [Kernels.project, h i hi j hj e he]
  rfl

end Converter

/-! ## The rotation of the halves -/

section Halves

variable {type : NnRopeType} {qDim kvDim nKvHeads seqLen headDim : Nat} {ropeTheta : ℚ}
  {s : NnRopeSlice}

/-- A slice of the rotation of the halves on one node. -/
structure FalconSlice (qDim kvDim seqLen headDim : Nat) (s : NnRopeSlice) : Prop where
  qDim0_eq : s.qDim0 = qDim
  kvDim0_eq : s.kvDim0 = kvDim
  seqLen_eq : s.seqLen = seqLen
  headDim_eq : s.headDim = headDim
  cacheSize_eq : s.cacheSize = size2D .f32 seqLen headDim

theorem falconSlice_of_sliceRope
    (h : sliceRope .falcon qDim kvDim nKvHeads 1 seqLen headDim ropeTheta 0 = .ok s) :
    FalconSlice qDim kvDim seqLen headDim s := by
  rcases bind_eq_ok h with ⟨_, -, h⟩
  rcases bind_eq_ok h with ⟨_, -, h⟩
  rcases bind_eq_ok h with ⟨_, -, h⟩
  rcases bind_eq_ok h with ⟨_, -, h⟩
  rcases bind_eq_ok h with ⟨_, -, h⟩
  cases h
  exact ⟨Nat.div_one qDim, Nat.div_one kvDim, rfl, rfl, rfl⟩

theorem FalconSlice.dim0_eq (h : FalconSlice qDim kvDim seqLen headDim s) (isQ : Bool) :
    dim0 isQ s = wholeDim isQ qDim kvDim := by
  cases isQ with
  | true => exact h.qDim0_eq
  | false => exact h.kvDim0_eq

theorem mem_ropeFalconTurns {turn : Nat × Nat} :
    turn ∈ ropeFalconTurns s ↔ turn.1 < s.seqLen ∧ turn.2 < s.headDim / 2 := by
  rcases turn with ⟨pos, j⟩
  simp [ropeFalconTurns]

theorem nodup_ropeFalconTurns : (ropeFalconTurns s).Nodup :=
  nodup_turns List.nodup_range fun _ => List.nodup_range

section Cache

variable {F : Type} [Mul F]

variable (h : FalconSlice qDim kvDim seqLen headDim s)
  (hcache : s.cacheSize.length = seqLen * headDim)
include h hcache

theorem falcon_seqLen_mul_lt : seqLen * headDim < 2 ^ 32 := by
  rw [← hcache, h.cacheSize_eq]
  exact u32_lt _

theorem ropeFalconAt_eq {turn : Nat × Nat} (hturn : turn ∈ ropeFalconTurns s) :
    ropeFalconCosAt s turn = turn.1 * headDim + turn.2 ∧
      ropeFalconSinAt s turn = turn.1 * headDim + (turn.2 + headDim / 2) := by
  rcases mem_ropeFalconTurns.1 hturn with ⟨hpos, hj⟩
  rw [h.seqLen_eq] at hpos
  rw [h.headDim_eq] at hj
  have hfits := falcon_seqLen_mul_lt h hcache
  have hcos := add_mul_lt hpos (show turn.2 < headDim by omega)
  have hsin := add_mul_lt hpos (show turn.2 + headDim / 2 < headDim by omega)
  rw [ropeFalconCosAt, ropeFalconSinAt, h.headDim_eq, Nat.add_assoc]
  exact ⟨u32_of_lt (hcos.trans hfits), u32_of_lt (hsin.trans hfits)⟩

theorem ropeFalcon_apart : Apart (ropeFalconCosAt s) (ropeFalconSinAt s) (ropeFalconTurns s) := by
  have hhalf : ∀ turn ∈ ropeFalconTurns s, turn.2 < headDim / 2 := fun turn hturn =>
    h.headDim_eq ▸ (mem_ropeFalconTurns.1 hturn).2
  refine ⟨fun turn hturn => ?_, fun turn hturn other hother hne => ?_⟩
  · rcases ropeFalconAt_eq h hcache hturn with ⟨hcos, hsin⟩
    have hj := hhalf turn hturn
    omega
  · rcases ropeFalconAt_eq h hcache hturn with ⟨hcos, hsin⟩
    rcases ropeFalconAt_eq h hcache hother with ⟨hcos', hsin'⟩
    have hj := hhalf turn hturn
    have hj' := hhalf other hother
    have hapart : ∀ e e', (e = 0 ∨ e = headDim / 2) → (e' = 0 ∨ e' = headDim / 2) →
        turn.1 * headDim + (turn.2 + e) ≠ other.1 * headDim + (other.2 + e') := by
      intro e e' he he' heq
      rcases add_mul_inj (by omega) (by omega) heq with ⟨hpos, hdim⟩
      exact hne (Prod.ext hpos.symm (by omega))
    rw [hcos, hsin, hcos', hsin']
    exact ⟨hapart 0 0 (.inl rfl) (.inl rfl), hapart 0 _ (.inl rfl) (.inr rfl),
      hapart _ 0 (.inr rfl) (.inl rfl), hapart _ _ (.inr rfl) (.inr rfl)⟩

/-- After the cache is filled it has the cosine and the sine of every turn. -/
theorem fillRopeFalconCache_at {turn : Nat × Nat} (hturn : turn ∈ ropeFalconTurns s)
    (m : RopeMath F) (freq : Nat → F) (cache : Mem F) :
    let filled := fillRopeFalconCache m s freq cache
    let val := m.ofNat turn.1 * freq turn.2
    filled (ropeFalconCosAt s turn) = m.cosf val ∧ filled (ropeFalconSinAt s turn) = m.sinf val :=
  foldl_storePair nodup_ropeFalconTurns (ropeFalcon_apart h hcache) hturn cache

end Cache

section Threads

variable {isQ : Bool} {nThreads : Nat} {trace : List (Nat × Nat × Nat)}

theorem mem_ropeFalconThreads {t : Nat} {turn : Nat × Nat} :
    turn ∈ ropeFalconThreads isQ s nThreads t ↔
      t < nThreads ∧ (blockStart (dim0 isQ s / s.headDim) nThreads t ≤ turn.1 ∧
        turn.1 < blockStart (dim0 isQ s / s.headDim) nThreads t
          + blockCount (dim0 isQ s / s.headDim) nThreads t) ∧ turn.2 < s.headDim / 2 := by
  rcases turn with ⟨i, j⟩
  by_cases ht : t < nThreads
  · rw [ropeFalconThreads, if_pos ht]
    simp only [ropeFalconPairs, splitThreads_eq, List.mem_flatMap, List.mem_range'_1, List.mem_map,
      List.mem_range, Prod.mk.injEq, ht, true_and, dim0, Nat.add_sub_cancel_left]
    constructor
    · rintro ⟨i', hi, j', hj, rfl, rfl⟩
      exact ⟨hi, hj⟩
    · rintro ⟨hi, hj⟩
      exact ⟨i, hi, j, hj, rfl, rfl⟩
  · simp [ropeFalconThreads, ht]

theorem nodup_ropeFalconThreads (t : Nat) : (ropeFalconThreads isQ s nThreads t).Nodup := by
  by_cases ht : t < nThreads
  · rw [ropeFalconThreads, if_pos ht]
    exact nodup_turns List.nodup_range' fun _ => List.nodup_range
  · rw [ropeFalconThreads, if_neg ht]
    exact List.nodup_nil

/-- The row after the op, whatever the order of the threads. -/
theorem runTrace_ropeFalcon {F : Type} [Add F] [Sub F] [Mul F]
    (htr : Interleaves (ropeFalconThreads isQ s nThreads) trace) (hn : 0 < nThreads) {i j : Nat}
    (hi : i < dim0 isQ s / s.headDim) (hj : j < s.headDim / 2) (cache : Mem F) (pos : Nat)
    (x : Mem F) :
    let posCache := u32 (pos * s.headDim)
    let y := runTrace (ropeFalconStep cache pos s) x trace
    let left := i * s.headDim + j
    let right := i * s.headDim + j + s.headDim / 2
    y left = x left * cache (posCache + j) - x right * cache (posCache + (j + s.headDim / 2)) ∧
      y right
        = x left * cache (posCache + (j + s.headDim / 2)) + x right * cache (posCache + j) := by
  rcases exists_block hn hi with ⟨t, ht, hblock⟩
  have hmem : (t, i, j) ∈ trace :=
    htr.mem_prog.2 (mem_ropeFalconThreads.2 ⟨ht, hblock, hj⟩)
  refine foldl_rotatePair (a := fun e : Nat × Nat × Nat => e.2.1 * s.headDim + e.2.2)
    (b := fun e => e.2.1 * s.headDim + e.2.2 + s.headDim / 2)
    (htr.nodup nodup_ropeFalconThreads) ⟨fun e he => ?_, fun e he e' he' hne => ?_⟩ hmem x
  · have he := mem_ropeFalconThreads.1 (htr.mem_prog.1 he)
    dsimp only
    omega
  · have he := mem_ropeFalconThreads.1 (htr.mem_prog.1 he)
    have he' := mem_ropeFalconThreads.1 (htr.mem_prog.1 he')
    have hapart : ∀ d d', (d = 0 ∨ d = s.headDim / 2) → (d' = 0 ∨ d' = s.headDim / 2) →
        e.2.1 * s.headDim + (e.2.2 + d) ≠ e'.2.1 * s.headDim + (e'.2.2 + d') := by
      intro d d' hd hd' heq
      rcases add_mul_inj (by omega) (by omega) heq with ⟨hhead, hdim⟩
      rw [← hhead] at he'
      have hthread : e'.1 = e.1 := block_unique he'.2.1.1 he'.2.1.2 he.2.1.1 he.2.1.2
      exact hne (Prod.ext hthread (Prod.ext hhead.symm (by omega)))
    have hll := hapart 0 0 (.inl rfl) (.inl rfl)
    have hlr := hapart 0 _ (.inl rfl) (.inr rfl)
    have hrl := hapart _ 0 (.inr rfl) (.inl rfl)
    have hrr := hapart _ _ (.inr rfl) (.inr rfl)
    dsimp only
    omega

end Threads

end Halves

/-! ## One head -/

section Head

variable {qDim kvDim seqLen headDim n nThreads pos i j : Nat} {ropeTheta : ℚ} {isQ : Bool}
  {F : Type} [Add F] [Sub F] [Mul F]

/-- A pair of halves after the op. -/
theorem falcon_rotated {s : NnRopeSlice} {trace : List (Nat × Nat × Nat)}
    (h : FalconSlice qDim kvDim seqLen headDim s) (hcache : s.cacheSize.length = seqLen * headDim)
    (hdim : wholeDim isQ qDim kvDim = n * headDim)
    (htr : Interleaves (ropeFalconThreads isQ s nThreads) trace) (hn : 0 < nThreads)
    (hpos : pos < seqLen) (hi : i < n) (hj : j < headDim / 2) (m : RopeMath F) (freq : Nat → F)
    (cache x : Mem F) :
    let y := runTrace (ropeFalconStep (fillRopeFalconCache m s freq cache) pos s) x trace
    let val := m.ofNat pos * freq j
    let left := i * headDim + (0 * (headDim / 2) + j)
    let right := i * headDim + (1 * (headDim / 2) + j)
    y left = x left * m.cosf val - x right * m.sinf val ∧
      y right = x left * m.sinf val + x right * m.cosf val := by
  intro y val left right
  have hhead := h.headDim_eq
  have hturn : (pos, j) ∈ ropeFalconTurns s := by
    rw [mem_ropeFalconTurns, h.seqLen_eq, hhead]
    exact ⟨hpos, hj⟩
  rcases ropeFalconAt_eq h hcache hturn with ⟨hcosAt, hsinAt⟩
  rcases fillRopeFalconCache_at h hcache hturn m freq cache with ⟨hcos, hsin⟩
  have hbase : u32 (pos * headDim) = pos * headDim := by
    have hlt := add_mul_lt hpos (show j < headDim by omega)
    have hfits := falcon_seqLen_mul_lt h hcache
    exact u32_of_lt (by omega)
  have hheads : dim0 isQ s / s.headDim = n := by
    rw [h.dim0_eq, hdim, hhead, Nat.mul_div_cancel n (by omega)]
  have hleft : i * headDim + j = left := by
    simp only [left]
    omega
  have hright : left + headDim / 2 = right := by
    simp only [left, right]
    omega
  have hrun := runTrace_ropeFalcon htr hn (i := i) (j := j) (by omega) (by omega)
    (fillRopeFalconCache m s freq cache) pos x
  simp only [hhead, hbase, ← hcosAt, ← hsinAt, hcos, hsin, hleft, hright] at hrun
  exact hrun

/-- A pair of neighbours after the op. -/
theorem llama_rotated {s : NnRopeSlice} {trace : List (Nat × Nat)}
    (h : LlamaSlice qDim kvDim 1 seqLen headDim ropeTheta 0 s)
    (hcache : s.cacheSize.length = seqLen * s.sliceDim) (heven : headDim % 2 = 0)
    (hdim : wholeDim isQ qDim kvDim = n * headDim)
    (htr : Interleaves (ropeLlamaThreads isQ s nThreads) trace) (hn : 0 < nThreads)
    (hpos : pos < seqLen) (hi : i < n) (hj : j < headDim / 2) (m : RopeMath F) (freq : Nat → F)
    (cache x : Mem F) :
    let filled := fillRopeLlamaCache m s (fun d => freq (d / 2)) cache
    let y := runTrace (ropeLlamaStep filled isQ pos s) x trace
    let val := m.ofNat pos * freq j
    let left := i * headDim + (j * 2 + 0)
    let right := i * headDim + (j * 2 + 1)
    y left = x left * m.cosf val - x right * m.sinf val ∧
      y right = x left * m.sinf val + x right * m.cosf val := by
  intro filled y val left right
  have hwhole := h.wholeDim_eq isQ
  have hstart := h.dimStart_eq isQ
  rw [Nat.zero_mul] at hstart
  have hlt := add_mul_lt hi (show j * 2 + 1 < headDim by omega)
  have hleft : left % 2 = 0 := by
    have hmul : i * headDim % 2 = 0 := by
      rw [Nat.mul_mod, heven, Nat.mul_zero, Nat.zero_mod]
    omega
  have hroom : left + 1 < dim0 isQ s := by omega
  have hfreq : (dimStart isQ s + left) % s.headDim / 2 = j := by
    have hin : left % headDim = j * 2 := by
      simp only [left, Nat.add_zero]
      rw [Nat.mul_comm, Nat.mul_add_mod, Nat.mod_eq_of_lt (by omega)]
    rw [hstart, Nat.zero_add, h.headDim_eq, hin, Nat.mul_div_cancel j (by omega)]
  rcases posCache_add h Nat.one_pos hcache hpos hleft (show left < dim0 isQ s by omega)
    with ⟨hcosAt, hsinAt, -⟩
  have hread := fillRopeLlamaCache_at h hcache
    (mem_turns_of_pair h Nat.one_pos hpos hleft (show left < dim0 isQ s by omega)) m
    (fun d => freq (d / 2)) cache
  have hcos : filled (ropeLlamaCosAt s (pos, dimStart isQ s + left)) = m.cosf val :=
    hread.1.trans (congrArg (fun d => m.cosf (m.ofNat pos * freq d)) hfreq)
  have hsin : filled (ropeLlamaSinAt s (pos, dimStart isQ s + left)) = m.sinf val :=
    hread.2.trans (congrArg (fun d => m.sinf (m.ofNat pos * freq d)) hfreq)
  rcases runTrace_ropeLlama htr hn hleft hroom filled pos x with ⟨hl, hr⟩
  rw [hcosAt, hsinAt, hcos, hsin] at hl hr
  exact ⟨hl, hr⟩

/-- The rotation of neighbours of a permuted vector is the permuted rotation of the halves. -/
theorem Permuted.rotate {sL sF : NnRopeSlice} {threadsL threadsF : Nat}
    {traceL : List (Nat × Nat)} {traceF : List (Nat × Nat × Nat)}
    (hL : LlamaSlice qDim kvDim 1 seqLen headDim ropeTheta 0 sL)
    (hF : FalconSlice qDim kvDim seqLen headDim sF)
    (hcacheL : sL.cacheSize.length = seqLen * sL.sliceDim)
    (hcacheF : sF.cacheSize.length = seqLen * headDim) (heven : headDim % 2 = 0)
    (hdim : wholeDim isQ qDim kvDim = n * headDim)
    (htrL : Interleaves (ropeLlamaThreads isQ sL threadsL) traceL) (hnL : 0 < threadsL)
    (htrF : Interleaves (ropeFalconThreads isQ sF threadsF) traceF) (hnF : 0 < threadsF)
    (hpos : pos < seqLen) (m : RopeMath F) (freq : Nat → F) (cacheL cacheF : Mem F) {x x' : Mem F}
    (hx : Permuted headDim n x x') :
    Permuted headDim n
      (runTrace (ropeFalconStep (fillRopeFalconCache m sF freq cacheF) pos sF) x traceF)
      (runTrace (ropeLlamaStep (fillRopeLlamaCache m sL (fun d => freq (d / 2)) cacheL) isQ pos sL)
        x' traceL) := by
  intro i hi j hj e he
  rcases llama_rotated hL hcacheL heven hdim htrL hnL hpos hi hj m freq cacheL x' with ⟨hl, hr⟩
  rcases falcon_rotated hF hcacheF hdim htrF hnF hpos hi hj m freq cacheF x with ⟨hl', hr'⟩
  rw [hx i hi j hj 0 (by omega), hx i hi j hj 1 (by omega)] at hl hr
  obtain rfl | rfl : e = 0 ∨ e = 1 := by omega
  · exact hl.trans hl'.symm
  · exact hr.trans hr'.symm

end Head

/-! ## The scores -/

section Scores

variable {F : Type} [Field F]

/-- Query head `h` of a row of queries against key head `g` of a row of keys. -/
def pairScore (l : Libm F) (q k : Mem F) (h g headDim : Nat) : F :=
  dotProduct_F32 (fun i => q (h * headDim + i)) (fun i => k (g * headDim + i)) headDim
    / l.sqrtf headDim

/-- A score does not see a permutation of both heads. -/
theorem Permuted.pairScore_eq {headDim n n' h g : Nat} {q q' k k' : Mem F}
    (heven : headDim % 2 = 0) (hq : Permuted headDim n q q') (hk : Permuted headDim n' k k')
    (hh : h < n) (hg : g < n') (l : Libm F) :
    pairScore l q' k' h g headDim = pairScore l q k h g headDim := by
  rw [pairScore, pairScore, dotProduct_F32_eq_sum, dotProduct_F32_eq_sum]
  congr 1
  obtain ⟨half, hhalf⟩ : ∃ half, headDim = half * 2 := ⟨headDim / 2, by omega⟩
  have hdiv : headDim / 2 = half := by omega
  have hpair : ∀ j ∈ Finset.range half, ∑ e ∈ Finset.range 2,
      q' (h * headDim + (j * 2 + e)) * k' (g * headDim + (j * 2 + e))
      = ∑ e ∈ Finset.range 2,
        q (h * headDim + (e * half + j)) * k (g * headDim + (e * half + j)) := by
    intro j hj
    have hj' : j < headDim / 2 := hdiv ▸ Finset.mem_range.1 hj
    refine Finset.sum_congr rfl fun e he => ?_
    rw [hq h hh j hj' e (Finset.mem_range.1 he), hk g hg j hj' e (Finset.mem_range.1 he), hdiv]
  -- neighbours together on one side, halves together on the other
  calc ∑ i ∈ Finset.range headDim, q' (h * headDim + i) * k' (g * headDim + i)
      = ∑ j ∈ Finset.range half, ∑ e ∈ Finset.range 2,
          q' (h * headDim + (j * 2 + e)) * k' (g * headDim + (j * 2 + e)) := by
        rw [sum_blocks half 2 fun i => q' (h * headDim + i) * k' (g * headDim + i), ← hhalf]
    _ = ∑ j ∈ Finset.range half, ∑ e ∈ Finset.range 2,
          q (h * headDim + (e * half + j)) * k (g * headDim + (e * half + j)) :=
        Finset.sum_congr rfl hpair
    _ = ∑ e ∈ Finset.range 2, ∑ j ∈ Finset.range half,
          q (h * headDim + (e * half + j)) * k (g * headDim + (e * half + j)) :=
        Finset.sum_comm
    _ = ∑ i ∈ Finset.range headDim, q (h * headDim + i) * k (g * headDim + i) := by
        rw [sum_blocks 2 half fun i => q (h * headDim + i) * k (g * headDim + i), Nat.mul_comm 2,
          ← hhalf]

/-- Converting a checkpoint does not change a score: the permuted weights with the rotation of
neighbours give what the original weights give with the rotation of halves, for every table of
frequencies, whatever the threads of the four ops do. -/
theorem convert_score {type : NnRopeType} {nHeads nKvHeads seqLen headDim : Nat} {ropeTheta : ℚ}
    {sL sF : NnRopeSlice} (m : RopeMath F) (l : Libm F) (freq : Nat → F) (dim : Nat)
    (heven : headDim % 2 = 0) (htype : type ≠ .falcon)
    (hL : sliceRope type (nHeads * headDim) (nKvHeads * headDim) nKvHeads 1 seqLen headDim
      ropeTheta 0 = .ok sL)
    (hF : sliceRope .falcon (nHeads * headDim) (nKvHeads * headDim) nKvHeads 1 seqLen headDim
      ropeTheta 0 = .ok sF)
    (hcacheL : sL.cacheSize.length = seqLen * sL.sliceDim)
    (hcacheF : sF.cacheSize.length = seqLen * headDim) (wq wk : Nat → Nat → F) {h g : Nat}
    (hh : h < nHeads) (hg : g < nKvHeads) :
    ∃ wq' wk', transformQ wq (nHeads * headDim) nHeads = .ok wq' ∧
      transformK wk (nKvHeads * headDim) nHeads nKvHeads = .ok wk' ∧
      ∀ (cacheL cacheF : Mem F) (input : Bool → Nat → F) (pos : Bool → Nat)
        (nThreads nThreads' : Bool → Nat) (trace : Bool → List (Nat × Nat))
        (trace' : Bool → List (Nat × Nat × Nat)),
        (∀ isQ, pos isQ < seqLen ∧ 0 < nThreads isQ ∧ 0 < nThreads' isQ ∧
          Interleaves (ropeLlamaThreads isQ sL (nThreads isQ)) (trace isQ) ∧
          Interleaves (ropeFalconThreads isQ sF (nThreads' isQ)) (trace' isQ)) →
        let filledL := fillRopeLlamaCache m sL (fun d => freq (d / 2)) cacheL
        let filledF := fillRopeFalconCache m sF freq cacheF
        let converted := fun isQ w =>
          runTrace (ropeLlamaStep filledL isQ (pos isQ) sL) (project dim w (input isQ)) (trace isQ)
        let original := fun isQ w =>
          runTrace (ropeFalconStep filledF (pos isQ) sF) (project dim w (input isQ)) (trace' isQ)
        pairScore l (converted true wq') (converted false wk') h g headDim
          = pairScore l (original true wq) (original false wk) h g headDim := by
  have hL' := llamaSlice_of_sliceRope htype hL
  have hF' := falconSlice_of_sliceRope hF
  rcases permute_eq wq nHeads (show 0 < nHeads by omega) heven
    with ⟨wq', hq, hpq⟩
  rcases permute_eq wk nHeads (show 0 < nKvHeads by omega) heven
    with ⟨wk', hk, hpk⟩
  refine ⟨wq', wk', hq, hk, fun cacheL cacheF input pos nThreads nThreads' trace trace' hrun => ?_⟩
  rcases hrun true with ⟨hposq, hnq, hnq', htrq, htrq'⟩
  rcases hrun false with ⟨hposk, hnk, hnk', htrk, htrk'⟩
  have hrotq := (hpq.project dim (input true)).rotate hL' hF' hcacheL hcacheF heven rfl htrq hnq
    htrq' hnq' hposq m freq cacheL cacheF
  have hrotk := (hpk.project dim (input false)).rotate hL' hF' hcacheL hcacheF heven rfl htrk hnk
    htrk' hnk' hposk m freq cacheL cacheF
  exact Permuted.pairScore_eq heven hrotq hrotk hh hg l

/-- Two query heads and a key head of four dimensions on one node. -/
def wholeLlamaSlice : NnRopeSlice where
  qDim0 := 8
  qDimStart := 0
  qDimEnd := 8
  qShift := 0
  kvDim := 4
  kvDim0 := 4
  kvDimStart := 0
  sliceDim := 8
  seqLen := 3
  headDim := 4
  nKvHeads := 1
  ropeTheta := 10000
  cacheSize := size2D .f32 3 8

def wholeFalconSlice : NnRopeSlice :=
  { wholeLlamaSlice with qDimEnd := 0, sliceDim := 0, cacheSize := size2D .f32 3 4 }

/-- One thread, queries at position 2 and keys at position 1. -/
theorem convert_score_two_heads :
    let wq : Nat → Nat → ℚ := fun row _ => row
    let wk : Nat → Nat → ℚ := fun row _ => row * row
    let filledL := fillRopeLlamaCache flatMath wholeLlamaSlice
      (fun d => (1 : ℚ) / (d / 2 + 1 : Nat)) fun _ => 0
    let filledF := fillRopeFalconCache flatMath wholeFalconSlice (fun d => (1 : ℚ) / (d + 1 : Nat))
      fun _ => 0
    let converted := fun isQ w => runTrace (ropeLlamaStep filledL isQ (if isQ then 2 else 1)
      wholeLlamaSlice) (project 1 w fun _ => 1)
        (sequential [0] (ropeLlamaThreads isQ wholeLlamaSlice 1))
    let original := fun isQ w => runTrace (ropeFalconStep filledF (if isQ then 2 else 1)
      wholeFalconSlice) (project 1 w fun _ => 1)
        (sequential [0] (ropeFalconThreads isQ wholeFalconSlice 1))
    ∃ wq' wk', transformQ wq 8 2 = .ok wq' ∧ transformK wk 4 2 1 = .ok wk' ∧
      pairScore ⟨id, id⟩ (converted true wq') (converted false wk') 1 0 4
        = pairScore ⟨id, id⟩ (original true wq) (original false wk) 1 0 4 := by
  intro wq wk filledL filledF converted original
  have hL : sliceRope .llama (2 * 4) (1 * 4) 1 1 3 4 10000 0 = .ok wholeLlamaSlice := rfl
  have hF : sliceRope .falcon (2 * 4) (1 * 4) 1 1 3 4 10000 0 = .ok wholeFalconSlice := rfl
  have hh : 1 < 2 := by decide
  rcases convert_score flatMath ⟨id, id⟩ (fun d => (1 : ℚ) / (d + 1 : Nat)) 1 (by decide)
    (by decide) hL hF (by decide) (by decide) wq wk hh Nat.one_pos with ⟨wq', wk', hq, hk, hscore⟩
  refine ⟨wq', wk', hq, hk, ?_⟩
  refine hscore (fun _ => 0) (fun _ => 0) (fun _ _ => 1) (fun isQ => if isQ then 2 else 1)
    (fun _ => 1) (fun _ => 1) (fun isQ => sequential [0] (ropeLlamaThreads isQ wholeLlamaSlice 1))
    (fun isQ => sequential [0] (ropeFalconThreads isQ wholeFalconSlice 1)) fun isQ => ?_
  have hidle : ∀ t, t ∉ [0] → ¬t < 1 := by
    intro t ht
    rw [List.mem_singleton] at ht
    omega
  refine ⟨by cases isQ <;> decide, Nat.one_pos, Nat.one_pos, ?_, ?_⟩
  · exact interleaves_sequential (by decide) fun t ht => if_neg (hidle t ht)
  · exact interleaves_sequential (by decide) fun t ht => if_neg (hidle t ht)

end Scores

end Kernels
end PrefillOpt
