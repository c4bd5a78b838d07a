import Mathlib.Tactic.IntervalCases
import PrefillOpt.Kernels.Rope

/-!
# Kernels.RopeSlices — rotations of the slices of a tensor parallel group

`nn-core.cpp`, `sliceRope`.  One cache serves the queries and the keys of a rank.  It starts at the
first key dimension of the rank and ends at its last query dimension; `qShift` is the way from the
keys to the queries.
-/

namespace PrefillOpt
namespace Kernels

open Lib

variable {type : NnRopeType} {qDim kvDim nKvHeads nNodes seqLen headDim nodeIndex : Nat}
  {ropeTheta : ℚ} {s : NnRopeSlice}

/-! ## What `sliceRope` admits -/

/-- A slice of the interleaved rotation: where it starts, and that nothing in it is odd. -/
structure LlamaSlice (qDim kvDim nNodes seqLen headDim : Nat) (ropeTheta : ℚ) (nodeIndex : Nat)
    (s : NnRopeSlice) : Prop where
  kvDim_le : kvDim ≤ qDim
  qDim_eq : qDim = nNodes * s.qDim0
  kvDim_eq : kvDim = nNodes * s.kvDim0
  qDim0_even : s.qDim0 % 2 = 0
  kvDim0_even : s.kvDim0 % 2 = 0
  kvDimStart_eq : s.kvDimStart = s.kvDim0 * nodeIndex
  qDimStart_eq : s.qDimStart = s.qDim0 * nodeIndex
  qDimEnd_eq : s.qDimEnd = s.qDimStart + s.qDim0
  qShift_eq : s.qShift = s.qDimStart - s.kvDimStart
  sliceDim_eq : s.sliceDim = s.qDimEnd - s.kvDimStart
  sliceDim_even : s.sliceDim % 2 = 0
  seqLen_eq : s.seqLen = seqLen
  headDim_eq : s.headDim = headDim
  ropeTheta_eq : s.ropeTheta = ropeTheta
  cacheSize_eq : s.cacheSize = size2D .f32 seqLen s.sliceDim

theorem llamaSlice_of_sliceRope (htype : type ≠ .falcon)
    (h : sliceRope type qDim kvDim nKvHeads nNodes seqLen headDim ropeTheta nodeIndex = .ok s) :
    LlamaSlice qDim kvDim nNodes seqLen headDim ropeTheta nodeIndex s := by
  rcases bind_eq_ok h with ⟨_, hle, h⟩
  rcases bind_eq_ok h with ⟨_, hq, h⟩
  rcases bind_eq_ok h with ⟨_, hkv, h⟩
  rcases bind_eq_ok h with ⟨_, hq0, h⟩
  rcases bind_eq_ok h with ⟨_, hkv0, h⟩
  rw [if_neg htype] at h
  rcases bind_eq_ok h with ⟨_, hslice, h⟩
  cases h
  have hle := of_decide_eq_true (assertThat_eq_ok hle)
  have hq := eq_of_beq (assertThat_eq_ok hq)
  have hkv := eq_of_beq (assertThat_eq_ok hkv)
  exact {
    kvDim_le := hle
    qDim_eq := (Nat.mul_div_cancel' (Nat.dvd_of_mod_eq_zero hq)).symm
    kvDim_eq := (Nat.mul_div_cancel' (Nat.dvd_of_mod_eq_zero hkv)).symm
    qDim0_even := eq_of_beq (assertThat_eq_ok hq0)
    kvDim0_even := eq_of_beq (assertThat_eq_ok hkv0)
    kvDimStart_eq := rfl
    qDimStart_eq := rfl
    qDimEnd_eq := rfl
    qShift_eq := rfl
    sliceDim_eq := rfl
    sliceDim_even := eq_of_beq (assertThat_eq_ok hslice)
    seqLen_eq := rfl
    headDim_eq := rfl
    ropeTheta_eq := rfl
    cacheSize_eq := rfl }

namespace LlamaSlice

variable (h : LlamaSlice qDim kvDim nNodes seqLen headDim ropeTheta nodeIndex s)
include h

theorem start_even : s.kvDimStart % 2 = 0 ∧ s.qDimStart % 2 = 0 := by
  rw [h.kvDimStart_eq, h.qDimStart_eq]
  exact ⟨by simp [Nat.mul_mod, h.kvDim0_even], by simp [Nat.mul_mod, h.qDim0_even]⟩

theorem kvDim0_le (hr : nodeIndex < nNodes) : s.kvDim0 ≤ s.qDim0 := by
  have hle := h.kvDim_le
  rw [h.qDim_eq, h.kvDim_eq] at hle
  exact Nat.le_of_mul_le_mul_left hle (by omega)

theorem kvDimStart_le (hr : nodeIndex < nNodes) : s.kvDimStart ≤ s.qDimStart := by
  rw [h.kvDimStart_eq, h.qDimStart_eq]
  exact Nat.mul_le_mul_right nodeIndex (h.kvDim0_le hr)

/-- The queries of a rank, by their way from its first key dimension. -/
theorem qShift_add (hr : nodeIndex < nNodes) (i : Nat) :
    s.qShift + i = s.qDimStart + i - s.kvDimStart := by
  have hle := h.kvDimStart_le hr
  rw [h.qShift_eq]
  omega

/-- A cache of the size that is asked for is small enough for its indices. -/
theorem seqLen_mul_lt (hcache : s.cacheSize.length = seqLen * s.sliceDim) :
    seqLen * s.sliceDim < 2 ^ 32 := by
  rw [← hcache, h.cacheSize_eq]
  exact u32_lt _

end LlamaSlice

/-! ## The cache -/

section Cache

variable {F : Type} [Mul F] {pos i : Nat}

theorem mem_ropeLlamaTurns {turn : Nat × Nat} :
    turn ∈ ropeLlamaTurns s ↔
      turn.1 < s.seqLen ∧ s.kvDimStart ≤ turn.2 ∧ turn.2 < s.qDimEnd ∧
        (turn.2 - s.kvDimStart) % 2 = 0 := by
  rcases turn with ⟨pos, i⟩
  simp only [ropeLlamaTurns, List.mem_flatMap, List.mem_range, List.mem_map, Prod.mk.injEq]
  constructor
  · rintro ⟨pos', hpos, i', hi, rfl, rfl⟩
    exact ⟨hpos, mem_evenSteps.1 hi⟩
  · rintro ⟨hpos, hi⟩
    exact ⟨pos, hpos, i, mem_evenSteps.2 hi, rfl, rfl⟩

theorem nodup_ropeLlamaTurns : (ropeLlamaTurns s).Nodup :=
  nodup_turns List.nodup_range fun _ => nodup_evenSteps _ _

variable (h : LlamaSlice qDim kvDim nNodes seqLen headDim ropeTheta nodeIndex s)
  (hcache : s.cacheSize.length = seqLen * s.sliceDim)
include h hcache

/-- Where a turn writes. -/
theorem ropeLlamaAt_eq {turn : Nat × Nat} (hturn : turn ∈ ropeLlamaTurns s) :
    turn.2 - s.kvDimStart + 1 < s.sliceDim ∧
      ropeLlamaCosAt s turn = turn.1 * s.sliceDim + (turn.2 - s.kvDimStart) ∧
      ropeLlamaSinAt s turn = turn.1 * s.sliceDim + (turn.2 - s.kvDimStart + 1) := by
  rcases mem_ropeLlamaTurns.1 hturn with ⟨hpos, hle, hlt, heven⟩
  have hdim := h.sliceDim_eq
  have hodd := h.sliceDim_even
  have hroom : turn.2 - s.kvDimStart + 1 < s.sliceDim := by omega
  have hfits := h.seqLen_mul_lt hcache
  rw [h.seqLen_eq] at hpos
  have hcos := add_mul_lt hpos (show turn.2 - s.kvDimStart < s.sliceDim by omega)
  have hsin := add_mul_lt hpos hroom
  exact ⟨hroom, u32_of_lt (hcos.trans hfits), u32_of_lt (hsin.trans hfits)⟩

/-- Different turns write different entries. -/
theorem ropeLlama_apart : Apart (ropeLlamaCosAt s) (ropeLlamaSinAt s) (ropeLlamaTurns s) := by
  refine ⟨fun turn hturn => ?_, fun turn hturn other hother hne => ?_⟩
  · rcases ropeLlamaAt_eq h hcache hturn with ⟨-, hcos, hsin⟩
    omega
  · rcases mem_ropeLlamaTurns.1 hturn with ⟨-, hle, -, heven⟩
    rcases mem_ropeLlamaTurns.1 hother with ⟨-, hle', -, heven'⟩
    rcases ropeLlamaAt_eq h hcache hturn with ⟨hroom, hcos, hsin⟩
    rcases ropeLlamaAt_eq h hcache hother with ⟨hroom', hcos', hsin'⟩
    have hapart : ∀ e e', e ≤ 1 → e' ≤ 1 → turn.1 * s.sliceDim + (turn.2 - s.kvDimStart + e)
        ≠ other.1 * s.sliceDim + (other.2 - s.kvDimStart + e') := by
      intro e e' he he' heq
      rcases add_mul_inj (by omega) (by omega) heq with ⟨hpos, hdim⟩
      exact hne (Prod.ext hpos.symm (by omega))
    rw [hcos, hsin, hcos', hsin']
    exact ⟨hapart 0 0 (by omega) (by omega), hapart 0 1 (by omega) (by omega),
      hapart 1 0 (by omega) (by omega), hapart 1 1 (by omega) (by omega)⟩

/-- After the cache is filled it has the cosine and the sine of every turn. -/
theorem fillRopeLlamaCache_at {turn : Nat × Nat} (hturn : turn ∈ ropeLlamaTurns s)
    (m : RopeMath F) (freq : Nat → F) (cache : Mem F) :
    let filled := fillRopeLlamaCache m s freq cache
    let val := m.ofNat turn.1 * freq (turn.2 % s.headDim)
    filled (ropeLlamaCosAt s turn) = m.cosf val ∧ filled (ropeLlamaSinAt s turn) = m.sinf val :=
  foldl_storePair nodup_ropeLlamaTurns (ropeLlama_apart h hcache) hturn cache

end Cache

/-! ## What a rank reads -/

/-- The first dimension of the row of a rank. -/
def dimStart (isQ : Bool) (slice : NnRopeSlice) : Nat :=
  if isQ then slice.qDimStart else slice.kvDimStart

section Reads

variable {isQ : Bool} {pos i : Nat}

variable (h : LlamaSlice qDim kvDim nNodes seqLen headDim ropeTheta nodeIndex s)
  (hr : nodeIndex < nNodes)
include h hr

/-- The pairs of a row are among the turns of the cache. -/
theorem mem_turns_of_pair (hpos : pos < seqLen) (heven : i % 2 = 0) (hi : i < dim0 isQ s) :
    (pos, dimStart isQ s + i) ∈ ropeLlamaTurns s := by
  have hstart := h.start_even
  have hle := h.kvDimStart_le hr
  have hend := h.qDimEnd_eq
  have hdim := h.kvDim0_le hr
  rw [mem_ropeLlamaTurns, h.seqLen_eq]
  cases isQ with
  | true =>
      have hi' : i < s.qDim0 := hi
      refine ⟨hpos, ?_⟩
      simp only [dimStart, if_true]
      omega
  | false =>
      have hi' : i < s.kvDim0 := hi
      refine ⟨hpos, ?_⟩
      simp only [dimStart, Bool.false_eq_true, if_false]
      omega

/-- The shift from the keys to the queries leads every pair to its own turn. -/
theorem posCache_add (hcache : s.cacheSize.length = seqLen * s.sliceDim) (hpos : pos < seqLen)
    (heven : i % 2 = 0) (hi : i < dim0 isQ s) :
    ropeLlamaPosCache isQ pos s + i = ropeLlamaCosAt s (pos, dimStart isQ s + i) ∧
      ropeLlamaPosCache isQ pos s + (i + 1) = ropeLlamaSinAt s (pos, dimStart isQ s + i) ∧
      ropeLlamaPosCache isQ pos s + (i + 1) < seqLen * s.sliceDim := by
  have hturn := mem_turns_of_pair h hr hpos heven hi
  rcases ropeLlamaAt_eq h hcache hturn with ⟨hroom, hcos, hsin⟩
  have hshift : (if isQ then s.qShift else 0) + i = dimStart isQ s + i - s.kvDimStart := by
    cases isQ with
    | true => exact h.qShift_add hr i
    | false => simp [dimStart]
  have hlt := add_mul_lt hpos hroom
  have hfits := h.seqLen_mul_lt hcache
  have hbase : ropeLlamaPosCache isQ pos s
      = pos * s.sliceDim + (if isQ then s.qShift else 0) := u32_of_lt (by omega)
  rw [hcos, hsin, hbase]
  simp only at hlt hroom ⊢
  omega

end Reads

/-! ## The ranks together -/

section Ranks

variable {F : Type} [Add F] [Sub F] [Mul F] [Div F] [LT F] [DecidableLT F] {m : RopeMath F}
  {config : NnRopeOpConfig}

/-- Dimension `d` of a vector that is rotated as a whole: neighbours `2 * j` and `2 * j + 1` by the
angle of dimension `2 * j` of their head. -/
def rotated (m : RopeMath F) (config : NnRopeOpConfig) (pos : Nat) (x : Mem F) (d : Nat) : F :=
  let val := m.ofNat pos * ropeLlamaFreq m config (d / 2 * 2 % config.slice.headDim)
  if d % 2 = 0 then x d * m.cosf val - x (d + 1) * m.sinf val
  else x (d - 1) * m.sinf val + x d * m.cosf val

/-- The frequencies do not depend on the slice. -/
theorem ropeLlamaFreq_congr {slice slice' : NnRopeSlice} (hhead : slice.headDim = slice'.headDim)
    (htheta : slice.ropeTheta = slice'.ropeTheta) (d : Nat) :
    ropeLlamaFreq m { config with slice := slice } d
      = ropeLlamaFreq m { config with slice := slice' } d := by
  simp only [ropeLlamaFreq, scaleFrequencyLlama3, hhead, htheta]

/-- What is admitted in several ranks is admitted on one node. -/
theorem sliceRope_whole (nKvHeads : Nat) (htype : type ≠ .falcon)
    (h : LlamaSlice qDim kvDim nNodes seqLen headDim ropeTheta nodeIndex s) :
    ∃ w, sliceRope type qDim kvDim nKvHeads 1 seqLen headDim ropeTheta 0 = .ok w ∧
      w.headDim = headDim ∧ w.ropeTheta = ropeTheta := by
  have hq : qDim % 2 = 0 := by
    rw [h.qDim_eq, Nat.mul_mod, h.qDim0_even, Nat.mul_zero, Nat.zero_mod]
  have hkv : kvDim % 2 = 0 := by
    rw [h.kvDim_eq, Nat.mul_mod, h.kvDim0_even, Nat.mul_zero, Nat.zero_mod]
  simp [sliceRope, assertThat, bind, Except.bind, pure, Except.pure, htype, h.kvDim_le, Nat.mod_one,
    hq, hkv]

section Rank

variable {isQ : Bool} {pos nThreads : Nat} {trace : List (Nat × Nat)} {w : NnRopeSlice}

variable (h : LlamaSlice qDim kvDim nNodes seqLen headDim ropeTheta nodeIndex s)
  (hr : nodeIndex < nNodes) (hcache : s.cacheSize.length = seqLen * s.sliceDim)
  (hpos : pos < seqLen)
include h

theorem dimStart_even (isQ : Bool) : dimStart isQ s % 2 = 0 := by
  have hstart := h.start_even
  cases isQ with
  | true => exact hstart.2
  | false => exact hstart.1

theorem dim0_even (isQ : Bool) : dim0 isQ s % 2 = 0 := by
  cases isQ with
  | true => exact h.qDim0_even
  | false => exact h.kvDim0_even

include hr hcache hpos

/-- What a rank reads for a pair. -/
theorem cache_of_pair (m : RopeMath F) (config : NnRopeOpConfig) (cache : Mem F) {i : Nat}
    (heven : i % 2 = 0) (hi : i < dim0 isQ s) :
    let filled := fullfillRopeLlamaCache m { config with slice := s } cache
    let val := m.ofNat pos *
      ropeLlamaFreq m { config with slice := s } ((dimStart isQ s + i) % headDim)
    filled (ropeLlamaPosCache isQ pos s + i) = m.cosf val ∧
      filled (ropeLlamaPosCache isQ pos s + (i + 1)) = m.sinf val := by
  rcases posCache_add h hr hcache hpos heven hi with ⟨hcos, hsin, -⟩
  rw [hcos, hsin, ← h.headDim_eq]
  exact fillRopeLlamaCache_at h hcache (mem_turns_of_pair h hr hpos heven hi) m _ cache

/-- A pair of a rank after the op is the pair of the rotated vector. -/
theorem pair_rotated (m : RopeMath F) (config : NnRopeOpConfig) (hhead : w.headDim = headDim)
    (htheta : w.ropeTheta = ropeTheta) (hn : 0 < nThreads)
    (htr : Interleaves (ropeLlamaThreads isQ s nThreads) trace) (cache x : Mem F) {i : Nat}
    (heven : i % 2 = 0) (hi : i < dim0 isQ s) :
    let filled := fullfillRopeLlamaCache m { config with slice := s } cache
    let y := runTrace (ropeLlamaStep filled isQ pos s) (fun i => x (dimStart isQ s + i)) trace
    let whole := rotated m { config with slice := w } pos x
    y i = whole (dimStart isQ s + i) ∧ y (i + 1) = whole (dimStart isQ s + (i + 1)) := by
  intro filled y whole
  have hstart := dimStart_even h isQ
  have hdim := dim0_even h isQ
  have hfreq : ∀ d, ropeLlamaFreq m { config with slice := s } d
      = ropeLlamaFreq m { config with slice := w } d :=
    ropeLlamaFreq_congr (h.headDim_eq.trans hhead.symm) (h.ropeTheta_eq.trans htheta.symm)
  have hread := cache_of_pair h hr hcache hpos m config cache heven hi
  have hcos : filled (ropeLlamaPosCache isQ pos s + i) = m.cosf _ := hread.1
  have hsin : filled (ropeLlamaPosCache isQ pos s + (i + 1)) = m.sinf _ := hread.2
  rcases runTrace_ropeLlama htr hn heven (show i + 1 < dim0 isQ s by omega) filled pos
    (fun i => x (dimStart isQ s + i)) with ⟨hleft, hright⟩
  rw [hcos, hsin, hfreq] at hleft hright
  have hpair : (dimStart isQ s + i) / 2 * 2 = dimStart isQ s + i := by omega
  have hpair' : (dimStart isQ s + (i + 1)) / 2 * 2 = dimStart isQ s + i := by omega
  have hprev : dimStart isQ s + (i + 1) - 1 = dimStart isQ s + i := by omega
  constructor
  · refine hleft.trans ?_
    simp only [whole, rotated, hpair, hhead, if_pos (show (dimStart isQ s + i) % 2 = 0 by omega),
      Nat.add_assoc]
  · refine hright.trans ?_
    simp only [whole, rotated, hpair', hprev, hhead,
      if_neg (show ¬(dimStart isQ s + (i + 1)) % 2 = 0 by omega)]

/-- The slice of a rank after the op is the slice of the rotated vector. -/
theorem rank_rotated (hhead : w.headDim = headDim) (htheta : w.ropeTheta = ropeTheta)
    (hn : 0 < nThreads) (htr : Interleaves (ropeLlamaThreads isQ s nThreads) trace)
    (cache x : Mem F) {i : Nat} (hi : i < dim0 isQ s) :
    runTrace (ropeLlamaStep (fullfillRopeLlamaCache m { config with slice := s } cache) isQ pos s)
        (fun i => x (dimStart isQ s + i)) trace i
      = rotated m { config with slice := w } pos x (dimStart isQ s + i) := by
  have hdim := dim0_even h isQ
  have hpair : ∀ i : Nat, i % 2 = 0 → i < dim0 isQ s → _ := fun i =>
    pair_rotated h hr hcache hpos m config hhead htheta hn htr cache x
  rcases Nat.mod_two_eq_zero_or_one i with heven | hodd
  · exact (hpair i heven hi).1
  · obtain ⟨j, rfl⟩ : ∃ j, i = j + 1 := ⟨i - 1, by omega⟩
    exact (hpair j (by omega) (by omega)).2

end Rank

/-- A vector of the net: the queries or the keys of one position. -/
def wholeDim (isQ : Bool) (qDim kvDim : Nat) : Nat :=
  if isQ then qDim else kvDim

theorem LlamaSlice.wholeDim_eq
    (h : LlamaSlice qDim kvDim nNodes seqLen headDim ropeTheta nodeIndex s) (isQ : Bool) :
    wholeDim isQ qDim kvDim = nNodes * dim0 isQ s := by
  cases isQ with
  | true => exact h.qDim_eq
  | false => exact h.kvDim_eq

theorem LlamaSlice.dimStart_eq
    (h : LlamaSlice qDim kvDim nNodes seqLen headDim ropeTheta nodeIndex s) (isQ : Bool) :
    dimStart isQ s = nodeIndex * dim0 isQ s := by
  cases isQ with
  | true => exact h.qDimStart_eq.trans (Nat.mul_comm ..)
  | false => exact h.kvDimStart_eq.trans (Nat.mul_comm ..)

/-- Tensor parallelism does not change the rotation: every rank reads the cosine and the sine of
the dimension that a pair has in the whole vector, from a cache that is large enough, and the
rotated slices side by side are the rotated vector. -/
theorem ropeLlama_ranks (m : RopeMath F) (config : NnRopeOpConfig) (htype : type ≠ .falcon)
    (hn : 0 < nNodes) (slice : Nat → NnRopeSlice)
    (hslice : ∀ r < nNodes,
      sliceRope type qDim kvDim nKvHeads nNodes seqLen headDim ropeTheta r = .ok (slice r))
    (hcache : ∀ r < nNodes, (slice r).cacheSize.length = seqLen * (slice r).sliceDim)
    (cache : Nat → Mem F) :
    let filled := fun r => fullfillRopeLlamaCache m { config with slice := slice r } (cache r)
    (∀ r < nNodes,
      (∀ turn ∈ ropeLlamaTurns (slice r),
        ropeLlamaCosAt (slice r) turn < seqLen * (slice r).sliceDim ∧
          ropeLlamaSinAt (slice r) turn < seqLen * (slice r).sliceDim) ∧
      ∀ isQ, ∀ pos < seqLen, ∀ i < dim0 isQ (slice r), i % 2 = 0 →
        let posCache := ropeLlamaPosCache isQ pos (slice r)
        let val := m.ofNat pos *
          ropeLlamaFreq m { config with slice := slice r } ((dimStart isQ (slice r) + i) % headDim)
        posCache + (i + 1) < seqLen * (slice r).sliceDim ∧
          filled r (posCache + i) = m.cosf val ∧ filled r (posCache + (i + 1)) = m.sinf val) ∧
    ∃ whole, sliceRope type qDim kvDim nKvHeads 1 seqLen headDim ropeTheta 0 = .ok whole ∧
      ∀ isQ, ∀ pos < seqLen, ∀ (x : Mem F) (nThreads : Nat → Nat) (trace : Nat → List (Nat × Nat)),
        (∀ r < nNodes, 0 < nThreads r ∧
          Interleaves (ropeLlamaThreads isQ (slice r) (nThreads r)) (trace r)) →
        ((List.range nNodes).flatMap fun r => (List.range (dim0 isQ (slice r))).map
            (runTrace (ropeLlamaStep (filled r) isQ pos (slice r))
              (fun i => x (dimStart isQ (slice r) + i)) (trace r)))
          = (List.range (wholeDim isQ qDim kvDim)).map
              (rotated m { config with slice := whole } pos x) := by
  intro filled
  have hl : ∀ r < nNodes, LlamaSlice qDim kvDim nNodes seqLen headDim ropeTheta r (slice r) :=
    fun r hr => llamaSlice_of_sliceRope htype (hslice r hr)
  refine ⟨fun r hr => ⟨fun turn hturn => ?_, fun isQ pos hpos i hi heven => ?_⟩, ?_⟩
  · rcases ropeLlamaAt_eq (hl r hr) (hcache r hr) hturn with ⟨hroom, hcos, hsin⟩
    have hpos : turn.1 < seqLen := (hl r hr).seqLen_eq ▸ (mem_ropeLlamaTurns.1 hturn).1
    rw [hcos, hsin]
    exact ⟨add_mul_lt hpos (by omega), add_mul_lt hpos hroom⟩
  · exact ⟨(posCache_add (hl r hr) hr (hcache r hr) hpos heven hi).2.2,
      cache_of_pair (hl r hr) hr (hcache r hr) hpos m config (cache r) heven hi⟩
  · rcases sliceRope_whole nKvHeads htype (hl 0 hn) with ⟨whole, hok, hhead, htheta⟩
    refine ⟨whole, hok, fun isQ pos hpos x nThreads trace htr => ?_⟩
    have hdim : ∀ r < nNodes, dim0 isQ (slice r) = dim0 isQ (slice 0) := by
      intro r hr
      have hr' := (hl r hr).wholeDim_eq isQ
      rw [(hl 0 hn).wholeDim_eq isQ] at hr'
      exact (Nat.eq_of_mul_eq_mul_left hn hr').symm
    rw [(hl 0 hn).wholeDim_eq isQ, ← flatMap_blocks]
    refine List.flatMap_congr fun r hr => ?_
    have hr' := List.mem_range.1 hr
    rw [hdim r hr']
    refine List.map_congr_left fun i hi => ?_
    have hi' : i < dim0 isQ (slice r) := (hdim r hr').symm ▸ List.mem_range.1 hi
    rw [rank_rotated (hl r hr') hr' (hcache r hr') hpos hhead htheta (htr r hr').1 (htr r hr').2
      (cache r) x hi', (hl r hr').dimStart_eq isQ, hdim r hr']

/-- Two ranks of a net with two query heads and one key head of four dimensions: the key head is
cut in the middle. -/
def cutSlice (r : Nat) : NnRopeSlice where
  qDim0 := 4
  qDimStart := 4 * r
  qDimEnd := 4 * r + 4
  qShift := 4 * r - 2 * r
  kvDim := 4
  kvDim0 := 2
  kvDimStart := 2 * r
  sliceDim := 4 * r + 4 - 2 * r
  seqLen := 3
  headDim := 4
  nKvHeads := 1
  ropeTheta := 10000
  cacheSize := size2D .f32 3 (4 * r + 4 - 2 * r)

/-- A mathematics without angles, for the example. -/
def flatMath : RopeMath ℚ where
  ofNat n := n
  ofRat q := q
  powf x _ := x
  cosf x := 1 - x * x
  sinf x := x
  waveLen x := x

/-- Key pair 0 of the second rank at position 1 reads the entries of dimension 2. -/
theorem ropeLlama_ranks_cut :
    let config : NnRopeOpConfig := ⟨.llama, false, 1, 0, 0, 0, cutSlice 1⟩
    fullfillRopeLlamaCache flatMath config (fun _ => 0) (ropeLlamaPosCache false 1 (cutSlice 1) + 0)
      = flatMath.cosf (flatMath.ofNat 1 * ropeLlamaFreq flatMath config ((2 + 0) % 4)) :=
  have hslice : ∀ r < 2, sliceRope .llama 8 4 1 2 3 4 10000 r = .ok (cutSlice r) := by
    intro r hr
    interval_cases r <;> rfl
  have hcache : ∀ r < 2, (cutSlice r).cacheSize.length = 3 * (cutSlice r).sliceDim := by decide
  (((ropeLlama_ranks flatMath ⟨.llama, false, 1, 0, 0, 0, cutSlice 1⟩ (by decide) (by decide)
    cutSlice hslice hcache fun _ _ => 0).1 1 (by decide)).2 false 1 (by decide) 0 (by decide)
    (by decide)).2.1

end Ranks

end Kernels
end PrefillOpt
