import Mathlib.Algebra.Order.Field.Rat
import Mathlib.Algebra.BigOperators.Ring.Finset
import Mathlib.Algebra.Order.BigOperators.Group.Finset
import Mathlib.Tactic.Ring
import PrefillOpt.AttentionHeads
import PrefillOpt.Core
import PrefillOpt.Lib.Lanes

/-!
# Kernels.MatmulQ80Q40 — the five builds of the Q80 × Q40 product

`nn-cpu-ops.cpp`, `matmul_Q80_Q40_F32`.  A block of weights is 32 nibbles, two to a byte, with a
scale; a block of inputs is 32 signed bytes with a scale.  The integer parts of the kernels are on
lanes that must not overflow, the float parts are exact.
-/

namespace PrefillOpt
namespace Kernels

open Lib (Lanes Within checked)

/-! ## Blocks -/

structure NnBlockQ40 where
  d : UInt16
  qs : Fin 16 → UInt8

structure NnBlockQ80 where
  d : UInt16
  qs : Fin 32 → Int8

/-- `qs[i]` of a block. -/
def NnBlockQ40.quant (b : NnBlockQ40) (i : Nat) : UInt8 := b.qs (Fin.ofNat 16 i)

def NnBlockQ80.quant (b : NnBlockQ80) (i : Nat) : Int8 := b.qs (Fin.ofNat 32 i)

/-- A register of bytes. -/
abbrev Bytes := Nat → UInt8

def m4b : Bytes := fun _ => 0x0F

/-- A load of 16 bytes. -/
def vld1q_u8 (qs : Fin 16 → UInt8) : Bytes :=
  fun i => qs (Fin.ofNat 16 i)

/-- A load of signed bytes from an offset. -/
def vld1q_s8 (qs : Fin 32 → Int8) (offset : Nat) : Lanes :=
  fun i => (qs (Fin.ofNat 32 (i + offset))).toInt

/-! ## Instructions -/

/-- `vandq_u8` and `_mm_and_si128`. -/
def vandq_u8 (a b : Bytes) : Bytes := fun i => a i &&& b i

def vshrq_n_u8 (a : Bytes) (n : UInt8) : Bytes := fun i => a i >>> n

/-- Each pair of bytes is shifted as one little-endian number. -/
def mm_srli_epi16 (a : Bytes) (n : Nat) : Bytes := fun i =>
  let word := (a (i / 2 * 2)).toNat + 256 * (a (i / 2 * 2 + 1)).toNat
  let shifted := word >>> n
  UInt8.ofNat (if i % 2 = 0 then shifted else shifted / 256)

def vreinterpretq_s8_u8 (a : Bytes) : Lanes := fun i => (a i).toInt8.toInt

def vdupq_n (z : Int) : Lanes := fun _ => z

/-- `vsubq_s8` and `_mm_sub_epi8`. -/
def vsubq_s8 (a b : Lanes) : Option Lanes := checked 8 16 fun i => a i - b i

def vget_high_s8 (a : Lanes) : Lanes := fun i => a (i + 8)

def vmull_s8 (a b : Lanes) : Option Lanes := checked 16 8 fun i => a i * b i

def vpaddlq_s16 (a : Lanes) : Option Lanes := checked 32 4 fun i => a (i * 2) + a (i * 2 + 1)

/-- `vaddq_s32` and `_mm_add_epi32`. -/
def vaddq_s32 (a b : Lanes) : Option Lanes := checked 32 4 fun i => a i + b i

def vdotq_s32 (r a b : Lanes) : Option Lanes :=
  checked 32 4 fun i => r i + ∑ k ∈ Finset.range 4, a (i * 4 + k) * b (i * 4 + k)

def mm256_mullo_epi16 (a b : Lanes) : Option Lanes := checked 16 16 fun i => a i * b i

def mm256_add_epi16 (a b : Lanes) : Option Lanes := checked 16 16 fun i => a i + b i

/-- `_mm256_madd_epi16` and `_mm512_madd_epi16`, with 8 and 16 lanes of results. -/
def madd_epi16 (n : Nat) (a b : Lanes) : Option Lanes :=
  checked 32 n fun i => a (i * 2) * b (i * 2) + a (i * 2 + 1) * b (i * 2 + 1)

def mm256_extracti128_si256 (a : Lanes) : Lanes := fun i => a (i + 4)

def mm_hadd_epi32 (a b : Lanes) : Option Lanes :=
  checked 32 4 fun i =>
    let v := if i < 2 then a else b
    v (i % 2 * 2) + v (i % 2 * 2 + 1)

def mm256_set_m128i (hi lo : Lanes) : Lanes := fun i => if i < 16 then lo i else hi (i - 16)

/-- The upper half of the lanes is added to the lower one until one lane is left. -/
def mm512_reduce_add_epi32 (a : Lanes) : Option Int := do
  let v8 ← checked 32 8 fun i => a i + a (i + 8)
  let v4 ← checked 32 4 fun i => v8 i + v8 (i + 4)
  let v2 ← checked 32 2 fun i => v4 i + v4 (i + 2)
  let v1 ← checked 32 1 fun i => v2 i + v2 (i + 1)
  return v1 0

/-! ## One block -/

/-- With `__ARM_FEATURE_DOTPROD`. -/
def blockDotprod (w : NnBlockQ40) (x : NnBlockQ80) : Option Lanes := do
  let wqs := vld1q_u8 w.qs
  let wl ← vsubq_s8 (vreinterpretq_s8_u8 (vandq_u8 wqs m4b)) (vdupq_n 8)
  let wh ← vsubq_s8 (vreinterpretq_s8_u8 (vshrq_n_u8 wqs 4)) (vdupq_n 8)
  let xl := vld1q_s8 x.qs 0
  let xh := vld1q_s8 x.qs 16
  let p ← vdotq_s32 (vdupq_n 0) wl xl
  vdotq_s32 p wh xh

def blockNeon (w : NnBlockQ40) (x : NnBlockQ80) : Option Lanes := do
  let wqs := vld1q_u8 w.qs
  let wl ← vsubq_s8 (vreinterpretq_s8_u8 (vandq_u8 wqs m4b)) (vdupq_n 8)
  let wh ← vsubq_s8 (vreinterpretq_s8_u8 (vshrq_n_u8 wqs 4)) (vdupq_n 8)
  let xl := vld1q_s8 x.qs 0
  let xh := vld1q_s8 x.qs 16
  let pll ← vmull_s8 wl xl
  let plh ← vmull_s8 (vget_high_s8 wl) (vget_high_s8 xl)
  let phl ← vmull_s8 wh xh
  let phh ← vmull_s8 (vget_high_s8 wh) (vget_high_s8 xh)
  let pl ← vaddq_s32 (← vpaddlq_s16 pll) (← vpaddlq_s16 plh)
  let ph ← vaddq_s32 (← vpaddlq_s16 phl) (← vpaddlq_s16 phh)
  vaddq_s32 pl ph

def blockAvx512 (w : NnBlockQ40) (x : NnBlockQ80) : Option Int := do
  let w8 := vld1q_u8 w.qs
  let v_w0 := vandq_u8 w8 m4b
  let v_w1 := vandq_u8 (mm_srli_epi16 w8 4) m4b
  let v_w0 ← vsubq_s8 (vreinterpretq_s8_u8 v_w0) (vdupq_n 8)
  let v_w1 ← vsubq_s8 (vreinterpretq_s8_u8 v_w1) (vdupq_n 8)
  -- `_mm512_cvtepi8_epi16` leaves the values as they are
  let w16 := mm256_set_m128i v_w1 v_w0
  let x16 := vld1q_s8 x.qs 0
  let products ← madd_epi16 16 w16 x16
  mm512_reduce_add_epi32 products

def blockAvx2 (w : NnBlockQ40) (x : NnBlockQ80) : Option Int := do
  let w_packed := vld1q_u8 w.qs
  let w0 ← vsubq_s8 (vreinterpretq_s8_u8 (vandq_u8 w_packed m4b)) (vdupq_n 8)
  let w1_high := vandq_u8 (mm_srli_epi16 w_packed 4) m4b
  let w1 ← vsubq_s8 (vreinterpretq_s8_u8 w1_high) (vdupq_n 8)
  let i1 := vld1q_s8 x.qs 0
  let i2 := vld1q_s8 x.qs 16
  let prod0 ← mm256_mullo_epi16 w0 i1
  let prod1 ← mm256_mullo_epi16 w1 i2
  let sum_prod ← mm256_add_epi16 prod0 prod1
  let sum32 ← madd_epi16 8 sum_prod (vdupq_n 1)
  let sum_low ← vaddq_s32 sum32 (mm256_extracti128_si256 sum32)
  let sum_low ← mm_hadd_epi32 sum_low sum_low
  let sum_low ← mm_hadd_epi32 sum_low sum_low
  return sum_low 0

/-! ## One row -/

section Rows

variable {R : Type} [CommRing R] (f16 : UInt16 → R)

/-- The four accumulators of a row, each of four lanes. -/
abbrev Sums (R : Type) := Nat → Nat → R

/-- `vmlaq_n_f32` on accumulator `a`, with the product of two blocks and their scales. -/
def mla (block : NnBlockQ40 → NnBlockQ80 → Option Lanes) (w : NnBlockQ40) (x : NnBlockQ80)
    (sumv : Sums R) (a : Nat) : Option (Sums R) := do
  let p ← block w x
  return Function.update sumv a fun l => sumv a l + (p l : R) * (f16 w.d * f16 x.d)

/-- The NEON row: turns over `unroll` blocks, one accumulator each, then block by block. -/
def rowNeon (unroll : Nat) (block : NnBlockQ40 → NnBlockQ80 → Option Lanes)
    (w : Nat → NnBlockQ40) (x : Nat → NnBlockQ80) (nBlocks : Nat) : Option R := do
  -- the turns of `for (; j + unroll - 1 < nBlocks; j += unroll)`
  let turns := nBlocks / unroll
  let sumv ← (List.range turns).foldlM
    (fun sumv t => (List.range unroll).foldlM
      (fun sumv a => mla f16 block (w (t * unroll + a)) (x (t * unroll + a)) sumv a) sumv)
    (fun _ _ => 0)
  let sumv ← (List.range' (turns * unroll) (nBlocks - turns * unroll)).foldlM
    (fun sumv j => mla f16 block (w j) (x j) sumv 0) sumv
  return ∑ a ∈ Finset.range 4, ∑ l ∈ Finset.range 4, sumv a l

/-- The AVX rows. -/
def rowAvx (block : NnBlockQ40 → NnBlockQ80 → Option Int) (w : Nat → NnBlockQ40)
    (x : Nat → NnBlockQ80) (nBlocks : Nat) : Option R :=
  (List.range nBlocks).foldlM
    (fun sum j => do
      let block_sum ← block (w j) (x j)
      return sum + (block_sum : R) * (f16 (w j).d * f16 (x j).d)) 0

/-- The terms of the scalar loop: two products of a byte of weights, an `int` that must fit. -/
def scalarTerm (w : NnBlockQ40) (x : NnBlockQ80) (k : Nat) : Option Int :=
  let w0 : Int := ((w.qs (Fin.ofNat 16 k) &&& 0x0F).toNat : Int) - 8
  let w1 : Int := ((w.qs (Fin.ofNat 16 k) >>> 4).toNat : Int) - 8
  let i1 := (x.qs (Fin.ofNat 32 k)).toInt
  let i2 := (x.qs (Fin.ofNat 32 (k + 16))).toInt
  if Lib.Fits 32 (w0 * i1 + w1 * i2) then some (w0 * i1 + w1 * i2) else none

def rowScalar (w : Nat → NnBlockQ40) (x : Nat → NnBlockQ80) (nBlocks : Nat) : Option R :=
  (List.range nBlocks).foldlM
    (fun sum j => (List.range 16).foldlM
      (fun sum k => do
        let term ← scalarTerm (w j) (x j) k
        return sum + (term : R) * (f16 (w j).d * f16 (x j).d)) sum) 0

/-! ## The kernel -/

/-- What the preprocessor picks. -/
inductive Build where
  | neonDotprod
  | neon
  | avx512
  | avx2
  | scalar
  deriving DecidableEq, Repr

def rowDot (build : Build) (w : Nat → NnBlockQ40) (x : Nat → NnBlockQ80) (nBlocks : Nat) :
    Option R :=
  match build with
  | .neonDotprod => rowNeon f16 4 blockDotprod w x nBlocks
  | .neon => rowNeon f16 2 blockNeon w x nBlocks
  | .avx512 => rowAvx f16 blockAvx512 w x nBlocks
  | .avx2 => rowAvx f16 blockAvx2 w x nBlocks
  | .scalar => rowScalar f16 w x nBlocks

/-- The elements of the output one thread writes; nothing when an integer overflows. -/
def matmul_Q80_Q40_F32 (build : Build) (x : Nat → NnBlockQ80) (w : Nat → NnBlockQ40)
    (n d nThreads threadIndex : Nat) : Option (List (Nat × R)) :=
  let (start, stop) := splitThreads d nThreads threadIndex
  let nBlocks := n / 32
  (List.range' start (stop - start)).mapM fun di => do
    -- the index into the weight is an `unsigned int`
    let v ← rowDot f16 build (fun j => w (u32 (di * nBlocks + j))) x nBlocks
    return (di, v)

end Rows

/-! ## The product of two blocks -/

def lowNibble (w : NnBlockQ40) : Lanes := fun i => ((w.qs (Fin.ofNat 16 i)).toNat % 16 : Nat) - 8

def highNibble (w : NnBlockQ40) : Lanes := fun i => ((w.qs (Fin.ofNat 16 i)).toNat / 16 : Nat) - 8

/-- The integer dot product of two blocks. -/
def dotBlock (w : NnBlockQ40) (x : NnBlockQ80) : Int :=
  ∑ k ∈ Finset.range 16,
    (lowNibble w k * vld1q_s8 x.qs 0 k + highNibble w k * vld1q_s8 x.qs 16 k)

theorem lowNibble_within (w : NnBlockQ40) (n : Nat) : Within 8 n (lowNibble w) := by
  intro i _
  rw [abs_le]
  simp only [lowNibble]
  omega

theorem highNibble_within (w : NnBlockQ40) (n : Nat) : Within 8 n (highNibble w) := by
  intro i _
  have hlt := (w.qs (Fin.ofNat 16 i)).toNat_lt
  rw [abs_le]
  simp only [highNibble]
  omega

theorem vld1q_s8_within (qs : Fin 32 → Int8) (offset n : Nat) :
    Within 128 n (vld1q_s8 qs offset) := by
  intro i _
  have hle := (qs (Fin.ofNat 32 (i + offset))).le_toInt
  have hlt := (qs (Fin.ofNat 32 (i + offset))).toInt_lt
  rw [abs_le]
  simp only [vld1q_s8]
  omega

/-- A byte below 128 keeps its value as a signed byte. -/
theorem toInt_toInt8_of_lt {b : UInt8} (h : b.toNat < 128) : b.toInt8.toInt = b.toNat :=
  BitVec.toInt_eq_toNat_of_lt (by simpa using (by omega : 2 * b.toNat < 256))

theorem toNat_and_low (b : UInt8) : (b &&& 0x0F).toNat = b.toNat % 16 := by
  rw [UInt8.toNat_and]
  exact Nat.and_two_pow_sub_one_eq_mod b.toNat 4

theorem toNat_shift_high (b : UInt8) : (b >>> 4).toNat = b.toNat / 16 := by
  rw [UInt8.toNat_shiftRight]
  exact Nat.shiftRight_eq_div_pow b.toNat 4

/-- The shift of a pair of bytes brings bits of the second one into the first; the mask takes them
out again. -/
theorem toNat_srli_and (a : Bytes) (i : Nat) :
    (vandq_u8 (mm_srli_epi16 a 4) m4b i).toNat = (a i).toNat / 16 := by
  have hlow := (a (i / 2 * 2)).toNat_lt
  have hhigh := (a (i / 2 * 2 + 1)).toNat_lt
  have hmod := Nat.div_add_mod i 2
  simp only [vandq_u8, m4b, toNat_and_low, mm_srli_epi16, UInt8.toNat_ofNat',
    Nat.shiftRight_eq_div_pow]
  split_ifs with heven
  · have hi : i / 2 * 2 = i := by omega
    rw [hi] at hlow hhigh ⊢
    omega
  · have hi : i / 2 * 2 + 1 = i := by omega
    rw [hi] at hhigh ⊢
    omega

theorem sub_low (w : NnBlockQ40) :
    vsubq_s8 (vreinterpretq_s8_u8 (vandq_u8 (vld1q_u8 w.qs) m4b)) (vdupq_n 8)
      = some (lowNibble w) := by
  have hlow : (fun i => vreinterpretq_s8_u8 (vandq_u8 (vld1q_u8 w.qs) m4b) i - vdupq_n 8 i)
      = lowNibble w := by
    funext i
    have hnat := toNat_and_low (w.qs (Fin.ofNat 16 i))
    simp only [vreinterpretq_s8_u8, vandq_u8, m4b, vld1q_u8, vdupq_n, lowNibble]
    rw [toInt_toInt8_of_lt (by omega), hnat]
  rw [vsubq_s8, hlow]
  exact (lowNibble_within w 16).checked (by norm_num)

theorem sub_high {v : Bytes} (w : NnBlockQ40)
    (h : ∀ i, (v i).toNat = (w.qs (Fin.ofNat 16 i)).toNat / 16) :
    vsubq_s8 (vreinterpretq_s8_u8 v) (vdupq_n 8) = some (highNibble w) := by
  have hhigh : (fun i => vreinterpretq_s8_u8 v i - vdupq_n 8 i) = highNibble w := by
    funext i
    have hlt := (w.qs (Fin.ofNat 16 i)).toNat_lt
    have hnat := h i
    simp only [vreinterpretq_s8_u8, vdupq_n, highNibble]
    rw [toInt_toInt8_of_lt (by omega), hnat]
  rw [vsubq_s8, hhigh]
  exact (highNibble_within w 16).checked (by norm_num)

/-! ## No block overflows -/

/-- The products of one half of a block. -/
theorem products_within (w : NnBlockQ40) (x : NnBlockQ80) (offset n : Nat) :
    Within 1024 n (fun i => lowNibble w i * vld1q_s8 x.qs offset i) ∧
      Within 1024 n (fun i => highNibble w i * vld1q_s8 x.qs offset i) :=
  ⟨(lowNibble_within w n).mul (vld1q_s8_within x.qs offset n),
    (highNibble_within w n).mul (vld1q_s8_within x.qs offset n)⟩

theorem Within.dot {B : Int} {v : Lanes} (h : Within B 16 v) :
    Within (4 * B) 4 fun i => ∑ k ∈ Finset.range 4, v (i * 4 + k) := by
  intro i hi
  have hle : ∀ k ∈ Finset.range 4, |v (i * 4 + k)| ≤ B := by
    intro k hk
    have hk := Finset.mem_range.1 hk
    exact h _ (by omega)
  calc |∑ k ∈ Finset.range 4, v (i * 4 + k)|
      ≤ ∑ k ∈ Finset.range 4, |v (i * 4 + k)| := Finset.abs_sum_le_sum_abs _ _
    _ ≤ ∑ _k ∈ Finset.range 4, B := Finset.sum_le_sum hle
    _ = 4 * B := by rw [Finset.sum_const, Finset.card_range, nsmul_eq_mul, Nat.cast_ofNat]

theorem blockDotprod_ok (w : NnBlockQ40) (x : NnBlockQ80) :
    ∃ p, blockDotprod w x = some p ∧ ∑ l ∈ Finset.range 4, p l = dotBlock w x := by
  have hlow := Within.dot (products_within w x 0 16).1
  have hhigh := Within.dot (products_within w x 16 16).2
  have hzero : Within 0 4 (vdupq_n 0) := fun i _ => by simp [vdupq_n]
  have hfirst := hzero.add hlow
  have hsecond := hfirst.add hhigh
  have hp : blockDotprod w x = some fun i => vdupq_n 0 i
      + ∑ k ∈ Finset.range 4, lowNibble w (i * 4 + k) * vld1q_s8 x.qs 0 (i * 4 + k)
      + ∑ k ∈ Finset.range 4, highNibble w (i * 4 + k) * vld1q_s8 x.qs 16 (i * 4 + k) := by
    simp only [blockDotprod]
    rw [sub_low, sub_high (v := vshrq_n_u8 (vld1q_u8 w.qs) 4) w fun i => toNat_shift_high _]
    simp only [Option.bind_eq_bind, Option.bind_some, vdotq_s32]
    rw [hfirst.checked (by norm_num), Option.bind_some]
    exact hsecond.checked (by norm_num)
  refine ⟨_, hp, ?_⟩
  simp only [vdupq_n, Int.zero_add, Finset.sum_add_distrib, dotBlock]
  rw [Lib.sum_blocks 4 4 fun k => lowNibble w k * vld1q_s8 x.qs 0 k,
    Lib.sum_blocks 4 4 fun k => highNibble w k * vld1q_s8 x.qs 16 k]

/-- The pairwise sums of 16 lanes, each half of them in four lanes. -/
def widened (v : Lanes) : Lanes :=
  fun i => v (i * 2) + v (i * 2 + 1) + (v (i * 2 + 8) + v (i * 2 + 1 + 8))

theorem sum_widened (v : Lanes) :
    ∑ i ∈ Finset.range 4, widened v i = ∑ k ∈ Finset.range 16, v k := by
  have hhalves := Lib.sum_halves 8 v
  have hpairs := Lib.sum_pairs 4 fun i => v i + v (i + 8)
  rw [← hhalves, ← hpairs]
  refine Finset.sum_congr rfl fun i _ => ?_
  exact add_add_add_comm _ _ _ _

theorem blockNeon_ok (w : NnBlockQ40) (x : NnBlockQ80) :
    ∃ p, blockNeon w x = some p ∧ ∑ l ∈ Finset.range 4, p l = dotBlock w x := by
  have hlow := (products_within w x 0 16).1
  have hhigh := (products_within w x 16 16).2
  have hmono : ∀ {v : Lanes}, Within 1024 16 v → Within 1024 8 v := fun h => h.mono (by omega)
  have hshift : ∀ {v : Lanes}, Within 1024 16 v → Within 1024 8 fun i => v (i + 8) :=
    fun h => h.shift
  have hwide : ∀ {v : Lanes}, Within 1024 16 v →
      Within 4096 4 fun i => v (i * 2) + v (i * 2 + 1) + (v (i * 2 + 8) + v (i * 2 + 1 + 8)) := by
    intro v h
    have hpairs := Lib.Within.pairs (n := 4) (hmono h)
    have hpairs' := Lib.Within.pairs (n := 4) (hshift h)
    exact hpairs.add hpairs'
  have hp : blockNeon w x = some fun i =>
      widened (fun i => lowNibble w i * vld1q_s8 x.qs 0 i) i
        + widened (fun i => highNibble w i * vld1q_s8 x.qs 16 i) i := by
    simp only [blockNeon]
    rw [sub_low, sub_high (v := vshrq_n_u8 (vld1q_u8 w.qs) 4) w fun i => toNat_shift_high _]
    simp only [Option.bind_eq_bind, Option.bind_some, vmull_s8, vpaddlq_s16, vaddq_s32,
      vget_high_s8]
    -- the four products, then the pairwise sums and the sums of the low and of the high nibbles
    rw [(hmono hlow).checked (by norm_num), Option.bind_some,
      (hshift hlow).checked (by norm_num), Option.bind_some,
      (hmono hhigh).checked (by norm_num), Option.bind_some,
      (hshift hhigh).checked (by norm_num), Option.bind_some,
      (Lib.Within.pairs (n := 4) (hmono hlow)).checked (by norm_num), Option.bind_some,
      (Lib.Within.pairs (n := 4) (hshift hlow)).checked (by norm_num), Option.bind_some,
      (hwide hlow).checked (by norm_num), Option.bind_some,
      (Lib.Within.pairs (n := 4) (hmono hhigh)).checked (by norm_num), Option.bind_some,
      (Lib.Within.pairs (n := 4) (hshift hhigh)).checked (by norm_num), Option.bind_some,
      (hwide hhigh).checked (by norm_num), Option.bind_some]
    exact ((hwide hlow).add (hwide hhigh)).checked (by norm_num)
  refine ⟨_, hp, ?_⟩
  rw [Finset.sum_add_distrib, sum_widened, sum_widened, ← Finset.sum_add_distrib]
  rfl

theorem mm_hadd_self {B : Int} {v : Lanes} (h : Within B 4 v) (hB : B + B < 2 ^ 31) :
    Within (B + B) 4 (fun i => v (i % 2 * 2) + v (i % 2 * 2 + 1)) ∧
      mm_hadd_epi32 v v = some fun i => v (i % 2 * 2) + v (i % 2 * 2 + 1) := by
  have hw : Within (B + B) 4 fun i => v (i % 2 * 2) + v (i % 2 * 2 + 1) := by
    intro i _
    exact (Lib.Within.pairs (n := 2) h) (i % 2) (Nat.mod_lt i Nat.two_pos)
  refine ⟨hw, ?_⟩
  simp only [mm_hadd_epi32, ite_self]
  exact hw.checked hB

theorem blockAvx2_ok (w : NnBlockQ40) (x : NnBlockQ80) :
    blockAvx2 w x = some (dotBlock w x) := by
  have hlow := (products_within w x 0 16).1
  have hhigh := (products_within w x 16 16).2
  have hsum := hlow.add hhigh
  have hones : Within 1 16 (vdupq_n 1) := fun i _ => by simp [vdupq_n]
  have hmadd := Lib.Within.pairs (n := 8) (hsum.mul hones)
  have hfold := (hmadd.mono (m := 8) (n := 4) (by omega)).add hmadd.shift
  rcases mm_hadd_self hfold (by norm_num) with ⟨hhalf, hhadd⟩
  rcases mm_hadd_self hhalf (by norm_num) with ⟨-, hhadd'⟩
  simp only [blockAvx2]
  rw [sub_low, sub_high w fun i => toNat_srli_and (vld1q_u8 w.qs) i]
  simp only [Option.bind_eq_bind, Option.bind_some, mm256_mullo_epi16, mm256_add_epi16,
    madd_epi16, vaddq_s32, mm256_extracti128_si256]
  rw [hlow.checked (by norm_num), Option.bind_some, hhigh.checked (by norm_num), Option.bind_some,
    hsum.checked (by norm_num), Option.bind_some, hmadd.checked (by norm_num), Option.bind_some,
    hfold.checked (by norm_num), Option.bind_some, hhadd, Option.bind_some, hhadd',
    Option.bind_some]
  refine congrArg some ?_
  simp only [dotBlock, Finset.sum_range_succ, Finset.sum_range_zero, vdupq_n]
  ring

theorem reduce_add_ok {v : Lanes} (h : Within 2048 16 v) :
    mm512_reduce_add_epi32 v = some (∑ i ∈ Finset.range 16, v i) := by
  have h8 := (h.mono (n := 8) (by omega)).add (h.shift (m := 8))
  have h4 := (h8.mono (n := 4) (by omega)).add (h8.shift (m := 4))
  have h2 := (h4.mono (n := 2) (by omega)).add (h4.shift (m := 2))
  have h1 := (h2.mono (n := 1) (by omega)).add (h2.shift (m := 1))
  simp only [mm512_reduce_add_epi32, Option.bind_eq_bind]
  rw [h8.checked (by norm_num), Option.bind_some, h4.checked (by norm_num), Option.bind_some,
    h2.checked (by norm_num), Option.bind_some, h1.checked (by norm_num), Option.bind_some]
  refine congrArg some ?_
  calc v 0 + v 8 + (v 4 + v 12) + (v 2 + v 10 + (v 6 + v 14))
        + (v 1 + v 9 + (v 5 + v 13) + (v 3 + v 11 + (v 7 + v 15)))
      = v 0 + v 1 + v 2 + v 3 + v 4 + v 5 + v 6 + v 7 + v 8 + v 9 + v 10 + v 11 + v 12 + v 13
        + v 14 + v 15 := by ring
    _ = ∑ i ∈ Finset.range 16, v i := by simp only [Finset.sum_range_succ, Finset.sum_range_zero,
        Int.zero_add]

theorem blockAvx512_ok (w : NnBlockQ40) (x : NnBlockQ80) :
    blockAvx512 w x = some (dotBlock w x) := by
  have hw : Within 8 32 (mm256_set_m128i (highNibble w) (lowNibble w)) := by
    intro i hi
    simp only [mm256_set_m128i]
    split_ifs with hlow
    · exact lowNibble_within w 16 i hlow
    · exact highNibble_within w 16 (i - 16) (by omega)
  have hmadd := Lib.Within.pairs (n := 16) (hw.mul (vld1q_s8_within x.qs 0 32))
  simp only [blockAvx512]
  rw [sub_low, sub_high w fun i => toNat_srli_and (vld1q_u8 w.qs) i]
  simp only [Option.bind_eq_bind, Option.bind_some, madd_epi16]
  rw [hmadd.checked (by norm_num), Option.bind_some, reduce_add_ok hmadd]
  refine congrArg some ?_
  rw [Lib.sum_pairs 16 fun k =>
    mm256_set_m128i (highNibble w) (lowNibble w) k * vld1q_s8 x.qs 0 k, ← Lib.sum_halves 16]
  refine Finset.sum_congr rfl fun k hk => ?_
  have hlow : k < 16 := Finset.mem_range.1 hk
  have hhigh : ¬k + 16 < 16 := by omega
  simp only [mm256_set_m128i, if_pos hlow, if_neg hhigh, Nat.add_sub_cancel]
  rfl

theorem scalarTerm_ok (w : NnBlockQ40) (x : NnBlockQ80) {k : Nat} (hk : k < 16) :
    scalarTerm w x k
      = some (lowNibble w k * vld1q_s8 x.qs 0 k + highNibble w k * vld1q_s8 x.qs 16 k) := by
  have hlow := (products_within w x 0 16).1
  have hhigh := (products_within w x 16 16).2
  have habs := abs_le.1 ((hlow.add hhigh) k hk)
  have hfits : Lib.Fits 32
      (lowNibble w k * vld1q_s8 x.qs 0 k + highNibble w k * vld1q_s8 x.qs 16 k) := by
    constructor
    · exact le_trans (by norm_num) habs.1
    · exact lt_of_le_of_lt habs.2 (by norm_num)
  have hl := toNat_and_low (w.qs (Fin.ofNat 16 k))
  have hh := toNat_shift_high (w.qs (Fin.ofNat 16 k))
  simp only [scalarTerm, hl, hh]
  exact if_pos hfits

/-! ## Rows -/

section Rows

variable {R : Type} [CommRing R] (f16 : UInt16 → R)

/-- The product of two blocks with their scales. -/
def blockProduct (w : NnBlockQ40) (x : NnBlockQ80) : R :=
  (dotBlock w x : R) * (f16 w.d * f16 x.d)

def sumsTotal (sumv : Sums R) : R :=
  ∑ a ∈ Finset.range 4, ∑ l ∈ Finset.range 4, sumv a l

theorem mla_ok {block : NnBlockQ40 → NnBlockQ80 → Option Lanes} {w : NnBlockQ40} {x : NnBlockQ80}
    (hblock : ∃ p, block w x = some p ∧ ∑ l ∈ Finset.range 4, p l = dotBlock w x)
    (sumv : Sums R) {a : Nat} (ha : a < 4) :
    ∃ sumv', mla f16 block w x sumv a = some sumv' ∧
      sumsTotal sumv' = sumsTotal sumv + blockProduct f16 w x := by
  rcases hblock with ⟨p, hp, hdot⟩
  refine ⟨_, by rw [mla, hp]; rfl, ?_⟩
  have hlanes : ∑ l ∈ Finset.range 4, (sumv a l + (p l : R) * (f16 w.d * f16 x.d))
      = (∑ l ∈ Finset.range 4, sumv a l) + blockProduct f16 w x := by
    rw [Finset.sum_add_distrib, ← Finset.sum_mul, ← Int.cast_sum, hdot]
    rfl
  have hrest : ∀ b ∈ (Finset.range 4).erase a, ∑ l ∈ Finset.range 4,
      Function.update sumv a (fun l => sumv a l + (p l : R) * (f16 w.d * f16 x.d)) b l
        = ∑ l ∈ Finset.range 4, sumv b l := by
    intro b hb
    rw [Function.update_of_ne (Finset.ne_of_mem_erase hb)]
  have hmem := Finset.mem_range.2 ha
  rw [sumsTotal, sumsTotal, ← Finset.add_sum_erase _ _ hmem, Finset.sum_congr rfl hrest,
    Function.update_self, hlanes,
    ← Finset.add_sum_erase _ (fun b => ∑ l ∈ Finset.range 4, sumv b l) hmem, add_right_comm]

variable (w : Nat → NnBlockQ40) (x : Nat → NnBlockQ80) (nBlocks : Nat)

/-- The product of a row of weights with the input. -/
def rowProduct : R :=
  ∑ j ∈ Finset.range nBlocks, blockProduct f16 (w j) (x j)

/-- Four bodies of the unrolled loop at most use different accumulators; the rest of the blocks go
to the first one. -/
theorem rowNeon_ok {unroll : Nat} (hunroll : unroll ≤ 4)
    {block : NnBlockQ40 → NnBlockQ80 → Option Lanes}
    (hblock : ∀ w x, ∃ p, block w x = some p ∧ ∑ l ∈ Finset.range 4, p l = dotBlock w x) :
    rowNeon f16 unroll block w x nBlocks = some (rowProduct f16 w x nBlocks) := by
  have hturn := fun sumv t => Lib.foldlM_adds
    (fun sumv a => mla f16 block (w (t * unroll + a)) (x (t * unroll + a)) sumv a)
    sumsTotal (fun a => blockProduct f16 (w (t * unroll + a)) (x (t * unroll + a)))
    (List.range unroll)
    (fun s a ha => mla_ok f16 (hblock _ _) s ((List.mem_range.1 ha).trans_le hunroll)) sumv
  rcases Lib.foldlM_adds _ sumsTotal _ (List.range (nBlocks / unroll))
    (fun sumv t _ => hturn sumv t) (fun _ _ => 0) with ⟨unrolled, hunrolled, htotal⟩
  rcases Lib.foldlM_adds (fun sumv j => mla f16 block (w j) (x j) sumv 0) sumsTotal _
    (List.range' (nBlocks / unroll * unroll) (nBlocks - nBlocks / unroll * unroll))
    (fun s j _ => mla_ok f16 (hblock _ _) s (by omega)) unrolled with ⟨sumv, hsumv, htotal'⟩
  have hzero : sumsTotal (fun _ _ => (0 : R)) = 0 := by
    simp only [sumsTotal, Finset.sum_const_zero]
  have hle : nBlocks / unroll * unroll ≤ nBlocks := Nat.div_mul_le_self nBlocks unroll
  have hblocks := Lib.sum_blocks (nBlocks / unroll) unroll fun j => blockProduct f16 (w j) (x j)
  have hsum : sumsTotal sumv = rowProduct f16 w x nBlocks := by
    rw [htotal', htotal, hzero, zero_add, List.range'_eq_map_range, List.map_map]
    calc ∑ t ∈ Finset.range (nBlocks / unroll), ∑ a ∈ Finset.range unroll,
            blockProduct f16 (w (t * unroll + a)) (x (t * unroll + a))
          + ∑ i ∈ Finset.range (nBlocks - nBlocks / unroll * unroll),
            blockProduct f16 (w (nBlocks / unroll * unroll + i)) (x (nBlocks / unroll * unroll + i))
        = ∑ j ∈ Finset.range (nBlocks / unroll * unroll
            + (nBlocks - nBlocks / unroll * unroll)), blockProduct f16 (w j) (x j) := by
          rw [hblocks, Finset.sum_range_add]
      _ = rowProduct f16 w x nBlocks := by rw [Nat.add_sub_cancel' hle, rowProduct]
  rw [rowNeon, hunrolled, ← hsum]
  simp only [Option.bind_eq_bind, Option.bind_some, hsumv]
  rfl

theorem rowAvx_ok {block : NnBlockQ40 → NnBlockQ80 → Option Int}
    (hblock : ∀ w x, block w x = some (dotBlock w x)) :
    rowAvx f16 block w x nBlocks = some (rowProduct f16 w x nBlocks) := by
  rcases Lib.foldlM_adds (fun (sum : R) j => do
      let block_sum ← block (w j) (x j)
      return sum + (block_sum : R) * (f16 (w j).d * f16 (x j).d)) id
    (fun j => blockProduct f16 (w j) (x j)) (List.range nBlocks)
    (fun s j _ => ⟨_, by rw [hblock]; rfl, rfl⟩) 0 with ⟨sum, hsum, htotal⟩
  rw [rowAvx, hsum]
  exact congrArg some (htotal.trans (zero_add _))

theorem rowScalar_ok : rowScalar f16 w x nBlocks = some (rowProduct f16 w x nBlocks) := by
  have hblock := fun (sum : R) j => Lib.foldlM_adds (fun (sum : R) k => do
      let term ← scalarTerm (w j) (x j) k
      return sum + (term : R) * (f16 (w j).d * f16 (x j).d)) id
    (fun k => ((lowNibble (w j) k * vld1q_s8 (x j).qs 0 k
      + highNibble (w j) k * vld1q_s8 (x j).qs 16 k : Int) : R) * (f16 (w j).d * f16 (x j).d))
    (List.range 16)
    (fun s k hk => ⟨_, by rw [scalarTerm_ok _ _ (List.mem_range.1 hk)]; rfl, rfl⟩) sum
  have hterm : ∀ j, ((List.range 16).map fun k => ((lowNibble (w j) k * vld1q_s8 (x j).qs 0 k
      + highNibble (w j) k * vld1q_s8 (x j).qs 16 k : Int) : R) * (f16 (w j).d * f16 (x j).d)).sum
        = blockProduct f16 (w j) (x j) := by
    intro j
    rw [blockProduct, dotBlock, Int.cast_sum, Finset.sum_mul]
    rfl
  rcases Lib.foldlM_adds _ id (fun j => blockProduct f16 (w j) (x j)) (List.range nBlocks)
    (fun s j _ => by simpa only [hterm] using hblock s j) 0 with ⟨sum, hsum, htotal⟩
  rw [rowScalar, hsum]
  exact congrArg some (htotal.trans (zero_add _))

theorem rowDot_ok (build : Build) :
    rowDot f16 build w x nBlocks = some (rowProduct f16 w x nBlocks) := by
  cases build with
  | neonDotprod => exact rowNeon_ok f16 w x nBlocks (by omega) blockDotprod_ok
  | neon => exact rowNeon_ok f16 w x nBlocks (by omega) blockNeon_ok
  | avx512 => exact rowAvx_ok f16 w x nBlocks blockAvx512_ok
  | avx2 => exact rowAvx_ok f16 w x nBlocks blockAvx2_ok
  | scalar => exact rowScalar_ok f16 w x nBlocks

/-! ## All threads -/

theorem matmul_thread (build : Build) (n d nThreads threadIndex : Nat) :
    matmul_Q80_Q40_F32 f16 build x w n d nThreads threadIndex
      = some ((List.range' (Lib.blockStart d nThreads threadIndex)
          (Lib.blockCount d nThreads threadIndex)).map fun di =>
            (di, rowProduct f16 (fun j => w (u32 (di * (n / 32) + j))) x (n / 32))) := by
  simp only [matmul_Q80_Q40_F32, splitThreads_eq, Nat.add_sub_cancel_left]
  refine Lib.mapM_some fun di _ => ?_
  rw [rowDot_ok]
  rfl

theorem matmul_writes (build : Build) (n d : Nat) {nThreads : Nat} (ht : 1 ≤ nThreads) :
    ((List.range nThreads).mapM fun threadIndex =>
        matmul_Q80_Q40_F32 f16 build x w n d nThreads threadIndex).map List.flatten
      = some ((List.range d).map fun di =>
          (di, rowProduct f16 (fun j => w (u32 (di * (n / 32) + j))) x (n / 32))) := by
  rw [Lib.mapM_some fun t _ => matmul_thread f16 w x build n d nThreads t, Option.map_some,
    ← List.flatMap_def, ← List.map_flatMap, Lib.flatMap_blockStart ht]

end Rows

/-- Each row is written once, with the sum over its blocks of the scales times the integer dot
product, and no integer overflows. -/
def WritesProduct (build : Build) (f16 : UInt16 → Rat) (x : Nat → NnBlockQ80)
    (w : Nat → NnBlockQ40) (n d nThreads : Nat) : Prop :=
  ((List.range nThreads).mapM fun threadIndex =>
      matmul_Q80_Q40_F32 f16 build x w n d nThreads threadIndex).map List.flatten
    = some ((List.range d).map fun di =>
        (di, ∑ j ∈ Finset.range (n / 32),
          (dotBlock (w (di * (n / 32) + j)) (x j) : Rat)
            * (f16 (w (di * (n / 32) + j)).d * f16 (x j).d)))

theorem writesProduct_of_le {n d nThreads : Nat} (ht : 1 ≤ nThreads)
    (hfits : d * (n / 32) ≤ 2 ^ 32) (build : Build) (f16 : UInt16 → Rat) (x : Nat → NnBlockQ80)
    (w : Nat → NnBlockQ40) : WritesProduct build f16 x w n d nThreads := by
  rw [WritesProduct, matmul_writes f16 w x build n d ht]
  refine congrArg some (List.map_congr_left fun di hdi => ?_)
  refine congrArg (Prod.mk di) (Finset.sum_congr rfl fun j hj => ?_)
  have hlt : di * (n / 32) + j < d * (n / 32) :=
    calc di * (n / 32) + j < di * (n / 32) + n / 32 :=
          Nat.add_lt_add_left (Finset.mem_range.1 hj) _
      _ = (di + 1) * (n / 32) := (Nat.succ_mul _ _).symm
      _ ≤ d * (n / 32) := Nat.mul_le_mul_right _ (List.mem_range.1 hdi)
  have hu32 : u32 (di * (n / 32) + j) = di * (n / 32) + j := Nat.mod_eq_of_lt (hlt.trans_le hfits)
  simp only [hu32]
  rfl

/-- A weight with a single block that is not zero, the one with the number 2^32. -/
def farWeight (i : Nat) : NnBlockQ40 :=
  ⟨0, fun _ => if i = 2 ^ 32 then 0x89 else 0x88⟩

def oneInput (_ : Nat) : NnBlockQ80 :=
  ⟨0, fun k => if k = 0 then 1 else 0⟩

theorem dotBlock_farWeight (i j : Nat) :
    dotBlock (farWeight i) (oneInput j) = if i = 2 ^ 32 then 1 else 0 := by
  have hone : dotBlock ⟨0, fun _ => 0x89⟩ (oneInput 0) = 1 := by decide +kernel
  have hzero : dotBlock ⟨0, fun _ => 0x88⟩ (oneInput 0) = 0 := by decide +kernel
  by_cases h : i = 2 ^ 32
  · rw [if_pos h, farWeight, if_pos h]
    exact hone
  · rw [if_neg h, farWeight, if_neg h]
    exact hzero

/-- Row `2^32 / nBlocks` of that weight is not zero, but an index below 2^32 never reaches it. -/
theorem not_writesProduct {n d nThreads : Nat} (ht : 1 ≤ nThreads)
    (hlarge : 2 ^ 32 < d * (n / 32)) (build : Build) :
    ¬WritesProduct build (fun _ => 1) oneInput farWeight n d nThreads := by
  intro h
  rw [WritesProduct, matmul_writes _ farWeight oneInput build n d ht] at h
  generalize n / 32 = nBlocks at h hlarge
  have hpos : 0 < nBlocks := Nat.pos_of_ne_zero fun h0 => by simp [h0] at hlarge
  have hrow : 2 ^ 32 / nBlocks < d := (Nat.div_lt_iff_lt_mul hpos).2 hlarge
  have hblock : 2 ^ 32 % nBlocks < nBlocks := Nat.mod_lt _ hpos
  have hindex : 2 ^ 32 / nBlocks * nBlocks + 2 ^ 32 % nBlocks = 2 ^ 32 := Nat.div_add_mod' _ _
  have heq := List.map_inj_left.1 (Option.some.inj h) _ (List.mem_range.2 hrow)
  have hvalue := (Prod.mk.inj heq).2
  have hzero : rowProduct (fun _ => (1 : Rat))
      (fun j => farWeight (u32 (2 ^ 32 / nBlocks * nBlocks + j))) oneInput nBlocks = 0 := by
    refine Finset.sum_eq_zero fun j _ => ?_
    have hne : u32 (2 ^ 32 / nBlocks * nBlocks + j) ≠ 2 ^ 32 := (Nat.mod_lt _ (by norm_num)).ne
    rw [blockProduct, dotBlock_farWeight, if_neg hne, Int.cast_zero, zero_mul]
  have hone : ∑ j ∈ Finset.range nBlocks,
      (dotBlock (farWeight (2 ^ 32 / nBlocks * nBlocks + j)) (oneInput j) : Rat) * (1 * 1) = 1 := by
    rw [Finset.sum_eq_single (2 ^ 32 % nBlocks)]
    · rw [dotBlock_farWeight, if_pos hindex, Int.cast_one, one_mul, one_mul]
    · intro j _ hne
      have hj : 2 ^ 32 / nBlocks * nBlocks + j ≠ 2 ^ 32 := by omega
      rw [dotBlock_farWeight, if_neg hj, Int.cast_zero, zero_mul]
    · intro hmem
      exact absurd (Finset.mem_range.2 hblock) hmem
  rw [hzero, hone] at hvalue
  exact zero_ne_one hvalue

/-- All builds give the product of every weight exactly when the number of its blocks is an
`unsigned int`, up to the last index. -/
theorem matmul_builds_agree_iff (n d nThreads : Nat) (ht : 1 ≤ nThreads) :
    (∀ build f16 x w, WritesProduct build f16 x w n d nThreads) ↔ d * (n / 32) ≤ 2 ^ 32 := by
  constructor
  · intro h
    by_contra hlarge
    exact not_writesProduct ht (Nat.lt_of_not_le hlarge) .scalar (h .scalar _ _ _)
  · intro hfits build f16 x w
    exact writesProduct_of_le ht hfits build f16 x w

/-- All builds write the product of every weight that the index of a block can address, each row
once and without an overflow. -/
theorem matmul_builds_agree {n d nThreads : Nat} (ht : 1 ≤ nThreads)
    (hfits : d * (n / 32) ≤ 2 ^ 32) :
    ∀ build f16 x w, WritesProduct build f16 x w n d nThreads :=
  (matmul_builds_agree_iff n d nThreads ht).2 hfits

theorem matmul_builds_agree_three :
    5 * (96 / 32) ≤ 2 ^ 32 ∧ ∀ build f16 x w, WritesProduct build f16 x w 96 5 3 :=
  have hfits : 5 * (96 / 32) ≤ 2 ^ 32 := by decide
  ⟨hfits, matmul_builds_agree (by decide) hfits⟩

/-- A weight of 65537 rows of 65536 blocks. -/
theorem matmul_index_wraps :
    ¬∀ n d nThreads, 32 ∣ n → n < 2 ^ 32 → d < 2 ^ 32 → 1 ≤ nThreads →
      ∀ build f16 x w, WritesProduct build f16 x w n d nThreads := by
  intro h
  have hlarge : 2 ^ 32 < 65537 * (2097152 / 32) := by norm_num
  exact not_writesProduct (Nat.le_refl 1) hlarge .neonDotprod
    (h 2097152 65537 1 (by norm_num) (by norm_num) (by norm_num) (Nat.le_refl 1) _ _ _ _)

end Kernels
end PrefillOpt
