import PrefillOpt.Kernels.QuantizeQ80

/-!
# Kernels.QuantizeQ40 — error bounds of the two block formats

`quantizeF32toQ40` and `dequantizeQ40toF32` of `nn-quants.cpp`, with exact scales.  The scale has
the sign opposite to that of the first entry of largest magnitude, so that this entry gets the
code 0, the only one that stands for a multiple of 8.  An entry as large of the other sign would
need the code 16 and is clamped.
-/

namespace PrefillOpt
namespace Quants

open Lib

section Defs

variable {R : Type} [Field R] [LinearOrder R] [FloorRing R]

/-- Two codes to a byte. -/
structure NnBlockQ40 (R : Type) where
  d : R
  qs : Nat → UInt8

/-- `amax` and `max` after the first entries. -/
def largest (n : Nat) (x : Nat → R) : R × R :=
  (List.range n).foldl (fun (amax, max) j => if amax < |x j| then (|x j|, x j) else (amax, max))
    (0, 0)

def scaleQ40 (x : Nat → R) : R :=
  (largest 32 x).2 / -8

/-- What is rounded to a code. -/
def scaledQ40 (x : Nat → R) (j : Nat) : R :=
  x j * if scaleQ40 x ≠ 0 then 1 / scaleQ40 x else 0

/-- By way of `int8_t`, before the clamp. -/
def rawCode (x0 : R) : UInt8 :=
  (Int8.ofInt (truncate (x0 + halfPast R 8))).toUInt8

def clampCode (xi : UInt8) : UInt8 :=
  if 15 < xi then 15 else xi

def quantizeF32toQ40 (x : Nat → R) : NnBlockQ40 R where
  d := scaleQ40 x
  qs j :=
    let xi0 := clampCode (rawCode (scaledQ40 x j))
    let xi1 := clampCode (rawCode (scaledQ40 x (16 + j)))
    xi0 ||| (xi1 <<< 4)

/-- The code of an entry. -/
def NnBlockQ40.code (b : NnBlockQ40 R) (j : Nat) : UInt8 :=
  if j < 16 then b.qs j &&& 0x0F else b.qs (j - 16) >>> 4

def dequantizeQ40toF32 (b : NnBlockQ40 R) : Nat → R :=
  fun j => (((b.code j).toNat : Int) - 8 : Int) * b.d

end Defs

/-! ## The first entry of largest magnitude -/

section Largest

variable {R : Type} [Field R] [LinearOrder R] {x : Nat → R}

theorem largest_succ (n : Nat) (x : Nat → R) :
    largest (n + 1) x =
      if (largest n x).1 < |x n| then (|x n|, x n) else largest n x := by
  rw [largest, List.range_succ, List.foldl_append, List.foldl_cons, List.foldl_nil]
  rfl

theorem exists_first_largest (x : Nat → R) :
    ∃ k < 32, (∀ j < 32, |x j| ≤ |x k|) ∧ ∀ j < k, |x j| < |x k| := by
  classical
  have hex : ∃ k, k < 32 ∧ blockMax x = |x k| := exists_blockMax x
  rcases Nat.find_spec hex with ⟨hk, heq⟩
  refine ⟨Nat.find hex, hk, fun j hj => heq ▸ le_blockMax hj, ?_⟩
  intro j hj
  have hj32 : j < 32 := hj.trans hk
  apply lt_of_le_of_ne
  · exact heq ▸ le_blockMax hj32
  · intro hsame
    exact Nat.find_min hex hj ⟨hj32, heq.trans hsame.symm⟩

variable [IsStrictOrderedRing R]

theorem largest_spec (n : Nat) (x : Nat → R) :
    (largest n x).1 = |(largest n x).2| ∧ (∀ j < n, |x j| ≤ (largest n x).1) ∧
      ((largest n x).2 = 0 ∨
        ∃ k < n, (largest n x).2 = x k ∧ ∀ j < k, |x j| < |x k|) := by
  induction n with
  | zero => exact ⟨abs_zero.symm, fun j hj => absurd hj (Nat.not_lt_zero j), .inl rfl⟩
  | succ n ih =>
      rcases ih with ⟨habs, hle, hfrom⟩
      rw [largest_succ]
      split_ifs with hlt
      · -- a new largest entry
        refine ⟨rfl, ?_, .inr ⟨n, Nat.lt_succ_self n, rfl, ?_⟩⟩
        · intro j hj
          rcases Nat.lt_succ_iff_lt_or_eq.1 hj with hj | rfl
          · exact (hle j hj).trans hlt.le
          · exact le_refl _
        · exact fun j hj => (hle j hj).trans_lt hlt
      · refine ⟨habs, ?_, ?_⟩
        · intro j hj
          rcases Nat.lt_succ_iff_lt_or_eq.1 hj with hj | rfl
          · exact hle j hj
          · exact not_lt.1 hlt
        · rcases hfrom with hzero | ⟨k, hk, heq, hfirst⟩
          · exact .inl hzero
          · exact .inr ⟨k, Nat.lt_succ_of_lt hk, heq, hfirst⟩

/-- The loop keeps the first of the entries of largest magnitude. -/
theorem largest_eq {n k : Nat} (hk : k < n) (hmax : ∀ j < n, |x j| ≤ |x k|)
    (hfirst : ∀ j < k, |x j| < |x k|) : (largest n x).2 = x k := by
  rcases largest_spec n x with ⟨habs, hle, hfrom⟩
  have hge : |x k| ≤ |(largest n x).2| := habs ▸ hle k hk
  rcases hfrom with hzero | ⟨i, hi, heq, hfirst'⟩
  · rw [hzero, abs_zero, abs_nonpos_iff] at hge
    rw [hzero, hge]
  · rw [heq] at hge ⊢
    rcases Nat.lt_trichotomy i k with hlt | rfl | hlt
    · exact absurd (hfirst i hlt) (not_lt.2 hge)
    · rfl
    · exact absurd (hfirst' k hlt) (not_lt.2 (hmax i hi))

/-! ## The scaled values -/

theorem scaleQ40_eq {k : Nat} (hk : k < 32) (hmax : ∀ j < 32, |x j| ≤ |x k|)
    (hfirst : ∀ j < k, |x j| < |x k|) : scaleQ40 x = x k / -8 := by
  rw [scaleQ40, largest_eq hk hmax hfirst]

theorem abs_le_scaleQ40 {j : Nat} (hj : j < 32) : |x j| ≤ 8 * |scaleQ40 x| := by
  rcases exists_first_largest x with ⟨k, hk, hmax, hfirst⟩
  rw [scaleQ40_eq hk hmax hfirst, abs_div, abs_neg, abs_of_nonneg (by norm_num : (0 : R) ≤ 8)]
  linarith [hmax j hj]

theorem scaledQ40_mul {j : Nat} (hj : j < 32) : scaledQ40 x j * scaleQ40 x = x j := by
  by_cases hzero : scaleQ40 x = 0
  · have hle := abs_le_scaleQ40 (x := x) hj
    rw [hzero, abs_zero, mul_zero, abs_nonpos_iff] at hle
    rw [hzero, mul_zero, hle]
  · rw [scaledQ40, if_pos hzero]
    field_simp

theorem abs_scaledQ40_le {j : Nat} (hj : j < 32) : |scaledQ40 x j| ≤ 8 := by
  by_cases hzero : scaleQ40 x = 0
  · rw [scaledQ40, if_neg (not_not.2 hzero), mul_zero, abs_zero]
    norm_num
  · have hle := abs_le_scaleQ40 (x := x) hj
    rw [← scaledQ40_mul (x := x) hj, abs_mul] at hle
    exact le_of_mul_le_mul_right hle (abs_pos.2 hzero)

end Largest

/-! ## Codes -/

section Codes

variable {R : Type} [Field R] [LinearOrder R] [FloorRing R] {x : Nat → R}

theorem clampCode_le (xi : UInt8) : clampCode xi ≤ 15 := by
  rw [clampCode]
  split_ifs with h
  · exact UInt8.le_refl 15
  · exact UInt8.not_lt.1 h

/-- The two halves of a byte come back. -/
theorem nibbles {xi0 xi1 : UInt8} (h0 : xi0 ≤ 15) (h1 : xi1 ≤ 15) :
    (xi0 ||| (xi1 <<< 4)) &&& 0x0F = xi0 ∧ (xi0 ||| (xi1 <<< 4)) >>> 4 = xi1 := by
  have hsmall : ∀ a b : Fin 16,
      (UInt8.ofNat a ||| (UInt8.ofNat b <<< 4)) &&& 0x0F = UInt8.ofNat a ∧
        (UInt8.ofNat a ||| (UInt8.ofNat b <<< 4)) >>> 4 = UInt8.ofNat b := by decide +kernel
  have hlt : ∀ xi : UInt8, xi ≤ 15 → xi.toNat < 16 := fun xi h =>
    Nat.lt_succ_of_le (UInt8.le_iff_toNat_le.1 h)
  have hpair := hsmall ⟨xi0.toNat, hlt xi0 h0⟩ ⟨xi1.toNat, hlt xi1 h1⟩
  simpa only [UInt8.ofNat_toNat] using hpair

theorem code_quantizeF32toQ40 {j : Nat} (hj : j < 32) :
    (quantizeF32toQ40 x).code j = clampCode (rawCode (scaledQ40 x j)) := by
  rw [NnBlockQ40.code]
  split_ifs with hlow
  · exact (nibbles (clampCode_le _) (clampCode_le _)).1
  · have hj' : 16 + (j - 16) = j := by omega
    have hsecond := (nibbles (clampCode_le (rawCode (scaledQ40 x (j - 16))))
      (clampCode_le (rawCode (scaledQ40 x (16 + (j - 16)))))).2
    rw [hj'] at hsecond
    rw [quantizeF32toQ40]
    simpa only [hj'] using hsecond

theorem dequantizeQ40toF32_eq {j : Nat} (hj : j < 32) :
    dequantizeQ40toF32 (quantizeF32toQ40 x) j =
      ((((clampCode (rawCode (scaledQ40 x j))).toNat : Int) - 8 : Int) : R) * scaleQ40 x := by
  rw [dequantizeQ40toF32, code_quantizeF32toQ40 hj]
  rfl

variable [IsStrictOrderedRing R]

/-- Between 0 and 16 no conversion loses anything. -/
theorem toNat_rawCode {s : R} (h : |s| ≤ 8) : ((rawCode s).toNat : Int) = ⌊s + 17 / 2⌋ := by
  have hbounds := abs_le.1 h
  have hnonneg : 0 ≤ s + 17 / 2 := by linarith [hbounds.1]
  have hlow : 0 ≤ ⌊s + 17 / 2⌋ := Int.floor_nonneg.2 hnonneg
  have hhigh : ⌊s + 17 / 2⌋ < 17 := by
    rw [Int.floor_lt]
    push_cast
    linarith [hbounds.2]
  have hcast : ∀ z : Int, 0 ≤ z → z < 17 → ((Int8.ofInt z).toUInt8.toNat : Int) = z := by
    intro z h0 h17
    interval_cases z <;> rfl
  have hhalf : halfPast R 8 = 17 / 2 := by
    rw [halfPast]
    norm_num
  rw [rawCode, hhalf, truncate_of_nonneg hnonneg]
  exact hcast _ hlow hhigh

/-- The error is the distance of the code from the scaled value. -/
theorem error_eq {j : Nat} (hj : j < 32) :
    |dequantizeQ40toF32 (quantizeF32toQ40 x) j - x j| =
      |((((clampCode (rawCode (scaledQ40 x j))).toNat : Int) - 8 : Int) : R) - scaledQ40 x j| *
        |scaleQ40 x| := by
  rw [dequantizeQ40toF32_eq hj, ← abs_mul, sub_mul, scaledQ40_mul hj]

theorem clampCode_of_le {xi : UInt8} (h : xi ≤ 15) : clampCode xi = xi :=
  if_neg (UInt8.not_lt.2 h)

theorem error_le_half {j : Nat} (hj : j < 32) (hcode : rawCode (scaledQ40 x j) ≤ 15) :
    |dequantizeQ40toF32 (quantizeF32toQ40 x) j - x j| ≤ |scaleQ40 x| / 2 := by
  have hraw := toNat_rawCode (abs_scaledQ40_le (x := x) hj)
  have hle := Int.floor_le (scaledQ40 x j + 17 / 2)
  have hlt := Int.lt_floor_add_one (scaledQ40 x j + 17 / 2)
  have hclose : |((⌊scaledQ40 x j + 17 / 2⌋ - 8 : Int) : R) - scaledQ40 x j| ≤ 1 / 2 := by
    push_cast
    rw [abs_le]
    constructor <;> linarith
  rw [error_eq hj, clampCode_of_le hcode, hraw]
  calc |((⌊scaledQ40 x j + 17 / 2⌋ - 8 : Int) : R) - scaledQ40 x j| * |scaleQ40 x|
      ≤ 1 / 2 * |scaleQ40 x| := mul_le_mul_of_nonneg_right hclose (abs_nonneg _)
    _ = |scaleQ40 x| / 2 := by ring

/-- The clamp takes the code 16 to 15, up to a whole step from the value. -/
theorem error_le_step {j : Nat} (hj : j < 32) (hcode : 15 < rawCode (scaledQ40 x j)) :
    |dequantizeQ40toF32 (quantizeF32toQ40 x) j - x j| ≤ |scaleQ40 x| := by
  have hbounds := abs_le.1 (abs_scaledQ40_le (x := x) hj)
  have hraw := toNat_rawCode (abs_scaledQ40_le (x := x) hj)
  have hfloor : (16 : Int) ≤ ⌊scaledQ40 x j + 17 / 2⌋ := by
    have hnat : 15 < (rawCode (scaledQ40 x j)).toNat := UInt8.lt_iff_toNat_lt.1 hcode
    omega
  have hlarge : (16 : R) ≤ scaledQ40 x j + 17 / 2 := by exact_mod_cast Int.le_floor.1 hfloor
  have hclamp : ((clampCode (rawCode (scaledQ40 x j))).toNat : Int) - 8 = 7 := by
    rw [clampCode, if_pos hcode]
    rfl
  have hclose : |((7 : Int) : R) - scaledQ40 x j| ≤ 1 := by
    push_cast
    rw [abs_le]
    constructor <;> linarith [hbounds.2]
  rw [error_eq hj, hclamp]
  calc |((7 : Int) : R) - scaledQ40 x j| * |scaleQ40 x|
      ≤ 1 * |scaleQ40 x| := mul_le_mul_of_nonneg_right hclose (abs_nonneg _)
    _ = |scaleQ40 x| := one_mul _

theorem dequantize_largest {k : Nat} (hk : k < 32) (hmax : ∀ j < 32, |x j| ≤ |x k|)
    (hfirst : ∀ j < k, |x j| < |x k|) : dequantizeQ40toF32 (quantizeF32toQ40 x) k = x k := by
  have hscale := scaleQ40_eq hk hmax hfirst
  by_cases hzero : scaleQ40 x = 0
  · have hx : x k = 0 := by
      rw [hzero] at hscale
      linarith
    rw [dequantizeQ40toF32_eq hk, hzero, mul_zero, hx]
  · have hscaled : scaledQ40 x k = -8 := by
      have hmul := scaledQ40_mul (x := x) hk
      apply mul_right_cancel₀ hzero
      rw [hmul, hscale]
      ring
    have hfloor : ⌊(-8 + 17 / 2 : R)⌋ = 0 := by
      rw [Int.floor_eq_iff]
      norm_num
    have hraw : rawCode (scaledQ40 x k) = 0 := by
      have hnat := toNat_rawCode (abs_scaledQ40_le (x := x) hk)
      rw [hscaled, hfloor] at hnat
      rw [hscaled]
      exact UInt8.toNat_inj.1 (Int.natCast_eq_zero.1 hnat)
    rw [dequantizeQ40toF32_eq hk, hraw, hscale]
    have hcode : ((clampCode 0).toNat : Int) - 8 = -8 := rfl
    rw [hcode]
    push_cast
    ring

/-! ## Quantising again -/

/-- The scale of what has been dequantised is the old one: only the code 0 is a distance of 8
steps from zero. -/
theorem scaleQ40_dequantize (x : Nat → R) :
    scaleQ40 (dequantizeQ40toF32 (quantizeF32toQ40 x)) = scaleQ40 x := by
  rcases exists_first_largest x with ⟨i, hi, hmaxi, hfirsti⟩
  rcases exists_first_largest (dequantizeQ40toF32 (quantizeF32toQ40 x)) with ⟨k, hk, hmax, hfirst⟩
  have hle := hmax i hi
  rw [dequantize_largest hi hmaxi hfirsti] at hle
  have hxi : x i = -8 * scaleQ40 x := by
    rw [scaleQ40_eq hi hmaxi hfirsti]
    ring
  rw [scaleQ40_eq hk hmax hfirst, dequantizeQ40toF32_eq hk]
  rw [hxi, dequantizeQ40toF32_eq hk, abs_mul, abs_mul, abs_neg,
    abs_of_nonneg (by norm_num : (0 : R) ≤ 8)] at hle
  by_cases hzero : scaleQ40 x = 0
  · rw [hzero, mul_zero, zero_div]
  · have hcode : (clampCode (rawCode (scaledQ40 x k))).toNat ≤ 15 :=
      UInt8.le_iff_toNat_le.1 (clampCode_le _)
    have hlarge : (8 : R) ≤
        |((((clampCode (rawCode (scaledQ40 x k))).toNat : Int) - 8 : Int) : R)| :=
      le_of_mul_le_mul_right hle (abs_pos.2 hzero)
    have hlarge' : (8 : Int) ≤ |((clampCode (rawCode (scaledQ40 x k))).toNat : Int) - 8| := by
      exact_mod_cast hlarge
    have hfull : ((clampCode (rawCode (scaledQ40 x k))).toNat : Int) - 8 = -8 := by
      rcases le_abs'.1 hlarge' with h | h <;> omega
    rw [hfull]
    push_cast
    ring

theorem dequantizeQ40_idempotent {j : Nat} (hj : j < 32) :
    dequantizeQ40toF32 (quantizeF32toQ40 (dequantizeQ40toF32 (quantizeF32toQ40 x))) j =
      dequantizeQ40toF32 (quantizeF32toQ40 x) j := by
  let y := dequantizeQ40toF32 (quantizeF32toQ40 x)
  let c := clampCode (rawCode (scaledQ40 x j))
  have hscale : scaleQ40 y = scaleQ40 x := scaleQ40_dequantize x
  have hy : y j = (((c.toNat : Int) - 8 : Int) : R) * scaleQ40 x := dequantizeQ40toF32_eq hj
  change dequantizeQ40toF32 (quantizeF32toQ40 y) j = y j
  rw [dequantizeQ40toF32_eq hj, hscale]
  by_cases hzero : scaleQ40 x = 0
  · rw [hy, hzero, mul_zero, mul_zero]
  · have hscaled : scaledQ40 y j = (((c.toNat : Int) - 8 : Int) : R) := by
      have hmul := scaledQ40_mul (x := y) hj
      rw [hscale, hy] at hmul
      exact mul_right_cancel₀ hzero hmul
    have hfloor : ⌊(((c.toNat : Int) - 8 : Int) : R) + 17 / 2⌋ = c.toNat := by
      rw [Int.floor_eq_iff]
      push_cast
      constructor <;> linarith
    have hraw : rawCode (scaledQ40 y j) = c := by
      have hnat := toNat_rawCode (abs_scaledQ40_le (x := y) hj)
      rw [hscaled, hfloor] at hnat
      rw [hscaled]
      exact UInt8.toNat_inj.1 (Int.natCast_inj.1 hnat)
    rw [hraw, clampCode_of_le (clampCode_le _), hy]

end Codes

/-! ## The scalar Q80 path -/

section Scalar

variable {R : Type} [Field R] [LinearOrder R] [IsStrictOrderedRing R] [FloorRing R] {x : Nat → R}

theorem scaled_mul {j : Nat} (hj : j < 32) : scaled x j * (blockMax x / 127) = x j := by
  by_cases hzero : blockMax x = 0
  · have hle := le_blockMax (x := x) hj
    rw [hzero, abs_nonpos_iff] at hle
    rw [hzero, zero_div, mul_zero, hle]
  · rw [scaled_of_ne hzero]
    field_simp

theorem dequantizeQ80toF32_eq {j : Nat} (hj : j < 32) :
    dequantizeQ80toF32 (quantizeF32toQ80 .scalar x) j =
      (roundAway (scaled x j) : R) * (blockMax x / 127) := by
  rw [dequantizeQ80toF32, quantizeF32toQ80_qs .scalar hj, quantizeF32toQ80_d]
  rfl

theorem errorQ80_le_half {j : Nat} (hj : j < 32) :
    |dequantizeQ80toF32 (quantizeF32toQ80 .scalar x) j - x j| ≤ blockMax x / 127 / 2 := by
  have hd : 0 ≤ blockMax x / 127 := div_nonneg (blockMax_nonneg x) (by norm_num)
  have herror : dequantizeQ80toF32 (quantizeF32toQ80 .scalar x) j - x j =
      ((roundAway (scaled x j) : R) - scaled x j) * (blockMax x / 127) := by
    rw [dequantizeQ80toF32_eq hj, sub_mul, scaled_mul hj]
  rw [herror, abs_mul, abs_of_nonneg hd]
  calc |(roundAway (scaled x j) : R) - scaled x j| * (blockMax x / 127)
      ≤ 1 / 2 * (blockMax x / 127) :=
        mul_le_mul_of_nonneg_right (abs_roundAway_sub_le _) hd
    _ = blockMax x / 127 / 2 := by ring

/-- The entry of largest magnitude is 127 steps from zero. -/
theorem blockMax_dequantize (x : Nat → R) :
    blockMax (dequantizeQ80toF32 (quantizeF32toQ80 .scalar x)) = blockMax x := by
  have hd : 0 ≤ blockMax x / 127 := div_nonneg (blockMax_nonneg x) (by norm_num)
  have hmul : (127 : R) * (blockMax x / 127) = blockMax x := by ring
  symm
  apply eq_blockMax
  · intro j hj
    have hcode : |(roundAway (scaled x j) : R)| ≤ 127 := by
      have hint := abs_roundAway_le (n := 127) (by exact_mod_cast abs_scaled_le (x := x) hj)
      exact_mod_cast hint
    rw [dequantizeQ80toF32_eq hj, abs_mul, abs_of_nonneg hd]
    exact (mul_le_mul_of_nonneg_right hcode hd).trans hmul.le
  · rcases exists_blockMax x with ⟨k, hk, hmax⟩
    refine ⟨k, hk, ?_⟩
    have hexact : |(roundAway (scaled x k) : R)| * (blockMax x / 127) = blockMax x := by
      by_cases hzero : blockMax x = 0
      · rw [hzero, zero_div, mul_zero]
      · have hcode : |(roundAway (scaled x k) : R)| = 127 := by
          rw [scaled_of_ne hzero]
          rcases abs_choice (x k) with hsign | hsign
          · have hval : 127 * x k / blockMax x = ((127 : Int) : R) := by
              rw [div_eq_iff hzero, hmax, hsign]
              push_cast
              ring
            rw [hval, roundAway_intCast]
            norm_num
          · have hval : 127 * x k / blockMax x = ((-127 : Int) : R) := by
              rw [div_eq_iff hzero, hmax, hsign]
              push_cast
              ring
            rw [hval, roundAway_intCast]
            norm_num
        rw [hcode, hmul]
    rw [dequantizeQ80toF32_eq hk, abs_mul, abs_of_nonneg hd, hexact]

theorem dequantizeQ80_idempotent {j : Nat} (hj : j < 32) :
    dequantizeQ80toF32 (quantizeF32toQ80 .scalar
        (dequantizeQ80toF32 (quantizeF32toQ80 .scalar x))) j =
      dequantizeQ80toF32 (quantizeF32toQ80 .scalar x) j := by
  let y := dequantizeQ80toF32 (quantizeF32toQ80 .scalar x)
  have hy : y j = (roundAway (scaled x j) : R) * (blockMax x / 127) := dequantizeQ80toF32_eq hj
  have hmax : blockMax y = blockMax x := blockMax_dequantize x
  change dequantizeQ80toF32 (quantizeF32toQ80 .scalar y) j = y j
  rw [dequantizeQ80toF32_eq hj, hmax]
  by_cases hzero : blockMax x = 0
  · rw [hy, hzero, zero_div, mul_zero, mul_zero]
  · have hd : blockMax x / 127 ≠ 0 := div_ne_zero hzero (by norm_num)
    have hscaled : scaled y j = (roundAway (scaled x j) : R) := by
      have hmul := scaled_mul (x := y) hj
      rw [hmax, hy] at hmul
      exact mul_right_cancel₀ hd hmul
    rw [hscaled, roundAway_intCast, hy]

end Scalar

/-! ## Both formats -/

section Bounded

variable {R : Type} [Field R] [LinearOrder R] [FloorRing R]

/-- What a block loses when it is quantised, and that it loses it once. -/
structure QuantizationBounded (x : Nat → R) : Prop where
  code_Q80 : ∀ j < 32, |(quantizeF32toQ80 .scalar x).qs j| ≤ 127
  error_Q80 : ∀ j < 32, |dequantizeQ80toF32 (quantizeF32toQ80 .scalar x) j - x j| ≤
    (quantizeF32toQ80 .scalar x).d / 2
  code_Q40 : ∀ j < 32, (quantizeF32toQ40 x).code j = clampCode (rawCode (scaledQ40 x j)) ∧
    (quantizeF32toQ40 x).code j ≤ 15
  error_Q40 : ∀ j < 32, rawCode (scaledQ40 x j) ≤ 15 →
    |dequantizeQ40toF32 (quantizeF32toQ40 x) j - x j| ≤ |(quantizeF32toQ40 x).d| / 2
  error_clamped : ∀ j < 32, 15 < rawCode (scaledQ40 x j) →
    |dequantizeQ40toF32 (quantizeF32toQ40 x) j - x j| ≤ |(quantizeF32toQ40 x).d|
  exact_largest : ∀ k < 32, (∀ j < 32, |x j| ≤ |x k|) → (∀ j < k, |x j| < |x k|) →
    dequantizeQ40toF32 (quantizeF32toQ40 x) k = x k
  again_Q80 : ∀ j < 32,
    dequantizeQ80toF32 (quantizeF32toQ80 .scalar
        (dequantizeQ80toF32 (quantizeF32toQ80 .scalar x))) j =
      dequantizeQ80toF32 (quantizeF32toQ80 .scalar x) j
  again_Q40 : ∀ j < 32,
    dequantizeQ40toF32 (quantizeF32toQ40 (dequantizeQ40toF32 (quantizeF32toQ40 x))) j =
      dequantizeQ40toF32 (quantizeF32toQ40 x) j

theorem quantizationBounded [IsStrictOrderedRing R] (x : Nat → R) : QuantizationBounded x where
  code_Q80 j hj := by
    rw [quantizeF32toQ80_qs .scalar hj]
    exact abs_roundAway_le (by exact_mod_cast abs_scaled_le hj)
  error_Q80 j hj := by
    rw [quantizeF32toQ80_d]
    exact errorQ80_le_half hj
  code_Q40 j hj := by
    rw [code_quantizeF32toQ40 hj]
    exact ⟨rfl, clampCode_le _⟩
  error_Q40 _ hj := error_le_half hj
  error_clamped _ hj := error_le_step hj
  exact_largest _ := dequantize_largest
  again_Q80 _ := dequantizeQ80_idempotent
  again_Q40 _ := dequantizeQ40_idempotent

end Bounded

theorem quantizationBounded_ramp : QuantizationBounded fun j => (j : ℚ) - 16 :=
  quantizationBounded _

end Quants
end PrefillOpt
