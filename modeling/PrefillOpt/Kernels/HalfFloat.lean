import Mathlib.Algebra.Order.Ring.Nat
import Mathlib.Data.Nat.Bitwise
import PrefillOpt.Lib.NearestEven

/-!
# Kernels.HalfFloat — between 32-bit and 16-bit floats

`convertF16toF32Impl` and `convertF32ToF16Impl` of `nn-quants.cpp`, on bit patterns.  A finite
32-bit float is a multiple of 2⁻¹⁴⁹ and a finite 16-bit one a multiple of 2⁻²⁴.  The patterns of
the magnitudes are in the order of the values, so a pattern is a code in the sense of
`NearestEven`; the one of infinity comes after the largest finite one and stands for 2¹⁶.
-/

namespace PrefillOpt
namespace Quants

open Lib

/-! ## Patterns and values -/

def sign32 (x : UInt32) : Nat := x.toNat / 2 ^ 31

def exponent32 (x : UInt32) : Nat := x.toNat / 2 ^ 23 % 2 ^ 8

def mantissa32 (x : UInt32) : Nat := x.toNat % 2 ^ 23

def Finite32 (x : UInt32) : Prop := exponent32 x < 255

/-- In units of 2⁻¹⁴⁹. -/
def magnitude32 (x : UInt32) : Nat :=
  if exponent32 x = 0 then mantissa32 x
  else (2 ^ 23 + mantissa32 x) * 2 ^ (exponent32 x - 1)

def sign16 (h : UInt16) : Nat := h.toNat / 2 ^ 15

def code16 (h : UInt16) : Nat := h.toNat % 2 ^ 15

/-- The pattern of infinity. -/
def inf16 : Nat := 0x7c00

/-- The value of a pattern without its sign, in units of 2⁻²⁴. -/
def value16 (p : Nat) : Nat :=
  if p / 2 ^ 10 = 0 then p % 2 ^ 10 else (2 ^ 10 + p % 2 ^ 10) * 2 ^ (p / 2 ^ 10 - 1)

/-- A 16-bit value in the units of the 32-bit values. -/
def value16In32 (p : Nat) : Nat := value16 p * 2 ^ 125

/-! ## The conversions -/

/-- `none` is a failed assertion. -/
def convertF32ToF16Impl (x : UInt32) : Option UInt16 :=
  let i := x.toNat
  let s := (i >>> 16) &&& 0x00008000
  let e : Int := ((i >>> 23) &&& 0x000000ff : Nat) - (127 - 15)
  let m := i &&& 0x007fffff
  if e ≤ 0 then
    if e < -10 then some (UInt16.ofNat s)
    else
      let m := m ||| 0x00800000
      let t := (14 - e).toNat
      let a := (1 <<< (t - 1)) - 1
      let b := (m >>> t) &&& 1
      let m := (m + a + b) >>> t
      some (UInt16.ofNat (s ||| m))
  else if e = 0xff - (127 - 15) then
    if m = 0 then some (UInt16.ofNat (s ||| 0x7c00))
    else
      let m := m >>> 13
      some (UInt16.ofNat (s ||| 0x7c00 ||| m ||| if m = 0 then 1 else 0))
  else
    let m := m + 0x00000fff + ((m >>> 13) &&& 1)
    let (m, e) := if m &&& 0x00800000 ≠ 0 then (0, e + 1) else (m, e)
    if e ≤ 30 then some (UInt16.ofNat (s ||| (e.toNat <<< 10) ||| (m >>> 13))) else none

/-- The pattern of a positive value that is representable. -/
def encode32 (n : Nat) : UInt32 :=
  if n < 2 ^ 23 then UInt32.ofNat n
  else UInt32.ofNat ((n.log2 - 22) * 2 ^ 23 + (n / 2 ^ (n.log2 - 23) - 2 ^ 23))

/-- The exact product of positive floats. -/
def mul32 (a b : UInt32) : UInt32 :=
  encode32 (magnitude32 a * magnitude32 b / 2 ^ 149)

def convertF16toF32Impl (value : UInt16) : UInt32 :=
  let magic := (254 - 15 : UInt32) <<< 23
  let infNan := (127 + 16 : UInt32) <<< 23
  let result := (value &&& 0x7FFF).toUInt32 <<< 13
  let result := mul32 result magic
  let result :=
    if magnitude32 infNan ≤ magnitude32 result then result ||| ((255 : UInt32) <<< 23) else result
  result ||| ((value &&& 0x8000).toUInt32 <<< 16)

/-! ## The bit operations on the fields -/

theorem sign32_lt (x : UInt32) : sign32 x < 2 :=
  Nat.div_lt_of_lt_mul x.toNat_lt

theorem sign16_lt (h : UInt16) : sign16 h < 2 :=
  Nat.div_lt_of_lt_mul h.toNat_lt

theorem mantissa32_lt (x : UInt32) : mantissa32 x < 2 ^ 23 :=
  Nat.mod_lt _ (by decide)

theorem and_two_pow_eq {n k : Nat} (h : n < 2 ^ (k + 1)) : n &&& 2 ^ k = n / 2 ^ k * 2 ^ k := by
  have hquot : n / 2 ^ k < 2 := Nat.div_lt_of_lt_mul (Nat.pow_succ 2 k ▸ h)
  rw [Nat.and_two_pow, Nat.toNat_testBit, Nat.mod_eq_of_lt hquot]

/-- A field and what is below it share no bit. -/
theorem field_or {s p k : Nat} (h : p < 2 ^ k) : s * 2 ^ k ||| p = s * 2 ^ k + p := by
  rw [Nat.mul_comm, Nat.two_pow_add_eq_or_of_lt h]

theorem shifted_sign (x : UInt32) : (x.toNat >>> 16) &&& 0x00008000 = sign32 x * 2 ^ 15 := by
  have hlt : x.toNat / 2 ^ 16 < 2 ^ (15 + 1) := Nat.div_lt_of_lt_mul x.toNat_lt
  have hmask := and_two_pow_eq hlt
  rw [Nat.div_div_eq_div_mul] at hmask
  rw [Nat.shiftRight_eq_div_pow]
  exact hmask

theorem shifted_exponent (x : UInt32) : (x.toNat >>> 23) &&& 0x000000ff = exponent32 x := by
  rw [Nat.shiftRight_eq_div_pow]
  exact Nat.and_two_pow_sub_one_eq_mod _ 8

theorem masked_mantissa (x : UInt32) : x.toNat &&& 0x007fffff = mantissa32 x :=
  Nat.and_two_pow_sub_one_eq_mod _ 23

theorem roundShift_shifts (m t : Nat) :
    (m + ((1 <<< (t - 1)) - 1) + ((m >>> t) &&& 1)) >>> t = roundShift m t := by
  rw [Nat.shiftRight_eq_div_pow, Nat.shiftRight_eq_div_pow, Nat.one_shiftLeft,
    Nat.and_one_is_mod, roundShift]

/-- The code that is computed for a finite value, before it is compared with infinity. -/
def roundedCode (e m : Nat) : Nat :=
  if e < 102 then 0
  else if e ≤ 112 then roundShift (2 ^ 23 + m) (126 - e)
  else (e - 112) * 2 ^ 10 + roundShift m 13

/-- A carry out of the mantissa leaves it at zero. -/
theorem roundShift_carry {m : Nat} (hm : m < 2 ^ 23) :
    (roundShift m 13 < 2 ^ 10 ↔ m + 0x00000fff + ((m >>> 13) &&& 1) < 2 ^ 23) ∧
      roundShift m 13 ≤ 2 ^ 10 := by
  have hbit : (m >>> 13) &&& 1 < 2 := by
    rw [Nat.and_one_is_mod]
    exact Nat.mod_lt _ (by decide)
  rw [← roundShift_shifts, Nat.shiftRight_eq_div_pow (_ + _)]
  generalize (m >>> 13) &&& 1 = b at *
  constructor
  · simp only [Nat.reduceShiftLeft, Nat.reduceSub, Nat.reducePow] at *
    omega
  · simp only [Nat.reduceShiftLeft, Nat.reduceSub, Nat.reducePow] at *
    omega

theorem roundShift_le {m t : Nat} (hm : m < 2 ^ 24) (ht : 14 ≤ t) : roundShift m t ≤ 2 ^ 10 := by
  have hdiv : m / 2 ^ t < 2 ^ 10 := by
    apply Nat.div_lt_of_lt_mul
    calc m < 2 ^ 14 * 2 ^ 10 := hm
      _ ≤ 2 ^ t * 2 ^ 10 := Nat.mul_le_mul_right _ (Nat.pow_le_pow_right (by decide) ht)
  rcases roundShift_eq (Nat.lt_of_lt_of_le (by decide) ht) m with ⟨heq, -⟩ | ⟨heq, -⟩ <;> omega

/-- The fields are put together by addition; infinity fails the assertion. -/
theorem convertF32ToF16Impl_finite {x : UInt32} (hx : Finite32 x) :
    convertF32ToF16Impl x =
      if roundedCode (exponent32 x) (mantissa32 x) < inf16 then
        some (UInt16.ofNat (sign32 x * 2 ^ 15 + roundedCode (exponent32 x) (mantissa32 x)))
      else none := by
  have hm := mantissa32_lt x
  rw [Finite32] at hx
  simp only [convertF32ToF16Impl, shifted_sign, shifted_exponent, masked_mantissa]
  generalize exponent32 x = e at *
  generalize mantissa32 x = m at *
  generalize sign32 x = s at *
  by_cases hlow : e ≤ 112
  · have he : (e : Int) - (127 - 15) ≤ 0 := by omega
    rw [if_pos he]
    by_cases hsmall : e < 102
    · have hcode : roundedCode e m = 0 := if_pos hsmall
      rw [if_pos (by omega), hcode, if_pos (by decide), Nat.add_zero]
    · -- a subnormal result
      have hcode : roundedCode e m = roundShift (2 ^ 23 + m) (126 - e) := by
        rw [roundedCode, if_neg hsmall, if_pos hlow]
      have hle : roundShift (2 ^ 23 + m) (126 - e) ≤ 2 ^ 10 := roundShift_le (by omega) (by omega)
      have ht : (14 - ((e : Int) - (127 - 15))).toNat = 126 - e := by omega
      have hor : m ||| 0x00800000 = 2 ^ 23 + m := by
        rw [Nat.add_comm]
        exact Nat.or_two_pow_eq_add_of_lt hm
      have hfinite : roundShift (2 ^ 23 + m) (126 - e) < inf16 := by
        rw [inf16]
        omega
      rw [if_neg (by omega), ht, hor, roundShift_shifts, field_or (by omega), hcode,
        if_pos hfinite]
  · have he : ¬(e : Int) - (127 - 15) ≤ 0 := by omega
    have hinf : ¬(e : Int) - (127 - 15) = 0xff - (127 - 15) := by omega
    rcases roundShift_carry hm with ⟨hcarry, hle⟩
    have hcode : roundedCode e m = (e - 112) * 2 ^ 10 + roundShift m 13 := by
      rw [roundedCode, if_neg (by omega), if_neg hlow]
    have hshifts : (m + 0x00000fff + ((m >>> 13) &&& 1)) >>> 13 = roundShift m 13 :=
      roundShift_shifts m 13
    have htop : m + 0x00000fff + ((m >>> 13) &&& 1) < 2 ^ (23 + 1) := by
      rw [Nat.and_one_is_mod]
      omega
    have hmask := and_two_pow_eq htop
    rw [if_neg he, if_neg hinf, hcode]
    by_cases hlt : roundShift m 13 < 2 ^ 10
    · have hplain : ¬(m + 0x00000fff + ((m >>> 13) &&& 1)) &&& 0x00800000 ≠ 0 := by
        apply not_not.2
        rw [Nat.div_eq_of_lt (hcarry.1 hlt), Nat.zero_mul] at hmask
        exact hmask
      have hfits : (e : Int) - (127 - 15) ≤ 30 ↔ (e - 112) * 2 ^ 10 + roundShift m 13 < inf16 := by
        rw [inf16]
        omega
      have hexp : ((e : Int) - (127 - 15)).toNat = e - 112 := by omega
      simp only [if_neg hplain, hfits, hshifts, hexp]
      apply ite_congr rfl _ fun _ => rfl
      intro hfinite
      rw [inf16] at hfinite
      rw [Nat.shiftLeft_eq, Nat.or_assoc, field_or hlt, field_or (by omega)]
    · -- the carry
      have hfull : roundShift m 13 = 2 ^ 10 := Nat.le_antisymm hle (Nat.not_lt.1 hlt)
      have hone : (m + 0x00000fff + ((m >>> 13) &&& 1)) / 2 ^ 23 = 1 :=
        Nat.div_eq_of_lt_le (by rw [Nat.one_mul]; exact Nat.not_lt.1 (mt hcarry.2 hlt)) htop
      have hcarried : (m + 0x00000fff + ((m >>> 13) &&& 1)) &&& 0x00800000 ≠ 0 := by
        rw [hone] at hmask
        rw [show 0x00800000 = 2 ^ 23 from rfl, hmask]
        decide
      have hfits : (e : Int) - (127 - 15) + 1 ≤ 30 ↔
          (e - 112) * 2 ^ 10 + roundShift m 13 < inf16 := by
        rw [inf16]
        omega
      have hexp : ((e : Int) - (127 - 15) + 1).toNat = e - 112 + 1 := by omega
      simp only [if_pos hcarried, hfits, hexp, Nat.zero_shiftRight, Nat.or_zero]
      apply ite_congr rfl _ fun _ => rfl
      intro hfinite
      rw [inf16] at hfinite
      rw [Nat.shiftLeft_eq, field_or (by omega), hfull, Nat.succ_mul]

/-! ## The table of 16-bit values -/

theorem value16_binade {e k : Nat} (he : 0 < e) (hk : k ≤ 2 ^ 10) :
    value16 (e * 2 ^ 10 + k) = (2 ^ 10 + k) * 2 ^ (e - 1) := by
  rcases Nat.lt_or_eq_of_le hk with hlt | rfl
  · have hquot : (e * 2 ^ 10 + k) / 2 ^ 10 = e := by omega
    have hrest : (e * 2 ^ 10 + k) % 2 ^ 10 = k := by omega
    rw [value16, hquot, hrest, if_neg (Nat.pos_iff_ne_zero.1 he)]
  · -- the first pattern of the next binade
    have hquot : (e * 2 ^ 10 + 2 ^ 10) / 2 ^ 10 = e + 1 := by omega
    have hrest : (e * 2 ^ 10 + 2 ^ 10) % 2 ^ 10 = 0 := by omega
    obtain ⟨d, rfl⟩ : ∃ d, e = d + 1 := ⟨e - 1, by omega⟩
    rw [value16, hquot, hrest, if_neg (Nat.succ_ne_zero _), Nat.add_sub_cancel, Nat.add_sub_cancel]
    ring

theorem value16_low {p : Nat} (hp : p ≤ 2 ^ 11) : value16 p = p := by
  rcases Nat.lt_or_ge p (2 ^ 10) with hlt | hge
  · rw [value16, Nat.div_eq_of_lt hlt, if_pos rfl, Nat.mod_eq_of_lt hlt]
  · obtain ⟨k, rfl⟩ : ∃ k, p = 1 * 2 ^ 10 + k := ⟨p - 2 ^ 10, by omega⟩
    rw [value16_binade (by decide) (by omega), Nat.sub_self, Nat.pow_zero, Nat.mul_one, Nat.one_mul]

theorem value16_step {e k : Nat} (he : 0 < e) (hk : k ≤ 2 ^ 10) :
    value16 (e * 2 ^ 10 + k) + 2 ^ (e - 1) ≤ value16 (e * 2 ^ 10 + k + 1) := by
  rw [value16_binade he hk]
  rcases Nat.lt_or_eq_of_le hk with hlt | rfl
  · rw [Nat.add_assoc, value16_binade (k := k + 1) he hlt]
    apply Nat.le_of_eq
    ring
  · have hnext : e * 2 ^ 10 + 2 ^ 10 + 1 = (e + 1) * 2 ^ 10 + 1 := by ring
    obtain ⟨d, rfl⟩ : ∃ d, e = d + 1 := ⟨e - 1, by omega⟩
    rw [hnext, value16_binade (e := d + 1 + 1) (Nat.succ_pos _) (by decide), Nat.add_sub_cancel,
      Nat.add_sub_cancel, Nat.pow_succ]
    omega

theorem value16_strictMono : StrictMono value16 := by
  apply strictMono_nat_of_lt_succ
  intro p
  rcases Nat.lt_or_ge p (2 ^ 10) with hlt | hge
  · rw [value16_low (by omega), value16_low (by omega)]
    exact Nat.lt_succ_self p
  · have hstep := value16_step (e := p / 2 ^ 10) (k := p % 2 ^ 10) (by omega) (by omega)
    have hsplit : p / 2 ^ 10 * 2 ^ 10 + p % 2 ^ 10 = p := Nat.div_add_mod' p _
    have hpos := Nat.two_pow_pos (p / 2 ^ 10 - 1)
    rw [hsplit] at hstep
    omega

theorem value16In32_strictMono : StrictMono value16In32 := fun _ _ h =>
  Nat.mul_lt_mul_of_pos_right (value16_strictMono h) (Nat.two_pow_pos 125)

/-! ## The rounding -/

/-- The magnitude with given fields. -/
theorem magnitude32_eq_of_pos {x : UInt32} (h : 0 < exponent32 x) :
    magnitude32 x = (2 ^ 23 + mantissa32 x) * 2 ^ (exponent32 x - 1) :=
  if_neg (Nat.pos_iff_ne_zero.1 h)

/-- Less than half of the least 16-bit value. -/
theorem magnitude32_lt_of_small {x : UInt32} (h : exponent32 x < 102) :
    magnitude32 x < 2 ^ 124 := by
  have hm := mantissa32_lt x
  rw [magnitude32]
  split_ifs with hzero
  · exact hm.trans (by decide)
  · calc (2 ^ 23 + mantissa32 x) * 2 ^ (exponent32 x - 1)
        < 2 ^ 24 * 2 ^ (exponent32 x - 1) :=
          Nat.mul_lt_mul_of_pos_right (by omega) (Nat.two_pow_pos _)
      _ ≤ 2 ^ 24 * 2 ^ 100 :=
          Nat.mul_le_mul_left _ (Nat.pow_le_pow_right (by decide) (by omega))
      _ = 2 ^ 124 := by decide

/-- A step of the table in the binade of a normal result. -/
theorem value16In32_step {e k : Nat} (he : 112 < e) (hk : k ≤ 2 ^ 10) :
    value16In32 ((e - 112) * 2 ^ 10 + k) = (2 ^ 10 + k) * 2 ^ 13 * 2 ^ (e - 1) ∧
      value16In32 ((e - 112) * 2 ^ 10 + k) + 2 ^ 13 * 2 ^ (e - 1) ≤
        value16In32 ((e - 112) * 2 ^ 10 + k + 1) := by
  have hunit : 2 ^ (e - 112 - 1) * 2 ^ 125 = 2 ^ 13 * 2 ^ (e - 1) := by
    rw [← Nat.pow_add, ← Nat.pow_add]
    congr 1
    omega
  have hpos : 0 < e - 112 := by omega
  constructor
  · rw [value16In32, value16_binade hpos hk, Nat.mul_assoc, hunit, Nat.mul_assoc]
  · have hstep := Nat.mul_le_mul_right (2 ^ 125) (value16_step hpos hk)
    rwa [Nat.add_mul, hunit] at hstep

/-- For a finite value the code is the nearest one, where infinity stands for all beyond it. -/
theorem nearest_roundedCode (x : UInt32) :
    NearestEven value16In32 inf16 (magnitude32 x)
      (min (roundedCode (exponent32 x) (mantissa32 x)) inf16) := by
  have hm := mantissa32_lt x
  have hmono := value16In32_strictMono
  rcases Nat.lt_or_ge (exponent32 x) 102 with hsmall | hge
  · have hv := magnitude32_lt_of_small hsmall
    have hcode : roundedCode (exponent32 x) (mantissa32 x) = 0 := if_pos hsmall
    have hzero : value16In32 0 = 0 := rfl
    have hone : value16In32 1 = 2 ^ 125 := rfl
    rw [hcode, Nat.zero_min]
    apply NearestEven.of_cell hmono (Nat.zero_le _)
    · intro _
      rw [hzero, hone]
      omega
    · exact fun q hq => absurd hq (Nat.succ_ne_zero q)
  · have hw : 0 < 2 ^ (exponent32 x - 1) := Nat.two_pow_pos _
    rw [magnitude32_eq_of_pos (Nat.lt_of_lt_of_le (by decide) hge)]
    rcases Nat.lt_or_ge 112 (exponent32 x) with hnormal | hlow
    · rcases Nat.lt_or_ge 142 (exponent32 x) with hbeyond | hin
      · -- from 2¹⁶ on
        have hcode : inf16 ≤ roundedCode (exponent32 x) (mantissa32 x) := by
          rw [roundedCode, if_neg (by omega), if_neg (by omega), inf16]
          omega
        have htop : value16In32 inf16 = 2 ^ 23 * 2 ^ 142 := by decide
        rw [Nat.min_eq_right hcode]
        apply NearestEven.of_top_le hmono
        rw [htop]
        exact Nat.mul_le_mul (Nat.le_add_right _ _) (Nat.pow_le_pow_right (by decide) (by omega))
      · have hk : roundShift (mantissa32 x) 13 ≤ 2 ^ 10 := (roundShift_carry hm).2
        have hcode : roundedCode (exponent32 x) (mantissa32 x) =
            (exponent32 x - 112) * 2 ^ 10 + roundShift (mantissa32 x) 13 := by
          rw [roundedCode, if_neg (by omega), if_neg (by omega)]
        have htop : (exponent32 x - 112) * 2 ^ 10 + roundShift (mantissa32 x) 13 ≤ inf16 := by
          rw [inf16]
          omega
        rcases value16In32_step hnormal hk with ⟨hvalue, hup⟩
        rw [hcode, Nat.min_eq_left htop]
        apply NearestEven.of_roundShift hmono hw (by decide : 0 < 13) htop
          (roundShift_add_even (c := 2 ^ 10) (by decide) (by decide) _) (by omega) hvalue hup
        intro q hq
        rcases Nat.eq_zero_or_pos (roundShift (mantissa32 x) 13) with hzero | hpos
        · right
          rw [hvalue, hzero]
          exact Nat.mul_le_mul_right _ (Nat.le_add_right _ _)
        · left
          obtain ⟨k, hsucc⟩ : ∃ k, roundShift (mantissa32 x) 13 = k + 1 :=
            ⟨roundShift (mantissa32 x) 13 - 1, by omega⟩
          have hstep := (value16In32_step (k := k) hnormal (by omega)).2
          have hprev : q = (exponent32 x - 112) * 2 ^ 10 + k := by omega
          rwa [hsucc, hprev, ← Nat.add_assoc]
    · -- a step of the table is a whole unit
      have hcode : roundedCode (exponent32 x) (mantissa32 x) =
          roundShift (2 ^ 23 + mantissa32 x) (126 - exponent32 x) := by
        rw [roundedCode, if_neg (by omega), if_pos hlow]
      have hle : roundShift (2 ^ 23 + mantissa32 x) (126 - exponent32 x) ≤ 2 ^ 10 :=
        roundShift_le (by omega) (by omega)
      have hunit : 2 ^ (126 - exponent32 x) * 2 ^ (exponent32 x - 1) = 2 ^ 125 := by
        rw [← Nat.pow_add]
        congr 1
        omega
      rw [hcode, Nat.min_eq_left (hle.trans (by decide))]
      apply NearestEven.of_roundShift hmono hw (by omega) (hle.trans (by decide)) rfl rfl
      · rw [Nat.mul_assoc, hunit, value16In32, value16_low (hle.trans (by decide))]
      · rw [hunit, value16In32, value16In32, value16_low (hle.trans (by decide)),
          value16_low (Nat.succ_le_succ hle |>.trans (by decide)), Nat.succ_mul]
      · intro q hq
        left
        rw [hunit, ← hq, value16In32, value16In32, value16_low (by omega), value16_low (by omega),
          Nat.succ_mul]

/-! ## Fields of the results -/

theorem sign16_ofNat {s p : Nat} (hs : s < 2) (hp : p < 2 ^ 15) :
    sign16 (UInt16.ofNat (s * 2 ^ 15 + p)) = s ∧ code16 (UInt16.ofNat (s * 2 ^ 15 + p)) = p := by
  have hval : (UInt16.ofNat (s * 2 ^ 15 + p)).toNat = s * 2 ^ 15 + p :=
    UInt16.toNat_ofNat_of_lt' (by rw [UInt16.size]; omega)
  rw [sign16, code16, hval]
  omega

theorem sign16_code16 (h : UInt16) : UInt16.ofNat (sign16 h * 2 ^ 15 + code16 h) = h := by
  rw [sign16, code16, Nat.div_add_mod', UInt16.ofNat_toNat]

/-- Infinities and NaNs: the first 10 bits of the mantissa, or the last one if these are zero. -/
theorem convertF32ToF16Impl_infNan {x : UInt32} (hx : exponent32 x = 255) :
    convertF32ToF16Impl x =
      some (UInt16.ofNat (sign32 x * 2 ^ 15 +
        (inf16 + if mantissa32 x = 0 then 0 else max 1 (mantissa32 x / 2 ^ 13)))) := by
  have hm := mantissa32_lt x
  have he : ¬((255 : Nat) : Int) - (127 - 15) ≤ 0 := by decide
  have heq : ((255 : Nat) : Int) - (127 - 15) = 0xff - (127 - 15) := by decide
  simp only [convertF32ToF16Impl, shifted_sign, shifted_exponent, masked_mantissa, hx]
  generalize mantissa32 x = m at *
  rw [if_neg he, if_pos heq]
  by_cases hzero : m = 0
  · rw [if_pos hzero, if_pos hzero, field_or (by decide), inf16]
  · have hk : m / 2 ^ 13 < 2 ^ 10 := by omega
    have hinf : (0x7c00 : Nat) = 31 * 2 ^ 10 := rfl
    rw [if_neg hzero, if_neg hzero, Nat.shiftRight_eq_div_pow, inf16, hinf, Nat.or_assoc,
      Nat.or_assoc]
    generalize m / 2 ^ 13 = k at *
    by_cases hk0 : k = 0
    · rw [hk0, if_pos rfl, Nat.zero_or, field_or (by decide), field_or (by decide)]
      rfl
    · have hmax : max 1 k = k := max_eq_right (Nat.pos_of_ne_zero hk0)
      rw [if_neg hk0, Nat.or_zero, field_or hk, field_or (by omega), hmax]

/-! ## The exact conversion to 32 bits -/

theorem fields_of_normal {x : UInt32} {e m : Nat} (he : e < 2 ^ 8) (hm : m < 2 ^ 23)
    (h : x.toNat = e * 2 ^ 23 + m) : sign32 x = 0 ∧ exponent32 x = e ∧ mantissa32 x = m := by
  rw [sign32, exponent32, mantissa32]
  omega

/-- A value with at most 24 significant bits is represented. -/
theorem encode32_fields {j c : Nat} (hj0 : 0 < j) (hj : j < 2 ^ 24) (hc : 23 ≤ c) (hc' : c ≤ 253) :
    sign32 (encode32 (j * 2 ^ c)) = 0 ∧ Finite32 (encode32 (j * 2 ^ c)) ∧
      magnitude32 (encode32 (j * 2 ^ c)) = j * 2 ^ c := by
  have hne : j ≠ 0 := Nat.pos_iff_ne_zero.1 hj0
  obtain ⟨l, hl⟩ : ∃ l, l = j.log2 := ⟨_, rfl⟩
  rcases (Nat.log2_eq_iff hne).1 hl.symm with ⟨hlow, hhigh⟩
  have hl24 : l < 24 := hl ▸ (Nat.log2_lt hne).2 hj
  have hlog : (j * 2 ^ c).log2 = l + c := by
    have hnext : 2 ^ (l + c + 1) = 2 ^ (l + 1) * 2 ^ c := by ring
    rw [Nat.log2_eq_iff (Nat.mul_ne_zero hne (Nat.two_pow_pos c).ne'), hnext, Nat.pow_add]
    exact ⟨Nat.mul_le_mul_right _ hlow, Nat.mul_lt_mul_of_pos_right hhigh (Nat.two_pow_pos c)⟩
  -- the 24 bits from the leading one on
  obtain ⟨m, hm⟩ : ∃ m, m = j * 2 ^ (23 - l) := ⟨_, rfl⟩
  have hshift : j * 2 ^ c = m * 2 ^ (l + c - 23) := by
    rw [hm, Nat.mul_assoc, ← Nat.pow_add]
    congr 2
    omega
  have hmlow : 2 ^ 23 ≤ m := by
    calc 2 ^ 23 = 2 ^ l * 2 ^ (23 - l) := by rw [← Nat.pow_add]; congr 1; omega
      _ ≤ m := hm ▸ Nat.mul_le_mul_right _ hlow
  have hmhigh : m < 2 ^ 24 := by
    calc m = j * 2 ^ (23 - l) := hm
      _ < 2 ^ (l + 1) * 2 ^ (23 - l) := Nat.mul_lt_mul_of_pos_right hhigh (Nat.two_pow_pos _)
      _ = 2 ^ 24 := by rw [← Nat.pow_add]; congr 1; omega
  have hlarge : ¬j * 2 ^ c < 2 ^ 23 := by
    apply Nat.not_lt.2
    calc 2 ^ 23 ≤ 1 * 2 ^ c := by rw [Nat.one_mul]; exact Nat.pow_le_pow_right (by decide) hc
      _ ≤ j * 2 ^ c := Nat.mul_le_mul_right _ hj0
  have hquot : j * 2 ^ c / 2 ^ (l + c - 23) = m := by
    rw [hshift, Nat.mul_div_cancel _ (Nat.two_pow_pos _)]
  have hpattern : (encode32 (j * 2 ^ c)).toNat = (l + c - 22) * 2 ^ 23 + (m - 2 ^ 23) := by
    rw [encode32, if_neg hlarge, hlog, hquot]
    apply UInt32.toNat_ofNat_of_lt'
    rw [UInt32.size]
    omega
  rcases fields_of_normal (by omega) (by omega) hpattern with ⟨hsign, hexponent, hmantissa⟩
  refine ⟨hsign, by rw [Finite32, hexponent]; omega, ?_⟩
  have hbias : l + c - 22 - 1 = l + c - 23 := by omega
  rw [magnitude32_eq_of_pos (by omega), hexponent, hmantissa, hshift, hbias,
    Nat.add_sub_cancel' hmlow]

/-- The finite 16-bit values are 32-bit values. -/
theorem encode32_value16 {p : Nat} (hp : p < inf16) :
    sign32 (encode32 (value16In32 p)) = 0 ∧ Finite32 (encode32 (value16In32 p)) ∧
      magnitude32 (encode32 (value16In32 p)) = value16In32 p := by
  rw [inf16] at hp
  rcases Nat.eq_zero_or_pos p with rfl | hpos
  · exact ⟨by decide, by rw [Finite32]; decide, by decide⟩
  · rcases Nat.lt_or_ge p (2 ^ 10) with hlt | hge
    · rw [value16In32, value16_low (by omega)]
      exact encode32_fields hpos (by omega) (by decide) (by decide)
    · have hsplit : value16In32 p =
          (2 ^ 10 + p % 2 ^ 10) * 2 ^ (p / 2 ^ 10 - 1 + 125) := by
        have hne : p / 2 ^ 10 ≠ 0 := by omega
        rw [value16In32, value16, if_neg hne, Nat.mul_assoc, ← Nat.pow_add]
      rw [hsplit]
      exact encode32_fields (by omega) (by omega) (by omega) (by omega)

theorem shifted_code (h : UInt16) :
    ((h &&& 0x7FFF).toUInt32 <<< 13).toNat = code16 h * 2 ^ 13 := by
  have hmask : (h &&& 0x7FFF).toNat = code16 h := Nat.and_two_pow_sub_one_eq_mod h.toNat 15
  have hlt : code16 h < 2 ^ 15 := Nat.mod_lt _ (by decide)
  have hamount : (13 : UInt32).toNat % 32 = 13 := rfl
  rw [UInt32.toNat_shiftLeft, UInt16.toNat_toUInt32, hmask, hamount, Nat.shiftLeft_eq]
  exact Nat.mod_eq_of_lt (by omega)

theorem magnitude32_shifted {u : UInt32} {p : Nat} (hp : p < inf16)
    (hu : u.toNat = p * 2 ^ 13) : magnitude32 u = value16 p * 2 ^ 13 := by
  rw [inf16] at hp
  have hexponent : exponent32 u = p / 2 ^ 10 := by
    rw [exponent32, hu]
    omega
  have hmantissa : mantissa32 u = p % 2 ^ 10 * 2 ^ 13 := by
    rw [mantissa32, hu]
    omega
  rw [magnitude32, hexponent, hmantissa, value16]
  split_ifs
  · rfl
  · ring

theorem shifted_sign16 (h : UInt16) :
    ((h &&& 0x8000).toUInt32 <<< 16).toNat = sign16 h * 2 ^ 31 := by
  have hs := sign16_lt h
  have hmask : (h &&& 0x8000).toNat = sign16 h * 2 ^ 15 := and_two_pow_eq (k := 15) h.toNat_lt
  have hamount : (16 : UInt32).toNat % 32 = 16 := rfl
  rw [UInt32.toNat_shiftLeft, UInt16.toNat_toUInt32, hmask, hamount, Nat.shiftLeft_eq]
  omega

/-- Setting the sign changes no other field. -/
theorem fields_of_signed {x b : UInt32} {s : Nat} (hx : sign32 x = 0)
    (hb : b.toNat = s * 2 ^ 31) :
    sign32 (x ||| b) = s ∧ exponent32 (x ||| b) = exponent32 x ∧
      mantissa32 (x ||| b) = mantissa32 x := by
  have hlow : x.toNat < 2 ^ 31 := by
    rw [sign32] at hx
    omega
  have hval : (x ||| b).toNat = s * 2 ^ 31 + x.toNat := by
    rw [UInt32.toNat_or, hb, Nat.or_comm, field_or hlow]
  rw [sign32, exponent32, exponent32, mantissa32, mantissa32, hval]
  omega

/-- `convertF16toF32Impl` is exact on finite patterns. -/
theorem convertF16toF32Impl_finite {h : UInt16} (hfinite : code16 h < inf16) :
    sign32 (convertF16toF32Impl h) = sign16 h ∧ Finite32 (convertF16toF32Impl h) ∧
      magnitude32 (convertF16toF32Impl h) = value16In32 (code16 h) := by
  rcases encode32_value16 hfinite with ⟨hsign, hfin, hmag⟩
  have hmagic : magnitude32 ((254 - 15 : UInt32) <<< 23) = 2 ^ 112 * 2 ^ 149 := by decide
  have hinf : magnitude32 ((127 + 16 : UInt32) <<< 23) = value16In32 inf16 := by decide
  have hproduct : mul32 ((h &&& 0x7FFF).toUInt32 <<< 13) ((254 - 15 : UInt32) <<< 23) =
      encode32 (value16In32 (code16 h)) := by
    rw [mul32, magnitude32_shifted hfinite (shifted_code h), hmagic, ← Nat.mul_assoc,
      Nat.mul_div_cancel _ (Nat.two_pow_pos 149), Nat.mul_assoc, ← Nat.pow_add]
    rfl
  have hbelow : ¬value16In32 inf16 ≤ value16In32 (code16 h) :=
    Nat.not_le.2 (value16In32_strictMono hfinite)
  have hshape : convertF16toF32Impl h =
      encode32 (value16In32 (code16 h)) ||| ((h &&& 0x8000).toUInt32 <<< 16) := by
    rw [convertF16toF32Impl]
    simp only [hproduct, hmag, hinf, if_neg hbelow]
  rw [hshape]
  rw [magnitude32] at hmag
  rw [Finite32] at hfin
  rcases fields_of_signed hsign (shifted_sign16 h) with ⟨hsign', hexp, hmant⟩
  rw [Finite32, magnitude32, hexp, hmant]
  exact ⟨hsign', hfin, hmag⟩

/-! ## Correct rounding -/

/-- What a conversion to 16 bits should do with a pattern. -/
structure ConvertsCorrectly (x : UInt32) : Prop where
  finite : Finite32 x → ∃ h, convertF32ToF16Impl x = some h ∧ sign16 h = sign32 x ∧
    NearestEven value16In32 inf16 (magnitude32 x) (code16 h)
  infinity : exponent32 x = 255 → mantissa32 x = 0 →
    ∃ h, convertF32ToF16Impl x = some h ∧ sign16 h = sign32 x ∧ code16 h = inf16
  nan : exponent32 x = 255 → mantissa32 x ≠ 0 →
    ∃ h, convertF32ToF16Impl x = some h ∧ sign16 h = sign32 x ∧ inf16 < code16 h

/-- The midpoint between the largest finite value and the next power of two is 65520. -/
theorem roundedCode_lt_iff (x : UInt32) :
    roundedCode (exponent32 x) (mantissa32 x) < inf16 ↔ magnitude32 x < 65520 * 2 ^ 149 := by
  have htop : value16In32 31743 + value16In32 (31743 + 1) = 2 * (65520 * 2 ^ 149) := by decide
  have hlt := (nearest_roundedCode x).lt_top value16In32_strictMono (n := 31743) (by decide)
  rw [htop] at hlt
  have hinf : inf16 = 31743 + 1 := rfl
  rw [hinf] at hlt ⊢
  omega

theorem converts_infNan {x : UInt32} (hx : exponent32 x = 255) :
    ∃ h, convertF32ToF16Impl x = some h ∧ sign16 h = sign32 x ∧
      code16 h = inf16 + if mantissa32 x = 0 then 0 else max 1 (mantissa32 x / 2 ^ 13) := by
  have hm := mantissa32_lt x
  have hcode : (inf16 + if mantissa32 x = 0 then 0 else max 1 (mantissa32 x / 2 ^ 13)) <
      2 ^ 15 := by
    rw [inf16]
    split_ifs <;> omega
  exact ⟨_, convertF32ToF16Impl_infNan hx, sign16_ofNat (sign32_lt x) hcode⟩

/-- The conversion is right below 65520, where rounding does not reach infinity. -/
theorem convertsCorrectly_iff (x : UInt32) :
    ConvertsCorrectly x ↔ (Finite32 x → magnitude32 x < 65520 * 2 ^ 149) := by
  constructor
  · rintro ⟨hfinite, -, -⟩ hx
    rcases hfinite hx with ⟨h, hsome, -, -⟩
    rw [convertF32ToF16Impl_finite hx] at hsome
    apply (roundedCode_lt_iff x).1
    by_contra hge
    rw [if_neg hge] at hsome
    exact nomatch hsome
  · intro hbelow
    refine ⟨?_, ?_, ?_⟩
    · intro hx
      have hlt := (roundedCode_lt_iff x).2 (hbelow hx)
      have hnear := nearest_roundedCode x
      rw [Nat.min_eq_left hlt.le] at hnear
      rcases sign16_ofNat (sign32_lt x) (hlt.trans (by decide)) with ⟨hsign, hcode⟩
      refine ⟨_, (convertF32ToF16Impl_finite hx).trans (if_pos hlt), hsign, ?_⟩
      rwa [hcode]
    · intro hexponent hzero
      rcases converts_infNan hexponent with ⟨h, hsome, hsign, hcode⟩
      rw [if_pos hzero] at hcode
      exact ⟨h, hsome, hsign, hcode⟩
    · intro hexponent hne
      rcases converts_infNan hexponent with ⟨h, hsome, hsign, hcode⟩
      rw [if_neg hne] at hcode
      exact ⟨h, hsome, hsign, by omega⟩

/-- Finite 16-bit patterns come back. -/
theorem convert_round_trip {h : UInt16} (hfinite : code16 h < inf16) :
    convertF32ToF16Impl (convertF16toF32Impl h) = some h := by
  rcases convertF16toF32Impl_finite hfinite with ⟨hsign, hfin, hmag⟩
  have hnear := nearest_roundedCode (convertF16toF32Impl h)
  rw [hmag] at hnear
  have hsame := hnear.eq_of_exact value16In32_strictMono hfinite.le
  have hcode : roundedCode (exponent32 (convertF16toF32Impl h))
      (mantissa32 (convertF16toF32Impl h)) = code16 h := by omega
  rw [convertF32ToF16Impl_finite hfin, hcode, if_pos hfinite, hsign, sign16_code16]

theorem half_conversion (x : UInt32) (h : UInt16) :
    (ConvertsCorrectly x ↔ (Finite32 x → magnitude32 x < 65520 * 2 ^ 149)) ∧
      (code16 h < inf16 → convertF32ToF16Impl (convertF16toF32Impl h) = some h) :=
  ⟨convertsCorrectly_iff x, convert_round_trip⟩

/-- The pattern of 65520. -/
theorem overflow_fails_assertion : ¬∀ x, ConvertsCorrectly x := by
  intro hall
  rcases (hall 0x477FF000).finite (by rw [Finite32]; decide) with ⟨h, hsome, -, -⟩
  have hnone : convertF32ToF16Impl 0x477FF000 = none := by decide
  rw [hnone] at hsome
  exact nomatch hsome

end Quants
end PrefillOpt
