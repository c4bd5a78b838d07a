import Mathlib.Algebra.Order.Floor.Ring
import Mathlib.Algebra.Order.Ring.Abs
import Mathlib.Tactic.Linarith
import Mathlib.Tactic.Ring

/-!
# Rounding — from an ordered field to the integers

Three ways to round: cut off towards zero, to the nearest integer with halves away from zero, and
to the nearest with halves to the even one.  All are odd functions.
-/

namespace PrefillOpt
namespace Lib

variable {R : Type} [Field R] [LinearOrder R] [FloorRing R]

/-- A conversion to an integer type. -/
def truncate (x : R) : Int :=
  if 0 ≤ x then ⌊x⌋ else ⌈x⌉

/-- `roundf`. -/
def roundAway (x : R) : Int :=
  if 0 ≤ x then ⌊x + 1 / 2⌋ else ⌈x - 1 / 2⌉

/-- The rounding of the floating-point unit. -/
def roundEven (x : R) : Int :=
  if x - ⌊x⌋ < 1 / 2 then ⌊x⌋
  else if 1 / 2 < x - ⌊x⌋ then ⌊x⌋ + 1
  else if ⌊x⌋ % 2 = 0 then ⌊x⌋ else ⌊x⌋ + 1

/-- `n` and a half. -/
def halfPast (R : Type) [Field R] (n : Nat) : R :=
  n + 1 / 2

theorem halfPast_zero (R : Type) [Field R] : halfPast R 0 = 1 / 2 := by
  rw [halfPast, Nat.cast_zero, zero_add]

/-- A half more with the sign of the value. -/
def addSignedHalf (x : R) : R :=
  x + if 0 ≤ x then halfPast R 0 else -halfPast R 0

theorem truncate_of_nonneg {x : R} (h : 0 ≤ x) : truncate x = ⌊x⌋ :=
  if_pos h

theorem roundAway_of_nonneg {x : R} (h : 0 ≤ x) : roundAway x = ⌊x + 1 / 2⌋ :=
  if_pos h

variable [IsStrictOrderedRing R]

/-! ## Halves away from zero -/

theorem roundAway_neg (x : R) : roundAway (-x) = -roundAway x := by
  have hhalf : ⌊(1 / 2 : R)⌋ = 0 := by
    rw [Int.floor_eq_iff]
    norm_num
  rcases lt_trichotomy x 0 with hneg | rfl | hpos
  · have hx : (0 : R) ≤ -x := by linarith
    rw [roundAway, roundAway, if_pos hx, if_neg (not_le.2 hneg), ← Int.floor_neg]
    congr 1
    ring
  · rw [neg_zero, roundAway, if_pos (le_refl _), zero_add, hhalf, neg_zero]
  · have hx : ¬(0 : R) ≤ -x := by linarith
    rw [roundAway, roundAway, if_neg hx, if_pos hpos.le, ← Int.ceil_neg]
    congr 1
    ring

theorem abs_roundAway_sub_le (x : R) : |(roundAway x : R) - x| ≤ 1 / 2 := by
  have hnonneg : ∀ y : R, 0 ≤ y → |(roundAway y : R) - y| ≤ 1 / 2 := by
    intro y hy
    have hle := Int.floor_le (y + 1 / 2)
    have hlt := Int.lt_floor_add_one (y + 1 / 2)
    rw [roundAway_of_nonneg hy, abs_le]
    constructor <;> linarith
  rcases le_total 0 x with h | h
  · exact hnonneg x h
  · have hneg := hnonneg (-x) (neg_nonneg.2 h)
    rw [roundAway_neg, Int.cast_neg, ← abs_neg] at hneg
    have hsame : -(-(roundAway x : R) - -x) = roundAway x - x := by ring
    rwa [hsame] at hneg

theorem roundAway_intCast (z : Int) : roundAway (z : R) = z := by
  have hnonneg : ∀ y : Int, 0 ≤ y → roundAway (y : R) = y := by
    intro y hy
    have hcast : (0 : R) ≤ y := by exact_mod_cast hy
    rw [roundAway_of_nonneg hcast, Int.floor_eq_iff]
    constructor <;> linarith
  rcases Int.le_total 0 z with h | h
  · exact hnonneg z h
  · have hneg := hnonneg (-z) (by omega)
    rw [Int.cast_neg, roundAway_neg] at hneg
    omega

/-- Rounding does not leave an interval with integer ends. -/
theorem abs_roundAway_le {x : R} {n : Int} (h : |x| ≤ n) : |roundAway x| ≤ n := by
  have hclose := abs_le.1 (abs_roundAway_sub_le x)
  have hbounds := abs_le.1 h
  have hupper : roundAway x < n + 1 := by
    have hlt : (roundAway x : R) < ((n + 1 : Int) : R) := by
      push_cast
      linarith [hclose.2, hbounds.2]
    exact Int.cast_lt.1 hlt
  have hlower : -(n + 1) < roundAway x := by
    have hlt : ((-(n + 1) : Int) : R) < roundAway x := by
      push_cast
      linarith [hclose.1, hbounds.1]
    exact Int.cast_lt.1 hlt
  rw [abs_le]
  omega

/-- Adding a half with the sign of the value and cutting off rounds as well. -/
theorem truncate_addSignedHalf (x : R) : truncate (addSignedHalf x) = roundAway x := by
  rw [addSignedHalf, halfPast_zero]
  split_ifs with h
  · have hsum : (0 : R) ≤ x + 1 / 2 := by linarith
    rw [truncate_of_nonneg hsum, roundAway_of_nonneg h]
  · have hsum : ¬(0 : R) ≤ x + -(1 / 2) := by linarith
    rw [truncate, if_neg hsum, roundAway, if_neg h, sub_eq_add_neg]

/-! ## Halves to the even integer -/

theorem roundEven_neg (x : R) : roundEven (-x) = -roundEven x := by
  have hle := Int.floor_le x
  have hlt := Int.lt_floor_add_one x
  rcases hle.eq_or_lt with heq | hfrac
  · -- an integer
    have hfloor : ⌊-x⌋ = -⌊x⌋ := by
      conv_lhs => rw [← heq, ← Int.cast_neg, Int.floor_intCast]
    have hzero : x - ⌊x⌋ < 1 / 2 := by linarith
    have hzero' : -x - ((-⌊x⌋ : Int) : R) < 1 / 2 := by
      push_cast
      linarith
    rw [roundEven, roundEven, hfloor, if_pos hzero, if_pos hzero']
  · have hfloor : ⌊-x⌋ = -⌊x⌋ - 1 := by
      rw [Int.floor_eq_iff]
      push_cast
      constructor <;> linarith
    have hother : -x - ((-⌊x⌋ - 1 : Int) : R) = 1 - (x - ⌊x⌋) := by
      push_cast
      ring
    rw [roundEven, roundEven, hfloor, hother]
    rcases lt_trichotomy (x - ⌊x⌋) (1 / 2) with h | h | h
    · have hfirst : ¬(1 - (x - ⌊x⌋) < 1 / 2) := by linarith
      have hsecond : 1 / 2 < 1 - (x - ⌊x⌋) := by linarith
      rw [if_neg hfirst, if_pos hsecond, if_pos h]
      omega
    · have hfirst : ¬(1 - (x - ⌊x⌋) < 1 / 2) := by linarith
      have hsecond : ¬(1 / 2 < 1 - (x - ⌊x⌋)) := by linarith
      rw [if_neg hfirst, if_neg hsecond, if_neg (not_lt.2 h.ge), if_neg (not_lt.2 h.le)]
      split_ifs <;> omega
    · have hfirst : 1 - (x - ⌊x⌋) < 1 / 2 := by linarith
      rw [if_pos hfirst, if_neg (not_lt.2 h.le), if_pos h]
      omega

theorem floor_even_add_half (m : Nat) : ⌊(2 * m + 1 / 2 : R)⌋ = 2 * (m : Int) := by
  rw [Int.floor_eq_iff]
  push_cast
  constructor <;> linarith

/-- Where a half comes behind an even integer the two ways to the nearest differ. -/
theorem roundEven_eq_roundAway_iff (x : R) :
    roundEven x = roundAway x ↔ ∀ m : Nat, |x| ≠ 2 * m + 1 / 2 := by
  have hnonneg : ∀ y : R, 0 ≤ y →
      (roundEven y = roundAway y ↔ ∀ m : Nat, y ≠ 2 * m + 1 / 2) := by
    intro y hy
    have hle := Int.floor_le y
    have hlt := Int.lt_floor_add_one y
    have hfloor : 0 ≤ ⌊y⌋ := Int.floor_nonneg.2 hy
    rw [roundAway_of_nonneg hy, roundEven]
    by_cases hhalf : y - ⌊y⌋ < 1 / 2
    · have hround : ⌊y + 1 / 2⌋ = ⌊y⌋ := by
        rw [Int.floor_eq_iff]
        constructor <;> linarith
      rw [if_pos hhalf, hround]
      refine ⟨fun _ m hm => ?_, fun _ => rfl⟩
      rw [hm, floor_even_add_half] at hhalf
      push_cast at hhalf
      linarith
    · have hround : ⌊y + 1 / 2⌋ = ⌊y⌋ + 1 := by
        rw [Int.floor_eq_iff]
        push_cast
        constructor <;> linarith
      rw [if_neg hhalf, hround]
      by_cases habove : 1 / 2 < y - ⌊y⌋
      · rw [if_pos habove]
        refine ⟨fun _ m hm => ?_, fun _ => rfl⟩
        rw [hm, floor_even_add_half] at habove
        push_cast at habove
        linarith
      · rw [if_neg habove]
        have hy' : y = ⌊y⌋ + 1 / 2 := by linarith
        constructor
        · intro heq m hm
          have hfloor' : ⌊y⌋ = 2 * (m : Int) := hm ▸ floor_even_add_half m
          have heven : ⌊y⌋ % 2 = 0 := by omega
          rw [if_pos heven] at heq
          omega
        · intro hne
          apply if_neg
          intro heven
          have hhalved : ∃ m : Nat, ⌊y⌋ = 2 * (m : Int) := ⟨⌊y⌋.toNat / 2, by omega⟩
          rcases hhalved with ⟨m, hm⟩
          apply hne m
          rw [hm] at hy'
          push_cast at hy'
          exact hy'
  rcases le_total 0 x with h | h
  · rw [abs_of_nonneg h]
    exact hnonneg x h
  · rw [abs_of_nonpos h, ← hnonneg (-x) (neg_nonneg.2 h), roundEven_neg, roundAway_neg, neg_inj]

theorem abs_roundEven_le {x : R} {n : Int} (h : |x| ≤ n) : |roundEven x| ≤ n := by
  have hbounds := abs_le.1 h
  have hle := Int.floor_le x
  have hlt := Int.lt_floor_add_one x
  have hlow : -n ≤ ⌊x⌋ := Int.le_floor.2 (by push_cast; exact hbounds.1)
  have hhigh : ⌊x⌋ ≤ n := Int.cast_le.1 (hle.trans hbounds.2)
  have hfull : ⌊x⌋ = n → x - ⌊x⌋ < 1 / 2 := by
    intro heq
    rw [heq]
    linarith [hbounds.2]
  rw [abs_le, roundEven]
  split_ifs with h1 h2 h3
  · omega
  · have hne : ⌊x⌋ ≠ n := fun heq => h1 (hfull heq)
    omega
  · omega
  · have hne : ⌊x⌋ ≠ n := fun heq => h1 (hfull heq)
    omega

end Lib
end PrefillOpt
