import Mathlib.Data.Nat.Size
import Mathlib.Tactic.Ring

/-!
# Binary32 — finite 32-bit floats

A finite float is a sign and a magnitude in units of 2⁻¹⁴⁹, which has at most 24 significant bits.
Floats are compared as the integers that they are in these units, so the two zeros are equal.
-/

namespace PrefillOpt
namespace Lib

structure Binary32 where
  negative : Bool
  magnitude : Nat
  fits : ∃ m e, m < 2 ^ 24 ∧ e ≤ 253 ∧ magnitude = m * 2 ^ e

namespace Binary32

/-- The value in units of 2⁻¹⁴⁹. -/
def units (x : Binary32) : Int :=
  if x.negative then -(x.magnitude : Int) else x.magnitude

instance : LT Binary32 := ⟨fun a b => a.units < b.units⟩

instance : LE Binary32 := ⟨fun a b => a.units ≤ b.units⟩

instance (a b : Binary32) : Decidable (a < b) :=
  inferInstanceAs (Decidable (a.units < b.units))

instance (a b : Binary32) : Decidable (a ≤ b) :=
  inferInstanceAs (Decidable (a.units ≤ b.units))

/-! ## Integers as floats -/

/-- How many low bits of `n` do not fit. -/
def excess (n : Nat) : Nat :=
  n.size - 24

/-- The upper 24 bits of `n`, rounded to the nearest, a tie to the even one. -/
def significand (n : Nat) : Nat :=
  let q := n / 2 ^ excess n
  let r := n % 2 ^ excess n
  if 2 ^ excess n < 2 * r ∨ (2 * r = 2 ^ excess n ∧ q % 2 = 1) then q + 1 else q

theorem significand_le (n : Nat) : significand n ≤ 2 ^ 24 := by
  have hdiv : n / 2 ^ excess n < 2 ^ 24 := by
    apply Nat.div_lt_of_lt_mul
    apply Nat.lt_of_lt_of_le n.lt_size_self
    rw [← Nat.pow_add]
    apply Nat.pow_le_pow_right (by decide)
    rw [excess]
    omega
  rw [significand]
  split_ifs
  · exact hdiv
  · exact hdiv.le

theorem excess_le {n : Nat} (h : n < 2 ^ 32) : excess n ≤ 8 := by
  have hsize : n.size ≤ 32 := Nat.size_le.2 h
  rw [excess]
  omega

/-- `(float)n` for a 32-bit unsigned integer. -/
def ofUInt (n : Nat) : Binary32 where
  negative := false
  magnitude := significand (n % 2 ^ 32) * 2 ^ (excess (n % 2 ^ 32) + 149)
  fits := by
    have hexcess := excess_le (Nat.mod_lt n (by decide : 2 ^ 32 > 0))
    rcases Nat.lt_or_eq_of_le (significand_le (n % 2 ^ 32)) with hlt | heq
    · exact ⟨_, _, hlt, by omega, rfl⟩
    · refine ⟨2 ^ 23, excess (n % 2 ^ 32) + 150, by decide, by omega, ?_⟩
      rw [heq]
      ring

/-- `(int)x`, which cuts off towards zero. -/
def toInt (x : Binary32) : Int :=
  x.units.tdiv (2 ^ 149)

theorem significand_of_lt {n : Nat} (h : n < 2 ^ 24) : excess n = 0 ∧ significand n = n := by
  have hsize : n.size ≤ 24 := Nat.size_le.2 h
  have hexcess : excess n = 0 := Nat.sub_eq_zero_of_le hsize
  refine ⟨hexcess, ?_⟩
  rw [significand]
  simp only [hexcess, Nat.pow_zero, Nat.div_one, Nat.mod_one]
  rw [if_neg (by omega)]

/-- Integers below 2²⁴ come back. -/
theorem toInt_ofUInt {n : Nat} (h : n < 2 ^ 24) : (ofUInt n).toInt = n := by
  have hmod : n % 2 ^ 32 = n := Nat.mod_eq_of_lt (by omega)
  rcases significand_of_lt h with ⟨hexcess, hsignificand⟩
  have hunits : (ofUInt n).units = (n : Int) * 2 ^ 149 := by
    simp only [units, ofUInt, hmod, hexcess, hsignificand, Bool.false_eq_true, if_false,
      Nat.zero_add, Nat.cast_mul, Nat.cast_pow, Nat.cast_ofNat]
  rw [toInt, hunits]
  exact Int.mul_tdiv_cancel _ (by decide)

end Binary32

end Lib
end PrefillOpt
