import Mathlib.Data.Nat.Dist
import Mathlib.Order.Monotone.Basic
import Mathlib.Tactic.Ring

/-!
# NearestEven — rounding to an increasing table

The representable values are listed by their codes, in increasing order.  A value is rounded to a
code at least as near as any other, and of two codes equally near to the even one.
-/

namespace PrefillOpt
namespace Lib

/-- `p` is the code for `v` among the codes up to `top`. -/
structure NearestEven (value : Nat → Nat) (top v p : Nat) : Prop where
  le_top : p ≤ top
  nearest : ∀ q ≤ top, (value p).dist v ≤ (value q).dist v
  even : ∀ q ≤ top, q ≠ p → (value q).dist v = (value p).dist v → p % 2 = 0

namespace NearestEven

variable {value : Nat → Nat} {top v p : Nat}

/-- Only the neighbours of a code compete with it. -/
theorem of_cell (hmono : StrictMono value) (hp : p ≤ top)
    (hup : p < top → 2 * v ≤ value p + value (p + 1) ∧
      (2 * v = value p + value (p + 1) → p % 2 = 0))
    (hdown : ∀ q, q + 1 = p → value q + value p ≤ 2 * v ∧
      (value q + value p = 2 * v → p % 2 = 0)) : NearestEven value top v p := by
  have hcompete : ∀ q ≤ top, q ≠ p → (value p).dist v ≤ (value q).dist v ∧
      ((value q).dist v = (value p).dist v → p % 2 = 0) := by
    intro q hq hne
    rcases Nat.lt_or_gt_of_ne hne with hlt | hgt
    · obtain ⟨r, rfl⟩ : ∃ r, p = r + 1 := ⟨p - 1, by omega⟩
      have hle : value q ≤ value r := hmono.monotone (Nat.le_of_lt_succ hlt)
      have hstep : value r < value (r + 1) := hmono (Nat.lt_succ_self r)
      rcases hdown r rfl with ⟨hmid, htie⟩
      simp only [Nat.dist]
      exact ⟨by omega, fun heq => htie (by omega)⟩
    · have hle : value (p + 1) ≤ value q := hmono.monotone hgt
      have hstep : value p < value (p + 1) := hmono (Nat.lt_succ_self p)
      rcases hup (hgt.trans_le hq) with ⟨hmid, htie⟩
      simp only [Nat.dist]
      exact ⟨by omega, fun heq => htie (by omega)⟩
  refine ⟨hp, ?_, fun q hq hne => (hcompete q hq hne).2⟩
  intro q hq
  by_cases heq : q = p
  · exact heq ▸ le_refl _
  · exact (hcompete q hq heq).1

/-- What is in the table is not changed. -/
theorem eq_of_exact (hmono : StrictMono value) {q : Nat} (hq : q ≤ top)
    (h : NearestEven value top (value q) p) : p = q := by
  have hle := h.nearest q hq
  rw [Nat.dist_self] at hle
  exact hmono.injective (Nat.eq_of_dist_eq_zero (Nat.le_zero.1 hle))

/-- Below the midpoint of the last two codes the last one is not used. -/
theorem lt_top (hmono : StrictMono value) {n : Nat} (hodd : n % 2 = 1)
    (h : NearestEven value (n + 1) v p) : p < n + 1 ↔ 2 * v < value n + value (n + 1) := by
  have hstep : value n < value (n + 1) := hmono (Nat.lt_succ_self n)
  constructor
  · intro hp
    have hle : value p ≤ value n := hmono.monotone (Nat.le_of_lt_succ hp)
    have hnear := h.nearest (n + 1) (le_refl _)
    have htie := h.even (n + 1) (le_refl _) hp.ne'
    simp only [Nat.dist] at hnear htie
    by_cases heq : p = n
    · subst heq
      have hne : ¬p % 2 = 0 := by omega
      have := fun hsame => hne (htie hsame)
      omega
    · have hlt : value p < value n := hmono (by omega)
      omega
  · intro hlt
    apply Nat.lt_of_le_of_ne h.le_top
    rintro rfl
    have hnear := h.nearest n (Nat.le_succ n)
    simp only [Nat.dist] at hnear
    omega

end NearestEven

/-! ## Shifting out low bits -/

/-- A bias of almost a half, and of the rest of it where the quotient is odd. -/
def roundShift (m t : Nat) : Nat :=
  (m + (2 ^ (t - 1) - 1) + m / 2 ^ t % 2) / 2 ^ t

theorem roundShift_eq {t : Nat} (ht : 0 < t) (m : Nat) :
    (roundShift m t = m / 2 ^ t ∧
        (2 * (m % 2 ^ t) < 2 ^ t ∨ (2 * (m % 2 ^ t) = 2 ^ t ∧ m / 2 ^ t % 2 = 0))) ∨
      (roundShift m t = m / 2 ^ t + 1 ∧
        (2 ^ t < 2 * (m % 2 ^ t) ∨ (2 * (m % 2 ^ t) = 2 ^ t ∧ m / 2 ^ t % 2 = 1))) := by
  obtain ⟨s, rfl⟩ : ∃ s, t = s + 1 := ⟨t - 1, by omega⟩
  have hpos : 0 < 2 ^ s := Nat.two_pow_pos s
  have hdouble : 2 ^ (s + 1) = 2 * 2 ^ s := by ring
  have hrest := Nat.mod_lt m (Nat.two_pow_pos (s + 1))
  have hsplit : roundShift m (s + 1) = m / 2 ^ (s + 1) +
      (m % 2 ^ (s + 1) + (2 ^ s - 1) + m / 2 ^ (s + 1) % 2) / 2 ^ (s + 1) := by
    have hsum : m + (2 ^ s - 1) + m / 2 ^ (s + 1) % 2 =
        m % 2 ^ (s + 1) + (2 ^ s - 1) + m / 2 ^ (s + 1) % 2 +
          2 ^ (s + 1) * (m / 2 ^ (s + 1)) := by
      have := Nat.mod_add_div m (2 ^ (s + 1))
      omega
    rw [roundShift, Nat.add_sub_cancel, hsum,
      Nat.add_mul_div_left _ _ (Nat.two_pow_pos (s + 1)), Nat.add_comm]
  rw [hsplit]
  have hodd : m / 2 ^ (s + 1) % 2 < 2 := Nat.mod_lt _ (by decide)
  generalize m / 2 ^ (s + 1) % 2 = b at *
  generalize m % 2 ^ (s + 1) = r at *
  rcases Nat.lt_or_ge (r + (2 ^ s - 1) + b) (2 ^ (s + 1)) with hlt | hge
  · left
    rw [Nat.div_eq_of_lt hlt]
    omega
  · right
    have hone : (r + (2 ^ s - 1) + b) / 2 ^ (s + 1) = 1 :=
      Nat.div_eq_of_lt_le (by omega) (by omega)
    rw [hone]
    omega

/-- The bits that are shifted out are at most half a unit, and the code is even where they are
exactly that. -/
theorem roundShift_cell {t : Nat} (ht : 0 < t) (m : Nat) :
    (2 * m ≤ (2 * roundShift m t + 1) * 2 ^ t ∧
        (2 * m = (2 * roundShift m t + 1) * 2 ^ t → roundShift m t % 2 = 0)) ∧
      (2 * roundShift m t * 2 ^ t ≤ 2 * m + 2 ^ t ∧
        (2 * roundShift m t * 2 ^ t = 2 * m + 2 ^ t → roundShift m t % 2 = 0)) := by
  have hsplit := Nat.div_add_mod m (2 ^ t)
  have hup : (2 * (m / 2 ^ t) + 1) * 2 ^ t = 2 * (2 ^ t * (m / 2 ^ t)) + 2 ^ t := by ring
  have hdown : 2 * (m / 2 ^ t) * 2 ^ t = 2 * (2 ^ t * (m / 2 ^ t)) := by ring
  have hup' : (2 * (m / 2 ^ t + 1) + 1) * 2 ^ t = 2 * (2 ^ t * (m / 2 ^ t)) + 3 * 2 ^ t := by ring
  have hdown' : 2 * (m / 2 ^ t + 1) * 2 ^ t = 2 * (2 ^ t * (m / 2 ^ t)) + 2 * 2 ^ t := by ring
  have hrest := Nat.mod_lt m (Nat.two_pow_pos t)
  rcases roundShift_eq ht m with ⟨heq, hlow⟩ | ⟨heq, hhigh⟩
  · rw [heq, hup, hdown]
    omega
  · rw [heq, hup', hdown']
    omega

theorem roundShift_add_even {t : Nat} (ht : 0 < t) {c : Nat} (hc : c % 2 = 0) (m : Nat) :
    roundShift (2 ^ t * c + m) t = c + roundShift m t := by
  have hpos := Nat.two_pow_pos t
  have hquot : (2 ^ t * c + m) / 2 ^ t = c + m / 2 ^ t := Nat.mul_add_div hpos c m
  have hrest : (2 ^ t * c + m) % 2 ^ t = m % 2 ^ t := Nat.mul_add_mod _ c m
  have hsum := roundShift_eq ht (2 ^ t * c + m)
  have hm := roundShift_eq ht m
  rw [hquot, hrest] at hsum
  omega

namespace NearestEven

variable {value : Nat → Nat} {top p : Nat}

/-- A shift rounds to the nearest code where the codes around are no closer than the quotients.
Below a code that is not larger than the value they may be closer. -/
theorem of_roundShift {a c t w : Nat} (hmono : StrictMono value) (hw : 0 < w) (ht : 0 < t)
    (hp : p ≤ top) (hc : roundShift a t = c) (hparity : c % 2 = p % 2)
    (hvalue : value p = c * 2 ^ t * w) (hup : value p + 2 ^ t * w ≤ value (p + 1))
    (hdown : ∀ q, q + 1 = p → value q + 2 ^ t * w ≤ value p ∨ value p ≤ a * w) :
    NearestEven value top (a * w) p := by
  rcases roundShift_cell ht a with ⟨⟨hle, htie⟩, hge, htie'⟩
  rw [hc] at hle htie hge htie'
  have htwice : 2 * (a * w) = 2 * a * w := (Nat.mul_assoc 2 a w).symm
  have hupper : (2 * c + 1) * 2 ^ t * w = 2 * value p + 2 ^ t * w := by
    rw [hvalue]
    ring
  have hlower : 2 * c * 2 ^ t * w = 2 * value p := by
    rw [hvalue]
    ring
  have hsum : (2 * a + 2 ^ t) * w = 2 * a * w + 2 ^ t * w := Nat.add_mul _ _ _
  have hle_w := Nat.mul_le_mul_right w hle
  have hge_w := Nat.mul_le_mul_right w hge
  apply of_cell hmono hp
  · intro _
    refine ⟨by omega, fun heq => ?_⟩
    rw [← hparity]
    apply htie
    apply Nat.eq_of_mul_eq_mul_right hw
    omega
  · intro q hq
    rcases hdown q hq with hstep | hbelow
    · refine ⟨by omega, fun heq => ?_⟩
      rw [← hparity]
      apply htie'
      apply Nat.eq_of_mul_eq_mul_right hw
      omega
    · have hlt : value q < value p := hmono (by omega)
      exact ⟨by omega, fun heq => absurd heq (by omega)⟩

/-- Values beyond the table are rounded to its last code. -/
theorem of_top_le {v : Nat} (hmono : StrictMono value) (hv : value top ≤ v) :
    NearestEven value top v top := by
  apply of_cell hmono (le_refl _)
  · exact fun hlt => absurd hlt (Nat.lt_irrefl _)
  · intro q hq
    have hlt : value q < value top := hmono (by omega)
    exact ⟨by omega, fun heq => absurd heq (by omega)⟩

end NearestEven

end Lib
end PrefillOpt
