import Mathlib.Algebra.Order.Group.Defs
import Mathlib.Algebra.Order.Group.MinMax
import Mathlib.Tactic.Abel

/-!
# FlowShop — when a machine finishes its jobs

A machine takes its jobs in order.  Job `j` starts when it is ready and the machine is free; it
takes `cost j`.  `finish` is the recurrence, `cumsum` and `runningMax` its closed form.
-/

namespace PrefillOpt
namespace Lib

variable {K : Type} [AddCommGroup K] [LinearOrder K]

/-- The sum of the first `j + 1` values. -/
def cumsum (c : Nat → K) : Nat → K
  | 0 => c 0
  | j + 1 => cumsum c j + c (j + 1)

/-- The largest of the first `j + 1` values. -/
def runningMax (a : Nat → K) : Nat → K
  | 0 => a 0
  | j + 1 => max (runningMax a j) (a (j + 1))

/-- When job `j` is finished, on a machine that is free from time zero on. -/
def finish (ready cost : Nat → K) : Nat → K
  | 0 => max (ready 0) 0 + cost 0
  | j + 1 => max (ready (j + 1)) (finish ready cost j) + cost (j + 1)

variable [IsOrderedAddMonoid K]

/-- The recurrence is a running maximum, shifted by the running sum of the costs. -/
theorem cumsum_add_runningMax {ready cost : Nat → K} (hready : 0 ≤ ready 0) (j : Nat) :
    cumsum cost j + runningMax (fun i => ready i + cost i - cumsum cost i) j
      = finish ready cost j := by
  induction j with
  | zero =>
      rw [cumsum, runningMax, finish, max_eq_left hready, cumsum]
      abel
  | succ j ih =>
      calc cumsum cost (j + 1)
            + runningMax (fun i => ready i + cost i - cumsum cost i) (j + 1)
          = max (cumsum cost (j + 1) + runningMax (fun i => ready i + cost i - cumsum cost i) j)
              (cumsum cost (j + 1)
                + (ready (j + 1) + cost (j + 1) - cumsum cost (j + 1))) := by
            rw [runningMax, add_max]
        _ = max (finish ready cost j + cost (j + 1)) (ready (j + 1) + cost (j + 1)) := by
            rw [← ih, cumsum]
            congr 1 <;> abel
        _ = finish ready cost (j + 1) := by
            rw [max_comm, max_add_add_right, finish]

/-- Jobs that are ready earlier are finished no later. -/
theorem finish_mono {ready ready' cost : Nat → K} {j : Nat} (h : ∀ i ≤ j, ready i ≤ ready' i) :
    finish ready cost j ≤ finish ready' cost j := by
  induction j with
  | zero => exact add_le_add_left (max_le_max (h 0 (Nat.le_refl 0)) (le_refl 0)) _
  | succ j ih =>
      have hprev := ih fun i hi => h i (Nat.le_succ_of_le hi)
      exact add_le_add_left (max_le_max (h (j + 1) (Nat.le_refl _)) hprev) _

theorem finish_nonneg {ready cost : Nat → K} {j : Nat} (h : ∀ i ≤ j, 0 ≤ cost i) :
    0 ≤ finish ready cost j := by
  induction j with
  | zero => exact add_nonneg (le_max_right _ _) (h 0 (Nat.le_refl 0))
  | succ j ih =>
      have hprev := ih fun i hi => h i (Nat.le_succ_of_le hi)
      exact add_nonneg (le_max_of_le_right hprev) (h (j + 1) (Nat.le_refl _))

end Lib
end PrefillOpt
