import Mathlib.Data.Nat.Init

/-!
# Normal — a loop until nothing is left to do

A partial step is repeated until it has no result.  A measure that falls with every step says how
often that is enough.
-/

namespace PrefillOpt
namespace Lib

variable {σ : Type} {step : σ → Option σ}

/-- At most `n` steps. -/
def iterate (step : σ → Option σ) : Nat → σ → σ
  | 0, s => s
  | n + 1, s =>
      match step s with
      | none => s
      | some s' => iterate step n s'

theorem iterate_of_none {s : σ} (h : step s = none) (n : Nat) : iterate step n s = s := by
  cases n with
  | zero => rfl
  | succ n => simp [iterate, h]

theorem iterate_of_some {s s' : σ} (h : step s = some s') (n : Nat) :
    iterate step (n + 1) s = iterate step n s' := by
  simp [iterate, h]

/-- The last step taken apart. -/
theorem iterate_succ (n : Nat) (s : σ) :
    iterate step (n + 1) s = (step (iterate step n s)).getD (iterate step n s) := by
  induction n generalizing s with
  | zero =>
      cases h : step s with
      | none => simp [iterate, h]
      | some s' => simp [iterate, h]
  | succ n ih =>
      cases h : step s with
      | none =>
          rw [iterate_of_none h, iterate_of_none h, h]
          rfl
      | some s' => rw [iterate_of_some h, iterate_of_some h, ih s']

theorem iterate_add (m n : Nat) (s : σ) :
    iterate step (m + n) s = iterate step n (iterate step m s) := by
  induction m generalizing s with
  | zero => rw [Nat.zero_add, iterate]
  | succ m ih =>
      rw [Nat.succ_add]
      cases h : step s with
      | none => simp only [iterate_of_none h]
      | some s' => rw [iterate_of_some h, iterate_of_some h, ih]

/-- What a step keeps, all steps keep. -/
theorem iterate_keeps {P : σ → Prop} (h : ∀ s s', P s → step s = some s' → P s') (n : Nat) {s : σ}
    (hs : P s) : P (iterate step n s) := by
  induction n generalizing s with
  | zero => exact hs
  | succ n ih =>
      cases hstep : step s with
      | none => rwa [iterate_of_none hstep]
      | some s' =>
          rw [iterate_of_some hstep]
          exact ih (h s s' hs hstep)

section Measure

variable {P : σ → Prop} {size : σ → Nat} (hkeep : ∀ s s', P s → step s = some s' → P s')
  (hless : ∀ s s', P s → step s = some s' → size s' < size s)
include hkeep hless

/-- After as many steps as the measure says nothing is left to do. -/
theorem iterate_normal {n : Nat} {s : σ} (hs : P s) (hn : size s ≤ n) :
    step (iterate step n s) = none := by
  induction n generalizing s with
  | zero =>
      cases h : step s with
      | none => exact h
      | some s' =>
          have := hless s s' hs h
          omega
  | succ n ih =>
      cases h : step s with
      | none => rwa [iterate_of_none h]
      | some s' =>
          rw [iterate_of_some h]
          have := hless s s' hs h
          exact ih (hkeep s s' hs h) (by omega)

/-- More steps change nothing. -/
theorem iterate_of_le {n : Nat} {s : σ} (hs : P s) (hn : size s ≤ n) :
    iterate step n s = iterate step (size s) s := by
  induction n, hn using Nat.le_induction with
  | base => rfl
  | succ n hn ih =>
      rw [iterate_succ, iterate_normal hkeep hless hs hn, ← ih]
      rfl

end Measure

end Lib
end PrefillOpt
