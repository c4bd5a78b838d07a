import Mathlib.Algebra.Ring.Int.Defs
import Mathlib.Algebra.BigOperators.Group.Finset.Piecewise
import Mathlib.Algebra.Order.BigOperators.Group.Finset
import Mathlib.Logic.Relation

/-!
# Transition — invariants and termination of a step relation

An invariant that every step keeps holds along every run.  Where from every state that is not final
some steps keep the invariant and decrease a measure, a final state is reached.
-/

namespace PrefillOpt
namespace Lib

open Relation

variable {S : Type} {step : S → S → Prop} {Inv : S → Prop}

theorem invariant_of_reach (hstep : ∀ s s', Inv s → step s s' → Inv s') {s s' : S} (hs : Inv s)
    (h : ReflTransGen step s s') : Inv s' := by
  induction h with
  | refl => exact hs
  | tail _ hlast ih => exact hstep _ _ ih hlast

/-- From every state of the invariant some run ends in a final state of it. -/
theorem exists_reach_final_of_reach (Final : S → Prop) (measure : S → Nat)
    (hprogress : ∀ s, Inv s → ¬ Final s → ∃ s', ReflTransGen step s s' ∧ Inv s' ∧
      measure s' < measure s)
    {s : S} (hs : Inv s) : ∃ f, ReflTransGen step s f ∧ Inv f ∧ Final f := by
  induction hn : measure s using Nat.strong_induction_on generalizing s with
  | _ n ih =>
      by_cases hfinal : Final s
      · exact ⟨s, .refl, hs, hfinal⟩
      · rcases hprogress s hs hfinal with ⟨s', hsteps, hs', hlt⟩
        rcases ih _ (hn ▸ hlt) hs' rfl with ⟨f, hreach, hf⟩
        exact ⟨f, hsteps.trans hreach, hf⟩

theorem exists_reach_final (Final : S → Prop) (measure : S → Nat)
    (hprogress : ∀ s, Inv s → ¬ Final s → ∃ s', step s s' ∧ Inv s' ∧ measure s' < measure s)
    {s : S} (hs : Inv s) : ∃ f, ReflTransGen step s f ∧ Inv f ∧ Final f := by
  apply exists_reach_final_of_reach Final measure _ hs
  intro s hs hfinal
  rcases hprogress s hs hfinal with ⟨s', hstep, hlt⟩
  exact ⟨s', .single hstep, hlt⟩

/-- A sum over the parties decreases when one of them decreases. -/
theorem sum_update_lt {n w x : Nat} {f : Nat → Nat} (hw : w < n) (hx : x < f w) :
    ∑ i ∈ Finset.range n, Function.update f w x i < ∑ i ∈ Finset.range n, f i := by
  refine Finset.sum_lt_sum (fun i _ => ?_) ⟨w, Finset.mem_range.mpr hw, by simpa using hx⟩
  rcases eq_or_ne i w with rfl | hne
  · simpa using hx.le
  · simp [Function.update_of_ne hne]

/-! ## Counting the parties that are in some state -/

section Count

variable {α : Type} {n : Nat}

/-- How many of the parties are in a state with `p`. -/
def count (p : α → Bool) (f : Fin n → α) : Nat :=
  (Finset.univ.filter fun i => p (f i) = true).card

theorem count_congr {β : Type} {p : α → Bool} {q : β → Bool} {f : Fin n → α} {g : Fin n → β}
    (h : ∀ i, p (f i) = q (g i)) : count p f = count q g := by
  simp only [count, h]

theorem count_update (p : α → Bool) (f : Fin n → α) (i : Fin n) (x : α) :
    count p (Function.update f i x) + (if p (f i) then 1 else 0)
      = count p f + (if p x then 1 else 0) := by
  have hsum : ∀ g : Fin n → α, count p g = (if p (g i) then 1 else 0)
      + ∑ j ∈ Finset.univ.erase i, if p (g j) then 1 else 0 := by
    intro g
    rw [count, Finset.card_filter]
    exact (Finset.add_sum_erase _ (fun j => if p (g j) then 1 else 0) (Finset.mem_univ i)).symm
  have hrest : (∑ j ∈ Finset.univ.erase i, if p (Function.update f i x j) then 1 else 0)
      = ∑ j ∈ Finset.univ.erase i, if p (f j) then 1 else 0 := by
    refine Finset.sum_congr rfl fun j hj => ?_
    rw [Function.update_of_ne (Finset.ne_of_mem_erase hj)]
  rw [hsum, hsum f, hrest, Function.update_self]
  omega

theorem count_le (p : α → Bool) (f : Fin n → α) : count p f ≤ n :=
  (Finset.card_le_univ _).trans_eq (Fintype.card_fin n)

theorem count_eq_zero {p : α → Bool} {f : Fin n → α} (h : ∀ i, p (f i) = false) :
    count p f = 0 := by
  simp [count, h]

theorem eq_false_of_count_eq_zero {p : α → Bool} {f : Fin n → α} (h : count p f = 0) (i : Fin n) :
    p (f i) = false := by
  have hempty := Finset.card_eq_zero.1 h
  have hmem : i ∉ Finset.univ.filter fun i => p (f i) = true := hempty ▸ Finset.notMem_empty i
  simpa using hmem

theorem count_eq_all {p : α → Bool} {f : Fin n → α} (h : ∀ i, p (f i) = true) :
    count p f = n := by
  simp [count, h]

/-- Where all but one are counted, the one left out is the only one that is not. -/
theorem eq_true_of_count_eq_pred {p : α → Bool} {f : Fin n → α} (hn : 0 < n)
    (h : count p f = n - 1) {i : Fin n} (hi : p (f i) = false) {j : Fin n} (hj : j ≠ i) :
    p (f j) = true := by
  have hcompl : (Finset.univ.filter fun k => ¬ p (f k) = true).card = 1 := by
    have hsplit := Finset.card_filter_add_card_filter_not (s := (Finset.univ : Finset (Fin n)))
      fun k => p (f k) = true
    rw [count] at h
    rw [Finset.card_univ, Fintype.card_fin] at hsplit
    omega
  rcases Finset.card_eq_one.1 hcompl with ⟨k, hk⟩
  have hik : i = k := by
    have hmem : i ∈ Finset.univ.filter fun k => ¬ p (f k) = true := by simp [hi]
    rw [hk] at hmem
    exact Finset.mem_singleton.1 hmem
  by_contra hnot
  have hmem : j ∈ Finset.univ.filter fun k => ¬ p (f k) = true := by simpa using hnot
  rw [hk] at hmem
  exact hj ((Finset.mem_singleton.1 hmem).trans hik.symm)

end Count

/-! ## Counting the parties in a list -/

section Lists

variable {α : Type}

theorem sum_map_set (f : α → Int) {l : List α} {i : Nat} {x : α} (h : l[i]? = some x) (y : α) :
    ((l.set i y).map f).sum = (l.map f).sum + (f y - f x) := by
  induction l generalizing i with
  | nil => simp at h
  | cons z l ih =>
      cases i with
      | zero =>
          have hzx : z = x := by simpa using h
          simp only [hzx, List.set_cons_zero, List.map_cons, List.sum_cons]
          omega
      | succ i =>
          have hi : l[i]? = some x := by simpa using h
          simp only [List.set_cons_succ, List.map_cons, List.sum_cons, ih hi]
          omega

theorem countP_eq_sum_map (p : α → Bool) (l : List α) :
    (l.countP p : Int) = (l.map fun x => if p x then 1 else 0).sum := by
  induction l with
  | nil => rfl
  | cons x l ih =>
      rw [List.countP_cons, List.map_cons, List.sum_cons, Int.natCast_add, ih]
      cases p x <;> simp [add_comm]

end Lists

end Lib
end PrefillOpt
