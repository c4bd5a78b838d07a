import Mathlib.Data.List.Basic

/-!
# Pareto — pruning a list of candidates

A candidate is dropped when one that is kept already is at most as large in every respect.  What is
left covers what was there, so no bound that is monotone in the candidate is lost.
-/

namespace PrefillOpt
namespace Lib

variable {α : Type} (le : α → α → Bool)

/-- Go through the candidates in order and keep those that nothing kept so far is below. -/
def pruneFrom (kept : List α) : List α → List α
  | [] => kept
  | x :: xs => if kept.any (le · x) then pruneFrom kept xs else pruneFrom (kept ++ [x]) xs

def prune (l : List α) : List α :=
  pruneFrom le [] l

/-- For every element of `l` there is one of `kept` below it. -/
def Covers (kept l : List α) : Prop :=
  ∀ x ∈ l, ∃ y ∈ kept, le y x = true

variable {le}

theorem mem_pruneFrom_of_mem {kept l : List α} {x : α} (h : x ∈ kept) :
    x ∈ pruneFrom le kept l := by
  induction l generalizing kept with
  | nil => exact h
  | cons y ys ih =>
      rw [pruneFrom]
      split_ifs
      · exact ih h
      · exact ih (List.mem_append_left _ h)

theorem mem_of_mem_pruneFrom {kept l : List α} {x : α} (h : x ∈ pruneFrom le kept l) :
    x ∈ kept ∨ x ∈ l := by
  induction l generalizing kept with
  | nil => exact .inl h
  | cons y ys ih =>
      rw [pruneFrom] at h
      split_ifs at h
      · exact (ih h).imp id (List.mem_cons_of_mem _)
      · rcases ih h with hk | hys
        · rcases List.mem_append.1 hk with hk | hy
          · exact .inl hk
          · exact .inr (List.mem_singleton.1 hy ▸ List.mem_cons_self)
        · exact .inr (List.mem_cons_of_mem _ hys)

theorem mem_of_mem_prune {l : List α} {x : α} (h : x ∈ prune le l) : x ∈ l :=
  (mem_of_mem_pruneFrom h).resolve_left List.not_mem_nil

theorem pruneFrom_covers (hrefl : ∀ x, le x x = true) (kept l : List α) :
    Covers le (pruneFrom le kept l) l := by
  induction l generalizing kept with
  | nil => exact fun x hx => absurd hx List.not_mem_nil
  | cons y ys ih =>
      intro x hx
      rw [pruneFrom]
      split_ifs with hany
      · rcases List.mem_cons.1 hx with rfl | hx
        · rcases List.any_eq_true.1 hany with ⟨z, hz, hle⟩
          exact ⟨z, mem_pruneFrom_of_mem hz, hle⟩
        · exact ih kept x hx
      · rcases List.mem_cons.1 hx with rfl | hx
        · exact ⟨x, mem_pruneFrom_of_mem (List.mem_append_right _ (List.mem_singleton_self x)),
            hrefl x⟩
        · exact ih (kept ++ [y]) x hx

/-- Pruning leaves something below every candidate. -/
theorem prune_covers (hrefl : ∀ x, le x x = true) (l : List α) : Covers le (prune le l) l :=
  pruneFrom_covers hrefl [] l

end Lib
end PrefillOpt
