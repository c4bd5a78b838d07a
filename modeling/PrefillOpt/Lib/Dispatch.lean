import Mathlib.Logic.Function.Basic

/-!
# Dispatch — a stream of items for many machines

An item goes to at most one machine of a family and changes only that one, or stops the run with
an error.  A run over a stream is then a run of each machine over its own items.
-/

namespace PrefillOpt
namespace Lib

section Dispatch

variable {ε α ι σ : Type} [DecidableEq ι] (target : α → Option ι)
  (step : ι → σ → α → Except ε σ)

/-- One item of the stream. -/
def dispatch (s : ι → σ) (a : α) : Except ε (ι → σ) :=
  match target a with
  | some i => (step i (s i) a).map (Function.update s i)
  | none => .ok s

/-- The items of one machine. -/
def itemsOf (i : ι) (l : List α) : List α :=
  l.filter fun a => target a = some i

variable {target step}

theorem foldlM_dispatch {l : List α} {s s' : ι → σ}
    (h : ∀ i, (itemsOf target i l).foldlM (step i) (s i) = .ok (s' i)) :
    l.foldlM (dispatch target step) s = .ok s' := by
  induction l generalizing s with
  | nil => exact congrArg Except.ok (funext fun i => Except.ok.inj (h i))
  | cons a l ih =>
      rw [List.foldlM_cons, dispatch]
      cases htarget : target a with
      | none =>
          refine ih fun i => ?_
          have hskip : itemsOf target i (a :: l) = itemsOf target i l :=
            List.filter_cons_of_neg (by simp [htarget])
          exact hskip ▸ h i
      | some j =>
          have hown : itemsOf target j (a :: l) = a :: itemsOf target j l :=
            List.filter_cons_of_pos (by simp [htarget])
          have hj := h j
          rw [hown, List.foldlM_cons] at hj
          cases hstep : step j (s j) a with
          | error e =>
              rw [hstep] at hj
              cases hj
          | ok x =>
              rw [hstep] at hj
              show (step j (s j) a).map (Function.update s j) >>= _ = _
              rw [hstep]
              refine ih fun i => ?_
              by_cases hij : i = j
              · subst hij
                rw [Function.update_self]
                exact hj
              · have hskip : itemsOf target i (a :: l) = itemsOf target i l :=
                  List.filter_cons_of_neg (by simpa [htarget] using Ne.symm hij)
                rw [Function.update_of_ne hij]
                exact hskip ▸ h i

/-- Only the machine an item goes to is changed. -/
theorem dispatch_frame {i : ι} {s s' : ι → σ} {a : α} (htarget : target a ≠ some i)
    (hstep : dispatch target step s a = .ok s') : s' i = s i := by
  rw [dispatch] at hstep
  cases hj : target a with
  | none =>
      rw [hj] at hstep
      rw [Except.ok.inj hstep]
  | some j =>
      rw [hj] at hstep
      have hij : i ≠ j := fun hij => htarget (hij ▸ hj)
      cases hrun : step j (s j) a with
      | error e =>
          simp only [hrun] at hstep
          cases hstep
      | ok x =>
          simp only [hrun] at hstep
          rw [← Except.ok.inj hstep, Function.update_of_ne hij]

omit [DecidableEq ι] in
/-- What no step of a run changes stays as it was. -/
theorem foldlM_frame {f : (ι → σ) → α → Except ε (ι → σ)} {i : ι} {l : List α}
    (hkeep : ∀ a ∈ l, ∀ s s', f s a = .ok s' → s' i = s i) {s s' : ι → σ}
    (hrun : l.foldlM f s = .ok s') : s' i = s i := by
  induction l generalizing s with
  | nil => rw [Except.ok.inj hrun]
  | cons a l ih =>
      rw [List.foldlM_cons] at hrun
      cases hstep : f s a with
      | error e =>
          rw [hstep] at hrun
          cases hrun
      | ok s₁ =>
          rw [hstep] at hrun
          rw [ih (fun b hb => hkeep b (List.mem_cons_of_mem a hb)) hrun,
            hkeep a List.mem_cons_self s s₁ hstep]

end Dispatch

end Lib
end PrefillOpt
