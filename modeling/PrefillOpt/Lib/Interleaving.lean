import Mathlib.Data.Set.Function
import Mathlib.Data.List.Nodup

/-!
# Interleaving — threads that share a memory

A thread is the list of its instructions; a run of several threads takes one instruction after the
other, each thread's in their order.  What the other threads do not touch is at the end of every
run as the thread alone would have left it.
-/

namespace PrefillOpt
namespace Lib

section Traces

variable {τ ι : Type}

/-- The threads of `order` one after the other. -/
def sequential (order : List τ) (prog : τ → List ι) : List (τ × ι) :=
  order.flatMap fun t => (prog t).map fun i => (t, i)

theorem sequential_cons (t : τ) (order : List τ) (prog : τ → List ι) :
    sequential (t :: order) prog = (prog t).map (fun i => (t, i)) ++ sequential order prog := rfl

theorem mem_sequential {order : List τ} {prog : τ → List ι} {t : τ} {i : ι} :
    (t, i) ∈ sequential order prog ↔ t ∈ order ∧ i ∈ prog t := by
  simp only [sequential, List.mem_flatMap, List.mem_map, Prod.mk.injEq]
  constructor
  · rintro ⟨u, hu, j, hj, rfl, rfl⟩
    exact ⟨hu, hj⟩
  · rintro ⟨ht, hi⟩
    exact ⟨t, ht, i, hi, rfl, rfl⟩

variable [DecidableEq τ]

/-- The instructions of thread `t` in a trace. -/
def projection (t : τ) (trace : List (τ × ι)) : List ι :=
  (trace.filter fun e => e.1 = t).map Prod.snd

/-- The trace takes the instructions of every thread in their order. -/
def Interleaves (prog : τ → List ι) (trace : List (τ × ι)) : Prop :=
  ∀ t, projection t trace = prog t

theorem projection_cons_self (t : τ) (i : ι) (trace : List (τ × ι)) :
    projection t ((t, i) :: trace) = i :: projection t trace := by
  simp [projection]

theorem projection_cons_of_ne {t u : τ} (h : u ≠ t) (i : ι) (trace : List (τ × ι)) :
    projection t ((u, i) :: trace) = projection t trace := by
  simp [projection, h]

theorem mem_projection {t : τ} {i : ι} {trace : List (τ × ι)} :
    i ∈ projection t trace ↔ (t, i) ∈ trace := by
  simp [projection]

theorem projection_map_self (t : τ) (is : List ι) :
    projection t (is.map fun i => (t, i)) = is := by
  simp [projection, List.filter_map, Function.comp_def]

theorem projection_map_of_ne {t u : τ} (h : u ≠ t) (is : List ι) :
    projection t (is.map fun i => (u, i)) = [] := by
  simp [projection, List.filter_map, Function.comp_def, h]

theorem projection_append (t : τ) (xs ys : List (τ × ι)) :
    projection t (xs ++ ys) = projection t xs ++ projection t ys := by
  simp [projection]

theorem projection_sequential_of_notMem {order : List τ} {t : τ} (prog : τ → List ι)
    (h : t ∉ order) : projection t (sequential order prog) = [] := by
  induction order with
  | nil => rfl
  | cons u order ih =>
      have hne : u ≠ t := fun heq => h (heq ▸ List.mem_cons_self)
      rw [sequential_cons, projection_append, projection_map_of_ne hne]
      exact ih fun hmem => h (List.mem_cons_of_mem u hmem)

theorem projection_sequential_of_mem {order : List τ} {t : τ} (prog : τ → List ι)
    (hnd : order.Nodup) (h : t ∈ order) : projection t (sequential order prog) = prog t := by
  induction order with
  | nil => cases h
  | cons u order ih =>
      have hnd' := List.nodup_cons.1 hnd
      rw [sequential_cons, projection_append]
      by_cases hu : u = t
      · subst hu
        rw [projection_map_self, projection_sequential_of_notMem prog hnd'.1, List.append_nil]
      · have hmem : t ∈ order := (List.mem_cons.1 h).resolve_left (Ne.symm hu)
        rw [projection_map_of_ne hu, List.nil_append, ih hnd'.2 hmem]

/-- Each thread to its end, in any order of the threads, is an interleaving. -/
theorem interleaves_sequential {order : List τ} {prog : τ → List ι} (hnd : order.Nodup)
    (hall : ∀ t, t ∉ order → prog t = []) : Interleaves prog (sequential order prog) := by
  intro t
  by_cases ht : t ∈ order
  · exact projection_sequential_of_mem prog hnd ht
  · rw [projection_sequential_of_notMem prog ht, hall t ht]

/-- The instructions of an interleaving are those of the programs. -/
theorem Interleaves.mem_prog {prog : τ → List ι} {trace : List (τ × ι)}
    (h : Interleaves prog trace) {t : τ} {i : ι} : (t, i) ∈ trace ↔ i ∈ prog t := by
  rw [← h t, mem_projection]

theorem count_projection [DecidableEq ι] (t : τ) (i : ι) (trace : List (τ × ι)) :
    (projection t trace).count i = trace.count (t, i) := by
  induction trace with
  | nil => rfl
  | cons e trace ih =>
      rcases e with ⟨u, j⟩
      by_cases hu : u = t
      · subst hu
        simp [projection_cons_self, List.count_cons, ih]
      · simp [projection_cons_of_ne hu, ih, hu]

/-- No instruction is executed twice when no thread has one twice. -/
theorem Interleaves.nodup [DecidableEq ι] {prog : τ → List ι} {trace : List (τ × ι)}
    (h : Interleaves prog trace) (hprog : ∀ t, (prog t).Nodup) : trace.Nodup := by
  refine List.nodup_iff_count_le_one.2 fun e => ?_
  rw [← count_projection e.1 e.2, h e.1]
  exact List.nodup_iff_count_le_one.1 (hprog e.1) e.2

end Traces

section Frames

variable {τ ι α β : Type} (exec : (α → β) → ι → (α → β))

/-- The memory after a trace. -/
def runTrace (m : α → β) (trace : List (τ × ι)) : α → β :=
  trace.foldl (fun m e => exec m e.2) m

theorem runTrace_append (m : α → β) (xs ys : List (τ × ι)) :
    runTrace exec m (xs ++ ys) = runTrace exec (runTrace exec m xs) ys :=
  List.foldl_append

theorem runTrace_map (m : α → β) (t : τ) (is : List ι) :
    runTrace exec m (is.map fun i => (t, i)) = is.foldl exec m := by
  rw [runTrace, List.foldl_map]

/-- What no instruction of the trace writes stays. -/
theorem runTrace_frame {a : α} {trace : List (τ × ι)}
    (h : ∀ t i, (t, i) ∈ trace → ∀ m : α → β, exec m i a = m a) (m : α → β) :
    runTrace exec m trace a = m a := by
  induction trace generalizing m with
  | nil => rfl
  | cons e trace ih =>
      have hhead := h e.1 e.2 List.mem_cons_self m
      exact (ih (fun t i hi => h t i (List.mem_cons_of_mem e hi)) (exec m e.2)).trans hhead

/-- Thread `t` works inside `S` and nobody else writes there: `S` is left as by `t` alone. -/
theorem runTrace_eqOn [DecidableEq τ] {S : Set α} {t : τ} {trace : List (τ × ι)}
    (hown : ∀ i, (t, i) ∈ trace → ∀ m m' : α → β, Set.EqOn m m' S →
      Set.EqOn (exec m i) (exec m' i) S)
    (hother : ∀ u i, (u, i) ∈ trace → u ≠ t → ∀ m : α → β, Set.EqOn (exec m i) m S)
    {m m' : α → β} (h : Set.EqOn m m' S) :
    Set.EqOn (runTrace exec m trace) ((projection t trace).foldl exec m') S := by
  induction trace generalizing m m' with
  | nil => exact h
  | cons e trace ih =>
      rcases e with ⟨u, i⟩
      have hhead : (u, i) ∈ (u, i) :: trace := List.mem_cons_self
      have hown' := fun j hj => hown j (List.mem_cons_of_mem (u, i) hj)
      have hother' := fun v j hj => hother v j (List.mem_cons_of_mem (u, i) hj)
      by_cases hu : u = t
      · subst hu
        rw [projection_cons_self]
        exact ih hown' hother' (hown i hhead m m' h)
      · rw [projection_cons_of_ne hu]
        exact ih hown' hother' ((hother u i hhead hu m).trans h)

end Frames

end Lib
end PrefillOpt
