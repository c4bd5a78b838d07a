import Mathlib.Data.Set.Function
import Mathlib.Data.Set.Lattice

/-!
# Dataflow — instructions with read and write sets

An instruction changes only the locations it writes, and what it puts there depends only on the
locations it reads.  Two runs of the same instructions then agree on everything that is computed
from locations they agreed on at the start, whatever the rest of the state holds.
-/

namespace PrefillOpt
namespace Lib

/-- An instruction on states `Loc → Val`. -/
structure Instr (Loc Val : Type) where
  reads : Set Loc
  writes : Set Loc
  run : (Loc → Val) → Loc → Val
  run_of_notMem : ∀ s, ∀ l ∉ writes, run s l = s l
  run_congr : ∀ s s', Set.EqOn s s' reads → Set.EqOn (run s) (run s') writes

namespace Instr

variable {Loc Val : Type} {is js : List (Instr Loc Val)} {K : Set Loc} {s s' : Loc → Val}

/-- Run a list of instructions in order. -/
def runAll (is : List (Instr Loc Val)) (s : Loc → Val) : Loc → Val :=
  is.foldl (fun s i => i.run s) s

@[simp] theorem runAll_nil (s : Loc → Val) : runAll [] s = s := rfl

@[simp] theorem runAll_cons (i : Instr Loc Val) (is : List (Instr Loc Val)) (s : Loc → Val) :
    runAll (i :: is) s = runAll is (i.run s) := rfl

theorem runAll_append (is js : List (Instr Loc Val)) (s : Loc → Val) :
    runAll (is ++ js) s = runAll js (runAll is s) :=
  List.foldl_append

/-! ## What a run leaves alone -/

/-- All locations the instructions write. -/
def written (is : List (Instr Loc Val)) : Set Loc :=
  {l | ∃ i ∈ is, l ∈ i.writes}

theorem written_cons (i : Instr Loc Val) (is : List (Instr Loc Val)) :
    written (i :: is) = i.writes ∪ written is := by
  ext l
  simp [written]

theorem runAll_of_notMem {l : Loc} (h : l ∉ written is) (s : Loc → Val) : runAll is s l = s l := by
  induction is generalizing s with
  | nil => rfl
  | cons i is ih =>
      rw [written_cons, Set.mem_union, not_or] at h
      rw [runAll_cons, ih h.2]
      exact i.run_of_notMem s l h.1

/-! ## What a run computes -/

theorem eqOn_run (i : Instr Loc Val) (hreads : i.reads ⊆ K) (h : Set.EqOn s s' K) :
    Set.EqOn (i.run s) (i.run s') (K ∪ i.writes) := by
  intro l hl
  by_cases hw : l ∈ i.writes
  · exact i.run_congr s s' (h.mono hreads) hw
  · rw [i.run_of_notMem s l hw, i.run_of_notMem s' l hw]
    exact h (hl.resolve_right hw)

/-- Every instruction reads only what is known at its turn. -/
def Covers (K : Set Loc) : List (Instr Loc Val) → Prop
  | [] => True
  | i :: is => i.reads ⊆ K ∧ Covers (K ∪ i.writes) is

theorem eqOn_runAll (hcovers : Covers K is) (h : Set.EqOn s s' K) :
    Set.EqOn (runAll is s) (runAll is s') (K ∪ written is) := by
  induction is generalizing K s s' with
  | nil =>
      have hempty : written ([] : List (Instr Loc Val)) = ∅ := by simp [written]
      simpa [hempty] using h
  | cons i is ih =>
      rw [written_cons, ← Set.union_assoc]
      exact ih hcovers.2 (i.eqOn_run hcovers.1 h)

theorem written_append (is js : List (Instr Loc Val)) :
    written (is ++ js) = written is ∪ written js := by
  ext l
  simp [written, or_and_right, exists_or]

theorem covers_append :
    Covers K (is ++ js) ↔ Covers K is ∧ Covers (K ∪ written is) js := by
  induction is generalizing K with
  | nil => simp [Covers, written]
  | cons i is ih =>
      rw [List.cons_append, Covers, ih, Covers, written_cons, ← Set.union_assoc, and_assoc]

theorem Covers.mono {K' : Set Loc} (hsub : K ⊆ K') (h : Covers K is) : Covers K' is := by
  induction is generalizing K K' with
  | nil => trivial
  | cons i is ih =>
      exact ⟨h.1.trans hsub, ih (Set.union_subset_union_left _ hsub) h.2⟩

/-- Blocks that each read only what is known at the start can run one after another. -/
theorem covers_flatMap {α : Type} {l : List α} {f : α → List (Instr Loc Val)}
    (h : ∀ a ∈ l, Covers K (f a)) : Covers K (l.flatMap f) := by
  induction l with
  | nil => trivial
  | cons a l ih =>
      rw [List.flatMap_cons, covers_append]
      have hrest := ih fun b hb => h b (List.mem_cons_of_mem _ hb)
      exact ⟨h a (List.mem_cons_self ..), hrest.mono Set.subset_union_left⟩

end Instr

end Lib
end PrefillOpt
