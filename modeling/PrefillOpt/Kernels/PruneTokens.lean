import Mathlib.Data.List.Sort
import Mathlib.Data.Rat.Floor
import Mathlib.Tactic.IntervalCases
import Mathlib.Tactic.NormNum
import PrefillOpt.CpuShift
import PrefillOpt.Lib.Loops

/-!
# Kernels.PruneTokens — rows of small norm are dropped

`nn-cpu-ops.cpp`, `pruneTokensForward_F32_F32`.  The rows with the greatest norms are selected by a
partial sort, the last row always among them, sorted by index again and moved to the front of the
batch in place.
-/

namespace PrefillOpt
namespace Kernels

open Lib

/-- What the op changes.  A row is the list of its floats. -/
structure PruneState (F : Type) where
  rows : Nat → List F
  positions : Nat → F
  rowState : CpuRowState

/-- `std::partial_sort` to position `keep` by `a.first > b.first`: the elements are reordered, the
first `keep` of them are in order, and no later one goes before one of them. -/
def IsPartialSort {F : Type} [LT F] (keep : Nat) (l l' : List (F × Nat)) : Prop :=
  l'.Perm l ∧ ((l'.take keep).Pairwise fun a b => ¬a.1 < b.1) ∧
    ∀ a ∈ l'.take keep, ∀ b ∈ l'.drop keep, ¬a.1 < b.1

/-! ## Moving the rows -/

section Moving

variable {F : Type}

/-- `memcpy` of row `src` to row `i`, and its position. -/
def moveRow (s : PruneState F) (e : Nat × Nat) : PruneState F :=
  { s with
    rows := if e.1 ≠ e.2 then Function.update s.rows e.2 (s.rows e.1) else s.rows
    positions := Function.update s.positions e.2 (s.positions e.1) }

theorem moveRow_rows (s : PruneState F) (e : Nat × Nat) :
    (moveRow s e).rows = Function.update s.rows e.2 (s.rows e.1) := by
  rcases e with ⟨src, i⟩
  by_cases h : src = i
  · subst h
    simp [moveRow]
  · simp [moveRow, h]

theorem foldl_moveRow (idx : List Nat) (s : PruneState F) :
    (idx.zipIdx.foldl moveRow s).rows = compact idx s.rows ∧
      (idx.zipIdx.foldl moveRow s).positions = compact idx s.positions := by
  have key : ∀ (es : List (Nat × Nat)) (s : PruneState F),
      (es.foldl moveRow s).rows
          = es.foldl (fun m e => Function.update m e.2 (m e.1)) s.rows ∧
        (es.foldl moveRow s).positions
          = es.foldl (fun m e => Function.update m e.2 (m e.1)) s.positions := by
    intro es
    induction es with
    | nil => exact fun s => ⟨rfl, rfl⟩
    | cons e es ih =>
        intro s
        rcases ih (moveRow s e) with ⟨hrows, hpositions⟩
        rw [moveRow_rows] at hrows
        exact ⟨hrows, hpositions⟩
  exact key idx.zipIdx s

end Moving

/-! ## The op -/

section Op

variable {F : Type} [Add F] [Mul F] [Zero F]

/-- `sum += x[i] * x[i]`. -/
def squaredNorm (row : List F) : F :=
  row.foldl (fun sum x => sum + x * x) 0

/-- The scores; the last row gets `infinity`. -/
def pruneScores (infinity : F) (rows : Nat → List F) (cur : Nat) : List (F × Nat) :=
  ((List.range cur).map fun b => (squaredNorm (rows b), b)).modify (cur - 1)
    fun e => (infinity, e.2)

/-- The score of a row. -/
def rowScore (infinity : F) (rows : Nat → List F) (cur b : Nat) : F :=
  if b = cur - 1 then infinity else squaredNorm (rows b)

theorem pruneScores_eq (infinity : F) (rows : Nat → List F) (cur : Nat) :
    pruneScores infinity rows cur
      = (List.range cur).map fun b => (rowScore infinity rows cur b, b) := by
  apply List.ext_getElem
  · simp [pruneScores]
  · intro i hi hi'
    simp only [pruneScores, List.getElem_modify, List.getElem_map, List.getElem_range, rowScore]
    by_cases hlast : i = cur - 1
    · simp [hlast]
    · simp [hlast, Ne.symm hlast]

variable (partialSort : Nat → List (F × Nat) → List (F × Nat)) (toUint : F → Nat) (infinity : F)

/-- The selected rows, in the order of the batch. -/
def keepIdx (rows : Nat → List F) (cur keep : Nat) : List Nat :=
  ((partialSort keep (pruneScores infinity rows cur)).take keep |>.map Prod.snd).mergeSort
    (· ≤ ·)

theorem mem_keepIdx {rows : Nat → List F} {cur keep b : Nat} :
    b ∈ keepIdx partialSort infinity rows cur keep ↔
      ∃ e ∈ (partialSort keep (pruneScores infinity rows cur)).take keep, e.2 = b := by
  rw [keepIdx, List.mem_mergeSort, List.mem_map]

variable [One F] [NatCast F] [LinearOrder F]

/-- `(NnUint)(cur * ratio)`, at least 1. -/
def pruneKeep (ratio : F) (cur : Nat) : Nat :=
  let keep := toUint (cur * ratio)
  if keep < 1 then 1 else keep

def pruneTokensForward (ratio : F) (threadIndex batchSize : Nat) (s : PruneState F) :
    PruneState F :=
  if threadIndex ≠ 0 then s
  else
    let cur := activeRowCount s.rowState batchSize
    if 1 ≤ ratio ∨ cur ≤ 1 then { s with rowState := { s.rowState with activeRows := cur } }
    else
      let keep := pruneKeep toUint ratio cur
      if cur ≤ keep then { s with rowState := { s.rowState with activeRows := cur } }
      else
        let s' := (keepIdx partialSort infinity s.rows cur keep).zipIdx.foldl moveRow s
        { s' with rowState := { s.rowState with activeRows := keep } }

end Op

/-! ## The selection -/

section Selection

variable {F : Type} [Add F] [Mul F] [Zero F] [LinearOrder F]
  {partialSort : Nat → List (F × Nat) → List (F × Nat)} {infinity : F} {rows : Nat → List F}
  {cur keep : Nat}

variable (hsort : IsPartialSort keep (pruneScores infinity rows cur)
  (partialSort keep (pruneScores infinity rows cur)))
include hsort

/-- What is in the sorted scores. -/
theorem mem_sorted {e : F × Nat} :
    e ∈ partialSort keep (pruneScores infinity rows cur) ↔
      e.2 < cur ∧ e.1 = rowScore infinity rows cur e.2 := by
  rw [hsort.1.mem_iff, pruneScores_eq, List.mem_map]
  constructor
  · rintro ⟨b, hb, rfl⟩
    exact ⟨List.mem_range.1 hb, rfl⟩
  · rintro ⟨hb, hscore⟩
    exact ⟨e.2, List.mem_range.2 hb, Prod.ext hscore.symm rfl⟩

theorem nodup_sorted_snd :
    ((partialSort keep (pruneScores infinity rows cur)).map Prod.snd).Nodup := by
  rw [(hsort.1.map Prod.snd).nodup_iff, pruneScores_eq, List.map_map]
  simpa [Function.comp_def] using List.nodup_range

theorem length_sorted : (partialSort keep (pruneScores infinity rows cur)).length = cur := by
  rw [hsort.1.length_eq, pruneScores_eq, List.length_map, List.length_range]

/-- A row that is not selected is behind the selected ones. -/
theorem mem_drop_of_notMem {b : Nat} (hb : b < cur)
    (h : b ∉ keepIdx partialSort infinity rows cur keep) :
    (rowScore infinity rows cur b, b)
      ∈ (partialSort keep (pruneScores infinity rows cur)).drop keep := by
  have hmem := (mem_sorted hsort (e := (rowScore infinity rows cur b, b))).2 ⟨hb, rfl⟩
  rw [← List.take_append_drop keep (partialSort keep _), List.mem_append] at hmem
  refine hmem.resolve_left fun htake => h ?_
  exact (mem_keepIdx ..).2 ⟨_, htake, rfl⟩

/-- The selected rows are different rows of the batch, in their order. -/
theorem keepIdx_increasing :
    (keepIdx partialSort infinity rows cur keep).Pairwise (· < ·) := by
  have hnd : (keepIdx partialSort infinity rows cur keep).Nodup := by
    rw [keepIdx, (List.mergeSort_perm _ _).nodup_iff, List.map_take]
    exact (nodup_sorted_snd hsort).sublist (List.take_sublist ..)
  have hle : (keepIdx partialSort infinity rows cur keep).Pairwise (· ≤ ·) :=
    List.sortedLE_iff_pairwise.1 List.sortedLE_mergeSort
  exact (hle.and hnd).imp fun h => Nat.lt_of_le_of_ne h.1 h.2

theorem keepIdx_length (hkeep : keep ≤ cur) :
    (keepIdx partialSort infinity rows cur keep).length = keep := by
  rw [keepIdx, List.length_mergeSort, List.length_map, List.length_take, length_sorted hsort,
    Nat.min_eq_left hkeep]

theorem keepIdx_lt {b : Nat} (h : b ∈ keepIdx partialSort infinity rows cur keep) : b < cur := by
  rcases (mem_keepIdx ..).1 h with ⟨e, he, rfl⟩
  exact ((mem_sorted hsort).1 (List.mem_of_mem_take he)).1

/-- A selected row has a score at least that of a row that is dropped. -/
theorem rowScore_le {a b : Nat} (ha : a ∈ keepIdx partialSort infinity rows cur keep)
    (hb : b < cur) (hdrop : b ∉ keepIdx partialSort infinity rows cur keep) :
    rowScore infinity rows cur b ≤ rowScore infinity rows cur a := by
  rcases (mem_keepIdx ..).1 ha with ⟨e, he, rfl⟩
  have hscore := ((mem_sorted hsort).1 (List.mem_of_mem_take he)).2
  have hle := hsort.2.2 e he _ (mem_drop_of_notMem hsort hb hdrop)
  rw [hscore] at hle
  exact not_lt.1 hle

/-- The last row is selected: its score is infinite, those of the others are not. -/
theorem last_mem_keepIdx (hkeep : 0 < keep) (hcur : keep ≤ cur)
    (hfinite : ∀ b < cur, squaredNorm (rows b) < infinity) :
    cur - 1 ∈ keepIdx partialSort infinity rows cur keep := by
  by_contra hdrop
  have hpos : 0 < (keepIdx partialSort infinity rows cur keep).length := by
    rw [keepIdx_length hsort hcur]
    exact hkeep
  have hfirst := List.getElem_mem hpos
  have hle := rowScore_le hsort hfirst (show cur - 1 < cur by omega) hdrop
  have hne : (keepIdx partialSort infinity rows cur keep)[0] ≠ cur - 1 := fun heq =>
    hdrop (heq ▸ hfirst)
  rw [rowScore, if_pos rfl, rowScore, if_neg hne] at hle
  exact absurd hle (not_le.2 (hfinite _ (keepIdx_lt hsort hfirst)))

/-- The last selected row is the last row. -/
theorem keepIdx_getLast (hkeep : 0 < keep) (hcur : keep ≤ cur)
    (hfinite : ∀ b < cur, squaredNorm (rows b) < infinity) :
    (keepIdx partialSort infinity rows cur keep).getLast? = some (cur - 1) := by
  have hlast := last_mem_keepIdx hsort hkeep hcur hfinite
  have hinc := keepIdx_increasing hsort
  have hlt : ∀ b ∈ keepIdx partialSort infinity rows cur keep, b < cur := fun b => keepIdx_lt hsort
  generalize keepIdx partialSort infinity rows cur keep = idx at *
  rcases List.eq_nil_or_concat idx with rfl | ⟨front, a, rfl⟩
  · cases hlast
  · rw [List.concat_eq_append] at *
    have ha := hlt a (by simp)
    have hle : cur - 1 ≤ a := by
      rcases List.mem_append.1 hlast with hfront | hback
      · exact ((List.pairwise_append.1 hinc).2.2 _ hfront a (by simp)).le
      · rw [List.mem_singleton.1 hback]
    rw [List.getLast?_append_of_ne_nil _ (by simp), List.getLast?_singleton]
    congr 1
    omega

end Selection

/-! ## The op on a batch -/

/-- Pruning keeps a subsequence of the rows with its positions: the last row and rows whose norms
are not smaller than those of the rows it drops.  No row is read after it has been overwritten. -/
theorem pruneTokens_selects {F : Type} [Add F] [Mul F] [Zero F] [One F] [NatCast F] [LinearOrder F]
    (partialSort : Nat → List (F × Nat) → List (F × Nat))
    (hsort : ∀ keep l, keep ≤ l.length → IsPartialSort keep l (partialSort keep l))
    (toUint : F → Nat) (infinity ratio : F) (batchSize : Nat) (s : PruneState F)
    (hcur : 2 ≤ activeRowCount s.rowState batchSize) (hratio : ratio < 1)
    (hkeep : pruneKeep toUint ratio (activeRowCount s.rowState batchSize)
      < activeRowCount s.rowState batchSize)
    (hfinite : ∀ b < activeRowCount s.rowState batchSize, squaredNorm (s.rows b) < infinity) :
    let cur := activeRowCount s.rowState batchSize
    let keep := pruneKeep toUint ratio cur
    let idx := keepIdx partialSort infinity s.rows cur keep
    let s' := pruneTokensForward partialSort toUint infinity ratio 0 batchSize s
    idx.length = keep ∧ idx.Pairwise (· < ·) ∧ (∀ b ∈ idx, b < cur) ∧
      idx.getLast? = some (cur - 1) ∧
      (∀ i src, idx[i]? = some src →
        i ≤ src ∧ s'.rows i = s.rows src ∧ s'.positions i = s.positions src) ∧
      (∀ i, keep ≤ i → s'.rows i = s.rows i ∧ s'.positions i = s.positions i) ∧
      (∀ a ∈ idx, a ≠ cur - 1 → ∀ b < cur, b ∉ idx →
        squaredNorm (s.rows b) ≤ squaredNorm (s.rows a)) ∧
      activeRowCount s'.rowState batchSize = keep := by
  intro cur keep idx s'
  have hlt : keep < cur := hkeep
  have hpos : 0 < keep := by
    simp only [keep, pruneKeep]
    split <;> omega
  have hlen : (pruneScores infinity s.rows cur).length = cur := by
    rw [pruneScores_eq, List.length_map, List.length_range]
  have hs := hsort keep (pruneScores infinity s.rows cur) (by omega)
  have hlength : idx.length = keep := keepIdx_length hs hkeep.le
  have hinc : idx.Pairwise (· < ·) := keepIdx_increasing hs
  have hlast := keepIdx_getLast hs hpos hkeep.le hfinite
  have hrun : s' = { idx.zipIdx.foldl moveRow s with
      rowState := { s.rowState with activeRows := keep } } := by
    have hnot : ¬(1 ≤ ratio ∨ cur ≤ 1) := by
      rintro (h | h)
      · exact absurd h (not_le.2 hratio)
      · omega
    simp only [s', pruneTokensForward, ne_eq, not_true, if_false]
    rw [if_neg hnot, if_neg (Nat.not_le.2 hkeep)]
  have hrows : s'.rows = compact idx s.rows := by
    rw [hrun]
    exact (foldl_moveRow idx s).1
  have hpositions : s'.positions = compact idx s.positions := by
    rw [hrun]
    exact (foldl_moveRow idx s).2
  refine ⟨hlength, hinc, fun b => keepIdx_lt hs, hlast, fun i src hsrc => ?_, fun i hi => ?_,
    fun a ha hne b hb hdrop => ?_, ?_⟩
  · rcases List.getElem?_eq_some_iff.1 hsrc with ⟨hi, rfl⟩
    rw [hrows, hpositions, (compact_spec hinc s.rows).1 i hi,
      (compact_spec hinc s.positions).1 i hi]
    exact ⟨le_getElem_of_increasing hinc hi, rfl, rfl⟩
  · rw [hrows, hpositions, (compact_spec hinc s.rows).2 i (by omega),
      (compact_spec hinc s.positions).2 i (by omega)]
    exact ⟨rfl, rfl⟩
  · have hle := rowScore_le hs ha hb hdrop
    have hb' : b ≠ cur - 1 := by
      rintro rfl
      exact hdrop (List.mem_of_getLast? hlast)
    rwa [rowScore, if_neg hb', rowScore, if_neg hne] at hle
  · have hbatch : cur ≤ batchSize := by
      simp only [cur, activeRowCount]
      split <;> omega
    rw [hrun, activeRowCount, if_neg (by simp only; omega)]

/-- A full sort is a partial sort. -/
theorem isPartialSort_mergeSort {F : Type} [LinearOrder F] (keep : Nat) (l : List (F × Nat)) :
    IsPartialSort keep l (l.mergeSort fun a b => b.1 ≤ a.1) := by
  have hsorted : (l.mergeSort fun a b => b.1 ≤ a.1).Pairwise fun a b => ¬a.1 < b.1 := by
    refine (List.pairwise_mergeSort (fun a b c hab hbc => ?_) (fun a b => ?_) l).imp fun h => ?_
    · simp only [decide_eq_true_eq] at *
      exact hbc.trans hab
    · simp only [Bool.or_eq_true, decide_eq_true_eq]
      exact le_total ..
    · exact not_lt.2 (of_decide_eq_true h)
  have hsplit := hsorted
  rw [← List.take_append_drop keep (l.mergeSort _)] at hsplit
  exact ⟨List.mergeSort_perm .., hsorted.sublist (List.take_sublist ..),
    (List.pairwise_append.1 hsplit).2.2⟩

/-- Five rows of norms 9, 1, 4, 1, 0 at ratio 3/5: three rows are left. -/
theorem pruneTokens_selects_three :
    let rows : Nat → List ℚ := fun b => [[3, 1, 2, 1, 0].getD b 0]
    let partialSort := fun (_ : Nat) (l : List (ℚ × Nat)) => l.mergeSort fun a b => b.1 ≤ a.1
    let s' := pruneTokensForward partialSort Nat.floor 100 (3 / 5) 0 5 ⟨rows, fun b => b, ⟨0, 1, 0⟩⟩
    activeRowCount s'.rowState 5 = 3 ∧
      (keepIdx partialSort 100 rows 5 3).getLast? = some 4 := by
  intro rows partialSort s'
  have hcur : activeRowCount ⟨0, 1, 0⟩ 5 = 5 := by decide
  have hkeep : pruneKeep Nat.floor (3 / 5 : ℚ) 5 = 3 := by
    norm_num [pruneKeep]
  have hfinite : ∀ b < 5, squaredNorm (rows b) < 100 := by
    intro b hb
    interval_cases b <;> norm_num [rows, squaredNorm]
  have h := pruneTokens_selects partialSort (fun keep l _ => isPartialSort_mergeSort keep l)
    Nat.floor 100 (3 / 5) 5 ⟨rows, fun b => b, ⟨0, 1, 0⟩⟩ (by decide) (by norm_num)
    (by rw [hcur, hkeep]; decide) hfinite
  simp only [hcur, hkeep] at h
  exact ⟨h.2.2.2.2.2.2.2, h.2.2.2.1⟩

end Kernels
end PrefillOpt
