import Mathlib.Data.Finset.Card
import Mathlib.Data.List.Pairwise
import Mathlib.Data.List.Perm.Basic
import Mathlib.Order.Lattice

/-!
# Selection — the largest values of a sequence, the first of equal ones first

`Beats` orders the indices of a sequence: by the value, and among equal values the smaller index
comes first.
-/

namespace PrefillOpt
namespace Lib

variable {V : Type} [LinearOrder V]

/-! ## The order of the indices -/

/-- `i` comes before `j`. -/
def Beats (v : Nat → V) (i j : Nat) : Prop :=
  v j < v i ∨ (v j ≤ v i ∧ i < j)

namespace Beats

variable {v : Nat → V} {i j k : Nat}

theorem le (h : Beats v i j) : v j ≤ v i := by
  rcases h with h | h
  · exact le_of_lt h
  · exact h.1

theorem trans (hij : Beats v i j) (hjk : Beats v j k) : Beats v i k := by
  rcases hij with hij | ⟨hij, hltij⟩
  · exact .inl (lt_of_le_of_lt hjk.le hij)
  · rcases hjk with hjk | ⟨hjk, hltjk⟩
    · exact .inl (lt_of_lt_of_le hjk hij)
    · exact .inr ⟨le_trans hjk hij, Nat.lt_trans hltij hltjk⟩

theorem asymm (hij : Beats v i j) : ¬Beats v j i := by
  intro hji
  rcases hij.trans hji with h | h
  · exact lt_irrefl (v i) h
  · exact Nat.lt_irrefl i h.2

/-- A later index comes first only with a larger value. -/
theorem of_lt (hij : i < j) : Beats v i j ∨ v i < v j := by
  by_cases h : v i < v j
  · exact .inr h
  · exact .inl (.inr ⟨not_lt.1 h, hij⟩)

end Beats

/-! ## The scan from a seed -/

section Seed

variable {α : Type} (pay : α → Nat) (val : α → V)

/-- A scan in which only a larger value replaces the best one; `pay` is what it leaves with it. -/
def scanFrom (l : List α) (seed : Nat × V) : Nat × V :=
  l.foldl (fun best a => if best.2 < val a then (pay a, val a) else best) seed

variable {pay val} {l : List α} {seed : Nat × V}

theorem scanFrom_cons (a : α) : scanFrom pay val (a :: l) seed
    = scanFrom pay val l (if seed.2 < val a then (pay a, val a) else seed) := rfl

theorem scanFrom_append (l₁ l₂ : List α) : scanFrom pay val (l₁ ++ l₂) seed
    = scanFrom pay val l₂ (scanFrom pay val l₁ seed) :=
  List.foldl_append ..

/-- The seed stays when nothing is larger. -/
theorem scanFrom_seed (h : ∀ a ∈ l, val a ≤ seed.2) : scanFrom pay val l seed = seed := by
  induction l with
  | nil => rfl
  | cons a l ih =>
      rw [scanFrom_cons, if_neg (not_lt.2 (h a List.mem_cons_self))]
      exact ih fun b hb => h b (List.mem_cons_of_mem a hb)

theorem scanFrom_lt {B : V} (hseed : seed.2 < B) (h : ∀ a ∈ l, val a < B) :
    (scanFrom pay val l seed).2 < B := by
  induction l generalizing seed with
  | nil => exact hseed
  | cons a l ih =>
      rw [scanFrom_cons]
      refine ih ?_ fun b hb => h b (List.mem_cons_of_mem a hb)
      split_ifs
      · exact h a List.mem_cons_self
      · exact hseed

theorem scanFrom_le {B : V} (hseed : seed.2 ≤ B) (h : ∀ a ∈ l, val a ≤ B) :
    (scanFrom pay val l seed).2 ≤ B := by
  induction l generalizing seed with
  | nil => exact hseed
  | cons a l ih =>
      rw [scanFrom_cons]
      refine ih ?_ fun b hb => h b (List.mem_cons_of_mem a hb)
      split_ifs
      · exact h a List.mem_cons_self
      · exact hseed

/-- The first of the largest values wins when it is larger than the seed. -/
theorem scanFrom_first {l₁ l₂ : List α} {a : α} (hseed : seed.2 < val a)
    (hbefore : ∀ b ∈ l₁, val b < val a) (hafter : ∀ b ∈ l₂, val b ≤ val a) :
    scanFrom pay val (l₁ ++ a :: l₂) seed = (pay a, val a) := by
  have hlt : (scanFrom pay val l₁ seed).2 < val a := scanFrom_lt hseed hbefore
  rw [scanFrom_append, scanFrom_cons, if_pos hlt]
  exact scanFrom_seed hafter

/-- The scan over consecutive indices, when `m` is among them and comes first. -/
theorem scanFrom_range' {pay : Nat → Nat} {val : Nat → V} {lo n m : Nat} (hlo : lo ≤ m)
    (hm : m < lo + n) (hseed : seed.2 < val m) (hbefore : ∀ i, lo ≤ i → i < m → val i < val m)
    (hafter : ∀ i, m < i → i < lo + n → val i ≤ val m) :
    scanFrom pay val (List.range' lo n) seed = (pay m, val m) := by
  have hsplit : List.range' lo n
      = List.range' lo (m - lo) ++ m :: List.range' (m + 1) (lo + n - (m + 1)) := by
    have hn : n = m - lo + (1 + (lo + n - (m + 1))) := by omega
    have hlo' : lo + (m - lo) = m := by omega
    conv_lhs => rw [hn, ← List.range'_append_1, hlo', ← List.range'_append_1]
    rfl
  rw [hsplit]
  refine scanFrom_first hseed ?_ ?_
  · intro i hi
    have hi := List.mem_range'_1.1 hi
    exact hbefore i hi.1 (by omega)
  · intro i hi
    have hi := List.mem_range'_1.1 hi
    exact hafter i hi.1 (by omega)

end Seed

/-! ## The first index -/

/-- The scan over the indices below `n + 1`, which keeps the first largest value. -/
def argmax (v : Nat → V) : Nat → Nat
  | 0 => 0
  | n + 1 => if v (argmax v n) < v (n + 1) then n + 1 else argmax v n

/-- The index comes before all others. -/
structure IsFirst (v : Nat → V) (n i : Nat) : Prop where
  lt : i < n
  beats : ∀ j < n, j ≠ i → Beats v i j

theorem IsFirst.unique {v : Nat → V} {n i j : Nat} (hi : IsFirst v n i) (hj : IsFirst v n j) :
    i = j := by
  by_contra hne
  exact (hi.beats j hj.lt (Ne.symm hne)).asymm (hj.beats i hi.lt hne)

theorem argmax_isFirst (v : Nat → V) (n : Nat) : IsFirst v (n + 1) (argmax v n) := by
  induction n with
  | zero =>
      refine ⟨Nat.one_pos, ?_⟩
      intro j hj hne
      exact absurd (Nat.lt_one_iff.1 hj) hne
  | succ n ih =>
      rw [argmax]
      by_cases hnew : v (argmax v n) < v (n + 1)
      · rw [if_pos hnew]
        refine ⟨Nat.lt_succ_self _, ?_⟩
        intro j hj hne
        have hlt : j < n + 1 := by omega
        by_cases hold : j = argmax v n
        · exact .inl (hold ▸ hnew)
        · exact .inl (lt_of_le_of_lt (ih.beats j hlt hold).le hnew)
      · rw [if_neg hnew]
        refine ⟨Nat.lt_succ_of_lt ih.lt, ?_⟩
        intro j hj hne
        rcases Nat.lt_succ_iff_lt_or_eq.1 hj with hlt | rfl
        · exact ih.beats j hlt hne
        · exact .inr ⟨not_lt.1 hnew, ih.lt⟩

/-! ## The first `k` indices -/

/-- The new entry goes before the entries with a smaller value; the last entry of the list comes
first. -/
def insertLast (v : Nat → V) (i : Nat) : List Nat → List Nat
  | [] => [i]
  | e :: es => if v e < v i then e :: insertLast v i es else i :: e :: es

theorem insertLast_perm (v : Nat → V) (i : Nat) (es : List Nat) :
    (insertLast v i es).Perm (i :: es) := by
  induction es with
  | nil => exact .refl _
  | cons e es ih =>
      rw [insertLast]
      split_ifs
      · exact (ih.cons e).trans (.swap i e es)
      · exact .refl _

theorem insertLast_pairwise {v : Nat → V} {i : Nat} {es : List Nat}
    (hes : es.Pairwise fun a b => Beats v b a) (hlt : ∀ e ∈ es, e < i) :
    (insertLast v i es).Pairwise fun a b => Beats v b a := by
  induction es with
  | nil => exact List.pairwise_singleton _ _
  | cons e es ih =>
      rcases List.pairwise_cons.1 hes with ⟨he, hes'⟩
      rw [insertLast]
      split_ifs with hnew
      · apply List.Pairwise.cons
        · intro x hx
          rcases List.mem_cons.1 ((insertLast_perm v i es).mem_iff.1 hx) with rfl | hx
          · exact .inl hnew
          · exact he x hx
        · exact ih hes' fun x hx => hlt x (List.mem_cons_of_mem e hx)
      · apply List.Pairwise.cons _ hes
        have hei : Beats v e i := .inr ⟨not_lt.1 hnew, hlt e List.mem_cons_self⟩
        intro x hx
        rcases List.mem_cons.1 hx with rfl | hx
        · exact hei
        · exact (he x hx).trans hei

/-- `es` holds the first `k` of the indices below `n`, the last one first. -/
structure HoldsFirst (v : Nat → V) (k n : Nat) (es : List Nat) : Prop where
  length : es.length = min k n
  lt : ∀ e ∈ es, e < n
  sorted : es.Pairwise fun a b => Beats v b a
  best : ∀ j < n, j ∉ es → ∀ e ∈ es, Beats v e j

theorem HoldsFirst.nil (v : Nat → V) (k : Nat) : HoldsFirst v k 0 [] where
  length := (Nat.min_zero k).symm
  lt _ h := by cases h
  sorted := .nil
  best _ _ _ _ h := by cases h

variable {v : Nat → V} {k n : Nat} {es : List Nat}

/-- There is room for one more. -/
theorem HoldsFirst.insert (h : HoldsFirst v k n es) (hroom : es.length < k) :
    HoldsFirst v k (n + 1) (insertLast v n es) := by
  have hperm := insertLast_perm v n es
  have hlen := h.length
  refine ⟨?_, ?_, insertLast_pairwise h.sorted h.lt, ?_⟩
  · rw [hperm.length_eq, List.length_cons]
    omega
  · intro e he
    rcases List.mem_cons.1 (hperm.mem_iff.1 he) with rfl | he
    · exact Nat.lt_succ_self _
    · exact Nat.lt_succ_of_lt (h.lt e he)
  · -- nothing is left out yet
    intro j hj hout
    have hall : ∀ j < n, j ∈ es := by
      have hsub : es ⊆ List.range n := fun e he => List.mem_range.2 (h.lt e he)
      have hnodup : es.Nodup := by
        apply h.sorted.imp
        rintro a b hab rfl
        exact hab.asymm hab
      have hsubperm := List.subperm_of_subset hnodup hsub
      have hle : (List.range n).length ≤ es.length := by
        rw [List.length_range]
        omega
      have hperm := hsubperm.perm_of_length_le hle
      intro j hj
      exact hperm.mem_iff.2 (List.mem_range.2 hj)
    refine absurd ?_ hout
    rw [hperm.mem_iff]
    rcases Nat.lt_succ_iff_lt_or_eq.1 hj with hj | rfl
    · exact List.mem_cons_of_mem _ (hall j hj)
    · exact List.mem_cons_self

/-- The last entry comes before the new one, which is left out. -/
theorem HoldsFirst.skip {last : Nat} (h : HoldsFirst v k n (last :: es))
    (hfull : (last :: es).length = k) (hskip : v n ≤ v last) :
    HoldsFirst v k (n + 1) (last :: es) := by
  have hlen := h.length
  have hlast : Beats v last n := .inr ⟨hskip, h.lt last List.mem_cons_self⟩
  refine ⟨by omega, fun e he => Nat.lt_succ_of_lt (h.lt e he), h.sorted, ?_⟩
  intro j hj hout e he
  rcases Nat.lt_succ_iff_lt_or_eq.1 hj with hj | rfl
  · exact h.best j hj hout e he
  · rcases List.mem_cons.1 he with rfl | he
    · exact hlast
    · exact ((List.pairwise_cons.1 h.sorted).1 e he).trans hlast

/-- The new entry takes the place of the last one. -/
theorem HoldsFirst.replace {last : Nat} (h : HoldsFirst v k n (last :: es))
    (hfull : (last :: es).length = k) (hnew : v last < v n) :
    HoldsFirst v k (n + 1) (insertLast v n es) := by
  have hperm := insertLast_perm v n es
  have hlen := h.length
  rcases List.pairwise_cons.1 h.sorted with ⟨hlast, hes⟩
  have hlt : ∀ e ∈ es, e < n := fun e he => h.lt e (List.mem_cons_of_mem last he)
  refine ⟨?_, ?_, insertLast_pairwise hes hlt, ?_⟩
  · rw [hperm.length_eq, List.length_cons]
    rw [List.length_cons] at hfull hlen
    omega
  · intro e he
    rcases List.mem_cons.1 (hperm.mem_iff.1 he) with rfl | he
    · exact Nat.lt_succ_self _
    · exact Nat.lt_succ_of_lt (hlt e he)
  · intro j hj hout e he
    rw [hperm.mem_iff, List.mem_cons, not_or] at hout
    have hbeats : Beats v e last := by
      rcases List.mem_cons.1 (hperm.mem_iff.1 he) with rfl | he
      · exact .inl hnew
      · exact hlast e he
    have hjn : j < n := by omega
    by_cases hjlast : j = last
    · exact hjlast ▸ hbeats
    · have hnot : j ∉ last :: es := by
        rw [List.mem_cons, not_or]
        exact ⟨hjlast, hout.2⟩
      exact hbeats.trans (h.best j hjn hnot last List.mem_cons_self)

/-- The entry that was inserted first of all is the first index. -/
theorem HoldsFirst.isFirst (h : HoldsFirst v k n es) {i : Nat} (hi : es.getLast? = some i) :
    IsFirst v n i := by
  rcases List.getLast?_eq_some_iff.1 hi with ⟨es', rfl⟩
  have hmem : i ∈ es' ++ [i] := List.mem_append_right es' (List.mem_singleton_self i)
  refine ⟨h.lt i hmem, ?_⟩
  intro j hj hne
  by_cases hjin : j ∈ es' ++ [i]
  · have hjes : j ∈ es' := by
      rcases List.mem_append.1 hjin with hj' | hj'
      · exact hj'
      · exact absurd (List.mem_singleton.1 hj') hne
    exact (List.pairwise_append.1 h.sorted).2.2 j hjes i (List.mem_singleton_self i)
  · exact h.best j hj hjin i hmem

/-! ## The largest values as a set -/

/-- Each value in `S` is larger than all others below `n`. -/
structure IsTop (v : Nat → V) (n : Nat) (S : Finset Nat) : Prop where
  lt : ∀ i ∈ S, i < n
  above : ∀ i ∈ S, ∀ j < n, j ∉ S → v j < v i

theorem IsTop.congr {v v' : Nat → V} {n : Nat} {S : Finset Nat} (h : IsTop v n S)
    (heq : ∀ i < n, v i = v' i) : IsTop v' n S := by
  refine ⟨h.lt, fun i hi j hj hj' => ?_⟩
  rw [← heq i (h.lt i hi), ← heq j hj]
  exact h.above i hi j hj hj'

theorem IsTop.unique {v : Nat → V} {n : Nat} {S S' : Finset Nat} (h : IsTop v n S)
    (h' : IsTop v n S') (hcard : S.card = S'.card) : S = S' := by
  by_contra hne
  have hleft : ¬S ⊆ S' := fun hsub => hne (Finset.eq_of_subset_of_card_le hsub hcard.ge)
  have hright : ¬S' ⊆ S := fun hsub => hne (Finset.eq_of_subset_of_card_le hsub hcard.le).symm
  rcases Finset.not_subset.1 hleft with ⟨i, hi, hi'⟩
  rcases Finset.not_subset.1 hright with ⟨j, hj, hj'⟩
  exact lt_asymm (h.above i hi j (h'.lt j hj) hj') (h'.above j hj i (h.lt i hi) hi')

/-- The first indices of a list in order, when the values are different. -/
theorem isTop_take {v : Nat → V} {n : Nat} {es : List Nat} (hperm : es.Perm (List.range n))
    (hsorted : es.Pairwise fun i j => v j ≤ v i)
    (hdistinct : ∀ i < n, ∀ j < n, v i = v j → i = j) (k : Nat) :
    IsTop v n (es.take k).toFinset := by
  have hmem : ∀ i, i ∈ es ↔ i < n := fun i => by rw [hperm.mem_iff, List.mem_range]
  have hlt : ∀ i ∈ (es.take k).toFinset, i < n := by
    intro i hi
    exact (hmem i).1 (List.mem_of_mem_take (List.mem_toFinset.1 hi))
  refine ⟨hlt, fun i hi j hj hj' => ?_⟩
  rw [List.mem_toFinset] at hj'
  have hdrop : j ∈ es.drop k := by
    have hj'' := (hmem j).2 hj
    rw [← List.take_append_drop k es] at hj''
    exact (List.mem_append.1 hj'').resolve_left hj'
  rw [← List.take_append_drop k es] at hsorted
  have hle := (List.pairwise_append.1 hsorted).2.2 i (List.mem_toFinset.1 hi) j hdrop
  apply lt_of_le_of_ne hle
  intro heq
  rw [← hdistinct j hj i (hlt i hi) heq] at hi
  exact hj' (List.mem_toFinset.1 hi)

end Lib
end PrefillOpt
