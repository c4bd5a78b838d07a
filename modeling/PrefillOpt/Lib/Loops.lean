import Mathlib.Algebra.BigOperators.Group.Finset.Basic
import PrefillOpt.Lib.Memory

/-!
# Loops — pre- and postconditions of loops over lists

A loop is a left fold.  The rules say what holds after it: what every turn keeps, what one turn
establishes and the others keep, and what a counting loop reaches.
-/

namespace PrefillOpt
namespace Lib

section Rules

variable {σ κ : Type} {f : σ → κ → σ} {l : List κ}

theorem foldl_keeps {P : σ → Prop} (h : ∀ a ∈ l, ∀ s, P s → P (f s a)) {s : σ} (hs : P s) :
    P (l.foldl f s) := by
  induction l generalizing s with
  | nil => exact hs
  | cons a l ih =>
      exact ih (fun b hb => h b (List.mem_cons_of_mem a hb)) (h a List.mem_cons_self s hs)

/-- The turn of `k` takes `P` to `Q`, the other turns keep both. -/
theorem foldl_once {P Q : σ → Prop} {k : κ} (hnd : l.Nodup) (hk : k ∈ l)
    (hpre : ∀ a ∈ l, a ≠ k → ∀ s, P s → P (f s a))
    (hown : ∀ s, P s → Q (f s k))
    (hpost : ∀ a ∈ l, a ≠ k → ∀ s, Q s → Q (f s a)) {s : σ} (hs : P s) :
    Q (l.foldl f s) := by
  induction l generalizing s with
  | nil => cases hk
  | cons a l ih =>
      have hnd' := List.nodup_cons.1 hnd
      have hrest : ∀ b ∈ l, b ∈ a :: l := fun b hb => List.mem_cons_of_mem a hb
      by_cases ha : a = k
      · subst ha
        have hne : ∀ b ∈ l, b ≠ a := fun b hb heq => hnd'.1 (heq ▸ hb)
        exact foldl_keeps (fun b hb => hpost b (hrest b hb) (hne b hb)) (hown s hs)
      · have hmem : k ∈ l := (List.mem_cons.1 hk).resolve_left (Ne.symm ha)
        exact ih hnd'.2 hmem (fun b hb => hpre b (hrest b hb)) (fun b hb => hpost b (hrest b hb))
          (hpre a List.mem_cons_self ha s hs)

/-- Some turn establishes `Q`, whatever was before it, and the others keep it. -/
theorem foldl_establishes {Q : σ → Prop} {A : κ → Prop} (hmine : ∃ a ∈ l, A a)
    (hown : ∀ a ∈ l, A a → ∀ s, Q (f s a))
    (hkeep : ∀ a ∈ l, ¬A a → ∀ s, Q s → Q (f s a)) (s : σ) :
    Q (l.foldl f s) := by
  induction l generalizing s with
  | nil =>
      rcases hmine with ⟨a, ha, -⟩
      cases ha
  | cons a l ih =>
      have hrest : ∀ b ∈ l, b ∈ a :: l := fun b hb => List.mem_cons_of_mem a hb
      by_cases hmore : ∃ b ∈ l, A b
      · exact ih hmore (fun b hb => hown b (hrest b hb)) (fun b hb => hkeep b (hrest b hb)) _
      · have hnone : ∀ b ∈ l, ¬A b := fun b hb hb' => hmore ⟨b, hb, hb'⟩
        have ha : A a := by
          rcases hmine with ⟨b, hb, hb'⟩
          rcases List.mem_cons.1 hb with rfl | hb
          · exact hb'
          · exact absurd hb' (hnone b hb)
        exact foldl_keeps (fun b hb => hkeep b (hrest b hb) (hnone b hb))
          (hown a List.mem_cons_self ha s)

end Rules

/-- `for (t = a; t < a + n; t++)`. -/
theorem foldl_range' {σ : Type} {f : σ → Nat → σ} {P : Nat → σ → Prop} {a n : Nat}
    (h : ∀ t, a ≤ t → t < a + n → ∀ s, P t s → P (t + 1) (f s t)) {s : σ} (hs : P a s) :
    P (a + n) ((List.range' a n).foldl f s) := by
  induction n generalizing a s with
  | zero => exact hs
  | succ n ih =>
      rw [List.range'_succ, List.foldl_cons]
      have hnext := ih (a := a + 1) (fun t hle hlt => h t (by omega) (by omega))
        (h a (Nat.le_refl a) (by omega) s hs)
      rwa [Nat.add_right_comm] at hnext

theorem foldl_range {σ : Type} {f : σ → Nat → σ} {P : Nat → σ → Prop} {n : Nat}
    (h : ∀ t, t < n → ∀ s, P t s → P (t + 1) (f s t)) {s : σ} (hs : P 0 s) :
    P n ((List.range n).foldl f s) := by
  have hloop := foldl_range' (a := 0) (n := n) (fun t _ hlt => h t (by omega)) hs
  rwa [← List.range_eq_range', Nat.zero_add] at hloop

/-- `for (t = 0; t < n; t++) for (a : l)`: of the inner turns only that of `k` moves on. -/
theorem foldl_range_once {σ κ : Type} {g : Nat → σ → κ → σ} {l : List κ} {P : Nat → σ → Prop}
    {n : Nat} {k : κ} (hnd : l.Nodup) (hk : k ∈ l)
    (hother : ∀ t r, ∀ a ∈ l, a ≠ k → ∀ s, P r s → P r (g t s a))
    (hown : ∀ t, ∀ s, P t s → P (t + 1) (g t s k)) {s : σ} (hs : P 0 s) :
    P n ((List.range n).foldl (fun s t => l.foldl (g t) s) s) := by
  apply foldl_range (P := P) _ hs
  intro t _ s hs
  exact foldl_once hnd hk (hother t t) (hown t) (hother t (t + 1)) hs

/-- Nested loops meet no key twice. -/
theorem nodup_nested {α β κ : Type} {f : α → β → κ} {l : List α} {g : α → List β} (hl : l.Nodup)
    (hg : ∀ a, (g a).Nodup) (hf : ∀ {a b a' b'}, f a b = f a' b' → a = a' ∧ b = b') :
    (l.flatMap fun a => (g a).map (f a)).Nodup := by
  apply List.nodup_flatMap.2
  constructor
  · intro a _
    exact (hg a).map fun b b' h => (hf h).2
  · refine hl.imp_of_mem fun {a a'} _ _ hne => ?_
    intro k hk hk'
    rcases List.mem_map.1 hk with ⟨b, -, rfl⟩
    rcases List.mem_map.1 hk' with ⟨b', -, h⟩
    exact hne (hf h).1.symm

/-! ## A cell for each turn -/

section Modify

variable {κ M : Type} (key : κ → Nat) (f : κ → M → M) {l : List κ}

/-- Each turn changes a cell of its own, which it may read before. -/
theorem foldl_modify_of_mem (hnd : l.Nodup) (hkey : ∀ a ∈ l, ∀ b ∈ l, key a = key b → a = b) {a : κ}
    (ha : a ∈ l) (m : Mem M) :
    l.foldl (fun m a => Function.update m (key a) (f a (m (key a)))) m (key a)
      = f a (m (key a)) := by
  have hother : ∀ b ∈ l, b ≠ a → ∀ m' : Mem M,
      Function.update m' (key b) (f b (m' (key b))) (key a) = m' (key a) := by
    intro b hb hne m'
    exact Function.update_of_ne (fun h => hne (hkey b hb a ha h.symm)) ..
  refine foldl_once (P := fun m' => m' (key a) = m (key a))
    (Q := fun m' => m' (key a) = f a (m (key a))) hnd ha
    (fun b hb hne m' h => (hother b hb hne m').trans h) (fun m' h => ?_)
    (fun b hb hne m' h => (hother b hb hne m').trans h) rfl
  rw [Function.update_self, h]

end Modify

/-! ## Compaction in place -/

section Compaction

variable {α : Type}

/-- `for (i = 0; i < idx.size(); i++) m[i] = m[idx[i]]`. -/
def compact (idx : List Nat) (m : Nat → α) : Nat → α :=
  idx.zipIdx.foldl (fun m e => Function.update m e.2 (m e.1)) m

theorem compact_append (idx : List Nat) (a : Nat) (m : Nat → α) :
    compact (idx ++ [a]) m
      = Function.update (compact idx m) idx.length (compact idx m a) := by
  simp [compact, List.zipIdx_append]

/-- An increasing list is nowhere behind its index. -/
theorem le_getElem_of_increasing {idx : List Nat} (h : idx.Pairwise (· < ·)) {i : Nat}
    (hi : i < idx.length) : i ≤ idx[i] := by
  induction i with
  | zero => exact Nat.zero_le _
  | succ i ih =>
      have hstep := List.pairwise_iff_getElem.1 h i (i + 1) (by omega) hi (Nat.lt_succ_self i)
      have hle := ih (by omega)
      omega

/-- What is copied has not been overwritten before, and what lies behind the copies stays. -/
theorem compact_spec {idx : List Nat} (h : idx.Pairwise (· < ·)) (m : Nat → α) :
    (∀ i, (hi : i < idx.length) → compact idx m i = m idx[i]) ∧
      ∀ i, idx.length ≤ i → compact idx m i = m i := by
  induction idx using List.reverseRecOn with
  | nil => exact ⟨fun i hi => absurd hi (Nat.not_lt_zero i), fun _ _ => rfl⟩
  | append_singleton idx a ih =>
      rcases ih (List.pairwise_append.1 h).1 with ⟨hcopied, hrest⟩
      have ha : idx.length ≤ a := by
        have hle := le_getElem_of_increasing h (i := idx.length) (by simp)
        simpa using hle
      constructor
      · intro i hi
        rw [compact_append]
        rcases Nat.lt_or_ge i idx.length with hlt | hge
        · rw [Function.update_of_ne (Nat.ne_of_lt hlt), hcopied i hlt,
            List.getElem_append_left hlt]
        · obtain rfl : i = idx.length := by
            rw [List.length_append, List.length_singleton] at hi
            omega
          rw [Function.update_self, hrest a ha, List.getElem_concat_length rfl]
      · intro i hi
        rw [List.length_append, List.length_singleton] at hi
        rw [compact_append, Function.update_of_ne (by omega), hrest i (by omega)]

end Compaction

/-! ## Loops that rewrite cells and add up what they write -/

section MapSum

variable {M κ : Type} [AddCommMonoid M] (key : κ → Nat) (g : κ → M → M)

/-- One turn. -/
def mapSumStep (s : Mem M × M) (a : κ) : Mem M × M :=
  let x := g a (s.1 (key a))
  (Function.update s.1 (key a) x, s.2 + x)

variable {l : List κ}

theorem foldl_mapSum_of_ne {i : Nat} (h : ∀ a ∈ l, key a ≠ i) (s : Mem M × M) :
    (l.foldl (mapSumStep key g) s).1 i = s.1 i := by
  refine foldl_keeps (P := fun r : Mem M × M => r.1 i = s.1 i) (fun a ha r hr => ?_) rfl
  exact (Function.update_of_ne (h a ha).symm ..).trans hr

theorem foldl_mapSum_of_mem (hnd : l.Nodup) (hkey : ∀ a ∈ l, ∀ b ∈ l, key a = key b → a = b) {a : κ}
    (ha : a ∈ l) (s : Mem M × M) :
    (l.foldl (mapSumStep key g) s).1 (key a) = g a (s.1 (key a)) := by
  refine foldl_once (P := fun r : Mem M × M => r.1 (key a) = s.1 (key a))
    (Q := fun r : Mem M × M => r.1 (key a) = g a (s.1 (key a))) hnd ha
    (fun b hb hne r hr => ?_) (fun r hr => ?_) (fun b hb hne r hr => ?_) rfl
  · exact (Function.update_of_ne (fun heq => hne (hkey b hb a ha heq.symm)) ..).trans hr
  · rw [← hr]
    exact Function.update_self ..
  · exact (Function.update_of_ne (fun heq => hne (hkey b hb a ha heq.symm)) ..).trans hr

theorem foldl_mapSum_sum [DecidableEq κ] (hnd : l.Nodup)
    (hkey : ∀ a ∈ l, ∀ b ∈ l, key a = key b → a = b) (s : Mem M × M) :
    (l.foldl (mapSumStep key g) s).2 = s.2 + ∑ a ∈ l.toFinset, g a (s.1 (key a)) := by
  induction l generalizing s with
  | nil => simp
  | cons a l ih =>
      have hnd' := List.nodup_cons.1 hnd
      have hrest : ∀ b ∈ l, b ∈ a :: l := fun b hb => List.mem_cons_of_mem a hb
      have hsame : ∀ b ∈ l.toFinset,
          g b ((mapSumStep key g s a).1 (key b)) = g b (s.1 (key b)) := by
        intro b hb
        have hb' := List.mem_toFinset.1 hb
        have hne : key b ≠ key a := by
          intro heq
          exact hnd'.1 (hkey b (hrest b hb') a List.mem_cons_self heq ▸ hb')
        exact congrArg (g b) (Function.update_of_ne hne ..)
      have hnot : a ∉ l.toFinset := fun h => hnd'.1 (List.mem_toFinset.1 h)
      rw [List.foldl_cons, ih hnd'.2 fun b hb c hc => hkey b (hrest b hb) c (hrest c hc),
        Finset.sum_congr rfl hsame, List.toFinset_cons, Finset.sum_insert hnot, ← add_assoc]
      rfl

end MapSum
end Lib
end PrefillOpt
