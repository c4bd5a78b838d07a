import PrefillOpt.Planner.DerivePP
import Mathlib.Data.List.Chain

/-!
# Splits — what the frontier of the planner stands for

`Reaches k e cuts v`: the first `k` stages can end at `cuts`, the last at sub-block `e`, and `v` is
when they finish each micro-batch.  The frontier after `k` stages is sound (it has only such
entries) and complete (nothing that can still be a split is better than all of its entries).
-/

namespace PrefillOpt
namespace Planner

open Lib

variable {K : Type}

/-! ## One stage -/

section Stage

variable [AddCommGroup K]

theorem stageCostVec_apply (att ff : Nat → K) (head att0 : Option (Nat → K)) (a bnd j : Nat) :
    stageCostVec att ff head a bnd att0 j = stageCost att ff a bnd j head att0 := by
  simp only [stageCostVec, stageCost]
  cases head with
  | none =>
      cases att0 with
      | none => rfl
      | some att0 => split_ifs <;> rfl
  | some head =>
      cases att0 with
      | none => rfl
      | some att0 => split_ifs <;> rfl

variable [LinearOrder K]

theorem stageLoop_eq_finish (ready cost : Nat → K) (j : Nat) :
    stageLoop ready cost j = finish ready cost j := by
  induction j with
  | zero => rw [stageLoop, finish, max_comm, max_def_lt]
  | succ j ih => rw [stageLoop, finish, ih, max_comm, max_def_lt]

/-- The vectorised update is the recurrence of the makespan. -/
theorem extendRow_eq_finish [IsOrderedAddMonoid K] {lkv c V : Nat → K}
    (hready : 0 ≤ V 0 + lkv 0) : extendRow lkv c V = finish (fun j => V j + lkv j) c :=
  funext (cumsum_add_runningMax hready)

omit [AddCommGroup K] in
theorem dominates_iff {M : Nat} {a b : Nat → K} :
    dominates M a b = true ↔ ∀ j < M, a j ≤ b j := by
  simp only [dominates, List.all_eq_true, List.mem_range, decide_eq_true_eq]

end Stage

/-! ## Splits and their times -/

/-- The ends of `N` non-empty stages that follow each other and take `L` sub-blocks together. -/
structure IsSplit (N L : Nat) (cuts : List Nat) : Prop where
  length : cuts.length = N
  increasing : (0 :: cuts).IsChain (· < ·)
  last : cuts.getLastD 0 = L

theorem getLast?_zero_cons (cuts : List Nat) : (0 :: cuts).getLast? = some (cuts.getLastD 0) := by
  cases cuts with
  | nil => rfl
  | cons c cuts => rfl

theorem isSplit_append_singleton {k e : Nat} {cuts : List Nat} :
    IsSplit (k + 1) e (cuts ++ [e]) ↔ ∃ i, IsSplit k i cuts ∧ i < e := by
  constructor
  · intro h
    have hchain : ((0 :: cuts) ++ [e]).IsChain (· < ·) := h.increasing
    have hparts := List.isChain_append.1 hchain
    have hlt : cuts.getLastD 0 < e := hparts.2.2 _ (getLast?_zero_cons cuts) e rfl
    have hlen : cuts.length + 1 = k + 1 := by simpa using h.length
    exact ⟨cuts.getLastD 0, ⟨Nat.succ.inj hlen, hparts.1, rfl⟩, hlt⟩
  · rintro ⟨i, h, hlt⟩
    refine ⟨by rw [List.length_append, h.length, List.length_singleton], ?_, by simp⟩
    rw [← List.cons_append]
    apply h.increasing.append (List.isChain_singleton e)
    intro x hx y hy
    have hxi : x = i := by
      rw [getLast?_zero_cons, h.last] at hx
      exact (Option.some.inj hx).symm
    have hye : y = e := (Option.some.inj hy).symm
    exact hxi ▸ hye ▸ hlt

theorem IsSplit.eq_append_singleton {k e : Nat} {cuts : List Nat} (h : IsSplit (k + 1) e cuts) :
    ∃ cuts', cuts = cuts' ++ [e] := by
  induction cuts using List.reverseRecOn with
  | nil => exact absurd h.length (Nat.succ_ne_zero k).symm
  | append_singleton cuts c _ =>
      have hc : c = e := by simpa using h.last
      exact ⟨cuts, hc ▸ rfl⟩

/-- The rows of the stages from stage `k` on, that end at the given boundaries. -/
def rowsFrom (cost : Nat → Nat → Nat → Nat → K) : Nat → Nat → List Nat → List (Nat → K)
  | _, _, [] => []
  | k, a, e :: es => cost k a e :: rowsFrom cost (k + 1) e es

theorem rowsFrom_append_singleton (cost : Nat → Nat → Nat → Nat → K) (k a e : Nat)
    (cuts : List Nat) :
    rowsFrom cost k a (cuts ++ [e])
      = rowsFrom cost k a cuts ++ [cost (k + cuts.length) (cuts.getLastD a) e] := by
  induction cuts generalizing k a with
  | nil => rfl
  | cons c cuts ih =>
      simp only [List.cons_append, rowsFrom, ih, List.length_cons, List.getLastD_cons]
      rw [Nat.add_right_comm, Nat.add_assoc]

theorem length_rowsFrom (cost : Nat → Nat → Nat → Nat → K) (k a : Nat) (cuts : List Nat) :
    (rowsFrom cost k a cuts).length = cuts.length := by
  induction cuts generalizing k a with
  | nil => rfl
  | cons c cuts ih => rw [rowsFrom, List.length_cons, List.length_cons, ih]

variable [AddCommGroup K] [LinearOrder K]

theorem makespanFrom_append_singleton (links : Nat → Nat → K) (k : Nat) (prev row : Nat → K)
    (rows : List (Nat → K)) :
    makespanFrom links k prev (rows ++ [row])
      = stageLoop (fun j => makespanFrom links k prev rows j
          + (if 0 < k + rows.length then links (k + rows.length) j else 0)) row := by
  induction rows generalizing k prev with
  | nil => rfl
  | cons r rows ih =>
      rw [List.cons_append, makespanFrom, ih, makespanFrom, List.length_cons]
      rw [Nat.add_right_comm, Nat.add_assoc]

/-- `lk k` are the link times into stage `k`, `cost k i e` the costs of the sub-blocks `[i, e)` on
it. -/
inductive Reaches (lk : Nat → Nat → K) (cost : Nat → Nat → Nat → Nat → K) :
    Nat → Nat → List Nat → (Nat → K) → Prop where
  | start : Reaches lk cost 0 0 [] fun _ => 0
  | stage {k i e : Nat} {cuts : List Nat} {v : Nat → K} :
      Reaches lk cost k i cuts v → i < e →
        Reaches lk cost (k + 1) e (cuts ++ [e]) (finish (fun j => v j + lk k j) (cost k i e))

variable {lk : Nat → Nat → K} {cost : Nat → Nat → Nat → Nat → K}

namespace Reaches

theorem nonneg [IsOrderedAddMonoid K] (hcost : ∀ k i e j, 0 ≤ cost k i e j) {k e : Nat}
    {cuts : List Nat} {v : Nat → K} (h : Reaches lk cost k e cuts v) (j : Nat) : 0 ≤ v j := by
  cases h with
  | start => exact le_refl 0
  | stage _ _ => exact finish_nonneg fun i _ => hcost _ _ _ i

theorem isSplit {k e : Nat} {cuts : List Nat} {v : Nat → K} (h : Reaches lk cost k e cuts v) :
    IsSplit k e cuts := by
  induction h with
  | start => exact ⟨rfl, List.isChain_singleton 0, rfl⟩
  | stage _ hlt ih => exact isSplit_append_singleton.2 ⟨_, ih, hlt⟩

/-- The loops of `makespan` compute the times of a split. -/
theorem makespanFrom_eq {k e : Nat} {cuts : List Nat} {v : Nat → K} (hlk : ∀ j, lk 0 j = 0)
    (h : Reaches lk cost k e cuts v) :
    makespanFrom lk 0 (fun _ => 0) (rowsFrom cost 0 0 cuts) = v := by
  induction h with
  | start => rfl
  | @stage k i e cuts v hr _ ih =>
      rw [rowsFrom_append_singleton, makespanFrom_append_singleton, length_rowsFrom, ih,
        Nat.zero_add, hr.isSplit.length, hr.isSplit.last]
      funext j
      rw [stageLoop_eq_finish]
      congr 1
      funext j
      cases k with
      | zero => rw [if_neg (Nat.lt_irrefl 0), hlk]
      | succ k => rw [if_pos (Nat.succ_pos k)]

end Reaches

/-- Every split has its times. -/
theorem IsSplit.reaches (lk : Nat → Nat → K) (cost : Nat → Nat → Nat → Nat → K) {N L : Nat}
    {cuts : List Nat} (h : IsSplit N L cuts) : ∃ v, Reaches lk cost N L cuts v := by
  induction N generalizing L cuts with
  | zero =>
      have hnil := List.eq_nil_of_length_eq_zero h.length
      subst hnil
      have hL : 0 = L := h.last
      subst hL
      exact ⟨_, .start⟩
  | succ k ih =>
      rcases h.eq_append_singleton with ⟨cuts', rfl⟩
      rcases isSplit_append_singleton.1 h with ⟨i, hsplit, hlt⟩
      rcases ih hsplit with ⟨v, hv⟩
      exact ⟨_, hv.stage hlt⟩

/-! ## The frontier -/

/-- Some entry of the frontier under the key `e` is `x`. -/
def Frontier.Lists (f : Frontier K) (e : Nat) (x : Entry K) : Prop :=
  ∃ p ∈ f, p.1 = e ∧ x ∈ p.2

/-- Looking up the key `e` gives `x`, among others. -/
def Frontier.Finds (f : Frontier K) (e : Nat) (x : Entry K) : Prop :=
  ∃ entries, f.lookup e = some entries ∧ x ∈ entries

section Frontier

omit [AddCommGroup K] [LinearOrder K]

theorem Frontier.Finds.lists {f : Frontier K} {e : Nat} {x : Entry K} (h : f.Finds e x) :
    f.Lists e x := by
  rcases h with ⟨entries, hlookup, hx⟩
  rcases List.lookup_eq_some_iff.1 hlookup with ⟨l, l', hf, -⟩
  exact ⟨(e, entries), hf ▸ List.mem_append_right l List.mem_cons_self, rfl, hx⟩

theorem lists_accAdd {acc : Frontier K} {c : Nat × List (Entry K)} {e : Nat} {x : Entry K}
    (h : Frontier.Lists (accAdd acc c) e x) : acc.Lists e x ∨ c.1 = e ∧ x ∈ c.2 := by
  rcases h with ⟨p, hp, rfl, hx⟩
  induction acc with
  | nil =>
      rcases List.mem_singleton.1 hp with rfl
      exact .inr ⟨rfl, hx⟩
  | cons f acc ih =>
      rw [accAdd] at hp
      split_ifs at hp with heq
      · rcases List.mem_cons.1 hp with rfl | hp
        · rcases List.mem_append.1 hx with hx | hx
          · exact .inl ⟨f, List.mem_cons_self, rfl, hx⟩
          · exact .inr ⟨heq.symm, hx⟩
        · exact .inl ⟨p, List.mem_cons_of_mem _ hp, rfl, hx⟩
      · rcases List.mem_cons.1 hp with rfl | hp
        · exact .inl ⟨p, List.mem_cons_self, rfl, hx⟩
        · rcases ih hp with ⟨q, hq, hqp⟩ | hnew
          · exact .inl ⟨q, List.mem_cons_of_mem _ hq, hqp⟩
          · exact .inr hnew

theorem lookup_accAdd (acc : Frontier K) (c : Nat × List (Entry K)) (e : Nat) :
    (accAdd acc c).lookup e
      = if e = c.1 then some ((acc.lookup e).getD [] ++ c.2) else acc.lookup e := by
  induction acc with
  | nil =>
      by_cases he : e = c.1
      · rw [accAdd, if_pos he, he, List.lookup_cons_self]
        rfl
      · rw [accAdd, if_neg he, List.lookup_cons, beq_false_of_ne he]
  | cons f acc ih =>
      rw [accAdd]
      split_ifs with hf he he
      · rw [he, ← hf, List.lookup_cons_self, List.lookup_cons_self]
        rfl
      · have hne : e ≠ f.1 := fun h => he (h.trans hf)
        rw [List.lookup_cons, List.lookup_cons, beq_false_of_ne hne]
      · have hne : e ≠ f.1 := fun h => hf (h.symm.trans he)
        rw [List.lookup_cons, List.lookup_cons, beq_false_of_ne hne]
        exact ih.trans (if_pos he)
      · rw [List.lookup_cons, List.lookup_cons, ih, if_neg he]

theorem Frontier.Finds.accAdd {acc : Frontier K} {e : Nat} {x : Entry K} (h : acc.Finds e x)
    (c : Nat × List (Entry K)) : Frontier.Finds (accAdd acc c) e x := by
  rcases h with ⟨entries, hlookup, hx⟩
  by_cases he : e = c.1
  · refine ⟨entries ++ c.2, ?_, List.mem_append_left _ hx⟩
    rw [lookup_accAdd, if_pos he, hlookup, Option.getD_some]
  · refine ⟨entries, ?_, hx⟩
    rw [lookup_accAdd, if_neg he, hlookup]

theorem finds_accAdd (acc : Frontier K) (e : Nat) {entries : List (Entry K)} {x : Entry K}
    (hx : x ∈ entries) : Frontier.Finds (accAdd acc (e, entries)) e x := by
  refine ⟨(acc.lookup e).getD [] ++ entries, ?_, List.mem_append_right _ hx⟩
  rw [lookup_accAdd, if_pos rfl]

theorem lists_foldl_accAdd {cs acc : Frontier K} {e : Nat} {x : Entry K}
    (h : Frontier.Lists (cs.foldl accAdd acc) e x) : acc.Lists e x ∨ cs.Lists e x := by
  induction cs generalizing acc with
  | nil => exact .inl h
  | cons c cs ih =>
      rcases ih h with h | ⟨p, hp, hpx⟩
      · rcases lists_accAdd h with h | h
        · exact .inl h
        · exact .inr ⟨c, List.mem_cons_self, h⟩
      · exact .inr ⟨p, List.mem_cons_of_mem _ hp, hpx⟩

theorem Frontier.Finds.foldl {acc : Frontier K} {e : Nat} {x : Entry K} (h : acc.Finds e x)
    (cs : Frontier K) : Frontier.Finds (cs.foldl PrefillOpt.Planner.accAdd acc) e x := by
  induction cs generalizing acc with
  | nil => exact h
  | cons c cs ih => exact ih (h.accAdd c)

theorem finds_foldl_accAdd (acc : Frontier K) {cs : Frontier K} {e : Nat} {x : Entry K}
    (h : cs.Lists e x) : Frontier.Finds (cs.foldl accAdd acc) e x := by
  rcases h with ⟨p, hp, rfl, hx⟩
  induction cs generalizing acc with
  | nil => exact absurd hp List.not_mem_nil
  | cons c cs ih =>
      rcases List.mem_cons.1 hp with rfl | hp
      · exact (finds_accAdd acc p.1 hx).foldl cs
      · exact ih (accAdd acc c) hp

theorem lookup_map_snd (g : List (Entry K) → List (Entry K)) (f : Frontier K) (e : Nat) :
    (f.map fun p => (p.1, g p.2)).lookup e = (f.lookup e).map g := by
  induction f with
  | nil => rfl
  | cons p f ih =>
      rw [List.map_cons, List.lookup_cons, List.lookup_cons, ih]
      cases e == p.1 <;> rfl

end Frontier

theorem lists_expand {L remain e : Nat} {lkv : Nat → K} {c : Nat → Nat → Nat → K}
    {f : Frontier K} {x : Entry K} :
    (expand L remain lkv c f).Lists e x ↔
      ∃ i y, f.Lists i y ∧ i < e ∧ e + remain ≤ L ∧
        x = ⟨extendRow lkv (c i e) y.v, y.cuts ++ [e]⟩ := by
  simp only [Frontier.Lists, expand, List.mem_flatMap, List.mem_map, List.mem_range'_1]
  constructor
  · rintro ⟨p, ⟨⟨i, entries⟩, hf, e', he', rfl⟩, rfl, hx⟩
    rcases List.mem_map.1 hx with ⟨y, hy, rfl⟩
    exact ⟨i, y, ⟨_, hf, rfl, hy⟩, by omega, by omega, rfl⟩
  · rintro ⟨i, y, ⟨⟨i', entries⟩, hf, rfl, hy⟩, hlt, hle, rfl⟩
    exact ⟨_, ⟨_, hf, e, by omega, rfl⟩, rfl, List.mem_map.2 ⟨y, hy, rfl⟩⟩

/-! ## What one round keeps -/

/-- Every entry is a way to cut, with its times. -/
def Sound (lk : Nat → Nat → K) (cost : Nat → Nat → Nat → Nat → K) (k : Nat) (f : Frontier K) :
    Prop :=
  ∀ e x, f.Lists e x → Reaches lk cost k e x.cuts x.v

/-- Every way to cut that leaves a sub-block for each of the stages to come has an entry that
finishes no micro-batch later. -/
def Complete (lk : Nat → Nat → K) (cost : Nat → Nat → Nat → Nat → K) (N L M k : Nat)
    (f : Frontier K) : Prop :=
  ∀ e cuts v, Reaches lk cost k e cuts v → e + N ≤ L + k →
    ∃ x, f.Finds e x ∧ ∀ j < M, x.v j ≤ v j

/-- The frontier after stage `k`. -/
def nextFrontier (lk : Nat → Nat → K) (cost : Nat → Nat → Nat → Nat → K) (N L M : Nat)
    (f : Frontier K) (k : Nat) : Frontier K :=
  ((expand L (N - k - 1) (lk k) (cost k) f).foldl accAdd []).map fun p =>
    (p.1, paretoFront M none p.2)

omit [AddCommGroup K] in
theorem mem_paretoFront {M : Nat} {entries : List (Entry K)} {x : Entry K}
    (h : x ∈ paretoFront M none entries) : x ∈ entries :=
  (List.mem_insertionSort _).1 (mem_of_mem_prune h)

omit [AddCommGroup K] in
theorem exists_mem_paretoFront (M : Nat) {entries : List (Entry K)} {x : Entry K}
    (h : x ∈ entries) : ∃ y ∈ paretoFront M none entries, ∀ j < M, y.v j ≤ x.v j := by
  have hrefl : ∀ y : Entry K, dominates M y.v y.v = true :=
    fun y => dominates_iff.2 fun j _ => le_refl (y.v j)
  have hcovers := @prune_covers _ (fun a b : Entry K => dominates M a.v b.v) hrefl
  have hsorted := (List.mem_insertionSort fun a b : Entry K => a.v (M - 1) ≤ b.v (M - 1)).2 h
  rcases hcovers _ x hsorted with ⟨y, hy, hle⟩
  exact ⟨y, hy, dominates_iff.1 hle⟩

theorem lists_nextFrontier {N L M k e : Nat} {f : Frontier K} {x : Entry K}
    (h : (nextFrontier lk cost N L M f k).Lists e x) :
    ∃ i y, f.Lists i y ∧ i < e ∧ x = ⟨extendRow (lk k) (cost k i e) y.v, y.cuts ++ [e]⟩ := by
  rcases h with ⟨p, hp, rfl, hx⟩
  rcases List.mem_map.1 hp with ⟨q, hq, rfl⟩
  rcases lists_foldl_accAdd ⟨q, hq, rfl, mem_paretoFront hx⟩ with ⟨_, hnil, _⟩ | hexp
  · exact absurd hnil List.not_mem_nil
  · rcases lists_expand.1 hexp with ⟨i, y, hy, hlt, -, rfl⟩
    exact ⟨i, y, hy, hlt, rfl⟩

theorem finds_nextFrontier (lk : Nat → Nat → K) (cost : Nat → Nat → Nat → Nat → K) (M : Nat)
    {N L k i e : Nat} {f : Frontier K} {y : Entry K} (hy : f.Finds i y)
    (hlt : i < e) (hle : e + (N - k - 1) ≤ L) :
    ∃ x, (nextFrontier lk cost N L M f k).Finds e x ∧
      ∀ j < M, x.v j ≤ extendRow (lk k) (cost k i e) y.v j := by
  have hexp : (expand L (N - k - 1) (lk k) (cost k) f).Lists e
      ⟨extendRow (lk k) (cost k i e) y.v, y.cuts ++ [e]⟩ :=
    lists_expand.2 ⟨i, y, hy.lists, hlt, hle, rfl⟩
  rcases finds_foldl_accAdd [] hexp with ⟨entries, hlookup, hmem⟩
  rcases exists_mem_paretoFront M hmem with ⟨x, hx, hxle⟩
  refine ⟨x, ⟨paretoFront M none entries, ?_, hx⟩, hxle⟩
  rw [nextFrontier, lookup_map_snd (paretoFront M none), hlookup, Option.map_some]

variable [IsOrderedAddMonoid K]

theorem Sound.next (hlk : ∀ k j, 0 ≤ lk k j) (hcost : ∀ k i e j, 0 ≤ cost k i e j) {k : Nat}
    {f : Frontier K} (hf : Sound lk cost k f) (N L M : Nat) :
    Sound lk cost (k + 1) (nextFrontier lk cost N L M f k) := by
  intro e x hx
  rcases lists_nextFrontier hx with ⟨i, y, hy, hlt, rfl⟩
  have hreach := hf i y hy
  have hready : 0 ≤ y.v 0 + lk k 0 := add_nonneg (hreach.nonneg hcost 0) (hlk k 0)
  rw [extendRow_eq_finish hready]
  exact hreach.stage hlt

theorem Complete.next (hlk : ∀ k j, 0 ≤ lk k j) (hcost : ∀ k i e j, 0 ≤ cost k i e j)
    {N L M k : Nat} {f : Frontier K} (hk : k < N) (hsound : Sound lk cost k f)
    (hf : Complete lk cost N L M k f) :
    Complete lk cost N L M (k + 1) (nextFrontier lk cost N L M f k) := by
  intro e cuts v hreach hle
  cases hreach with
  | @stage _ i _ cuts v hprev hlt =>
      have hile : i + N ≤ L + k := by omega
      rcases hf i cuts v hprev hile with ⟨y, hy, hyle⟩
      have hele : e + (N - k - 1) ≤ L := by omega
      rcases finds_nextFrontier lk cost M hy hlt hele with ⟨x, hx, hxle⟩
      refine ⟨x, hx, fun j hj => ?_⟩
      have hnonneg := (hsound i y hy.lists).nonneg hcost 0
      calc x.v j
          ≤ extendRow (lk k) (cost k i e) y.v j := hxle j hj
        _ = finish (fun j => y.v j + lk k j) (cost k i e) j := by
            rw [extendRow_eq_finish (add_nonneg hnonneg (hlk k 0))]
        _ ≤ finish (fun j => v j + lk k j) (cost k i e) j :=
            finish_mono fun j' hj' =>
              add_le_add_left (hyle j' (Nat.lt_of_le_of_lt hj' hj)) _

/-- The frontier after all the stages is sound and complete. -/
theorem foldl_nextFrontier (hlk : ∀ k j, 0 ≤ lk k j) (hcost : ∀ k i e j, 0 ≤ cost k i e j)
    (N L M : Nat) {k : Nat} (hk : k ≤ N) :
    Sound lk cost k
        ((List.range k).foldl (nextFrontier lk cost N L M) [(0, [⟨fun _ => 0, []⟩])]) ∧
      Complete lk cost N L M k
        ((List.range k).foldl (nextFrontier lk cost N L M) [(0, [⟨fun _ => 0, []⟩])]) := by
  induction k with
  | zero =>
      constructor
      · rintro e x ⟨p, hp, rfl, hx⟩
        rcases List.mem_singleton.1 hp with rfl
        rcases List.mem_singleton.1 hx with rfl
        exact .start
      · rintro e cuts v hreach _
        cases hreach
        exact ⟨_, ⟨_, rfl, List.mem_singleton_self _⟩, fun j _ => le_refl _⟩
  | succ k ih =>
      rcases ih (Nat.le_of_succ_le hk) with ⟨hsound, hcomplete⟩
      rw [List.range_succ, List.foldl_append]
      exact ⟨hsound.next hlk hcost N L M, hcomplete.next hlk hcost hk hsound⟩

end Planner
end PrefillOpt
