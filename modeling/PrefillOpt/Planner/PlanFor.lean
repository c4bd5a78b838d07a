import PrefillOpt.Planner.Splits
import Mathlib.Algebra.Order.Group.Int

/-!
# PlanFor — the plan is a best split

`planFor` goes through the frontiers of `Splits` and `bruteForce` through the splits themselves, so
both end with the least makespan.
-/

namespace PrefillOpt
namespace Planner

open Lib

/-! ## The micro-batches -/

theorem chunkLoop_isSome {S_exec B fuel u : Nat} (hB : 1 ≤ B) (hfuel : S_exec ≤ u + fuel) :
    ∃ geom, chunkLoop S_exec B fuel u = some geom ∧ (u < S_exec → geom ≠ []) := by
  induction fuel generalizing u with
  | zero =>
      have hu : ¬u < S_exec := Nat.not_lt.2 hfuel
      exact ⟨[], if_neg hu, fun h => absurd h hu⟩
  | succ fuel ih =>
      by_cases hu : u < S_exec
      · have hmin : 1 ≤ min B (S_exec - u) := Nat.le_min.2 ⟨hB, Nat.sub_pos_of_lt hu⟩
        have hrest : S_exec ≤ u + min B (S_exec - u) + fuel := by omega
        rcases ih hrest with ⟨geom, hgeom, -⟩
        simp only [chunkLoop, if_pos hu, hgeom, Option.map_some]
        exact ⟨_, rfl, fun _ => List.cons_ne_nil _ _⟩
      · rw [chunkLoop, if_neg hu]
        exact ⟨[], rfl, fun h => absurd h hu⟩

theorem chunkGeometry_ok {S_exec B : Nat} (hS : 1 ≤ S_exec) (hB : 1 ≤ B) :
    ∃ geom, chunkGeometry S_exec B = .ok geom ∧ 0 < geom.length := by
  have hfuel : S_exec ≤ 0 + S_exec := Nat.le_of_eq (Nat.zero_add S_exec).symm
  rcases chunkLoop_isSome hB hfuel with ⟨geom, hgeom, hne⟩
  refine ⟨geom, ?_, List.length_pos_of_ne_nil (hne hS)⟩
  rw [chunkGeometry, hgeom]

theorem execLen_pos {S : Nat} (hS : 1 ≤ S) (pad4 : Bool) : 1 ≤ execLen S pad4 := by
  cases pad4 with
  | false => exact hS
  | true =>
      have hdiv : 1 ≤ (S + 3) / 4 := (Nat.one_le_div_iff (by decide)).2 (by omega)
      exact Nat.le_trans (by decide) (Nat.mul_le_mul_left 4 hdiv)

/-! ## The rows -/

variable {K : Type} [AddCommGroup K] {t : CostTable K}

/-- The costs of the sub-blocks `[i, e)` on stage `k`. -/
def instCost (t : CostTable K) (nodes : List String) (geom : List Chunk) (N k i e : Nat) :
    Nat → K :=
  fun j =>
    stageCost (rowOf geom (t.att (nodes.getD k ""))) (rowOf geom (t.ff (nodes.getD k ""))) i e j
      (headRow t (nodes.getD k "") geom N k) (some (rowOf geom (t.att0 (nodes.getD k ""))))

/-- The link times into stage `k`. -/
def instLink (t : CostTable K) (nodes : List String) (geom : List Chunk) : Nat → Nat → K
  | 0 => fun _ => 0
  | k + 1 => rowOf geom fun c => t.link (nodes.getD k "") (nodes.getD (k + 1) "") c.b

/-- The matrix of the link times, with zeros outside. -/
def linkMatrix (t : CostTable K) (nodes : List String) (geom : List Chunk) (N k : Nat) : Nat → K :=
  ((List.range N).map (instLink t nodes geom)).getD k fun _ => 0

theorem nodeAt_eq {nodes : List String} {k : Nat} (hk : k < nodes.length) :
    nodeAt nodes k = .ok (nodes.getD k "") := by
  rw [nodeAt, List.getD_eq_getElem?_getD, List.getElem?_eq_getElem hk]
  rfl

theorem linkRow_eq {nodes : List String} (geom : List Chunk) {k : Nat} (hk : k < nodes.length) :
    linkRow t nodes geom k = .ok (instLink t nodes geom k) := by
  cases k with
  | zero => rfl
  | succ k =>
      rw [linkRow, nodeAt_eq (Nat.lt_of_succ_lt hk), nodeAt_eq hk]
      rfl

theorem mapM_eq_ok {α β : Type} {f : α → Except PlanError β} {g : α → β} {l : List α}
    (h : ∀ x ∈ l, f x = .ok (g x)) : l.mapM f = .ok (l.map g) := by
  induction l with
  | nil => rfl
  | cons x l ih =>
      have hrest := ih fun y hy => h y (List.mem_cons_of_mem _ hy)
      rw [List.mapM_cons, h x List.mem_cons_self, hrest]
      rfl

theorem foldlM_eq_ok {α β : Type} {f : β → α → Except PlanError β} {g : β → α → β} {l : List α}
    (h : ∀ x ∈ l, ∀ b, f b x = .ok (g b x)) (b : β) : l.foldlM f b = .ok (l.foldl g b) := by
  induction l generalizing b with
  | nil => rfl
  | cons x l ih =>
      have hrest := ih fun y hy => h y (List.mem_cons_of_mem _ hy)
      rw [List.foldlM_cons, h x List.mem_cons_self]
      exact hrest (g b x)

theorem linkRows_eq {nodes : List String} (geom : List Chunk) {N : Nat} (hN : N ≤ nodes.length) :
    linkRows t nodes geom N = .ok ((List.range N).map (instLink t nodes geom)) :=
  mapM_eq_ok fun _ hk => linkRow_eq geom (Nat.lt_of_lt_of_le (List.mem_range.1 hk) hN)

theorem costRows_eq {nodes : List String} (geom : List Chunk) (N : Nat) {k a : Nat}
    {cuts : List Nat} (hlen : k + cuts.length ≤ nodes.length) :
    costRows t nodes geom N k a cuts = .ok (rowsFrom (instCost t nodes geom N) k a cuts) := by
  induction cuts generalizing k a with
  | nil => rfl
  | cons e cuts ih =>
      rw [List.length_cons] at hlen
      have hk : k < nodes.length := by omega
      have hrest : k + 1 + cuts.length ≤ nodes.length := by omega
      rw [costRows, nodeAt_eq hk]
      simp only [ih hrest]
      rfl

variable [LinearOrder K]

theorem cutsMakespan_eq {nodes : List String} {geom : List Chunk} {N : Nat} {cuts : List Nat}
    (hlen : cuts.length ≤ nodes.length) (hM : 0 < geom.length) :
    cutsMakespan t nodes geom N ((List.range N).map (instLink t nodes geom)) cuts
      = .ok (makespanFrom (linkMatrix t nodes geom N) 0 (fun _ => 0)
          (rowsFrom (instCost t nodes geom N) 0 0 cuts) (geom.length - 1)) := by
  have hrows := @costRows_eq K _ t _ geom N 0 0 _ ((Nat.zero_add _).trans_le hlen)
  rw [cutsMakespan, hrows]
  exact if_neg (Nat.pos_iff_ne_zero.1 hM)

theorem stageStep_eq {nodes : List String} {geom : List Chunk} (N L : Nat) {k : Nat}
    (f : Frontier K) (hk : k < nodes.length) (hM : 0 < geom.length) :
    stageStep t N L geom nodes ((List.range N).map (instLink t nodes geom)) none f k
      = .ok (nextFrontier (linkMatrix t nodes geom N) (instCost t nodes geom N) N L geom.length
          f k) := by
  have hcost : (fun i e => stageCostVec (rowOf geom (t.att (nodes.getD k "")))
      (rowOf geom (t.ff (nodes.getD k ""))) (headRow t (nodes.getD k "") geom N k) i e
      (some (rowOf geom (t.att0 (nodes.getD k ""))))) = instCost t nodes geom N k := by
    funext i e j
    exact stageCostVec_apply _ _ _ _ _ _ _
  have hM' : (geom.length == 0) = false := beq_false_of_ne (Nat.pos_iff_ne_zero.1 hM)
  rw [stageStep, nodeAt_eq hk]
  simp only [bind, Except.bind, hcost, hM', Bool.and_false]
  rfl

theorem rowOf_nonneg (geom : List Chunk) {f : Chunk → K} (hf : ∀ c, 0 ≤ f c) (j : Nat) :
    0 ≤ rowOf geom f j := by
  rw [rowOf, List.getD_eq_getElem?_getD, List.getElem?_map]
  cases geom[j]? with
  | none => exact le_refl 0
  | some c => exact hf c

omit [LinearOrder K] in
theorem linkMatrix_zero (nodes : List String) (geom : List Chunk) (N j : Nat) :
    linkMatrix t nodes geom N 0 j = 0 := by
  cases N with
  | zero => rfl
  | succ N =>
      rw [linkMatrix, List.range_succ_eq_map]
      rfl

theorem linkMatrix_nonneg (ht : t.Nonneg) (nodes : List String) (geom : List Chunk) (N k j : Nat) :
    0 ≤ linkMatrix t nodes geom N k j := by
  rw [linkMatrix, List.getD_eq_getElem?_getD, List.getElem?_map]
  cases (List.range N)[k]? with
  | none => exact le_refl 0
  | some k =>
      cases k with
      | zero => exact le_refl 0
      | succ k => exact rowOf_nonneg geom (fun c => ht.link _ _ _) j

variable [IsOrderedAddMonoid K]

theorem instCost_nonneg (ht : t.Nonneg) (nodes : List String) (geom : List Chunk)
    (N k i e j : Nat) : 0 ≤ instCost t nodes geom N k i e j := by
  have hatt0 := rowOf_nonneg geom (ht.att0 (nodes.getD k "")) j
  have hatt := rowOf_nonneg geom (ht.att (nodes.getD k "")) j
  have hff := rowOf_nonneg geom (ht.ff (nodes.getD k "")) j
  have hhead := rowOf_nonneg geom (ht.head (nodes.getD k "")) j
  have hblocks : 0 ≤ stageCost (rowOf geom (t.att (nodes.getD k "")))
      (rowOf geom (t.ff (nodes.getD k ""))) i e j none
      (some (rowOf geom (t.att0 (nodes.getD k "")))) := by
    simp only [stageCost]
    split_ifs
    · exact add_nonneg (add_nonneg hatt0 (nsmul_nonneg hatt _)) (nsmul_nonneg hff _)
    · exact add_nonneg (nsmul_nonneg hatt _) (nsmul_nonneg hff _)
  rw [instCost, headRow]
  split_ifs
  · exact add_nonneg hblocks hhead
  · exact hblocks

/-! ## The enumeration -/

theorem mem_combinations {n : Nat} {l cs : List Nat} :
    cs ∈ combinations n l ↔ cs.Sublist l ∧ cs.length = n := by
  induction l generalizing n cs with
  | nil =>
      cases n with
      | zero =>
          rw [combinations, List.mem_singleton]
          constructor
          · rintro rfl
            exact ⟨List.nil_sublist [], rfl⟩
          · exact fun h => List.sublist_nil.1 h.1
      | succ n =>
          simp only [combinations, List.not_mem_nil, List.sublist_nil, false_iff]
          rintro ⟨rfl, hlen⟩
          exact absurd hlen (Nat.succ_ne_zero n).symm
  | cons x xs ih =>
      cases n with
      | zero =>
          rw [combinations, List.mem_singleton]
          constructor
          · rintro rfl
            exact ⟨List.nil_sublist (x :: xs), rfl⟩
          · exact fun h => List.eq_nil_of_length_eq_zero h.2
      | succ n =>
          rw [combinations, List.mem_append, List.mem_map, ih, List.sublist_cons_iff]
          constructor
          · rintro (⟨cs', hcs', rfl⟩ | ⟨hsub, hlen⟩)
            · rcases ih.1 hcs' with ⟨hsub, hlen⟩
              exact ⟨.inr ⟨cs', rfl, hsub⟩, by rw [List.length_cons, hlen]⟩
            · exact ⟨.inl hsub, hlen⟩
          · rintro ⟨hsub | ⟨cs', rfl, hsub⟩, hlen⟩
            · exact .inr ⟨hsub, hlen⟩
            · exact .inl ⟨cs', ih.2 ⟨hsub, Nat.succ.inj hlen⟩, rfl⟩

/-- What the enumeration goes through are the splits. -/
theorem mem_combinations_iff_isSplit {n L : Nat} {cs : List Nat} (hL : 1 ≤ L) :
    cs ∈ combinations n (List.range' 1 (L - 1)) ↔ IsSplit (n + 1) L (cs ++ [L]) := by
  rw [mem_combinations]
  constructor
  · rintro ⟨hsub, hlen⟩
    have hsorted : cs.Pairwise (· < ·) := List.Pairwise.sublist hsub List.pairwise_lt_range'
    have hbounds : ∀ x ∈ cs, 0 < x ∧ x < L := by
      intro x hx
      have hmem := List.mem_range'_1.1 (hsub.subset hx)
      omega
    refine ⟨by rw [List.length_append, hlen, List.length_singleton], ?_, by simp⟩
    apply List.Pairwise.isChain
    rw [List.pairwise_cons]
    constructor
    · intro x hx
      rcases List.mem_append.1 hx with hx | hx
      · exact (hbounds x hx).1
      · exact List.mem_singleton.1 hx ▸ hL
    · apply List.pairwise_append.2 ⟨hsorted, List.pairwise_singleton _ L, ?_⟩
      intro x hx y hy
      exact List.mem_singleton.1 hy ▸ (hbounds x hx).2
  · intro h
    have hchain := List.isChain_iff_pairwise.1 h.increasing
    rcases List.pairwise_cons.1 hchain with ⟨hpos, hrest⟩
    rcases List.pairwise_append.1 hrest with ⟨hsorted, -, hlt⟩
    have hsub : cs ⊆ List.range' 1 (L - 1) := by
      intro x hx
      have hx0 := hpos x (List.mem_append_left _ hx)
      have hxL := hlt x hx L (List.mem_singleton_self L)
      exact List.mem_range'_1.2 ⟨hx0, by omega⟩
    have hnodup : cs.Nodup := hsorted.imp fun h => Nat.ne_of_lt h
    refine ⟨?_, by simpa using h.length⟩
    have hperm := List.subperm_of_subset hnodup hsub
    exact List.sublist_of_subperm_of_pairwise hperm hsorted List.pairwise_lt_range'

/-! ## The best split -/

/-- `T` is the time of the split `cuts` into `N` stages, and no split has a smaller one. -/
structure IsBest (time : List Nat → K) (N L : Nat) (T : K) (cuts : List Nat) : Prop where
  split : IsSplit N L cuts
  time_eq : time cuts = T
  le : ∀ cuts', IsSplit N L cuts' → T ≤ time cuts'

omit [AddCommGroup K] [IsOrderedAddMonoid K] in
theorem IsBest.unique {time : List Nat → K} {N L : Nat} {T T' : K} {cuts cuts' : List Nat}
    (h : IsBest time N L T cuts) (h' : IsBest time N L T' cuts') : T = T' :=
  le_antisymm (h'.time_eq ▸ h.le cuts' h'.split) (h.time_eq ▸ h'.le cuts h.split)

theorem exists_isSplit {N L : Nat} (hN : 1 ≤ N) (hNL : N ≤ L) : ∃ cuts, IsSplit N L cuts := by
  induction N generalizing L with
  | zero => exact absurd hN (by decide)
  | succ N ih =>
      cases N with
      | zero =>
          have hnil : IsSplit 0 0 [] := ⟨rfl, List.isChain_singleton 0, rfl⟩
          exact ⟨[] ++ [L], isSplit_append_singleton.2 ⟨0, hnil, hNL⟩⟩
      | succ N =>
          have hle : N + 1 ≤ L - 1 := Nat.le_sub_one_of_lt hNL
          have hlt : L - 1 < L := Nat.sub_lt (Nat.lt_of_lt_of_le (Nat.succ_pos _) hNL) Nat.one_pos
          rcases ih (Nat.succ_pos N) hle with ⟨cuts, hcuts⟩
          exact ⟨cuts ++ [L], isSplit_append_singleton.2 ⟨L - 1, hcuts, hlt⟩⟩

/-- The makespan of a split, once the costs and the link times are known. -/
def timeOf (lk : Nat → Nat → K) (cost : Nat → Nat → Nat → Nat → K) (M : Nat)
    (cuts : List Nat) : K :=
  makespanFrom lk 0 (fun _ => 0) (rowsFrom cost 0 0 cuts) (M - 1)

omit [IsOrderedAddMonoid K] in
/-- The first entry with the least last component of a sound and complete frontier is best. -/
theorem exists_pickEntry {lk : Nat → Nat → K} {cost : Nat → Nat → Nat → Nat → K} {N L M : Nat}
    {f : Frontier K} (hlk : ∀ j, lk 0 j = 0) (hM : 0 < M) (hsound : Sound lk cost N f)
    (hcomplete : Complete lk cost N L M N f) (hsplit : ∃ cuts, IsSplit N L cuts) :
    ∃ x, pickEntry M ((f.lookup L).getD []) = .ok (some x) ∧
      IsBest (timeOf lk cost M) N L (x.v (M - 1)) x.cuts := by
  have hbelow : ∀ cuts, IsSplit N L cuts →
      ∃ y, f.Finds L y ∧ y.v (M - 1) ≤ timeOf lk cost M cuts := by
    intro cuts hcuts
    rcases hcuts.reaches lk cost with ⟨v, hv⟩
    rcases hcomplete L cuts v hv (Nat.le_refl _) with ⟨y, hy, hle⟩
    rw [timeOf, hv.makespanFrom_eq hlk]
    exact ⟨y, hy, hle (M - 1) (Nat.sub_lt hM Nat.one_pos)⟩
  rcases hsplit with ⟨cuts₀, hcuts₀⟩
  rcases hbelow cuts₀ hcuts₀ with ⟨y₀, ⟨entries, hlookup, hy₀⟩, -⟩
  have hne : ¬entries.isEmpty = true := by
    rw [List.isEmpty_iff]
    exact List.ne_nil_of_mem hy₀
  rw [hlookup, Option.getD_some, pickEntry, if_neg hne, if_neg (Nat.pos_iff_ne_zero.1 hM)]
  cases hmin : entries.argmin fun x => x.v (M - 1) with
  | none =>
      rw [List.argmin_eq_none.1 hmin] at hy₀
      exact absurd hy₀ List.not_mem_nil
  | some x =>
      have hx : f.Finds L x := ⟨entries, hlookup, List.argmin_mem hmin⟩
      have hreach := hsound L x hx.lists
      refine ⟨x, rfl, hreach.isSplit, by rw [timeOf, hreach.makespanFrom_eq hlk], ?_⟩
      intro cuts hcuts
      rcases hbelow cuts hcuts with ⟨y, ⟨entries', hlookup', hy⟩, hle⟩
      have heq : entries' = entries := Option.some.inj (hlookup'.symm.trans hlookup)
      have hmem : y ∈ entries := heq ▸ hy
      have hxy := List.le_of_mem_argmin hmem hmin
      exact le_trans hxy hle

omit [AddCommGroup K] [IsOrderedAddMonoid K] in
/-- The loop of the enumeration keeps the first of the least. -/
theorem foldl_better (time : List Nat → K) (l : List (List Nat)) (best : K × List Nat) :
    ∃ r, l.foldl (fun b cuts => better b (time cuts) cuts) (some best) = some r ∧
      r.1 ≤ best.1 ∧ (∀ cuts ∈ l, r.1 ≤ time cuts) ∧
      (r = best ∨ ∃ cuts ∈ l, r = (time cuts, cuts)) := by
  induction l generalizing best with
  | nil => exact ⟨best, rfl, le_refl _, fun _ h => absurd h List.not_mem_nil, .inl rfl⟩
  | cons cuts l ih =>
      rw [List.foldl_cons, better]
      split_ifs with hlt
      · rcases ih (time cuts, cuts) with ⟨r, hr, hle, hall, hfrom⟩
        refine ⟨r, hr, le_trans hle hlt.le, ?_, .inr ?_⟩
        · exact List.forall_mem_cons.2 ⟨hle, hall⟩
        · rcases hfrom with rfl | ⟨cuts', hmem, rfl⟩
          · exact ⟨cuts, List.mem_cons_self, rfl⟩
          · exact ⟨cuts', List.mem_cons_of_mem _ hmem, rfl⟩
      · rcases ih best with ⟨r, hr, hle, hall, hfrom⟩
        refine ⟨r, hr, hle, ?_, ?_⟩
        · exact List.forall_mem_cons.2 ⟨le_trans hle (not_lt.1 hlt), hall⟩
        · rcases hfrom with rfl | ⟨cuts', hmem, rfl⟩
          · exact .inl rfl
          · exact .inr ⟨cuts', List.mem_cons_of_mem _ hmem, rfl⟩

omit [AddCommGroup K] [IsOrderedAddMonoid K] in
/-- The loop over all the splits ends with a best one. -/
theorem foldl_better_isBest (time : List Nat → K) {N L : Nat} {l : List (List Nat)}
    (hl : ∀ cuts, cuts ∈ l ↔ IsSplit N L cuts) (hsplit : ∃ cuts, IsSplit N L cuts) :
    ∃ r, l.foldl (fun b cuts => better b (time cuts) cuts) none = some r ∧
      IsBest time N L r.1 r.2 := by
  rcases hsplit with ⟨cuts₀, hcuts₀⟩
  cases l with
  | nil => exact absurd ((hl cuts₀).2 hcuts₀) List.not_mem_nil
  | cons c l =>
      rcases foldl_better time l (time c, c) with ⟨r, hr, hfirst, hle, hfrom⟩
      have hrmem : ∃ cuts ∈ c :: l, r = (time cuts, cuts) := by
        rcases hfrom with rfl | ⟨cuts, hcuts, rfl⟩
        · exact ⟨c, List.mem_cons_self, rfl⟩
        · exact ⟨cuts, List.mem_cons_of_mem _ hcuts, rfl⟩
      have hall : ∀ cuts ∈ c :: l, r.1 ≤ time cuts := List.forall_mem_cons.2 ⟨hfirst, hle⟩
      rcases hrmem with ⟨cuts, hcuts, rfl⟩
      exact ⟨_, hr, (hl cuts).1 hcuts, rfl, fun cuts' h => hall cuts' ((hl cuts').2 h)⟩

theorem mem_map_combinations {n L : Nat} (hL : 1 ≤ L) (cuts : List Nat) :
    cuts ∈ (combinations n (List.range' 1 (L - 1))).map (· ++ [L]) ↔ IsSplit (n + 1) L cuts := by
  rw [List.mem_map]
  constructor
  · rintro ⟨cs, hcs, rfl⟩
    exact (mem_combinations_iff_isSplit hL).1 hcs
  · intro h
    rcases h.eq_append_singleton with ⟨cs, rfl⟩
    exact ⟨cs, (mem_combinations_iff_isSplit hL).2 h, rfl⟩

/-! ## The two planners on an instance -/

/-- The makespan of a split of the instance. -/
def instTime (t : CostTable K) (N : Nat) (geom : List Chunk) : List Nat → K :=
  timeOf (linkMatrix t (stageNodes.take N) geom N) (instCost t (stageNodes.take N) geom N)
    geom.length

section Instance

variable {nLayers S N B : Nat} {pad4 : Bool} {geom : List Chunk}
  (hgeom : chunkGeometry (execLen S pad4) B = .ok geom) (hM : 0 < geom.length)
  (hlen : (stageNodes.take N).length = N)

include hgeom hM hlen

omit [IsOrderedAddMonoid K] in
theorem splitMakespan_eq {cuts : List Nat} (hcuts : cuts.length = N) :
    splitMakespan t S N B pad4 cuts = .ok (instTime t N geom cuts) := by
  have hlinks := @linkRows_eq K _ t _ geom N hlen.ge
  simp only [splitMakespan, hgeom, bind, Except.bind, hlinks]
  exact cutsMakespan_eq (hcuts.trans hlen.symm).le hM

theorem planFor_isBest (ht : t.Nonneg) (hN : 1 ≤ N) (hNL : N ≤ 2 * nLayers) :
    ∃ p, planFor t nLayers S N B pad4 none = .ok (some p) ∧
      IsBest (instTime t N geom) N (2 * nLayers) p.T p.cuts := by
  have hlinks := @linkRows_eq K _ t _ geom N hlen.ge
  have hrun : ∀ k ∈ List.range N, ∀ f, _ := fun k hk f =>
    @stageStep_eq K _ t _ _ geom N (2 * nLayers) k f ((List.mem_range.1 hk).trans_eq hlen.symm) hM
  have hlk := linkMatrix_nonneg ht (stageNodes.take N) geom N
  have hcost := instCost_nonneg ht (stageNodes.take N) geom N
  rcases foldl_nextFrontier hlk hcost N (2 * nLayers) geom.length (Nat.le_refl N)
    with ⟨hsound, hcomplete⟩
  rcases exists_pickEntry (linkMatrix_zero _ geom N) hM hsound hcomplete (exists_isSplit hN hNL)
    with ⟨x, hpick, hbest⟩
  refine ⟨⟨S, execLen S pad4, N, B, geom.length, x.v (geom.length - 1), x.cuts,
    stageNodes.take N⟩, ?_, hbest⟩
  have hnot : ¬N > 2 * nLayers := Nat.not_lt.2 hNL
  simp only [planFor, if_neg hnot, hgeom, bind, Except.bind, hlinks, foldlM_eq_ok hrun, hpick]
  rfl

omit [IsOrderedAddMonoid K] in
theorem bruteForce_isBest (hN : 1 ≤ N) (hNL : N ≤ 2 * nLayers) :
    ∃ r, bruteForce t nLayers S N B pad4 = .ok (some r) ∧
      IsBest (instTime t N geom) N (2 * nLayers) r.1 r.2 := by
  have hN' : N - 1 + 1 = N := Nat.sub_add_cancel hN
  have hmem := fun cuts => hN' ▸ @mem_map_combinations (N - 1) (2 * nLayers) (hN.trans hNL) cuts
  have hlinks := @linkRows_eq K _ t _ geom N hlen.ge
  have hbody : ∀ cuts ∈ (combinations (N - 1) (List.range' 1 (2 * nLayers - 1))).map
        (· ++ [2 * nLayers]), ∀ best,
      tryCuts t (stageNodes.take N) geom N
          ((List.range N).map (instLink t (stageNodes.take N) geom)) best cuts
        = .ok (better best (instTime t N geom cuts) cuts) := by
    intro cuts hcuts best
    have hlength := ((hmem cuts).1 hcuts).length
    rw [tryCuts, cutsMakespan_eq (hlength.trans hlen.symm).le hM]
    rfl
  rcases foldl_better_isBest (instTime t N geom) hmem (exists_isSplit hN hNL) with ⟨r, hr, hbest⟩
  refine ⟨r, ?_, hbest⟩
  have hN0 : ¬N = 0 := Nat.pos_iff_ne_zero.1 hN
  simp only [bruteForce, hgeom, bind, Except.bind, hlinks, if_neg hN0]
  rw [foldlM_eq_ok hbody, hr]

end Instance

/-- `planFor` finds a split, its `T` is the makespan of the split, no split has a smaller one, and
the enumeration ends with the same value. -/
theorem planFor_optimal (t : CostTable K) (ht : t.Nonneg) (nLayers S N B : Nat) (pad4 : Bool)
    (hN : 1 ≤ N) (hNL : N ≤ 2 * nLayers) (hnodes : N ≤ stageNodes.length) (hS : 1 ≤ S)
    (hB : 1 ≤ B) :
    ∃ p, planFor t nLayers S N B pad4 none = .ok (some p) ∧ IsSplit N (2 * nLayers) p.cuts ∧
      splitMakespan t S N B pad4 p.cuts = .ok p.T ∧
      (∀ cuts, IsSplit N (2 * nLayers) cuts →
        ∃ T, splitMakespan t S N B pad4 cuts = .ok T ∧ p.T ≤ T) ∧
      ∃ cuts, bruteForce t nLayers S N B pad4 = .ok (some (p.T, cuts)) := by
  rcases chunkGeometry_ok (execLen_pos hS pad4) hB with ⟨geom, hgeom, hM⟩
  have hlen : (stageNodes.take N).length = N := List.length_take_of_le hnodes
  rcases planFor_isBest hgeom hM hlen ht hN hNL with ⟨p, hp, hbest⟩
  refine ⟨p, hp, hbest.split, ?_, ?_, ?_⟩
  · rw [splitMakespan_eq hgeom hM hlen hbest.split.length, hbest.time_eq]
  · intro cuts hcuts
    exact ⟨_, splitMakespan_eq hgeom hM hlen hcuts.length, hbest.le cuts hcuts⟩
  · rcases bruteForce_isBest (t := t) hgeom hM hlen hN hNL with ⟨r, hr, hrbest⟩
    exact ⟨r.2, by rw [hr, hbest.unique hrbest]⟩

/-! ## One instance -/

/-- An attention sub-block takes as long as its tokens and what they look back on, an ff sub-block
twice its tokens. -/
def sampleTable : CostTable ℤ where
  att0 := fun _ c => c.l + 1
  att := fun _ c => c.l
  ff := fun _ c => 2 * c.b
  head := fun _ _ => 3
  link := fun _ _ b => b

theorem sampleTable_nonneg : sampleTable.Nonneg where
  att0 := fun _ c => by simp only [sampleTable]; omega
  att := fun _ c => by simp only [sampleTable]; omega
  ff := fun _ c => by simp only [sampleTable]; omega
  head := fun _ _ => by simp only [sampleTable]; omega
  link := fun _ _ b => by simp only [sampleTable]; omega

theorem planFor_optimal_sample :
    ∃ p, planFor sampleTable 3 7 3 2 true none = .ok (some p) ∧ IsSplit 3 6 p.cuts ∧
      splitMakespan sampleTable 7 3 2 true p.cuts = .ok p.T ∧
      (∀ cuts, IsSplit 3 6 cuts →
        ∃ T, splitMakespan sampleTable 7 3 2 true cuts = .ok T ∧ p.T ≤ T) ∧
      ∃ cuts, bruteForce sampleTable 3 7 3 2 true = .ok (some (p.T, cuts)) :=
  planFor_optimal sampleTable sampleTable_nonneg 3 7 3 2 true (by decide) (by decide) (by decide)
    (by decide) (by decide)

/-- There are nodes for eight stages only, and without tokens or with micro-batches of no token
there is no plan. -/
theorem planFor_without_plan :
    planFor sampleTable 5 7 9 2 true none = .error .indexError ∧
      planFor sampleTable 5 0 2 2 true none = .error .indexError ∧
      planFor sampleTable 5 7 2 0 true none = .error .endless :=
  ⟨rfl, rfl, rfl⟩

end Planner
end PrefillOpt
