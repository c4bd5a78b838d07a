import Mathlib.Algebra.BigOperators.Intervals
import Mathlib.Algebra.Order.BigOperators.Group.Finset
import PrefillOpt.Planner.PlanFor

/-!
# Geometry — what the closed forms of the planner count

`chunk_geometry`, `n_att_in`, `stage_cost_vec` and `stage_cost` of `derivepp.py` count with closed
forms: the pairs of a chunk, the attention sub-blocks of a stage.  Here they are compared with the
things themselves, the tokens one by one and the sub-blocks one by one.
-/

namespace PrefillOpt
namespace Planner

open Finset

/-! ## Chunks -/

/-- Chunks that follow each other from token `u` to token `e`. -/
inductive Consecutive : Nat → List Chunk → Nat → Prop where
  | nil (u : Nat) : Consecutive u [] u
  | cons {c : Chunk} {geom : List Chunk} {e : Nat} :
      0 < c.b → c.l = c.u + c.b → Consecutive c.l geom e → Consecutive c.u (c :: geom) e

/-- A query with each key up to it. -/
def Chunk.pairs (c : Chunk) : Finset (Nat × Nat) :=
  (Ico c.u c.l ×ˢ range c.l).filter fun p => p.2 ≤ p.1

namespace Consecutive

variable {u e : Nat} {geom : List Chunk}

theorem le (h : Consecutive u geom e) : u ≤ e := by
  induction h with
  | nil u => exact Nat.le_refl u
  | cons _ hl _ ih => omega

theorem pos (h : Consecutive u geom e) {c : Chunk} (hc : c ∈ geom) : 0 < c.b := by
  induction h with
  | nil u => cases hc
  | cons hb _ _ ih =>
      rcases List.mem_cons.1 hc with rfl | hc
      · exact hb
      · exact ih hc

/-- Every token is in one chunk, in order. -/
theorem tokens (h : Consecutive u geom e) :
    (geom.flatMap fun c => List.range' c.u c.b) = List.range' u (e - u) := by
  induction h with
  | nil u => rw [Nat.sub_self, List.flatMap_nil, List.range'_zero]
  | @cons c geom e _ hl hrest ih =>
      have hle := hrest.le
      have hlen : e - c.u = c.b + (e - c.l) := by omega
      rw [List.flatMap_cons, ih, hlen, hl, List.range'_append_1]

/-- What the chunks count together is counted from the first token to the last. -/
theorem sum_eq {f : Nat → Nat} (h : Consecutive u geom e)
    (hf : ∀ c ∈ geom, c.a = ∑ q ∈ Ico c.u c.l, f q) :
    (geom.map Chunk.a).sum = ∑ q ∈ Ico u e, f q := by
  induction h with
  | nil u => rw [Ico_self, sum_empty, List.map_nil, List.sum_nil]
  | @cons c geom e _ hl hrest ih =>
      have hcl : c.u ≤ c.l := by omega
      rw [List.map_cons, List.sum_cons, ih fun c' hc' => hf c' (List.mem_cons_of_mem c hc'),
        hf c List.mem_cons_self, sum_Ico_consecutive f hcl hrest.le]

end Consecutive

theorem sum_succ_range (n : Nat) : ∑ q ∈ range n, (q + 1) = n * (n + 1) / 2 := by
  have h := sum_range_id (n + 1)
  rw [sum_range_succ', Nat.add_zero, Nat.add_sub_cancel, Nat.mul_comm] at h
  exact h

/-- The closed form of a chunk. -/
theorem sum_succ_Ico (u b : Nat) :
    ∑ q ∈ Ico u (u + b), (q + 1) = b * u + b * (b + 1) / 2 := by
  rw [sum_Ico_eq_sum_range, Nat.add_sub_cancel_left]
  calc ∑ i ∈ range b, (u + i + 1)
      = ∑ i ∈ range b, (u + (i + 1)) := sum_congr rfl fun i _ => Nat.add_assoc u i 1
    _ = b * u + b * (b + 1) / 2 := by
      rw [sum_add_distrib, sum_const, card_range, sum_succ_range]
      rfl

theorem Chunk.card_pairs (c : Chunk) : c.pairs.card = ∑ q ∈ Ico c.u c.l, (q + 1) := by
  rw [pairs, card_filter, sum_product]
  apply sum_congr rfl
  intro q hq
  have hkeys : (range c.l).filter (fun k => k ≤ q) = range (q + 1) := by
    have hlt := (mem_Ico.1 hq).2
    ext k
    simp only [mem_filter, mem_range]
    omega
  rw [← card_filter, hkeys, card_range]

section Chunks

variable {S_exec B : Nat}

theorem chunkLoop_spec (hB : 1 ≤ B) {fuel u : Nat} (hu : u ≤ S_exec) {geom : List Chunk}
    (h : chunkLoop S_exec B fuel u = some geom) :
    Consecutive u geom S_exec ∧
      ∀ c ∈ geom, c.b ≤ B ∧ c.a = ∑ q ∈ Ico c.u c.l, (q + 1) := by
  induction fuel generalizing u geom with
  | zero =>
      rw [chunkLoop] at h
      split_ifs at h with hlt
      cases h
      obtain rfl : u = S_exec := by omega
      exact ⟨.nil u, fun c hc => absurd hc List.not_mem_nil⟩
  | succ fuel ih =>
      rw [chunkLoop] at h
      split_ifs at h with hlt
      · obtain ⟨rest, hrest, rfl⟩ := Option.map_eq_some_iff.1 h
        have hmin : 0 < min B (S_exec - u) := Nat.lt_min.2 ⟨hB, Nat.sub_pos_of_lt hlt⟩
        obtain ⟨hcons, hall⟩ := ih (by omega) hrest
        refine ⟨.cons (c := ⟨u, _, _, _⟩) hmin rfl hcons, ?_⟩
        intro c hc
        rcases List.mem_cons.1 hc with rfl | hc
        · exact ⟨Nat.min_le_left _ _, (sum_succ_Ico _ _).symm⟩
        · exact hall c hc
      · cases h
        obtain rfl : u = S_exec := by omega
        exact ⟨.nil u, fun c hc => absurd hc List.not_mem_nil⟩

/-- What `chunk_geometry` says about `S_exec` tokens in chunks of `B`. -/
structure ExactGeometry (S_exec B : Nat) (geom : List Chunk) : Prop where
  consecutive : Consecutive 0 geom S_exec
  tokens : (geom.flatMap fun c => List.range' c.u c.b) = List.range S_exec
  size : ∀ c ∈ geom, 1 ≤ c.b ∧ c.b ≤ B
  pairs : ∀ c ∈ geom, c.a = c.pairs.card
  total : (geom.map Chunk.a).sum = S_exec * (S_exec + 1) / 2

theorem chunkGeometry_exact (S_exec : Nat) (hB : 1 ≤ B) :
    ∃ geom, chunkGeometry S_exec B = .ok geom ∧ ExactGeometry S_exec B geom := by
  have hfuel : S_exec ≤ 0 + S_exec := Nat.le_of_eq (Nat.zero_add S_exec).symm
  obtain ⟨geom, hgeom, -⟩ := chunkLoop_isSome hB hfuel
  obtain ⟨hcons, hall⟩ := chunkLoop_spec hB (Nat.zero_le S_exec) hgeom
  refine ⟨geom, by rw [chunkGeometry, hgeom], hcons, ?_, ?_, ?_, ?_⟩
  · rw [hcons.tokens, Nat.sub_zero, List.range_eq_range']
  · exact fun c hc => ⟨hcons.pos hc, (hall c hc).1⟩
  · intro c hc
    rw [c.card_pairs]
    exact (hall c hc).2
  · rw [hcons.sum_eq fun c hc => (hall c hc).2, ← range_eq_Ico, sum_succ_range]

end Chunks

/-! ## Sub-blocks -/

theorem nAttIn_self (a : Nat) : nAttIn a a = 0 := by
  simp only [nAttIn]
  split_ifs <;> omega

theorem nAttIn_succ {a bnd : Nat} (h : a ≤ bnd) :
    nAttIn a (bnd + 1) = nAttIn a bnd + if bnd % 2 = 0 then 1 else 0 := by
  simp only [nAttIn]
  split_ifs <;> omega

theorem nAttIn_le {a bnd : Nat} (h : a ≤ bnd) : a + nAttIn a bnd ≤ bnd := by
  simp only [nAttIn]
  split_ifs <;> omega

/-- The closed form counts the even sub-blocks. -/
theorem nAttIn_eq_card {a bnd : Nat} (h : a ≤ bnd) :
    nAttIn a bnd = ((Ico a bnd).filter fun s => s % 2 = 0).card := by
  induction bnd, h using Nat.le_induction with
  | base => rw [nAttIn_self, Ico_self, filter_empty, card_empty]
  | succ bnd h ih =>
      rw [nAttIn_succ h, ih, card_filter, card_filter, sum_Ico_succ_top h]

section Stages

variable {K : Type} [AddCommGroup K]

/-- What sub-block `s` costs in a stage that begins at `a`: the first attention sub-block of the
stage costs `att0`. -/
def subblockCost (att ff : Nat → K) (att0 : Option (Nat → K)) (a s j : Nat) : K :=
  if s % 2 = 0 then
    match att0 with
    | some att0 => if s = a + a % 2 then att0 j else att j
    | none => att j
  else ff j

def headCost (head : Option (Nat → K)) (j : Nat) : K :=
  match head with
  | some head => head j
  | none => 0

variable (att ff : Nat → K) (head att0 : Option (Nat → K))

theorem stageCost_head (a bnd j : Nat) :
    stageCost att ff a bnd j head att0 = stageCost att ff a bnd j none att0 + headCost head j := by
  cases head with
  | none => rw [headCost, add_zero]
  | some head => rfl

/-- Without an attention sub-block before it, an even sub-block is the first of its stage. -/
theorem nAttIn_eq_zero_iff {a bnd : Nat} (h : a ≤ bnd) (heven : bnd % 2 = 0) :
    nAttIn a bnd = 0 ↔ bnd = a + a % 2 := by
  simp only [nAttIn]
  split_ifs <;> omega

/-- `C_att(n) = A_start + (n - 1) * A_steady` -/
def attCost (n j : Nat) : K :=
  match att0 with
  | some att0 => if 0 < n then att0 j + (n - 1) • att j else n • att j
  | none => n • att j

theorem attCost_succ (n j : Nat) :
    attCost att att0 (n + 1) j = attCost att att0 n j +
      match att0 with
      | some att0 => if n = 0 then att0 j else att j
      | none => att j := by
  cases att0 with
  | none => exact succ_nsmul (att j) n
  | some att0 =>
      cases n with
      | zero => simp only [attCost, Nat.lt_irrefl, Nat.one_pos, if_true, if_false, Nat.sub_self,
          zero_nsmul, add_zero, zero_add]
      | succ n =>
          simp only [attCost, Nat.succ_pos, if_true, Nat.add_sub_cancel, Nat.succ_ne_zero, if_false]
          rw [succ_nsmul, ← add_assoc]

theorem stageCost_eq (a bnd j : Nat) :
    stageCost att ff a bnd j none att0
      = attCost att att0 (nAttIn a bnd) j + (bnd - a - nAttIn a bnd) • ff j := by
  cases att0 with
  | none => rfl
  | some att0 =>
      simp only [stageCost, attCost]
      split_ifs
      · rfl
      · rfl

/-- One more sub-block is one more cost. -/
theorem stageCost_succ {a bnd : Nat} (h : a ≤ bnd) (j : Nat) :
    stageCost att ff a (bnd + 1) j none att0
      = stageCost att ff a bnd j none att0 + subblockCost att ff att0 a bnd j := by
  have hsucc := nAttIn_succ h
  have hle := nAttIn_le h
  rw [stageCost_eq, stageCost_eq, hsucc]
  unfold subblockCost
  by_cases heven : bnd % 2 = 0
  · have hff : bnd + 1 - a - (nAttIn a bnd + 1) = bnd - a - nAttIn a bnd := by omega
    rw [if_pos heven, if_pos heven, hff, attCost_succ, add_right_comm]
    simp only [nAttIn_eq_zero_iff h heven]
  · have hff : bnd + 1 - a - (nAttIn a bnd + 0) = bnd - a - nAttIn a bnd + 1 := by omega
    rw [if_neg heven, if_neg heven, hff, Nat.add_zero, succ_nsmul, add_assoc]

/-- The cost of a stage is the cost of its sub-blocks and its head. -/
theorem stageCost_eq_sum {a bnd : Nat} (h : a ≤ bnd) (j : Nat) :
    stageCost att ff a bnd j head att0
      = ∑ s ∈ Ico a bnd, subblockCost att ff att0 a s j + headCost head j := by
  rw [stageCost_head]
  congr 1
  induction bnd, h using Nat.le_induction with
  | base =>
      rw [Ico_self, sum_empty, stageCost_eq, nAttIn_self, Nat.sub_self, zero_nsmul, add_zero]
      cases att0 with
      | none => exact zero_nsmul _
      | some att0 => exact zero_nsmul _
  | succ bnd h ih => rw [stageCost_succ att ff att0 h, ih, sum_Ico_succ_top h]

/-! ### The stages of a split -/

/-- The sub-blocks of the stages from stage `k` on, each with its stage and where that begins. -/
def stageBlocks : Nat → Nat → List Nat → List (Nat × Nat × Nat)
  | _, _, [] => []
  | k, a, e :: es => (List.range' a (e - a)).map (fun s => (k, a, s)) ++ stageBlocks (k + 1) e es

/-- What the heads of the stages from stage `k` on cost. -/
def headCosts (head : Nat → Option (Nat → K)) (j : Nat) : Nat → List Nat → K
  | _, [] => 0
  | k, _ :: es => headCost (head k) j + headCosts head j (k + 1) es

theorem le_getLastD {a : Nat} {cuts : List Nat} (h : (a :: cuts).IsChain (· ≤ ·)) :
    a ≤ cuts.getLastD a := by
  induction cuts generalizing a with
  | nil => exact Nat.le_refl a
  | cons e cuts ih =>
      rw [List.getLastD_cons]
      exact (List.isChain_cons_cons.1 h).1.trans (ih (List.isChain_cons_cons.1 h).2)

/-- The stages share the sub-blocks in order. -/
theorem stageBlocks_subblocks {k a : Nat} {cuts : List Nat} (h : (a :: cuts).IsChain (· ≤ ·)) :
    (stageBlocks k a cuts).map (fun x => x.2.2) = List.range' a (cuts.getLastD a - a) := by
  induction cuts generalizing k a with
  | nil => rw [stageBlocks, List.map_nil, List.getLastD_nil, Nat.sub_self, List.range'_zero]
  | cons e cuts ih =>
      obtain ⟨hae, hrest⟩ := List.isChain_cons_cons.1 h
      have hlast := le_getLastD hrest
      have hlen : cuts.getLastD e - a = (e - a) + (cuts.getLastD e - e) := by omega
      have hend : a + (e - a) = e := by omega
      rw [stageBlocks, List.map_append, ih hrest, List.map_map, List.getLastD_cons, hlen,
        ← List.range'_append_1, hend]
      congr 1
      exact List.map_id _

/-- The rows of the stages add up to the costs of the sub-blocks and the heads. -/
theorem sum_rowsFrom (att ff : Nat → Nat → K) (head att0 : Nat → Option (Nat → K)) (j : Nat)
    {k a : Nat} {cuts : List Nat} (h : (a :: cuts).IsChain (· ≤ ·)) :
    ((rowsFrom (fun k a e j => stageCost (att k) (ff k) a e j (head k) (att0 k)) k a cuts).map
        fun row => row j).sum
      = ((stageBlocks k a cuts).map fun x =>
          subblockCost (att x.1) (ff x.1) (att0 x.1) x.2.1 x.2.2 j).sum
        + headCosts head j k cuts := by
  induction cuts generalizing k a with
  | nil => exact (add_zero 0).symm
  | cons e cuts ih =>
      obtain ⟨hae, hrest⟩ := List.isChain_cons_cons.1 h
      have hblocks : ∑ s ∈ Ico a e, subblockCost (att k) (ff k) (att0 k) a s j
          = ((List.range' a (e - a)).map fun s =>
              subblockCost (att k) (ff k) (att0 k) a s j).sum := by
        exact Multiset.sum_coe _
      rw [rowsFrom, List.map_cons, List.sum_cons, ih hrest]
      simp only
      rw [stageCost_eq_sum _ _ _ _ hae, hblocks, stageBlocks, List.map_append, List.map_map,
        List.sum_append, headCosts, add_add_add_comm]
      rfl

/-- The costs of the stages that end at `cuts` are those of `L` sub-blocks, each in one stage. -/
structure CountsOnce (att ff : Nat → Nat → K) (head att0 : Nat → Option (Nat → K)) (L : Nat)
    (cuts : List Nat) : Prop where
  once : (stageBlocks 0 0 cuts).map (fun x => x.2.2) = List.range L
  stageCost : ∀ j,
    ((rowsFrom (fun k a e j => Planner.stageCost (att k) (ff k) a e j (head k) (att0 k))
        0 0 cuts).map fun row => row j).sum
      = ((stageBlocks 0 0 cuts).map fun x =>
          subblockCost (att x.1) (ff x.1) (att0 x.1) x.2.1 x.2.2 j).sum + headCosts head j 0 cuts
  stageCostVec : ∀ j,
    ((rowsFrom (fun k a e => Planner.stageCostVec (att k) (ff k) (head k) a e (att0 k))
        0 0 cuts).map fun row => row j).sum
      = ((stageBlocks 0 0 cuts).map fun x =>
          subblockCost (att x.1) (ff x.1) (att0 x.1) x.2.1 x.2.2 j).sum + headCosts head j 0 cuts

theorem countsOnce (att ff : Nat → Nat → K) (head att0 : Nat → Option (Nat → K)) {L : Nat}
    {cuts : List Nat} (hcuts : (0 :: cuts).IsChain (· ≤ ·)) (hlast : cuts.getLastD 0 = L) :
    CountsOnce att ff head att0 L cuts := by
  have hvec : (fun k a e => Planner.stageCostVec (att k) (ff k) (head k) a e (att0 k))
      = fun k a e j => Planner.stageCost (att k) (ff k) a e j (head k) (att0 k) := by
    funext k a e j
    exact stageCostVec_apply _ _ _ _ _ _ _
  refine ⟨?_, fun j => sum_rowsFrom att ff head att0 j hcuts, fun j => ?_⟩
  · rw [stageBlocks_subblocks hcuts, hlast, Nat.sub_zero, List.range_eq_range']
  · rw [hvec]
    exact sum_rowsFrom att ff head att0 j hcuts

/-- The chunks, the number of attention sub-blocks and the costs of a split are exact. -/
theorem planner_counts (S_exec : Nat) {B a bnd L : Nat} {cuts : List Nat}
    (att ff : Nat → Nat → K) (head att0 : Nat → Option (Nat → K)) (hB : 1 ≤ B) (hab : a ≤ bnd)
    (hcuts : (0 :: cuts).IsChain (· ≤ ·)) (hlast : cuts.getLastD 0 = L) :
    (∃ geom, chunkGeometry S_exec B = .ok geom ∧ ExactGeometry S_exec B geom) ∧
      nAttIn a bnd = ((Ico a bnd).filter fun s => s % 2 = 0).card ∧
      CountsOnce att ff head att0 L cuts :=
  ⟨chunkGeometry_exact S_exec hB, nAttIn_eq_card hab, countsOnce att ff head att0 hcuts hlast⟩

theorem planner_counts_three_stages :
    (∃ geom, chunkGeometry 5 2 = .ok geom ∧ ExactGeometry 5 2 geom) ∧
      nAttIn 1 4 = ((Ico 1 4).filter fun s => s % 2 = 0).card ∧
      CountsOnce (K := Int) (fun k _ => k + 1) (fun _ _ => 5)
        (fun k => if k = 2 then some 3 else none) (fun _ => some 7) 6 [1, 4, 6] :=
  planner_counts 5 _ _ _ _ (by decide) (by decide) (by decide) rfl

end Stages

end Planner
end PrefillOpt
