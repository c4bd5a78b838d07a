import Mathlib.Tactic.Ring
import Mathlib.Tactic.Linarith

/-!
# Topology — pipeline × sequence × tensor parallel placement

`nn-topology.hpp`.  A cluster of `nNodes` nodes is cut into `ppSize` pipeline stages, each stage
into `spSize` sequence-parallel ranks, each of these into `tpSize` tensor-parallel ranks:

  `globalRank = ppRank * (spSize * tpSize) + spRank * tpSize + tpRank`.
-/

namespace PrefillOpt

/-- Where a node stands, and the ranges of its TP and SP groups. -/
structure NnNodePlacement where
  globalRank : Nat
  ppRank : Nat
  spRank : Nat
  tpRank : Nat
  tpGroupStart : Nat
  tpGroupEnd : Nat
  spGroupStart : Nat
  spGroupEnd : Nat
  deriving DecidableEq, Repr

/-- A topology whose sizes multiply to the number of nodes. -/
structure NnParallelTopology where
  nNodes : Nat
  ppSize : Nat
  spSize : Nat
  tpSize : Nat
  ppSize_pos : 0 < ppSize
  spSize_pos : 0 < spSize
  tpSize_pos : 0 < tpSize
  nNodes_eq : nNodes = ppSize * spSize * tpSize

namespace NnParallelTopology

variable (t : NnParallelTopology)

/-- The arithmetic of `getPlacement`. -/
def placement (globalRank : Nat) : NnNodePlacement :=
  let ppRank := globalRank / (t.spSize * t.tpSize)
  let rem := globalRank % (t.spSize * t.tpSize)
  let spRank := rem / t.tpSize
  let tpRank := rem % t.tpSize
  let tpGroupStart := ppRank * t.spSize * t.tpSize + spRank * t.tpSize
  let tpGroupEnd := tpGroupStart + t.tpSize
  let spGroupStart := ppRank * t.spSize * t.tpSize
  let spGroupEnd := spGroupStart + t.spSize * t.tpSize
  ⟨globalRank, ppRank, spRank, tpRank, tpGroupStart, tpGroupEnd, spGroupStart, spGroupEnd⟩

def getPlacement (globalRank : Nat) : Except String NnNodePlacement :=
  if t.nNodes ≤ globalRank then .error "global rank out of range" else .ok (t.placement globalRank)

/-- The arithmetic of `getGlobalRank`. -/
def rankAt (ppRank spRank tpRank : Nat) : Nat :=
  ppRank * (t.spSize * t.tpSize) + spRank * t.tpSize + tpRank

def getGlobalRank (ppRank spRank tpRank : Nat) : Except String Nat :=
  if t.ppSize ≤ ppRank then .error "pp rank out of range"
  else if t.spSize ≤ spRank then .error "sp rank out of range"
  else if t.tpSize ≤ tpRank then .error "tp rank out of range"
  else .ok (t.rankAt ppRank spRank tpRank)

/-! ## Ranks and placements are inverse to each other -/

theorem laneCount_pos : 0 < t.spSize * t.tpSize :=
  Nat.mul_pos t.spSize_pos t.tpSize_pos

theorem nNodes_pos : 0 < t.nNodes := by
  rw [t.nNodes_eq]
  exact Nat.mul_pos (Nat.mul_pos t.ppSize_pos t.spSize_pos) t.tpSize_pos

theorem tpRank_lt (r : Nat) : (t.placement r).tpRank < t.tpSize :=
  Nat.mod_lt _ t.tpSize_pos

theorem spRank_lt (r : Nat) : (t.placement r).spRank < t.spSize := by
  have h := Nat.mod_lt r t.laneCount_pos
  exact Nat.div_lt_of_lt_mul (h.trans_eq (Nat.mul_comm _ _))

theorem ppRank_lt {r : Nat} (hr : r < t.nNodes) : (t.placement r).ppRank < t.ppSize := by
  refine Nat.div_lt_of_lt_mul ?_
  have := t.nNodes_eq
  rw [Nat.mul_comm, ← Nat.mul_assoc]
  omega

/-- Every node is where its placement says. -/
theorem rankAt_placement (r : Nat) :
    t.rankAt (t.placement r).ppRank (t.placement r).spRank (t.placement r).tpRank = r := by
  have h₁ := Nat.div_add_mod r (t.spSize * t.tpSize)
  have h₂ := Nat.div_add_mod (r % (t.spSize * t.tpSize)) t.tpSize
  simp only [rankAt, placement]
  rw [Nat.mul_comm (r / _), Nat.mul_comm (_ / t.tpSize), Nat.add_assoc, h₂, h₁]

theorem rankAt_lt {pp sp tp : Nat} (hpp : pp < t.ppSize) (hsp : sp < t.spSize)
    (htp : tp < t.tpSize) : t.rankAt pp sp tp < t.nNodes := by
  have h₁ : sp * t.tpSize + t.tpSize ≤ t.spSize * t.tpSize := by
    rw [← Nat.succ_mul]
    exact Nat.mul_le_mul_right _ hsp
  have h₂ : pp * (t.spSize * t.tpSize) + t.spSize * t.tpSize
      ≤ t.ppSize * (t.spSize * t.tpSize) := by
    rw [← Nat.succ_mul]
    exact Nat.mul_le_mul_right _ hpp
  have h₃ := t.nNodes_eq
  rw [Nat.mul_assoc] at h₃
  simp only [rankAt]
  omega

theorem placement_rankAt (pp : Nat) {sp tp : Nat} (hsp : sp < t.spSize) (htp : tp < t.tpSize) :
    (t.placement (t.rankAt pp sp tp)).ppRank = pp ∧
    (t.placement (t.rankAt pp sp tp)).spRank = sp ∧
    (t.placement (t.rankAt pp sp tp)).tpRank = tp := by
  have hlane : sp * t.tpSize + tp < t.spSize * t.tpSize := by
    have : sp * t.tpSize + t.tpSize ≤ t.spSize * t.tpSize := by
      rw [← Nat.succ_mul]
      exact Nat.mul_le_mul_right _ hsp
    omega
  have hdiv : t.rankAt pp sp tp / (t.spSize * t.tpSize) = pp := by
    rw [rankAt, Nat.add_assoc, Nat.mul_comm pp, Nat.mul_add_div t.laneCount_pos,
      Nat.div_eq_of_lt hlane, Nat.add_zero]
  have hmod : t.rankAt pp sp tp % (t.spSize * t.tpSize) = sp * t.tpSize + tp := by
    rw [rankAt, Nat.add_assoc, Nat.mul_comm pp, Nat.mul_add_mod, Nat.mod_eq_of_lt hlane]
  simp only [placement, hdiv, hmod]
  refine ⟨trivial, ?_, ?_⟩
  · rw [Nat.mul_comm sp, Nat.mul_add_div t.tpSize_pos, Nat.div_eq_of_lt htp, Nat.add_zero]
  · rw [Nat.mul_comm sp, Nat.mul_add_mod, Nat.mod_eq_of_lt htp]

/-! ## The groups of a node -/

theorem tpGroupStart_add_tpRank (r : Nat) :
    (t.placement r).tpGroupStart + (t.placement r).tpRank = r := by
  have h := t.rankAt_placement r
  simp only [rankAt, placement] at h ⊢
  rw [Nat.mul_assoc]
  exact h

theorem tpGroupEnd_eq (r : Nat) :
    (t.placement r).tpGroupEnd = (t.placement r).tpGroupStart + t.tpSize := rfl

/-- A node is a member of its own TP group. -/
theorem mem_tpGroup (r : Nat) :
    (t.placement r).tpGroupStart ≤ r ∧ r < (t.placement r).tpGroupEnd := by
  have h₁ := t.tpGroupStart_add_tpRank r
  have h₂ := t.tpRank_lt r
  have h₃ := t.tpGroupEnd_eq r
  omega

theorem tpGroupEnd_le {r : Nat} (hr : r < t.nNodes) : (t.placement r).tpGroupEnd ≤ t.nNodes := by
  have h₁ := t.ppRank_lt hr
  have h₂ := t.spRank_lt r
  have h₃ : t.rankAt (t.placement r).ppRank (t.placement r).spRank (t.tpSize - 1) < t.nNodes :=
    t.rankAt_lt h₁ h₂ (by have := t.tpSize_pos; omega)
  have h₄ := t.tpSize_pos
  simp only [rankAt, placement] at h₃ ⊢
  rw [← Nat.mul_assoc] at h₃
  omega

end NnParallelTopology

/-- One stage of two tensor-parallel nodes. -/
def twoTpNodes : NnParallelTopology where
  nNodes := 2
  ppSize := 1
  spSize := 1
  tpSize := 2
  ppSize_pos := by decide
  spSize_pos := by decide
  tpSize_pos := by decide
  nNodes_eq := rfl

end PrefillOpt
