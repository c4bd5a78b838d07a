import Mathlib.Data.Fintype.Card
import Mathlib.Data.Fintype.Prod
import PrefillOpt.Core
import PrefillOpt.Topology

/-!
# TopologyWords — the topology in 32-bit arithmetic

`NnParallelTopology` of `nn-topology.hpp` once more, its products in `NnUint`.  What the constructor
accepts is a topology in the sense of `Topology` as long as `ppSize * spSize` does not overflow.
-/

namespace PrefillOpt

inductive TopologyError where
  | runtimeError (what : String)
  /-- `/` or `%` by zero. -/
  | divisionByZero
deriving DecidableEq, Repr

/-- The fields of the class. -/
structure TopologyFields where
  nNodes : Nat
  ppSize : Nat
  spSize : Nat
  tpSize : Nat
deriving DecidableEq, Repr

namespace TopologyFields

/-- The constructor. -/
def create (nNodes ppSize spSize : Nat) : Except TopologyError TopologyFields :=
  if nNodes < 1 then .error (.runtimeError "nNodes must be >= 1")
  else if ppSize < 1 then .error (.runtimeError "ppSize must be >= 1")
  else if spSize < 1 then .error (.runtimeError "spSize must be >= 1")
  else if u32 (ppSize * spSize) = 0 then .error .divisionByZero
  else if nNodes % u32 (ppSize * spSize) ≠ 0 then
    .error (.runtimeError "nNodes must be divisible by ppSize * spSize")
  else .ok ⟨nNodes, ppSize, spSize, nNodes / u32 (ppSize * spSize)⟩

variable (f : TopologyFields)

def getPlacement (globalRank : Nat) : Except TopologyError NnNodePlacement :=
  let lanes := u32 (f.spSize * f.tpSize)
  if f.nNodes ≤ globalRank then .error (.runtimeError "global rank out of range")
  else if lanes = 0 ∨ f.tpSize = 0 then .error .divisionByZero
  else
    let ppRank := globalRank / lanes
    let rem := globalRank % lanes
    let spRank := rem / f.tpSize
    let tpRank := rem % f.tpSize
    let tpGroupStart := u32 (ppRank * f.spSize * f.tpSize + spRank * f.tpSize)
    let tpGroupEnd := u32 (tpGroupStart + f.tpSize)
    let spGroupStart := u32 (ppRank * f.spSize * f.tpSize)
    let spGroupEnd := u32 (spGroupStart + f.spSize * f.tpSize)
    .ok ⟨globalRank, ppRank, spRank, tpRank, tpGroupStart, tpGroupEnd, spGroupStart, spGroupEnd⟩

def getGlobalRank (ppRank spRank tpRank : Nat) : Except TopologyError Nat :=
  if f.ppSize ≤ ppRank then .error (.runtimeError "pp rank out of range")
  else if f.spSize ≤ spRank then .error (.runtimeError "sp rank out of range")
  else if f.tpSize ≤ tpRank then .error (.runtimeError "tp rank out of range")
  else .ok (u32 (ppRank * (f.spSize * f.tpSize) + spRank * f.tpSize + tpRank))

/-- Ranks and coordinates are inverse to each other, and the groups of a node are the ranks that
share its coordinates. -/
structure PlacementExact : Prop where
  placed : ∀ r < f.nNodes, ∃ p, f.getPlacement r = .ok p ∧ p.ppRank < f.ppSize ∧
    p.spRank < f.spSize ∧ p.tpRank < f.tpSize ∧
    f.getGlobalRank p.ppRank p.spRank p.tpRank = .ok r
  ranked : ∀ pp < f.ppSize, ∀ sp < f.spSize, ∀ tp < f.tpSize,
    ∃ r p, f.getGlobalRank pp sp tp = .ok r ∧ r < f.nNodes ∧ f.getPlacement r = .ok p ∧
      p.ppRank = pp ∧ p.spRank = sp ∧ p.tpRank = tp
  tpGroup : ∀ r p, f.getPlacement r = .ok p → ∀ r', p.tpGroupStart ≤ r' ∧ r' < p.tpGroupEnd ↔
    ∃ p', f.getPlacement r' = .ok p' ∧ p'.ppRank = p.ppRank ∧ p'.spRank = p.spRank
  spGroup : ∀ r p, f.getPlacement r = .ok p → ∀ r', p.spGroupStart ≤ r' ∧ r' < p.spGroupEnd ↔
    ∃ p', f.getPlacement r' = .ok p' ∧ p'.ppRank = p.ppRank

end TopologyFields

/-! ## The groups as ranks with the same coordinates -/

namespace NnParallelTopology

variable (t : NnParallelTopology)

theorem spGroupStart_le (r : Nat) : (t.placement r).spGroupStart ≤ r := by
  have hdiv := Nat.div_mul_le_self r (t.spSize * t.tpSize)
  simp only [placement, Nat.mul_assoc] at hdiv ⊢
  exact hdiv

theorem mem_spGroup_iff (r r' : Nat) :
    (t.placement r).spGroupStart ≤ r' ∧ r' < (t.placement r).spGroupEnd ↔
      (t.placement r').ppRank = (t.placement r).ppRank := by
  simp only [placement, Nat.mul_assoc]
  rw [Nat.div_eq_iff t.laneCount_pos]
  have hpos := t.laneCount_pos
  omega

theorem mem_tpGroup_iff (r r' : Nat) :
    (t.placement r).tpGroupStart ≤ r' ∧ r' < (t.placement r).tpGroupEnd ↔
      (t.placement r').ppRank = (t.placement r).ppRank ∧
        (t.placement r').spRank = (t.placement r).spRank := by
  have hstart := t.tpGroupStart_add_tpRank r'
  have hlt := t.tpRank_lt r'
  have hend := t.tpGroupEnd_eq r
  constructor
  · rintro ⟨hle, hlt'⟩
    have hrank : r' = t.rankAt (t.placement r).ppRank (t.placement r).spRank
        (r' - (t.placement r).tpGroupStart) := by
      have hgroup : (t.placement r).tpGroupStart
          = (t.placement r).ppRank * (t.spSize * t.tpSize) + (t.placement r).spRank * t.tpSize := by
        simp only [placement, Nat.mul_assoc]
      rw [rankAt, ← hgroup]
      omega
    have hat := t.placement_rankAt (t.placement r).ppRank (t.spRank_lt r)
      (show r' - (t.placement r).tpGroupStart < t.tpSize by omega)
    rw [← hrank] at hat
    exact ⟨hat.1, hat.2.1⟩
  · rintro ⟨hpp, hsp⟩
    have hsame : (t.placement r').tpGroupStart = (t.placement r).tpGroupStart := by
      change (t.placement r').ppRank * t.spSize * t.tpSize + (t.placement r').spRank * t.tpSize
        = (t.placement r).ppRank * t.spSize * t.tpSize + (t.placement r).spRank * t.tpSize
      rw [hpp, hsp]
    omega

theorem spGroupEnd_le {r : Nat} (hr : r < t.nNodes) : (t.placement r).spGroupEnd ≤ t.nNodes := by
  have hpp : (t.placement r).ppRank + 1 ≤ t.ppSize := t.ppRank_lt hr
  have hmul := Nat.mul_le_mul_right (t.spSize * t.tpSize) hpp
  have hnodes := t.nNodes_eq
  rw [Nat.mul_assoc] at hnodes
  rw [Nat.succ_mul] at hmul
  change (t.placement r).ppRank * t.spSize * t.tpSize + t.spSize * t.tpSize ≤ t.nNodes
  rw [Nat.mul_assoc, hnodes]
  exact hmul

/-- The fields of a topology. -/
def fields : TopologyFields :=
  ⟨t.nNodes, t.ppSize, t.spSize, t.tpSize⟩

variable {t}

theorem lanes_lt (ht : t.nNodes < 2 ^ 32) : t.spSize * t.tpSize < 2 ^ 32 := by
  have hle : t.spSize * t.tpSize ≤ t.ppSize * (t.spSize * t.tpSize) :=
    Nat.le_mul_of_pos_left _ t.ppSize_pos
  rw [← Nat.mul_assoc, ← t.nNodes_eq] at hle
  exact Nat.lt_of_le_of_lt hle ht

/-- In 32 bits a topology places its nodes as without a bound. -/
theorem fields_getPlacement (ht : t.nNodes < 2 ^ 32) (r : Nat) :
    t.fields.getPlacement r
      = if t.nNodes ≤ r then .error (.runtimeError "global rank out of range")
        else .ok (t.placement r) := by
  have hlanes : u32 (t.spSize * t.tpSize) = t.spSize * t.tpSize := u32_of_lt (lanes_lt ht)
  have hzero : ¬(t.spSize * t.tpSize = 0 ∨ t.tpSize = 0) := by
    have hpos := t.laneCount_pos
    have htp := t.tpSize_pos
    omega
  simp only [TopologyFields.getPlacement, fields, hlanes, if_neg hzero]
  split_ifs with hr
  · rfl
  · have hr := Nat.not_le.1 hr
    have htpEnd := t.tpGroupEnd_le hr
    have hspEnd := t.spGroupEnd_le hr
    have htpStart := t.tpGroupEnd_eq r
    have hspStart := t.spGroupStart_le r
    have hspSize : (t.placement r).spGroupEnd
        = (t.placement r).spGroupStart + t.spSize * t.tpSize := rfl
    refine congrArg Except.ok ?_
    simp only [placement] at htpEnd hspEnd htpStart hspStart hspSize ⊢
    rw [u32_of_lt (n := r / _ * _ * _ + _) (by omega),
      u32_of_lt (n := r / _ * _ * _ + _ + _) (by omega), u32_of_lt (n := r / _ * _ * _) (by omega),
      u32_of_lt (by omega)]

theorem fields_getPlacement_eq_ok (ht : t.nNodes < 2 ^ 32) {r : Nat} {p : NnNodePlacement} :
    t.fields.getPlacement r = .ok p ↔ r < t.nNodes ∧ t.placement r = p := by
  rw [fields_getPlacement ht]
  split_ifs with hr
  · exact ⟨fun h => (by cases h), fun h => absurd h.1 (Nat.not_lt.2 hr)⟩
  · exact ⟨fun h => ⟨Nat.not_le.1 hr, Except.ok.inj h⟩, fun h => congrArg Except.ok h.2⟩

theorem fields_getGlobalRank (ht : t.nNodes < 2 ^ 32) {pp sp tp : Nat} (hpp : pp < t.ppSize)
    (hsp : sp < t.spSize) (htp : tp < t.tpSize) :
    t.fields.getGlobalRank pp sp tp = .ok (t.rankAt pp sp tp) := by
  have hpp' : ¬t.fields.ppSize ≤ pp := Nat.not_le.2 hpp
  have hsp' : ¬t.fields.spSize ≤ sp := Nat.not_le.2 hsp
  have htp' : ¬t.fields.tpSize ≤ tp := Nat.not_le.2 htp
  rw [TopologyFields.getGlobalRank, if_neg hpp', if_neg hsp', if_neg htp']
  exact congrArg Except.ok (u32_of_lt (Nat.lt_trans (t.rankAt_lt hpp hsp htp) ht))

/-- In 32 bits a topology is exact. -/
theorem fields_exact (ht : t.nNodes < 2 ^ 32) : t.fields.PlacementExact where
  placed r hr := by
    refine ⟨t.placement r, (fields_getPlacement_eq_ok ht).2 ⟨hr, rfl⟩, t.ppRank_lt hr,
      t.spRank_lt r, t.tpRank_lt r, ?_⟩
    rw [fields_getGlobalRank ht (t.ppRank_lt hr) (t.spRank_lt r) (t.tpRank_lt r),
      t.rankAt_placement r]
  ranked pp hpp sp hsp tp htp := by
    have hr := t.rankAt_lt hpp hsp htp
    exact ⟨_, _, fields_getGlobalRank ht hpp hsp htp, hr,
      (fields_getPlacement_eq_ok ht).2 ⟨hr, rfl⟩, t.placement_rankAt pp hsp htp⟩
  tpGroup r p hp r' := by
    rcases (fields_getPlacement_eq_ok ht).1 hp with ⟨hr, rfl⟩
    rw [t.mem_tpGroup_iff]
    constructor
    · intro h
      have hmem := (t.mem_tpGroup_iff r r').2 h
      have hr' := Nat.lt_of_lt_of_le hmem.2 (t.tpGroupEnd_le hr)
      exact ⟨_, (fields_getPlacement_eq_ok ht).2 ⟨hr', rfl⟩, h⟩
    · rintro ⟨p', hp', h⟩
      rcases (fields_getPlacement_eq_ok ht).1 hp' with ⟨-, rfl⟩
      exact h
  spGroup r p hp r' := by
    rcases (fields_getPlacement_eq_ok ht).1 hp with ⟨hr, rfl⟩
    rw [t.mem_spGroup_iff]
    constructor
    · intro h
      have hmem := (t.mem_spGroup_iff r r').2 h
      have hr' := Nat.lt_of_lt_of_le hmem.2 (t.spGroupEnd_le hr)
      exact ⟨_, (fields_getPlacement_eq_ok ht).2 ⟨hr', rfl⟩, h⟩
    · rintro ⟨p', hp', h⟩
      rcases (fields_getPlacement_eq_ok ht).1 hp' with ⟨-, rfl⟩
      exact h

end NnParallelTopology

/-! ## What the constructor accepts -/

namespace TopologyFields

variable {f : TopologyFields} {nNodes ppSize spSize : Nat}

theorem create_eq_ok (h : create nNodes ppSize spSize = .ok f) :
    1 ≤ nNodes ∧ 1 ≤ ppSize ∧ 1 ≤ spSize ∧ f.nNodes = nNodes ∧ f.ppSize = ppSize ∧
      f.spSize = spSize ∧ 1 ≤ f.tpSize ∧ nNodes = u32 (ppSize * spSize) * f.tpSize := by
  simp only [create] at h
  split_ifs at h with hn hpp hsp hzero hmod
  cases h
  have hdvd : u32 (ppSize * spSize) ∣ nNodes :=
    Nat.dvd_of_mod_eq_zero (Decidable.not_not.1 hmod)
  refine ⟨Nat.not_lt.1 hn, Nat.not_lt.1 hpp, Nat.not_lt.1 hsp, rfl, rfl, rfl, ?_, ?_⟩
  · exact Nat.div_pos (Nat.le_of_dvd (Nat.not_lt.1 hn) hdvd) (Nat.pos_of_ne_zero hzero)
  · exact (Nat.mul_div_cancel' hdvd).symm

/-- Coordinates that are inverse to the ranks are not more than the ranks. -/
theorem PlacementExact.card_le (h : f.PlacementExact) :
    f.ppSize * (f.spSize * f.tpSize) ≤ f.nNodes := by
  choose rank placement hrank hlt hplaced hpp hsp htp using h.ranked
  let toRank : Fin f.ppSize × Fin f.spSize × Fin f.tpSize → Fin f.nNodes := fun k =>
    ⟨rank k.1 k.1.2 k.2.1 k.2.1.2 k.2.2 k.2.2.2, hlt _ _ _ _ _ _⟩
  have hinj : Function.Injective toRank := by
    rintro ⟨pp, sp, tp⟩ ⟨pp', sp', tp'⟩ heq
    have hranks : rank pp pp.2 sp sp.2 tp tp.2 = rank pp' pp'.2 sp' sp'.2 tp' tp'.2 :=
      congrArg Fin.val heq
    have hplaces : placement pp pp.2 sp sp.2 tp tp.2 = placement pp' pp'.2 sp' sp'.2 tp' tp'.2 := by
      have hleft := hplaced pp pp.2 sp sp.2 tp tp.2
      rw [hranks, hplaced pp' pp'.2 sp' sp'.2 tp' tp'.2] at hleft
      exact (Except.ok.inj hleft).symm
    have hppEq := hpp pp pp.2 sp sp.2 tp tp.2
    have hspEq := hsp pp pp.2 sp sp.2 tp tp.2
    have htpEq := htp pp pp.2 sp sp.2 tp tp.2
    rw [hplaces] at hppEq hspEq htpEq
    have hpp' := (hpp pp' pp'.2 sp' sp'.2 tp' tp'.2).symm.trans hppEq
    have hsp' := (hsp pp' pp'.2 sp' sp'.2 tp' tp'.2).symm.trans hspEq
    have htp' := (htp pp' pp'.2 sp' sp'.2 tp' tp'.2).symm.trans htpEq
    rw [Prod.mk.injEq, Prod.mk.injEq]
    exact ⟨Fin.ext hpp'.symm, Fin.ext hsp'.symm, Fin.ext htp'.symm⟩
  have hcard := Fintype.card_le_of_injective toRank hinj
  simp only [Fintype.card_prod, Fintype.card_fin] at hcard
  exact hcard

/-- An accepted topology is exact when its stages times its ranks fit into 32 bits. -/
theorem placementExact_iff (hn : nNodes < 2 ^ 32) (h : create nNodes ppSize spSize = .ok f) :
    f.PlacementExact ↔ ppSize * spSize < 2 ^ 32 := by
  rcases create_eq_ok h with ⟨-, hppPos, hspPos, hnodes, hpp, hsp, htpPos, hmul⟩
  constructor
  · intro hexact
    have hcard := hexact.card_le
    rw [hnodes, hpp, hsp, ← Nat.mul_assoc] at hcard
    calc ppSize * spSize
        ≤ ppSize * spSize * f.tpSize := Nat.le_mul_of_pos_right _ htpPos
      _ ≤ nNodes := hcard
      _ < 2 ^ 32 := hn
  · intro hlt
    rw [u32_of_lt hlt] at hmul
    let t : NnParallelTopology := ⟨nNodes, ppSize, spSize, f.tpSize, hppPos, hspPos, htpPos, hmul⟩
    have hfields : t.fields = f := by
      cases f
      cases hnodes
      cases hpp
      cases hsp
      rfl
    exact hfields ▸ NnParallelTopology.fields_exact hn

end TopologyFields
end PrefillOpt
