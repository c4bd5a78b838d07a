import PrefillOpt.Kernels.AttentionThreads

/-!
# Kernels.AttentionFused — the fused attention kernel

`nn-cpu-ops.cpp`, `multiheadAttFused_F32`.  Queries are taken 32 at a time, keys 128 at a time.  A
slot is a head of the group and a query of the tile; it has a tile of scores, a running maximum, a
running sum and the unnormalised output.  The probe that counts tiles is left out.
-/

namespace PrefillOpt
namespace Kernels

open Lib (Mem Accumulated add_mul_inj)

/-! ## The kernel -/

def TILE : Nat := 128

def BR : Nat := 32

/-- The thread-local vectors and the output rows.  In `stateM` no value is minus infinity. -/
structure FusedState (R : Type) where
  scratch : Mem R
  stateM : Nat → Option R
  stateL : Mem R
  outputs : Outputs R

/-- One turn of the loop over the queries: `bCount` rows from `bBase` on, for a group of heads. -/
structure QueryTile where
  group : HeadGroup
  bBase : Nat
  bCount : Nat
  deriving DecidableEq, Repr

/-- Head `j` of the group and query `b` of the tile. -/
@[ext] structure TileSlot where
  j : Nat
  b : Nat
  deriving DecidableEq, Repr

namespace QueryTile

variable (q : QueryTile) (a : TileSlot)

def slot : Nat := a.j * q.bCount + a.b

def h0 : Nat := q.group.h0Base + a.j

def row : Nat := q.bBase + a.b

/-- The loops over `j` and `b`. -/
def turns : List TileSlot :=
  (List.range q.group.nHeadsInGroup).flatMap fun j => (List.range q.bCount).map fun b => ⟨j, b⟩

end QueryTile

section Defs

variable {R : Type} [Field R] [LinearOrder R]

/-- `v > m`, where no value is minus infinity. -/
def exceeds (v : R) : Option R → Bool
  | none => true
  | some m => decide (m < v)

/-- `std::memset(&buf[off], 0, n * sizeof(float))`. -/
def zeroCells (buf : Mem R) (off n : Nat) : Mem R :=
  fun x => if off ≤ x ∧ x < off + n then 0 else buf x

variable (neon : Bool) (m : Libm R) (mask : BlockMask) (c : NnMultiHeadAttOpConfig)
  (inp : AttInput R) (q : QueryTile)

def fusedScoreTurn (t0 t : Nat) (scratch : Mem R) (a : TileSlot) : Mem R :=
  if attends mask (inp.positions (q.row a)) t then
    Function.update scratch (q.slot a * TILE + (t - t0))
      (attScore m c inp (u32 (q.row a * c.qSliceD0 + q.h0 a * c.headDim)) q.group.column t)
  else scratch

/-- The maximum of the visible scores of a tile. -/
def tileMaximum (qPos t0 t1 : Nat) (tile : Mem R) : Option R :=
  (List.range' t0 (t1 - t0)).foldl (fun tileMax t =>
    if attends mask qPos t then
      if exceeds (tile (t - t0)) tileMax then some (tile (t - t0)) else tileMax
    else tileMax) none

/-- Scores become weights relative to `mNew`, masked entries zero; the second part is the sum.
The NEON build has a loop of its own when no block mask is set. -/
def weighTile (qPos off t0 t1 : Nat) (mNew : R) (scratch : Mem R) : Mem R × R :=
  if neon && !blockMaskActive mask then
    let tEnd := min t1 (qPos + 1)
    let exps := (List.range' t0 (tEnd - t0)).foldl
      (Lib.mapSumStep (fun t => off + (t - t0)) fun _ x => m.expf (x - mNew)) (scratch, 0)
    (zeroCells exps.1 (off + (tEnd - t0)) (t1 - tEnd), exps.2)
  else
    (List.range' t0 (t1 - t0)).foldl (fun s t =>
      if attends mask qPos t then
        Lib.mapSumStep (fun t => off + (t - t0)) (fun _ x => m.expf (x - mNew)) s t
      else (Function.update s.1 (off + (t - t0)) 0, s.2)) (scratch, 0)

/-- (2) for one slot. -/
def onlineTurn (t0 t1 : Nat) (s : FusedState R) (a : TileSlot) : FusedState R :=
  let slot := q.slot a
  let off := slot * TILE
  let qPos := inp.positions (q.row a)
  if qPos < t0 then
    { s with scratch := zeroCells s.scratch off (t1 - t0) }
  else
    match tileMaximum mask qPos t0 t1 fun x => s.scratch (off + x) with
    | none => { s with scratch := zeroCells s.scratch off (t1 - t0) }
    | some tileMax =>
      let mNew := match s.stateM slot with
        | none => tileMax
        | some mOld => if tileMax < mOld then mOld else tileMax
      let alpha := match s.stateM slot with
        | none => 0
        | some mOld => m.expf (mOld - mNew)
      let stateL := if alpha ≠ 1 then Function.update s.stateL slot (s.stateL slot * alpha)
        else s.stateL
      let outputs := if alpha ≠ 1 then
          s.outputs.mapHead (q.row a) (u32 (q.h0 a * c.headDim)) c.headDim fun _ y => y * alpha
        else s.outputs
      let weights := weighTile neon m mask qPos off t0 t1 mNew s.scratch
      ⟨weights.1, Function.update s.stateM slot (some mNew),
        Function.update stateL slot (stateL slot + weights.2), outputs⟩

def fusedValueTurn (scratch : Mem R) (t0 t : Nat) (o : Outputs R) (a : TileSlot) : Outputs R :=
  let p := scratch (q.slot a * TILE + (t - t0))
  if p = 0 then o else addValue c inp o (q.row a) (q.h0 a) q.group.column t p

/-- One turn of the loop over the keys: (1) scores, (2) the softmax, (3) values. -/
def keyTile (t0 t1 : Nat) (s : FusedState R) : FusedState R :=
  let scores := (List.range' t0 (t1 - t0)).foldl
    (fun scratch t => q.turns.foldl (fusedScoreTurn m mask c inp q t0 t) scratch) s.scratch
  let s := q.turns.foldl (onlineTurn neon m mask c inp q t0 t1) { s with scratch := scores }
  let outputs := (List.range' t0 (t1 - t0)).foldl
    (fun o t => q.turns.foldl (fusedValueTurn c inp q s.scratch t0 t) o) s.outputs
  { s with outputs }

def normalizeTurn (stateL : Mem R) (o : Outputs R) (a : TileSlot) : Outputs R :=
  let l := stateL (q.slot a)
  if l ≤ 0 then o
  else o.mapHead (q.row a) (u32 (q.h0 a * c.headDim)) c.headDim fun _ y => y * (1 / l)

/-- One turn of the loop over the queries; the scratch vector keeps its contents. -/
def fusedTile (s : Mem R × Outputs R) : Mem R × Outputs R :=
  let maxPos := maxPosition inp (List.range' q.bBase q.bCount)
  let cleared := q.turns.foldl (fun o a => clearHead c o (q.row a) (q.h0 a)) s.2
  let s := (List.range (maxPos / TILE + 1)).foldl (fun s turn =>
      keyTile neon m mask c inp q (turn * TILE) (min (turn * TILE + TILE) (maxPos + 1)) s)
    (⟨s.1, fun _ => none, fun _ => 0, cleared⟩ : FusedState R)
  (s.scratch, q.turns.foldl (normalizeTurn c q s.stateL) s.outputs)

/-- The turns of `for (bBase = winBegin; bBase < winEnd; bBase += BR)`. -/
def queryTiles (w : CpuRowState) (batchSize : Nat) (g : HeadGroup) : List QueryTile :=
  let (winBegin, winCount) := cpRowWindow w batchSize
  (List.range ((winCount + (BR - 1)) / BR)).map fun turn =>
    ⟨g, winBegin + turn * BR, min BR (winCount - turn * BR)⟩

def multiheadAttFused_F32 (w : CpuRowState) (batchSize nThreads threadIndex : Nat)
    (s : Mem R × Outputs R) : Mem R × Outputs R :=
  (headGroups c nThreads threadIndex).foldl (fun s g =>
    (queryTiles w batchSize g).foldl (fun s q => fusedTile neon m mask c inp q s) s) s

end Defs

/-! ## Slots -/

/-- The slots of a query tile: rows of the batch with a position inside the cache, local heads. -/
structure QueryTile.InRange {R : Type} (q : QueryTile) (c : NnMultiHeadAttOpConfig)
    (inp : AttInput R) (nBatches : Nat) : Prop where
  head : ∀ a ∈ q.turns, q.h0 a < c.nHeads0
  row : ∀ a ∈ q.turns, q.row a < nBatches ∧ inp.positions (q.row a) < c.seqLen

section Slots

variable {q : QueryTile} {a a' : TileSlot}

theorem mem_turns : a ∈ q.turns ↔ a.j < q.group.nHeadsInGroup ∧ a.b < q.bCount := by
  rcases a with ⟨j, b⟩
  simp [QueryTile.turns]

theorem turns_nodup : q.turns.Nodup := by
  have hproduct : q.turns = ((List.range q.group.nHeadsInGroup).product (List.range q.bCount)).map
      fun p => ⟨p.1, p.2⟩ := by
    simp [QueryTile.turns, List.product, List.map_flatMap, Function.comp_def]
  rw [hproduct]
  refine (List.nodup_range.product List.nodup_range).map fun x y hxy => ?_
  simp only [TileSlot.mk.injEq] at hxy
  exact Prod.ext hxy.1 hxy.2

/-- The tiles of different slots do not overlap. -/
theorem tile_ne (ha : a ∈ q.turns) (ha' : a' ∈ q.turns) (hne : a' ≠ a) {r r' : Nat}
    (hr : r < TILE) (hr' : r' < TILE) : q.slot a' * TILE + r' ≠ q.slot a * TILE + r := by
  intro heq
  have hslot := (add_mul_inj hr' hr heq).1
  have hpair := add_mul_inj (mem_turns.1 ha').2 (mem_turns.1 ha).2 hslot
  exact hne (TileSlot.ext hpair.1 hpair.2)

theorem slot_ne (ha : a ∈ q.turns) (ha' : a' ∈ q.turns) (hne : a' ≠ a) :
    q.slot a ≠ q.slot a' := by
  intro heq
  have hpair := add_mul_inj (mem_turns.1 ha).2 (mem_turns.1 ha').2 heq
  exact hne (TileSlot.ext hpair.1.symm hpair.2.symm)

/-- The elements of different slots do not overlap. -/
theorem tile_not_inHead {c : NnMultiHeadAttOpConfig} {i : Nat} (hi : i < c.headDim)
    (hne : a' ≠ a) : ¬InHead c (q.row a') (q.h0 a') (q.row a) (q.h0 a * c.headDim + i) := by
  intro hin
  have heq := hin.unique hi
  unfold QueryTile.row QueryTile.h0 at heq
  exact hne (TileSlot.ext (by omega) (by omega))

end Slots

/-! ## (1) Scores -/

section Scores

variable {R : Type} [Field R] {m : Libm R} {mask : BlockMask} {c : NnMultiHeadAttOpConfig}
  {inp : AttInput R} {q : QueryTile} {nBatches t0 t1 : Nat} {a : TileSlot}

/-- The visible positions of a tile. -/
def tileVisible (mask : BlockMask) (qPos t0 t1 : Nat) : Finset Nat :=
  (Finset.Ico t0 t1).filter fun t => attends mask qPos t

/-- The visible entries of a tile hold the scores `x`. -/
def HasScores (mask : BlockMask) (qPos t0 t1 off : Nat) (x : Nat → R) (scratch : Mem R) : Prop :=
  ∀ t ∈ tileVisible mask qPos t0 t1, scratch (off + (t - t0)) = x t

theorem mem_tileVisible {qPos t : Nat} :
    t ∈ tileVisible mask qPos t0 t1 ↔ (t0 ≤ t ∧ t < t1) ∧ attends mask qPos t = true := by
  rw [tileVisible, Finset.mem_filter, Finset.mem_Ico]

/-- After (1) every slot has the scores of the visible positions of the tile. -/
theorem fusedScores_self (m : Libm R) (mask : BlockMask) (hall : c.Allocated nBatches)
    (hq : q.InRange c inp nBatches)
    (hmem : a ∈ q.turns) (hcolumn : q.group.column = keyColumn c (q.h0 a)) (hwidth : t1 ≤ t0 + TILE)
    (scratch : Mem R) :
    HasScores mask (inp.positions (q.row a)) t0 t1 (q.slot a * TILE)
      (headScore m c inp (q.row a) (q.h0 a))
      ((List.range' t0 (t1 - t0)).foldl
        (fun scratch t => q.turns.foldl (fusedScoreTurn m mask c inp q t0 t) scratch) scratch) := by
  have hrow := hq.row a hmem
  rcases Nat.le_total t1 t0 with hle | hle
  · intro t ht
    have hbounds := (mem_tileVisible.1 ht).1
    omega
  have hend : t0 + (t1 - t0) = t1 := Nat.add_sub_cancel' hle
  have hloop := Lib.foldl_range' (a := t0) (n := t1 - t0)
    (P := fun n (x : Mem R) => HasScores mask (inp.positions (q.row a)) t0 n (q.slot a * TILE)
      (headScore m c inp (q.row a) (q.h0 a)) x)
    (f := fun scratch t => q.turns.foldl (fusedScoreTurn m mask c inp q t0 t) scratch)
    (s := scratch) (fun n hle' hlt x hx => ?_) (fun t ht => ?_)
  · rwa [hend] at hloop
  · have hother : ∀ n', ∀ a' ∈ q.turns, a' ≠ a → ∀ x : Mem R, n' ≤ t1 →
        HasScores mask (inp.positions (q.row a)) t0 n' (q.slot a * TILE)
          (headScore m c inp (q.row a) (q.h0 a)) x →
        HasScores mask (inp.positions (q.row a)) t0 n' (q.slot a * TILE)
          (headScore m c inp (q.row a) (q.h0 a)) (fusedScoreTurn m mask c inp q t0 n x a') := by
      intro n' a' hmem' hne x hn' hx t ht
      have hbounds := (mem_tileVisible.1 ht).1
      rw [← hx t ht, fusedScoreTurn]
      split_ifs
      · exact Function.update_of_ne
          (tile_ne hmem hmem' hne (show t - t0 < TILE by omega)
            (show n - t0 < TILE by omega)).symm ..
      · rfl
    refine Lib.foldl_once
      (P := fun x : Mem R => HasScores mask (inp.positions (q.row a)) t0 n (q.slot a * TILE)
        (headScore m c inp (q.row a) (q.h0 a)) x)
      (Q := fun x : Mem R => HasScores mask (inp.positions (q.row a)) t0 (n + 1) (q.slot a * TILE)
        (headScore m c inp (q.row a) (q.h0 a)) x) turns_nodup hmem
      (fun a' hmem' hne x hx => hother n a' hmem' hne x (by omega) hx) (fun x hx t ht => ?_)
      (fun a' hmem' hne x hx => hother (n + 1) a' hmem' hne x (by omega) hx) hx
    have hvisible := mem_tileVisible.1 ht
    rw [fusedScoreTurn]
    by_cases hsame : t = n
    · subst hsame
      have ht' : t < c.seqLen := (attends_iff.1 hvisible.2).1.trans_lt hrow.2
      rw [if_pos hvisible.2, Function.update_self, hcolumn]
      exact (attScore_eq hall hrow.1 (hq.head a hmem) ht').1
    · have hold : t ∈ tileVisible mask (inp.positions (q.row a)) t0 n :=
        mem_tileVisible.2 ⟨⟨hvisible.1.1, by omega⟩, hvisible.2⟩
      rw [← hx t hold]
      split_ifs
      · exact Function.update_of_ne (by omega) ..
      · rfl
  · have hbounds := (mem_tileVisible.1 ht).1
    omega

end Scores

/-! ## (2) The online softmax -/

section Online

variable {R : Type} {neon : Bool} {m : Libm R} {mask : BlockMask} {c : NnMultiHeadAttOpConfig}
  {inp : AttInput R} {q : QueryTile} {nBatches t0 t1 off qPos : Nat} {a : TileSlot}

/-- The maximum is missing just when the whole tile is masked. -/
theorem tileMaximum_eq_none_iff [LinearOrder R] {tile : Mem R} :
    tileMaximum mask qPos t0 t1 tile = none ↔ tileVisible mask qPos t0 t1 = ∅ := by
  have hbounds : ∀ t, t ∈ List.range' t0 (t1 - t0) ↔ t0 ≤ t ∧ t < t1 := by
    intro t
    rw [List.mem_range'_1]
    omega
  constructor
  · intro hnone
    by_contra hsome
    rcases Finset.nonempty_iff_ne_empty.2 hsome with ⟨t, ht⟩
    have hvisible := mem_tileVisible.1 ht
    have hmax : tileMaximum mask qPos t0 t1 tile ≠ none := by
      refine Lib.foldl_establishes (A := fun x => attends mask qPos x = true)
        (Q := fun x : Option R => x ≠ none) ⟨t, (hbounds t).2 hvisible.1, hvisible.2⟩
        (fun x _ hx old => ?_) (fun x _ hx old hold => ?_) none
      · rw [if_pos hx]
        cases old with
        | none => exact Option.some_ne_none _
        | some v => split_ifs <;> exact Option.some_ne_none _
      · rw [if_neg hx]
        exact hold
    exact hmax hnone
  · intro hempty
    refine Lib.foldl_keeps (P := fun x : Option R => x = none) (fun t ht x hx => ?_) rfl
    have hmasked : ¬attends mask qPos t = true := by
      intro hatt
      have hmem := mem_tileVisible.2 ⟨(hbounds t).1 ht, hatt⟩
      rw [hempty] at hmem
      exact Finset.notMem_empty t hmem
    rw [if_neg hmasked, hx]

variable [Field R]

theorem zeroCells_in {buf : Mem R} {n x : Nat} (h : off ≤ x ∧ x < off + n) :
    zeroCells buf off n x = 0 :=
  if_pos h

theorem zeroCells_out {buf : Mem R} {n x : Nat} (h : ¬(off ≤ x ∧ x < off + n)) :
    zeroCells buf off n x = buf x :=
  if_neg h

/-- What both builds do to a tile. -/
structure Weighed (m : Libm R) (mask : BlockMask) (qPos off t0 t1 : Nat) (mNew : R)
    (scratch : Mem R) (result : Mem R × R) : Prop where
  entry : ∀ t, t0 ≤ t → t < t1 → result.1 (off + (t - t0))
    = if attends mask qPos t then m.expf (scratch (off + (t - t0)) - mNew) else 0
  rest : ∀ x, (∀ t, t0 ≤ t → t < t1 → off + (t - t0) ≠ x) → result.1 x = scratch x
  sum : result.2 = ∑ t ∈ tileVisible mask qPos t0 t1, m.expf (scratch (off + (t - t0)) - mNew)

theorem toFinset_range' (n k : Nat) : (List.range' n (k - n)).toFinset = Finset.Ico n k := by
  ext t
  rw [List.mem_toFinset, List.mem_range'_1, Finset.mem_Ico]
  omega

/-- Entries of a tile are apart. -/
theorem tileKey_inj (off : Nat) {n k : Nat} (hn : t0 ≤ n) :
    ∀ x ∈ List.range' n k, ∀ y ∈ List.range' n k, off + (x - t0) = off + (y - t0) → x = y := by
  intro x hx y hy heq
  have hx' := (List.mem_range'_1.1 hx).1
  have hy' := (List.mem_range'_1.1 hy).1
  omega

theorem weighTile_weighed [LinearOrder R] (neon : Bool) (m : Libm R) (mask : BlockMask)
    (off t1 : Nat) (hpos : t0 ≤ qPos) (mNew : R) (scratch : Mem R) :
    Weighed m mask qPos off t0 t1 mNew scratch
      (weighTile neon m mask qPos off t0 t1 mNew scratch) := by
  unfold weighTile
  dsimp only
  split_ifs with hneon
  · -- the loop of the NEON build stops at the position of the query
    have hactive : mask.blockSize = 0 := by
      simp only [blockMaskActive, Bool.and_eq_true, Bool.not_eq_true', bne_eq_false_iff_eq] at hneon
      exact hneon.2
    have hattends : ∀ t, attends mask qPos t = true ↔ t ≤ qPos := by
      intro t
      rw [attends_iff, blockMaskAllows, if_pos hactive]
      exact and_iff_left rfl
    have hkey := tileKey_inj off (k := min t1 (qPos + 1) - t0) (Nat.le_refl t0)
    refine ⟨fun t hle hlt => ?_, fun x hx => ?_, ?_⟩
    · dsimp only
      by_cases hvisible : t ≤ qPos
      · have hin : t ∈ List.range' t0 (min t1 (qPos + 1) - t0) := List.mem_range'_1.2 (by omega)
        rw [zeroCells_out (by omega), if_pos ((hattends t).2 hvisible)]
        exact Lib.foldl_mapSum_of_mem (fun t => off + (t - t0)) (fun _ x => m.expf (x - mNew))
          List.nodup_range' hkey hin (scratch, 0)
      · rw [zeroCells_in (by omega), if_neg fun h => hvisible ((hattends t).1 h)]
    · have hout : ¬(off + (min t1 (qPos + 1) - t0) ≤ x ∧
          x < off + (min t1 (qPos + 1) - t0) + (t1 - min t1 (qPos + 1))) := by
        rintro ⟨hle, hlt⟩
        exact hx (t0 + (x - off)) (by omega) (by omega) (by omega)
      dsimp only
      rw [zeroCells_out hout]
      refine Lib.foldl_mapSum_of_ne (fun t => off + (t - t0)) _ (fun t ht => ?_) (scratch, 0)
      have hbounds := List.mem_range'_1.1 ht
      exact hx t (by omega) (by omega)
    · have hsum := Lib.foldl_mapSum_sum (fun t => off + (t - t0)) (fun _ x => m.expf (x - mNew))
        List.nodup_range' hkey (scratch, 0)
      have hsame : tileVisible mask qPos t0 t1 = Finset.Ico t0 (min t1 (qPos + 1)) := by
        ext t
        rw [mem_tileVisible, hattends, Finset.mem_Ico]
        omega
      rw [hsame, ← toFinset_range']
      exact hsum.trans (zero_add _)
  · -- the plain loop writes zeros on its way
    have hkey := tileKey_inj off (k := t1 - t0) (Nat.le_refl t0)
    have hstep : (fun (s : Mem R × R) t => if attends mask qPos t = true then
          Lib.mapSumStep (fun t => off + (t - t0)) (fun _ x => m.expf (x - mNew)) s t
        else (Function.update s.1 (off + (t - t0)) 0, s.2))
        = Lib.mapSumStep (fun t => off + (t - t0))
          fun t x => if attends mask qPos t then m.expf (x - mNew) else 0 := by
      funext s t
      by_cases hatt : attends mask qPos t = true
      · simp only [Lib.mapSumStep, if_pos hatt]
      · simp only [Lib.mapSumStep, if_neg hatt, add_zero]
    rw [hstep]
    refine ⟨fun t hle hlt => ?_, fun x hx => ?_, ?_⟩
    · have hin : t ∈ List.range' t0 (t1 - t0) := List.mem_range'_1.2 (by omega)
      exact Lib.foldl_mapSum_of_mem (fun t => off + (t - t0)) _ List.nodup_range' hkey hin
        (scratch, 0)
    · refine Lib.foldl_mapSum_of_ne (fun t => off + (t - t0)) _ (fun t ht => ?_) (scratch, 0)
      have hbounds := List.mem_range'_1.1 ht
      exact hx t (by omega) (by omega)
    · rw [Lib.foldl_mapSum_sum (fun t => off + (t - t0)) _ List.nodup_range' hkey (scratch, 0),
        toFinset_range', zero_add, tileVisible, Finset.sum_filter]

/-- A slot is the same in two states. -/
structure SameSlot (c : NnMultiHeadAttOpConfig) (q : QueryTile) (a : TileSlot) (i : Nat)
    (s s' : FusedState R) : Prop where
  tile : ∀ r < TILE, s'.scratch (q.slot a * TILE + r) = s.scratch (q.slot a * TILE + r)
  max : s'.stateM (q.slot a) = s.stateM (q.slot a)
  sum : s'.stateL (q.slot a) = s.stateL (q.slot a)
  cell : s'.outputs (q.row a) (q.h0 a * c.headDim + i)
    = s.outputs (q.row a) (q.h0 a * c.headDim + i)

theorem zeroCells_other {a' : TileSlot} (hmem : a ∈ q.turns) (hmem' : a' ∈ q.turns) (hne : a' ≠ a)
    {n r : Nat} (hn : n ≤ TILE) (hr : r < TILE) (buf : Mem R) :
    zeroCells buf (q.slot a' * TILE) n (q.slot a * TILE + r) = buf (q.slot a * TILE + r) := by
  refine zeroCells_out fun hin => ?_
  have hentry : q.slot a' * TILE + (q.slot a * TILE + r - q.slot a' * TILE) = q.slot a * TILE + r :=
    Nat.add_sub_cancel' hin.1
  exact tile_ne hmem hmem' hne hr (by omega) hentry

/-- What a slot holds for element `i` when the positions below `n` are in its sum and the
positions below `n'` in its output. -/
structure SlotHolds (m : Libm R) (mask : BlockMask) (c : NnMultiHeadAttOpConfig)
    (inp : AttInput R) (q : QueryTile) (a : TileSlot) (i n n' : Nat) (s : FusedState R) :
    Prop where
  sums : Accumulated m.expf (headScore m c inp (q.row a) (q.h0 a)) (headValue c inp (q.h0 a) i)
    (visible mask (inp.positions (q.row a)) n) (visible mask (inp.positions (q.row a)) n')
    (s.stateM (q.slot a)) (s.stateL (q.slot a))
    (s.outputs (q.row a) (q.h0 a * c.headDim + i)).val
  stored : (s.outputs (q.row a) (q.h0 a * c.headDim + i)).stored = true

/-- The weight of a position relative to the running maximum. -/
def weightOf (m : Libm R) (mask : BlockMask) (qPos : Nat) (x : Nat → R) (ref : Option R)
    (t : Nat) : R :=
  match ref with
  | none => 0
  | some μ => if attends mask qPos t then m.expf (x t - μ) else 0

/-- The tile of a slot holds weights. -/
def HasWeights (m : Libm R) (mask : BlockMask) (c : NnMultiHeadAttOpConfig) (inp : AttInput R)
    (q : QueryTile) (a : TileSlot) (t0 t1 : Nat) (s : FusedState R) : Prop :=
  ∀ t, t0 ≤ t → t < t1 → s.scratch (q.slot a * TILE + (t - t0))
    = weightOf m mask (inp.positions (q.row a)) (headScore m c inp (q.row a) (q.h0 a))
      (s.stateM (q.slot a)) t

variable {i : Nat}

theorem SlotHolds.of_same {n n' : Nat} {s s' : FusedState R} (hsame : SameSlot c q a i s s')
    (h : SlotHolds m mask c inp q a i n n' s) : SlotHolds m mask c inp q a i n n' s' where
  sums := by
    rw [hsame.max, hsame.sum, hsame.cell]
    exact h.sums
  stored := by
    rw [hsame.cell]
    exact h.stored

theorem HasWeights.of_same {s s' : FusedState R} (hwidth : t1 ≤ t0 + TILE)
    (hsame : SameSlot c q a i s s') (h : HasWeights m mask c inp q a t0 t1 s) :
    HasWeights m mask c inp q a t0 t1 s' := by
  intro t hle hlt
  rw [hsame.tile _ (by omega), hsame.max]
  exact h t hle hlt

theorem visible_union (hle : t0 ≤ t1) :
    visible mask qPos t1 = visible mask qPos t0 ∪ tileVisible mask qPos t0 t1 := by
  ext t
  simp only [visible, Finset.mem_union, Finset.mem_filter, Finset.mem_range, mem_tileVisible]
  constructor
  · rintro ⟨hlt, hatt⟩
    rcases Nat.lt_or_ge t t0 with hold | hnew
    · exact .inl ⟨hold, hatt⟩
    · exact .inr ⟨⟨hnew, hlt⟩, hatt⟩
  · rintro (⟨hlt, hatt⟩ | ⟨⟨-, hlt⟩, hatt⟩)
    · exact ⟨hlt.trans_le hle, hatt⟩
    · exact ⟨hlt, hatt⟩

theorem visible_disjoint : Disjoint (visible mask qPos t0) (tileVisible mask qPos t0 t1) := by
  rw [Finset.disjoint_left]
  intro t hold hnew
  have hlt := Finset.mem_range.1 (Finset.mem_filter.1 hold).1
  have hge := (mem_tileVisible.1 hnew).1.1
  omega

/-- A wholly masked tile is cleared. -/
theorem maskedTile_holds (hle : t0 ≤ t1) (s : FusedState R)
    (hmasked : tileVisible mask (inp.positions (q.row a)) t0 t1 = ∅)
    (h : SlotHolds m mask c inp q a i t0 t0 s) :
    SlotHolds m mask c inp q a i t1 t0
        { s with scratch := zeroCells s.scratch (q.slot a * TILE) (t1 - t0) } ∧
      HasWeights m mask c inp q a t0 t1
        { s with scratch := zeroCells s.scratch (q.slot a * TILE) (t1 - t0) } := by
  refine ⟨⟨?_, h.stored⟩, fun t hle' hlt => ?_⟩
  · rw [visible_union hle, hmasked, Finset.union_empty]
    exact h.sums
  · have hnot : ¬attends mask (inp.positions (q.row a)) t = true := by
      intro hatt
      have hmem := mem_tileVisible.2 ⟨⟨hle', hlt⟩, hatt⟩
      rw [hmasked] at hmem
      exact Finset.notMem_empty t hmem
    dsimp only
    rw [zeroCells_in (by omega)]
    unfold weightOf
    split
    · rfl
    · exact (if_neg hnot).symm

variable [LinearOrder R]

/-- The turn of another slot. -/
theorem onlineTurn_other (neon : Bool) (m : Libm R) (mask : BlockMask)
    (hall : c.Allocated nBatches) (hq : q.InRange c inp nBatches)
    (hwidth : t1 ≤ t0 + TILE) {a' : TileSlot} (hmem : a ∈ q.turns) (hmem' : a' ∈ q.turns)
    (hne : a' ≠ a) (hi : i < c.headDim) (s : FusedState R) :
    SameSlot c q a i s (onlineTurn neon m mask c inp q t0 t1 s a') := by
  have hn : t1 - t0 ≤ TILE := by omega
  have hzero : SameSlot c q a i s
      { s with scratch := zeroCells s.scratch (q.slot a' * TILE) (t1 - t0) } :=
    ⟨fun r hr => zeroCells_other hmem hmem' hne hn hr s.scratch, rfl, rfl, rfl⟩
  unfold onlineTurn
  dsimp only
  split_ifs with hfuture
  · exact hzero
  · split
    · exact hzero
    · rename_i tileMax _
      have hweighed := weighTile_weighed neon m mask (q.slot a' * TILE) t1
        (Nat.le_of_not_lt hfuture)
      refine ⟨fun r hr => ?_, ?_, ?_, ?_⟩
      · refine (hweighed _ s.scratch).rest _ fun t hle hlt => ?_
        exact tile_ne hmem hmem' hne hr (by omega)
      · exact Function.update_of_ne (slot_ne hmem hmem' hne) ..
      · dsimp only
        rw [Function.update_of_ne (slot_ne hmem hmem' hne)]
        split_ifs
        · exact Function.update_of_ne (slot_ne hmem hmem' hne) ..
        · rfl
      · dsimp only
        split_ifs
        · rw [hall.u32_head (hq.row a' hmem').1 (hq.head a' hmem').le]
          exact mapHead_other (tile_not_inHead hi hne)
        · rfl

/-- The turn of the slot itself. -/
theorem onlineTurn_self (he : Lib.IsExp m.expf) (hall : c.Allocated nBatches)
    (hq : q.InRange c inp nBatches) (hle : t0 ≤ t1) (hmem : a ∈ q.turns) (hi : i < c.headDim)
    {s : FusedState R}
    (hscores : HasScores mask (inp.positions (q.row a)) t0 t1 (q.slot a * TILE)
      (headScore m c inp (q.row a) (q.h0 a)) s.scratch)
    (h : SlotHolds m mask c inp q a i t0 t0 s) :
    SlotHolds m mask c inp q a i t1 t0 (onlineTurn neon m mask c inp q t0 t1 s a) ∧
      HasWeights m mask c inp q a t0 t1 (onlineTurn neon m mask c inp q t0 t1 s a) := by
  unfold onlineTurn
  dsimp only
  split_ifs with hfuture
  · -- the whole tile is in the future
    refine maskedTile_holds hle s ?_ h
    rw [Finset.eq_empty_iff_forall_notMem]
    intro t ht
    have hvisible := mem_tileVisible.1 ht
    have hpast := (attends_iff.1 hvisible.2).1
    omega
  · split
    · rename_i hnone
      exact maskedTile_holds hle s (tileMaximum_eq_none_iff.1 hnone) h
    · rename_i tileMax hmax
      generalize hnew : (match s.stateM (q.slot a) with
        | none => tileMax
        | some mOld => if tileMax < mOld then mOld else tileMax) = mNew
      have halpha : (match s.stateM (q.slot a) with
          | none => 0
          | some mOld => m.expf (mOld - mNew))
          = Lib.rescaleFactor m.expf (s.stateM (q.slot a)) mNew :=
        rfl
      rw [halpha]
      have hweighed := weighTile_weighed neon m mask (q.slot a * TILE) t1
        (Nat.le_of_not_lt hfuture) mNew s.scratch
      have hrescaled := h.sums.rescale he mNew
      generalize Lib.rescaleFactor m.expf (s.stateM (q.slot a)) mNew = alpha at hrescaled ⊢
      -- with the factor 1 nothing is stored
      have hsum : (if alpha ≠ 1 then
            Function.update s.stateL (q.slot a) (s.stateL (q.slot a) * alpha)
          else s.stateL) (q.slot a) = s.stateL (q.slot a) * alpha := by
        split_ifs with hone
        · exact Function.update_self ..
        · rw [not_not.1 hone, mul_one]
      have hcell : (if alpha ≠ 1 then
            s.outputs.mapHead (q.row a) (u32 (q.h0 a * c.headDim)) c.headDim fun _ y => y * alpha
          else s.outputs) (q.row a) (q.h0 a * c.headDim + i)
            = ⟨(s.outputs (q.row a) (q.h0 a * c.headDim + i)).val * alpha, true⟩ := by
        split_ifs with hone
        · rw [hall.u32_head (hq.row a hmem).1 (hq.head a hmem).le, mapHead_self hi]
        · rw [not_not.1 hone, mul_one, ← h.stored]
      refine ⟨⟨?_, ?_⟩, fun t hle' hlt => ?_⟩
      · dsimp only
        rw [Function.update_self, Function.update_self, hsum, hcell, hweighed.sum,
          Finset.sum_congr rfl fun t ht => by rw [hscores t ht], visible_union hle]
        exact hrescaled.extend visible_disjoint
      · dsimp only
        rw [hcell]
      · dsimp only
        rw [hweighed.entry t hle' hlt, Function.update_self, weightOf]
        by_cases hatt : attends mask (inp.positions (q.row a)) t = true
        · rw [if_pos hatt, if_pos hatt, hscores t (mem_tileVisible.2 ⟨⟨hle', hlt⟩, hatt⟩)]
        · rw [if_neg hatt, if_neg hatt]

end Online

/-! ## (3) Values -/

section Values

variable {R : Type} [Field R] [LinearOrder R] {neon : Bool} {m : Libm R} {mask : BlockMask}
  {c : NnMultiHeadAttOpConfig} {inp : AttInput R} {q : QueryTile} {nBatches t0 t1 i : Nat}
  {a : TileSlot}

theorem fusedValueTurn_other (hall : c.Allocated nBatches) (hq : q.InRange c inp nBatches)
    {a' : TileSlot} (hmem' : a' ∈ q.turns) {b' col : Nat}
    (hout : ¬InHead c (q.row a') (q.h0 a') b' col) (scratch : Mem R) (t : Nat) (o : Outputs R) :
    fusedValueTurn c inp q scratch t0 t o a' b' col = o b' col := by
  unfold fusedValueTurn
  split_ifs
  · rfl
  · exact addValue_other hall (hq.row a' hmem').1 (hq.head a' hmem') hout

/-- A position enters the output with its weight; the weight of a masked position is zero. -/
theorem fusedValueTurn_self (he : Lib.IsExp m.expf) (hall : c.Allocated nBatches)
    (hq : q.InRange c inp nBatches) (hmem : a ∈ q.turns)
    (hcolumn : q.group.column = keyColumn c (q.h0 a)) (hi : i < c.headDim) {s : FusedState R}
    (hweights : HasWeights m mask c inp q a t0 t1 s) {t : Nat} (hle : t0 ≤ t) (hlt : t < t1)
    {o : Outputs R} (h : SlotHolds m mask c inp q a i t1 t { s with outputs := o }) :
    SlotHolds m mask c inp q a i t1 (t + 1)
      { s with outputs := fusedValueTurn c inp q s.scratch t0 t o a } := by
  rcases h with ⟨hsums, hstored⟩
  have hweight := hweights t hle hlt
  unfold fusedValueTurn
  dsimp only at hsums hstored
  rw [hweight]
  by_cases hatt : attends mask (inp.positions (q.row a)) t = true
  · -- a visible position is in the sum, so that there is a running maximum
    have hvisible : t ∈ visible mask (inp.positions (q.row a)) t1 :=
      Finset.mem_filter.2 ⟨Finset.mem_range.2 hlt, hatt⟩
    have ht : t < c.seqLen := (attends_iff.1 hatt).1.trans_lt (hq.row a hmem).2
    cases hmax : s.stateM (q.slot a) with
    | none =>
        rw [hmax] at hsums
        rw [hsums.eq_empty] at hvisible
        exact absurd hvisible (Finset.notMem_empty t)
    | some μ =>
        rw [hmax] at hsums
        have hpos : weightOf m mask (inp.positions (q.row a)) (headScore m c inp (q.row a) (q.h0 a))
            (some μ) t = m.expf (headScore m c inp (q.row a) (q.h0 a) t - μ) := if_pos hatt
        rw [hpos, if_neg (he.pos _).ne']
        have hadd : addValue c inp o (q.row a) (q.h0 a) q.group.column t
            (m.expf (headScore m c inp (q.row a) (q.h0 a) t - μ)) (q.row a)
            (q.h0 a * c.headDim + i) = _ :=
          addValue_self hall (hq.row a hmem).1 (hq.head a hmem) hi ht
        refine ⟨?_, ?_⟩
        · dsimp only
          rw [hmax, hadd, hcolumn, visible_succ, if_pos hatt]
          exact hsums.insert (not_mem_visible _ t)
        · dsimp only
          rw [hadd]
  · have hzero : weightOf m mask (inp.positions (q.row a)) (headScore m c inp (q.row a) (q.h0 a))
        (s.stateM (q.slot a)) t = 0 := by
      unfold weightOf
      split
      · rfl
      · exact if_neg hatt
    rw [if_pos hzero]
    refine ⟨?_, hstored⟩
    rw [visible_succ, if_neg hatt]
    exact hsums

/-! ## One tile of keys -/

theorem keyTile_self (he : Lib.IsExp m.expf) (hall : c.Allocated nBatches)
    (hq : q.InRange c inp nBatches) (hmem : a ∈ q.turns)
    (hcolumn : q.group.column = keyColumn c (q.h0 a)) (hi : i < c.headDim) (hle : t0 ≤ t1)
    (hwidth : t1 ≤ t0 + TILE) {s : FusedState R} (h : SlotHolds m mask c inp q a i t0 t0 s) :
    SlotHolds m mask c inp q a i t1 t1 (keyTile neon m mask c inp q t0 t1 s) := by
  unfold keyTile
  dsimp only
  have hscores := fusedScores_self m mask hall hq hmem hcolumn hwidth s.scratch
  generalize (List.range' t0 (t1 - t0)).foldl _ s.scratch = scores at hscores ⊢
  -- (2)
  have honline : SlotHolds m mask c inp q a i t1 t0
        (q.turns.foldl (onlineTurn neon m mask c inp q t0 t1) { s with scratch := scores }) ∧
      HasWeights m mask c inp q a t0 t1
        (q.turns.foldl (onlineTurn neon m mask c inp q t0 t1) { s with scratch := scores }) := by
    refine Lib.foldl_once
      (P := fun x : FusedState R => SlotHolds m mask c inp q a i t0 t0 x ∧
        HasScores mask (inp.positions (q.row a)) t0 t1 (q.slot a * TILE)
          (headScore m c inp (q.row a) (q.h0 a)) x.scratch)
      (Q := fun x : FusedState R => SlotHolds m mask c inp q a i t1 t0 x ∧
        HasWeights m mask c inp q a t0 t1 x) turns_nodup hmem
      (fun a' hmem' hne x hx => ?_) (fun x hx => ?_) (fun a' hmem' hne x hx => ?_)
      ⟨⟨h.sums, h.stored⟩, hscores⟩
    · have hsame := onlineTurn_other neon m mask hall hq hwidth hmem hmem'
        hne hi x
      refine ⟨hx.1.of_same hsame, fun t ht => ?_⟩
      have hbounds := (mem_tileVisible.1 ht).1
      rw [hsame.tile _ (by omega)]
      exact hx.2 t ht
    · exact onlineTurn_self he hall hq hle hmem hi hx.2 hx.1
    · have hsame := onlineTurn_other neon m mask hall hq hwidth hmem hmem'
        hne hi x
      exact ⟨hx.1.of_same hsame, hx.2.of_same hwidth hsame⟩
  generalize q.turns.foldl (onlineTurn neon m mask c inp q t0 t1) _ = s' at honline ⊢
  rcases honline with ⟨hholds, hweights⟩
  -- (3)
  have hloop := Lib.foldl_range' (a := t0) (n := t1 - t0)
    (P := fun n (o : Outputs R) => SlotHolds m mask c inp q a i t1 n { s' with outputs := o })
    (f := fun o t => q.turns.foldl (fusedValueTurn c inp q s'.scratch t0 t) o) (s := s'.outputs)
    (fun n hle' hlt o ho => ?_) hholds
  · rwa [Nat.add_sub_cancel' hle] at hloop
  · have hother : ∀ n', ∀ a' ∈ q.turns, a' ≠ a → ∀ o : Outputs R,
        SlotHolds m mask c inp q a i t1 n' { s' with outputs := o } →
        SlotHolds m mask c inp q a i t1 n'
          { s' with outputs := fusedValueTurn c inp q s'.scratch t0 n o a' } := by
      intro n' a' hmem' hne o ho
      have hsame : SameSlot c q a i { s' with outputs := o }
          { s' with outputs := fusedValueTurn c inp q s'.scratch t0 n o a' } :=
        ⟨fun _ _ => rfl, rfl, rfl,
          fusedValueTurn_other hall hq hmem' (tile_not_inHead hi hne) s'.scratch n o⟩
      exact ho.of_same hsame
    exact Lib.foldl_once
      (P := fun o : Outputs R => SlotHolds m mask c inp q a i t1 n { s' with outputs := o })
      (Q := fun o : Outputs R => SlotHolds m mask c inp q a i t1 (n + 1) { s' with outputs := o })
      turns_nodup hmem (hother n)
      (fun o ho => fusedValueTurn_self he hall hq hmem hcolumn hi hweights hle' (by omega) ho)
      (hother (n + 1)) ho

/-- Elements of other heads and rows. -/
theorem keyTile_other (hall : c.Allocated nBatches) (hq : q.InRange c inp nBatches) {b' col : Nat}
    (hout : ∀ a ∈ q.turns, ¬InHead c (q.row a) (q.h0 a) b' col) (s : FusedState R) :
    (keyTile neon m mask c inp q t0 t1 s).outputs b' col = s.outputs b' col := by
  unfold keyTile
  dsimp only
  refine Lib.foldl_keeps (P := fun o : Outputs R => o b' col = s.outputs b' col)
    (fun t _ o ho => ?_) ?_
  · refine Lib.foldl_keeps (P := fun o : Outputs R => o b' col = s.outputs b' col)
      (fun a hmem o ho => ?_) ho
    exact (fusedValueTurn_other hall hq hmem (hout a hmem) ..).trans ho
  · refine Lib.foldl_keeps (P := fun x : FusedState R => x.outputs b' col = s.outputs b' col)
      (fun a hmem x hx => ?_) rfl
    rw [← hx]
    unfold onlineTurn
    dsimp only
    split_ifs
    · rfl
    · split
      · rfl
      · dsimp only
        split_ifs
        · rw [hall.u32_head (hq.row a hmem).1 (hq.head a hmem).le]
          exact mapHead_other (hout a hmem)
        · rfl

end Values

/-! ## One tile of queries -/

section Tile

variable {R : Type} [Field R] [LinearOrder R] {neon : Bool} {m : Libm R} {mask : BlockMask}
  {c : NnMultiHeadAttOpConfig} {inp : AttInput R} {q : QueryTile} {nBatches i : Nat}
  {a : TileSlot}

theorem blockMaskAllows_self (pos : Nat) : blockMaskAllows mask pos pos = true := by
  unfold blockMaskAllows
  split_ifs
  · rfl
  · rfl
  · exact beq_self_eq_true _

theorem mem_visible_self {pos n : Nat} (h : pos < n) : pos ∈ visible mask pos n :=
  Finset.mem_filter.2
    ⟨Finset.mem_range.2 h, attends_iff.2 ⟨Nat.le_refl pos, blockMaskAllows_self pos⟩⟩

theorem normalizeTurn_other (hall : c.Allocated nBatches) (hq : q.InRange c inp nBatches)
    (hmem : a ∈ q.turns) {b' col : Nat} (hout : ¬InHead c (q.row a) (q.h0 a) b' col)
    (stateL : Mem R) (o : Outputs R) : normalizeTurn c q stateL o a b' col = o b' col := by
  unfold normalizeTurn
  split_ifs
  · rfl
  · rw [hall.u32_head (hq.row a hmem).1 (hq.head a hmem).le]
    exact mapHead_other hout

/-- The loop over the keys of a slot, from the cleared state on. -/
theorem keyLoop_self (neon : Bool) (he : Lib.IsExp m.expf) (hall : c.Allocated nBatches)
    (hq : q.InRange c inp nBatches) (hmem : a ∈ q.turns)
    (hcolumn : q.group.column = keyColumn c (q.h0 a)) (hi : i < c.headDim) (maxPos : Nat)
    {s : FusedState R} (h : SlotHolds m mask c inp q a i 0 0 s) :
    SlotHolds m mask c inp q a i (maxPos + 1) (maxPos + 1)
      ((List.range (maxPos / TILE + 1)).foldl (fun s turn => keyTile neon m mask c inp q
        (turn * TILE) (min (turn * TILE + TILE) (maxPos + 1)) s) s) := by
  -- before turn `k` the positions below `k * TILE` are in, as far as there are any
  have hloop := Lib.foldl_range (n := maxPos / TILE + 1)
    (P := fun k (x : FusedState R) => SlotHolds m mask c inp q a i (min (k * TILE) (maxPos + 1))
      (min (k * TILE) (maxPos + 1)) x)
    (f := fun s turn => keyTile neon m mask c inp q (turn * TILE)
      (min (turn * TILE + TILE) (maxPos + 1)) s) (s := s) (fun k hk x hx => ?_) ?_
  · have hend : min ((maxPos / TILE + 1) * TILE) (maxPos + 1) = maxPos + 1 := by
      have hmod := Nat.div_add_mod maxPos TILE
      have hlt := Nat.mod_lt maxPos (show 0 < TILE by decide)
      rw [Nat.mul_comm] at hmod
      rw [Nat.succ_mul]
      omega
    rwa [hend] at hloop
  · have hstart : k * TILE ≤ maxPos :=
      (Nat.le_div_iff_mul_le (by decide)).1 (Nat.le_of_lt_succ hk)
    have hold : min (k * TILE) (maxPos + 1) = k * TILE := by omega
    rw [hold] at hx
    rw [Nat.succ_mul]
    exact keyTile_self he hall hq hmem hcolumn hi (by omega) (by omega) hx
  · rwa [Nat.zero_mul, Nat.zero_min]

/-- The fused kernel computes attention over the visible positions. -/
theorem fusedTile_self [IsStrictOrderedRing R] (neon : Bool) (mask : BlockMask)
    (he : Lib.IsExp m.expf) (hall : c.Allocated nBatches) (hq : q.InRange c inp nBatches)
    (hmem : a ∈ q.turns) (hcolumn : q.group.column = keyColumn c (q.h0 a)) (hi : i < c.headDim)
    (s : Mem R × Outputs R) :
    (fusedTile neon m mask c inp q s).2 (q.row a) (q.h0 a * c.headDim + i)
      = ⟨attentionOut m c inp
          (visible mask (inp.positions (q.row a)) (inp.positions (q.row a) + 1))
          (q.row a) (q.h0 a) i,
        true⟩ := by
  have hrow : q.row a ∈ List.range' q.bBase q.bCount := by
    have hb := (mem_turns.1 hmem).2
    rw [List.mem_range'_1, QueryTile.row]
    omega
  have hmax := le_maxPosition inp hrow
  unfold fusedTile
  dsimp only
  generalize maxPosition inp (List.range' q.bBase q.bCount) = maxPos at hmax ⊢
  have hcleared : q.turns.foldl (fun o a => clearHead c o (q.row a) (q.h0 a)) s.2 (q.row a)
      (q.h0 a * c.headDim + i) = ⟨0, true⟩ := by
    refine Lib.foldl_establishes (A := fun a' => a' = a)
      (Q := fun o : Outputs R => o (q.row a) (q.h0 a * c.headDim + i) = ⟨0, true⟩)
      ⟨a, hmem, rfl⟩ (fun a' hmem' heq o => ?_) (fun a' hmem' hne o ho => ?_) s.2
    · rw [heq]
      exact clearHead_self hall (hq.row a hmem).1 (hq.head a hmem) hi
    · exact (clearHead_other hall (hq.row a' hmem').1 (hq.head a' hmem')
        (tile_not_inHead hi hne)).trans ho
  generalize q.turns.foldl (fun o a => clearHead c o (q.row a) (q.h0 a)) s.2 = cleared at hcleared ⊢
  have hstart : SlotHolds m mask c inp q a i 0 0 ⟨s.1, fun _ => none, fun _ => 0, cleared⟩ := by
    refine ⟨?_, ?_⟩
    · dsimp only
      rw [hcleared]
      exact Accumulated.start
    · dsimp only
      rw [hcleared]
  have hloop := keyLoop_self neon he hall hq hmem hcolumn hi maxPos hstart
  generalize (List.range (maxPos / TILE + 1)).foldl _ _ = s' at hloop ⊢
  rcases hloop with ⟨hsums, hstored⟩
  rw [visible_eq (Nat.lt_succ_of_le hmax)] at hsums
  have hnonempty :
      (visible mask (inp.positions (q.row a)) (inp.positions (q.row a) + 1)).Nonempty :=
    ⟨_, mem_visible_self (Nat.lt_succ_self _)⟩
  rcases hsums.div he hnonempty with ⟨hpos, hdiv⟩
  refine Lib.foldl_once
    (P := fun o : Outputs R => o (q.row a) (q.h0 a * c.headDim + i)
      = s'.outputs (q.row a) (q.h0 a * c.headDim + i))
    (Q := fun o : Outputs R => o (q.row a) (q.h0 a * c.headDim + i)
      = ⟨attentionOut m c inp
          (visible mask (inp.positions (q.row a)) (inp.positions (q.row a) + 1))
          (q.row a) (q.h0 a) i,
        true⟩) turns_nodup hmem
    (fun a' hmem' hne o ho => ?_) (fun o ho => ?_) (fun a' hmem' hne o ho => ?_) rfl
  · exact (normalizeTurn_other hall hq hmem' (tile_not_inHead hi hne) ..).trans ho
  · unfold normalizeTurn
    rw [if_neg (not_le.2 hpos), hall.u32_head (hq.row a hmem).1 (hq.head a hmem).le,
      mapHead_self hi, ho, mul_one_div, hdiv]
    rfl
  · exact (normalizeTurn_other hall hq hmem' (tile_not_inHead hi hne) ..).trans ho

theorem fusedTile_other (hall : c.Allocated nBatches) (hq : q.InRange c inp nBatches)
    {b' col : Nat} (hout : ∀ a ∈ q.turns, ¬InHead c (q.row a) (q.h0 a) b' col)
    (s : Mem R × Outputs R) : (fusedTile neon m mask c inp q s).2 b' col = s.2 b' col := by
  unfold fusedTile
  dsimp only
  refine Lib.foldl_keeps (P := fun o : Outputs R => o b' col = s.2 b' col)
    (fun a hmem o ho => (normalizeTurn_other hall hq hmem (hout a hmem) ..).trans ho) ?_
  refine Lib.foldl_keeps (P := fun x : FusedState R => x.outputs b' col = s.2 b' col)
    (fun k _ x hx => (keyTile_other hall hq hout x).trans hx) ?_
  refine Lib.foldl_keeps (P := fun o : Outputs R => o b' col = s.2 b' col)
    (fun a hmem o ho => ?_) rfl
  exact (clearHead_other hall (hq.row a hmem).1 (hq.head a hmem) (hout a hmem)).trans ho

end Tile

/-! ## The threads -/

section Threads

variable {R : Type} {c : NnMultiHeadAttOpConfig} {inp : AttInput R} {w : CpuRowState}
  {nBatches batchSize nThreads threadIndex h0 turn b : Nat} {g : HeadGroup} {q : QueryTile}

theorem mem_queryTiles : q ∈ queryTiles w batchSize g ↔
    ∃ k < ((cpRowWindow w batchSize).2 + (BR - 1)) / BR,
      q = ⟨g, (cpRowWindow w batchSize).1 + k * BR,
        min BR ((cpRowWindow w batchSize).2 - k * BR)⟩ := by
  simp only [queryTiles, List.mem_map, List.mem_range, eq_comm]

theorem mem_windowRows : b ∈ windowRows w batchSize ↔ (cpRowWindow w batchSize).1 ≤ b ∧
    b < (cpRowWindow w batchSize).1 + (cpRowWindow w batchSize).2 :=
  List.mem_range'_1

/-- The rows of a tile are rows of the window. -/
theorem mem_queryTiles_rows (hq : q ∈ queryTiles w batchSize g) {x : Nat} (hx : x < q.bCount) :
    q.bBase + x ∈ windowRows w batchSize ∧ q.group = g := by
  rcases mem_queryTiles.1 hq with ⟨k, hk, rfl⟩
  refine ⟨mem_windowRows.2 ?_, rfl⟩
  dsimp only at hx ⊢
  omega

/-- Every row of the window is in a tile. -/
theorem exists_queryTile (hb : b ∈ windowRows w batchSize) (g : HeadGroup) :
    ∃ q ∈ queryTiles w batchSize g, q.bBase ≤ b ∧ b < q.bBase + q.bCount := by
  rcases mem_windowRows.1 hb with ⟨hfrom, hto⟩
  have hmod := Nat.div_add_mod (b - (cpRowWindow w batchSize).1) BR
  have hlt := Nat.mod_lt (b - (cpRowWindow w batchSize).1) (show 0 < BR by decide)
  refine ⟨_, mem_queryTiles.2 ⟨(b - (cpRowWindow w batchSize).1) / BR, ?_, rfl⟩, ?_⟩
  · generalize (cpRowWindow w batchSize).1 = first at *
    generalize (cpRowWindow w batchSize).2 = count at *
    simp only [BR] at *
    omega
  · generalize (cpRowWindow w batchSize).1 = first at *
    generalize (cpRowWindow w batchSize).2 = count at *
    simp only [BR] at *
    omega

theorem queryTile_inRange (hrows : RowsInRange c inp nBatches (windowRows w batchSize))
    (ht : threadIndex < nThreads) (hturn : turn < (headLoop c nThreads threadIndex).turns)
    (hq : q ∈ queryTiles w batchSize (headGroup c (headLoop c nThreads threadIndex) turn)) :
    q.InRange c inp nBatches where
  head a ha := by
    have hmem := mem_turns.1 ha
    have hgroup := (mem_queryTiles_rows hq hmem.2).2
    rw [QueryTile.h0, hgroup]
    rw [hgroup] at hmem
    exact (head_of_turn ht hturn ⟨by omega, by omega⟩).1
  row a ha := hrows.row _ (mem_queryTiles_rows hq (mem_turns.1 ha).2).1

/-- A slot whose head is the given one shows that the turn has the head. -/
theorem has_of_turns (hq : q ∈ queryTiles w batchSize g) {a : TileSlot} (ha : a ∈ q.turns) :
    g.Has (q.h0 a) ∧ q.row a ∈ windowRows w batchSize := by
  have hmem := mem_turns.1 ha
  have hrows := mem_queryTiles_rows hq hmem.2
  rw [← hrows.2]
  exact ⟨⟨by unfold QueryTile.h0; omega, by unfold QueryTile.h0; omega⟩, hrows.1⟩

variable [Field R] [LinearOrder R] {neon : Bool} {m : Libm R} {mask : BlockMask}

theorem multiheadAttFused_threadSpec [IsStrictOrderedRing R] (neon : Bool) (mask : BlockMask)
    (he : Lib.IsExp m.expf) (ha : c.Allocated nBatches)
    (hrows : RowsInRange c inp nBatches (windowRows w batchSize)) (hn : 0 < nThreads)
    (scratch : Nat → Mem R) :
    ThreadSpec c (windowRows w batchSize) nThreads
      (fun t o => (multiheadAttFused_F32 neon m mask c inp w batchSize nThreads t (scratch t, o)).2)
      (fun o => o)
      (fun b => attentionOut m c inp (visible mask (inp.positions b) (inp.positions b + 1)) b)
      (BatchOwns c nThreads) fun _ _ _ => True where
  unique h0 hh := exists_unique_thread hn hh
  isLocal t ht h0 howns := howns.lt ht
  own := by
    intro t ht h0 howns b hb i hi o _
    have hstride := headLoop_stride_pos c nThreads t
    have hlt := turn_lt_turns hstride howns
    have hhas := (headGroup_has_iff c hstride).2 ⟨howns, rfl⟩
    dsimp only [multiheadAttFused_F32, headGroups]
    rw [List.foldl_map]
    refine Lib.foldl_establishes
      (A := fun turn => (headGroup c (headLoop c nThreads t) turn).Has h0)
      (Q := fun x : Mem R × Outputs R => x.2 b (h0 * c.headDim + i) = ⟨attentionOut m c inp
        (visible mask (inp.positions b) (inp.positions b + 1)) b h0 i, true⟩)
      ⟨_, List.mem_range.2 hlt, hhas⟩ (fun turn hmem hturn x => ?_)
      (fun turn hmem hturn x hx => ?_) _
    · have hturn' := List.mem_range.1 hmem
      refine Lib.foldl_establishes (A := fun q : QueryTile => q.bBase ≤ b ∧ b < q.bBase + q.bCount)
        (Q := fun x : Mem R × Outputs R => x.2 b (h0 * c.headDim + i) = ⟨attentionOut m c inp
          (visible mask (inp.positions b) (inp.positions b + 1)) b h0 i, true⟩)
        (exists_queryTile hb _) (fun q hq hin x => ?_) (fun q hq hout x hx => ?_) x
      · have hgroup := (mem_queryTiles_rows hq (x := b - q.bBase) (by omega)).2
        rw [← hgroup] at hturn
        have hslot : ⟨h0 - q.group.h0Base, b - q.bBase⟩ ∈ q.turns := by
          rcases hturn with ⟨hfrom, hto⟩
          exact mem_turns.2 ⟨by dsimp only; omega, by dsimp only; omega⟩
        have hh0 : q.h0 ⟨h0 - q.group.h0Base, b - q.bBase⟩ = h0 := Nat.add_sub_cancel' hturn.1
        have hrow : q.row ⟨h0 - q.group.h0Base, b - q.bBase⟩ = b := Nat.add_sub_cancel' hin.1
        have hcolumn : q.group.column = keyColumn c h0 := by
          rw [hgroup] at hturn ⊢
          exact column_of_turn ha hrows hb ht hturn' hturn
        have hself := fusedTile_self neon mask he ha
          (queryTile_inRange hrows ht hturn' hq) hslot (by rw [hh0]; exact hcolumn) hi x
        rwa [hh0, hrow] at hself
      · refine (fusedTile_other ha (queryTile_inRange hrows ht hturn' hq)
          (fun a hslot hin => ?_) x).trans hx
        have hsame := (hin.unique hi).1
        have hbound := (mem_turns.1 hslot).2
        unfold QueryTile.row at hsame
        exact hout ⟨by omega, by omega⟩
    · have hturn' := List.mem_range.1 hmem
      refine Lib.foldl_keeps
        (P := fun x : Mem R × Outputs R => x.2 b (h0 * c.headDim + i) = ⟨attentionOut m c inp
          (visible mask (inp.positions b) (inp.positions b + 1)) b h0 i, true⟩)
        (fun q hq x hx => ?_) hx
      refine (fusedTile_other ha (queryTile_inRange hrows ht hturn' hq)
          (fun a hslot hin => ?_) x).trans hx
      have hhas' := (has_of_turns hq hslot).1
      rw [(hin.unique hi).2] at hhas'
      exact hturn hhas'
  keep _ _ _ _ _ _ _ _ _ := trivial
  other := by
    intro t ht o b col hout
    dsimp only [multiheadAttFused_F32, headGroups]
    rw [List.foldl_map]
    refine Lib.foldl_keeps (P := fun x : Mem R × Outputs R => x.2 b col = o b col)
      (fun turn hmem x hx => ?_) rfl
    have hturn := List.mem_range.1 hmem
    refine Lib.foldl_keeps (P := fun x : Mem R × Outputs R => x.2 b col = o b col)
      (fun q hq x hx => ?_) hx
    refine (fusedTile_other ha (queryTile_inRange hrows ht hturn hq)
      (fun a hslot hin => ?_) x).trans hx
    have hhas := has_of_turns hq hslot
    have howns := ((headGroup_has_iff c (headLoop_stride_pos c nThreads t)).1 hhas.1).1
    rcases hin with ⟨rfl, hcol⟩
    exact hout _ howns hhas.2 ⟨rfl, hcol⟩

end Threads

end Kernels
end PrefillOpt
