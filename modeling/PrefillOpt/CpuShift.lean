import PrefillOpt.Lib.Memory

/-!
# CpuShift — the rows a node computes, and the op that writes keys and values

`activeRowCount`, `cpRowWindow` and `shiftForward_F32_F32` of `nn-cpu-ops.cpp`.  The threads of a
node copy disjoint parts of each row, so the op as a whole copies the row.
-/

namespace PrefillOpt

open Lib

/-- The process-wide settings of the row window: `gActiveRows`, `gCpSize`, `gCpRank`. -/
structure CpuRowState where
  activeRows : Nat
  cpSize : Nat
  cpRank : Nat
  deriving DecidableEq, Repr

/-- Rows that are left after pruning; `0` stands for "no pruning". -/
def activeRowCount (g : CpuRowState) (batchSize : Nat) : Nat :=
  if g.activeRows = 0 ∨ batchSize < g.activeRows then batchSize else g.activeRows

/-- `begin` and `count` of the rows this node computes. -/
def cpRowWindow (g : CpuRowState) (batchSize : Nat) : Nat × Nat :=
  let batchSize := activeRowCount g batchSize
  let n := g.cpSize
  if n ≤ 1 ∨ batchSize < n then (0, batchSize)
  else
    let blockIdx := g.cpRank
    let base := batchSize / n
    let rem := batchSize % n
    (blockIdx * base + (if blockIdx < rem then blockIdx else rem),
      base + (if blockIdx < rem then 1 else 0))

structure NnShiftOpCodeConfig where
  localSeqStart : Nat
  localSeqLen : Nat
  deriving DecidableEq, Repr

/-- The SP write guard: it lets a position pass unless the op is sharded, no context-parallel
cut is set and the position is outside the local range. -/
def shiftWrites (g : CpuRowState) (config : NnShiftOpCodeConfig) (index : Nat) : Bool :=
  if 0 < config.localSeqLen ∧ g.cpSize ≤ 1 then
    decide (config.localSeqStart ≤ index ∧ index < config.localSeqStart + config.localSeqLen)
  else true

/-- The rows of the batch that the op copies, in its order. -/
def shiftRows (g : CpuRowState) (config : NnShiftOpCodeConfig) (batchSize : Nat)
    (indexes : Nat → Nat) : List Nat :=
  let (shBegin, shCount) := cpRowWindow g batchSize
  (List.range' shBegin shCount).filter fun batchIndex => shiftWrites g config (indexes batchIndex)

/-- Copy input row `batchIndex` to row `indexes batchIndex` of the output. -/
def shiftForward {β : Type} (g : CpuRowState) (config : NnShiftOpCodeConfig) (batchSize : Nat)
    (indexes : Nat → Nat) (dimBytes : Nat) (input : Nat → Mem β) (output : Mem β) : Mem β :=
  output.stores ((shiftRows g config batchSize indexes).map fun batchIndex =>
    (indexes batchIndex * dimBytes, (input batchIndex).slice 0 dimBytes))

/-! ## The rows that are left -/

theorem activeRowCount_eq_batchSize {g : CpuRowState} {batchSize : Nat}
    (h : g.activeRows = 0 ∨ batchSize ≤ g.activeRows) : activeRowCount g batchSize = batchSize := by
  unfold activeRowCount
  split_ifs <;> omega

theorem activeRowCount_eq_activeRows {g : CpuRowState} {batchSize : Nat}
    (h : ¬ (g.activeRows = 0 ∨ batchSize ≤ g.activeRows)) :
    activeRowCount g batchSize = g.activeRows := by
  unfold activeRowCount
  split_ifs <;> omega

/-! ## What the op writes -/

section Shift

variable {β : Type} {g : CpuRowState} {config : NnShiftOpCodeConfig} {batchSize : Nat}
  {indexes : Nat → Nat} {dimBytes : Nat} {input : Nat → Mem β} {output : Mem β}

theorem mem_shiftRows {b : Nat} :
    b ∈ shiftRows g config batchSize indexes
      ↔ ((cpRowWindow g batchSize).1 ≤ b ∧
          b < (cpRowWindow g batchSize).1 + (cpRowWindow g batchSize).2) ∧
        shiftWrites g config (indexes b) = true := by
  simp [shiftRows, List.mem_range'_1]

/-- Two byte offsets of one row pitch are equal only if their rows are. -/
private theorem row_of_has {p q j dim : Nat} (hj : j < dim) (h : q * dim ≤ p * dim + j)
    (h' : p * dim + j < q * dim + dim) : p = q := by
  rcases Nat.lt_trichotomy p q with hlt | heq | hgt
  · have := Nat.mul_le_mul_right dim (show p + 1 ≤ q from hlt)
    rw [Nat.succ_mul] at this
    omega
  · exact heq
  · have := Nat.mul_le_mul_right dim (show q + 1 ≤ p from hgt)
    rw [Nat.succ_mul] at this
    omega

/-- The row of a copied batch row is its input, if no other row goes to the same position. -/
theorem shiftForward_of_mem {b j : Nat} (hb : b ∈ shiftRows g config batchSize indexes)
    (huniq : ∀ b' ∈ shiftRows g config batchSize indexes, indexes b' = indexes b → b' = b)
    (hj : j < dimBytes) :
    shiftForward g config batchSize indexes dimBytes input output (indexes b * dimBytes + j)
      = input b j := by
  refine Mem.stores_apply_eq ?_ (.inr ⟨_, List.mem_map_of_mem hb, by simp, by simpa using hj⟩)
  intro w hw hle hlt
  obtain ⟨b', hb', rfl⟩ := List.mem_map.1 hw
  simp only [Mem.slice_length] at hle hlt ⊢
  have hrow : b' = b := huniq b' hb' (row_of_has hj hle hlt).symm
  subst hrow
  simp [hj]

/-- A row that no batch row goes to is kept. -/
theorem shiftForward_of_not_mem {p j : Nat}
    (hp : ∀ b ∈ shiftRows g config batchSize indexes, indexes b ≠ p) (hj : j < dimBytes) :
    shiftForward g config batchSize indexes dimBytes input output (p * dimBytes + j)
      = output (p * dimBytes + j) := by
  refine Mem.stores_apply_of_forall fun w hw => ?_
  obtain ⟨b, hb, rfl⟩ := List.mem_map.1 hw
  simp only [Mem.slice_length]
  by_contra hno
  push Not at hno
  exact hp b hb (row_of_has hj hno.1 hno.2).symm

end Shift

end PrefillOpt
