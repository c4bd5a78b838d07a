import PrefillOpt.Inference.PromptSchedule
import PrefillOpt.TopologyWords

/-!
# Inference.ChunkSize — how many tokens a chunk of the prefill has

`resolvePrefillChunkBatchSize` of `app.cpp`.  A small chunk costs the kernels their efficiency, a
large one leaves stages of the pipeline idle: with `S` tokens and `N` stages the automatic schedule
looks for a size up to `S / N`.
-/

namespace PrefillOpt
namespace Inference

/-- The settings that the chunk size depends on. -/
structure AppCliArgs where
  nBatches : Nat
  ppSize : Nat
  prefillChunkSize : Nat
  prefillChunkThreshold : Nat
  autoSchedule : Bool
  schedBMin : Nat
deriving DecidableEq, Repr

section Resolve

variable (args : AppCliArgs) (nPrefillTokens : Nat)

/-- Eight chunks in flight for each stage, but never less than a tile or than `schedBMin`. -/
def targetChunk : Nat :=
  max (max (nPrefillTokens / u32 (8 * args.ppSize)) args.schedBMin / 4 * 4) 4

/-- The automatic schedule, once `8u * ppSize` is a divisor. -/
def scheduledChunk : Nat :=
  let b := targetChunk args nPrefillTokens
  let bCap := max 4 (nPrefillTokens / args.ppSize)
  -- no more than leaves a chunk for every stage
  let b := if bCap < b then bCap / 4 * 4 else b
  let b := if b < 4 then 4 else b
  -- the width of the graph
  if args.nBatches < b then args.nBatches else b

/-- Without the automatic schedule the size falls with the length of the prompt. -/
def pressureChunk : Nat :=
  let autoChunk := max 1 (args.nBatches / args.ppSize)
  let autoChunk := if 4 ≤ args.ppSize then max 1 (autoChunk / 2) else autoChunk
  let pressureDivisor := if 0 < args.prefillChunkThreshold then args.prefillChunkThreshold else 1
  let pressure := nPrefillTokens / pressureDivisor
  if 16 ≤ pressure then max 1 (autoChunk / 4)
  else if 8 ≤ pressure then max 1 (autoChunk / 2)
  else autoChunk

/-- `none` is a division by zero. -/
def resolvePrefillChunkBatchSize : Option Nat :=
  if args.nBatches < 1 then some 1
  else if args.ppSize ≤ 1 then some args.nBatches
  else if nPrefillTokens < args.prefillChunkThreshold then some args.nBatches
  else if 0 < args.prefillChunkSize then some (min args.nBatches args.prefillChunkSize)
  else if args.autoSchedule then
    if u32 (8 * args.ppSize) = 0 then none else some (scheduledChunk args nPrefillTokens)
  else some (pressureChunk args nPrefillTokens)

/-- The automatic schedule decides. -/
def AutoScheduled : Prop :=
  1 < args.ppSize ∧ args.prefillChunkThreshold ≤ nPrefillTokens ∧ args.prefillChunkSize = 0 ∧
    args.autoSchedule = true

/-- The chunks of a prompt: `ceil(S / b)`. -/
def chunkCount (b : Nat) : Nat :=
  (nPrefillTokens + b - 1) / b

/-- What the result has to satisfy. -/
def FeasibleChunk (result : Option Nat) : Prop :=
  ∃ b, result = some b ∧ 1 ≤ b ∧ b ≤ args.nBatches ∧
    (AutoScheduled args nPrefillTokens → 4 * args.ppSize ≤ nPrefillTokens →
      (4 ∣ b ∨ b = args.nBatches) ∧ args.ppSize ≤ chunkCount nPrefillTokens b)

end Resolve

variable {args : AppCliArgs} {nPrefillTokens : Nat}

theorem AutoScheduled.resolve (h : AutoScheduled args nPrefillTokens) (hn : 1 ≤ args.nBatches) :
    resolvePrefillChunkBatchSize args nPrefillTokens
      = if u32 (8 * args.ppSize) = 0 then none else some (scheduledChunk args nPrefillTokens) := by
  rcases h with ⟨hpp, hthreshold, hsize, hauto⟩
  rw [resolvePrefillChunkBatchSize, if_neg (Nat.not_lt.2 hn), if_neg (Nat.not_le.2 hpp),
    if_neg (Nat.not_lt.2 hthreshold), hsize, if_neg (Nat.lt_irrefl 0), if_pos hauto]

/-! ## The automatic schedule -/

theorem four_dvd_targetChunk : 4 ∣ targetChunk args nPrefillTokens := by
  rw [targetChunk]
  omega

theorem le_targetChunk : 4 ≤ targetChunk args nPrefillTokens :=
  Nat.le_max_right _ 4

/-- The size before it is cut to the width of the graph: tiles, and a chunk for every stage. -/
theorem scheduledChunk_eq :
    ∃ b, scheduledChunk args nPrefillTokens = min args.nBatches b ∧ 4 ∣ b ∧ 4 ≤ b ∧
      b ≤ max 4 (nPrefillTokens / args.ppSize) := by
  have htile := @four_dvd_targetChunk args nPrefillTokens
  have hfour := @le_targetChunk args nPrefillTokens
  simp only [scheduledChunk]
  generalize targetChunk args nPrefillTokens = b at *
  generalize hcap : max 4 (nPrefillTokens / args.ppSize) = bCap
  have hbCap : 4 ≤ bCap := by
    rw [← hcap]
    exact Nat.le_max_left 4 _
  by_cases hlt : bCap < b
  · rw [if_pos hlt]
    have hb : ¬bCap / 4 * 4 < 4 := by omega
    rw [if_neg hb]
    refine ⟨bCap / 4 * 4, ?_, Nat.dvd_mul_left 4 _, Nat.not_lt.1 hb, Nat.div_mul_le_self bCap 4⟩
    split_ifs <;> omega
  · rw [if_neg hlt, if_neg (Nat.not_lt.2 hfour)]
    refine ⟨b, ?_, htile, hfour, Nat.not_lt.1 hlt⟩
    split_ifs <;> omega

/-- A size up to `S / N` makes `N` chunks at least. -/
theorem le_chunkCount {b n : Nat} (hb : 1 ≤ b) (hle : b ≤ nPrefillTokens / n) :
    n ≤ chunkCount nPrefillTokens b := by
  rw [chunkCount, Nat.le_div_iff_mul_le hb]
  have hmul : n * b ≤ nPrefillTokens :=
    calc n * b
        ≤ n * (nPrefillTokens / n) := Nat.mul_le_mul_left n hle
      _ ≤ nPrefillTokens := Nat.mul_div_le nPrefillTokens n
  omega

theorem scheduledChunk_feasible (hn : 1 ≤ args.nBatches) :
    1 ≤ scheduledChunk args nPrefillTokens ∧
      scheduledChunk args nPrefillTokens ≤ args.nBatches ∧
      (AutoScheduled args nPrefillTokens → 4 * args.ppSize ≤ nPrefillTokens →
        (4 ∣ scheduledChunk args nPrefillTokens ∨
          scheduledChunk args nPrefillTokens = args.nBatches) ∧
        args.ppSize ≤ chunkCount nPrefillTokens (scheduledChunk args nPrefillTokens)) := by
  rcases @scheduledChunk_eq args nPrefillTokens with ⟨b, heq, htile, hfour, hcap⟩
  rw [heq]
  have hpos : 1 ≤ min args.nBatches b := by omega
  refine ⟨hpos, Nat.min_le_left _ b, fun hauto hlong => ⟨?_, ?_⟩⟩
  · rcases Nat.le_total args.nBatches b with h | h
    · exact .inr (Nat.min_eq_left h)
    · left
      rw [Nat.min_eq_right h]
      exact htile
  · apply le_chunkCount hpos
    have hstages : 4 ≤ nPrefillTokens / args.ppSize :=
      (Nat.le_div_iff_mul_le (Nat.lt_of_succ_lt hauto.1)).2 hlong
    calc min args.nBatches b
        ≤ b := Nat.min_le_right _ b
      _ ≤ nPrefillTokens / args.ppSize := by omega

/-! ## The other sizes -/

theorem pressureChunk_feasible (hn : 1 ≤ args.nBatches) :
    1 ≤ pressureChunk args nPrefillTokens ∧ pressureChunk args nPrefillTokens ≤ args.nBatches := by
  have hshare : args.nBatches / args.ppSize ≤ args.nBatches := Nat.div_le_self _ _
  simp only [pressureChunk]
  generalize args.nBatches / args.ppSize = share at *
  generalize nPrefillTokens / _ = pressure
  have hchunk : ∀ c, c = (if 4 ≤ args.ppSize then max 1 (max 1 share / 2) else max 1 share) →
      1 ≤ c ∧ c ≤ args.nBatches := by
    intro c hc
    subst hc
    split_ifs <;> omega
  rcases hchunk _ rfl with ⟨hlow, hhigh⟩
  split_ifs at * <;> omega

/-- The policy gives a feasible size unless it divides by `8u * ppSize` where that has wrapped to
zero. -/
theorem resolvePrefillChunkBatchSize_feasible_iff (hn : 1 ≤ args.nBatches) :
    FeasibleChunk args nPrefillTokens (resolvePrefillChunkBatchSize args nPrefillTokens) ↔
      ¬(AutoScheduled args nPrefillTokens ∧ 2 ^ 29 ∣ args.ppSize) := by
  have hwrap : 2 ^ 29 ∣ args.ppSize ↔ u32 (8 * args.ppSize) = 0 := by
    rw [u32]
    omega
  by_cases hauto : AutoScheduled args nPrefillTokens
  · rw [hauto.resolve hn, hwrap]
    split_ifs with hzero
    · constructor
      · rintro ⟨b, hb, -⟩
        cases hb
      · exact fun h => absurd ⟨hauto, hzero⟩ h
    · rcases @scheduledChunk_feasible args nPrefillTokens hn with ⟨hlow, hhigh, hfill⟩
      exact ⟨fun _ h => hzero h.2, fun _ => ⟨_, rfl, hlow, hhigh, hfill⟩⟩
  · refine ⟨fun _ h => hauto h.1, fun _ => ?_⟩
    have hsize : ∀ b, 1 ≤ b → b ≤ args.nBatches →
        FeasibleChunk args nPrefillTokens (some b) :=
      fun b hlow hhigh => ⟨b, rfl, hlow, hhigh, fun h => absurd h hauto⟩
    rw [resolvePrefillChunkBatchSize, if_neg (Nat.not_lt.2 hn)]
    split_ifs with hpp hthreshold hchunk hsched hzero
    · exact hsize _ hn (Nat.le_refl _)
    · exact hsize _ hn (Nat.le_refl _)
    · exact hsize _ (Nat.le_min.2 ⟨hn, hchunk⟩) (Nat.min_le_left _ _)
    all_goals
      first
      | exact hsize _ (pressureChunk_feasible hn).1 (pressureChunk_feasible hn).2
      | exact absurd ⟨Nat.not_le.1 hpp, Nat.not_lt.1 hthreshold, Nat.eq_zero_of_not_pos hchunk,
          hsched⟩ hauto

/-- Four stages, a batch of 32 and the other settings as they are by default. -/
def fourStageArgs : AppCliArgs :=
  ⟨32, 4, 0, 128, true, 16⟩

/-- The stages of a topology do not make `8u * ppSize` wrap to zero unless there are `2 ^ 29` nodes:
the policy gives a feasible size. -/
theorem resolvePrefillChunkBatchSize_feasible {nNodes spSize : Nat} {f : TopologyFields}
    (htopology : TopologyFields.create nNodes args.ppSize spSize = .ok f)
    (hnodes : nNodes < 2 ^ 29) (hn : 1 ≤ args.nBatches) :
    FeasibleChunk args nPrefillTokens (resolvePrefillChunkBatchSize args nPrefillTokens) := by
  refine (resolvePrefillChunkBatchSize_feasible_iff hn).2 fun h => ?_
  rcases TopologyFields.create_eq_ok htopology with ⟨hsome, -, -, -, -, -, -, hranks⟩
  have hwords : 2 ^ 29 ∣ u32 (args.ppSize * spSize) :=
    (Nat.dvd_mod_iff (by decide)).2 (h.2.mul_right spSize)
  have hnodes' : 2 ^ 29 ∣ nNodes := by
    rw [hranks]
    exact hwords.mul_right f.tpSize
  have hlarge : 2 ^ 29 ≤ nNodes := Nat.le_of_dvd hsome hnodes'
  omega

theorem resolvePrefillChunkBatchSize_feasible_four :
    FeasibleChunk fourStageArgs 512 (resolvePrefillChunkBatchSize fourStageArgs 512) :=
  resolvePrefillChunkBatchSize_feasible
    (show TopologyFields.create 4 fourStageArgs.ppSize 1 = .ok ⟨4, 4, 1, 1⟩ from rfl)
    (by decide) (by decide)

/-- With `--pp-size 536870912` the divisor `8u * ppSize` is zero. -/
theorem resolvePrefillChunkBatchSize_divides_by_zero :
    ¬∀ (args : AppCliArgs) (nPrefillTokens : Nat), 1 ≤ args.nBatches →
      FeasibleChunk args nPrefillTokens (resolvePrefillChunkBatchSize args nPrefillTokens) := by
  intro h
  rcases h { fourStageArgs with ppSize := 2 ^ 29 } 128 (by decide) with ⟨b, hb, -⟩
  have hnone : resolvePrefillChunkBatchSize { fourStageArgs with ppSize := 2 ^ 29 } 128 = none := by
    decide
  rw [hnone] at hb
  cases hb

/-! ## The chunks of a prompt -/

/-- Chunks of `prefillBatchCap` tokens at most need that many. -/
theorem Covers.le_length_mul {c : PromptLoop} {i pos endPos : Nat} {ks : List Chunk}
    (h : Covers c i pos endPos ks) : endPos - pos ≤ ks.length * c.prefillBatchCap := by
  have hspan : ∀ (ks : List Chunk) (pos : Nat), Chunk.Consecutive pos endPos ks →
      (∀ k ∈ ks, k.sources.length ≤ c.prefillBatchCap) →
      endPos - pos ≤ ks.length * c.prefillBatchCap := by
    intro ks
    induction ks with
    | nil =>
        intro pos hks _
        have hend : pos = endPos := hks
        omega
    | cons k ks ih =>
        intro pos hks hsizes
        rcases List.forall_mem_cons.1 hsizes with ⟨hk, hsizes⟩
        have hrest := ih k.endPos hks.2 hsizes
        have hpos := hks.1
        rw [Chunk.endPos] at hrest
        rw [List.length_cons, Nat.succ_mul]
        omega
  exact hspan ks pos h.consecutive fun k hk => (h.sizes k hk).2

/-- With a feasible size there is a chunk for every stage, also when the schedule is padded. -/
theorem inference_fills_pipeline {nInputTokens : Nat} {tileAligned useWave : Bool} {b : Nat}
    (hn : 1 ≤ nInputTokens) (hint : nInputTokens < 2 ^ 31)
    (hb : FeasibleChunk args (nInputTokens - 1) (some b))
    (hauto : AutoScheduled args (nInputTokens - 1)) (hlong : 4 * args.ppSize ≤ nInputTokens - 1) :
    args.ppSize ≤ (inference nInputTokens tileAligned b useWave).chunks.length := by
  rcases hb with ⟨b', heq, hpos, -, hfill⟩
  cases heq
  have hcovers := @inference_covers _ tileAligned b useWave hn hint hpos
  have hneed := hcovers.le_length_mul
  have hpad := @le_prefilled nInputTokens tileAligned
  change _ ≤ _ * b at hneed
  apply Nat.le_trans (hfill hauto hlong).2
  rw [chunkCount]
  apply Nat.le_of_lt_succ
  rw [Nat.div_lt_iff_lt_mul hpos, Nat.succ_mul]
  omega

end Inference
end PrefillOpt
