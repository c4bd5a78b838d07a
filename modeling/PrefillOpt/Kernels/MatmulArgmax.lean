import Mathlib.Algebra.Order.Field.Rat
import Mathlib.Order.WithBot
import PrefillOpt.Inference.TopKLogits
import PrefillOpt.Kernels.MatmulForward
import PrefillOpt.Lib.Binary32
import PrefillOpt.Lib.Selection

/-!
# Kernels.MatmulArgmax — the head that picks a token without storing its logits

`nn-cpu-ops.cpp`, `matmulArgmaxForward_Q80_Q40_F32` and `argmaxReduceForward_F32_F32`.  A thread
keeps the best row of its share of the vocabulary and starts the next search from it; the first
thread reduces the shares.  A logit is a float sum, which depends on the order of the loop that
forms it; indices pass through floats.
-/

namespace PrefillOpt
namespace Kernels

open Inference (sampleArgmaxToken)
open Lib (Mem Binary32 IsFirst)

/-- The sum over the blocks of a row of the weight, as some loop rounds it. -/
structure RowSum (V : Type) where
  sum : (Nat → NnBlockQ40) → (Nat → NnBlockQ80) → Nat → V
  congr : ∀ w w' x nBlocks, (∀ j < nBlocks, w j = w' j) → sum w x nBlocks = sum w' x nBlocks

/-- The loops that form a logit. -/
structure FloatSums (V : Type) where
  /-- `dot_Q80_Q40_F32_row` -/
  dotRow : RowSum V
  /-- a row of `matmul_Q80_Q40_F32` -/
  matmulRow : RowSum V
  /-- a row of `matmulForward_Q80_Q40_F32`, which has more than one kernel -/
  forwardRow : RowSum V

/-- A row and its logit; no logit is minus infinity or not a number. -/
abbrev Best (V : Type) := Nat × WithBot V

/-- What is left of an index in a float. -/
def viaFloat (i : Nat) : Nat := (Binary32.ofUInt i).toInt.toNat

section Head

variable {V : Type} [LinearOrder V] (sums : FloatSums V)

/-- The search starts from the row `prev` that was the best one in the call before, if that is in
the share. -/
def argmaxSeed (w : Nat → NnBlockQ40) (nBlocks d start stop : Nat) (x : Nat → NnBlockQ80)
    (prev : Nat) : Best V :=
  if start ≤ prev ∧ prev < stop ∧ prev < d then
    (prev, (sums.dotRow.sum (fun j => w (u32 (prev * nBlocks) + j)) x nBlocks : V))
  else (start, ⊥)

/-- One row of the batch in one thread. -/
def argmaxShard (w : Nat → NnBlockQ40) (n d nThreads threadIndex : Nat) (x : Nat → NnBlockQ80)
    (prev : Nat) : Best V :=
  let (start, stop) := splitThreads d nThreads threadIndex
  let shardRows := stop - start
  let nBlocks := n / 32
  -- `matmul_Q80_Q40_F32` on the rows of the share, on one thread
  let logits := fun i =>
    sums.matmulRow.sum (fun j => w (u32 (start * nBlocks) + u32 (i * nBlocks + j))) x nBlocks
  if shardRows = 0 then (start, ⊥)
  else (List.range shardRows).foldl
    (fun best i => if best.2 < (logits i : WithBot V) then (start + i, (logits i : WithBot V))
      else best) (argmaxSeed sums w nBlocks d start stop x prev)

/-- The rows of one forward. -/
structure BatchInput where
  batchSize : Nat
  row : Nat → Nat → NnBlockQ80

/-- All rows of the batch in one thread.  The remembered rows are those of a batch of this size. -/
def matmulArgmaxForward_Q80_Q40_F32 (w : Nat → NnBlockQ40) (n d nThreads threadIndex : Nat)
    (input : BatchInput) (prevBest : List Nat) : List (Best V) :=
  let prevBest :=
    if prevBest.length = input.batchSize then prevBest else List.replicate input.batchSize 0
  (List.range input.batchSize).map fun y =>
    argmaxShard sums w n d nThreads threadIndex (input.row y) (prevBest.getD y 0)

/-- The search of thread 0 over what the threads wrote for one row of the batch. -/
def argmaxReduceForward_F32_F32 (nThreads maxThreads : Nat) (partials : Nat → Best V) : Nat :=
  let usedThreads := min nThreads (max 1 maxThreads)
  let best : Best V := (List.range usedThreads).foldl
    (fun best t =>
      if best.2 < (partials t).2 then (viaFloat (partials t).1, (partials t).2) else best)
    (0, ⊥)
  -- the result is a float again
  viaFloat best.1

/-- The rows every thread remembers. -/
abbrev PrevBest := Nat → List Nat

/-- Both ops on all threads: the rows remembered afterwards and the token of each row of the batch.
Nothing when the buffer of `argmax_partial` is too small for the threads. -/
def argmaxHead (w : Nat → NnBlockQ40) (n d nThreads outStride maxThreads : Nat)
    (prevBest : PrevBest) (input : BatchInput) : Option (PrevBest × List Nat) := do
  if outStride < nThreads * 2 then none
  let shards := (List.range nThreads).map fun t =>
    matmulArgmaxForward_Q80_Q40_F32 sums w n d nThreads t input (prevBest t)
  let partials := fun y t => ((shards.getD t []).getD y (0, ⊥) : Best V)
  return (fun t => (shards.getD t []).map Prod.fst, (List.range input.batchSize).map fun y =>
    argmaxReduceForward_F32_F32 nThreads maxThreads (partials y))

/-- Calls on one op, from a fresh thread on. -/
def argmaxRun (w : Nat → NnBlockQ40) (n d nThreads outStride maxThreads : Nat)
    (calls : List BatchInput) : Option PrevBest :=
  calls.foldlM
    (fun prevBest input =>
      (argmaxHead sums w n d nThreads outStride maxThreads prevBest input).map Prod.fst)
    fun _ => []

end Head

/-! ## One share -/

section Share

variable {V : Type} [LinearOrder V] (sums : FloatSums V) {w : Nat → NnBlockQ40} {d kBlocks : Nat}

/-- The logit of a row of the weight. -/
def logit (s : RowSum V) (w : Nat → NnBlockQ40) (kBlocks : Nat) (x : Nat → NnBlockQ80) (c : Nat) :
    V :=
  s.sum (fun j => w (c * kBlocks + j)) x kBlocks

/-- Where the search of a share starts. -/
def shareSeed (v : Nat → V) (start stop prev : Nat) : Best V :=
  if start ≤ prev ∧ prev < stop then (prev, (v prev : WithBot V)) else (start, ⊥)

/-- The three loops give the same float for a row, as they do where no sum is rounded. -/
structure FloatSums.Agree (w : Nat → NnBlockQ40) (kBlocks d : Nat) (x : Nat → NnBlockQ80) :
    Prop where
  dotRow : ∀ c < d, logit sums.dotRow w kBlocks x c = logit sums.forwardRow w kBlocks x c
  matmulRow : ∀ c < d, logit sums.matmulRow w kBlocks x c = logit sums.forwardRow w kBlocks x c

theorem argmaxShard_eq (hfits : d * kBlocks < 2 ^ 32) {nThreads t : Nat} (ht : t < nThreads)
    {x : Nat → NnBlockQ80} (hagree : sums.Agree w kBlocks d x) (prev : Nat) :
    argmaxShard sums w (32 * kBlocks) d nThreads t x prev
      = Lib.scanFrom id (fun c => ((logit sums.forwardRow w kBlocks x c : V) : WithBot V))
          (List.range' (Lib.blockStart d nThreads t) (Lib.blockCount d nThreads t))
          (shareSeed (logit sums.forwardRow w kBlocks x) (Lib.blockStart d nThreads t)
            (Lib.blockStart d nThreads t + Lib.blockCount d nThreads t) prev) := by
  have hdiv : 32 * kBlocks / 32 = kBlocks := Nat.mul_div_cancel_left _ (by omega)
  have hend := Lib.blockStart_add_blockCount_le (m := d) ht
  simp only [argmaxShard, splitThreads_eq, hdiv, Nat.add_sub_cancel_left]
  generalize Lib.blockStart d nThreads t = start at hend ⊢
  generalize Lib.blockCount d nThreads t = count at hend ⊢
  -- no index into the weight wraps
  have hrow : ∀ c < d, ∀ j < kBlocks, c * kBlocks + j < 2 ^ 32 := by
    intro c hc j hj
    have hle := Nat.mul_le_mul_right kBlocks (show c + 1 ≤ d from hc)
    rw [Nat.succ_mul] at hle
    omega
  have hbase : ∀ c ≤ d, u32 (c * kBlocks) = c * kBlocks := fun c hc =>
    u32_of_lt ((Nat.mul_le_mul_right kBlocks hc).trans_lt hfits)
  have hseed : argmaxSeed sums w kBlocks d start (start + count) x prev
      = shareSeed (logit sums.forwardRow w kBlocks x) start (start + count) prev := by
    rw [argmaxSeed]
    by_cases hin : start ≤ prev ∧ prev < start + count
    · have hprev : prev < d := by omega
      rw [if_pos ⟨hin.1, hin.2, hprev⟩, hbase prev hprev.le, shareSeed, if_pos hin,
        ← hagree.dotRow prev hprev, logit]
    · have hout : ¬(start ≤ prev ∧ prev < start + count ∧ prev < d) :=
        fun h => hin ⟨h.1, h.2.1⟩
      rw [if_neg hout, shareSeed, if_neg hin]
  have hlogit : ∀ i < count,
      sums.matmulRow.sum (fun j => w (u32 (start * kBlocks) + u32 (i * kBlocks + j))) x kBlocks
        = logit sums.forwardRow w kBlocks x (start + i) := by
    intro i hi
    rw [← hagree.matmulRow (start + i) (by omega), logit, hbase start (by omega)]
    refine sums.matmulRow.congr _ _ x kBlocks fun j hj => ?_
    have hindex : start * kBlocks + (i * kBlocks + j) = (start + i) * kBlocks + j := by ring
    have hlt := hrow (start + i) (by omega) j hj
    have hu32 : u32 (i * kBlocks + j) = i * kBlocks + j := u32_of_lt (by omega)
    rw [hu32, hindex]
  rcases Nat.eq_zero_or_pos count with rfl | hpos
  · have hnone : ¬(start ≤ prev ∧ prev < start + 0) := by omega
    rw [shareSeed, if_neg hnone]
    rfl
  · rw [if_neg (Nat.ne_of_gt hpos), hseed, List.range'_eq_map_range, Lib.scanFrom, List.foldl_map]
    refine List.foldl_ext _ _ _ fun best i hi => ?_
    rw [hlogit i (List.mem_range.1 hi)]
    rfl

/-! ## The winner -/

variable {v : Nat → V} {m start count prev : Nat}

/-- The search of one share. -/
def shareBest (v : Nat → V) (start count prev : Nat) : Best V :=
  Lib.scanFrom id (fun c => (v c : WithBot V)) (List.range' start count)
    (shareSeed v start (start + count) prev)

theorem shareBest_lt {B : V} (h : ∀ c, start ≤ c → c < start + count → v c < B) :
    (shareBest v start count prev).2 < (B : WithBot V) := by
  refine Lib.scanFrom_lt ?_ ?_
  · rw [shareSeed]
    split_ifs with hin
    · exact WithBot.coe_lt_coe.2 (h prev hin.1 hin.2)
    · exact WithBot.bot_lt_coe B
  · intro c hc
    have hc := List.mem_range'_1.1 hc
    exact WithBot.coe_lt_coe.2 (h c hc.1 hc.2)

theorem shareBest_le {B : V} (h : ∀ c, start ≤ c → c < start + count → v c ≤ B) :
    (shareBest v start count prev).2 ≤ (B : WithBot V) := by
  refine Lib.scanFrom_le ?_ ?_
  · rw [shareSeed]
    split_ifs with hin
    · exact WithBot.coe_le_coe.2 (h prev hin.1 hin.2)
    · exact bot_le
  · intro c hc
    have hc := List.mem_range'_1.1 hc
    exact WithBot.coe_le_coe.2 (h c hc.1 hc.2)

/-- The share that holds the first maximum gives it, unless its search starts from a row with the
same logit. -/
theorem shareBest_owner (prev : Nat) (hm : IsFirst v d m) (hend : start + count ≤ d)
    (hlo : start ≤ m) (hhi : m < start + count) :
    shareBest v start count prev
      = (if (start ≤ prev ∧ prev < start + count) ∧ v prev = v m then prev else m,
        (v m : WithBot V)) := by
  have hle : ∀ c, c < d → v c ≤ v m := by
    intro c hc
    by_cases hcm : c = m
    · exact le_of_eq (congrArg v hcm)
    · exact (hm.beats c hc hcm).le
  by_cases htie : (start ≤ prev ∧ prev < start + count) ∧ v prev = v m
  · rw [if_pos htie, shareBest, shareSeed, if_pos htie.1, htie.2]
    refine Lib.scanFrom_seed fun c hc => ?_
    have hc := List.mem_range'_1.1 hc
    exact WithBot.coe_le_coe.2 (hle c (by omega))
  · rw [if_neg htie]
    refine Lib.scanFrom_range' hlo hhi ?_ ?_ ?_
    · rw [shareSeed]
      split_ifs with hin
      · have hne : v prev ≠ v m := fun h => htie ⟨hin, h⟩
        exact WithBot.coe_lt_coe.2 (lt_of_le_of_ne (hle prev (by omega)) hne)
      · exact WithBot.bot_lt_coe (v m)
    · intro c hc hlt
      refine WithBot.coe_lt_coe.2 ?_
      rcases hm.beats c (by omega) (Nat.ne_of_lt hlt) with h | h
      · exact h
      · omega
    · intro c _ hc
      exact WithBot.coe_le_coe.2 (hle c (by omega))

theorem sampleArgmaxToken_isFirst (v : Nat → V) (hd : 0 < d) :
    IsFirst v d (sampleArgmaxToken v d) := by
  have hfirst : IsFirst v d (Lib.argmax v (d - 1)) := by
    have h := Lib.argmax_isFirst v (d - 1)
    rwa [Nat.sub_add_cancel hd] at h
  suffices heq : sampleArgmaxToken v d = Lib.argmax v (d - 1) by rwa [heq]
  generalize Lib.argmax v (d - 1) = m at hfirst ⊢
  rw [sampleArgmaxToken, if_neg (Nat.ne_of_gt hd)]
  have hlt := hfirst.lt
  by_cases hzero : m = 0
  · have hseed : Lib.scanFrom id v (List.range' 1 (d - 1)) (0, v 0) = (0, v 0) := by
      refine Lib.scanFrom_seed fun c hc => ?_
      have hc := List.mem_range'_1.1 hc
      exact (hzero ▸ hfirst.beats c (by omega) (by omega)).le
    rw [hzero]
    exact congrArg Prod.fst hseed
  · have hbefore : ∀ c, c < m → v c < v m := by
      intro c hc
      rcases hfirst.beats c (by omega) (Nat.ne_of_lt hc) with h | h
      · exact h
      · omega
    have hscan : Lib.scanFrom id v (List.range' 1 (d - 1)) (0, v 0) = (m, v m) := by
      refine Lib.scanFrom_range' (by omega) (by omega) (hbefore 0 (by omega)) ?_ ?_
      · exact fun c _ hc => hbefore c hc
      · exact fun c hc hcd => (hfirst.beats c (by omega) (Nat.ne_of_gt hc)).le
    exact congrArg Prod.fst hscan

/-- The reduction gives the row of the first thread with the largest logit. -/
theorem argmaxReduce_first {nThreads t : Nat} (hthreads : nThreads ≤ 64) (ht : t < nThreads)
    {partials : Nat → Best V} (hbot : ⊥ < (partials t).2)
    (hbefore : ∀ r < t, (partials r).2 < (partials t).2)
    (hafter : ∀ r, t < r → r < nThreads → (partials r).2 ≤ (partials t).2) :
    argmaxReduceForward_F32_F32 nThreads 64 partials = viaFloat (viaFloat (partials t).1) := by
  have hused : min nThreads (max 1 64) = nThreads := by omega
  have hscan : Lib.scanFrom (fun r => viaFloat (partials r).1) (fun r => (partials r).2)
      (List.range' 0 nThreads) (0, ⊥) = (viaFloat (partials t).1, (partials t).2) := by
    refine Lib.scanFrom_range' (Nat.zero_le t) (by omega) hbot ?_ ?_
    · exact fun r _ hr => hbefore r hr
    · exact fun r hr hrn => hafter r hr (by omega)
  rw [Lib.scanFrom, ← List.range_eq_range'] at hscan
  rw [argmaxReduceForward_F32_F32, hused, hscan]

/-- The thread that holds the first maximum decides the token. -/
theorem argmaxReduce_owner (hm : IsFirst v d m) {nThreads t : Nat} (hthreads : nThreads ≤ 64)
    (ht : t < nThreads) (hlo : Lib.blockStart d nThreads t ≤ m)
    (hhi : m < Lib.blockStart d nThreads t + Lib.blockCount d nThreads t) {prev : Nat → Nat}
    {partials : Nat → Best V} (hpartials : ∀ r < nThreads, partials r
      = shareBest v (Lib.blockStart d nThreads r) (Lib.blockCount d nThreads r) (prev r)) :
    argmaxReduceForward_F32_F32 nThreads 64 partials
      = viaFloat (viaFloat (if (Lib.blockStart d nThreads t ≤ prev t ∧
            prev t < Lib.blockStart d nThreads t + Lib.blockCount d nThreads t) ∧
            v (prev t) = v m then prev t else m)) := by
  have hend : ∀ r < nThreads, Lib.blockStart d nThreads r + Lib.blockCount d nThreads r ≤ d :=
    fun r hr => Lib.blockStart_add_blockCount_le hr
  have howner := shareBest_owner (prev t) hm (hend t ht) hlo hhi
  have hmd := hm.lt
  rw [← hpartials t ht] at howner
  rw [argmaxReduce_first hthreads ht, howner]
  · rw [howner]
    exact WithBot.bot_lt_coe (v m)
  · -- the shares before the owner only have smaller rows
    intro r hr
    rw [howner, hpartials r (by omega)]
    refine shareBest_lt fun c _ hc => ?_
    have hnext := Lib.blockStart_mono d nThreads (show r + 1 ≤ t from hr)
    rw [Lib.blockStart_succ] at hnext
    rcases hm.beats c (by omega) (by omega) with h | h
    · exact h
    · omega
  · intro r _ hr
    rw [howner, hpartials r hr]
    refine shareBest_le fun c _ hc => ?_
    have hrd := hend r hr
    by_cases hcm : c = m
    · exact le_of_eq (congrArg v hcm)
    · exact (hm.beats c (by omega) hcm).le

end Share

/-! ## Calls on one op -/

/-- The row a thread has in mind for row `y` of a batch. -/
def remembered (prevBest : List Nat) (batchSize y : Nat) : Nat :=
  (if prevBest.length = batchSize then prevBest else List.replicate batchSize 0).getD y 0

/-- The thread whose share holds the first maximum remembers another row of the share with the same
logit. -/
def StaleTie {V : Type} [LinearOrder V] (logits : Nat → V) (d nThreads : Nat)
    (prev : Nat → Nat) : Prop :=
  let token := sampleArgmaxToken logits d
  ∃ t < nThreads, ((splitThreads d nThreads t).1 ≤ token ∧ token < (splitThreads d nThreads t).2) ∧
    ((splitThreads d nThreads t).1 ≤ prev t ∧ prev t < (splitThreads d nThreads t).2) ∧
    prev t ≠ token ∧ logits (prev t) = logits token

section Calls

variable {V : Type} [LinearOrder V] (sums : FloatSums V) {w : Nat → NnBlockQ40}
  {d kBlocks nThreads : Nat}

theorem viaFloat_of_lt {i : Nat} (h : i < 2 ^ 24) : viaFloat i = i := by
  rw [viaFloat, Binary32.toInt_ofUInt h, Int.toNat_natCast]

theorem matmulArgmaxForward_eq (hfits : d * kBlocks < 2 ^ 32) {t : Nat} (ht : t < nThreads)
    {input : BatchInput} (hagree : ∀ y < input.batchSize, sums.Agree w kBlocks d (input.row y))
    (prevBest : List Nat) :
    matmulArgmaxForward_Q80_Q40_F32 sums w (32 * kBlocks) d nThreads t input prevBest
      = (List.range input.batchSize).map fun y =>
          shareBest (logit sums.forwardRow w kBlocks (input.row y)) (Lib.blockStart d nThreads t)
            (Lib.blockCount d nThreads t) (remembered prevBest input.batchSize y) :=
  List.map_congr_left fun y hy =>
    argmaxShard_eq sums hfits ht (hagree y (List.mem_range.1 hy)) _

/-- A call does not fail, whatever the threads remember. -/
theorem argmaxHead_ok (hthreads : nThreads ≤ 64) (prevBest : PrevBest) (input : BatchInput) :
    ∃ (next : PrevBest) (partials : Nat → Nat → Best V),
      argmaxHead sums w (32 * kBlocks) d nThreads 128 64 prevBest input
        = some (next, (List.range input.batchSize).map fun y =>
          argmaxReduceForward_F32_F32 nThreads 64 (partials y)) ∧
      ∀ y < input.batchSize, ∀ t < nThreads, partials y t
        = (matmulArgmaxForward_Q80_Q40_F32 sums w (32 * kBlocks) d nThreads t input
          (prevBest t)).getD y (0, ⊥) := by
  have hstride : ¬128 < nThreads * 2 := by omega
  simp only [argmaxHead, if_neg hstride, Option.bind_eq_bind]
  refine ⟨_, _, rfl, ?_⟩
  intro y hy t ht
  rw [List.getD_eq_getElem?_getD (l := List.map _ (List.range nThreads)), List.getElem?_map,
    List.getElem?_range ht, Option.map_some, Option.getD_some]

theorem argmaxReduce_empty {partials : Nat → Best V} (h : ∀ t < nThreads, (partials t).2 = ⊥) :
    argmaxReduceForward_F32_F32 nThreads 64 partials = 0 := by
  have hscan : Lib.scanFrom (fun r => viaFloat (partials r).1) (fun r => (partials r).2)
      (List.range (min nThreads (max 1 64))) (0, ⊥) = (0, ⊥) := by
    refine Lib.scanFrom_seed fun t ht => ?_
    have ht := List.mem_range.1 ht
    rw [h t (by omega)]
  rw [Lib.scanFrom] at hscan
  rw [argmaxReduceForward_F32_F32, hscan]
  exact viaFloat_of_lt (show 0 < 2 ^ 24 by decide)

theorem argmaxReduce_eq_iff (hrows : d ≤ 2 ^ 24) (hpos : 1 ≤ nThreads) (hthreads : nThreads ≤ 64)
    {v : Nat → V} {prev : Nat → Nat} {partials : Nat → Best V}
    (hpartials : ∀ t < nThreads, partials t
      = shareBest v (Lib.blockStart d nThreads t) (Lib.blockCount d nThreads t) (prev t)) :
    argmaxReduceForward_F32_F32 nThreads 64 partials = sampleArgmaxToken v d ↔
      ¬StaleTie v d nThreads prev := by
  simp only [StaleTie, splitThreads_eq]
  rcases Nat.eq_zero_or_pos d with rfl | hd
  · have hnone : ∀ t, Lib.blockCount 0 nThreads t = 0 := fun t => by simp [Lib.blockCount]
    have hbot : ∀ t < nThreads, (partials t).2 = ⊥ := by
      intro t ht
      have hout : ¬(Lib.blockStart 0 nThreads t ≤ prev t ∧
          prev t < Lib.blockStart 0 nThreads t + 0) := by omega
      rw [hpartials t ht, hnone, shareBest, shareSeed, if_neg hout]
      rfl
    rw [argmaxReduce_empty hbot]
    refine iff_of_true rfl ?_
    rintro ⟨t, -, hm, -⟩
    rw [hnone] at hm
    omega
  have hm := sampleArgmaxToken_isFirst v hd
  generalize sampleArgmaxToken v d = m at hm ⊢
  rcases Lib.exists_block hpos hm.lt with ⟨t, ht, hlo, hhi⟩
  have hend := Lib.blockStart_add_blockCount_le (m := d) ht
  have hmd := hm.lt
  rw [argmaxReduce_owner hm hthreads ht hlo hhi hpartials]
  by_cases htie : (Lib.blockStart d nThreads t ≤ prev t ∧
      prev t < Lib.blockStart d nThreads t + Lib.blockCount d nThreads t) ∧ v (prev t) = v m
  · have hprev : prev t < 2 ^ 24 := by omega
    rw [if_pos htie, viaFloat_of_lt hprev, viaFloat_of_lt hprev]
    constructor
    · -- the row that is kept is the first maximum itself
      rintro heq ⟨r, hr, hmr, -, hne, -⟩
      have hrt := Lib.block_unique hmr.1 hmr.2 hlo hhi
      exact hne (hrt ▸ heq)
    · intro hfresh
      by_contra hne
      exact hfresh ⟨t, ht, ⟨hlo, hhi⟩, htie.1, hne, htie.2⟩
  · have hsmall : m < 2 ^ 24 := by omega
    rw [if_neg htie, viaFloat_of_lt hsmall, viaFloat_of_lt hsmall]
    refine iff_of_true rfl ?_
    rintro ⟨r, hr, hmr, hin, -, heq⟩
    have hrt := Lib.block_unique hmr.1 hmr.2 hlo hhi
    exact htie (hrt ▸ ⟨hin, heq⟩)

/-- One call from any remembered rows: every token is right unless a tie is stale. -/
theorem argmaxHead_tokens (hfits : d * kBlocks < 2 ^ 32) (hrows : d ≤ 2 ^ 24)
    (hpos : 1 ≤ nThreads) (hthreads : nThreads ≤ 64) (prevBest : PrevBest) {input : BatchInput}
    (hagree : ∀ y < input.batchSize, sums.Agree w kBlocks d (input.row y)) :
    ∃ next tokens, argmaxHead sums w (32 * kBlocks) d nThreads 128 64 prevBest input
        = some (next, (List.range input.batchSize).map tokens) ∧
      ∀ y < input.batchSize,
        (tokens y = sampleArgmaxToken (logit sums.forwardRow w kBlocks (input.row y)) d ↔
          ¬StaleTie (logit sums.forwardRow w kBlocks (input.row y)) d nThreads fun t =>
            remembered (prevBest t) input.batchSize y) := by
  rcases argmaxHead_ok sums hthreads prevBest input with ⟨next, partials, hhead, hpartials⟩
  refine ⟨next, _, hhead, fun y hy => argmaxReduce_eq_iff hrows hpos hthreads fun t ht => ?_⟩
  rw [hpartials y hy t ht, matmulArgmaxForward_eq sums hfits ht hagree,
    List.getD_eq_getElem?_getD, List.getElem?_map, List.getElem?_range hy, Option.map_some,
    Option.getD_some]

/-- No call fails. -/
theorem argmaxRun_isSome (hthreads : nThreads ≤ 64) (calls : List BatchInput) :
    ∃ prevBest, argmaxRun sums w (32 * kBlocks) d nThreads 128 64 calls = some prevBest := by
  rw [argmaxRun]
  generalize (fun _ => [] : PrevBest) = prevBest
  induction calls generalizing prevBest with
  | nil => exact ⟨prevBest, rfl⟩
  | cons input calls ih =>
      rcases argmaxHead_ok sums (w := w) (d := d) hthreads prevBest input
        with ⟨next, partials, hhead, -⟩
      rcases ih next with ⟨last, hlast⟩
      refine ⟨last, ?_⟩
      rw [List.foldlM_cons, hhead]
      exact hlast

/-! ## A loaded op -/

theorem sampleArgmaxToken_congr {v v' : Nat → V} (h : ∀ c < d, v c = v' c) :
    sampleArgmaxToken v d = sampleArgmaxToken v' d := by
  rcases Nat.eq_zero_or_pos d with rfl | hd
  · rfl
  have hfirst := sampleArgmaxToken_isFirst v hd
  have hfirst' : IsFirst v' d (sampleArgmaxToken v d) := by
    refine ⟨hfirst.lt, fun j hj hne => ?_⟩
    have hbeats := hfirst.beats j hj hne
    rwa [Lib.Beats, h j hj, h _ hfirst.lt] at hbeats
  exact hfirst'.unique (sampleArgmaxToken_isFirst v' hd)

theorem staleTie_congr {v v' : Nat → V} (h : ∀ c < d, v c = v' c) {prev : Nat → Nat} :
    StaleTie v d nThreads prev ↔ StaleTie v' d nThreads prev := by
  simp only [StaleTie, splitThreads_eq, sampleArgmaxToken_congr h]
  refine exists_congr fun t => and_congr_right fun ht => and_congr_right fun hm =>
    and_congr_right fun hin => and_congr_right fun _ => ?_
  have hend := Lib.blockStart_add_blockCount_le (m := d) ht
  rw [h (prev t) (by omega), h (sampleArgmaxToken v' d) (by omega)]

/-- The weight read row by row. -/
def plainBlocks (weight : Mem UInt8) : Nat → NnBlockQ40 :=
  fun i => loadQ40 weight (i * 18)

/-- The op after some calls: the tokens of one more. -/
def headTokens (ctx : NnCpuOpContext) (nThreads : Nat) (calls : List BatchInput)
    (input : BatchInput) : Option (List Nat) := do
  let w := plainBlocks ctx.weight
  let prevBest ←
    argmaxRun sums w ctx.weightSize.y ctx.weightSize.x nThreads 128 64 calls
  let (_, tokens) ←
    argmaxHead sums w ctx.weightSize.y ctx.weightSize.x nThreads 128 64 prevBest input
  return tokens

/-- Loading without repacking is a copy. -/
theorem loadWeight_plain {repackOn : Bool} {fresh ctx : NnCpuOpContext} {weight : Mem UInt8}
    (hsize : fresh.weightSize = size2D .q40 (32 * kBlocks) d)
    (hload : loadWeight repackOn fresh 0 fresh.weightSize.nBytes weight = .ok ctx)
    (hplain : nnRepackSupported repackOn d kBlocks = false) :
    ctx.weightSize = fresh.weightSize ∧
      ctx.weight = fresh.weight.store 0 (weight.slice 0 fresh.weightSize.nBytes) := by
  have hdiv : 32 * kBlocks / 32 = kBlocks := Nat.mul_div_cancel_left _ (by omega)
  have hkeep : repacksAfterLoad repackOn fresh.weightSize = false := by
    simp only [repacksAfterLoad, hsize, size2D, size3D, hdiv, hplain, Bool.and_false]
  have hfit : decide (0 + fresh.weightSize.nBytes ≤ fresh.weightSize.nBytes) = true := by simp
  simp only [loadWeight, assertThat, hfit, if_true, bind, Except.bind, hkeep, Bool.and_false,
    Bool.false_eq_true, if_false, pure, Except.pure, Except.ok.injEq] at hload
  rw [← hload]
  exact ⟨rfl, rfl⟩

/-- After any calls, the head of a weight that stays in rows gives the token of the stored logits
exactly when no tie is stale, if the loops that form a logit agree on its input. -/
theorem headTokens_eq_iff {repackOn : Bool} {fresh ctx : NnCpuOpContext} {weight : Mem UInt8}
    (hsize : fresh.weightSize = size2D .q40 (32 * kBlocks) d)
    (hwhole : d * kBlocks * 18 = fresh.weightSize.nBytes)
    (hload : loadWeight repackOn fresh 0 fresh.weightSize.nBytes weight = .ok ctx)
    (hplain : nnRepackSupported repackOn d kBlocks = false) (hrows : d ≤ 2 ^ 24)
    (hpos : 1 ≤ nThreads) (hthreads : nThreads ≤ 64) (calls : List BatchInput)
    (input : BatchInput)
    (hagree : ∀ y < input.batchSize, sums.Agree (plainBlocks weight) kBlocks d (input.row y)) :
    ∃ prevBest tokens,
      argmaxRun sums (plainBlocks ctx.weight) (32 * kBlocks) d nThreads 128 64 calls
        = some prevBest ∧
      headTokens sums ctx nThreads calls input
        = some ((List.range input.batchSize).map tokens) ∧
      ∀ y < input.batchSize,
        (tokens y
            = sampleArgmaxToken
              (logit sums.forwardRow (plainBlocks weight) kBlocks (input.row y)) d ↔
          ¬StaleTie (logit sums.forwardRow (plainBlocks weight) kBlocks (input.row y)) d nThreads
            fun t => remembered (prevBest t) input.batchSize y) := by
  rcases loadWeight_plain hsize hload hplain with ⟨hctxSize, hctxWeight⟩
  have hx : fresh.weightSize.x = d := by rw [hsize]; rfl
  have hy : fresh.weightSize.y = 32 * kBlocks := by rw [hsize]; rfl
  have hfits : d * kBlocks < 2 ^ 32 := by
    have hbytes : fresh.weightSize.nBytes = u32 (1 * (32 * kBlocks) * d) / 32 * 18 := by
      rw [hsize]
      rfl
    have hlt := u32_lt (1 * (32 * kBlocks) * d)
    omega
  -- the blocks of the weight are in the context
  have hblocks : ∀ i < d * kBlocks, plainBlocks ctx.weight i = plainBlocks weight i := by
    intro i hi
    refine loadQ40_congr fun k hk => ?_
    rw [hctxWeight, Mem.store_slice_apply, ← hwhole, if_pos (by omega), Nat.zero_add,
      Nat.sub_zero]
  have hlogits : ∀ (s : RowSum V) (x : Nat → NnBlockQ80), ∀ c < d,
      logit s (plainBlocks ctx.weight) kBlocks x c = logit s (plainBlocks weight) kBlocks x c := by
    intro s x c hc
    refine s.congr _ _ x kBlocks fun j hj => hblocks (c * kBlocks + j) ?_
    have hle := Nat.mul_le_mul_right kBlocks (show c + 1 ≤ d from hc)
    rw [Nat.succ_mul] at hle
    omega
  have hagree' : ∀ y < input.batchSize,
      sums.Agree (plainBlocks ctx.weight) kBlocks d (input.row y) := by
    refine fun y hy => ⟨fun c hc => ?_, fun c hc => ?_⟩
    · rw [hlogits _ _ c hc, hlogits _ _ c hc]
      exact (hagree y hy).dotRow c hc
    · rw [hlogits _ _ c hc, hlogits _ _ c hc]
      exact (hagree y hy).matmulRow c hc
  rcases argmaxRun_isSome sums (w := plainBlocks ctx.weight) (d := d) hthreads calls
    with ⟨prevBest, hrun⟩
  rcases argmaxHead_tokens sums hfits hrows hpos hthreads prevBest hagree'
    with ⟨next, tokens, hhead, htokens⟩
  refine ⟨prevBest, tokens, hrun, ?_, fun y hy => ?_⟩
  · simp only [headTokens, hctxSize, hx, hy, hrun, hhead, Option.bind_eq_bind, Option.bind_some]
    rfl
  · rw [← sampleArgmaxToken_congr (hlogits _ _), ← staleTie_congr (hlogits _ _)]
    exact htokens y hy

/-! ## Where the token is another one -/

def freshContext (d kBlocks : Nat) : NnCpuOpContext where
  weightSize := size2D .q40 (32 * kBlocks) d
  weight := fun _ => 0
  loadedBytes := 0
  isRepacked := false
  isLmHead := true
  hasInputContinuousMemory := true
  hasOutputContinuousMemory := true
  inputZ := 1

/-- Rows of one block with scale 1 that are zero except for the first entry. -/
def firstEntryWeight (first : Nat → UInt8) : Mem UInt8 := fun i =>
  if i % 18 = 0 then 1 else if i % 18 = 1 then 0 else if i % 18 = 2 then first (i / 18) else 0x88

def firstEntryInput (x : Int8) : BatchInput :=
  ⟨1, fun _ _ => ⟨1, fun k => if k.val = 0 then x else 0⟩⟩

def wholeScale (d : UInt16) : Rat := d.toNat

theorem rowProduct_congr (f16 : UInt16 → Rat) (w w' : Nat → NnBlockQ40) (x : Nat → NnBlockQ80)
    (nBlocks : Nat) (h : ∀ j < nBlocks, w j = w' j) :
    rowProduct f16 w x nBlocks = rowProduct f16 w' x nBlocks :=
  Finset.sum_congr rfl fun j hj => by rw [h j (Finset.mem_range.1 hj)]

/-- The sum of a row without rounding. -/
def exactSum (f16 : UInt16 → Rat) : RowSum Rat :=
  ⟨rowProduct f16, rowProduct_congr f16⟩

/-- Small whole numbers, which no loop rounds. -/
def wholeSums : FloatSums Rat :=
  ⟨exactSum wholeScale, exactSum wholeScale, exactSum wholeScale⟩

end Calls

/-- Two rows after they are loaded. -/
def twoRows : NnCpuOpContext :=
  { freshContext 2 1 with
    weight := (freshContext 2 1).weight.store 0 ((firstEntryWeight fun _ => 0x89).slice 0 36)
    loadedBytes := 36 }

theorem headTokens_eq_iff_two :
    ∃ prevBest tokens,
      argmaxRun wholeSums (plainBlocks twoRows.weight) 32 2 2 128 64 [firstEntryInput 1]
        = some prevBest ∧
      headTokens wholeSums twoRows 2 [firstEntryInput 1] (firstEntryInput 3)
        = some ((List.range 1).map tokens) ∧
      ∀ y < 1, (tokens y = sampleArgmaxToken (logit (exactSum wholeScale)
            (plainBlocks (firstEntryWeight fun _ => 0x89)) 1 ((firstEntryInput 3).row y)) 2 ↔
          ¬StaleTie (logit (exactSum wholeScale) (plainBlocks (firstEntryWeight fun _ => 0x89)) 1
            ((firstEntryInput 3).row y)) 2 2 fun t => remembered (prevBest t) 1 y) :=
  headTokens_eq_iff wholeSums
    (show (freshContext 2 1).weightSize = size2D .q40 (32 * 1) 2 from rfl) (by decide)
    (show loadWeight true (freshContext 2 1) 0 _ (firstEntryWeight fun _ => 0x89) = .ok twoRows
      from rfl)
    (by decide) (by decide) (by decide) (by decide) [firstEntryInput 1] (firstEntryInput 3)
    fun _ _ => ⟨fun _ _ => rfl, fun _ _ => rfl⟩

/-- All calls on an op give the tokens of the stored logits. -/
def HeadAgrees {V : Type} [LinearOrder V] (sums : FloatSums V) (repackOn : Bool)
    (fresh : NnCpuOpContext) (weight : Mem UInt8) (d kBlocks nThreads : Nat) : Prop :=
  ∀ ctx, loadWeight repackOn fresh 0 fresh.weightSize.nBytes weight = .ok ctx →
    ∀ calls input, headTokens sums ctx nThreads calls input
      = some ((List.range input.batchSize).map fun y =>
        sampleArgmaxToken (logit sums.forwardRow (plainBlocks weight) kBlocks (input.row y)) d)

/-- The head of a loaded op, if it loads. -/
def loadedTokens (d : Nat) (weight : Mem UInt8) (calls : List BatchInput) (input : BatchInput) :
    Option (List Nat) :=
  ((loadWeight true (freshContext d 1) 0 (freshContext d 1).weightSize.nBytes weight).toOption).bind
    fun ctx => headTokens wholeSums ctx 1 calls input

/-- Four rows are repacked, and the head reads them as if they were not: the largest logit is that
of row 2, the token is 1. -/
theorem loadedTokens_repacked :
    loadedTokens 4 (firstEntryWeight fun r => if r = 2 then 0x8A else 0x89) [] (firstEntryInput 1)
        = some [1] ∧
      sampleArgmaxToken (logit (exactSum wholeScale)
        (plainBlocks (firstEntryWeight fun r => if r = 2 then 0x8A else 0x89)) 1
          ((firstEntryInput 1).row 0)) 4 = 2 := by
  decide +kernel

/-- Two rows stay as they are.  Row 1 wins the first call, and then both logits are zero. -/
theorem loadedTokens_stale :
    loadedTokens 2 (firstEntryWeight fun r => if r = 1 then 0x89 else 0x88) [firstEntryInput 1]
        (firstEntryInput 0) = some [1] ∧
      sampleArgmaxToken (logit (exactSum wholeScale)
        (plainBlocks (firstEntryWeight fun r => if r = 1 then 0x89 else 0x88)) 1
          ((firstEntryInput 0).row 0)) 2 = 0 := by
  decide +kernel

theorem not_headAgrees {d : Nat} {weight : Mem UInt8} {calls : List BatchInput}
    {input : BatchInput} {token : Nat} (h : loadedTokens d weight calls input = some [token])
    (hone : input.batchSize = 1)
    (hne : sampleArgmaxToken
      (logit (exactSum wholeScale) (plainBlocks weight) 1 (input.row 0)) d ≠ token) :
    ¬HeadAgrees wholeSums true (freshContext d 1) weight d 1 1 := by
  intro hagrees
  rw [loadedTokens] at h
  cases hload : loadWeight true (freshContext d 1) 0 (freshContext d 1).weightSize.nBytes
    weight with
  | error e =>
      rw [hload] at h
      cases h
  | ok ctx =>
      rw [hload] at h
      have htokens : headTokens wholeSums ctx 1 calls input = some [token] := h
      rw [hagrees ctx hload calls input, hone] at htokens
      exact hne (List.cons.inj (Option.some.inj htokens)).1

/-- The head of four rows and the head of two rows give other tokens than the logits. -/
theorem head_disagrees :
    ¬HeadAgrees wholeSums true (freshContext 4 1)
        (firstEntryWeight fun r => if r = 2 then 0x8A else 0x89) 4 1 1 ∧
      ¬HeadAgrees wholeSums true (freshContext 2 1)
        (firstEntryWeight fun r => if r = 1 then 0x89 else 0x88) 2 1 1 := by
  constructor
  · apply not_headAgrees loadedTokens_repacked.1 rfl
    rw [loadedTokens_repacked.2]
    decide
  · apply not_headAgrees loadedTokens_stale.1 rfl
    rw [loadedTokens_stale.2]
    decide

end Kernels
end PrefillOpt
