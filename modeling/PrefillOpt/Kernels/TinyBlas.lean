import Mathlib.Algebra.BigOperators.Fin
import Mathlib.Tactic.IntervalCases
import PrefillOpt.AttentionHeads
import PrefillOpt.Kernels.MatmulForward
import PrefillOpt.Lib.Interleaving
import PrefillOpt.Lib.Shards

/-!
# Kernels.TinyBlas — the tiles of `llamafile_sgemm` behind the matmul op

`llamafile/sgemm.cpp`, `mnpack` and `gemm`; `nn-cpu-ops.cpp`, `matmulForward_llamafile` and
`matmulForward_F32_F32_F32`.  `mnpack` puts as many tiles of one size as fit into a rectangle of
outputs and calls itself on the rows below and the columns beside them; the threads share the tiles
of every size among them.  Floats are the elements of a commutative semiring.
-/

namespace PrefillOpt
namespace Kernels
namespace TinyBlas

open Lib

/-! ## Tile sizes -/

/-- The `switch` of `tinyBLAS::mnpack`, with 32 or 16 vector registers. -/
def tile5 (registers32 : Bool) : Nat → Nat → Option (Nat × Nat)
  | 5, 5 => some (if registers32 then (5, 5) else (4, 3))
  | 4, 5 => some (if registers32 then (4, 5) else (4, 3))
  | 5, 4 => some (if registers32 then (5, 4) else (4, 3))
  | 4, 4 => some (if registers32 then (4, 4) else (4, 3))
  | 5, 3 => some (if registers32 then (5, 3) else (4, 3))
  | 3, 5 => some (if registers32 then (3, 5) else (3, 4))
  | 4, 3 => some (4, 3)
  | 3, 4 => some (3, 4)
  | 5, 2 => some (5, 2)
  | 3, 3 => some (3, 3)
  | 2, 5 => some (2, 5)
  | 4, 2 => some (4, 2)
  | 2, 4 => some (2, 4)
  | 3, 2 => some (3, 2)
  | 2, 3 => some (2, 3)
  | 5, 1 => some (5, 1)
  | 4, 1 => some (4, 1)
  | 2, 2 => some (2, 2)
  | 1, 5 => some (1, 5)
  | 1, 4 => some (1, 4)
  | 3, 1 => some (3, 1)
  | 1, 3 => some (1, 3)
  | 2, 1 => some (2, 1)
  | 1, 2 => some (1, 2)
  | 1, 1 => some (1, 1)
  | _, _ => none

/-- A `switch` whose tiles fit into what is left, as long as something is left. -/
structure TileSwitch where
  limit : Nat
  tile : Nat → Nat → Option (Nat × Nat)
  tile_fits : ∀ {a b mc nc : Nat}, tile a b = some (mc, nc) → (0 < mc ∧ mc ≤ a) ∧ 0 < nc ∧ nc ≤ b
  tile_ne_none : ∀ a, 0 < a → a ≤ limit → ∀ b, 0 < b → b ≤ limit → tile a b ≠ none
  limit_pos : 0 < limit

theorem tile5_fits {registers32 : Bool} {a b mc nc : Nat}
    (h : tile5 registers32 a b = some (mc, nc)) : (0 < mc ∧ mc ≤ a) ∧ 0 < nc ∧ nc ≤ b := by
  unfold tile5 at h
  cases registers32 with
  | false => split at h <;> simp_all <;> omega
  | true => split at h <;> simp_all <;> omega

theorem tile5_ne_none (registers32 : Bool) : ∀ a, 0 < a → a ≤ 5 → ∀ b, 0 < b → b ≤ 5 →
    tile5 registers32 a b ≠ none := by
  intro a ha ha' b hb hb'
  interval_cases a <;> interval_cases b <;> exact Option.some_ne_none _

theorem tile5_limit_pos : 0 < 5 := Nat.succ_pos 4

def floatTiles (registers32 : Bool) : TileSwitch :=
  ⟨5, tile5 registers32, tile5_fits, tile5_ne_none registers32, tile5_limit_pos⟩

/-! ## Tiles -/

/-- A call `gemm<RM, RN>(m0, m, n0, n)`. -/
structure Gemm where
  RM : Nat
  RN : Nat
  m0 : Nat
  m : Nat
  n0 : Nat
  n : Nat
  deriving DecidableEq, Repr

namespace Gemm

variable (g : Gemm)

def ytiles : Nat := (g.m - g.m0) / g.RM

def xtiles : Nat := (g.n - g.n0) / g.RN

def tiles : Nat := g.xtiles * g.ytiles

/-- The jobs of a thread. -/
def jobs (nth ith : Nat) : List Nat :=
  let duty := (g.tiles + nth - 1) / nth
  let start := duty * ith
  -- a thread behind the last tile has none
  List.range' start (min (start + duty) g.tiles - start)

/-- The outputs of a job, in the order of its stores. -/
def cells (job : Nat) : List (Nat × Nat) :=
  let ii := g.m0 + job / g.xtiles * g.RM
  let jj := g.n0 + job % g.xtiles * g.RN
  (List.range g.RN).flatMap fun j => (List.range g.RM).map fun i => (ii + i, jj + j)

end Gemm

/-- The calls that `mnpack` makes. -/
def mnpack (T : TileSwitch) (m0 m n0 n : Nat) : List Gemm :=
  match _h : T.tile (min (m - m0) T.limit) (min (n - n0) T.limit) with
  | none => []
  | some (mc, nc) =>
      let mp := m0 + (m - m0) / mc * mc
      let np := n0 + (n - n0) / nc * nc
      -- the tiles, the rows below them, the columns beside both
      ⟨mc, nc, m0, m, n0, n⟩ :: (mnpack T mp m n0 np ++ mnpack T m0 m np n)
termination_by (m - m0) + (n - n0)
decreasing_by
  -- a tile is not empty, so at least one of its rows or columns is done
  · have hfits := T.tile_fits _h
    have hrows : mc ≤ m - m0 := hfits.1.2.trans (min_le_left _ _)
    have hmc : mc ≤ (m - m0) / mc * mc :=
      Nat.le_mul_of_pos_left mc (Nat.div_pos hrows hfits.1.1)
    have hnp := Nat.div_mul_le_self (n - n0) nc
    omega
  · have hfits := T.tile_fits _h
    have hcols : nc ≤ n - n0 := hfits.2.2.trans (min_le_left _ _)
    have hnc : nc ≤ (n - n0) / nc * nc :=
      Nat.le_mul_of_pos_left nc (Nat.div_pos hcols hfits.2.1)
    omega

section Equations

variable {T : TileSwitch} {m0 m n0 n : Nat}

theorem mnpack_of_none (h : T.tile (min (m - m0) T.limit) (min (n - n0) T.limit) = none) :
    mnpack T m0 m n0 n = [] := by
  rw [mnpack]
  split
  · rfl
  · rename_i hsome
    rw [h] at hsome
    cases hsome

theorem mnpack_of_some {mc nc : Nat}
    (h : T.tile (min (m - m0) T.limit) (min (n - n0) T.limit) = some (mc, nc)) :
    mnpack T m0 m n0 n = ⟨mc, nc, m0, m, n0, n⟩
      :: (mnpack T (m0 + (m - m0) / mc * mc) m n0 (n0 + (n - n0) / nc * nc)
        ++ mnpack T m0 m (n0 + (n - n0) / nc * nc) n) := by
  rw [mnpack]
  split
  · rename_i hnone
    rw [h] at hnone
    cases hnone
  · rename_i hsome
    rw [h] at hsome
    cases hsome
    rfl

end Equations

/-! ## Rectangles of outputs -/

/-- Rows `[a, b)` and columns `[c, d)`. -/
def rect (a b c d : Nat) : List (Nat × Nat) :=
  (List.range' c (d - c)).flatMap fun j => (List.range' a (b - a)).map fun i => (i, j)

theorem mem_rect {a b c d : Nat} {e : Nat × Nat} :
    e ∈ rect a b c d ↔ (a ≤ e.1 ∧ e.1 < b) ∧ c ≤ e.2 ∧ e.2 < d := by
  rcases e with ⟨i, j⟩
  simp only [rect, List.mem_flatMap, List.mem_map, List.mem_range'_1, Prod.mk.injEq]
  constructor
  · rintro ⟨j', hj, i', hi, rfl, rfl⟩
    omega
  · rintro ⟨hi, hj⟩
    exact ⟨j, by omega, i, by omega, rfl, rfl⟩

/-- Columns beside each other. -/
theorem rect_append_columns {a b c e d : Nat} (hce : c ≤ e) (hed : e ≤ d) :
    rect a b c e ++ rect a b e d = rect a b c d := by
  have hsplit : List.range' c (d - c) = List.range' c (e - c) ++ List.range' e (d - e) := by
    have happend := @List.range'_append_1 c (e - c) (d - e)
    rw [show c + (e - c) = e by omega, show e - c + (d - e) = d - c by omega] at happend
    exact happend.symm
  rw [rect, rect, rect, hsplit, List.flatMap_append]

/-- Rows below each other. -/
theorem rect_append_rows {a e b c d : Nat} (hae : a ≤ e) (heb : e ≤ b) :
    (rect a e c d ++ rect e b c d).Perm (rect a b c d) := by
  have hsplit : List.range' a (b - a) = List.range' a (e - a) ++ List.range' e (b - e) := by
    have happend := @List.range'_append_1 a (e - a) (b - e)
    rw [show a + (e - a) = e by omega, show e - a + (b - e) = b - a by omega] at happend
    exact happend.symm
  simp only [rect, hsplit, List.map_append]
  exact List.flatMap_append_perm ..

/-- Blocks of `k` lists, one after the other. -/
theorem flatMap_flatMap_blocks {τ : Type} (n k : Nat) (f : Nat → List τ) :
    ((List.range n).flatMap fun r => (List.range k).flatMap fun i => f (r * k + i))
      = (List.range (n * k)).flatMap f := by
  have hblocks := congrArg (List.flatMap f) (flatMap_blocks n k fun i => i)
  simpa only [List.flatMap_assoc, List.flatMap_map] using hblocks

/-- The tiles of one size make up a rectangle. -/
theorem cells_perm {g : Gemm} :
    ((List.range g.tiles).flatMap g.cells).Perm
      (rect g.m0 (g.m0 + g.ytiles * g.RM) g.n0 (g.n0 + g.xtiles * g.RN)) := by
  -- job by job: tile row by tile row
  have hjobs : (List.range g.tiles).flatMap g.cells
      = (List.range g.ytiles).flatMap fun y => (List.range g.xtiles).flatMap fun x =>
          (List.range g.RN).flatMap fun j => (List.range g.RM).map fun i =>
            (g.m0 + (y * g.RM + i), g.n0 + (x * g.RN + j)) := by
    rw [Gemm.tiles, Nat.mul_comm, ← flatMap_flatMap_blocks g.ytiles g.xtiles]
    refine List.flatMap_congr fun y _ => ?_
    refine List.flatMap_congr fun x hx => ?_
    have hx := List.mem_range.1 hx
    have hdiv : (y * g.xtiles + x) / g.xtiles = y := by
      rw [Nat.mul_comm, Nat.mul_add_div (by omega), Nat.div_eq_of_lt hx, Nat.add_zero]
    have hmod : (y * g.xtiles + x) % g.xtiles = x := by
      rw [Nat.mul_comm, Nat.mul_add_mod, Nat.mod_eq_of_lt hx]
    simp only [Gemm.cells, hdiv, hmod, Nat.add_assoc]
  -- all rows of a column
  have hrows (J : Nat) : ((List.range g.ytiles).flatMap fun y => (List.range g.RM).map fun i =>
      (g.m0 + (y * g.RM + i), J))
        = (List.range' g.m0 (g.ytiles * g.RM)).map fun i => (i, J) := by
    have hblocks := flatMap_blocks g.ytiles g.RM fun i => (g.m0 + i, J)
    rw [hblocks, List.range'_eq_map_range, List.map_map]
    rfl
  -- all columns
  have hcolumns : rect g.m0 (g.m0 + g.ytiles * g.RM) g.n0 (g.n0 + g.xtiles * g.RN)
      = (List.range g.xtiles).flatMap fun x => (List.range g.RN).flatMap fun j =>
          (List.range g.ytiles).flatMap fun y => (List.range g.RM).map fun i =>
            (g.m0 + (y * g.RM + i), g.n0 + (x * g.RN + j)) := by
    have hblocks := flatMap_flatMap_blocks g.xtiles g.RN fun j =>
      (List.range' g.m0 (g.ytiles * g.RM)).map fun i => (i, g.n0 + j)
    simp only [hrows]
    rw [hblocks, rect, Nat.add_sub_cancel_left, Nat.add_sub_cancel_left,
      @List.range'_eq_map_range g.n0, List.flatMap_map]
  rw [hjobs, hcolumns]
  refine (flatMap_comm _ _ _).trans ?_
  exact List.Perm.flatMap_left _ fun x _ => flatMap_comm _ _ _

/-! ## All tiles -/

section Tiles

variable {T : TileSwitch}

/-- The calls of `mnpack` compute every output of its rectangle once. -/
theorem mnpack_perm {m0 m n0 n : Nat} (hm : m0 ≤ m) (hn : n0 ≤ n) :
    ((mnpack T m0 m n0 n).flatMap fun g => (List.range g.tiles).flatMap g.cells).Perm
      (rect m0 m n0 n) := by
  induction m0, n0, n using mnpack.induct T m with
  | case1 m0 n0 n hnone =>
      -- the `switch` has a tile as long as there is a row and a column
      have hempty : m = m0 ∨ n = n0 := by
        by_contra hne
        push Not at hne
        have hlimit := T.limit_pos
        exact T.tile_ne_none _ (by omega) (min_le_right _ _) _ (by omega) (min_le_right _ _) hnone
      rw [mnpack_of_none hnone]
      rcases hempty with rfl | rfl
      · simp [rect]
      · simp [rect]
  | case2 m0 n0 n mc nc hsome mp np ih₁ ih₂ =>
      -- the three parts make up the rectangle: rows below the tiles first, then the columns
      have hfits := T.tile_fits hsome
      have hmp : mp ≤ m := by
        have := Nat.div_mul_le_self (m - m0) mc
        omega
      have hnp : np ≤ n := by
        have := Nat.div_mul_le_self (n - n0) nc
        omega
      have hmp₀ : m0 ≤ mp := Nat.le_add_right ..
      have hnp₀ : n0 ≤ np := Nat.le_add_right ..
      rw [mnpack_of_some hsome, List.flatMap_cons, List.flatMap_append]
      have hhead : ((List.range (Gemm.tiles ⟨mc, nc, m0, m, n0, n⟩)).flatMap
          (Gemm.cells ⟨mc, nc, m0, m, n0, n⟩)).Perm (rect m0 mp n0 np) := cells_perm
      refine (hhead.append ((ih₁ hmp hnp₀).append (ih₂ hm hnp))).trans ?_
      rw [← List.append_assoc, ← rect_append_columns hnp₀ hnp]
      exact (rect_append_rows hmp₀ hmp).append_right _

/-- The threads share the tiles of a call. -/
theorem jobs_flatMap (g : Gemm) {nth : Nat} (hnth : 0 < nth) :
    (List.range nth).flatMap (g.jobs nth) = List.range g.tiles := by
  have hduty : g.tiles ≤ nth * ((g.tiles + nth - 1) / nth) := by
    have hdiv := Nat.div_add_mod (g.tiles + nth - 1) nth
    have hmod := Nat.mod_lt (g.tiles + nth - 1) hnth
    omega
  rw [← flatMap_chunks hduty]
  refine List.flatMap_congr fun ith _ => ?_
  have hstart : (g.tiles + nth - 1) / nth * ith = ith * ((g.tiles + nth - 1) / nth) :=
    Nat.mul_comm ..
  simp only [Gemm.jobs, hstart]
  congr 1
  generalize ith * ((g.tiles + nth - 1) / nth) = start
  generalize (g.tiles + nth - 1) / nth = duty
  omega

end Tiles

/-- The outputs of a thread, in the order of its stores. -/
def thread (T : TileSwitch) (m n nth ith : Nat) : List (Nat × Nat) :=
  (mnpack T 0 m 0 n).flatMap fun g => (g.jobs nth ith).flatMap g.cells

/-- Together the threads compute every output once. -/
theorem threads_perm (T : TileSwitch) (m n : Nat) {nth : Nat} (hnth : 0 < nth) :
    ((List.range nth).flatMap (thread T m n nth)).Perm (rect 0 m 0 n) := by
  refine (flatMap_comm _ _ _).trans (List.Perm.trans ?_ (mnpack_perm (T := T) (Nat.zero_le m)
    (Nat.zero_le n)))
  refine List.Perm.of_eq (List.flatMap_congr fun g _ => ?_)
  rw [← List.flatMap_assoc, jobs_flatMap g hnth]

/-! ## Products -/

/-- What the code is compiled for. -/
inductive Build where
  | avx512
  | avx2
  | avx
  | neon
  | scalar
  deriving DecidableEq, Repr

/-- The lanes of `llamafile_sgemm`. -/
def Build.KN : Build → Nat
  | .avx512 => 16
  | .avx2 => 8
  | .avx => 8
  | .neon => 4
  | .scalar => 1

/-- The lanes of `matmul_F32_F32_F32`. -/
def Build.rowLanes : Build → Nat
  | .avx512 => 8
  | .avx2 => 8
  | .avx => 1
  | .neon => 4
  | .scalar => 1

def Build.tiles : Build → TileSwitch
  | .avx512 => floatTiles true
  | .avx2 => floatTiles false
  | .avx => floatTiles false
  | .neon => floatTiles true
  | .scalar => floatTiles false

/-- Whether `llamafile_sgemm` takes a product of `F_32` matrices on. -/
def Build.serves (build : Build) (n k : Nat) : Bool :=
  if build = .scalar ∨ (build = .neon ∧ n < 4) then false else k % build.KN == 0

theorem Build.KN_pos (build : Build) : 0 < build.KN := by
  cases build <;> exact Nat.succ_pos _

theorem Build.rowLanes_pos (build : Build) : 0 < build.rowLanes := by
  cases build <;> exact Nat.succ_pos _

theorem Build.KN_dvd {build : Build} {n k : Nat} (h : build.serves n k = true) : build.KN ∣ k := by
  unfold serves at h
  split at h
  · cases h
  · exact Nat.dvd_of_mod_eq_zero (beq_iff_eq.1 h)

section Values

variable {F : Type} [CommSemiring F]

/-- `Cv[j][i]` after the loop over `l`, lane by lane. -/
def accumulator (KN k : Nat) (a b : Mem F) : Nat → F :=
  (List.range ((k + KN - 1) / KN)).foldl
    (fun Cv l lane => a (l * KN + lane) * b (l * KN + lane) + Cv lane) fun _ => 0

def hsum (KN : Nat) (Cv : Nat → F) : F := ∑ lane ∈ Finset.range KN, Cv lane

theorem accumulator_apply (KN k : Nat) (a b : Mem F) (lane : Nat) :
    accumulator KN k a b lane
      = ∑ l ∈ Finset.range ((k + KN - 1) / KN), a (l * KN + lane) * b (l * KN + lane) := by
  unfold accumulator
  induction (k + KN - 1) / KN with
  | zero => rfl
  | succ q ih =>
      rw [List.range_succ, List.foldl_append, List.foldl_cons, List.foldl_nil, ih,
        Finset.sum_range_succ, add_comm]

/-- Lanes that divide the length leave nothing over. -/
theorem hsum_accumulator {KN k : Nat} (hKN : 0 < KN) (hdvd : KN ∣ k) (a b : Mem F) :
    hsum KN (accumulator KN k a b) = ∑ l ∈ Finset.range k, a l * b l := by
  rcases hdvd with ⟨q, rfl⟩
  have hturns : (KN * q + KN - 1) / KN = q := by
    rw [Nat.add_sub_assoc hKN, Nat.mul_add_div hKN, Nat.div_eq_of_lt (by omega), Nat.add_zero]
  simp only [hsum, accumulator_apply, hturns]
  rw [Finset.sum_comm, Nat.mul_comm KN, ← sum_blocks]

/-- The stores of one thread of `llamafile_sgemm`: an address relative to `C` and a float. -/
def sgemmThread (build : Build) (m n k : Nat) (A : Mem F) (lda : Nat) (B : Mem F) (ldb ldc : Nat)
    (nth ith : Nat) : List (Nat × F) :=
  (thread build.tiles m n nth ith).map fun c =>
    (ldc * c.2 + c.1, hsum build.KN (accumulator build.KN k (fun l => A (lda * c.1 + l))
      fun l => B (ldb * c.2 + l)))

/-- Where the rows of the input and of the output start, counted in floats. -/
structure RowPointers where
  input : Nat → Nat
  output : Nat → Nat

/-- `matmulForward_llamafile` of one thread on matrices of `F_32`; `none` where it leaves the op to
the row kernel. -/
def matmulForward_llamafile (build : Build) (g : CpuRowState) (isDecodePhase : Bool)
    (ctx : NnCpuOpContext) (rows : RowPointers) (weight input : Mem F)
    (nThreads threadIndex batchSize : Nat) : Option (List (Nat × F)) :=
  if !ctx.hasInputContinuousMemory || !ctx.hasOutputContinuousMemory || ctx.inputZ != 1 then none
  else
    let n := ctx.weightSize.y
    let d := ctx.weightSize.x
    let (rowBegin, rowCount) := lmHeadRowRange g isDecodePhase ctx.isLmHead batchSize
    if build.serves rowCount n then
      some ((sgemmThread build d rowCount n weight n
        (fun i => input (rows.input 0 + rowBegin * n + i)) n d nThreads threadIndex).map
          fun s => (rows.output 0 + rowBegin * d + s.1, s.2))
    else none

/-- The loop of `matmul_F32_F32_F32` over the rows of the weight of one thread.  The index
`i * n + j` is an `NnUint` in the source and exact where the weight has at most `2 ^ 32` numbers,
which `size3D` keeps within `NnUint`. -/
def rowKernel (lanes n d : Nat) (x w : Mem F) (nThreads threadIndex : Nat) : List (Nat × F) :=
  let (start, stop) := splitThreads d nThreads threadIndex
  (List.range' start (stop - start)).map fun i =>
    (i, hsum lanes (accumulator lanes n x fun j => w (i * n + j)))

/-- `matmulForward_F32_F32_F32` of one thread, without experts. -/
def matmulForward_F32_F32_F32 (build : Build) (g : CpuRowState) (isDecodePhase : Bool)
    (ctx : NnCpuOpContext) (rows : RowPointers) (weight input : Mem F)
    (nThreads threadIndex batchSize : Nat) : List (Nat × F) :=
  match matmulForward_llamafile build g isDecodePhase ctx rows weight input nThreads threadIndex
    batchSize with
  | some stores => stores
  -- the row kernel takes every row of the batch, not only those of the window
  | none => (List.range batchSize).flatMap fun y =>
      (rowKernel build.rowLanes ctx.weightSize.y ctx.weightSize.x
        (fun j => input (rows.input y + j)) weight nThreads threadIndex).map
          fun s => (rows.output y + s.1, s.2)

/-! ## Runs of the threads -/

/-- A store. -/
def putStore (m : Mem F) (s : Nat × F) : Mem F := Function.update m s.1 s.2

omit [CommSemiring F] in
/-- Where all stores to an address agree, it does not matter which one comes last. -/
theorem runTrace_putStore {τ : Type} {trace : List (τ × (Nat × F))} {a : Nat} {v : F}
    (hval : ∀ e ∈ trace, e.2.1 = a → e.2.2 = v) (hex : ∃ e ∈ trace, e.2.1 = a) (m : Mem F) :
    runTrace putStore m trace a = v := by
  induction trace generalizing m with
  | nil =>
      rcases hex with ⟨e, he, -⟩
      cases he
  | cons e trace ih =>
      by_cases htail : ∃ e ∈ trace, e.2.1 = a
      · exact ih (fun e' he' => hval e' (List.mem_cons_of_mem e he')) htail (putStore m e.2)
      · have hhead : e.2.1 = a := by
          rcases hex with ⟨e', he', haddr⟩
          rcases List.mem_cons.1 he' with rfl | he'
          · exact haddr
          · exact absurd ⟨e', he', haddr⟩ htail
        have hrest : runTrace putStore (putStore m e.2) trace a = putStore m e.2 a :=
          runTrace_frame putStore (fun t s hs m' =>
            Function.update_of_ne (fun h => htail ⟨(t, s), hs, h.symm⟩) _ _) (putStore m e.2)
        refine hrest.trans ?_
        rw [putStore, hhead, Function.update_self]
        exact hval e List.mem_cons_self hhead

/-- The program of the threads of an op; other threads do not exist. -/
def opThreads (nThreads : Nat) (program : Nat → List (Nat × F)) (threadIndex : Nat) :
    List (Nat × F) :=
  if threadIndex < nThreads then program threadIndex else []

/-! ## The op -/

/-- What the op relies on: pointers of rows that follow each other where the context says so, and
rows of the output apart from each other. -/
structure RowPointers.Valid (rows : RowPointers) (ctx : NnCpuOpContext) (batchSize : Nat) :
    Prop where
  input : ctx.hasInputContinuousMemory = true →
    ∀ y < batchSize, rows.input y = rows.input 0 + y * ctx.weightSize.y
  output : ctx.hasOutputContinuousMemory = true →
    ∀ y < batchSize, rows.output y = rows.output 0 + y * ctx.weightSize.x
  apart : ∀ y < batchSize, ∀ y' < batchSize, ∀ i < ctx.weightSize.x, ∀ i' < ctx.weightSize.x,
    rows.output y + i = rows.output y' + i' → y = y' ∧ i = i'

theorem window_le {g : CpuRowState} (hrank : g.cpRank < g.cpSize) (isDecodePhase isLmHead : Bool)
    {batchSize y : Nat}
    (h : y < (lmHeadRowRange g isDecodePhase isLmHead batchSize).1
      + (lmHeadRowRange g isDecodePhase isLmHead batchSize).2) : y < batchSize := by
  unfold lmHeadRowRange at h
  split at h
  · rename_i hlast
    simp only [Bool.and_eq_true, decide_eq_true_eq] at hlast
    omega
  · have hactive := Network.lt_activeRowCount_of_lt_window hrank h
    unfold activeRowCount at hactive
    split at hactive <;> omega

section Op

variable {build : Build} {g : CpuRowState} {isDecodePhase : Bool} {ctx : NnCpuOpContext}
  {rows : RowPointers} {weight input : Mem F} {nThreads threadIndex batchSize : Nat}

/-- The float of row `y` for row `i` of the weight. -/
def product (ctx : NnCpuOpContext) (rows : RowPointers) (weight input : Mem F) (y i : Nat) : F :=
  dotRow ctx.weightSize.y (fun i j => weight (i * ctx.weightSize.y + j))
    (fun j => input (rows.input y + j)) i

theorem mem_rowKernel {lanes n d : Nat} (hlanes : 0 < lanes) (hdvd : lanes ∣ n) {x w : Mem F}
    {s : Nat × F} :
    s ∈ rowKernel lanes n d x w nThreads threadIndex ↔
      (blockStart d nThreads threadIndex ≤ s.1 ∧
        s.1 < blockStart d nThreads threadIndex + blockCount d nThreads threadIndex) ∧
      s.2 = dotRow n (fun i j => w (i * n + j)) x s.1 := by
  have hvalue (i : Nat) : hsum lanes (accumulator lanes n x fun j => w (i * n + j))
      = dotRow n (fun i j => w (i * n + j)) x i := by
    rw [hsum_accumulator hlanes hdvd, dotRow]
    exact Finset.sum_congr rfl fun j _ => mul_comm ..
  simp only [rowKernel, splitThreads_eq, List.mem_map, List.mem_range'_1, Nat.add_sub_cancel_left,
    hvalue]
  constructor
  · rintro ⟨i, hi, rfl⟩
    exact ⟨hi, rfl⟩
  · rintro ⟨hi, hs⟩
    exact ⟨s.1, hi, by rw [← hs]⟩

theorem mem_thread {T : TileSwitch} {m n : Nat} {c : Nat × Nat} (hthreads : 0 < nThreads) :
    (∃ t < nThreads, c ∈ thread T m n nThreads t) ↔ c.1 < m ∧ c.2 < n := by
  have hperm := (threads_perm T m n hthreads).mem_iff (a := c)
  rw [mem_rect, List.mem_flatMap] at hperm
  simpa using hperm

/-- Whether the tiles serve the op. -/
def ServedByTiles (build : Build) (g : CpuRowState) (isDecodePhase : Bool) (ctx : NnCpuOpContext)
    (batchSize : Nat) : Prop :=
  (ctx.hasInputContinuousMemory = true ∧ ctx.hasOutputContinuousMemory = true ∧ ctx.inputZ = 1) ∧
    build.serves (lmHeadRowRange g isDecodePhase ctx.isLmHead batchSize).2 ctx.weightSize.y = true

theorem matmulForward_of_served (h : ServedByTiles build g isDecodePhase ctx batchSize) :
    matmulForward_F32_F32_F32 build g isDecodePhase ctx rows weight input nThreads threadIndex
        batchSize
      = (thread build.tiles ctx.weightSize.x
          (lmHeadRowRange g isDecodePhase ctx.isLmHead batchSize).2 nThreads threadIndex).map
        fun c => (rows.output 0
            + (lmHeadRowRange g isDecodePhase ctx.isLmHead batchSize).1 * ctx.weightSize.x
            + (ctx.weightSize.x * c.2 + c.1),
          hsum build.KN (accumulator build.KN ctx.weightSize.y
            (fun l => weight (ctx.weightSize.y * c.1 + l)) fun l => input (rows.input 0
              + (lmHeadRowRange g isDecodePhase ctx.isLmHead batchSize).1 * ctx.weightSize.y
              + (ctx.weightSize.y * c.2 + l)))) := by
  rcases h with ⟨⟨hin, hout, hz⟩, hserves⟩
  simp only [matmulForward_F32_F32_F32, matmulForward_llamafile, hin, hout, hz, hserves,
    sgemmThread, List.map_map]
  rfl

theorem matmulForward_of_not_served (h : ¬ServedByTiles build g isDecodePhase ctx batchSize) :
    matmulForward_F32_F32_F32 build g isDecodePhase ctx rows weight input nThreads threadIndex
        batchSize
      = (List.range batchSize).flatMap fun y =>
          (rowKernel build.rowLanes ctx.weightSize.y ctx.weightSize.x
            (fun j => input (rows.input y + j)) weight nThreads threadIndex).map
              fun s => (rows.output y + s.1, s.2) := by
  have hnone : matmulForward_llamafile build g isDecodePhase ctx rows weight input nThreads
      threadIndex batchSize = none := by
    unfold matmulForward_llamafile
    split
    · rfl
    · rename_i hguard
      refine if_neg fun hserves => h ⟨?_, hserves⟩
      simpa [and_assoc] using hguard
  simp only [matmulForward_F32_F32_F32, hnone]

/-- An output of a tile: its address and its float. -/
theorem tileStore_eq (hrank : g.cpRank < g.cpSize)
    (h : ServedByTiles build g isDecodePhase ctx batchSize) (hrows : rows.Valid ctx batchSize)
    {y i : Nat} (hy : y < (lmHeadRowRange g isDecodePhase ctx.isLmHead batchSize).2) :
    (rows.output 0 + (lmHeadRowRange g isDecodePhase ctx.isLmHead batchSize).1 * ctx.weightSize.x
        + (ctx.weightSize.x * y + i),
      hsum build.KN (accumulator build.KN ctx.weightSize.y
        (fun l => weight (ctx.weightSize.y * i + l)) fun l => input (rows.input 0
          + (lmHeadRowRange g isDecodePhase ctx.isLmHead batchSize).1 * ctx.weightSize.y
          + (ctx.weightSize.y * y + l))))
      = (rows.output ((lmHeadRowRange g isDecodePhase ctx.isLmHead batchSize).1 + y) + i,
          product ctx rows weight input
            ((lmHeadRowRange g isDecodePhase ctx.isLmHead batchSize).1 + y) i) := by
  have hbatch := window_le hrank isDecodePhase ctx.isLmHead (Nat.add_lt_add_left hy _)
  have hin := hrows.input h.1.1 _ hbatch
  have hout := hrows.output h.1.2.1 _ hbatch
  rw [hsum_accumulator build.KN_pos (Build.KN_dvd h.2), product, dotRow, hin, hout]
  refine congrArg₂ Prod.mk ?_ (Finset.sum_congr rfl fun l _ => ?_)
  · ring
  · refine congrArg₂ (· * ·) (congrArg weight ?_) (congrArg input ?_)
    · ring
    · ring

/-- A store puts a product in its place. -/
theorem mem_matmulForward (hrank : g.cpRank < g.cpSize) (ht : threadIndex < nThreads)
    (hlanes : build.rowLanes ∣ ctx.weightSize.y) (hrows : rows.Valid ctx batchSize) {s : Nat × F}
    (hs : s ∈ matmulForward_F32_F32_F32 build g isDecodePhase ctx rows weight input nThreads
      threadIndex batchSize) :
    ∃ y < batchSize, ∃ i < ctx.weightSize.x,
      s = (rows.output y + i, product ctx rows weight input y i) := by
  by_cases h : ServedByTiles build g isDecodePhase ctx batchSize
  · rw [matmulForward_of_served h] at hs
    rcases List.mem_map.1 hs with ⟨c, hc, rfl⟩
    rcases (mem_thread (Nat.zero_lt_of_lt ht)).1 ⟨threadIndex, ht, hc⟩ with ⟨hi, hy⟩
    exact ⟨_, window_le hrank isDecodePhase ctx.isLmHead (Nat.add_lt_add_left hy _), c.1, hi,
      tileStore_eq hrank h hrows hy⟩
  · rw [matmulForward_of_not_served h] at hs
    rcases List.mem_flatMap.1 hs with ⟨y, hy, hs⟩
    rcases List.mem_map.1 hs with ⟨e, he, rfl⟩
    rcases (mem_rowKernel build.rowLanes_pos hlanes).1 he with ⟨hblock, hvalue⟩
    exact ⟨y, List.mem_range.1 hy, e.1, hblock.2.trans_le (blockStart_add_blockCount_le ht),
      by rw [hvalue, product]⟩

/-- Every output of the window has a thread that stores it. -/
theorem exists_mem_matmulForward (hrank : g.cpRank < g.cpSize) (hthreads : 0 < nThreads)
    (hlanes : build.rowLanes ∣ ctx.weightSize.y) (hrows : rows.Valid ctx batchSize) {y i : Nat}
    (hy : y ∈ Set.Ico (lmHeadRowRange g isDecodePhase ctx.isLmHead batchSize).1
      ((lmHeadRowRange g isDecodePhase ctx.isLmHead batchSize).1
        + (lmHeadRowRange g isDecodePhase ctx.isLmHead batchSize).2))
    (hi : i < ctx.weightSize.x) :
    ∃ t < nThreads, (rows.output y + i, product ctx rows weight input y i)
      ∈ matmulForward_F32_F32_F32 build g isDecodePhase ctx rows weight input nThreads t
        batchSize := by
  have hbatch := window_le hrank isDecodePhase ctx.isLmHead hy.2
  by_cases h : ServedByTiles build g isDecodePhase ctx batchSize
  · rcases Nat.exists_eq_add_of_le hy.1 with ⟨z, rfl⟩
    have hz := Nat.lt_of_add_lt_add_left hy.2
    rcases (mem_thread (T := build.tiles) (c := (i, z)) hthreads).2 ⟨hi, hz⟩ with ⟨t, ht, hc⟩
    refine ⟨t, ht, ?_⟩
    rw [matmulForward_of_served h, ← tileStore_eq hrank h hrows hz]
    exact List.mem_map.2 ⟨(i, z), hc, rfl⟩
  · rcases exists_block hthreads hi with ⟨t, ht, hblock⟩
    refine ⟨t, ht, ?_⟩
    rw [matmulForward_of_not_served h]
    refine List.mem_flatMap.2 ⟨y, List.mem_range.2 hbatch, List.mem_map.2 ⟨(i, _), ?_, rfl⟩⟩
    exact (mem_rowKernel build.rowLanes_pos hlanes).2 ⟨hblock, rfl⟩

end Op

end Values

/-- A weight of five rows of eight floats. -/
def fiveByEight : NnCpuOpContext where
  weightSize := ⟨.f32, 1, 8, 5, 40, 160, 160⟩
  weight := fun _ => 0
  loadedBytes := 160
  isRepacked := false
  isLmHead := false
  hasInputContinuousMemory := true
  hasOutputContinuousMemory := true
  inputZ := 1

def rowsOfFiveByEight : RowPointers := ⟨fun y => y * 8, fun y => y * 5⟩

theorem rowsOfFiveByEight_valid (batchSize : Nat) :
    rowsOfFiveByEight.Valid fiveByEight batchSize := by
  refine ⟨fun _ y _ => ?_, fun _ y _ => ?_, fun y _ y' _ i hi i' hi' h => ?_⟩
  · simp [rowsOfFiveByEight, fiveByEight]
  · simp [rowsOfFiveByEight, fiveByEight]
  · simp only [rowsOfFiveByEight, fiveByEight] at hi hi' h
    omega

end TinyBlas
end Kernels
end PrefillOpt
