import Mathlib.Data.Finset.Lattice.Fold
import Mathlib.Data.Rat.Floor
import Mathlib.Tactic.IntervalCases
import PrefillOpt.Lib.Rounding

/-!
# Kernels.QuantizeQ80 — the three builds of the Q80 quantiser

`quantizeF32toQ80` of `nn-quants.cpp`, a block of 32 values at a time: for NEON, for AVX2 and
without vectors.  Floats are the elements of an ordered field with a floor, so products and the
scale are exact; what remains is how a code is rounded to an `int8_t`.
-/

namespace PrefillOpt
namespace Quants

open Lib

section Defs

variable {R : Type} [Field R] [LinearOrder R] [FloorRing R]

/-- The scale and the 32 codes. -/
structure NnBlockQ80 (R : Type) where
  d : R
  qs : Nat → Int

inductive Build where
  | neon
  | avx2
  | scalar
deriving DecidableEq, Repr

/-! ## The largest magnitude -/

/-- Lane `l` of the vector that runs over the block. -/
def laneMax (lanes : Nat) (x : Nat → R) (l : Nat) : R :=
  (List.range (32 / lanes)).foldl (fun amax k => max amax |x (k * lanes + l)|) 0

/-- `vmaxvq_f32` -/
def neonAmax (x : Nat → R) : R :=
  max (max (laneMax 4 x 0) (laneMax 4 x 1)) (max (laneMax 4 x 2) (laneMax 4 x 3))

/-- The halves, the quarters and the eighths of the vector against each other. -/
def avx2Amax (x : Nat → R) : R :=
  let max_128 (i : Nat) : R := max (laneMax 8 x (i + 4)) (laneMax 8 x i)
  let max_64 (i : Nat) : R := max (max_128 i) (max_128 (i + 2))
  max (max_64 0) (max_64 1)

def scalarAmax (x : Nat → R) : R :=
  (List.range 32).foldl (fun amax j => if |x j| < amax then amax else |x j|) 0

/-! ## The codes -/

/-- A narrowing that stops at the ends of the type. -/
def saturate (bits : Nat) (z : Int) : Int :=
  max (-2 ^ (bits - 1)) (min (2 ^ (bits - 1) - 1) z)

/-- `vbslq_f32` selects 0.5 or -0.5. -/
def neonCode (vec : R) : Int :=
  let vec_i32 := saturate 32 (truncate (addSignedHalf vec))
  saturate 8 (saturate 16 vec_i32)

/-- The shuffle keeps the low byte of an `int32_t`. -/
def avx2Code (scaled : R) : Int :=
  (roundEven scaled).bmod 256

def scalarCode (scaled : R) : Int :=
  roundAway scaled

/-- What the builds have in common. -/
def quantizeBlock (amax : R) (code : R → Int) (x : Nat → R) : NnBlockQ80 R :=
  let d := amax / 127
  let id := if d ≠ 0 then 1 / d else 0
  ⟨d, fun j => code (x j * id)⟩

def quantizeF32toQ80 (build : Build) (x : Nat → R) : NnBlockQ80 R :=
  match build with
  | .neon => quantizeBlock (neonAmax x) neonCode x
  | .avx2 => quantizeBlock (avx2Amax x) avx2Code x
  | .scalar => quantizeBlock (scalarAmax x) scalarCode x

def dequantizeQ80toF32 (b : NnBlockQ80 R) : Nat → R :=
  fun j => b.qs j * b.d

end Defs

theorem block_nonempty : (Finset.range 32).Nonempty :=
  ⟨0, by decide⟩

/-- The largest magnitude of a block. -/
def blockMax {R : Type} [Field R] [LinearOrder R] (x : Nat → R) : R :=
  (Finset.range 32).sup' block_nonempty fun j => |x j|

theorem foldl_max_spec {R α : Type} [LinearOrder R] (f : α → R) (l : List α) (a : R) :
    (a ≤ l.foldl (fun m i => max m (f i)) a ∧ ∀ i ∈ l, f i ≤ l.foldl (fun m i => max m (f i)) a) ∧
      (l.foldl (fun m i => max m (f i)) a = a ∨
        ∃ i ∈ l, l.foldl (fun m i => max m (f i)) a = f i) := by
  induction l generalizing a with
  | nil => exact ⟨⟨le_refl a, fun _ h => absurd h List.not_mem_nil⟩, .inl rfl⟩
  | cons i l ih =>
      rcases ih (max a (f i)) with ⟨⟨hseed, hall⟩, hfrom⟩
      rw [List.foldl_cons]
      refine ⟨⟨(le_max_left a (f i)).trans hseed, ?_⟩, ?_⟩
      · intro k hk
        rcases List.mem_cons.1 hk with rfl | hk
        · exact (le_max_right a (f k)).trans hseed
        · exact hall k hk
      · rcases hfrom with heq | ⟨k, hk, heq⟩
        · rcases max_choice a (f i) with hmax | hmax
          · exact .inl (heq.trans hmax)
          · exact .inr ⟨i, List.mem_cons_self, heq.trans hmax⟩
        · exact .inr ⟨k, List.mem_cons_of_mem i hk, heq⟩

variable {R : Type} [Field R] [LinearOrder R]

/-! ## All builds find the largest magnitude -/

section Amax

variable {x : Nat → R}

theorem le_blockMax {j : Nat} (hj : j < 32) : |x j| ≤ blockMax x :=
  Finset.le_sup' (fun j => |x j|) (Finset.mem_range.2 hj)

theorem exists_blockMax (x : Nat → R) : ∃ j < 32, blockMax x = |x j| := by
  rcases Finset.exists_mem_eq_sup' block_nonempty fun j => |x j| with ⟨j, hj, heq⟩
  exact ⟨j, Finset.mem_range.1 hj, heq⟩

theorem eq_blockMax {a : R} (hle : ∀ j < 32, |x j| ≤ a) (hattained : ∃ j < 32, a = |x j|) :
    a = blockMax x := by
  rcases hattained with ⟨j, hj, rfl⟩
  rcases exists_blockMax x with ⟨k, hk, hmax⟩
  exact le_antisymm (le_blockMax hj) (hmax ▸ hle k hk)

variable [IsStrictOrderedRing R]

/-- A lane holds the largest magnitude of its share of the block. -/
theorem laneMax_spec {lanes l : Nat} (hpos : 0 < 32 / lanes) :
    (∀ k < 32 / lanes, |x (k * lanes + l)| ≤ laneMax lanes x l) ∧
      ∃ k < 32 / lanes, laneMax lanes x l = |x (k * lanes + l)| := by
  rcases foldl_max_spec (fun k => |x (k * lanes + l)|) (List.range (32 / lanes)) 0 with
    ⟨⟨-, hall⟩, hfrom⟩
  have hle : ∀ k < 32 / lanes, |x (k * lanes + l)| ≤ laneMax lanes x l :=
    fun k hk => hall k (List.mem_range.2 hk)
  refine ⟨hle, ?_⟩
  rcases hfrom with hzero | ⟨k, hk, heq⟩
  · refine ⟨0, hpos, le_antisymm ?_ (hle 0 hpos)⟩
    exact (le_of_eq hzero).trans (abs_nonneg _)
  · exact ⟨k, List.mem_range.1 hk, heq⟩

/-- The largest of the lanes is the largest of the block. -/
theorem lanes_eq_blockMax (lanes : Nat) {a : R} (hlanes : 32 / lanes * lanes = 32)
    (hle : ∀ l < lanes, laneMax lanes x l ≤ a) (hfrom : ∃ l < lanes, a = laneMax lanes x l) :
    a = blockMax x := by
  have hpos : 0 < 32 / lanes := Nat.pos_of_ne_zero fun hzero => by simp [hzero] at hlanes
  have hlanes_pos : 0 < lanes := Nat.pos_of_ne_zero fun hzero => by simp [hzero] at hlanes
  apply eq_blockMax
  · intro j hj
    have hk : j / lanes < 32 / lanes := by
      apply Nat.div_lt_of_lt_mul
      rwa [Nat.mul_comm, hlanes]
    have hin := (laneMax_spec (x := x) (l := j % lanes) hpos).1 _ hk
    rw [Nat.div_add_mod' j lanes] at hin
    exact hin.trans (hle _ (Nat.mod_lt j hlanes_pos))
  · rcases hfrom with ⟨l, hl, heq⟩
    rcases (laneMax_spec (x := x) (l := l) hpos).2 with ⟨k, hk, hlane⟩
    refine ⟨k * lanes + l, ?_, heq.trans hlane⟩
    calc k * lanes + l < (k + 1) * lanes := by rw [Nat.succ_mul]; omega
      _ ≤ 32 / lanes * lanes := Nat.mul_le_mul_right lanes hk
      _ = 32 := hlanes

theorem neonAmax_eq (x : Nat → R) : neonAmax x = blockMax x := by
  apply lanes_eq_blockMax 4 (by decide)
  · intro l hl
    rw [neonAmax]
    interval_cases l <;> simp only [le_max_iff, le_refl, true_or, or_true]
  · let lane : R → Prop := fun a => ∃ l < 4, a = laneMax 4 x l
    have hlane : ∀ l < 4, lane (laneMax 4 x l) := fun l hl => ⟨l, hl, rfl⟩
    apply max_rec' lane
    · exact max_rec' lane (hlane 0 (by decide)) (hlane 1 (by decide))
    · exact max_rec' lane (hlane 2 (by decide)) (hlane 3 (by decide))

theorem avx2Amax_eq (x : Nat → R) : avx2Amax x = blockMax x := by
  apply lanes_eq_blockMax 8 (by decide)
  · intro l hl
    rw [avx2Amax]
    interval_cases l <;> simp only [le_max_iff, le_refl, true_or, or_true, Nat.reduceAdd]
  · let lane : R → Prop := fun a => ∃ l < 8, a = laneMax 8 x l
    have hlane : ∀ l < 8, lane (laneMax 8 x l) := fun l hl => ⟨l, hl, rfl⟩
    have hpair : ∀ i < 4, lane (max (laneMax 8 x (i + 4)) (laneMax 8 x i)) := fun i hi =>
      max_rec' lane (hlane (i + 4) (by omega)) (hlane i (by omega))
    apply max_rec' lane
    · exact max_rec' lane (hpair 0 (by decide)) (hpair 2 (by decide))
    · exact max_rec' lane (hpair 1 (by decide)) (hpair 3 (by decide))

theorem scalarAmax_eq (x : Nat → R) : scalarAmax x = blockMax x := by
  have hmax : ∀ a v : R, (if v < a then a else v) = max a v := by
    intro a v
    rcases lt_or_ge v a with h | h
    · rw [if_pos h, max_eq_left h.le]
    · rw [if_neg (not_lt.2 h), max_eq_right h]
  have hlane : scalarAmax x = laneMax 1 x 0 := by
    simp only [scalarAmax, laneMax, hmax, Nat.div_one, mul_one, add_zero]
  apply lanes_eq_blockMax 1 (by decide)
  · intro l hl
    obtain rfl : l = 0 := by omega
    exact hlane.ge
  · exact ⟨0, by decide, hlane⟩

/-! ## The scaled values -/

theorem blockMax_nonneg (x : Nat → R) : 0 ≤ blockMax x :=
  (abs_nonneg (x 0)).trans (le_blockMax (by decide))

/-- What is rounded to a code. -/
def scaled (x : Nat → R) (j : Nat) : R :=
  x j * if blockMax x / 127 ≠ 0 then 1 / (blockMax x / 127) else 0

omit [IsStrictOrderedRing R] in
theorem scaled_of_zero (hzero : blockMax x = 0) (j : Nat) : scaled x j = 0 := by
  rw [scaled, hzero, zero_div, if_neg (not_not.2 rfl), mul_zero]

theorem scaled_of_ne (hne : blockMax x ≠ 0) (j : Nat) : scaled x j = 127 * x j / blockMax x := by
  have hd : blockMax x / 127 ≠ 0 := div_ne_zero hne (by norm_num)
  rw [scaled, if_pos hd]
  field_simp

theorem abs_scaled_le {j : Nat} (hj : j < 32) : |scaled x j| ≤ 127 := by
  by_cases hzero : blockMax x = 0
  · rw [scaled_of_zero hzero, abs_zero]
    norm_num
  · have hpos : 0 < blockMax x := lt_of_le_of_ne (blockMax_nonneg x) (Ne.symm hzero)
    have hin := le_blockMax (x := x) hj
    rw [scaled_of_ne hzero, abs_div, abs_mul, abs_of_pos hpos, div_le_iff₀ hpos,
      abs_of_nonneg (by norm_num : (0 : R) ≤ 127)]
    linarith

end Amax

/-! ## The codes of the builds -/

section Codes

variable [IsStrictOrderedRing R] [FloorRing R]

/-- What is in the range of the type stays. -/
theorem saturate_of_le {bits : Nat} {z : Int} (hlow : -2 ^ (bits - 1) ≤ z)
    (hhigh : z ≤ 2 ^ (bits - 1) - 1) : saturate bits z = z := by
  rw [saturate, min_eq_right hhigh, max_eq_right hlow]

theorem neonCode_eq {s : R} (h : |s| ≤ 127) : neonCode s = roundAway s := by
  have hin := abs_le.1 (abs_roundAway_le (n := 127) (by exact_mod_cast h))
  have hin_i8 : saturate 8 (roundAway s) = roundAway s := by
    apply saturate_of_le <;> norm_num <;> omega
  have hin_i16 : saturate 16 (roundAway s) = roundAway s := by
    apply saturate_of_le <;> norm_num <;> omega
  have hin_i32 : saturate 32 (roundAway s) = roundAway s := by
    apply saturate_of_le <;> norm_num <;> omega
  rw [neonCode, truncate_addSignedHalf, hin_i32, hin_i16, hin_i8]

theorem avx2Code_eq {s : R} (h : |s| ≤ 127) : avx2Code s = roundEven s := by
  have hin := abs_le.1 (abs_roundEven_le (n := 127) (by exact_mod_cast h))
  rw [avx2Code, Int.bmod_eq_of_le (by omega) (by omega)]

/-- The rounding of a build. -/
def Build.round : Build → R → Int
  | .neon => roundAway
  | .avx2 => roundEven
  | .scalar => roundAway

/-- One scale and one range in all builds; only the rounding is the build's own. -/
theorem quantizeF32toQ80_qs (build : Build) {x : Nat → R} {j : Nat} (hj : j < 32) :
    (quantizeF32toQ80 build x).qs j = build.round (scaled x j) := by
  have hin := abs_scaled_le (x := x) hj
  cases build with
  | neon =>
      rw [quantizeF32toQ80, quantizeBlock, neonAmax_eq]
      exact neonCode_eq hin
  | avx2 =>
      rw [quantizeF32toQ80, quantizeBlock, avx2Amax_eq]
      exact avx2Code_eq hin
  | scalar =>
      rw [quantizeF32toQ80, quantizeBlock, scalarAmax_eq]
      rfl

theorem quantizeF32toQ80_d (build : Build) (x : Nat → R) :
    (quantizeF32toQ80 build x).d = blockMax x / 127 := by
  cases build with
  | neon => exact congrArg (· / 127) (neonAmax_eq x)
  | avx2 => exact congrArg (· / 127) (avx2Amax_eq x)
  | scalar => exact congrArg (· / 127) (scalarAmax_eq x)

/-- The builds agree on a block unless one of its values lies a half behind an even code. -/
theorem builds_agree_iff (x : Nat → R) :
    (∀ build, ∀ j < 32, (quantizeF32toQ80 build x).qs j = (quantizeF32toQ80 .scalar x).qs j) ↔
      ∀ j < 32, ∀ m : Nat, blockMax x ≠ 0 → 127 * |x j| ≠ (2 * m + 1 / 2) * blockMax x := by
  have htie : ∀ j < 32, roundEven (scaled x j) = roundAway (scaled x j) ↔
      ∀ m : Nat, blockMax x ≠ 0 → 127 * |x j| ≠ (2 * m + 1 / 2) * blockMax x := by
    intro j hj
    rw [roundEven_eq_roundAway_iff]
    apply forall_congr'
    intro m
    by_cases hzero : blockMax x = 0
    · have hhalf : (0 : R) < 2 * m + 1 / 2 := by positivity
      rw [scaled_of_zero hzero, abs_zero]
      exact iff_of_true hhalf.ne fun hne => absurd hzero hne
    · have hpos : 0 < blockMax x := lt_of_le_of_ne (blockMax_nonneg x) (Ne.symm hzero)
      rw [scaled_of_ne hzero, abs_div, abs_mul, abs_of_pos hpos,
        abs_of_nonneg (by norm_num : (0 : R) ≤ 127), Ne, div_eq_iff hzero]
      exact ⟨fun h _ => h, fun h => h hzero⟩
  constructor
  · intro hagree j hj
    apply (htie j hj).1
    have heq := hagree .avx2 j hj
    rwa [quantizeF32toQ80_qs .avx2 hj, quantizeF32toQ80_qs .scalar hj] at heq
  · intro hno build j hj
    rw [quantizeF32toQ80_qs build hj, quantizeF32toQ80_qs .scalar hj]
    cases build with
    | neon => rfl
    | avx2 => exact (htie j hj).2 (hno j hj)
    | scalar => rfl

end Codes

theorem blockMax_ones : blockMax (fun _ => (1 : ℚ)) = 1 := by
  rw [blockMax, Finset.sup'_const, abs_one]

theorem avx2_agrees_on_ones :
    (quantizeF32toQ80 .avx2 fun _ => (1 : ℚ)).qs 0 =
      (quantizeF32toQ80 .scalar fun _ => (1 : ℚ)).qs 0 := by
  apply (builds_agree_iff fun _ => (1 : ℚ)).2 _ .avx2 0 (by decide)
  intro j _ m _ heq
  rw [blockMax_ones, abs_one, mul_one, mul_one] at heq
  have hnat : ((2 * 127 : Nat) : ℚ) = ((4 * m + 1 : Nat) : ℚ) := by
    push_cast
    linarith
  have := Nat.cast_injective hnat
  omega

/-- A block with unit scale and halves. -/
def tieBlock (j : Nat) : ℚ :=
  if j = 0 then 127 else 1 / 2

theorem avx2_ties_to_even : ¬∀ (x : Nat → ℚ) (build : Build), ∀ j < 32,
    (quantizeF32toQ80 build x).qs j = (quantizeF32toQ80 .scalar x).qs j := by
  intro hagree
  have heq := hagree tieBlock .avx2 1 (by decide)
  revert heq
  decide +kernel

end Quants
end PrefillOpt
