import Mathlib.Algebra.Ring.Int.Defs
import Mathlib.Tactic.Ring
import PrefillOpt.Lib.BlockSplit

/-!
# Core — float types, tensor sizes and slicers

`nn-core.hpp`, `nn-core.cpp`.  `NnUint` is a 32-bit unsigned integer and `NnSize` a 64-bit one.
Numbers are `Nat`; where the source forms a product in `NnUint` that a large model can overflow,
the model wraps it with `u32`.  An `assert` is an `Except` error that carries its condition.
-/

namespace PrefillOpt

/-- The value a 32-bit unsigned expression takes. -/
def u32 (n : Nat) : Nat := n % 2 ^ 32

theorem u32_of_lt {n : Nat} (h : n < 2 ^ 32) : u32 n = n :=
  Nat.mod_eq_of_lt h

/-- A difference as the source forms it. -/
theorem u32_sub {a b : Nat} (hab : b ≤ a) (ha : a < 2 ^ 32) : u32 (a + (2 ^ 32 - b)) = a - b := by
  rw [u32]
  omega

/-- The value a 32-bit signed variable takes. -/
def i32 (z : Int) : Int := z.bmod (2 ^ 32)

theorem i32_of_lt {z : Int} (hlo : -2 ^ 31 ≤ z) (hhi : z < 2 ^ 31) : i32 z = z := by
  apply Int.bmod_eq_of_le <;> omega

theorem u32_lt (n : Nat) : u32 n < 2 ^ 32 :=
  Nat.mod_lt _ (by decide)

/-- `SPLIT_THREADS`: first item and end of the range of one thread. -/
def splitThreads (rangeLen nThreads threadIndex : Nat) : Nat × Nat :=
  let rangeSlice := rangeLen / nThreads
  let rangeRest := rangeLen % nThreads
  let varStart := threadIndex * rangeSlice +
    (if threadIndex < rangeRest then threadIndex else rangeRest)
  (varStart, varStart + rangeSlice + (if threadIndex < rangeRest then 1 else 0))

theorem splitThreads_eq (rangeLen nThreads threadIndex : Nat) :
    splitThreads rangeLen nThreads threadIndex
      = (Lib.blockStart rangeLen nThreads threadIndex,
        Lib.blockStart rangeLen nThreads threadIndex
          + Lib.blockCount rangeLen nThreads threadIndex) := by
  have hmin : (if threadIndex < rangeLen % nThreads then threadIndex else rangeLen % nThreads)
      = min threadIndex (rangeLen % nThreads) := by
    split_ifs <;> omega
  simp only [splitThreads, Lib.blockStart, Lib.blockCount, hmin, Nat.add_assoc]

inductive NnFloatType where
  | unk
  | f32
  | f16
  | q40
  | q80
  deriving DecidableEq, Repr

/-- Elements of one block: `Q40_BLOCK_SIZE` and `Q80_BLOCK_SIZE` are 32. -/
def getBlockSize : NnFloatType → Nat
  | .unk => 0
  | .f32 => 1
  | .f16 => 1
  | .q40 => 32
  | .q80 => 32

/-- Bytes of `n` elements.  A Q40 block is a 2-byte scale and 16 bytes of nibbles, a Q80 block a
2-byte scale and 32 bytes. -/
def getBytes : NnFloatType → Nat → Nat
  | .unk, _ => 0
  | .f32, n => n * 4
  | .f16, n => n * 2
  | .q40, n => n / 32 * 18
  | .q80, n => n / 32 * 34

structure NnSize3D where
  floatType : NnFloatType
  z : Nat
  y : Nat
  x : Nat
  length : Nat
  nBytes : Nat
  nBytesXY : Nat
  deriving DecidableEq, Repr

/-- Both products are formed in `NnUint` before they are widened to `NnSize`. -/
def size3D (floatType : NnFloatType) (z y x : Nat) : NnSize3D :=
  let len := u32 (z * y * x)
  let lenXY := u32 (y * x)
  ⟨floatType, z, y, x, len, getBytes floatType len, getBytes floatType lenXY⟩

def size0 : NnSize3D :=
  ⟨.unk, 0, 0, 0, 0, 0, 0⟩

def size1D (floatType : NnFloatType) (x : Nat) : NnSize3D :=
  size3D floatType 1 1 x

def size2D (floatType : NnFloatType) (y x : Nat) : NnSize3D :=
  size3D floatType 1 y x

/-! ## Slicers -/

/-- `assert(cond)` with the text of its condition. -/
def assertThat (cond : Bool) (text : String) : Except String Unit :=
  if cond then .ok () else .error text

theorem bind_eq_ok {ε α τ : Type} {x : Except ε α} {f : α → Except ε τ} {r : τ}
    (h : (x >>= f) = .ok r) : ∃ a, x = .ok a ∧ f a = .ok r := by
  cases x with
  | error e => cases h
  | ok a => exact ⟨a, rfl, h⟩

theorem ok_bind_of_eq {ε α τ : Type} {x : Except ε α} {f : α → Except ε τ} {a : α}
    (hx : x = .ok a) : (x >>= f) = f a := by
  rw [hx]
  rfl

/-- The results of a loop that did not fail, one by one. -/
theorem getElem?_of_mapM_ok {ε α τ : Type} {f : α → Except ε τ} {l : List α} {rs : List τ}
    (h : l.mapM f = .ok rs) (i : Nat) {a : α} (ha : l[i]? = some a) :
    ∃ r, rs[i]? = some r ∧ f a = .ok r := by
  induction l generalizing rs i with
  | nil => simp at ha
  | cons b l ih =>
      rw [List.mapM_cons] at h
      rcases bind_eq_ok h with ⟨r, hr, h⟩
      rcases bind_eq_ok h with ⟨rs', hrs, h⟩
      cases h
      cases i with
      | zero =>
          cases ha
          exact ⟨r, rfl, hr⟩
      | succ i => exact ih hrs i (by simpa using ha)

theorem length_of_mapM_ok {ε α τ : Type} {f : α → Except ε τ} {l : List α} {rs : List τ}
    (h : l.mapM f = .ok rs) : rs.length = l.length := by
  induction l generalizing rs with
  | nil =>
      cases h
      rfl
  | cons b l ih =>
      rw [List.mapM_cons] at h
      rcases bind_eq_ok h with ⟨r, -, h⟩
      rcases bind_eq_ok h with ⟨rs', hrs, h⟩
      cases h
      rw [List.length_cons, List.length_cons, ih hrs]

theorem assertThat_eq_ok {cond : Bool} {text : String} {u : Unit}
    (h : assertThat cond text = .ok u) : cond = true := by
  cases cond with
  | false => cases h
  | true => rfl

structure NnKvCacheSlice where
  kvDim0 : Nat
  localSeqLen : Nat
  localSeqStart : Nat
  keySize : NnSize3D
  valueSize : NnSize3D
  deriving DecidableEq, Repr

/-- The buffers hold the full `seqLen`; a rank writes only its own range of it. -/
def kvCacheSlice (kvDim seqLen nNodes spSize spRank : Nat) : NnKvCacheSlice :=
  let kvDim0 := kvDim / nNodes
  let localSeqLen := seqLen / spSize
  ⟨kvDim0, localSeqLen, spRank * localSeqLen, size2D .f32 seqLen kvDim0, size2D .f32 seqLen kvDim0⟩

def sliceKvCache (kvDim seqLen nNodes spSize spRank : Nat) : Except String NnKvCacheSlice := do
  assertThat (kvDim % nNodes == 0) "kvDim % nNodes == 0"
  assertThat (1 ≤ spSize) "spSize >= 1"
  assertThat (seqLen % spSize == 0) "seqLen % spSize == 0"
  return kvCacheSlice kvDim seqLen nNodes spSize spRank

end PrefillOpt
