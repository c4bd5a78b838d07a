import PrefillOpt.MatmulSlices

/-!
# Kernels.PointerRows — rows by pointer and rows by stride

`nn-core.cpp`, `hasPointerContinuousMemory`; `nn-cpu-ops.cpp`, the fast paths of the matmul op.
The plain loop takes the pointer of every row.  The fast paths take the first pointer and step by
the size of a row, when the pointers are declared to be contiguous.
-/

namespace PrefillOpt
namespace Kernels

def hasPointerContinuousMemory : NnPointerType → Bool
  | .raw => true
  | .batch => true
  | .batchedSlice => true

/-- Row `y` is `y` rows of the resolved size behind the first one. -/
def RowsFollow (size : NnSize3D) (pntr : List Nat) (nBatches : Nat) : Prop :=
  ∀ y < nBatches, pntr[y]? = pntr[0]?.map (· + y * getBytes size.floatType size.x)

/-- When the pointers of a kind are `y` rows apart. -/
def RowsFollowWhen (source : NnSize3D) (nBatches : Nat) (placement : NnNodePlacement) :
    NnPointerType → Prop
  | .raw => nBatches ≤ 1
  | .batch => True
  | .batchedSlice => nBatches ≤ 1 ∨ placement.tpGroupEnd - placement.tpGroupStart = 1 ∨
      source.x = 0 ∨ source.z = 0

/-! ## One pointer -/

section Pointer

variable {source size : NnSize3D} {nBatches : Nat} {placement : NnNodePlacement} {pntr : List Nat}

theorem resolvePointer_raw
    (h : resolvePointer source nBatches placement .raw = .ok (size, pntr)) : pntr = [0] := by
  simp only [resolvePointer, bind, Except.bind, pure, Except.pure] at h
  split at h
  · cases h
  · cases h
    rfl

theorem resolvePointer_batch_size
    (h : resolvePointer source nBatches placement .batch = .ok (size, pntr)) :
    size = source ∧ source.y = nBatches := by
  simp only [resolvePointer, assertThat, bind, Except.bind, pure, Except.pure] at h
  by_cases hy : source.y = nBatches
  · simp only [hy, beq_self_eq_true, if_true] at h
    split at h
    · cases h
    · cases h
      exact ⟨rfl, hy⟩
  · simp [hy] at h

theorem checkSize_eq {s s' : NnSize3D} (h : checkSize s = .ok s') : s' = s := by
  simp only [checkSize, bind, Except.bind, pure, Except.pure] at h
  split at h
  · cases h
  split at h
  · cases h
  cases h
  rfl

/-- The checks that a slice pointer passes, and its size. -/
theorem resolvePointer_batchedSlice_size
    (h : resolvePointer source nBatches placement .batchedSlice = .ok (size, pntr)) :
    source.y = nBatches ∧ source.x % (placement.tpGroupEnd - placement.tpGroupStart) = 0 ∧
      checkBytes source.floatType source.x = .ok () ∧
      checkBytes source.floatType (source.x / (placement.tpGroupEnd - placement.tpGroupStart))
        = .ok () ∧
      size.floatType = source.floatType ∧
      size.x = source.x / (placement.tpGroupEnd - placement.tpGroupStart) := by
  simp only [resolvePointer, assertThat, bind, Except.bind, pure, Except.pure, if_true] at h
  by_cases hy : source.y = nBatches
  swap
  · simp [hy] at h
  simp only [hy, beq_self_eq_true, if_true] at h
  cases hx : checkBytes source.floatType source.x with
  | error e => simp [hx] at h
  | ok u =>
      simp only [hx] at h
      by_cases hmod : source.x % (placement.tpGroupEnd - placement.tpGroupStart) = 0
      swap
      · simp [hmod] at h
      simp only [hmod, beq_self_eq_true, if_true] at h
      cases hs : checkBytes source.floatType
          (source.x / (placement.tpGroupEnd - placement.tpGroupStart)) with
      | error e => simp [hs] at h
      | ok v =>
          simp only [hs] at h
          split at h
          · cases h
          · rename_i checked hchecked
            cases h
            have hsize := checkSize_eq hchecked
            exact ⟨hy, hmod, rfl, rfl, by rw [hsize]; rfl, by rw [hsize]; rfl⟩

/-- A longer row of whole blocks has more bytes. -/
theorem getBytes_lt {type : NnFloatType} {a b : Nat} (ha : checkBytes type a = .ok ())
    (hb : checkBytes type b = .ok ()) (hlt : a < b) : getBytes type a < getBytes type b := by
  have hblocks : ∀ {n : Nat} {text : String}, assertThat (n % 32 == 0) text = .ok () →
      n % 32 = 0 := by
    intro n text h
    by_contra hne
    simp [assertThat, hne] at h
  cases type with
  | unk => cases ha
  | f32 => exact Nat.mul_lt_mul_of_pos_right hlt (by decide)
  | f16 => exact Nat.mul_lt_mul_of_pos_right hlt (by decide)
  | q40 =>
      have ha := hblocks ha
      have hb := hblocks hb
      simp only [getBytes]
      omega
  | q80 =>
      have ha := hblocks ha
      have hb := hblocks hb
      simp only [getBytes]
      omega

/-- Rows `stride` apart, from the first one on. -/
theorem rowsFollow_strided {z y base stride : Nat} (hpntr : pntr
      = (List.range (z * y)).map fun k => k * stride + base) (hy : y = nBatches) :
    RowsFollow size pntr nBatches ↔
      nBatches ≤ 1 ∨ stride = getBytes size.floatType size.x ∨ z = 0 := by
  subst hy
  have hrow : ∀ k < z * y, pntr[k]? = some (k * stride + base) := by
    intro k hk
    rw [hpntr, List.getElem?_map, List.getElem?_range hk, Option.map_some]
  rcases Nat.eq_zero_or_pos z with rfl | hz
  · have hnone : pntr = [] := by rw [hpntr, Nat.zero_mul]; rfl
    refine iff_of_true (fun k _ => ?_) (.inr (.inr rfl))
    rw [hnone]
    rfl
  have hle : y ≤ z * y := Nat.le_mul_of_pos_left y hz
  constructor
  · intro h
    by_contra hnot
    simp only [not_or] at hnot
    have h1 := h 1 (by omega)
    rw [hrow 1 (by omega), hrow 0 (by omega)] at h1
    simp only [Option.map_some, Option.some.injEq] at h1
    omega
  · intro h k hk
    rw [hrow k (hk.trans_le hle), hrow 0 (by omega), Option.map_some, Option.some.injEq]
    rcases h with h | h | h
    · have hk0 : k = 0 := by omega
      rw [hk0]
      ring
    · rw [h]
      ring
    · omega

/-- The pointers of a kind follow each other by rows of their size exactly under the condition of
the kind. -/
theorem resolvePointer_rowsFollow {type : NnPointerType}
    (h : resolvePointer source nBatches placement type = .ok (size, pntr)) :
    RowsFollow size pntr nBatches ↔ RowsFollowWhen source nBatches placement type := by
  cases type with
  | raw =>
      rw [resolvePointer_raw h]
      constructor
      · intro hrows
        by_contra hnot
        have h1 := hrows 1 (Nat.lt_of_not_le hnot)
        cases h1
      · intro hle y hy
        have hle : nBatches ≤ 1 := hle
        have hy0 : y = 0 := by omega
        rw [hy0, Nat.zero_mul]
        rfl
  | batch =>
      rcases resolvePointer_batch_size h with ⟨rfl, hy⟩
      have hpntr : pntr = (List.range (size.z * size.y)).map fun k =>
          k * getBytes size.floatType size.x + 0 := resolvePointer_batch h
      rw [rowsFollow_strided hpntr hy]
      exact iff_of_true (.inr (.inl rfl)) trivial
  | batchedSlice =>
      rcases resolvePointer_batchedSlice_size h with ⟨hy, hmod, hx, hslice, htype, hsize⟩
      rw [rowsFollow_strided (resolvePointer_batchedSlice h) hy, htype, hsize]
      simp only [RowsFollowWhen]
      generalize placement.tpGroupEnd - placement.tpGroupStart = tp at *
      have hbytes : getBytes source.floatType source.x = getBytes source.floatType (source.x / tp) ↔
          tp = 1 ∨ source.x = 0 := by
        constructor
        · intro heq
          by_contra hnot
          rw [not_or] at hnot
          have htp : tp ≠ 0 := fun h0 => hnot.2 (by rwa [h0, Nat.mod_zero] at hmod)
          have hlt : source.x / tp < source.x :=
            Nat.div_lt_self (Nat.pos_of_ne_zero hnot.2) (by omega)
          exact (getBytes_lt hslice hx hlt).ne heq.symm
        · rintro (h1 | h0)
          · rw [h1, Nat.div_one]
          · rw [h0, Nat.zero_div]
      rw [hbytes, or_assoc]

end Pointer

/-! ## The rows of an op -/

/-- What `initMatmulForward` asserts of the sizes of a matmul op with a float output. -/
structure MatmulSizes (inputSize outputSize weightSize : NnSize3D) : Prop where
  input : inputSize.x = weightSize.y
  output : outputSize.x = weightSize.x
  outputType : outputSize.floatType = .f32

/-- The rows of input and output of the plain loop, by their pointers. -/
def loopRows (input output : List Nat) (rowBegin rowCount : Nat) :
    List (Option Nat × Option Nat) :=
  (List.range' rowBegin rowCount).map fun y => (input[y]?, output[y]?)

/-- The rows of the fast paths, from the first pointers on. -/
def fastRows (inputType : NnFloatType) (weightSize : NnSize3D) (input output : List Nat)
    (rowBegin rowCount : Nat) : List (Option Nat × Option Nat) :=
  let inRowBytes := getBytes inputType weightSize.y
  let outRowBytes := weightSize.x * 4
  (List.range' rowBegin rowCount).map fun y =>
    (input[0]?.map (· + y * inRowBytes), output[0]?.map (· + y * outRowBytes))

section Op

variable {inputSource outputSource inputSize outputSize weightSize : NnSize3D} {nBatches : Nat}
variable {placement : NnNodePlacement} {inputType outputType : NnPointerType}
variable {input output : List Nat}

theorem fastRows_eq_loopRows (hsizes : MatmulSizes inputSize outputSize weightSize)
    (hin : RowsFollow inputSize input nBatches) (hout : RowsFollow outputSize output nBatches)
    {rowBegin rowCount : Nat} (hrows : rowBegin + rowCount ≤ nBatches) :
    fastRows inputSize.floatType weightSize input output rowBegin rowCount
      = loopRows input output rowBegin rowCount := by
  refine List.map_congr_left fun y hy => ?_
  have hy := List.mem_range'_1.1 hy
  have hout := hout y (by omega)
  rw [hsizes.output, hsizes.outputType] at hout
  rw [hin y (by omega), hout, hsizes.input]
  rfl

/-- The pointers that are declared to be contiguous are rows one behind the other, and the fast
paths take the rows of the loop, exactly under the conditions of the two pointers. -/
theorem contiguous_rows_iff
    (hin : resolvePointer inputSource nBatches placement inputType = .ok (inputSize, input))
    (hout : resolvePointer outputSource nBatches placement outputType = .ok (outputSize, output))
    (hsizes : MatmulSizes inputSize outputSize weightSize) :
    ((hasPointerContinuousMemory inputType = true → RowsFollow inputSize input nBatches) ∧
      (hasPointerContinuousMemory outputType = true → RowsFollow outputSize output nBatches) ∧
      ∀ rowBegin rowCount, rowBegin + rowCount ≤ nBatches →
        fastRows inputSize.floatType weightSize input output rowBegin rowCount
          = loopRows input output rowBegin rowCount) ↔
      RowsFollowWhen inputSource nBatches placement inputType ∧
        RowsFollowWhen outputSource nBatches placement outputType := by
  have hdeclared : ∀ type, hasPointerContinuousMemory type = true := by
    intro type
    cases type <;> rfl
  rw [← resolvePointer_rowsFollow hin, ← resolvePointer_rowsFollow hout]
  constructor
  · rintro ⟨hi, ho, -⟩
    exact ⟨hi (hdeclared inputType), ho (hdeclared outputType)⟩
  · rintro ⟨hi, ho⟩
    exact ⟨fun _ => hi, fun _ => ho, fun rowBegin rowCount hrows =>
      fastRows_eq_loopRows hsizes hi ho hrows⟩

end Op

/-- The second of two nodes of a group. -/
def secondOfTwo : NnNodePlacement := ⟨1, 0, 0, 1, 0, 2, 0, 1⟩

theorem contiguous_rows_iff_one :
    ((hasPointerContinuousMemory .batchedSlice = true →
          RowsFollow (size2D .q80 1 32) [34] 1) ∧
      (hasPointerContinuousMemory .batch = true → RowsFollow (size2D .f32 1 5) [0] 1) ∧
      ∀ rowBegin rowCount, rowBegin + rowCount ≤ 1 →
        fastRows .q80 (size2D .q40 32 5) [34] [0] rowBegin rowCount
          = loopRows [34] [0] rowBegin rowCount) ↔
      RowsFollowWhen (size2D .q80 1 64) 1 secondOfTwo .batchedSlice ∧
        RowsFollowWhen (size2D .f32 1 5) 1 secondOfTwo .batch :=
  contiguous_rows_iff rfl rfl ⟨rfl, rfl, rfl⟩

/-- Two rows of 64 Q80 elements on a group of two nodes: the slices are 68 bytes apart and 34 bytes
long. -/
theorem sliced_rows_apart :
    resolvePointer (size2D .q80 2 64) 2 secondOfTwo .batchedSlice
        = .ok (size2D .q80 2 32, [34, 102]) ∧
      hasPointerContinuousMemory .batchedSlice = true ∧
      ¬RowsFollow (size2D .q80 2 32) [34, 102] 2 ∧
      fastRows .q80 (size2D .q40 32 5) [34, 102] [0, 20] 1 1 ≠ loopRows [34, 102] [0, 20] 1 1 := by
  refine ⟨rfl, rfl, ?_, by decide⟩
  intro h
  exact absurd (h 1 (by decide)) (by decide)

end Kernels
end PrefillOpt
