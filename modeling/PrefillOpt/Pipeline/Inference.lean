import PrefillOpt.Pipeline.Worker

/-!
# Pipeline.Inference — the forwards of a request

`inference()` of `dllama.cpp`: the prompt is run in chunks, then one token is decoded at a time.
The chunks may be padded to a multiple of the tile rows, and then decode begins at the first
position that is not a prompt token.
-/

namespace PrefillOpt
namespace Pipeline

/-- What the setters have set when a forward begins. -/
structure ForwardCall where
  position : Nat
  batchSize : Nat
  decodePhase : Bool
  isLastPrefillChunk : Bool
  deriving DecidableEq, Repr

namespace ForwardCall

variable (c : ForwardCall)

/-- The position is one of the batch. -/
def Has (q : Nat) : Prop := c.position ≤ q ∧ q < c.position + c.batchSize

instance (q : Nat) : Decidable (c.Has q) := inferInstanceAs (Decidable (_ ∧ _))

/-- A call that stage skipping may act on. -/
def decodeSingle : Bool := c.decodePhase && c.batchSize == 1

/-- The packet after `setDecodePhase`, `setBatchSize`, `setLastPrefillChunk` and `setPosition`. -/
def packet {F : Type} (p : LlmControlPacket F) : LlmControlPacket F :=
  (((p.setDecodePhase c.decodePhase).setBatchSize c.batchSize).setLastPrefillChunk
    c.isLastPrefillChunk).setPosition c.position

theorem packet_fits {F : Type} {p : LlmControlPacket F} (hp : p.Fits)
    (hposition : c.position < 2 ^ 32) (hbatch : c.batchSize < 2 ^ 32) : (c.packet p).Fits :=
  (((hp.setDecodePhase _).setBatchSize hbatch).setLastPrefillChunk _).setPosition hposition

end ForwardCall

/-! ## The loops -/

def kGemmTileRows : Nat := 4

def schedTotal (tileAlignedSchedule : Bool) (realTotal : Nat) : Nat :=
  if tileAlignedSchedule then
    (realTotal + kGemmTileRows - 1) / kGemmTileRows * kGemmTileRows
  else realTotal

/-- The loop over the prefill chunks, from position `pos` on; every round takes a row at least, so
`fuel` bounds the rounds. -/
def prefillCalls (useWave : Bool) (schedTotal prefillBatchCap : Nat) :
    Nat → Nat → List ForwardCall
  | 0, _ => []
  | fuel + 1, pos =>
      let remainingTokens := schedTotal - pos
      if remainingTokens = 0 then []
      else
        let batchSize := if remainingTokens < prefillBatchCap then remainingTokens
          else prefillBatchCap
        ⟨pos, batchSize, false, !useWave || decide (schedTotal ≤ pos + batchSize)⟩ ::
          prefillCalls useWave schedTotal prefillBatchCap fuel (pos + batchSize)

/-- The decode loop, for the positions from `pos` up to `maxPos`. -/
def decodeCalls (pos maxPos : Nat) : List ForwardCall :=
  (List.range' pos (maxPos - pos)).map fun pos => ⟨pos, 1, true, true⟩

/-- The calls of `inference()` for a prompt of `realTotal + 1` tokens. -/
def inferenceCalls (tileAlignedSchedule useWave : Bool) (realTotal prefillBatchCap maxPos : Nat) :
    List ForwardCall :=
  prefillCalls useWave (schedTotal tileAlignedSchedule realTotal) prefillBatchCap
      (schedTotal tileAlignedSchedule realTotal) 0
    ++ decodeCalls realTotal maxPos

/-! ## Requests -/

/-- The calls of one request: no position is left out, no call goes beyond the sequence, as
`setPosition` asserts, and a decoded position is not run again. -/
structure Request (seqLen : Nat) where
  calls : List ForwardCall
  batch_pos : ∀ c ∈ calls, 0 < c.batchSize
  fits : ∀ c ∈ calls, c.position + c.batchSize ≤ seqLen
  gapless : ∀ (i : Nat) (c : ForwardCall), calls[i]? = some c → ∀ q, q < c.position →
    ∃ (j : Nat) (c' : ForwardCall), j < i ∧ calls[j]? = some c' ∧ c'.Has q
  advancing : ∀ (i j : Nat) (c c' : ForwardCall), i < j → calls[i]? = some c → calls[j]? = some c' →
    c.decodePhase = true → c.position + c.batchSize ≤ c'.position

/-! ## The calls of `inference()` are those of a request -/

/-- An element of the joined calls is a prefill chunk or a decoded token. -/
theorem getElem?_append_cases {cs ds : List ForwardCall} {i : Nat} {c : ForwardCall}
    (h : (cs ++ ds)[i]? = some c) :
    cs[i]? = some c ∨ cs.length ≤ i ∧ ds[i - cs.length]? = some c := by
  rw [List.getElem?_append] at h
  split_ifs at h with hi
  · exact .inl h
  · exact .inr ⟨Nat.not_lt.mp hi, h⟩

theorem le_schedTotal (tileAlignedSchedule : Bool) (realTotal : Nat) :
    realTotal ≤ schedTotal tileAlignedSchedule realTotal := by
  unfold schedTotal kGemmTileRows
  split_ifs
  · omega
  · exact le_rfl

section Loops

variable {useWave : Bool} {total cap : Nat}

/-- A round of the loop. -/
theorem prefillCalls_succ (fuel : Nat) {pos : Nat} (h : pos < total) :
    prefillCalls useWave total cap (fuel + 1) pos =
      ⟨pos, min (total - pos) cap, false,
        !useWave || decide (total ≤ pos + min (total - pos) cap)⟩ ::
        prefillCalls useWave total cap fuel (pos + min (total - pos) cap) := by
  have hmin : (if total - pos < cap then total - pos else cap) = min (total - pos) cap := by
    split_ifs <;> omega
  have hne : ¬ total - pos = 0 := by omega
  simp only [prefillCalls, if_neg hne, hmin]

theorem prefillCalls_done (fuel : Nat) {pos : Nat} (h : total ≤ pos) :
    prefillCalls useWave total cap fuel pos = [] := by
  have hzero : total - pos = 0 := Nat.sub_eq_zero_of_le h
  cases fuel with
  | zero => rfl
  | succ fuel => simp [prefillCalls, hzero]

/-- A chunk of the prefill has a row and ends within the schedule. -/
theorem prefillCalls_mem (hcap : 0 < cap) {fuel pos : Nat} {c : ForwardCall}
    (h : c ∈ prefillCalls useWave total cap fuel pos) :
    0 < c.batchSize ∧ c.batchSize ≤ cap ∧ c.position + c.batchSize ≤ total ∧
      c.decodePhase = false := by
  induction fuel generalizing pos with
  | zero => cases h
  | succ fuel ih =>
      by_cases hpos : pos < total
      · rw [prefillCalls_succ fuel hpos] at h
        rcases List.mem_cons.mp h with rfl | h
        · exact ⟨by simp only; omega, by simp only; omega, by simp only; omega, rfl⟩
        · exact ih h
      · rw [prefillCalls_done _ (Nat.not_lt.mp hpos)] at h
        cases h

/-- The chunks follow each other without a gap. -/
theorem prefillCalls_gapless {fuel pos i q : Nat} {c : ForwardCall}
    (h : (prefillCalls useWave total cap fuel pos)[i]? = some c) (hle : pos ≤ q)
    (hq : q < c.position) :
    ∃ (j : Nat) (c' : ForwardCall),
      j < i ∧ (prefillCalls useWave total cap fuel pos)[j]? = some c' ∧ c'.Has q := by
  induction fuel generalizing pos i with
  | zero => simp [prefillCalls] at h
  | succ fuel ih =>
      by_cases hpos : pos < total
      · rw [prefillCalls_succ fuel hpos] at h ⊢
        cases i with
        | zero =>
            simp only [List.getElem?_cons_zero, Option.some.injEq] at h
            subst h
            simp only at hq
            omega
        | succ i =>
            rw [List.getElem?_cons_succ] at h
            by_cases hrow : q < pos + min (total - pos) cap
            · exact ⟨0, _, Nat.succ_pos i, rfl, hle, hrow⟩
            · rcases ih h (Nat.not_lt.mp hrow) with ⟨j, c', hj, hc', hhas⟩
              exact ⟨j + 1, c', Nat.succ_lt_succ hj, by rwa [List.getElem?_cons_succ], hhas⟩
      · rw [prefillCalls_done _ (Nat.not_lt.mp hpos)] at h
        simp at h

/-- Every position of the schedule is in one of the chunks. -/
theorem prefillCalls_covers (useWave : Bool) (hcap : 0 < cap) {fuel pos q : Nat}
    (hfuel : total ≤ pos + fuel) (hle : pos ≤ q) (hq : q < total) :
    ∃ (j : Nat) (c : ForwardCall),
      (prefillCalls useWave total cap fuel pos)[j]? = some c ∧ c.Has q := by
  induction fuel generalizing pos with
  | zero => omega
  | succ fuel ih =>
      rw [prefillCalls_succ fuel (by omega)]
      by_cases hrow : q < pos + min (total - pos) cap
      · exact ⟨0, _, rfl, hle, hrow⟩
      · rcases ih (by omega) (Nat.not_lt.mp hrow) with ⟨j, c, hc, hhas⟩
        exact ⟨j + 1, c, by rwa [List.getElem?_cons_succ], hhas⟩

theorem decodeCalls_getElem? {pos maxPos i : Nat} {c : ForwardCall} :
    (decodeCalls pos maxPos)[i]? = some c ↔
      i < maxPos - pos ∧ c = ⟨pos + i, 1, true, true⟩ := by
  rw [decodeCalls, List.getElem?_map, Option.map_eq_some_iff]
  constructor
  · rintro ⟨q, hq, rfl⟩
    rcases List.getElem?_eq_some_iff.mp hq with ⟨hi, hval⟩
    rw [List.length_range'] at hi
    rw [List.getElem_range', Nat.one_mul] at hval
    exact ⟨hi, by rw [hval]⟩
  · rintro ⟨hi, rfl⟩
    exact ⟨pos + i, by simp [hi], rfl⟩

/-- Tokens that are decoded from `realTotal` on leave no gap behind chunks that reach so far. -/
theorem decode_gapless {cs : List ForwardCall} {realTotal maxPos : Nat}
    (hgapless : ∀ (i : Nat) (c : ForwardCall) (q : Nat), cs[i]? = some c → q < c.position →
      ∃ (j : Nat) (c' : ForwardCall), j < i ∧ cs[j]? = some c' ∧ c'.Has q)
    (hcovers : ∀ q, q < realTotal → ∃ (j : Nat) (c : ForwardCall), cs[j]? = some c ∧ c.Has q)
    {i q : Nat} {c : ForwardCall} (hc : (cs ++ decodeCalls realTotal maxPos)[i]? = some c)
    (hq : q < c.position) :
    ∃ (j : Nat) (c' : ForwardCall),
      j < i ∧ (cs ++ decodeCalls realTotal maxPos)[j]? = some c' ∧ c'.Has q := by
  rcases getElem?_append_cases hc with hpre | ⟨hle, hdec⟩
  · rcases hgapless i c q hpre hq with ⟨j, c', hj, hc', hhas⟩
    have hlt := (List.getElem?_eq_some_iff.mp hc').1
    exact ⟨j, c', hj, by rw [List.getElem?_append_left hlt, hc'], hhas⟩
  · rcases decodeCalls_getElem?.mp hdec with ⟨hlt, rfl⟩
    simp only at hq
    by_cases hrow : q < realTotal
    · rcases hcovers q hrow with ⟨j, c', hc', hhas⟩
      have hj := (List.getElem?_eq_some_iff.mp hc').1
      exact ⟨j, c', by omega, by rw [List.getElem?_append_left hj, hc'], hhas⟩
    · refine ⟨cs.length + (q - realTotal), ⟨q, 1, true, true⟩, by omega, ?_, le_rfl,
        Nat.lt_succ_self q⟩
      rw [List.getElem?_append_right (Nat.le_add_right _ _), Nat.add_sub_cancel_left]
      exact decodeCalls_getElem?.mpr ⟨by omega, by simp; omega⟩

end Loops

/-- `inference()` throws before the loops if the prompt is longer than the sequence; the assert of
`setPosition` bounds the padding. -/
def inferenceRequest (tileAlignedSchedule useWave : Bool) (realTotal prefillBatchCap maxPos : Nat)
    {seqLen : Nat} (hcap : 0 < prefillBatchCap)
    (hsched : schedTotal tileAlignedSchedule realTotal ≤ seqLen) (hmax : maxPos ≤ seqLen) :
    Request seqLen where
  calls := inferenceCalls tileAlignedSchedule useWave realTotal prefillBatchCap maxPos
  batch_pos := by
    intro c hc
    rcases List.mem_append.mp hc with hc | hc
    · exact (prefillCalls_mem hcap hc).1
    · rcases List.mem_iff_getElem?.mp hc with ⟨i, hi⟩
      rw [(decodeCalls_getElem?.mp hi).2]
      exact Nat.one_pos
  fits := by
    intro c hc
    rcases List.mem_append.mp hc with hc | hc
    · exact (prefillCalls_mem hcap hc).2.2.1.trans hsched
    · rcases List.mem_iff_getElem?.mp hc with ⟨i, hi⟩
      rcases decodeCalls_getElem?.mp hi with ⟨hlt, rfl⟩
      simp only
      omega
  gapless := by
    intro i c hc q hq
    refine decode_gapless (fun i c q hc hq => prefillCalls_gapless hc (Nat.zero_le q) hq)
      (fun q hrow => ?_) hc hq
    exact prefillCalls_covers useWave hcap (Nat.le_add_left _ 0) (Nat.zero_le q)
      (hrow.trans_le (le_schedTotal tileAlignedSchedule realTotal))
  advancing := by
    intro i j c c' hij hc hc' hphase
    unfold inferenceCalls at hc hc'
    rcases getElem?_append_cases hc with hpre | ⟨hle, hdec⟩
    · have hmem := prefillCalls_mem hcap (List.mem_of_getElem? hpre)
      rw [hmem.2.2.2] at hphase
      cases hphase
    · rcases getElem?_append_cases hc' with hpre | ⟨hle', hdec'⟩
      · have := (List.getElem?_eq_some_iff.mp hpre).1
        omega
      · rcases decodeCalls_getElem?.mp hdec with ⟨-, rfl⟩
        rcases decodeCalls_getElem?.mp hdec' with ⟨-, rfl⟩
        simp only
        omega

end Pipeline
end PrefillOpt
