import PrefillOpt.AttentionHeads
import PrefillOpt.Lib.Interleaving
import PrefillOpt.Lib.Loops

/-!
# Kernels.Rope — rotary position embeddings

`nn-core.cpp`, the two caches of cosines and sines; `nn-cpu-ops.cpp`, `ropeLlama_F32` and
`ropeFalcon_F32`.  The first rotates neighbours, the second the two halves of a head.
-/

namespace PrefillOpt
namespace Kernels

open Lib

/-- The config of a rope op. -/
structure NnRopeOpConfig where
  type : NnRopeType
  isQ : Bool
  ropeScalingFactor : ℚ
  ropeScalingLowFreqFactor : ℚ
  ropeScalingHighFreqFactor : ℚ
  ropeScalingOrigMaxSeqLen : Nat
  slice : NnRopeSlice

/-- The functions of the C library and the conversions to `float`. -/
structure RopeMath (F : Type) where
  /-- an `NnUint` as a `float` -/
  ofNat : Nat → F
  /-- the `float` of a header field -/
  ofRat : ℚ → F
  powf : F → F → F
  cosf : F → F
  sinf : F → F
  /-- `2.0f * M_PI / freq` -/
  waveLen : F → F

/-- `for (i = a; i < b; i += 2)`. -/
def evenSteps (a b : Nat) : List Nat :=
  (List.range ((b - a + 1) / 2)).map fun k => a + 2 * k

theorem mem_evenSteps {a b i : Nat} : i ∈ evenSteps a b ↔ a ≤ i ∧ i < b ∧ (i - a) % 2 = 0 := by
  simp only [evenSteps, List.mem_map, List.mem_range]
  constructor
  · rintro ⟨k, hk, rfl⟩
    omega
  · rintro ⟨ha, hb, heven⟩
    exact ⟨(i - a) / 2, by omega, by omega⟩

theorem nodup_evenSteps (a b : Nat) : (evenSteps a b).Nodup := by
  refine List.Nodup.map (fun k k' h => ?_) List.nodup_range
  have hsame : a + 2 * k = a + 2 * k' := h
  omega

/-- The loops over positions and dimensions take no turn twice. -/
theorem nodup_turns {l : List Nat} {f : Nat → List Nat} (hl : l.Nodup) (hf : ∀ a, (f a).Nodup) :
    (l.flatMap fun a => (f a).map fun b => (a, b)).Nodup :=
  nodup_nested hl hf fun h => Prod.mk.inj h

/-- The entries of different turns are different. -/
def Apart {κ : Type} (a b : κ → Nat) (l : List κ) : Prop :=
  (∀ k ∈ l, a k ≠ b k) ∧
    ∀ k ∈ l, ∀ k' ∈ l, k' ≠ k → a k ≠ a k' ∧ a k ≠ b k' ∧ b k ≠ a k' ∧ b k ≠ b k'

/-- A loop that stores two values in each turn. -/
theorem foldl_storePair {F κ : Type} {a b : κ → Nat} {u v : κ → F} {l : List κ} (hnd : l.Nodup)
    (hapart : Apart a b l) {k : κ} (hk : k ∈ l) (x : Mem F) :
    let y := l.foldl (fun x k => Function.update (Function.update x (a k) (u k)) (b k) (v k)) x
    y (a k) = u k ∧ y (b k) = v k := by
  refine foldl_once (P := fun _ : Mem F => True)
    (Q := fun y : Mem F => y (a k) = u k ∧ y (b k) = v k) hnd hk (fun _ _ _ _ _ => trivial)
    (fun x _ => ?_) (fun k' hk' hne y hy => ?_) trivial
  · exact ⟨(Function.update_of_ne (hapart.1 k hk) ..).trans (Function.update_self ..),
      Function.update_self ..⟩
  · rcases hapart.2 k hk k' hk' hne with ⟨haa, hab, hba, hbb⟩
    exact ⟨(Function.update_of_ne hab ..).trans ((Function.update_of_ne haa ..).trans hy.1),
      (Function.update_of_ne hbb ..).trans ((Function.update_of_ne hba ..).trans hy.2)⟩

/-! ## The caches -/

section Caches

variable {F : Type} [Add F] [Sub F] [Mul F] [Div F] [LT F] [DecidableLT F] (m : RopeMath F)
  (config : NnRopeOpConfig)

def scaleFrequencyLlama3 (freq : F) : F :=
  let waveLen := m.waveLen freq
  let origMaxSeqLen := m.ofNat config.ropeScalingOrigMaxSeqLen
  let factor := m.ofRat config.ropeScalingFactor
  let low := m.ofRat config.ropeScalingLowFreqFactor
  let high := m.ofRat config.ropeScalingHighFreqFactor
  let highFreqWavelen := origMaxSeqLen / high
  let lowFreqWavelen := origMaxSeqLen / low
  if waveLen < highFreqWavelen then freq
  else if lowFreqWavelen < waveLen then freq / factor
  else
    let smooth := (origMaxSeqLen / waveLen - low) / (high - low)
    (m.ofNat 1 - smooth) * freq / factor + smooth * freq

/-- The frequency of dimension `h` of a head. -/
def ropeLlamaFreq (h : Nat) : F :=
  let freq := m.ofNat 1 /
    m.powf (m.ofRat config.slice.ropeTheta) (m.ofNat h / m.ofNat config.slice.headDim)
  if config.ropeScalingFactor ≠ 1 then scaleFrequencyLlama3 m config freq else freq

/-- The positions and dimensions that `fullfillRopeLlamaCache` goes through. -/
def ropeLlamaTurns (slice : NnRopeSlice) : List (Nat × Nat) :=
  (List.range slice.seqLen).flatMap fun pos =>
    (evenSteps slice.kvDimStart slice.qDimEnd).map fun i => (pos, i)

/-- Where the cosine of a turn goes. -/
def ropeLlamaCosAt (slice : NnRopeSlice) (turn : Nat × Nat) : Nat :=
  u32 (turn.1 * slice.sliceDim + (turn.2 - slice.kvDimStart))

/-- Where the sine of a turn goes. -/
def ropeLlamaSinAt (slice : NnRopeSlice) (turn : Nat × Nat) : Nat :=
  u32 (turn.1 * slice.sliceDim + (turn.2 - slice.kvDimStart) + 1)

/-- The interleaved cache of a table of frequencies. -/
def fillRopeLlamaCache (slice : NnRopeSlice) (freq : Nat → F) (cache : Mem F) : Mem F :=
  (ropeLlamaTurns slice).foldl (fun cache turn =>
    let val := m.ofNat turn.1 * freq (turn.2 % slice.headDim)
    let fcr := m.cosf val
    let fci := m.sinf val
    Function.update (Function.update cache (ropeLlamaCosAt slice turn) fcr)
      (ropeLlamaSinAt slice turn) fci) cache

def fullfillRopeLlamaCache (cache : Mem F) : Mem F :=
  fillRopeLlamaCache m config.slice (ropeLlamaFreq m config) cache

/-- The frequency of pair `j` of a head. -/
def ropeFalconFreq (j : Nat) : F :=
  m.ofNat 1 / m.powf (m.ofRat config.slice.ropeTheta)
    (m.ofNat 2 * (m.ofNat j / m.ofNat config.slice.headDim))

def ropeFalconTurns (slice : NnRopeSlice) : List (Nat × Nat) :=
  (List.range slice.seqLen).flatMap fun pos =>
    (List.range (slice.headDim / 2)).map fun j => (pos, j)

def ropeFalconCosAt (slice : NnRopeSlice) (turn : Nat × Nat) : Nat :=
  u32 (turn.1 * slice.headDim + turn.2)

def ropeFalconSinAt (slice : NnRopeSlice) (turn : Nat × Nat) : Nat :=
  u32 (turn.1 * slice.headDim + turn.2 + slice.headDim / 2)

/-- The cache of the halves of a head, of a table of frequencies. -/
def fillRopeFalconCache (slice : NnRopeSlice) (freq : Nat → F) (cache : Mem F) : Mem F :=
  (ropeFalconTurns slice).foldl (fun cache turn =>
    let val := m.ofNat turn.1 * freq turn.2
    let fcr := m.cosf val
    let fci := m.sinf val
    Function.update (Function.update cache (ropeFalconCosAt slice turn) fcr)
      (ropeFalconSinAt slice turn) fci) cache

def fullfillRopeFalconCache (cache : Mem F) : Mem F :=
  fillRopeFalconCache m config.slice (ropeFalconFreq m config) cache

end Caches

/-! ## The rotations -/

section Rotations

variable {F : Type} [Add F] [Sub F] [Mul F]

/-- Entries `a` and `b` turned by the angle of a cosine and a sine. -/
def rotatePair (x : Mem F) (a b : Nat) (fcr fci : F) : Mem F :=
  let v0 := x a
  let v1 := x b
  Function.update (Function.update x a (v0 * fcr - v1 * fci)) b (v0 * fci + v1 * fcr)

/-- `&cache[pos * slice->sliceDim + shift]`. -/
def ropeLlamaPosCache (isQ : Bool) (pos : Nat) (slice : NnRopeSlice) : Nat :=
  let shift := if isQ then slice.qShift else 0
  u32 (pos * slice.sliceDim + shift)

/-- `ropeLlama_F32`: the first entries of the pairs that a thread rotates. -/
def ropeLlamaPairs (isQ : Bool) (slice : NnRopeSlice) (nThreads threadIndex : Nat) : List Nat :=
  let dim0Half := (if isQ then slice.qDim0 else slice.kvDim0) / 2
  let (s, e) := splitThreads dim0Half nThreads threadIndex
  evenSteps (s * 2) (e * 2)

/-- The threads of the op. -/
def ropeLlamaThreads (isQ : Bool) (slice : NnRopeSlice) (nThreads threadIndex : Nat) : List Nat :=
  if threadIndex < nThreads then ropeLlamaPairs isQ slice nThreads threadIndex else []

/-- One turn of the loop of `ropeLlama_F32`. -/
def ropeLlamaStep (cache : Mem F) (isQ : Bool) (pos : Nat) (slice : NnRopeSlice) (x : Mem F)
    (i : Nat) : Mem F :=
  let posCache := ropeLlamaPosCache isQ pos slice
  rotatePair x i (i + 1) (cache (posCache + i)) (cache (posCache + (i + 1)))

/-- `ropeFalcon_F32`: the heads and the first entries of the pairs that a thread rotates. -/
def ropeFalconPairs (isQ : Bool) (slice : NnRopeSlice) (nThreads threadIndex : Nat) :
    List (Nat × Nat) :=
  let dim0 := if isQ then slice.qDim0 else slice.kvDim0
  let nHeads0 := dim0 / slice.headDim
  let (h0s, h0e) := splitThreads nHeads0 nThreads threadIndex
  (List.range' h0s (h0e - h0s)).flatMap fun h =>
    (List.range (slice.headDim / 2)).map fun j => (h, j)

def ropeFalconThreads (isQ : Bool) (slice : NnRopeSlice) (nThreads threadIndex : Nat) :
    List (Nat × Nat) :=
  if threadIndex < nThreads then ropeFalconPairs isQ slice nThreads threadIndex else []

/-- One turn of the loops of `ropeFalcon_F32`. -/
def ropeFalconStep (cache : Mem F) (pos : Nat) (slice : NnRopeSlice) (x : Mem F)
    (turn : Nat × Nat) : Mem F :=
  let posCache := u32 (pos * slice.headDim)
  let o := turn.1 * slice.headDim
  rotatePair x (o + turn.2) (o + turn.2 + slice.headDim / 2) (cache (posCache + turn.2))
    (cache (posCache + (turn.2 + slice.headDim / 2)))

/-! ## Rotations of different entries -/

section Disjoint

variable {κ : Type} {a b : κ → Nat} {fcr fci : κ → F} {l : List κ}

theorem rotatePair_left (x : Mem F) {i j : Nat} (h : i ≠ j) (u v : F) :
    rotatePair x i j u v i = x i * u - x j * v :=
  (Function.update_of_ne h ..).trans (Function.update_self ..)

theorem rotatePair_right (x : Mem F) (i j : Nat) (u v : F) :
    rotatePair x i j u v j = x i * v + x j * u :=
  Function.update_self ..

theorem rotatePair_of_ne (x : Mem F) {i j k : Nat} (hi : k ≠ i) (hj : k ≠ j) (u v : F) :
    rotatePair x i j u v k = x k :=
  (Function.update_of_ne hj ..).trans (Function.update_of_ne hi ..)

/-- In a loop over pairs that have no entry in common every pair is rotated once. -/
theorem foldl_rotatePair (hnd : l.Nodup) (hapart : Apart a b l) {k : κ} (hk : k ∈ l) (x : Mem F) :
    let y := l.foldl (fun x k => rotatePair x (a k) (b k) (fcr k) (fci k)) x
    y (a k) = x (a k) * fcr k - x (b k) * fci k ∧
      y (b k) = x (a k) * fci k + x (b k) * fcr k := by
  refine foldl_once (P := fun y : Mem F => y (a k) = x (a k) ∧ y (b k) = x (b k))
    (Q := fun y : Mem F => y (a k) = x (a k) * fcr k - x (b k) * fci k ∧
      y (b k) = x (a k) * fci k + x (b k) * fcr k) hnd hk
    (fun k' hk' hne y hy => ?_) (fun y hy => ?_) (fun k' hk' hne y hy => ?_) ⟨rfl, rfl⟩
  · rcases hapart.2 k hk k' hk' hne with ⟨haa, hab', hba, hbb⟩
    rw [rotatePair_of_ne _ haa hab', rotatePair_of_ne _ hba hbb]
    exact hy
  · rw [rotatePair_left _ (hapart.1 k hk), rotatePair_right, hy.1, hy.2]
    exact ⟨rfl, rfl⟩
  · rcases hapart.2 k hk k' hk' hne with ⟨haa, hab', hba, hbb⟩
    rw [rotatePair_of_ne _ haa hab', rotatePair_of_ne _ hba hbb]
    exact hy

end Disjoint

/-! ## The threads of the interleaved rotation -/

section Threads

variable {isQ : Bool} {slice : NnRopeSlice} {nThreads : Nat}

/-- The entries of a row. -/
def dim0 (isQ : Bool) (slice : NnRopeSlice) : Nat :=
  if isQ then slice.qDim0 else slice.kvDim0

theorem mem_ropeLlamaThreads {t i : Nat} :
    i ∈ ropeLlamaThreads isQ slice nThreads t ↔
      t < nThreads ∧ i % 2 = 0 ∧ blockStart (dim0 isQ slice / 2) nThreads t ≤ i / 2 ∧
        i / 2 < blockStart (dim0 isQ slice / 2) nThreads t
          + blockCount (dim0 isQ slice / 2) nThreads t := by
  by_cases ht : t < nThreads
  · rw [ropeLlamaThreads, if_pos ht]
    simp only [ropeLlamaPairs, splitThreads_eq, mem_evenSteps, ht, true_and, dim0]
    omega
  · simp [ropeLlamaThreads, ht]

theorem nodup_ropeLlamaThreads (t : Nat) : (ropeLlamaThreads isQ slice nThreads t).Nodup := by
  by_cases ht : t < nThreads
  · rw [ropeLlamaThreads, if_pos ht]
    exact nodup_evenSteps _ _
  · rw [ropeLlamaThreads, if_neg ht]
    exact List.nodup_nil

variable {trace : List (Nat × Nat)} (htr : Interleaves (ropeLlamaThreads isQ slice nThreads) trace)
include htr

/-- Every pair of the row is rotated by some thread, and by nobody else. -/
theorem exists_ropeLlama_turn (hn : 0 < nThreads) {i : Nat} (heven : i % 2 = 0)
    (hi : i + 1 < dim0 isQ slice) : ∃ t, (t, i) ∈ trace := by
  rcases exists_block (m := dim0 isQ slice / 2) (b := i / 2) hn (by omega) with ⟨t, ht, hblock⟩
  exact ⟨t, htr.mem_prog.2 (mem_ropeLlamaThreads.2 ⟨ht, heven, hblock⟩)⟩

/-- The row after the op, whatever the order of the threads. -/
theorem runTrace_ropeLlama (hn : 0 < nThreads) {i : Nat} (heven : i % 2 = 0)
    (hi : i + 1 < dim0 isQ slice) (cache : Mem F) (pos : Nat) (x : Mem F) :
    let posCache := ropeLlamaPosCache isQ pos slice
    let y := runTrace (ropeLlamaStep cache isQ pos slice) x trace
    y i = x i * cache (posCache + i) - x (i + 1) * cache (posCache + (i + 1)) ∧
      y (i + 1) = x i * cache (posCache + (i + 1)) + x (i + 1) * cache (posCache + i) := by
  rcases exists_ropeLlama_turn htr hn heven hi with ⟨t, hmem⟩
  refine foldl_rotatePair (a := fun e : Nat × Nat => e.2) (b := fun e => e.2 + 1)
    (htr.nodup nodup_ropeLlamaThreads)
    ⟨fun e _ => Nat.ne_of_lt (Nat.lt_succ_self e.2), fun e he e' he' hne => ?_⟩ hmem x
  have he := mem_ropeLlamaThreads.1 (htr.mem_prog.1 he)
  have he' := mem_ropeLlamaThreads.1 (htr.mem_prog.1 he')
  have hdim : e.2 ≠ e'.2 := by
    intro heq
    rw [← heq] at he'
    exact hne (Prod.ext (block_unique he'.2.2.1 he'.2.2.2 he.2.2.1 he.2.2.2) heq.symm)
  dsimp only
  omega

end Threads

end Rotations

end Kernels
end PrefillOpt
