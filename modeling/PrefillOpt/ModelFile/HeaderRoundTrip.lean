import PrefillOpt.ModelFile.Read
import PrefillOpt.ModelFile.Write
import PrefillOpt.Tokenizer.FileRoundTrip

/-!
# ModelFile.HeaderRoundTrip — the program reads the header of the converter

The header is followed key by key, whatever tensors come behind it.
-/

namespace PrefillOpt
namespace ModelFile

open Lib (Binary32)
open TokenizerFile (packInt packInt_some File ints ints_append freadInt_at fread_at)

/-! ## The header -/

/-- The header as integers. -/
def flatParams (params : List (HeaderKey × Int)) : List Int :=
  params.flatMap fun p => [p.1.code, p.2]

theorem packPairs_some {params : List (HeaderKey × Int)} {data : List UInt8}
    (h : packPairs params = some data) :
    data.length = 8 * params.length ∧
    (∀ rest, ints (data ++ rest) = flatParams params ++ ints rest) ∧
    ∀ p ∈ params, -2 ^ 31 ≤ p.2 ∧ p.2 < 2 ^ 31 := by
  induction params generalizing data with
  | nil =>
      cases h
      exact ⟨rfl, fun rest => rfl, fun p hp => absurd hp List.not_mem_nil⟩
  | cons p params ih =>
      rcases p with ⟨key, value⟩
      simp only [packPairs, Option.bind_eq_bind, Option.bind_eq_some_iff, pure] at h
      rcases h with ⟨key', hkey, value', hvalue, data', hdata, heq⟩
      cases heq
      rcases ih hdata with ⟨hlen, hints, hrange⟩
      refine ⟨?_, fun rest => ?_, ?_⟩
      · rw [List.length_append, List.length_append, (packInt_some hkey).1, (packInt_some hvalue).1,
          hlen, List.length_cons]
        omega
      · rw [List.append_assoc, List.append_assoc, ints_append hkey, ints_append hvalue, hints]
        rfl
      · intro p hp
        rcases List.mem_cons.1 hp with rfl | hp
        · unfold packInt at hvalue
          split_ifs at hvalue with hfits
          exact hfits
        · exact hrange p hp

theorem flatParams_length (params : List (HeaderKey × Int)) :
    (flatParams params).length = 2 * params.length := by
  induction params with
  | nil => rfl
  | cons p params ih =>
      rw [flatParams, List.flatMap_cons, List.length_append, ← flatParams, ih, List.length_cons]
      simp
      omega

theorem readKeys_append (params : List (HeaderKey × Int)) (rest : List Int) (h : LoadedHeader) :
    readKeys (flatParams params ++ rest) h
      = readKeys (flatParams params) h >>= fun h => readKeys rest h := by
  induction params generalizing h with
  | nil => rfl
  | cons p params ih =>
      show (readKey p.1.code p.2 h >>= fun h => readKeys (flatParams params ++ rest) h)
        = (readKey p.1.code p.2 h >>= fun h => readKeys (flatParams params) h) >>= _
      cases readKey p.1.code p.2 h with
      | error e => rfl
      | ok h' => exact ih h'

theorem toUint_natCast (n : Nat) : toUint n = u32 n := by
  rw [toUint, u32]
  omega

/-- What `normEpsilon` is read as. -/
def epsilonOf (value : Int) : ℚ := if value = 6 then 1 / 1000000 else 1 / 100000

theorem convertNormEpsilon_eq {value : Int} (h : value = 5 ∨ value = 6) :
    convertNormEpsilon value = .ok (epsilonOf value) := by
  rcases h with rfl | rfl <;> rfl

/-- Keys in front are read first. -/
theorem readKeys_step {params : List (HeaderKey × Int)} {rest : List Int} {h h' : LoadedHeader}
    (hparams : readKeys (flatParams params) h = .ok h') :
    readKeys (flatParams params ++ rest) h = readKeys rest h' := by
  rw [readKeys_append, hparams]
  rfl

theorem flatParams_append (a b : List (HeaderKey × Int)) :
    flatParams (a ++ b) = flatParams a ++ flatParams b :=
  List.flatMap_append

section Keys

variable (h : LoadedHeader)

theorem readKeys_ropeTheta (value : Option Int) :
    readKeys (flatParams (Config.optional .ropeTheta value)) h
      = .ok { h with ropeTheta := (value.map fun v => (floatOfInt v : ℚ)).getD h.ropeTheta } := by
  cases value <;> rfl

theorem readKeys_headDim (value : Option Nat) :
    readKeys (flatParams (Config.optional .headDim (value.map Int.ofNat))) h
      = .ok { h with headDim := (value.map u32).getD h.headDim } := by
  cases value with
  | none => rfl
  | some n =>
      rw [Option.map_some, Option.map_some, Option.getD_some, ← toUint_natCast]
      rfl

theorem readKeys_moeHiddenDim (value : Option Nat) :
    readKeys (flatParams (Config.optional .moeHiddenDim (value.map Int.ofNat))) h
      = .ok { h with moeHiddenDim := (value.map u32).getD h.moeHiddenDim } := by
  cases value with
  | none => rfl
  | some n =>
      rw [Option.map_some, Option.map_some, Option.getD_some, ← toUint_natCast]
      rfl

theorem readKeys_normEpsilon {value : Option Int} (hvalue : ∀ v ∈ value, v = 5 ∨ v = 6) :
    readKeys (flatParams (Config.optional .normEpsilon value)) h
      = .ok { h with normEpsilon := (value.map epsilonOf).getD h.normEpsilon } := by
  cases value with
  | none => rfl
  | some v => rcases hvalue v rfl with rfl | rfl <;> rfl

theorem readKeys_ropeScaling (c : Config) :
    readKeys (flatParams c.ropeScalingParams) h
      = .ok { h with
          ropeScalingFactor :=
            (c.ropeScaling.map fun s => (floatOfInt s.factor : ℚ)).getD h.ropeScalingFactor
          ropeScalingLowFreqFactor := (c.ropeScaling.map fun s =>
            (floatOfInt s.lowFreqFactor : ℚ)).getD h.ropeScalingLowFreqFactor
          ropeScalingHighFreqFactory := (c.ropeScaling.map fun s =>
            (floatOfInt s.highFreqFactory : ℚ)).getD h.ropeScalingHighFreqFactory
          ropeScalingOrigMaxSeqLen := (c.ropeScaling.map fun s =>
            toUint s.origMaxSeqLen).getD h.ropeScalingOrigMaxSeqLen
          ropeType := (c.ropeScaling.map fun s => ropeTypeCode s.ropeType).getD h.ropeType } := by
  rw [Config.ropeScalingParams]
  cases c.ropeScaling <;> rfl

end Keys

/-- The header once all keys are read. -/
def Config.loaded (c : Config) (headerSize : Nat) : LoadedHeader where
  headerSize
  fileSize := 0
  version := 0
  archType := archTypeCode c.archType
  dim := c.dim
  nLayers := c.nLayers
  nHeads := c.nHeads
  headDim := c.headDim.getD 0
  nKvHeads := c.nKvHeads
  nExperts := c.nExperts
  nActiveExperts := c.nActiveExperts
  origSeqLen := 0
  seqLen := c.maxSeqLen
  hiddenDim := c.hiddenDim
  moeHiddenDim := c.moeHiddenDim.getD 0
  hiddenAct := hiddenActCode c.hiddenAct
  qDim := 0
  kvDim := 0
  vocabSize := c.vocabSize
  normEpsilon := (c.normEpsilon.map epsilonOf).getD (1 / 100000)
  ropeType := (c.ropeScaling.map fun s => ropeTypeCode s.ropeType).getD (ropeTypeCode .llama)
  ropeTheta := (c.ropeTheta.map fun v => (floatOfInt v : ℚ)).getD 10000
  ropeScalingFactor := (c.ropeScaling.map fun s => (floatOfInt s.factor : ℚ)).getD 1
  ropeScalingLowFreqFactor := (c.ropeScaling.map fun s => (floatOfInt s.lowFreqFactor : ℚ)).getD 0
  ropeScalingHighFreqFactory :=
    (c.ropeScaling.map fun s => (floatOfInt s.highFreqFactory : ℚ)).getD 0
  ropeScalingOrigMaxSeqLen := (c.ropeScaling.map fun s => s.origMaxSeqLen).getD 0
  weightType := floatTypeCode c.weightsFloatType
  syncType := .f32

theorem readKeys_fixedParams (c : Config) (headerSize : Nat) :
    readKeys (flatParams c.fixedParams) { emptyHeader with headerSize }
      = .ok { emptyHeader with
          headerSize
          version := 0
          archType := archTypeCode c.archType
          hiddenAct := hiddenActCode c.hiddenAct
          dim := toUint c.dim
          hiddenDim := toUint c.hiddenDim
          nLayers := toUint c.nLayers
          nHeads := toUint c.nHeads
          nKvHeads := toUint c.nKvHeads
          weightType := floatTypeCode c.weightsFloatType
          seqLen := toUint c.maxSeqLen
          vocabSize := toUint c.vocabSize
          nExperts := toUint c.nExperts
          nActiveExperts := toUint c.nActiveExperts } := rfl

/-- Every value fits in an `int`: the writer has packed it. -/
def Config.Packed (c : Config) : Prop :=
  ∀ p ∈ c.params, -2 ^ 31 ≤ p.2 ∧ p.2 < 2 ^ 31

theorem Config.Packed.of_fixed {c : Config} (h : c.Packed) {key : HeaderKey} {n : Nat}
    (hmem : (key, (n : Int)) ∈ c.fixedParams) : toUint n = n := by
  have hrange := h (key, n) (by simp [Config.params, hmem])
  rw [toUint_natCast]
  exact u32_of_lt (by omega)

theorem map_u32_getD {value : Option Nat} (h : ∀ n ∈ value, (n : Int) < 2 ^ 31) :
    (value.map u32).getD 0 = value.getD 0 := by
  cases value with
  | none => rfl
  | some n => exact u32_of_lt (by have := h n rfl; omega)

theorem readKeys_params {c : Config} (hpacked : c.Packed)
    (hepsilon : ∀ value ∈ c.normEpsilon, value = 5 ∨ value = 6) (headerSize : Nat) :
    readKeys (flatParams c.params) { emptyHeader with headerSize } = .ok (c.loaded headerSize) := by
  have hfixed (key : HeaderKey) (n : Nat) (hmem : (key, (n : Int)) ∈ c.fixedParams) :
      toUint n = n := hpacked.of_fixed hmem
  have hhead : (c.headDim.map u32).getD emptyHeader.headDim = c.headDim.getD 0 :=
    map_u32_getD fun n hn => (hpacked (.headDim, n) (by
      simp [Config.params, Config.optional, Option.mem_def.1 hn])).2
  have horig : (c.ropeScaling.map fun s => toUint s.origMaxSeqLen).getD
      emptyHeader.ropeScalingOrigMaxSeqLen
        = (c.ropeScaling.map fun s => s.origMaxSeqLen).getD 0 := by
    cases hs : c.ropeScaling with
    | none => rfl
    | some s =>
        have hrange := hpacked (.ropeScalingOrigMaxSeqLen, s.origMaxSeqLen) (by
          simp [Config.params, Config.ropeScalingParams, hs])
        simp only [Option.map_some, Option.getD_some, toUint_natCast]
        exact u32_of_lt (by omega)
  have hmoe : (c.moeHiddenDim.map u32).getD emptyHeader.moeHiddenDim = c.moeHiddenDim.getD 0 :=
    map_u32_getD fun n hn => (hpacked (.moeHiddenDim, n) (by
      simp [Config.params, Config.optional, Option.mem_def.1 hn])).2
  rw [Config.params, flatParams_append, flatParams_append, flatParams_append, flatParams_append,
    flatParams_append, List.append_assoc, List.append_assoc, List.append_assoc, List.append_assoc]
  rw [readKeys_step (readKeys_fixedParams c headerSize), readKeys_step (readKeys_ropeTheta _ _),
    readKeys_step (readKeys_ropeScaling _ _), readKeys_step (readKeys_headDim _ _),
    readKeys_step (readKeys_normEpsilon _ hepsilon), readKeys_moeHiddenDim]
  simp only [hhead, hmoe, horig, hfixed .dim c.dim (by simp [Config.fixedParams]),
    hfixed .hiddenDim c.hiddenDim (by simp [Config.fixedParams]),
    hfixed .nLayers c.nLayers (by simp [Config.fixedParams]),
    hfixed .nHeads c.nHeads (by simp [Config.fixedParams]),
    hfixed .nKvHeads c.nKvHeads (by simp [Config.fixedParams]),
    hfixed .nExperts c.nExperts (by simp [Config.fixedParams]),
    hfixed .nActiveExperts c.nActiveExperts (by simp [Config.fixedParams]),
    hfixed .vocabSize c.vocabSize (by simp [Config.fixedParams]),
    hfixed .maxSeqLen c.maxSeqLen (by simp [Config.fixedParams])]
  rfl

theorem params_length (c : Config) : c.params.length ≤ 22 := by
  rw [Config.params, Config.ropeScalingParams]
  cases c.ropeTheta <;> cases c.ropeScaling <;> cases c.headDim <;> cases c.normEpsilon <;>
    cases c.moeHiddenDim <;> simp [Config.fixedParams, Config.optional]

/-- The header is read as it was written, whatever follows it. -/
theorem loadLlmHeader_writeHeader {c : Config} {header : List UInt8}
    (hwrite : writeHeader c.params = some header)
    (hepsilon : ∀ value ∈ c.normEpsilon, value = 5 ∨ value = 6) {rest : List UInt8}
    (hrest : 8 ≤ rest.length) (maxSeqLen : Nat) (syncType : NnFloatType) :
    loadLlmHeader (header ++ rest) maxSeqLen syncType
      = finishHeader maxSeqLen syncType (header ++ rest).length (c.loaded header.length) := by
  simp only [writeHeader, Option.bind_eq_bind, Option.bind_eq_some_iff, pure] at hwrite
  rcases hwrite with ⟨magic, hmagic, data, hdata, size, hsize, heq⟩
  cases heq
  rcases packPairs_some hdata with ⟨hlen, hints, hpacked⟩
  have hmany := params_length c
  have hmagicLen := (packInt_some hmagic).1
  have hsizeLen := (packInt_some hsize).1
  have hlength : (magic ++ size ++ data).length = magic.length * 2 + data.length := by
    rw [List.length_append, List.length_append]
    omega
  have hbytes : toUint ((magic.length * 2 + data.length : Nat) : Int)
      = (magic ++ size ++ data).length := by
    rw [hlength, toUint_natCast, u32_of_lt (by omega)]
  -- the buffer takes the first two integers of the tensors along
  have hbuffer : data ++ rest = (data ++ rest.take 8) ++ rest.drop 8 := by
    rw [List.append_assoc, List.take_append_drop]
  have hbufferLen : (data ++ rest.take 8).length = (magic ++ size ++ data).length := by
    rw [hlength, List.length_append, List.length_take]
    omega
  have hne : data ++ rest.take 8 ≠ [] := by
    intro hnil
    rw [hnil, List.length_nil] at hbufferLen
    omega
  have hnKv : (i32 ((((magic ++ size ++ data).length : Nat) - 8 : Int) % 2 ^ 64 / 4)).toNat
      = 2 * c.params.length := by
    rw [i32_of_lt (by omega) (by omega)]
    omega
  have hkeys := readKeys_params hpacked hepsilon (magic ++ size ++ data).length
  simp only [] at hkeys
  have hread := fread_at hne ([] ++ magic ++ size) (rest.drop 8) "Cannot read header values"
  rw [hbufferLen] at hread
  have hfile : (⟨magic ++ size ++ data ++ rest, 0⟩ : File)
      = File.at [] (magic ++ (size ++ (data ++ rest))) := by
    simp [File.at]
  rw [loadLlmHeader, hfile, freadInt_at hmagic]
  simp only [bind, Except.bind]
  rw [if_neg (by decide), if_neg (by decide), freadInt_at hsize]
  simp only []
  rw [hbytes, hbuffer, hread]
  simp only [hints, hnKv]
  rw [Nat.mul_mod_right, Nat.add_zero, List.take_left' (flatParams_length _), hkeys]

/-! ## What the header holds -/

/-- The field of a key holds a value; the epsilon holds the number its code stands for. -/
def LoadedHeader.Holds (h : LoadedHeader) : HeaderKey → Int → Prop
  | .version, v => h.version = v
  | .archType, v => h.archType = v
  | .dim, v => h.dim = v
  | .hiddenDim, v => h.hiddenDim = v
  | .nLayers, v => h.nLayers = v
  | .nHeads, v => h.nHeads = v
  | .nKvHeads, v => h.nKvHeads = v
  | .nExperts, v => h.nExperts = v
  | .nActiveExperts, v => h.nActiveExperts = v
  | .vocabSize, v => h.vocabSize = v
  | .maxSeqLen, v => h.seqLen = v ∧ h.origSeqLen = v
  | .hiddenAct, v => h.hiddenAct = v
  | .ropeTheta, v => h.ropeTheta = v
  | .weightsFloatType, v => h.weightType = v
  | .ropeScalingFactor, v => h.ropeScalingFactor = v
  | .ropeScalingLowFreqFactor, v => h.ropeScalingLowFreqFactor = v
  | .ropeScalingHighFreqFactory, v => h.ropeScalingHighFreqFactory = v
  | .ropeScalingOrigMaxSeqLen, v => h.ropeScalingOrigMaxSeqLen = v
  | .ropeType, v => h.ropeType = v
  | .headDim, v => h.headDim = v
  | .normEpsilon, v => convertNormEpsilon v = .ok h.normEpsilon
  | .moeHiddenDim, v => h.moeHiddenDim = v

namespace Config

variable (c : Config)

/-- The architectures with their own rotation. -/
def isQwen3 : Prop := c.archType = .qwen3 ∨ c.archType = .qwen3Moe

instance : Decidable c.isQwen3 := inferInstanceAs (Decidable (_ ∨ _))

/-- What the program makes of a value: a float is the nearest one, Qwen 3 has its own rotation, and
a head without a size gets its share of `dim`. -/
def stored (key : HeaderKey) (value : Int) : Int :=
  match key with
  | .ropeTheta => floatOfInt value
  | .ropeScalingFactor => floatOfInt value
  | .ropeScalingLowFreqFactor => floatOfInt value
  | .ropeScalingHighFreqFactory => floatOfInt value
  | .ropeType => if c.isQwen3 then ropeTypeCode .falcon else value
  | .headDim => if value = 0 then (c.dim / c.nHeads : Nat) else value
  | _ => value

end Config

section Finished

variable {c : Config} {headerSize fileSize maxSeqLen : Nat} {syncType : NnFloatType}

/-- The size of a head: what the header says, or the share of `dim`. -/
def Config.loadedHeadDim (c : Config) : Nat :=
  if c.headDim.getD 0 = 0 then c.dim / c.nHeads else c.headDim.getD 0

/-- The rotation that the program works with. -/
def Config.loadedRopeType (c : Config) : NnRopeType :=
  if c.isQwen3 then .falcon else (c.ropeScaling.map RopeScaling.ropeType).getD .llama

theorem archTypeCode_inj {a b : LlmArchType} : archTypeCode a = archTypeCode b ↔ a = b := by
  cases a <;> cases b <;> decide

/-- The header that the program works with. -/
def Config.finished (c : Config) (headerSize fileSize : Nat) (syncType : NnFloatType) :
    LoadedHeader :=
  { c.loaded headerSize with
    headDim := c.loadedHeadDim
    syncType, fileSize
    origSeqLen := c.maxSeqLen
    seqLen := c.maxSeqLen
    qDim := u32 (c.loadedHeadDim * c.nHeads)
    kvDim := u32 (c.loadedHeadDim * c.nKvHeads)
    ropeType := ropeTypeCode c.loadedRopeType }

theorem finishHeader_loaded (htype : c.weightsFloatType ≠ .unk) (hheads : 0 < c.nHeads)
    (hcap : maxSeqLen = 0 ∨ c.maxSeqLen ≤ maxSeqLen) :
    finishHeader maxSeqLen syncType fileSize (c.loaded headerSize)
      = .ok (c.finished headerSize fileSize syncType) := by
  have hweight : (c.loaded headerSize).weightType ≠ floatTypeCode .unk := by
    show floatTypeCode c.weightsFloatType ≠ _
    cases hwt : c.weightsFloatType <;> first | exact absurd hwt htype | decide
  have hzero : ¬((c.loaded headerSize).headDim = 0 ∧ (c.loaded headerSize).nHeads = 0) :=
    fun h => hheads.ne' h.2
  have hcut : ¬(0 < maxSeqLen ∧ maxSeqLen < (c.loaded headerSize).seqLen) := by
    have hseq : (c.loaded headerSize).seqLen = c.maxSeqLen := rfl
    omega
  have harch : ((c.loaded headerSize).archType = archTypeCode .qwen3
      ∨ (c.loaded headerSize).archType = archTypeCode .qwen3Moe) ↔ c.isQwen3 :=
    or_congr archTypeCode_inj archTypeCode_inj
  have hrope : (if c.isQwen3 then ropeTypeCode .falcon else (c.loaded headerSize).ropeType)
      = ropeTypeCode c.loadedRopeType := by
    rw [Config.loadedRopeType, Config.loaded]
    split_ifs
    · rfl
    · cases c.ropeScaling <;> rfl
  rw [finishHeader, if_neg hweight, if_neg hzero]
  simp only [if_neg hcut, harch, hrope]
  rfl

theorem holds_optional {key : HeaderKey} {value : Option Int} {P : HeaderKey → Int → Prop}
    (h : ∀ v ∈ value, P key v) : ∀ p ∈ Config.optional key value, P p.1 p.2 := by
  cases value with
  | none => exact fun p hp => absurd hp List.not_mem_nil
  | some v =>
      intro p hp
      rw [List.mem_singleton.1 hp]
      exact h v rfl

/-- Every field holds what the program makes of the value that was written. -/
theorem holds_finished (hepsilon : ∀ value ∈ c.normEpsilon, value = 5 ∨ value = 6) :
    ∀ p ∈ c.params, (c.finished headerSize fileSize syncType).Holds p.1 (c.stored p.1 p.2) := by
  have hoptional {key : HeaderKey} {value : Option Int}
      (h : ∀ v ∈ value, (c.finished headerSize fileSize syncType).Holds key (c.stored key v)) :
      ∀ p ∈ Config.optional key value,
        (c.finished headerSize fileSize syncType).Holds p.1 (c.stored p.1 p.2) :=
    @holds_optional key value
      (fun key v => (c.finished headerSize fileSize syncType).Holds key (c.stored key v)) h
  simp only [Config.params, List.forall_mem_append]
  refine ⟨⟨⟨⟨⟨?_, hoptional fun v hv => ?_⟩, ?_⟩, hoptional fun v hv => ?_⟩,
    hoptional fun v hv => ?_⟩, hoptional fun v hv => ?_⟩
  · simp [Config.fixedParams, LoadedHeader.Holds, Config.stored, Config.finished, Config.loaded]
  · simp [LoadedHeader.Holds, Config.stored, Config.finished, Config.loaded, Option.mem_def.1 hv]
  · rw [Config.ropeScalingParams]
    cases hs : c.ropeScaling with
    | none => exact fun p hp => absurd hp List.not_mem_nil
    | some s =>
        by_cases hqwen : c.isQwen3 <;>
          simp [LoadedHeader.Holds, Config.stored, Config.finished, Config.loaded,
            Config.loadedRopeType, hs, hqwen]
  · rcases Option.map_eq_some_iff.1 hv with ⟨n, hn, rfl⟩
    by_cases hzero : n = 0 <;>
      simp [LoadedHeader.Holds, Config.stored, Config.finished, Config.loadedHeadDim, hn, hzero]
  · simp [LoadedHeader.Holds, Config.stored, Config.finished, Config.loaded, Option.mem_def.1 hv,
      convertNormEpsilon_eq (hepsilon v hv)]
  · rcases Option.map_eq_some_iff.1 hv with ⟨n, hn, rfl⟩
    simp [LoadedHeader.Holds, Config.stored, Config.finished, Config.loaded, hn]

/-- The header of the graph. -/
def Config.header (c : Config) (headerSize fileSize : Nat) (syncType : NnFloatType) :
    LlmHeader where
  headerSize
  fileSize
  archType := c.archType
  dim := c.dim
  nLayers := c.nLayers
  nHeads := c.nHeads
  headDim := c.loadedHeadDim
  nKvHeads := c.nKvHeads
  nExperts := c.nExperts
  nActiveExperts := c.nActiveExperts
  seqLen := c.maxSeqLen
  hiddenDim := c.hiddenDim
  moeHiddenDim := c.moeHiddenDim.getD 0
  qDim := u32 (c.loadedHeadDim * c.nHeads)
  kvDim := u32 (c.loadedHeadDim * c.nKvHeads)
  vocabSize := c.vocabSize
  weightType := c.weightsFloatType
  syncType
  normEpsilon := (c.normEpsilon.map epsilonOf).getD (1 / 100000)
  ropeType := c.loadedRopeType
  ropeTheta := (c.ropeTheta.map fun v => (floatOfInt v : ℚ)).getD 10000
  ropeScalingFactor := (c.ropeScaling.map fun s => (floatOfInt s.factor : ℚ)).getD 1
  ropeScalingLowFreqFactor := (c.ropeScaling.map fun s => (floatOfInt s.lowFreqFactor : ℚ)).getD 0
  ropeScalingHighFreqFactory :=
    (c.ropeScaling.map fun s => (floatOfInt s.highFreqFactory : ℚ)).getD 0
  ropeScalingOrigMaxSeqLen := (c.ropeScaling.map fun s => s.origMaxSeqLen).getD 0

theorem graphHeader_finished :
    (c.finished headerSize fileSize syncType).graphHeader
      = some (c.header headerSize fileSize syncType) := by
  have harch (x : LlmArchType) : archTypeOf (archTypeCode x) = some x := by
    cases x <;> rfl
  have htype (x : NnFloatType) : floatTypeOf (floatTypeCode x) = some x := by
    cases x <;> rfl
  have hrope (x : NnRopeType) : ropeTypeOf (ropeTypeCode x) = some x := by
    cases x <;> rfl
  simp only [LoadedHeader.graphHeader, Config.finished, Config.loaded, harch, htype, hrope]
  rfl

end Finished

/-- The codes of the converter. -/
theorem epsilon_of_loadConfig {config : HfConfig} {floatType : NnFloatType} {c : Config}
    (h : loadConfig config floatType = .ok c) : ∀ value ∈ c.normEpsilon, value = 5 ∨ value = 6 := by
  rcases bind_eq_ok h with ⟨archType, -, h⟩
  rcases bind_eq_ok h with ⟨hiddenAct, -, h⟩
  rcases bind_eq_ok h with ⟨ropeScaling, -, h⟩
  rcases bind_eq_ok h with ⟨normEpsilon, hepsilon, h⟩
  cases h
  intro value hvalue
  simp only [Option.mem_def] at hvalue
  subst hvalue
  cases heps : config.rmsNormEps with
  | none =>
      rw [heps] at hepsilon
      cases hepsilon
  | some epsilon =>
      rw [heps] at hepsilon
      rcases bind_eq_ok (show (parseRmsNormEpsilon epsilon >>= fun v => pure (some v))
        = .ok (some value) from hepsilon) with ⟨v, hv, hsome⟩
      cases hsome
      unfold parseRmsNormEpsilon at hv
      split_ifs at hv
      · cases hv
        exact .inl rfl
      · cases hv
        exact .inr rfl

end ModelFile
end PrefillOpt
