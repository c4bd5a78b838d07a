import PrefillOpt.Pipeline.DeltaBase
import PrefillOpt.Pipeline.StageRequests

/-!
# Pipeline.StagePipeline — `inference()` on a pipeline of stages

Every request of `inference()` completes and leaves what the lockstep run leaves.  Without
differences the pipes of the root and the memories of the stages are those of one model whose
layers run one after the other, on rows that have been through the wire format.
-/

namespace PrefillOpt
namespace Pipeline

open Lib Network

variable {β F σ : Type}

namespace StageSetup

/-! ## The start -/

/-- The nodes at the start: communicators without bases, and pipes with their rows. -/
structure Fresh (S : StageSetup β F σ) (s : Stages β F σ) : Prop where
  sized : ∀ r, r < S.ppSize → S.Sized (s.memory r)
  tokenFromWorker : s.root.pipes.tokenFromWorker.length = 4
  topKPacked : s.root.pipes.topKPacked.length = 8 * s.root.controlPacket.topKCount
  isFinished : ∀ r, 0 < r → r < S.ppSize → (s.worker r).inference.isFinished = false
  pipeline : ∀ r, r < S.ppSize → ∃ on minBytes chunk,
    s.pipeline r = .create S.topology r on minBytes chunk
  skip : s.root.controlPacket.stageSkipEnabled ≠ 1
  activationType : s.root.controlPacket.activationType ≠ .unk
  packet : s.root.controlPacket.Fits

theorem Fresh.steady {S : StageSetup β F σ} {s : Stages β F σ} (h : Fresh S s) : Steady S s := by
  have hpos : 0 < S.ppSize := Nat.lt_of_lt_of_le Nat.two_pos S.two_le_ppSize
  refine ⟨h.sized 0 hpos, h.tokenFromWorker, h.topKPacked,
    fun r hr hlt => ⟨?_, h.isFinished r hr hlt⟩, fun r hr => ?_, h.skip,
    h.activationType, h.packet⟩
  · have hsized := h.sized r hlt
    rwa [Stages.memory, if_neg (Nat.ne_of_gt hr)] at hsized
  · rcases h.pipeline r hr with ⟨on, minBytes, chunk, hsource⟩
    rcases h.pipeline _ (S.nextParty_lt_ppSize hr) with ⟨on', minBytes', chunk', htarget⟩
    have hcreate := Linked.create (F := F) (S.link r hr) on on' minBytes minBytes' chunk chunk'
    rw [S.link_sender, S.link_receiver] at hcreate
    rw [hsource, htarget]
    exact hcreate

/-! ## The packet in bytes -/

/-- Without the name of the log file and the positions by group. -/
abbrev PacketWords : Type :=
  UInt32 × UInt32 × UInt32 × UInt32 × UInt32 × UInt32 × UInt32 × NnFloatType × UInt32 × UInt32 ×
    UInt32 × UInt32 × UInt32 × UInt32 × Fixed × Fixed × UInt32 × UInt32 ×
    List.Vector UInt32 MAX_CONTROL_BATCH_POS

private theorem positionWords_length (positions : List Nat) :
    ((List.range MAX_CONTROL_BATCH_POS).map fun i => UInt32.ofNat (positions.getD i 0)).length
      = MAX_CONTROL_BATCH_POS := by
  rw [List.length_map, List.length_range]

def positionWords (positions : List Nat) : List.Vector UInt32 MAX_CONTROL_BATCH_POS :=
  ⟨(List.range MAX_CONTROL_BATCH_POS).map fun i => UInt32.ofNat (positions.getD i 0),
    positionWords_length positions⟩

theorem toNat_positionWords {positions : List Nat}
    (hlength : positions.length = MAX_CONTROL_BATCH_POS) (hlt : ∀ pos ∈ positions, pos < 2 ^ 32) :
    (positionWords positions).toList.map UInt32.toNat = positions := by
  apply List.ext_getElem
  · rw [List.length_map, List.Vector.toList_length, hlength]
  · intro i hi hi'
    have hword : positions[i] < 2 ^ 32 := hlt _ (List.getElem_mem hi')
    have hread : positions.getD i 0 = positions[i] := by
      rw [List.getD_eq_getElem?_getD, List.getElem?_eq_getElem hi', Option.getD_some]
    simp only [positionWords, List.Vector.toList_mk, List.getElem_map, List.getElem_range, hread,
      UInt32.toNat_ofNat_of_lt' hword]

def packetWords (p : LlmControlPacket Fixed) : PacketWords :=
  (.ofNat p.position, .ofNat p.batchSize, .ofNat p.phase, .ofNat p.isLastPrefillChunk,
    .ofNat p.positionMode, .ofNat p.tokenOnlyMode, .ofNat p.topKCount, p.activationType,
    .ofNat p.pipelineDelta, .ofNat p.pipelineDeltaMinBytes, .ofNat p.pipelineChunkBytes,
    .ofNat p.stageSkipShadow, .ofNat p.stageSkipEnabled, .ofNat p.stageSkipTarget,
    p.stageSkipTheta, p.stageSkipAlpha, .ofNat p.stageSkipMaxConsecutive,
    .ofNat p.stageSkipMaxRejectStreak, positionWords p.batchPositions)

def packetOfWords : PacketWords → LlmControlPacket Fixed
  | (position, batchSize, phase, isLast, mode, tokenOnly, topK, type, delta, minBytes, chunk,
      shadow, enabled, target, theta, alpha, maxConsecutive, maxReject, positions) =>
    ⟨position.toNat, batchSize.toNat, phase.toNat, isLast.toNat, mode.toNat, tokenOnly.toNat,
      topK.toNat, type, delta.toNat, minBytes.toNat, chunk.toNat, shadow.toNat, enabled.toNat,
      target.toNat, theta, alpha, maxConsecutive.toNat, maxReject.toNat,
      positions.toList.map UInt32.toNat⟩

theorem packetOfWords_words {p : LlmControlPacket Fixed} (h : p.Fits) :
    packetOfWords (packetWords p) = p := by
  simp only [packetWords, packetOfWords, UInt32.toNat_ofNat_of_lt' h.position,
    UInt32.toNat_ofNat_of_lt' h.batchSize, UInt32.toNat_ofNat_of_lt' h.phase,
    UInt32.toNat_ofNat_of_lt' h.isLastPrefillChunk, UInt32.toNat_ofNat_of_lt' h.positionMode,
    UInt32.toNat_ofNat_of_lt' h.tokenOnlyMode, UInt32.toNat_ofNat_of_lt' h.topKCount,
    UInt32.toNat_ofNat_of_lt' h.pipelineDelta, UInt32.toNat_ofNat_of_lt' h.pipelineDeltaMinBytes,
    UInt32.toNat_ofNat_of_lt' h.pipelineChunkBytes, UInt32.toNat_ofNat_of_lt' h.stageSkipShadow,
    UInt32.toNat_ofNat_of_lt' h.stageSkipEnabled, UInt32.toNat_ofNat_of_lt' h.stageSkipTarget,
    UInt32.toNat_ofNat_of_lt' h.stageSkipMaxConsecutive,
    UInt32.toNat_ofNat_of_lt' h.stageSkipMaxRejectStreak,
    toNat_positionWords h.batchPositions_length h.batchPositions_lt]

def fixedPackets : PacketFormat UInt8 Fixed where
  packetSize := Raw.size PacketWords
  storePacket p := Raw.store (packetWords p)
  loadPacket bs := packetOfWords (Raw.load bs)
  storePacket_length _ := Raw.store_length _
  loadPacket_store _ hfits := by
    rw [Raw.load_store]
    exact packetOfWords_words hfits

/-! ## A small setting -/

/-- The stages double the rows and add their rank; the logits are the rows. -/
private def doubleRows (r : Nat) (m : NodeMemory UInt8 (List UInt8)) :
    NodeMemory UInt8 (List UInt8) :=
  let rows := if r = 0 then overwrite m.xPipe (m.rest.take m.xPipe.length)
    else m.xPipe.map (2 * · + .ofNat r)
  { m with
    xPipe := rows
    logitsPipe := overwrite m.logitsPipe (rows.take m.logitsPipe.length) }

private theorem overwrite_take_length (xs ys : List UInt8) :
    (overwrite xs (ys.take xs.length)).length = xs.length :=
  overwrite_length (List.length_take_le _ _)

/-- `executor->forward()`; the phase and the positions do not matter. -/
private def doubleForward (r : Nat) (_ : Bool) (_ : List Nat) :
    NodeMemory UInt8 (List UInt8) → NodeMemory UInt8 (List UInt8) :=
  doubleRows r

private theorem doubleForward_xPipe (r : Nat) (phase : Bool) (pos : List Nat)
    (m : NodeMemory UInt8 (List UInt8)) :
    (doubleForward r phase pos m).xPipe.length = m.xPipe.length := by
  unfold doubleForward doubleRows
  split_ifs
  · exact overwrite_take_length _ _
  · exact List.length_map _

private theorem doubleForward_logitsPipe (r : Nat) (phase : Bool) (pos : List Nat)
    (m : NodeMemory UInt8 (List UInt8)) :
    (doubleForward r phase pos m).logitsPipe.length = m.logitsPipe.length :=
  overwrite_take_length _ _

private def topZeros (_ : List Fixed) (k : Nat) : List Fixed := List.replicate (2 * k) 0

private theorem topZeros_length (logits : List Fixed) (k : Nat) (_ : k ≤ logits.length) :
    (topZeros logits k).length = 2 * k :=
  List.length_replicate

private theorem four_mod : 4 % 4 = 0 := rfl

private theorem eight_lt : 4 * 2 < 2 ^ 64 := by decide

private theorem two_lt : 2 < 2 ^ 32 := by decide

private theorem two_le_two : 2 ≤ 2 := Nat.le_refl 2

/-- Two stages with rows of one float. -/
def twoStageSetup : StageSetup UInt8 Fixed (List UInt8) where
  fmt := fixedFormat
  packets := fixedPackets
  ppSize := 2
  two_le_ppSize := two_le_two
  nBatches := 2
  nBatches_pos := Nat.two_pos
  nBatches_lt := two_lt
  xPipeRowBytes := 4
  xPipeRowBytes_words := four_mod
  xPipe_lt := eight_lt
  logitsPipeRowBytes := 4
  logitsPipeRowBytes_words := four_mod
  logitsPipe_lt := eight_lt
  forward := doubleForward
  forward_xPipe := doubleForward_xPipe
  forward_logitsPipe := doubleForward_logitsPipe
  setTokens c pipes := .ofNat c.position :: pipes.memory.logitsPipe
  metric _ := none
  fusedLmHeadArgmax := false
  sampleArgmaxToken _ := 0
  packTopKLogits := topZeros
  packTopKLogits_length := topZeros_length

private def emptyMemory : NodeMemory UInt8 (List UInt8) :=
  ⟨List.replicate 8 0, List.replicate 8 0, []⟩

private def firstPacket : LlmControlPacket Fixed :=
  ⟨0, 0, 0, 1, 0, 0, 0, .f32, 0, 0, 0, 0, 0, 0, 0, 0, 0, 0, List.replicate MAX_CONTROL_BATCH_POS 0⟩

def twoStageStart : Stages UInt8 Fixed (List UInt8) where
  root := ⟨firstPacket, .create twoStageSetup.topology 0 false 0 0, [],
    ⟨emptyMemory, List.replicate 4 0, []⟩⟩
  worker r := ⟨⟨false, firstPacket, false, 0, [], false, false, false, 0, false, 0, 0, 0⟩,
    .create twoStageSetup.topology r false 0 0, .f32, emptyMemory⟩

private theorem firstPacket_fits : firstPacket.Fits := by
  have hzero : 0 < 2 ^ 32 := Nat.two_pow_pos 32
  refine ⟨hzero, hzero, hzero, Nat.one_lt_two_pow (by decide), hzero, hzero, hzero, hzero, hzero,
    hzero, hzero, hzero, hzero, hzero, hzero, List.length_replicate, ?_⟩
  intro pos hpos
  rw [List.eq_of_mem_replicate hpos]
  exact hzero

theorem twoStageStart_fresh : Fresh twoStageSetup twoStageStart where
  sized r _ := by
    unfold Stages.memory
    split_ifs <;> exact ⟨rfl, rfl⟩
  tokenFromWorker := rfl
  topKPacked := rfl
  isFinished _ _ _ := rfl
  pipeline r _ := ⟨false, 0, 0, by
    unfold Stages.pipeline
    split_ifs with h
    · rw [h]
      rfl
    · rfl⟩
  skip := Nat.zero_ne_one
  activationType := NnFloatType.noConfusion
  packet := firstPacket_fits

section Requests

variable [Add F] [Sub F] [Zero F] [One F] [LE F] [DecidableLE F] [LT F] [DecidableLT F]
variable [NatCast F] [Div F]

/-- All nodes of `inference()` for a prompt of `realTotal + 1` tokens. -/
def inferenceSystem (S : StageSetup β F σ) (fuel : Nat) (tileAlignedSchedule useWave : Bool)
    (realTotal prefillBatchCap maxPos : Nat) (s : Stages β F σ) :
    Config Party Port β (Except String (StageResult β F σ)) :=
  S.system fuel useWave
    (prefillCalls useWave (schedTotal tileAlignedSchedule realTotal) prefillBatchCap
      (schedTotal tileAlignedSchedule realTotal) 0)
    (decodeCalls realTotal maxPos) s

variable (S : StageSetup β F σ) (tileAlignedSchedule useWave : Bool)
variable {realTotal prefillBatchCap maxPos fuel : Nat} {s : Stages β F σ}

/-- Whatever the links hold and in whatever order the nodes move, the request completes: no packet,
activation or logits are lost, taken twice or waited for in vain, and every node ends as in the
lockstep run. -/
theorem inference_completes (hs : Fresh S s) (hcap : 0 < prefillBatchCap)
    (hle : prefillBatchCap ≤ S.nBatches)
    (hsched : schedTotal tileAlignedSchedule realTotal ≤ 2 ^ 32) (hmax : maxPos ≤ 2 ^ 32)
    (hfuel : (inferenceCalls tileAlignedSchedule useWave realTotal prefillBatchCap maxPos).length
      < fuel) (cap : Port → Nat) :
    ∃ s', S.lockstep useWave
        (inferenceCalls tileAlignedSchedule useWave realTotal prefillBatchCap maxPos) s = .ok s' ∧
      Completes (mainNet cap)
        (S.inferenceSystem fuel tileAlignedSchedule useWave realTotal prefillBatchCap maxPos s)
        (fun p => .ok (S.result s' p)) := by
  rcases (inferenceCalls_request S useWave hcap hle hsched hmax).completes hs.steady hfuel cap with
    ⟨s', hlock, hcompletes, -⟩
  exact ⟨s', hlock, hcompletes⟩

/-- A prompt of four tokens in a wave of two chunks and two decoded tokens, on links that hold
nothing. -/
theorem inference_completes_wave :
    ∃ s', twoStageSetup.lockstep true (inferenceCalls false true 3 2 5) twoStageStart = .ok s' ∧
      Completes (mainNet fun _ => 0)
        (twoStageSetup.inferenceSystem 5 false true 3 2 5 twoStageStart)
        (fun p => .ok (twoStageSetup.result s' p)) :=
  inference_completes twoStageSetup false true twoStageStart_fresh Nat.two_pos (Nat.le_refl 2)
    (by decide) (by decide) (by decide) _

end Requests

end StageSetup

/-- The nodes as one model. -/
def Stages.sequential (s : Stages β F σ) : Sequential β F σ where
  controlPacket := s.root.controlPacket
  pipes := s.root.pipes
  memory r := (s.worker r).memory

namespace StageSetup

section Requests

variable [Add F] [Sub F] [Zero F] [One F] [LE F] [DecidableLE F] [LT F] [DecidableLT F]
variable [NatCast F] [Div F]
variable (S : StageSetup β F σ) (tileAlignedSchedule useWave : Bool)
variable {realTotal prefillBatchCap maxPos fuel : Nat} {s : Stages β F σ}

/-- Without differences the nodes compute together what the one model computes. -/
theorem inference_refines (hs : Fresh S s) (hdelta : s.root.controlPacket.pipelineDelta ≠ 1)
    (hroot : s.root.pipeline.deltaEnabled = false) (hcap : 0 < prefillBatchCap)
    (hle : prefillBatchCap ≤ S.nBatches)
    (hsched : schedTotal tileAlignedSchedule realTotal ≤ 2 ^ 32) (hmax : maxPos ≤ 2 ^ 32)
    (hfuel : (inferenceCalls tileAlignedSchedule useWave realTotal prefillBatchCap maxPos).length
      < fuel) (cap : Port → Nat) :
    let q := S.sequential useWave
      (inferenceCalls tileAlignedSchedule useWave realTotal prefillBatchCap maxPos) s.sequential
    ∃ s', s'.root.pipes = q.pipes ∧
      (∀ r, 0 < r → r < S.ppSize → (s'.worker r).memory = q.memory r) ∧
      Completes (mainNet cap)
        (S.inferenceSystem fuel tileAlignedSchedule useWave realTotal prefillBatchCap maxPos s)
        (fun p => .ok (S.result s' p)) := by
  rcases (inferenceCalls_request S useWave hcap hle hsched hmax).completes hs.steady hfuel cap with
    ⟨s', -, hcompletes, hagrees⟩
  rcases hagrees s.sequential ⟨rfl, rfl, fun _ _ _ => rfl⟩ hdelta hroot with ⟨hpipes, hmemory⟩
  exact ⟨s', hpipes.symm, fun r hr hlt => (hmemory r hr hlt).symm, hcompletes⟩

/-- The same prompt with a wait for each chunk. -/
theorem inference_refines_blocking :
    let q := twoStageSetup.sequential false (inferenceCalls false false 3 2 5)
      twoStageStart.sequential
    ∃ s', s'.root.pipes = q.pipes ∧
      (∀ r, 0 < r → r < 2 → (s'.worker r).memory = q.memory r) ∧
      Completes (mainNet fun _ => 0)
        (twoStageSetup.inferenceSystem 5 false false 3 2 5 twoStageStart)
        (fun p => .ok (twoStageSetup.result s' p)) :=
  inference_refines twoStageSetup false false twoStageStart_fresh Nat.zero_ne_one rfl Nat.two_pos
    (Nat.le_refl 2) (by decide) (by decide) (by decide) _

end Requests

end StageSetup

end Pipeline
end PrefillOpt
