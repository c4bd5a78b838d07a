import Mathlib.Data.Nat.Cast.Defs
import PrefillOpt.Pipeline.Activation

/-!
# Pipeline.Worker — control packets and the flow of messages at a stage

`app.hpp`, `app.cpp`.  The setters of `RootLlmInference` write the control packet that every
worker gets before each forward; a worker decides from it, and from its own stage-skip counters,
where the activation comes from, whether the forward is skipped and what is sent on.

Here a message is its header, and what a payload carries is named by the pipe its bytes lie in.
Per-group positions (`spGroups`) and the log file are left out.
-/

namespace PrefillOpt
namespace Pipeline

/-! ## The control packet -/

def MAX_CONTROL_BATCH_POS : Nat := 512

structure LlmControlPacket (F : Type) where
  position : Nat
  /-- 0 is the stop signal. -/
  batchSize : Nat
  /-- 0 in prefill, 1 in decode. -/
  phase : Nat
  isLastPrefillChunk : Nat
  /-- 0 for consecutive positions, 1 for `batchPositions`. -/
  positionMode : Nat
  /-- 0 for all logits, 1 for the sampled token, 2 for the top logits. -/
  tokenOnlyMode : Nat
  topKCount : Nat
  activationType : NnFloatType
  pipelineDelta : Nat
  pipelineDeltaMinBytes : Nat
  pipelineChunkBytes : Nat
  stageSkipShadow : Nat
  stageSkipEnabled : Nat
  stageSkipTarget : Nat
  stageSkipTheta : F
  stageSkipAlpha : F
  stageSkipMaxConsecutive : Nat
  stageSkipMaxRejectStreak : Nat
  batchPositions : List Nat

variable {F : Type}

/-- The integers are `NnUint`, and `batchPositions` is an array. -/
structure LlmControlPacket.Fits (p : LlmControlPacket F) : Prop where
  position : p.position < 2 ^ 32
  batchSize : p.batchSize < 2 ^ 32
  phase : p.phase < 2 ^ 32
  isLastPrefillChunk : p.isLastPrefillChunk < 2 ^ 32
  positionMode : p.positionMode < 2 ^ 32
  tokenOnlyMode : p.tokenOnlyMode < 2 ^ 32
  topKCount : p.topKCount < 2 ^ 32
  pipelineDelta : p.pipelineDelta < 2 ^ 32
  pipelineDeltaMinBytes : p.pipelineDeltaMinBytes < 2 ^ 32
  pipelineChunkBytes : p.pipelineChunkBytes < 2 ^ 32
  stageSkipShadow : p.stageSkipShadow < 2 ^ 32
  stageSkipEnabled : p.stageSkipEnabled < 2 ^ 32
  stageSkipTarget : p.stageSkipTarget < 2 ^ 32
  stageSkipMaxConsecutive : p.stageSkipMaxConsecutive < 2 ^ 32
  stageSkipMaxRejectStreak : p.stageSkipMaxRejectStreak < 2 ^ 32
  batchPositions_length : p.batchPositions.length = MAX_CONTROL_BATCH_POS
  batchPositions_lt : ∀ pos ∈ p.batchPositions, pos < 2 ^ 32

/-- `position + i` for the rows of a batch. -/
def contiguous (position batchSize : Nat) : List Nat :=
  (List.range batchSize).map fun i => (position + i) % 2 ^ 32

@[simp] theorem contiguous_length (position batchSize : Nat) :
    (contiguous position batchSize).length = batchSize := by
  simp [contiguous]

namespace LlmControlPacket

variable (p : LlmControlPacket F)

/-! The setters of `RootLlmInference`, as far as they write the packet. -/

def setDecodePhase (isDecodePhase : Bool) : LlmControlPacket F :=
  { p with
    phase := if isDecodePhase then 1 else 0
    isLastPrefillChunk := if isDecodePhase then 1 else p.isLastPrefillChunk }

def setLastPrefillChunk (isLast : Bool) : LlmControlPacket F :=
  { p with isLastPrefillChunk := if isLast then 1 else 0 }

/-- The default is to send logits; only the wave loop turns it off afterwards. -/
def setBatchSize (batchSize : Nat) : LlmControlPacket F :=
  { p with isLastPrefillChunk := 1, batchSize }

def setPosition (position : Nat) : LlmControlPacket F :=
  { p with position, positionMode := 0 }

variable {p}

private theorem one_lt : 1 < 2 ^ 32 := Nat.one_lt_two_pow (by decide)

theorem Fits.setDecodePhase (h : p.Fits) (isDecodePhase : Bool) :
    (p.setDecodePhase isDecodePhase).Fits := by
  cases isDecodePhase with
  | true => exact { h with phase := one_lt, isLastPrefillChunk := one_lt }
  | false => exact { h with phase := Nat.two_pow_pos 32 }

theorem Fits.setLastPrefillChunk (h : p.Fits) (isLast : Bool) :
    (p.setLastPrefillChunk isLast).Fits := by
  cases isLast with
  | true => exact { h with isLastPrefillChunk := one_lt }
  | false => exact { h with isLastPrefillChunk := Nat.two_pow_pos 32 }

theorem Fits.setBatchSize (h : p.Fits) {batchSize : Nat} (hbatch : batchSize < 2 ^ 32) :
    (p.setBatchSize batchSize).Fits :=
  { h with isLastPrefillChunk := one_lt, batchSize := hbatch }

theorem Fits.setPosition (h : p.Fits) {position : Nat} (hposition : position < 2 ^ 32) :
    (p.setPosition position).Fits :=
  { h with position := hposition, positionMode := Nat.two_pow_pos 32 }

end LlmControlPacket

/-! ## A worker -/

/-- The place of a node in the topology. -/
structure StagePlace where
  ppSize : Nat
  ppRank : Nat
  spRank : Nat
  tpRank : Nat
  deriving DecidableEq, Repr

namespace StagePlace

variable (n : StagePlace)

def shouldSendActivations : Bool := decide (n.ppRank < n.ppSize - 1)

def shouldRecvActivations : Bool := decide (0 < n.ppRank)

end StagePlace

/-- The fields that the flow of messages depends on; `batchSize` and `positionPipe` are those of
the node's `NnNetExecution`. -/
structure WorkerLlmInference (F : Type) where
  isFinished : Bool
  controlPacket : LlmControlPacket F
  decodePhase : Bool
  batchSize : Nat
  positionPipe : List Nat
  hasPrevXPipeRow : Bool
  skipForwardThisToken : Bool
  hasLastSkipDecision : Bool
  lastSkipDecisionAccept : Nat
  hasLastDeltaNorm : Bool
  lastDeltaNorm : F
  skipConsecutiveAccepts : Nat
  skipRejectStreak : Nat

/-- The part of a header that a stage looks at. -/
structure StageHeader where
  seqPosition : Nat
  payloadBytes : Nat
  flags : Nat
  deriving DecidableEq, Repr

def NnPipelineActivationHeader.toStage (h : NnPipelineActivationHeader) : StageHeader :=
  ⟨h.seqPosition, h.payloadBytes, h.flags⟩

/-- Where `beforeForward` takes the activation from: nowhere in the first stage, one source, or
two that are polled in turn. -/
inductive Sources where
  | none
  | one (sourcePpRank : Nat)
  | poll (bypassSource normalSource : Nat)
  deriving DecidableEq, Repr

/-- The bytes a message is made of. -/
inductive Payload where
  /-- No bytes. -/
  | marker
  /-- The rows of the batch in `xPipe`. -/
  | xPipe
  /-- The rows of the batch in `logitsPipe`. -/
  | logits
  | lastLogitsRow
  | sampledToken
  | topKLogits
  deriving DecidableEq, Repr

/-- The arguments of one `sendActivation` that depend on the flow. -/
structure Outgoing where
  targetPpRank : Nat
  seqPosition : Nat
  payload : Payload
  extraFlags : Nat
  deriving DecidableEq, Repr

def deterministicStageSkipUnit [NatCast F] [Div F] (position targetStage : Nat) : F :=
  let x : UInt32 := UInt32.ofNat position * 2654435761 ^^^ UInt32.ofNat targetStage * 2246822519
    ^^^ 0x9E3779B9
  let x := x ^^^ (x >>> 16)
  let x := x * 0x7feb352d
  let x := x ^^^ (x >>> 15)
  let x := x * 0x846ca68b
  let x := x ^^^ (x >>> 16)
  ((x &&& 0x00FFFFFF).toNat : F) / ((0x01000000 : Nat) : F)

namespace WorkerLlmInference

variable (w : WorkerLlmInference F)

/-- Entering or leaving decode forgets the previous row and the counters. -/
def setPhase (decodePhase : Bool) : WorkerLlmInference F :=
  if w.decodePhase = decodePhase then w
  else { w with
    decodePhase
    hasPrevXPipeRow := false
    skipConsecutiveAccepts := 0
    skipRejectStreak := 0 }

/-- The packet `tryReadControlPacket` has read; an exception is an error with its text. -/
def tryReadControlPacket (maxBatchSize : Nat) (packet : LlmControlPacket F) :
    Except String (WorkerLlmInference F) :=
  let w := { w with controlPacket := packet }
  if packet.batchSize = 0 then .ok { w with isFinished := true }
  else if maxBatchSize < packet.batchSize then .error "Invalid control packet: batchSize"
  else
    let w := { w.setPhase (packet.phase == 1) with batchSize := packet.batchSize }
    if packet.positionMode = 1 then
      if MAX_CONTROL_BATCH_POS < packet.batchSize then
        .error "Invalid control packet: activeBatchSize exceeds MAX_CONTROL_BATCH_POS"
      else .ok { w with positionPipe := packet.batchPositions.take packet.batchSize }
    else .ok { w with positionPipe := contiguous packet.position packet.batchSize }

/-- `decodeSingle` -/
def decodeSingle : Bool := w.decodePhase && w.batchSize == 1

def stageSkipExecute : Bool := w.controlPacket.stageSkipEnabled == 1

def stageSkipTrackingEnabled : Bool :=
  w.controlPacket.stageSkipShadow == 1 || w.controlPacket.stageSkipEnabled == 1

def isStageSkipDecisionStage (n : StagePlace) : Bool :=
  w.controlPacket.stageSkipTarget != 0 && n.ppRank + 1 == w.controlPacket.stageSkipTarget

def isStageSkipTargetStage (n : StagePlace) : Bool :=
  n.ppRank == w.controlPacket.stageSkipTarget

def isStageSkipPostTargetStage (n : StagePlace) : Bool :=
  n.ppRank == w.controlPacket.stageSkipTarget + 1

/-! `beforeForward`: its sources, and what it does with the header it got. -/

def sources (n : StagePlace) : Sources :=
  if !n.shouldRecvActivations then .none
  else if w.stageSkipExecute && w.decodeSingle && w.isStageSkipPostTargetStage n then
    .poll (w.controlPacket.stageSkipTarget - 1) w.controlPacket.stageSkipTarget
  else .one (n.ppRank - 1)

/-- `beforeForward` up to the receive. -/
def beginToken : WorkerLlmInference F :=
  { w with skipForwardThisToken := false, hasLastDeltaNorm := false }

/-- The header is the marker by which the target stage skips its forward. -/
def isSkipMarker (n : StagePlace) (header : StageHeader) : Bool :=
  w.stageSkipExecute && w.decodeSingle && w.isStageSkipTargetStage n &&
    hasFlag header.flags PIPELINE_FLAG_STAGE_SKIP_BYPASS && header.payloadBytes == 0

/-- Compare the new row with the previous one and keep it; `metric` is the outcome of
`computeActivationPairMetricsEncoded`, which is asked only when there is a previous row. -/
def trackRow (metric : Option F) : WorkerLlmInference F :=
  if w.stageSkipTrackingEnabled && w.decodeSingle then
    { w with
      hasPrevXPipeRow := true
      hasLastDeltaNorm := w.hasPrevXPipeRow && metric.isSome
      lastDeltaNorm := if w.hasPrevXPipeRow then metric.getD w.lastDeltaNorm else w.lastDeltaNorm }
  else w

def acceptActivation (n : StagePlace) (header : StageHeader) (metric : Option F) :
    Except String (WorkerLlmInference F) :=
  let w := w.beginToken
  if w.isSkipMarker n header then .ok { w with skipForwardThisToken := true }
  else if header.seqPosition ≠ w.controlPacket.position then
    .error "Pipeline activation position mismatch"
  else .ok (w.trackRow metric)

section Decision

variable [Zero F] [One F] [LE F] [DecidableLE F] [LT F] [DecidableLT F] [NatCast F] [Div F]

/-- The gate on the metric: the threshold, then the deterministic share `alpha`. -/
def gatePasses : Bool :=
  let p := w.controlPacket
  decide (w.lastDeltaNorm ≤ p.stageSkipTheta) &&
    (if p.stageSkipAlpha ≤ 0 then false
     else if p.stageSkipAlpha < 1 then
       decide (deterministicStageSkipUnit p.position p.stageSkipTarget < p.stageSkipAlpha)
     else true)

/-- The decision is made on this stage, for a single token in decode that has a metric. -/
def decides (n : StagePlace) : Bool :=
  w.stageSkipTrackingEnabled && w.isStageSkipDecisionStage n && w.decodeSingle &&
    w.hasLastDeltaNorm

/-- A long reject streak forces one full-path token. -/
def forceFullByRejectStreak : Bool :=
  decide (w.controlPacket.stageSkipMaxRejectStreak ≤ w.skipRejectStreak)

def accept : Bool :=
  w.gatePasses &&
    decide (w.skipConsecutiveAccepts < w.controlPacket.stageSkipMaxConsecutive) &&
    !w.forceFullByRejectStreak

def evaluateStageSkipDecision (n : StagePlace) : WorkerLlmInference F :=
  if w.decides n then
    { w with
      hasLastSkipDecision := true
      lastSkipDecisionAccept := if w.accept then 1 else 0
      skipConsecutiveAccepts := if w.accept then w.skipConsecutiveAccepts + 1 else 0
      skipRejectStreak :=
        if w.accept || w.forceFullByRejectStreak then 0 else w.skipRejectStreak + 1 }
  else { w with hasLastSkipDecision := false, lastSkipDecisionAccept := 0 }

/-- The decision that is acted on after a forward. -/
def accepted : Bool := w.hasLastSkipDecision && w.lastSkipDecisionAccept == 1

/-- What the last stage sends to the root. -/
def logitsPayload : Payload :=
  if w.controlPacket.tokenOnlyMode == 1 && w.decodeSingle then .sampledToken
  else if w.controlPacket.tokenOnlyMode == 2 && w.decodeSingle then .topKLogits
  else if !w.decodePhase && decide (1 < w.batchSize) then .lastLogitsRow
  else .logits

/-- This stage leaves its forward out, and with it the sends. -/
def skipsSends (n : StagePlace) : Bool :=
  w.stageSkipExecute && w.decodeSingle && w.isStageSkipTargetStage n && w.skipForwardThisToken

/-- The activation goes past the target stage. -/
def bypasses (n : StagePlace) : Bool :=
  w.stageSkipExecute && w.decodeSingle && w.isStageSkipDecisionStage n && w.accepted

/-- The sends of `afterForward` in order, once the decision is made. -/
def sends (n : StagePlace) : List Outgoing :=
  let p := w.controlPacket
  if w.skipsSends n then []
  else if n.shouldSendActivations then
    if w.bypasses n then
      [⟨p.stageSkipTarget, p.position, .marker, PIPELINE_FLAG_STAGE_SKIP_BYPASS⟩,
        ⟨p.stageSkipTarget + 1, p.position, .xPipe, PIPELINE_FLAG_STAGE_SKIP_BYPASS⟩]
    else [⟨n.ppRank + 1, p.position, .xPipe, 0⟩]
  else if 0 < n.ppRank ∧ n.spRank = 0 ∧ n.tpRank = 0 then
    -- a chunk in the middle of a prefill keeps its logits
    if !w.decodePhase && p.isLastPrefillChunk != 1 then []
    else [⟨0, p.position, w.logitsPayload, 0⟩]
  else []

def afterForward (n : StagePlace) : WorkerLlmInference F × List Outgoing :=
  let w := w.evaluateStageSkipDecision n
  (w, w.sends n)

end Decision

end WorkerLlmInference

/-! ## Reading a packet -/

namespace WorkerLlmInference

/-- The worker `w'` after `w` has read a packet with consecutive positions. -/
structure Heard (w w' : WorkerLlmInference F) (packet : LlmControlPacket F) : Prop where
  controlPacket : w'.controlPacket = packet
  decodePhase : w'.decodePhase = (packet.phase == 1)
  batchSize : w'.batchSize = packet.batchSize
  positionPipe : w'.positionPipe = contiguous packet.position packet.batchSize
  isFinished : w'.isFinished = w.isFinished
  samePhase : w.decodePhase = (packet.phase == 1) →
    w'.skipConsecutiveAccepts = w.skipConsecutiveAccepts
  newPhase : w.decodePhase ≠ (packet.phase == 1) → w'.skipConsecutiveAccepts = 0

theorem tryReadControlPacket_ok (w : WorkerLlmInference F) (packet : LlmControlPacket F)
    (maxBatchSize : Nat) (hpos : packet.batchSize ≠ 0) (hmax : packet.batchSize ≤ maxBatchSize)
    (hmode : packet.positionMode = 0) :
    ∃ w', w.tryReadControlPacket maxBatchSize packet = .ok w' ∧ w.Heard w' packet := by
  have hmax' : ¬ maxBatchSize < packet.batchSize := Nat.not_lt.mpr hmax
  have hmode' : ¬ packet.positionMode = 1 := by omega
  refine ⟨_, (if_neg hpos).trans ((if_neg hmax').trans (if_neg hmode')), ?_⟩
  constructor
  all_goals
    by_cases hphase : w.decodePhase = (packet.phase == 1)
    · simp [setPhase, hphase]
    · simp [setPhase, hphase]

/-! ## Taking an activation -/

/-- The fields that `beforeForward` and the decision leave alone. -/
structure SamePacket (w w' : WorkerLlmInference F) : Prop where
  controlPacket : w'.controlPacket = w.controlPacket
  decodePhase : w'.decodePhase = w.decodePhase
  batchSize : w'.batchSize = w.batchSize
  positionPipe : w'.positionPipe = w.positionPipe
  isFinished : w'.isFinished = w.isFinished

/-- An activation that is no marker and has the position of the packet. -/
theorem acceptActivation_row {w : WorkerLlmInference F} {n : StagePlace} {header : StageHeader}
    (hmarker : w.isSkipMarker n header = false)
    (hpos : header.seqPosition = w.controlPacket.position) (metric : Option F) :
    w.acceptActivation n header metric = .ok (w.beginToken.trackRow metric) := by
  have hmarker' : w.beginToken.isSkipMarker n header = false := hmarker
  have hpos' : header.seqPosition = w.beginToken.controlPacket.position := hpos
  simp [acceptActivation, hmarker', hpos']

theorem acceptActivation_marker {w : WorkerLlmInference F} {n : StagePlace} {header : StageHeader}
    (hmarker : w.isSkipMarker n header = true) (metric : Option F) :
    w.acceptActivation n header metric
      = .ok { w.beginToken with skipForwardThisToken := true } :=
  if_pos hmarker

theorem trackRow_samePacket (w : WorkerLlmInference F) (metric : Option F) :
    w.SamePacket (w.beginToken.trackRow metric) := by
  unfold trackRow
  split_ifs <;> exact ⟨rfl, rfl, rfl, rfl, rfl⟩

theorem trackRow_skipConsecutiveAccepts (w : WorkerLlmInference F) (metric : Option F) :
    (w.beginToken.trackRow metric).skipConsecutiveAccepts = w.skipConsecutiveAccepts := by
  unfold trackRow
  split_ifs <;> rfl

theorem trackRow_skipForwardThisToken (w : WorkerLlmInference F) (metric : Option F) :
    (w.beginToken.trackRow metric).skipForwardThisToken = false := by
  unfold trackRow
  split_ifs <;> rfl

/-! ## The sends -/

theorem sends_of_skips {w : WorkerLlmInference F} {n : StagePlace} (h : w.skipsSends n = true) :
    w.sends n = [] :=
  if_pos h

theorem sends_of_bypasses {w : WorkerLlmInference F} {n : StagePlace}
    (hskip : w.skipsSends n = false) (hsend : n.shouldSendActivations = true)
    (h : w.bypasses n = true) :
    w.sends n = [⟨w.controlPacket.stageSkipTarget, w.controlPacket.position, .marker,
        PIPELINE_FLAG_STAGE_SKIP_BYPASS⟩,
      ⟨w.controlPacket.stageSkipTarget + 1, w.controlPacket.position, .xPipe,
        PIPELINE_FLAG_STAGE_SKIP_BYPASS⟩] := by
  simp [sends, hskip, hsend, h]

theorem sends_next {w : WorkerLlmInference F} {n : StagePlace}
    (hskip : w.skipsSends n = false) (hsend : n.shouldSendActivations = true)
    (h : w.bypasses n = false) :
    w.sends n = [⟨n.ppRank + 1, w.controlPacket.position, .xPipe, 0⟩] := by
  simp [sends, hskip, hsend, h]

/-- The last stage of the root's lane. -/
theorem sends_logits {w : WorkerLlmInference F} {n : StagePlace}
    (hskip : w.skipsSends n = false) (hsend : n.shouldSendActivations = false)
    (hlane : 0 < n.ppRank ∧ n.spRank = 0 ∧ n.tpRank = 0) :
    w.sends n = if !w.decodePhase && w.controlPacket.isLastPrefillChunk != 1 then []
      else [⟨0, w.controlPacket.position, w.logitsPayload, 0⟩] := by
  simp [sends, hskip, hsend, hlane]

/-! ## The decision -/

section Decision

variable [Zero F] [One F] [LE F] [DecidableLE F] [LT F] [DecidableLT F] [NatCast F] [Div F]

theorem evaluate_samePacket (w : WorkerLlmInference F) (n : StagePlace) :
    w.SamePacket (w.evaluateStageSkipDecision n) := by
  unfold evaluateStageSkipDecision
  split_ifs <;> exact ⟨rfl, rfl, rfl, rfl, rfl⟩

theorem evaluate_skipForwardThisToken (w : WorkerLlmInference F) (n : StagePlace) :
    (w.evaluateStageSkipDecision n).skipForwardThisToken = w.skipForwardThisToken := by
  unfold evaluateStageSkipDecision
  split_ifs <;> rfl

theorem evaluate_accepted (w : WorkerLlmInference F) (n : StagePlace) :
    (w.evaluateStageSkipDecision n).accepted = (w.decides n && w.accept) := by
  unfold evaluateStageSkipDecision accepted
  cases w.decides n <;> cases w.accept <;> rfl

theorem accept_lt {w : WorkerLlmInference F} (h : w.accept = true) :
    w.skipConsecutiveAccepts < w.controlPacket.stageSkipMaxConsecutive := by
  simp only [accept, Bool.and_eq_true, decide_eq_true_eq] at h
  exact h.1.2

/-- An accepted token is counted below the cap. -/
theorem evaluate_count_of_accepted {w : WorkerLlmInference F} {n : StagePlace}
    (h : (w.evaluateStageSkipDecision n).accepted = true) :
    (w.evaluateStageSkipDecision n).skipConsecutiveAccepts = w.skipConsecutiveAccepts + 1 ∧
      w.skipConsecutiveAccepts < w.controlPacket.stageSkipMaxConsecutive := by
  rw [evaluate_accepted, Bool.and_eq_true] at h
  refine ⟨?_, accept_lt h.2⟩
  simp [evaluateStageSkipDecision, h.1, h.2]

/-- The count of accepts in a row stays within the cap. -/
theorem evaluate_count_le {w : WorkerLlmInference F} (n : StagePlace)
    (h : w.skipConsecutiveAccepts ≤ w.controlPacket.stageSkipMaxConsecutive) :
    (w.evaluateStageSkipDecision n).skipConsecutiveAccepts
      ≤ w.controlPacket.stageSkipMaxConsecutive := by
  cases hacc : (w.evaluateStageSkipDecision n).accepted with
  | true =>
      rcases evaluate_count_of_accepted hacc with ⟨hcount, hlt⟩
      omega
  | false =>
      rw [evaluate_accepted] at hacc
      cases hdec : w.decides n with
      | true =>
          have hno : w.accept = false := by simpa [hdec] using hacc
          simp [evaluateStageSkipDecision, hdec, hno]
      | false => simpa [evaluateStageSkipDecision, hdec] using h

end Decision

end WorkerLlmInference

end Pipeline
end PrefillOpt
