import PrefillOpt.Lib.Relay
import PrefillOpt.Pipeline.ActivationIo
import PrefillOpt.Pipeline.Inference

/-!
# Pipeline.StageLoop — the programs of the root and of the stages

`app.cpp`, `dllama.cpp`.  The root runs the calls of `inference()`: `forwardPrefillNoWait` and one
`drainPrefillLogits` in wave mode, else `forward`, then `finish`.  A worker runs the loop of
`runWorkerApp` until the stop packet.  There is one node in a stage (`spSize = tpSize = 1`).

`executor->forward()` and the tokens that the application sets are functions of the setting.  The
retries of `tryReadControlPacket` wait without taking a byte, so the read is a blocking one.  The
two polled links of stage skipping are the subject of `SkipProtocol`.
-/

namespace PrefillOpt
namespace Pipeline

open Lib Network

variable {β F σ : Type}

/-! ## The setting -/

/-- The memory layout of a control packet. -/
structure PacketFormat (β F : Type) where
  /-- `sizeof(LlmControlPacket)` -/
  packetSize : Nat
  storePacket : LlmControlPacket F → List β
  loadPacket : List β → LlmControlPacket F
  storePacket_length : ∀ p, (storePacket p).length = packetSize
  loadPacket_store : ∀ p, p.Fits → loadPacket (storePacket p) = p

/-- The two pipes of a node that travel, and all else its executor works on. -/
structure NodeMemory (β σ : Type) where
  xPipe : List β
  logitsPipe : List β
  rest : σ

/-- What the application sees of the root: the memory of its node, and the buffers for what is no
row of logits.  `topKIndices` and `topKLogits` are read off `topKPacked`. -/
structure RootPipes (β σ : Type) where
  memory : NodeMemory β σ
  tokenFromWorker : List β
  topKPacked : List β

/-- The fields that `forward` and the setters work with.  `decodeLogitsMode` is the
`tokenOnlyMode` of the packet. -/
structure RootLlmInference (β F σ : Type) where
  controlPacket : LlmControlPacket F
  pipeline : NnPipelineCommunicator F
  positionPipe : List Nat
  pipes : RootPipes β σ

/-- A `WorkerLlmInference` with the memory of its node. -/
structure StageWorker (β F σ : Type) where
  inference : WorkerLlmInference F
  pipeline : NnPipelineCommunicator F
  pipelineActivationType : NnFloatType
  memory : NodeMemory β σ

structure StageSetup (β F σ : Type) where
  fmt : WireFormat β F
  packets : PacketFormat β F
  ppSize : Nat
  two_le_ppSize : 2 ≤ ppSize
  /-- The rows of the pipes, which is the `maxBatchSize` of a worker. -/
  nBatches : Nat
  nBatches_pos : 0 < nBatches
  nBatches_lt : nBatches < 2 ^ 32
  xPipeRowBytes : Nat
  xPipeRowBytes_words : xPipeRowBytes % 4 = 0
  xPipe_lt : xPipeRowBytes * nBatches < 2 ^ 64
  logitsPipeRowBytes : Nat
  logitsPipeRowBytes_words : logitsPipeRowBytes % 4 = 0
  logitsPipe_lt : logitsPipeRowBytes * nBatches < 2 ^ 64
  /-- `executor->forward()` of a stage, in a phase and at the positions of its pipe. -/
  forward : Nat → Bool → List Nat → NodeMemory β σ → NodeMemory β σ
  forward_xPipe : ∀ r phase pos m, (forward r phase pos m).xPipe.length = m.xPipe.length
  forward_logitsPipe : ∀ r phase pos m,
    (forward r phase pos m).logitsPipe.length = m.logitsPipe.length
  /-- The memory of the root after the `setToken` calls before a forward: the tokens of the prompt,
  or the token sampled from what the root has received. -/
  setTokens : ForwardCall → RootPipes β σ → σ
  /-- `computeActivationPairMetricsEncoded` -/
  metric : StageWorker β F σ → Option F
  fusedLmHeadArgmax : Bool
  sampleArgmaxToken : List F → Nat
  packTopKLogits : List F → Nat → List F
  packTopKLogits_length : ∀ logits k, k ≤ logits.length →
    (packTopKLogits logits k).length = 2 * k

/-! ## The root -/

namespace RootLlmInference

variable (root : RootLlmInference β F σ)

def setDecodePhase (isDecodePhase : Bool) : RootLlmInference β F σ :=
  { root with controlPacket := root.controlPacket.setDecodePhase isDecodePhase }

def setLastPrefillChunk (isLast : Bool) : RootLlmInference β F σ :=
  { root with controlPacket := root.controlPacket.setLastPrefillChunk isLast }

def setBatchSize (batchSize : Nat) : RootLlmInference β F σ :=
  { root with controlPacket := root.controlPacket.setBatchSize batchSize }

def setPosition (position : Nat) : RootLlmInference β F σ :=
  { root with
    controlPacket := root.controlPacket.setPosition position
    positionPipe := contiguous position root.controlPacket.batchSize }

end RootLlmInference

/-- Where the root puts the logits of a call. -/
inductive LogitsPlace where
  | tokenFromWorker
  | topKPacked
  /-- `size` bytes of `logitsPipe` from `offset` on. -/
  | logitsPipe (offset size : Nat)

namespace LogitsPlace

def buffer (pipes : RootPipes β σ) : LogitsPlace → List β
  | tokenFromWorker => pipes.tokenFromWorker
  | topKPacked => pipes.topKPacked
  | logitsPipe offset size => (pipes.memory.logitsPipe.drop offset).take size

def store (pipes : RootPipes β σ) (bytes : List β) : LogitsPlace → RootPipes β σ
  | tokenFromWorker => { pipes with tokenFromWorker := bytes }
  | topKPacked => { pipes with topKPacked := bytes }
  | logitsPipe offset _ => { pipes with
      memory := { pipes.memory with
        logitsPipe := pipes.memory.logitsPipe.take offset ++
          overwrite (pipes.memory.logitsPipe.drop offset) bytes } }

def accept (place : LogitsPlace) (root : RootLlmInference β F σ) (received : Received β F) :
    Except String (RootLlmInference β F σ) :=
  match received.result with
  | .error _ => .error "Failed to receive pipeline logits from last stage"
  | .ok _ => .ok { root with
      pipes := place.store root.pipes received.buffer
      pipeline := received.comm }

end LogitsPlace

namespace StageSetup

variable (S : StageSetup β F σ)

private theorem topology_nNodes (n : Nat) : n = n * 1 * 1 := by
  rw [Nat.mul_one, Nat.mul_one]

/-- One node in every stage. -/
def topology : NnParallelTopology where
  nNodes := S.ppSize
  ppSize := S.ppSize
  spSize := 1
  tpSize := 1
  ppSize_pos := Nat.zero_lt_of_lt S.two_le_ppSize
  spSize_pos := Nat.one_pos
  tpSize_pos := Nat.one_pos
  nNodes_eq := topology_nNodes S.ppSize

def place (r : Nat) : StagePlace := ⟨S.ppSize, r, 0, 0⟩

def logitsPipeMaxBytes : Nat := S.logitsPipeRowBytes * S.nBatches

/-- The place that `forward` chooses: one token or the top logits when a single token is decoded
in such a mode, the last row in a prefill, else all rows. -/
def logitsPlace (p : LlmControlPacket F) : LogitsPlace :=
  if p.tokenOnlyMode = 1 ∧ p.phase = 1 ∧ p.batchSize = 1 then .tokenFromWorker
  else if p.tokenOnlyMode = 2 ∧ p.phase = 1 ∧ p.batchSize = 1 then .topKPacked
  else if p.phase ≠ 1 ∧ 1 < p.batchSize then
    .logitsPipe ((p.batchSize - 1) * S.logitsPipeRowBytes) S.logitsPipeRowBytes
  else .logitsPipe 0 (S.logitsPipeRowBytes * p.batchSize)

/-- The application's part before a forward. -/
def withTokens (c : ForwardCall) (pipes : RootPipes β σ) : RootPipes β σ :=
  { pipes with memory := { pipes.memory with rest := S.setTokens c pipes } }

/-- `executor->forward()` on the root. -/
def rootExecute (root : RootLlmInference β F σ) : RootLlmInference β F σ :=
  { root with
    pipes := { root.pipes with
      memory := S.forward 0 (root.controlPacket.phase == 1) root.positionPipe root.pipes.memory } }

/-- The arguments of the root's `sendActivation`. -/
def rootActivation (root : RootLlmInference β F σ) : Activation β where
  seqPosition := root.controlPacket.position
  batchIndex := 0
  sliceId := 0
  data := root.pipes.memory.xPipe.take (S.xPipeRowBytes * root.controlPacket.batchSize)
  dtype := root.controlPacket.activationType
  extraFlags := 0

section Root

variable [Add F] [Sub F]

def writeAll (packet : LlmControlPacket F) : Io Port β String Unit :=
  ExceptT.mk (Prog.writeMany ((List.range (S.ppSize - 1)).map fun s =>
    ((0, s), S.packets.storePacket packet)) >>= fun _ => .ret (.ok ()))

def forwardPrefillNoWait (root : RootLlmInference β F σ) :
    Io Port β String (RootLlmInference β F σ) := do
  S.writeAll root.controlPacket
  let root := S.rootExecute root
  let pipeline ← root.pipeline.sendActivationIo S.fmt 1 (S.rootActivation root)
  return { root with pipeline }

def receiveLogits (place : LogitsPlace) (root : RootLlmInference β F σ) :
    Io Port β String (RootLlmInference β F σ) := do
  let received ← root.pipeline.recvActivationIo S.fmt (S.ppSize - 1) (place.buffer root.pipes)
  Io.ofExcept (place.accept root received)

/-- `forward` up to its receive is `forwardPrefillNoWait`. -/
def rootForward (root : RootLlmInference β F σ) : Io Port β String (RootLlmInference β F σ) := do
  let root ← S.forwardPrefillNoWait root
  S.receiveLogits (S.logitsPlace root.controlPacket) root

/-- One message, whatever the number of chunks. -/
def drainPrefillLogits (root : RootLlmInference β F σ) :
    Io Port β String (RootLlmInference β F σ) :=
  S.receiveLogits (.logitsPipe 0 S.logitsPipeMaxBytes) root

def finish (root : RootLlmInference β F σ) : Io Port β String (RootLlmInference β F σ) := do
  let root := { root with controlPacket := { root.controlPacket with batchSize := 0 } }
  S.writeAll root.controlPacket
  return root

def prefillChunk (useWave : Bool) (root : RootLlmInference β F σ) (c : ForwardCall) :
    Io Port β String (RootLlmInference β F σ) :=
  let root := ((root.setBatchSize c.batchSize).setLastPrefillChunk c.isLastPrefillChunk).setPosition
    c.position
  let root := { root with pipes := S.withTokens c root.pipes }
  if useWave then S.forwardPrefillNoWait root else S.rootForward root

def decodeToken (root : RootLlmInference β F σ) (c : ForwardCall) :
    Io Port β String (RootLlmInference β F σ) :=
  let root := root.setPosition c.position
  S.rootForward { root with pipes := S.withTokens c root.pipes }

/-- The loops of `inference()`, and `finish` after them. -/
def inference (useWave : Bool) (prefill decode : List ForwardCall) (root : RootLlmInference β F σ) :
    Io Port β String (RootLlmInference β F σ) := do
  let root ← prefill.foldlM (S.prefillChunk useWave) (root.setDecodePhase false)
  let root ← if useWave && !prefill.isEmpty then S.drainPrefillLogits root else pure root
  let root ← decode.foldlM S.decodeToken ((root.setBatchSize 1).setDecodePhase true)
  S.finish root

end Root

/-! ## A worker -/

/-- What a worker takes from a packet.  The stop packet changes nothing else. -/
def hear (packet : LlmControlPacket F) (w : StageWorker β F σ) :
    Except String (StageWorker β F σ) := do
  let inference ← w.inference.tryReadControlPacket S.nBatches packet
  if inference.isFinished then return { w with inference }
  return { w with
    inference
    pipelineActivationType :=
      if packet.activationType = .unk then w.pipelineActivationType else packet.activationType
    pipeline := w.pipeline.setTransportOptions (packet.pipelineDelta == 1)
      packet.pipelineDeltaMinBytes packet.pipelineChunkBytes }

/-- The rows of the batch in `xPipe`. -/
def xBuffer (w : StageWorker β F σ) : List β :=
  w.memory.xPipe.take (S.xPipeRowBytes * w.inference.batchSize)

def takeActivation (r : Nat) (w : StageWorker β F σ) (received : Received β F) :
    Except String (StageWorker β F σ) :=
  match received.result with
  | .error _ => .error "Failed to receive pipeline activation"
  | .ok _ => do
      let w := { w with
        pipeline := received.comm
        memory := { w.memory with xPipe := overwrite w.memory.xPipe received.buffer } }
      let inference ← w.inference.acceptActivation (S.place r) received.header.toStage (S.metric w)
      return { w with inference }

/-- `executor.forward()`, unless the token is skipped. -/
def execute (r : Nat) (w : StageWorker β F σ) : StageWorker β F σ :=
  if w.inference.skipForwardThisToken then w
  else { w with
    memory := S.forward r w.inference.decodePhase w.inference.positionPipe w.memory }

section Worker

variable [Add F] [Sub F] [Zero F] [One F] [LE F] [DecidableLE F] [LT F] [DecidableLT F]
variable [NatCast F] [Div F]

/-- The bytes of a message. -/
def payloadBytes (w : StageWorker β F σ) : Payload → List β
  | .marker => []
  | .xPipe => S.xBuffer w
  | .logits => w.memory.logitsPipe.take (S.logitsPipeRowBytes * w.inference.batchSize)
  | .lastLogitsRow =>
      (w.memory.logitsPipe.drop ((w.inference.batchSize - 1) * S.logitsPipeRowBytes)).take
        S.logitsPipeRowBytes
  | .sampledToken =>
      let logits := S.fmt.loadFloats (w.memory.logitsPipe.take S.logitsPipeRowBytes)
      S.fmt.storeF32
        (if S.fusedLmHeadArgmax then logits.headD 0 else (S.sampleArgmaxToken logits : F))
  | .topKLogits =>
      let logits := S.fmt.loadFloats (w.memory.logitsPipe.take S.logitsPipeRowBytes)
      S.fmt.storeFloats (S.packTopKLogits logits
        (min w.inference.controlPacket.topKCount (S.logitsPipeRowBytes / 4)))

/-- The arguments of one `sendActivation` of a worker. -/
def activation (w : StageWorker β F σ) (o : Outgoing) : Activation β where
  seqPosition := o.seqPosition
  batchIndex := 0
  sliceId := 0
  data := S.payloadBytes w o.payload
  dtype := if o.payload = .xPipe then w.pipelineActivationType else .f32
  extraFlags := o.extraFlags

def readControlPacket (r : Nat) (w : StageWorker β F σ) : Io Port β String (StageWorker β F σ) := do
  let bytes ← Io.read (r, 0) S.packets.packetSize
  Io.ofExcept (S.hear (S.packets.loadPacket bytes) w)

def beforeForward (r : Nat) (w : StageWorker β F σ) : Io Port β String (StageWorker β F σ) :=
  match w.inference.sources (S.place r) with
  | .none => return { w with inference := w.inference.beginToken }
  | .one sourcePpRank => do
      let received ← w.pipeline.recvActivationIo S.fmt sourcePpRank (S.xBuffer w)
      Io.ofExcept (S.takeActivation r w received)
  | .poll _ _ => throw "stage skipping"

def sendOutgoing (w : StageWorker β F σ) (o : Outgoing) :
    Io Port β String (StageWorker β F σ) := do
  let pipeline ← w.pipeline.sendActivationIo S.fmt o.targetPpRank (S.activation w o)
  return { w with pipeline }

def afterForward (r : Nat) (w : StageWorker β F σ) : Io Port β String (StageWorker β F σ) :=
  let (inference, outs) := w.inference.afterForward (S.place r)
  outs.foldlM S.sendOutgoing { w with inference }

/-- The loop of a worker, for `fuel` packets at most. -/
def stageLoop (r : Nat) : Nat → StageWorker β F σ → Io Port β String (StageWorker β F σ)
  | 0, _ => throw "more packets than expected"
  | fuel + 1, w => do
      let w ← S.readControlPacket r w
      if w.inference.isFinished then return w
      else
        let w ← S.beforeForward r w
        let w ← S.afterForward r (S.execute r w)
        stageLoop r fuel w

end Worker

end StageSetup

/-! ## The system -/

/-- The root and the workers of the stages `1`, …, `ppSize - 1`. -/
structure Stages (β F σ : Type) where
  root : RootLlmInference β F σ
  worker : Nat → StageWorker β F σ

namespace Stages

variable (s : Stages β F σ)

def pipeline (r : Nat) : NnPipelineCommunicator F :=
  if r = 0 then s.root.pipeline else (s.worker r).pipeline

def memory (r : Nat) : NodeMemory β σ :=
  if r = 0 then s.root.pipes.memory else (s.worker r).memory

end Stages

/-- What a party of the network returns; the others take no part. -/
inductive StageResult (β F σ : Type) where
  | root (root : RootLlmInference β F σ)
  | worker (w : StageWorker β F σ)
  | idle

namespace StageSetup

variable (S : StageSetup β F σ)

def result (s : Stages β F σ) (p : Party) : StageResult β F σ :=
  if p.2 ≠ 0 ∨ S.ppSize ≤ p.1 then .idle
  else if p.1 = 0 then .root s.root
  else .worker (s.worker p.1)

variable [Add F] [Sub F] [Zero F] [One F] [LE F] [DecidableLE F] [LT F] [DecidableLT F]
variable [NatCast F] [Div F]

/-- All nodes before the first packet; each worker can take `fuel` packets. -/
def system (fuel : Nat) (useWave : Bool) (prefill decode : List ForwardCall)
    (s : Stages β F σ) : Config Party Port β (Except String (StageResult β F σ)) where
  proc p :=
    if p.2 ≠ 0 ∨ S.ppSize ≤ p.1 then .ret (.ok .idle)
    else if p.1 = 0 then (StageResult.root <$> S.inference useWave prefill decode s.root).run
    else (StageResult.worker <$> S.stageLoop p.1 fuel (s.worker p.1)).run
  sent _ := []

end StageSetup

end Pipeline
end PrefillOpt
