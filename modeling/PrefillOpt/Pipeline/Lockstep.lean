import PrefillOpt.Pipeline.Sequential

/-!
# Pipeline.Lockstep — the stages one after the other

The same stages without links: a call goes through the root and the stages in their order, each
message is taken as soon as it is made, and the root takes the logits of a call at once when the
packet asks for them.  This is what the pipeline is to compute; `StageRuns` shows that it does.
-/

namespace PrefillOpt
namespace Pipeline

open Lib Network

variable {β F σ : Type}

namespace RootLlmInference

/-- All setters before a call. -/
def prepare (root : RootLlmInference β F σ) (c : ForwardCall) : RootLlmInference β F σ :=
  (((root.setDecodePhase c.decodePhase).setBatchSize c.batchSize).setLastPrefillChunk
    c.isLastPrefillChunk).setPosition c.position

@[simp] theorem prepare_controlPacket (root : RootLlmInference β F σ) (c : ForwardCall) :
    (root.prepare c).controlPacket = c.packet root.controlPacket := rfl

end RootLlmInference

namespace StageSetup

variable (S : StageSetup β F σ)

section Lockstep

variable [Add F] [Sub F] [Zero F] [One F] [LE F] [DecidableLE F] [LT F] [DecidableLT F]
variable [NatCast F] [Div F]

/-- The root's forward and its message to stage 1. -/
def rootSend (root : RootLlmInference β F σ) :
    Except String (RootLlmInference β F σ × List (List β)) := do
  let root := S.rootExecute root
  let (_, message, pipeline) ← root.pipeline.sendActivation S.fmt 1 (S.rootActivation root)
  return ({ root with pipeline }, message)

def rootTake (place : LogitsPlace) (root : RootLlmInference β F σ) (message : List (List β)) :
    Except String (RootLlmInference β F σ) := do
  let received ← root.pipeline.recvActivation S.fmt (S.ppSize - 1) (place.buffer root.pipes)
    message.flatten
  match received with
  | none => throw "the message is short"
  | some received => place.accept root received

def stageTake (r : Nat) (message : List (List β)) (w : StageWorker β F σ) :
    Except String (StageWorker β F σ) :=
  match w.inference.sources (S.place r) with
  | .none => .ok { w with inference := w.inference.beginToken }
  | .one sourcePpRank => do
      match ← w.pipeline.recvActivation S.fmt sourcePpRank (S.xBuffer w) message.flatten with
      | none => throw "the message is short"
      | some received => S.takeActivation r w received
  | .poll _ _ => throw "stage skipping"

/-- The messages of a stage after its forward. -/
def stageSend : List Outgoing → StageWorker β F σ →
    Except String (StageWorker β F σ × List (List β))
  | [], w => .ok (w, [])
  | o :: outs, w => do
      let (_, message, pipeline) ← w.pipeline.sendActivation S.fmt o.targetPpRank (S.activation w o)
      let (w, messages) ← stageSend outs { w with pipeline }
      return (w, message ++ messages)

/-- The round of a stage: it hears the packet, takes the message of the stage before, runs its
forward and sends its own message. -/
def react (r : Nat) (packet : LlmControlPacket F) (message : List (List β))
    (w : StageWorker β F σ) : Except String (StageWorker β F σ × List (List β)) := do
  let w ← S.hear packet w
  let w ← S.stageTake r message w
  let w := S.execute r w
  let (inference, outs) := w.inference.afterForward (S.place r)
  S.stageSend outs { w with inference }

/-- The stages up to stage `r`, and the message of the last of them. -/
def relay (packet : LlmControlPacket F) (message : List (List β))
    (worker : Nat → StageWorker β F σ) :
    Nat → Except String ((Nat → StageWorker β F σ) × List (List β))
  | 0 => .ok (worker, message)
  | r + 1 => do
      let (worker, message) ← relay packet message worker r
      let (w, message) ← S.react (r + 1) packet message (worker (r + 1))
      return (Function.update worker (r + 1) w, message)

/-- One call through all stages. -/
def lockCall (useWave : Bool) (s : Stages β F σ) (c : ForwardCall) :
    Except String (Stages β F σ) := do
  let root := s.root.prepare c
  let (root, message) ← S.rootSend { root with pipes := S.withTokens c root.pipes }
  let (worker, message) ← S.relay root.controlPacket message s.worker (S.ppSize - 1)
  if c.isLastPrefillChunk then
    let root ← S.rootTake (S.takePlace useWave c root.controlPacket) root message
    return ⟨root, worker⟩
  else return ⟨root, worker⟩

/-- The root after its last call, with the stop packet. -/
def lastRoot (root : RootLlmInference β F σ) : RootLlmInference β F σ :=
  let root := (root.setBatchSize 1).setDecodePhase true
  { root with controlPacket := { root.controlPacket with batchSize := 0 } }

/-- The workers that have heard the stop packet. -/
def stopped (packet : LlmControlPacket F) (worker : Nat → StageWorker β F σ) (r : Nat) :
    StageWorker β F σ :=
  if 0 < r ∧ r < S.ppSize then
    { worker r with inference := { (worker r).inference with
        controlPacket := packet
        isFinished := true } }
  else worker r

/-- All calls, then the stop packet. -/
def lockstep (useWave : Bool) (calls : List ForwardCall) (s : Stages β F σ) :
    Except String (Stages β F σ) := do
  let s ← calls.foldlM (S.lockCall useWave) s
  let root := lastRoot s.root
  return ⟨root, S.stopped root.controlPacket s.worker⟩

end Lockstep

end StageSetup

end Pipeline
end PrefillOpt
