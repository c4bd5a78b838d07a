import PrefillOpt.Pipeline.StageLoop

/-!
# Pipeline.Sequential — the model that the stages compute together

No messages and no bases: in a call the memory of each stage is run on the rows of the stage before
it, after these have been on the wire, and the root gets the logits of the last one.
-/

namespace PrefillOpt
namespace Pipeline

open Lib

variable {β F σ : Type}

/-- The memories of all nodes, the root's among its pipes. -/
structure Sequential (β F σ : Type) where
  controlPacket : LlmControlPacket F
  pipes : RootPipes β σ
  memory : Nat → NodeMemory β σ

namespace StageSetup

variable (S : StageSetup β F σ)

/-- The rows of a batch in `xPipe`. -/
def rows (p : LlmControlPacket F) (m : NodeMemory β σ) : List β :=
  m.xPipe.take (S.xPipeRowBytes * p.batchSize)

/-- The memory of each stage after its forward; `first` is the root's before. -/
def stagesForward (p : LlmControlPacket F) (first : NodeMemory β σ)
    (memory : Nat → NodeMemory β σ) : Nat → NodeMemory β σ
  | 0 => S.forward 0 (p.phase == 1) (contiguous p.position p.batchSize) first
  | r + 1 =>
      let arriving := S.fmt.carry p.activationType (S.rows p (stagesForward p first memory r))
      S.forward (r + 1) (p.phase == 1) (contiguous p.position p.batchSize)
        { memory (r + 1) with xPipe := overwrite (memory (r + 1)).xPipe arriving }

/-- A drain puts the logits at the start of `logitsPipe`. -/
def takePlace (useWave : Bool) (c : ForwardCall) (p : LlmControlPacket F) : LogitsPlace :=
  if useWave && !c.decodePhase then .logitsPipe 0 S.logitsPipeMaxBytes else S.logitsPlace p

section Logits

variable [Zero F] [NatCast F]

/-- What the root is to get of the last stage: the sampled token, the top logits, the last row or
all rows. -/
def lastLogits (p : LlmControlPacket F) (m : NodeMemory β σ) : List β :=
  let logits := S.fmt.loadFloats (m.logitsPipe.take S.logitsPipeRowBytes)
  match S.logitsPlace p with
  | .tokenFromWorker => S.fmt.storeF32
      (if S.fusedLmHeadArgmax then logits.headD 0 else (S.sampleArgmaxToken logits : F))
  | .topKPacked => S.fmt.storeFloats
      (S.packTopKLogits logits (min p.topKCount (S.logitsPipeRowBytes / 4)))
  | .logitsPipe offset size => (m.logitsPipe.drop offset).take size

/-- One call. -/
def seqCall (useWave : Bool) (s : Sequential β F σ) (c : ForwardCall) : Sequential β F σ :=
  let p := c.packet s.controlPacket
  let pipes := S.withTokens c s.pipes
  let memory := S.stagesForward p pipes.memory s.memory
  let pipes := { pipes with memory := memory 0 }
  let place := S.takePlace useWave c p
  { controlPacket := p
    pipes := if c.isLastPrefillChunk then
        place.store pipes (overwrite (place.buffer pipes) (S.lastLogits p (memory (S.ppSize - 1))))
      else pipes
    memory }

def sequential (useWave : Bool) (calls : List ForwardCall) (s : Sequential β F σ) :
    Sequential β F σ :=
  calls.foldl (S.seqCall useWave) s

end Logits

end StageSetup

end Pipeline
end PrefillOpt
