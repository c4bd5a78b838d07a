import PrefillOpt.Lib.Transition
import PrefillOpt.Pipeline.Worker

/-!
# Pipeline.SkipProtocol — decode tokens with stage skipping on

One lane of stages, `spSize = tpSize = 1`.  The root sends each token's control packet to every
worker and its own activation to stage 1, and waits for the logits.  The stage before the target
decides whether the token goes past the target; the stage after it polls both sources.

A message is in its link from the send to the receive that takes it, and a link keeps the order.
The first message of stage 1 and its control packets share a link.  Time does not pass: the
timeout of the polling loop, and stages of several nodes, are in `SkipLanes`.
-/

namespace PrefillOpt
namespace Pipeline

open Relation Lib

variable {F : Type}

/-! ## The setting -/

/-- A request after its prefill: the packet of the setters, and the tokens that are decoded. -/
structure SkipSetup (F : Type) where
  ppSize : Nat
  /-- The root's packet at the end of the prefill. -/
  packet : LlmControlPacket F
  maxBatchSize : Nat
  firstPosition : Nat
  nTokens : Nat
  payloadBytes : Payload → Nat
  enabled : packet.stageSkipEnabled = 1
  /-- The decision stage is a worker. -/
  two_le_target : 2 ≤ packet.stageSkipTarget
  target_le : packet.stageSkipTarget + 2 ≤ ppSize
  maxBatchSize_pos : 0 < maxBatchSize
  marker_bytes : payloadBytes .marker = 0
  xPipe_bytes : 0 < payloadBytes .xPipe

namespace SkipSetup

variable (S : SkipSetup F)

def target : Nat := S.packet.stageSkipTarget

/-- The position of a token. -/
def position (k : Nat) : Nat := S.firstPosition + k

/-- The packet of a token: `setBatchSize(1)`, `setDecodePhase(true)`, `setPosition`. -/
def packetAt (k : Nat) : LlmControlPacket F :=
  ((S.packet.setBatchSize 1).setDecodePhase true).setPosition (S.position k)

def place (r : Nat) : StagePlace := ⟨S.ppSize, r, 0, 0⟩

/-- The nodes that `writeAll` reaches. -/
def workers : List Nat := List.range' 1 (S.ppSize - 1)

end SkipSetup

/-! ## States -/

inductive SkipMessage (F : Type) where
  | control (packet : LlmControlPacket F)
  | activation (header : StageHeader)

/-- Where a worker stands in its loop. -/
inductive StagePc where
  /-- `tryReadControlPacket` -/
  | control
  /-- `beforeForward`; `bypassNext` tells which source a polling stage tries next. -/
  | receive (bypassNext : Bool)
  /-- `afterForward`, with the sends that are left. -/
  | send (outs : List Outgoing)
  | stopped
  /-- An exception was thrown, or bytes were taken for what they are not. -/
  | failed (text : String)
  deriving DecidableEq

structure StageState (F : Type) where
  worker : WorkerLlmInference F
  pc : StagePc
  /-- The headers `beforeForward` has returned from, in order. -/
  consumed : List StageHeader
  /-- For each of them, whether the token was sent past the target. -/
  verdicts : List Bool

inductive RootPc where
  /-- `writeAll`, with the workers that are left. -/
  | write (todo : List Nat)
  | send
  /-- The receive of the logits. -/
  | receive
  | finished
  | failed (text : String)
  deriving DecidableEq

structure SkipState (F : Type) where
  rootPc : RootPc
  /-- The tokens whose logits the root has got. -/
  token : Nat
  stage : Nat → StageState F
  /-- The messages on their way from one node to another. -/
  link : Nat × Nat → List (SkipMessage F)

namespace SkipState

variable (s : SkipState F)

def push (a b : Nat) (m : SkipMessage F) : SkipState F :=
  { s with link := Function.update s.link (a, b) (s.link (a, b) ++ [m]) }

def setLink (a b : Nat) (ms : List (SkipMessage F)) : SkipState F :=
  { s with link := Function.update s.link (a, b) ms }

def setStage (r : Nat) (st : StageState F) : SkipState F :=
  { s with stage := Function.update s.stage r st }

/-- The messages `beforeForward` of stage `r` has taken. -/
def took (r : Nat) : Nat := (s.stage r).consumed.length

end SkipState

/-! ## Steps -/

inductive SkipAction (F : Type) where
  /-- The root writes the control packet to worker `r`. -/
  | writeControl (r : Nat)
  /-- The root sends its activation. -/
  | rootSend (chunked delta : Bool)
  | rootReceive
  | readControl (r : Nat)
  /-- Stage `r` receives, or polls once; `metric` is the outcome of the comparison of rows. -/
  | receive (r : Nat) (metric : Option F)
  | send (r : Nat) (chunked delta : Bool)

/-- The flags the communicator adds to those of the caller. -/
def transportFlags (chunked delta : Bool) (extraFlags : Nat) : Nat :=
  (if chunked then PIPELINE_FLAG_CHUNKED else 0) ||| (if delta then PIPELINE_FLAG_DELTA else 0)
    ||| extraFlags

namespace SkipSetup

variable (S : SkipSetup F)

/-- The next round of the decode loop. -/
def nextRound (k : Nat) : RootPc :=
  if k < S.nTokens then .write S.workers else .finished

def header (o : Outgoing) (chunked delta : Bool) : StageHeader :=
  ⟨o.seqPosition, S.payloadBytes o.payload, transportFlags chunked delta o.extraFlags⟩

/-- `writeAll` has returned when no worker is left. -/
def afterWrites (todo : List Nat) : RootPc :=
  if todo = [] then .send else .write todo

def writeControl (s : SkipState F) (r : Nat) : Option (SkipState F) :=
  match s.rootPc with
  | .write todo =>
      if r ∈ todo then
        some { s.push 0 r (.control (S.packetAt s.token)) with
          rootPc := afterWrites (todo.erase r) }
      else none
  | _ => none

def rootSend (s : SkipState F) (chunked delta : Bool) : Option (SkipState F) :=
  match s.rootPc with
  | .send =>
      let o : Outgoing := ⟨1, S.position s.token, .xPipe, 0⟩
      some { s.push 0 1 (.activation (S.header o chunked delta)) with rootPc := .receive }
  | _ => none

def rootReceive (s : SkipState F) : Option (SkipState F) :=
  match s.rootPc, s.link (S.ppSize - 1, 0) with
  | .receive, .activation _ :: rest =>
      some { s.setLink (S.ppSize - 1) 0 rest with
        rootPc := S.nextRound (s.token + 1)
        token := s.token + 1 }
  | .receive, .control _ :: rest =>
      some { s.setLink (S.ppSize - 1) 0 rest with rootPc := .failed "no activation" }
  | _, _ => none

def readControl (s : SkipState F) (r : Nat) : Option (SkipState F) :=
  let st := s.stage r
  match st.pc, s.link (0, r) with
  | .control, .control packet :: rest =>
      let st := match st.worker.tryReadControlPacket S.maxBatchSize packet with
        | .ok w => { st with worker := w, pc := if w.isFinished then .stopped else .receive true }
        | .error text => { st with pc := .failed text }
      some ((s.setLink 0 r rest).setStage r st)
  | .control, .activation _ :: rest =>
      some ((s.setLink 0 r rest).setStage r { st with pc := .failed "no control packet" })
  | _, _ => none

/-- The loop goes on with the next packet when nothing is left to send. -/
def afterSends (outs : List Outgoing) : StagePc :=
  if outs = [] then .control else .send outs

section Decision

variable [Zero F] [One F] [LE F] [DecidableLE F] [LT F] [DecidableLT F] [NatCast F] [Div F]

/-- A message has come in: the rest of `beforeForward`, the forward and the decision. -/
def handleAt (place : StagePlace) (st : StageState F) (metric : Option F) :
    SkipMessage F → StageState F
  | .control _ => { st with pc := .failed "no activation" }
  | .activation header =>
      match st.worker.acceptActivation place header metric with
      | .error text => { st with pc := .failed text }
      | .ok w =>
          let (w, outs) := w.afterForward place
          { worker := w
            pc := afterSends outs
            consumed := st.consumed ++ [header]
            verdicts := st.verdicts ++ [w.accepted] }

def handle (st : StageState F) (r : Nat) (metric : Option F) : SkipMessage F → StageState F :=
  handleAt (S.place r) st metric

def receiveFrom (s : SkipState F) (source r : Nat) (metric : Option F) : Option (SkipState F) :=
  match s.link (source, r) with
  | [] => none
  | m :: rest => some ((s.setLink source r rest).setStage r (S.handle (s.stage r) r metric m))

def receive (s : SkipState F) (r : Nat) (metric : Option F) : Option (SkipState F) :=
  let st := s.stage r
  match st.pc with
  | .receive bypassNext =>
      match st.worker.sources (S.place r) with
      | .none => none
      | .one source => S.receiveFrom s source r metric
      | .poll bypassSource normalSource =>
          let source := if bypassNext then bypassSource else normalSource
          some ((S.receiveFrom s source r metric).getD
            (s.setStage r { st with pc := .receive !bypassNext }))
  | _ => none

def send (s : SkipState F) (r : Nat) (chunked delta : Bool) : Option (SkipState F) :=
  let st := s.stage r
  match st.pc with
  | .send (o :: outs) =>
      some ((s.push r o.targetPpRank (.activation (S.header o chunked delta))).setStage r
        { st with pc := afterSends outs })
  | _ => none

def step (s : SkipState F) : SkipAction F → Option (SkipState F)
  | .writeControl r => S.writeControl s r
  | .rootSend chunked delta => S.rootSend s chunked delta
  | .rootReceive => S.rootReceive s
  | .readControl r => if r ∈ S.workers then S.readControl s r else none
  | .receive r metric => if r ∈ S.workers then S.receive s r metric else none
  | .send r chunked delta => if r ∈ S.workers then S.send s r chunked delta else none

def SkipStep (s s' : SkipState F) : Prop := ∃ a, S.step s a = some s'

def runActions (s : SkipState F) (as : List (SkipAction F)) : Option (SkipState F) :=
  as.foldlM S.step s

end Decision

/-- The prefill is over: every worker waits for the next packet, and nothing is under way. -/
def start (worker : Nat → WorkerLlmInference F) : SkipState F where
  rootPc := S.nextRound 0
  token := 0
  stage r := ⟨worker r, .control, [], []⟩
  link _ := []

end SkipSetup

end Pipeline
end PrefillOpt
