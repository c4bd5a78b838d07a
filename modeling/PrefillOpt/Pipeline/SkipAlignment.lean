import PrefillOpt.Pipeline.SkipProtocol

/-!
# Pipeline.SkipAlignment — every stage stays with its token

At any time the activation of the current token is at one place of the lane, the *front*.  All
stages but the target have handled the token exactly if they lie behind the front.  The target may
lag: what it has not taken yet lies in the link of the decision stage, one message for each token,
and those it lags behind on are all markers.
-/

namespace PrefillOpt
namespace Pipeline

open Relation Lib

variable {F : Type}

/-! ## A worker that holds the packet of a token -/

/-- The worker has read the packet of token `k`. -/
structure Holds (S : SkipSetup F) (k : Nat) (w : WorkerLlmInference F) : Prop where
  controlPacket : w.controlPacket = S.packetAt k
  decodePhase : w.decodePhase = true
  batchSize : w.batchSize = 1

/-- The activation of token `k`. -/
structure IsRow (S : SkipSetup F) (k : Nat) (h : StageHeader) : Prop where
  seqPosition : h.seqPosition = S.position k
  payloadBytes : h.payloadBytes = S.payloadBytes .xPipe

/-- The marker that lets the target skip token `k`. -/
structure IsMarker (S : SkipSetup F) (k : Nat) (h : StageHeader) : Prop where
  seqPosition : h.seqPosition = S.position k
  payloadBytes : h.payloadBytes = 0
  bypass : hasFlag h.flags PIPELINE_FLAG_STAGE_SKIP_BYPASS = true

section Packet

variable (S : SkipSetup F) (k : Nat)

@[simp] theorem packetAt_position : (S.packetAt k).position = S.position k := rfl

@[simp] theorem packetAt_batchSize : (S.packetAt k).batchSize = 1 := rfl

@[simp] theorem packetAt_phase : (S.packetAt k).phase = 1 := rfl

@[simp] theorem packetAt_positionMode : (S.packetAt k).positionMode = 0 := rfl

@[simp] theorem packetAt_target : (S.packetAt k).stageSkipTarget = S.target := rfl

@[simp] theorem packetAt_enabled : (S.packetAt k).stageSkipEnabled = 1 := S.enabled

@[simp] theorem packetAt_maxConsecutive :
    (S.packetAt k).stageSkipMaxConsecutive = S.packet.stageSkipMaxConsecutive := rfl

theorem shouldSendActivations_place (r : Nat) :
    (S.place r).shouldSendActivations = decide (r + 1 < S.ppSize) := by
  have : r < S.ppSize - 1 ↔ r + 1 < S.ppSize := by omega
  simp only [SkipSetup.place, StagePlace.shouldSendActivations, this]

theorem shouldRecvActivations_place (r : Nat) :
    (S.place r).shouldRecvActivations = decide (1 ≤ r) := rfl

theorem SkipSetup.two_le : 2 ≤ S.target := S.two_le_target

theorem SkipSetup.target_lt : S.target + 2 ≤ S.ppSize := S.target_le

end Packet

section Roles

variable {S : SkipSetup F} {k r : Nat} {w : WorkerLlmInference F}

theorem Holds.skipping (h : Holds S k w) : w.stageSkipExecute = true ∧ w.decodeSingle = true := by
  simp [WorkerLlmInference.stageSkipExecute, WorkerLlmInference.decodeSingle, h.controlPacket,
    h.decodePhase, h.batchSize]

theorem Holds.isTarget (h : Holds S k w) :
    w.isStageSkipTargetStage (S.place r) = (r == S.target) := by
  simp [WorkerLlmInference.isStageSkipTargetStage, h.controlPacket, SkipSetup.place]

theorem Holds.isDecision (h : Holds S k w) :
    w.isStageSkipDecisionStage (S.place r) = (r + 1 == S.target) := by
  have htwo := S.two_le
  have hne : (S.target != 0) = true := by simpa using (by omega : S.target ≠ 0)
  simp [WorkerLlmInference.isStageSkipDecisionStage, h.controlPacket, SkipSetup.place, hne]

/-- The stage after the target polls; the others have one source. -/
theorem Holds.sources (h : Holds S k w) (hr : 1 ≤ r) :
    w.sources (S.place r)
      = if r = S.target + 1 then .poll (S.target - 1) S.target else .one (r - 1) := by
  have hrecv : (S.place r).shouldRecvActivations = true := by
    simpa [shouldRecvActivations_place] using hr
  have hpost : w.isStageSkipPostTargetStage (S.place r) = (r == S.target + 1) := by
    simp [WorkerLlmInference.isStageSkipPostTargetStage, h.controlPacket, SkipSetup.place]
  simp only [WorkerLlmInference.sources, hrecv, h.skipping, hpost, h.controlPacket]
  by_cases heq : r = S.target + 1
  · simp [heq]
  · simp [heq, SkipSetup.place]

theorem Holds.isSkipMarker (h : Holds S k w) (header : StageHeader) :
    w.isSkipMarker (S.place r) header = (r == S.target &&
      hasFlag header.flags PIPELINE_FLAG_STAGE_SKIP_BYPASS && header.payloadBytes == 0) := by
  simp only [WorkerLlmInference.isSkipMarker, h.skipping, h.isTarget, Bool.true_and]

theorem Holds.of_samePacket {w' : WorkerLlmInference F} (h : Holds S k w) (hw : w.SamePacket w') :
    Holds S k w' :=
  ⟨hw.controlPacket.trans h.controlPacket, hw.decodePhase.trans h.decodePhase,
    hw.batchSize.trans h.batchSize⟩

/-- Whatever a worker did before, it accepts the packet of a token. -/
theorem tryReadControlPacket_packetAt (S : SkipSetup F) (k : Nat) (w : WorkerLlmInference F) :
    ∃ w', w.tryReadControlPacket S.maxBatchSize (S.packetAt k) = .ok w' ∧ Holds S k w' ∧
      w'.isFinished = w.isFinished ∧
      (w.decodePhase = true → w'.skipConsecutiveAccepts = w.skipConsecutiveAccepts) ∧
      (w.decodePhase = false → w'.skipConsecutiveAccepts = 0) := by
  rcases w.tryReadControlPacket_ok (S.packetAt k) S.maxBatchSize
    Nat.one_ne_zero S.maxBatchSize_pos rfl with ⟨w', hok, hheard⟩
  refine ⟨w', hok, ⟨hheard.controlPacket, hheard.decodePhase, hheard.batchSize⟩,
    hheard.isFinished, hheard.samePhase, fun hphase => hheard.newPhase ?_⟩
  simp [hphase]

end Roles

/-! ## What a stage does with a message -/

namespace SkipSetup

variable (S : SkipSetup F)

/-- The payload of the logits of a token. -/
def logitsPayload : Payload :=
  if S.packet.tokenOnlyMode = 1 then .sampledToken
  else if S.packet.tokenOnlyMode = 2 then .topKLogits
  else .logits

/-- The send by which stage `r` hands token `k` on. -/
def nextSend (r k : Nat) : Outgoing :=
  if r + 1 = S.ppSize then ⟨0, S.position k, S.logitsPayload, 0⟩
  else ⟨r + 1, S.position k, .xPipe, 0⟩

def markerSend (k : Nat) : Outgoing :=
  ⟨S.target, S.position k, .marker, PIPELINE_FLAG_STAGE_SKIP_BYPASS⟩

def bypassSend (k : Nat) : Outgoing :=
  ⟨S.target + 1, S.position k, .xPipe, PIPELINE_FLAG_STAGE_SKIP_BYPASS⟩

end SkipSetup

section Handle

variable {S : SkipSetup F} {k r : Nat}

theorem Holds.sends_next {w : WorkerLlmInference F} (h : Holds S k w) (hr : 1 ≤ r)
    (hlt : r < S.ppSize) (hskip : w.skipsSends (S.place r) = false)
    (hbypass : w.bypasses (S.place r) = false) : w.sends (S.place r) = [S.nextSend r k] := by
  by_cases hlast : r + 1 = S.ppSize
  · have hsend : (S.place r).shouldSendActivations = false := by
      simp [shouldSendActivations_place, hlast]
    have hsingle := h.skipping.2
    rw [w.sends_logits hskip hsend ⟨hr, rfl, rfl⟩]
    simp [h.decodePhase, h.controlPacket, SkipSetup.nextSend, hlast, SkipSetup.logitsPayload,
      WorkerLlmInference.logitsPayload, hsingle, SkipSetup.packetAt,
      LlmControlPacket.setPosition, LlmControlPacket.setDecodePhase, LlmControlPacket.setBatchSize]
  · have hsend : (S.place r).shouldSendActivations = true := by
      simpa [shouldSendActivations_place] using Nat.lt_of_le_of_ne hlt hlast
    rw [w.sends_next hskip hsend hbypass]
    simp [h.controlPacket, SkipSetup.nextSend, hlast, SkipSetup.place]


variable [Zero F] [One F] [LE F] [DecidableLE F] [LT F] [DecidableLT F] [NatCast F] [Div F]

/-- What `handle` leaves of an activation: it is handed on, or sent past the target. -/
structure Forwarded (S : SkipSetup F) (k r : Nat) (h : StageHeader) (st st' : StageState F) :
    Prop where
  consumed : st'.consumed = st.consumed ++ [h]
  holds : Holds S k st'.worker
  isFinished : st'.worker.isFinished = st.worker.isFinished
  count_le : st.worker.skipConsecutiveAccepts ≤ S.packet.stageSkipMaxConsecutive →
    st'.worker.skipConsecutiveAccepts ≤ S.packet.stageSkipMaxConsecutive
  outcome :
    (st'.verdicts = st.verdicts ++ [false] ∧ st'.pc = .send [S.nextSend r k]) ∨
    (r + 1 = S.target ∧ st'.verdicts = st.verdicts ++ [true] ∧
      st'.pc = .send [S.markerSend k, S.bypassSend k] ∧
      st'.worker.skipConsecutiveAccepts = st.worker.skipConsecutiveAccepts + 1)

/-- An activation of the stage's own token. -/
theorem handle_row {st : StageState F} {h : StageHeader} (hst : Holds S k st.worker)
    (hr : 1 ≤ r) (hlt : r < S.ppSize) (hrow : IsRow S k h) (metric : Option F) :
    Forwarded S k r h st (S.handle st r metric (.activation h)) := by
  have hbytes := S.xPipe_bytes
  have hno : st.worker.isSkipMarker (S.place r) h = false := by
    have hne : (h.payloadBytes == 0) = false := by
      rw [hrow.payloadBytes]
      simpa using (by omega : S.payloadBytes .xPipe ≠ 0)
    rw [hst.isSkipMarker, hne, Bool.and_false]
  have hpos : h.seqPosition = st.worker.controlPacket.position := by
    rw [hst.controlPacket]
    exact hrow.seqPosition
  have hok := WorkerLlmInference.acceptActivation_row hno hpos metric
  have hsame := st.worker.trackRow_samePacket metric
  have hcount := st.worker.trackRow_skipConsecutiveAccepts metric
  have hflag := st.worker.trackRow_skipForwardThisToken metric
  generalize st.worker.beginToken.trackRow metric = w at hok hsame hcount hflag
  have hw : Holds S k w := hst.of_samePacket hsame
  -- the decision keeps the packet
  have hsame' := w.evaluate_samePacket (S.place r)
  have hw' : Holds S k (w.evaluateStageSkipDecision (S.place r)) := hw.of_samePacket hsame'
  have hmax : w.controlPacket.stageSkipMaxConsecutive = S.packet.stageSkipMaxConsecutive := by
    rw [hw.controlPacket]
    rfl
  have hskip : (w.evaluateStageSkipDecision (S.place r)).skipsSends (S.place r) = false := by
    simp [WorkerLlmInference.skipsSends, w.evaluate_skipForwardThisToken, hflag]
  have heq : S.handle st r metric (.activation h) =
      { worker := w.evaluateStageSkipDecision (S.place r)
        pc := SkipSetup.afterSends ((w.evaluateStageSkipDecision (S.place r)).sends (S.place r))
        consumed := st.consumed ++ [h]
        verdicts := st.verdicts ++ [(w.evaluateStageSkipDecision (S.place r)).accepted] } := by
    simp only [SkipSetup.handle, SkipSetup.handleAt, hok]
    rfl
  rw [heq]
  refine ⟨rfl, hw', hsame'.isFinished.trans hsame.isFinished, fun hle => ?_, ?_⟩
  · rw [← hmax] at hle ⊢
    exact WorkerLlmInference.evaluate_count_le (S.place r) (hcount.trans_le hle)
  cases hacc : (w.evaluateStageSkipDecision (S.place r)).accepted with
  | false =>
      left
      have hbypass : (w.evaluateStageSkipDecision (S.place r)).bypasses (S.place r) = false := by
        simp [WorkerLlmInference.bypasses, hacc]
      rw [hw'.sends_next hr hlt hskip hbypass]
      exact ⟨rfl, rfl⟩
  | true =>
      right
      have hdec : w.isStageSkipDecisionStage (S.place r) = true := by
        rw [WorkerLlmInference.evaluate_accepted, Bool.and_eq_true] at hacc
        have hd := hacc.1
        simp only [WorkerLlmInference.decides, Bool.and_eq_true] at hd
        exact hd.1.1.2
      have hstage : r + 1 = S.target := by
        rw [hw.isDecision] at hdec
        simpa using hdec
      have hsend : (S.place r).shouldSendActivations = true := by
        have htarget := S.target_lt
        rw [shouldSendActivations_place, hstage, decide_eq_true_eq]
        omega
      have hbypass : (w.evaluateStageSkipDecision (S.place r)).bypasses (S.place r) = true := by
        simp [WorkerLlmInference.bypasses, hacc, hw'.skipping, hw'.isDecision, hstage]
      refine ⟨hstage, rfl, ?_, ?_⟩
      · rw [WorkerLlmInference.sends_of_bypasses hskip hsend hbypass, hw'.controlPacket]
        rfl
      · rw [(WorkerLlmInference.evaluate_count_of_accepted hacc).1, hcount]

/-- A marker at the target: no forward and nothing to send. -/
theorem handle_marker {st : StageState F} {h : StageHeader} (hst : Holds S k st.worker)
    (hmarker : IsMarker S k h) (metric : Option F) :
    (S.handle st S.target metric (.activation h)).consumed = st.consumed ++ [h] ∧
      (S.handle st S.target metric (.activation h)).verdicts = st.verdicts ++ [false] ∧
      (S.handle st S.target metric (.activation h)).pc = .control ∧
      Holds S k (S.handle st S.target metric (.activation h)).worker ∧
      (S.handle st S.target metric (.activation h)).worker.isFinished = st.worker.isFinished ∧
      (st.worker.skipConsecutiveAccepts ≤ S.packet.stageSkipMaxConsecutive →
        (S.handle st S.target metric (.activation h)).worker.skipConsecutiveAccepts
          ≤ S.packet.stageSkipMaxConsecutive) := by
  have hskips : st.worker.isSkipMarker (S.place S.target) h = true := by
    simp [hst.isSkipMarker, hmarker.bypass, hmarker.payloadBytes]
  have hok := WorkerLlmInference.acceptActivation_marker hskips metric
  have hsame : st.worker.SamePacket { st.worker.beginToken with skipForwardThisToken := true } :=
    ⟨rfl, rfl, rfl, rfl, rfl⟩
  have hflag : ({ st.worker.beginToken with skipForwardThisToken := true } :
      WorkerLlmInference F).skipForwardThisToken = true := rfl
  have hcount : ({ st.worker.beginToken with skipForwardThisToken := true } :
      WorkerLlmInference F).skipConsecutiveAccepts = st.worker.skipConsecutiveAccepts := rfl
  generalize ({ st.worker.beginToken with skipForwardThisToken := true } :
    WorkerLlmInference F) = w at hok hsame hflag hcount
  have hw : Holds S k w := hst.of_samePacket hsame
  have hsame' := w.evaluate_samePacket (S.place S.target)
  have hw' : Holds S k (w.evaluateStageSkipDecision (S.place S.target)) := hw.of_samePacket hsame'
  have hskip : (w.evaluateStageSkipDecision (S.place S.target)).skipsSends (S.place S.target)
      = true := by
    simp [WorkerLlmInference.skipsSends, hw'.skipping, hw'.isTarget,
      w.evaluate_skipForwardThisToken, hflag]
  have hacc : (w.evaluateStageSkipDecision (S.place S.target)).accepted = false := by
    have hdec : w.isStageSkipDecisionStage (S.place S.target) = false := by simp [hw.isDecision]
    simp [WorkerLlmInference.evaluate_accepted, WorkerLlmInference.decides, hdec]
  simp only [SkipSetup.handle, SkipSetup.handleAt, hok, WorkerLlmInference.afterForward, hacc,
    WorkerLlmInference.sends_of_skips hskip]
  refine ⟨trivial, trivial, rfl, hw', hsame'.isFinished.trans hsame.isFinished, fun hle => ?_⟩
  have hmax : w.controlPacket.stageSkipMaxConsecutive = S.packet.stageSkipMaxConsecutive := by
    rw [hw.controlPacket]
    rfl
  rw [← hmax] at hle ⊢
  exact WorkerLlmInference.evaluate_count_le (S.place S.target) (hcount.trans_le hle)

end Handle

/-! ## The front -/

/-- Where the activation of the current token is. -/
inductive SkipFront where
  /-- The root has not sent it. -/
  | root
  /-- In the link to stage `b`. -/
  | flying (b : Nat)
  /-- Stage `b` has it and will hand it on. -/
  | held (b : Nat)
  /-- The decision stage will send the marker and pass the target by. -/
  | marker
  /-- The marker is sent, the activation is not. -/
  | bypass
  /-- The logits are in the link to the root. -/
  | logits
  deriving DecidableEq

namespace SkipFront

variable (S : SkipSetup F)

/-- The last stage that has handled the token. -/
def level : SkipFront → Nat
  | root => 0
  | flying b => b - 1
  | held b => b
  | marker | bypass => S.target - 1
  | logits => S.ppSize - 1

/-- The stage that has sends left, and these sends. -/
def sender : SkipFront → Nat
  | held b => b
  | marker | bypass => S.target - 1
  | _ => 0

def outs (k : Nat) : SkipFront → List Outgoing
  | held b => [S.nextSend b k]
  | marker => [S.markerSend k, S.bypassSend k]
  | bypass => [S.bypassSend k]
  | _ => []

/-- The tokens for which the target was sent a message. -/
def dispatched (k : Nat) : SkipFront → Nat
  | root | marker => k
  | flying b | held b => if b < S.target then k else k + 1
  | bypass | logits => k + 1

def Valid : SkipFront → Prop
  | flying b | held b => 1 ≤ b ∧ b < S.ppSize
  | _ => True

/-- The activation of the token is in the link from `a` to `b`; `past` tells that it goes past
the target. -/
def Carries (past : Prop) (a b : Nat) : SkipFront → Prop
  | flying r => b = r ∧ (r = S.target + 1 ∧ past ∧ a = S.target - 1 ∨
      ¬ (r = S.target + 1 ∧ past) ∧ a + 1 = r)
  | logits => a + 1 = S.ppSize ∧ b = 0
  | _ => False

/-- Only an activation or the logits on their way are in a link. -/
theorem Carries.flying_or_logits {past : Prop} {a b : Nat} {f : SkipFront}
    (h : f.Carries S past a b) :
    f = .flying b ∧ (b = S.target + 1 ∧ past ∧ a = S.target - 1 ∨
        ¬ (b = S.target + 1 ∧ past) ∧ a + 1 = b) ∨
      f = .logits ∧ a + 1 = S.ppSize ∧ b = 0 := by
  cases f with
  | flying r =>
      rcases h with ⟨rfl, hfrom⟩
      exact .inl ⟨rfl, hfrom⟩
  | logits => exact .inr ⟨rfl, h⟩
  | root => exact h.elim
  | held r => exact h.elim
  | marker => exact h.elim
  | bypass => exact h.elim

/-- What the front tells about the decision on the current token `k`. -/
def Verdict (verdicts : List Bool) (took k : Nat) : SkipFront → Prop
  | held b => b + 1 = S.target ∨ b = S.target → verdicts[k]? = some false
  | flying b => b = S.target → took ≤ k
  | marker | bypass => verdicts[k]? = some true
  | _ => True

end SkipFront

/-! ## The invariant -/

/-- Waiting for a packet, or holding one and waiting for its activation. -/
def StagePc.Waiting (pc : StagePc) : Prop :=
  pc = .control ∨ ∃ bypassNext, pc = .receive bypassNext

/-- The control packets a worker has taken. -/
def StageState.heard (st : StageState F) : Nat :=
  match st.pc with
  | .receive _ => st.consumed.length + 1
  | _ => st.consumed.length

namespace SkipState

variable (S : SkipSetup F) (s : SkipState F)

/-- The control packets the root has written to a worker. -/
def told (r : Nat) : Nat :=
  match s.rootPc with
  | .write todo => if r ∈ todo then s.token else s.token + 1
  | .finished => s.token
  | _ => s.token + 1

/-- The decision stage. -/
def decision : StageState F := s.stage (S.target - 1)

/-- The decision on each token so far. -/
def verdicts : List Bool := (s.decision S).verdicts

/-- The control packets on their way to a worker. -/
def controls (a b : Nat) : List (SkipMessage F) :=
  if a = 0 ∧ 1 ≤ b ∧ b < S.ppSize then
    (List.range' (s.stage b).heard (s.told b - (s.stage b).heard)).map fun k =>
      .control (S.packetAt k)
  else []

end SkipState

/-- What holds of each worker by itself. -/
structure WorkerAt (S : SkipSetup F) (st : StageState F) : Prop where
  lengths : st.verdicts.length = st.consumed.length
  running : st.worker.isFinished = false
  packet : ∀ bypassNext, st.pc = .receive bypassNext → Holds S st.consumed.length st.worker
  /-- Before decode the count may be anything: the first packet of decode resets it. -/
  count_le : st.worker.decodePhase = true →
    st.worker.skipConsecutiveAccepts ≤ S.packet.stageSkipMaxConsecutive

/-- A stage other than the target, against the front. -/
structure StageAt (S : SkipSetup F) (f : SkipFront) (k r : Nat) (st : StageState F) : Prop where
  behind : r ≤ f.level S → st.consumed.length = k + 1 ∧
    st.pc = if r = f.sender S then .send (f.outs S k) else .control
  ahead : f.level S < r → st.consumed.length = k ∧ st.pc.Waiting

/-- The message of the decision stage to the target for a token. -/
def IsEntry (S : SkipSetup F) (verdicts : List Bool) (k : Nat) (h : StageHeader) : Prop :=
  (verdicts[k]? = some true ∧ IsMarker S k h) ∨ (verdicts[k]? = some false ∧ IsRow S k h)

structure Aligned (S : SkipSetup F) (s : SkipState F) (f : SkipFront) : Prop where
  valid : f.Valid S
  /-- The root writes and sends while the front is at the root, and waits afterwards. -/
  root : if f = .root then
      (∃ todo, s.rootPc = .write todo ∧ todo ≠ [] ∧ todo.Nodup ∧ todo ⊆ S.workers ∧
        s.token < S.nTokens) ∨
      (s.rootPc = .send ∧ s.token < S.nTokens) ∨
      (s.rootPc = .finished ∧ s.token = S.nTokens)
    else s.rootPc = .receive ∧ s.token < S.nTokens
  worker : ∀ r, 1 ≤ r → r < S.ppSize → WorkerAt S (s.stage r)
  heard_le : ∀ r, 1 ≤ r → r < S.ppSize → (s.stage r).heard ≤ s.told r
  stage : ∀ r, 1 ≤ r → r < S.ppSize → r ≠ S.target → StageAt S f s.token r (s.stage r)
  target : if f = .held S.target then (s.stage S.target).pc = .send (f.outs S s.token)
    else (s.stage S.target).pc.Waiting
  link : ∀ a b, (a, b) ≠ (S.target - 1, S.target) → ∃ hs : List StageHeader,
    s.link (a, b) = s.controls S a b ++ hs.map .activation ∧
      (f.Carries S ((s.verdicts S)[s.token]? = some true) a b →
        ∃ h, hs = [h] ∧ h.seqPosition = S.position s.token ∧ (b ≠ 0 → IsRow S s.token h)) ∧
      (¬ f.Carries S ((s.verdicts S)[s.token]? = some true) a b → hs = [])
  /-- The link to the target holds one message for each token it has not taken. -/
  queue : ∃ hs : List StageHeader, s.link (S.target - 1, S.target) = hs.map .activation ∧
    s.took S.target + hs.length = f.dispatched S s.token ∧
      ∀ i h, hs[i]? = some h → IsEntry S (s.verdicts S) (s.took S.target + i) h
  /-- The target lags behind on accepted tokens only. -/
  lag : ∀ j, s.took S.target ≤ j → j < f.dispatched S s.token →
    (s.verdicts S)[j]? = some (!decide (f = .flying S.target ∧ j = s.token))
  verdict : f.Verdict S (s.verdicts S) (s.took S.target) s.token

end Pipeline
end PrefillOpt
