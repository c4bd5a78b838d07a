import PrefillOpt.Pipeline.Lockstep

/-!
# Pipeline.StageSteps — one message, one stage, one round

Every step of the lockstep run succeeds, and the program of the node makes the calls that match it.
Between two rounds the bases at the two ends of every link have one size and all pipes keep
theirs.
-/

namespace PrefillOpt
namespace Pipeline

open Lib Network

variable {β F σ : Type}

namespace StageSetup

variable (S : StageSetup β F σ)

/-! ## The links of the circle -/

theorem nextParty_lt_ppSize {i : Nat} (hi : i < S.ppSize) : nextParty S.ppSize i < S.ppSize :=
  (Mesh.nextParty_mem S.two_le_ppSize hi).1

/-- The link that stage `i` sends on. -/
def link (i : Nat) (hi : i < S.ppSize) : StageLink S.topology where
  source := i
  target := nextParty S.ppSize i
  spRank := 0
  tpRank := 0
  source_lt := hi
  target_lt := S.nextParty_lt_ppSize hi
  spRank_lt := Nat.one_pos
  tpRank_lt := Nat.one_pos
  source_ne := (Mesh.nextParty_mem S.two_le_ppSize hi).2

@[simp] theorem link_sender (i : Nat) (hi : i < S.ppSize) : (S.link i hi).sender = i := by
  simp [link, StageLink.sender, NnParallelTopology.rankAt, topology]

@[simp] theorem link_receiver (i : Nat) (hi : i < S.ppSize) :
    (S.link i hi).receiver = nextParty S.ppSize i := by
  simp [link, StageLink.receiver, NnParallelTopology.rankAt, topology]

/-! ## One message -/

section Message

variable {S}
variable {i : Nat} {hi : i < S.ppSize} {c c' d : NnPipelineCommunicator F} {a : Activation β}
variable {message : List (List β)}

/-- The message of an activation on the link of stage `i`; the sender was `c` and is `c'`. -/
structure InFlight (i : Nat) (hi : i < S.ppSize) (a : Activation β)
    (c c' : NnPipelineCommunicator F) [Sub F] (message : List (List β)) : Prop where
  plain : a.Plain
  sent : c' = c.sent S.fmt (S.link i hi).socket a
  written : ∃ wire, c.wirePayload S.fmt (S.link i hi).socket a = .ok wire ∧
    message = c.messageWrites S.fmt (S.link i hi).socket a wire

theorem send_ok [Add F] [Sub F] (hserves : c.Serves (S.link i hi)) (ha : a.Plain) :
    ∃ socket message c', c.sendActivation S.fmt (nextParty S.ppSize i) a
        = .ok (socket, message, c') ∧
      InFlight i hi a c c' message ∧
      Runs (c.sendActivationIo S.fmt (nextParty S.ppSize i) a)
        (message.map (.out (port i (nextParty S.ppSize i)))) c' := by
  have hwire : ∃ wire, c.wirePayload S.fmt (S.link i hi).socket a = .ok wire := by
    rcases Nat.eq_zero_or_pos a.data.length with hzero | hpos
    · exact ⟨[], if_pos hzero⟩
    · rcases Linked.encodes S.fmt c (s := (S.link i hi).socket) ha hpos ha.words le_rfl with
        ⟨wire, -, hwire, -⟩
      exact ⟨wire, hwire⟩
  rcases hwire with ⟨wire, hwire⟩
  have hruns := NnPipelineCommunicator.sendActivationIo_runs S.fmt hserves hwire
  rw [link_sender, link_receiver] at hruns
  exact ⟨_, _, _, NnPipelineCommunicator.sendActivation_eq S.fmt hserves hwire,
    ⟨ha, rfl, wire, hwire, rfl⟩, hruns⟩

/-- What a receive makes of a message on the link of stage `i`. -/
structure Taken (i : Nat) (hi : i < S.ppSize) (a : Activation β)
    (c c' d : NnPipelineCommunicator F) (buffer : List β) (r : Received β F) : Prop where
  result : r.result = .ok ()
  seqPosition : r.header.seqPosition = a.seqPosition
  length : r.buffer.length = buffer.length
  carried : c.deltaEnabled = false → r.buffer = overwrite buffer (S.fmt.carry a.dtype a.data)
  comm : ∃ bases, r.comm = { d with prevRecvBySocket := bases }
  linked : Linked (S.link i hi) c' r.comm

theorem take_ok [Add F] [Sub F] (h : Linked (S.link i hi) c d) (hm : InFlight i hi a c c' message)
    {buffer : List β} (hroom : a.data.length ≤ buffer.length) (hwords : buffer.length % 4 = 0) :
    ∃ r, d.recvActivation S.fmt i buffer message.flatten = .ok (some r) ∧
      Runs (d.recvActivationIo S.fmt i buffer)
        (message.map (.inp (port (nextParty S.ppSize i) i))) r ∧
      Taken i hi a c c' d buffer r := by
  rcases hm.written with ⟨wire, hwire, rfl⟩
  rcases h.accepts S.fmt hm.plain hroom hwords with
    ⟨wire', buffer', bases, hwire', houtcome, hlen, hcarried, hsizes⟩
  obtain rfl : wire = wire' := Except.ok.inj (hwire.symm.trans hwire')
  have hfits := c.activationHeader_fits S.fmt hm.plain.fits hwire
  have hruns := NnPipelineCommunicator.recvActivationIo_runs S.fmt h.target c a wire buffer hfits
  rw [link_sender, link_receiver, houtcome] at hruns
  have hrecv := NnPipelineCommunicator.recvActivation_eq S.fmt h.target buffer
    (c.messageWrites S.fmt (S.link i hi).socket a wire).flatten
  have hmsg := c.recvOn_message S.fmt d (S.link i hi).socket (S.link i hi).reverse.socket a wire
    hfits buffer []
  rw [List.append_nil] at hmsg
  rw [hmsg] at hrecv
  refine ⟨_, ?_, hruns, rfl, rfl, hlen, hcarried, ⟨bases, rfl⟩, ?_⟩
  · refine hrecv.trans (congrArg (fun r => Except.ok (some r)) ?_)
    exact houtcome
  · rw [hm.sent]
    exact ⟨h.source.sent S.fmt _ _, ⟨h.target.topology, h.target.node, h.target.sockets⟩, hsizes⟩

end Message

/-! ## Memories and packets -/

/-- Both pipes of a node have their rows. -/
structure Sized (m : NodeMemory β σ) : Prop where
  xPipe : m.xPipe.length = S.xPipeRowBytes * S.nBatches
  logitsPipe : m.logitsPipe.length = S.logitsPipeRowBytes * S.nBatches

variable {S} in
theorem Sized.forward {m : NodeMemory β σ} (h : S.Sized m) (r : Nat) (phase : Bool)
    (pos : List Nat) : S.Sized (S.forward r phase pos m) :=
  ⟨(S.forward_xPipe r phase pos m).trans h.xPipe,
    (S.forward_logitsPipe r phase pos m).trans h.logitsPipe⟩

/-- The packet of a call with stage skipping off. -/
structure CallPacket (p : LlmControlPacket F) : Prop where
  fits : p.Fits
  batch_pos : p.batchSize ≠ 0
  batch_le : p.batchSize ≤ S.nBatches
  positionMode : p.positionMode = 0
  skip : p.stageSkipEnabled ≠ 1
  activationType : p.activationType ≠ .unk

theorem overwrite_length {xs ys : List β} (h : ys.length ≤ xs.length) :
    (overwrite xs ys).length = xs.length := by
  rw [overwrite, List.length_append, List.length_drop]
  omega

theorem overwrite_all {xs ys : List β} (h : ys.length = xs.length) : overwrite xs ys = ys := by
  rw [overwrite, h, List.drop_length, List.append_nil]

/-! ## The packet at a stage -/

theorem hear_ok {p : LlmControlPacket F} (hp : S.CallPacket p) (w : StageWorker β F σ)
    (hw : w.inference.isFinished = false) :
    ∃ inference, S.hear p w = .ok { w with
        inference
        pipelineActivationType := p.activationType
        pipeline := w.pipeline.setTransportOptions (p.pipelineDelta == 1)
          p.pipelineDeltaMinBytes p.pipelineChunkBytes } ∧
      w.inference.Heard inference p := by
  rcases w.inference.tryReadControlPacket_ok p S.nBatches hp.batch_pos hp.batch_le
    hp.positionMode with ⟨inference, hread, heard⟩
  refine ⟨inference, ?_, heard⟩
  have hrun : inference.isFinished = false := heard.isFinished.trans hw
  simp only [hear, hread, bind, Except.bind, pure, Except.pure, hrun, Bool.false_eq_true,
    if_false, if_neg hp.activationType]

/-! ## The activation at a stage -/

section Take

variable [Add F] [Sub F]
variable {S}
variable {p : LlmControlPacket F} {w : StageWorker β F σ} {a : Activation β}
variable {c c' : NnPipelineCommunicator F} {message : List (List β)}

/-- A worker that has heard a packet. -/
structure Hears (p : LlmControlPacket F) (w : StageWorker β F σ) : Prop where
  controlPacket : w.inference.controlPacket = p
  decodePhase : w.inference.decodePhase = (p.phase == 1)
  batchSize : w.inference.batchSize = p.batchSize
  positionPipe : w.inference.positionPipe = contiguous p.position p.batchSize
  isFinished : w.inference.isFinished = false

omit [Add F] [Sub F] in
theorem Hears.samePacket {w' : StageWorker β F σ} (h : Hears p w)
    (hsame : w.inference.SamePacket w'.inference) : Hears p w' :=
  ⟨hsame.controlPacket.trans h.controlPacket, hsame.decodePhase.trans h.decodePhase,
    hsame.batchSize.trans h.batchSize, hsame.positionPipe.trans h.positionPipe,
    hsame.isFinished.trans h.isFinished⟩

omit [Add F] [Sub F] in
theorem xBuffer_length (hsized : S.Sized w.memory) (hp : S.CallPacket p) (h : Hears p w) :
    (S.xBuffer w).length = S.xPipeRowBytes * p.batchSize := by
  have hle := Nat.mul_le_mul_left S.xPipeRowBytes hp.batch_le
  rw [xBuffer, List.length_take, hsized.xPipe, h.batchSize]
  omega

/-- A stage takes the activation of the stage before for the packet it has heard. -/
theorem stageTake_ok {r : Nat} (hr : r + 1 < S.ppSize) (hp : S.CallPacket p) (h : Hears p w)
    (hsized : S.Sized w.memory) (hlink : Linked (S.link r (Nat.lt_of_succ_lt hr)) c w.pipeline)
    (hm : InFlight r (Nat.lt_of_succ_lt hr) a c c' message) (hpos : a.seqPosition = p.position)
    (hlen : a.data.length = S.xPipeRowBytes * p.batchSize) :
    ∃ w' rows, S.stageTake (r + 1) message w = .ok w' ∧
      Runs (S.beforeForward (r + 1) w) (message.map (.inp (port (r + 1) r))) w' ∧
      Hears p w' ∧ w'.inference.skipForwardThisToken = false ∧
      (∃ bases, w'.pipeline = { w.pipeline with prevRecvBySocket := bases }) ∧
      Linked (S.link r (Nat.lt_of_succ_lt hr)) c' w'.pipeline ∧
      w'.pipelineActivationType = w.pipelineActivationType ∧
      w'.memory = { w.memory with xPipe := overwrite w.memory.xPipe rows } ∧
      rows.length = S.xPipeRowBytes * p.batchSize ∧
      (c.deltaEnabled = false → rows = S.fmt.carry a.dtype a.data) := by
  have hbuffer := xBuffer_length hsized hp h
  have hnext : nextParty S.ppSize r = r + 1 := nextParty_lt hr
  have hwords : (S.xBuffer w).length % 4 = 0 := by
    rw [hbuffer, Nat.mul_mod, S.xPipeRowBytes_words, Nat.zero_mul, Nat.zero_mod]
  rcases take_ok hlink hm (hlen.trans hbuffer.symm).le hwords with
    ⟨received, hrecv, hruns, htaken⟩
  rw [hnext] at hruns
  have hsource : w.inference.sources (S.place (r + 1)) = .one r := by
    have hrecvs : (S.place (r + 1)).shouldRecvActivations = true := by
      simp [place, StagePlace.shouldRecvActivations]
    have hno : w.inference.stageSkipExecute = false := by
      simp [WorkerLlmInference.stageSkipExecute, h.controlPacket, hp.skip]
    simp only [WorkerLlmInference.sources, hrecvs, hno, Bool.not_true, Bool.false_and,
      Bool.false_eq_true, if_false]
    rfl
  -- no marker, and the position of the packet
  let w₁ : StageWorker β F σ := { w with
    pipeline := received.comm
    memory := { w.memory with xPipe := overwrite w.memory.xPipe received.buffer } }
  have hmarker : w.inference.isSkipMarker (S.place (r + 1)) received.header.toStage = false := by
    simp [WorkerLlmInference.isSkipMarker, WorkerLlmInference.stageSkipExecute, h.controlPacket,
      hp.skip]
  have hposition : received.header.toStage.seqPosition = w.inference.controlPacket.position := by
    rw [h.controlPacket, ← hpos]
    exact htaken.seqPosition
  have haccept := WorkerLlmInference.acceptActivation_row hmarker hposition (S.metric w₁)
  have hnew : S.takeActivation (r + 1) w received
      = .ok { w₁ with inference := w.inference.beginToken.trackRow (S.metric w₁) } := by
    simp only [takeActivation, htaken.result]
    rw [haccept]
    rfl
  refine ⟨{ w₁ with inference := w.inference.beginToken.trackRow (S.metric w₁) },
    received.buffer, ?_, ?_, h.samePacket (w.inference.trackRow_samePacket _),
    w.inference.trackRow_skipForwardThisToken _, htaken.comm, htaken.linked, rfl, rfl,
    htaken.length.trans hbuffer, fun hoff => ?_⟩
  · simp only [stageTake, hsource, hrecv]
    exact hnew
  · simp only [beforeForward, hsource]
    have hall := hruns.bind (f := fun received => Io.ofExcept (S.takeActivation (r + 1) w received))
      (l := []) (by rw [hnew, Io.ofExcept_ok]; exact Runs.pure _)
    rwa [List.append_nil] at hall
  · rcases S.fmt.encode_carry hm.plain.dtype hm.plain.words hm.plain.words le_rfl with
      ⟨-, -, -, hcarry, -⟩
    rw [htaken.carried hoff, overwrite_all (hcarry.trans (hlen.trans hbuffer.symm))]

end Take

/-! ## The message of a stage -/

/-- The room of a place. -/
def placeSize (p : LlmControlPacket F) : LogitsPlace → Nat
  | .tokenFromWorker => 4
  | .topKPacked => 8 * p.topKCount
  | .logitsPipe _ size => size

theorem logitsPlace_cases (p : LlmControlPacket F) :
    S.logitsPlace p = .tokenFromWorker ∨ S.logitsPlace p = .topKPacked ∨
    S.logitsPlace p = .logitsPipe ((p.batchSize - 1) * S.logitsPipeRowBytes) S.logitsPipeRowBytes ∨
    S.logitsPlace p = .logitsPipe 0 (S.logitsPipeRowBytes * p.batchSize) := by
  unfold logitsPlace
  split_ifs <;> simp

/-- No place needs more bytes than the pipe has, or the top logits. -/
theorem placeSize_lt {p : LlmControlPacket F} (hp : S.CallPacket p) :
    placeSize p (S.logitsPlace p) < 2 ^ 64 := by
  have htop := hp.fits.topKCount
  rcases S.logitsPlace_cases p with hplace | hplace | hplace | hplace <;>
    simp only [hplace, placeSize]
  · decide
  · omega
  · exact (Nat.le_mul_of_pos_right _ S.nBatches_pos).trans_lt S.logitsPipe_lt
  · exact (Nat.mul_le_mul_left _ hp.batch_le).trans_lt S.logitsPipe_lt

/-- The last stage packs what the root has room for: both look at the same packet. -/
theorem logitsPayload_cases {p : LlmControlPacket F} {w : StageWorker β F σ} (h : Hears p w) :
    (w.inference.logitsPayload = .sampledToken ∧ S.logitsPlace p = .tokenFromWorker) ∨
    (w.inference.logitsPayload = .topKLogits ∧ S.logitsPlace p = .topKPacked) ∨
    (w.inference.logitsPayload = .lastLogitsRow ∧ S.logitsPlace p = .logitsPipe
      ((p.batchSize - 1) * S.logitsPipeRowBytes) S.logitsPipeRowBytes) ∨
    (w.inference.logitsPayload = .logits ∧
      S.logitsPlace p = .logitsPipe 0 (S.logitsPipeRowBytes * p.batchSize)) := by
  have hsingle : w.inference.decodeSingle = decide (p.phase = 1 ∧ p.batchSize = 1) := by
    rw [WorkerLlmInference.decodeSingle, h.decodePhase, h.batchSize, Bool.decide_and]
    rfl
  unfold WorkerLlmInference.logitsPayload logitsPlace
  rw [h.controlPacket, hsingle, h.decodePhase, h.batchSize]
  by_cases hone : p.phase = 1 ∧ p.batchSize = 1
  · by_cases htoken : p.tokenOnlyMode = 1
    · simp [hone, htoken]
    · by_cases htop : p.tokenOnlyMode = 2
      · simp [hone, htop]
      · simp [hone, htoken, htop]
  · by_cases hlast : p.phase ≠ 1 ∧ 1 < p.batchSize
    · simp [hlast]
    · have hall : ¬ ((!p.phase == 1) && decide (1 < p.batchSize)) = true := by
        simpa using hlast
      simp only [hone, decide_false, Bool.and_false, Bool.false_eq_true, if_false, hall, and_false,
        hlast]
      simp

section Send

variable [Add F] [Sub F] [Zero F] [One F] [LE F] [DecidableLE F] [LT F] [DecidableLT F]
variable [NatCast F] [Div F]
variable {S}
variable {p : LlmControlPacket F} {w : StageWorker β F σ}

omit [Add F] [Sub F] [One F] [LE F] [DecidableLE F] [LT F] [DecidableLT F] [Div F] in
theorem payloadBytes_eq_lastLogits (h : Hears p w) :
    S.payloadBytes w w.inference.logitsPayload = S.lastLogits p w.memory := by
  unfold lastLogits
  rcases S.logitsPayload_cases h with ⟨hpayload, hplace⟩ | ⟨hpayload, hplace⟩ | ⟨hpayload, hplace⟩ |
    ⟨hpayload, hplace⟩ <;> rw [hpayload, hplace] <;>
    simp only [payloadBytes, h.batchSize, h.controlPacket, List.drop_zero]

omit [Add F] [Sub F] [One F] [LE F] [DecidableLE F] [LT F] [DecidableLT F] [Div F] in
/-- The logits are whole floats and fit the place that is chosen for them. -/
theorem lastLogits_fit (hp : S.CallPacket p) {m : NodeMemory β σ} (hsized : S.Sized m) :
    (S.lastLogits p m).length % 4 = 0 ∧
      (S.lastLogits p m).length ≤ placeSize p (S.logitsPlace p) := by
  have hrow := S.logitsPipeRowBytes_words
  have hpipe := hsized.logitsPipe
  unfold lastLogits
  rcases S.logitsPlace_cases p with hplace | hplace | hplace | hplace
  · simp [hplace, placeSize, S.fmt.storeF32_length]
  · have hone : S.logitsPipeRowBytes ≤ S.logitsPipeRowBytes * S.nBatches :=
      Nat.le_mul_of_pos_right _ S.nBatches_pos
    have hlogits : min p.topKCount (S.logitsPipeRowBytes / 4)
        ≤ (S.fmt.loadFloats (m.logitsPipe.take S.logitsPipeRowBytes)).length := by
      rw [S.fmt.loadFloats_length, List.length_take, hpipe, Nat.min_eq_left hone]
      exact min_le_right _ _
    have hmin : min p.topKCount (S.logitsPipeRowBytes / 4) ≤ p.topKCount := min_le_left _ _
    simp only [hplace, placeSize, S.fmt.storeFloats_length, S.packTopKLogits_length _ _ hlogits]
    omega
  · have hbatch : (p.batchSize - 1) * S.logitsPipeRowBytes + S.logitsPipeRowBytes
        ≤ S.logitsPipeRowBytes * S.nBatches := by
      rw [← Nat.succ_mul, Nat.mul_comm]
      have := hp.batch_pos
      have := hp.batch_le
      exact Nat.mul_le_mul_left _ (by omega)
    simp only [hplace, placeSize, List.length_take, List.length_drop, hpipe]
    omega
  · have hbatch : S.logitsPipeRowBytes * p.batchSize ≤ S.logitsPipeRowBytes * S.nBatches :=
      Nat.mul_le_mul_left _ hp.batch_le
    have hmod : S.logitsPipeRowBytes * p.batchSize % 4 = 0 := by
      rw [Nat.mul_mod, hrow, Nat.zero_mul, Nat.zero_mod]
    simp only [hplace, placeSize, List.drop_zero, List.length_take, hpipe, Nat.min_eq_left hbatch]
    exact ⟨hmod, le_rfl⟩

omit [Add F] [Sub F] [One F] [LE F] [DecidableLE F] [LT F] [DecidableLT F] [Div F] in
/-- A decision of stage skipping changes no payload. -/
theorem payloadBytes_samePacket {inference : WorkerLlmInference F}
    (hsame : w.inference.SamePacket inference) (payload : Payload) :
    S.payloadBytes { w with inference } payload = S.payloadBytes w payload := by
  cases payload <;> simp only [payloadBytes, xBuffer, hsame.batchSize, hsame.controlPacket]

omit [Add F] [Sub F] [Zero F] [One F] [LE F] [DecidableLE F] [LT F] [DecidableLT F] [NatCast F]
  [Div F] in
theorem logitsPayload_samePacket {inference inference' : WorkerLlmInference F}
    (hsame : inference.SamePacket inference') :
    inference'.logitsPayload = inference.logitsPayload := by
  unfold WorkerLlmInference.logitsPayload WorkerLlmInference.decodeSingle
  rw [hsame.controlPacket, hsame.decodePhase, hsame.batchSize]

variable (S) in
/-- The stage has a message to send for this packet: an activation, or logits that are waited
for. -/
def Sends (r : Nat) (p : LlmControlPacket F) : Prop :=
  r + 1 < S.ppSize ∨ p.phase = 1 ∨ p.isLastPrefillChunk = 1

variable (S) in
/-- The activation that a stage sends: the rows of `xPipe`, or the logits to the root. -/
structure SentBy (r : Nat) (p : LlmControlPacket F) (w : StageWorker β F σ) (a : Activation β) :
    Prop where
  seqPosition : a.seqPosition = p.position
  next : r + 1 < S.ppSize → a.data = S.xBuffer w ∧ a.dtype = w.pipelineActivationType
  logits : r + 1 = S.ppSize → a.data = S.payloadBytes w w.inference.logitsPayload ∧ a.dtype = .f32

omit [Add F] [Zero F] [One F] [LE F] [DecidableLE F] [LT F] [DecidableLT F] [NatCast F]
  [Div F] in
theorem InFlight.prevSend {i : Nat} {hi : i < S.ppSize} {a : Activation β}
    {c c' : NnPipelineCommunicator F} {message : List (List β)}
    (hm : InFlight i hi a c c' message) : ∃ bases, c' = { c with prevSendBySocket := bases } := by
  rw [hm.sent, NnPipelineCommunicator.sent]
  split_ifs
  · exact ⟨_, rfl⟩
  · exact ⟨c.prevSendBySocket, rfl⟩

omit [One F] [LE F] [DecidableLE F] [LT F] [DecidableLT F] [Div F] in
theorem stageSend_one {r : Nat} {hr : r < S.ppSize} {o : Outgoing}
    (hserves : w.pipeline.Serves (S.link r hr)) (htarget : o.targetPpRank = nextParty S.ppSize r)
    (hplain : (S.activation w o).Plain) :
    ∃ message c', S.stageSend [o] w = .ok ({ w with pipeline := c' }, message) ∧
      Runs ([o].foldlM S.sendOutgoing w) (message.map (.out (port r (nextParty S.ppSize r))))
        { w with pipeline := c' } ∧
      InFlight r hr (S.activation w o) w.pipeline c' message := by
  rcases send_ok hserves hplain with ⟨socket, message, c', hsend, hm, hruns⟩
  rw [← htarget] at hsend hruns
  refine ⟨message, c', ?_, ?_, hm⟩
  · simp only [stageSend, hsend, bind, Except.bind, pure, Except.pure, List.append_nil]
  · simp only [List.foldlM_cons, List.foldlM_nil, bind_pure]
    rw [← htarget]
    exact hruns.bind_pure fun pipeline => { w with pipeline }

/-- A stage sends its message to the next one, or nothing at all. -/
theorem afterForward_ok {r : Nat} (hpos : 0 < r) (hr : r < S.ppSize) (hp : S.CallPacket p)
    (h : Hears p w) (hsized : S.Sized w.memory) (htype : w.pipelineActivationType ≠ .unk)
    (hserves : w.pipeline.Serves (S.link r hr)) :
    ∃ w' message, S.stageSend (w.inference.afterForward (S.place r)).2
        { w with inference := (w.inference.afterForward (S.place r)).1 } = .ok (w', message) ∧
      Runs (S.afterForward r w) (message.map (.out (port r (nextParty S.ppSize r)))) w' ∧
      Hears p w' ∧ w'.memory = w.memory ∧
      (∃ bases, w'.pipeline = { w.pipeline with prevSendBySocket := bases }) ∧
      (S.Sends r p → ∃ a, InFlight r hr a w.pipeline w'.pipeline message ∧ S.SentBy r p w a) ∧
      (¬ S.Sends r p → message = [] ∧ w'.pipeline = w.pipeline) := by
  have hsame := w.inference.evaluate_samePacket (S.place r)
  let w₁ : StageWorker β F σ :=
    { w with inference := w.inference.evaluateStageSkipDecision (S.place r) }
  have h₁ : Hears p w₁ := h.samePacket hsame
  have hno : w₁.inference.stageSkipExecute = false := by
    simp [WorkerLlmInference.stageSkipExecute, h₁.controlPacket, hp.skip]
  have hskips : w₁.inference.skipsSends (S.place r) = false := by
    simp [WorkerLlmInference.skipsSends, hno]
  have hbypass : w₁.inference.bypasses (S.place r) = false := by
    simp [WorkerLlmInference.bypasses, hno]
  -- one message for this packet, or none
  have houts : w₁.inference.sends (S.place r) = if r + 1 < S.ppSize then
      [⟨nextParty S.ppSize r, p.position, .xPipe, 0⟩]
    else if p.phase = 1 ∨ p.isLastPrefillChunk = 1 then
      [⟨nextParty S.ppSize r, p.position, w.inference.logitsPayload, 0⟩] else [] := by
    by_cases hnext : r + 1 < S.ppSize
    · have hsend : (S.place r).shouldSendActivations = true :=
        decide_eq_true (show r < S.ppSize - 1 by omega)
      rw [if_pos hnext, WorkerLlmInference.sends_next hskips hsend hbypass, h₁.controlPacket,
        nextParty_lt hnext]
      rfl
    · have hsend : (S.place r).shouldSendActivations = false :=
        decide_eq_false (show ¬ r < S.ppSize - 1 by omega)
      have hlast : nextParty S.ppSize r = 0 := if_neg hnext
      rw [if_neg hnext, WorkerLlmInference.sends_logits hskips hsend ⟨hpos, rfl, rfl⟩,
        h₁.controlPacket, h₁.decodePhase, logitsPayload_samePacket hsame, hlast]
      by_cases hphase : p.phase = 1
      · simp [hphase]
      · by_cases hflag : p.isLastPrefillChunk = 1 <;> simp [hphase, hflag]
  have hafter : w.inference.afterForward (S.place r)
      = (w₁.inference, w₁.inference.sends (S.place r)) := rfl
  rw [afterForward, hafter]
  by_cases hsends : S.Sends r p
  · have hwords : (S.payloadBytes w w.inference.logitsPayload).length % 4 = 0 := by
      rw [payloadBytes_eq_lastLogits h]
      exact (lastLogits_fit hp hsized).1
    -- the one activation, from the next stage's or the root's point of view
    have hfits : ∀ payload, (S.payloadBytes w₁ payload).length < 2 ^ 64 →
        (S.activation w₁ ⟨nextParty S.ppSize r, p.position, payload, 0⟩).Fits :=
      fun _ hbytes => ⟨hp.fits.position, Nat.two_pow_pos 32, Nat.two_pow_pos 32,
        Nat.two_pow_pos 32, hbytes⟩
    have hone : ∃ payload, w₁.inference.sends (S.place r)
          = [⟨nextParty S.ppSize r, p.position, payload, 0⟩] ∧
        (S.activation w₁ ⟨nextParty S.ppSize r, p.position, payload, 0⟩).Plain ∧
        S.SentBy r p w (S.activation w₁ ⟨nextParty S.ppSize r, p.position, payload, 0⟩) := by
      by_cases hnext : r + 1 < S.ppSize
      · have hlen := xBuffer_length hsized hp h
        have hdata : S.payloadBytes w₁ .xPipe = S.xBuffer w := payloadBytes_samePacket hsame _
        refine ⟨.xPipe, by rw [houts, if_pos hnext], ⟨hfits _ ?_, ?_, ?_, rfl⟩, rfl,
          fun _ => ⟨?_, rfl⟩, fun hlast => absurd hlast (Nat.ne_of_lt hnext)⟩
        · rw [hdata, hlen]
          exact (Nat.mul_le_mul_left _ hp.batch_le).trans_lt S.xPipe_lt
        · exact htype
        · simp only [activation, hdata, hlen]
          rw [Nat.mul_mod, S.xPipeRowBytes_words, Nat.zero_mul, Nat.zero_mod]
        · exact payloadBytes_samePacket hsame .xPipe
      · have hwait : p.phase = 1 ∨ p.isLastPrefillChunk = 1 := hsends.resolve_left hnext
        have hdata : S.payloadBytes w₁ w.inference.logitsPayload
            = S.payloadBytes w w.inference.logitsPayload := payloadBytes_samePacket hsame _
        have hfloat : w.inference.logitsPayload ≠ .xPipe := by
          rcases S.logitsPayload_cases h with ⟨h, -⟩ | ⟨h, -⟩ | ⟨h, -⟩ | ⟨h, -⟩ <;>
            rw [h] <;> decide
        refine ⟨w.inference.logitsPayload, by rw [houts, if_neg hnext, if_pos hwait],
          ⟨hfits _ ?_, ?_, ?_, rfl⟩, rfl, fun hlt => absurd hlt hnext,
          fun _ => ⟨hdata, if_neg hfloat⟩⟩
        · rw [hdata, payloadBytes_eq_lastLogits h]
          exact (lastLogits_fit hp hsized).2.trans_lt (S.placeSize_lt hp)
        · simp [activation, hfloat]
        · simp only [activation, hdata]
          exact hwords
    rcases hone with ⟨payload, hlist, hplain, hsent⟩
    rcases stageSend_one (w := w₁) hserves rfl hplain with ⟨message, c', hsend, hruns, hm⟩
    rw [hlist]
    exact ⟨{ w₁ with pipeline := c' }, message, hsend, hruns,
      ⟨h₁.controlPacket, h₁.decodePhase, h₁.batchSize, h₁.positionPipe, h₁.isFinished⟩, rfl,
      hm.prevSend, fun _ => ⟨_, hm, hsent⟩, fun h => absurd hsends h⟩
  · have hnil : w₁.inference.sends (S.place r) = [] := by
      rw [Sends, not_or] at hsends
      rw [houts, if_neg hsends.1, if_neg hsends.2]
    refine ⟨w₁, [], ?_, ?_, h₁, rfl, ⟨w.pipeline.prevSendBySocket, rfl⟩,
      fun h => absurd h hsends, fun _ => ⟨rfl, rfl⟩⟩
    · simp only [hnil, stageSend]
      rfl
    · simp only [hnil, List.foldlM_nil]
      exact Runs.pure _

end Send

end StageSetup

end Pipeline
end PrefillOpt
