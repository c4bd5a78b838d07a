import PrefillOpt.Pipeline.StageRounds

/-!
# Pipeline.StageRuns — one call of the root

Between two calls the circle of the stages is steady.  From a steady state every call succeeds in
lockstep and is one round of the relay, and the state after it is steady again.
-/

namespace PrefillOpt
namespace Pipeline

open Lib Network

variable {β F σ : Type}

/-! ## The setters -/

namespace LlmControlPacket

theorem setDecodePhase_false {p : LlmControlPacket F} (h : p.phase = 0) :
    p.setDecodePhase false = p := by
  cases p
  cases h
  rfl

/-- The packet of a decoded token, once the setters before the loop have run. -/
structure Decoding (p : LlmControlPacket F) : Prop where
  phase : p.phase = 1
  batchSize : p.batchSize = 1
  isLastPrefillChunk : p.isLastPrefillChunk = 1

theorem Decoding.eq {p : LlmControlPacket F} (h : p.Decoding) :
    (p.setBatchSize 1).setDecodePhase true = p := by
  rcases h with ⟨hphase, hbatch, hlast⟩
  cases p
  cases hphase
  cases hbatch
  cases hlast
  rfl

end LlmControlPacket

/-! ## Between two calls -/

namespace StageSetup

variable {S : StageSetup β F σ}

/-- What holds before and after every call. -/
structure Steady (S : StageSetup β F σ) (s : Stages β F σ) : Prop where
  sized : S.Sized s.root.pipes.memory
  tokenFromWorker : s.root.pipes.tokenFromWorker.length = 4
  topKPacked : s.root.pipes.topKPacked.length = 8 * s.root.controlPacket.topKCount
  ready : ∀ r, 0 < r → r < S.ppSize → Ready S (s.worker r)
  links : ∀ r (hr : r < S.ppSize),
    Linked (S.link r hr) (s.pipeline r) (s.pipeline (nextParty S.ppSize r))
  skip : s.root.controlPacket.stageSkipEnabled ≠ 1
  activationType : s.root.controlPacket.activationType ≠ .unk
  packet : s.root.controlPacket.Fits

/-- A call with rows, as many as the pipes have; a decoded token always wants its logits. -/
structure Fits (S : StageSetup β F σ) (c : ForwardCall) : Prop where
  position : c.position < 2 ^ 32
  batch_pos : 0 < c.batchSize
  batch_le : c.batchSize ≤ S.nBatches
  decode : c.decodePhase = true → c.isLastPrefillChunk = true

theorem Steady.packet_fits {s : Stages β F σ} (h : Steady S s) {c : ForwardCall} (hc : Fits S c) :
    (c.packet s.root.controlPacket).Fits :=
  c.packet_fits h.packet hc.position (hc.batch_le.trans_lt S.nBatches_lt)

theorem Steady.callPacket {s : Stages β F σ} (h : Steady S s) {c : ForwardCall} (hc : Fits S c) :
    S.CallPacket (c.packet s.root.controlPacket) :=
  ⟨h.packet_fits hc, Nat.ne_of_gt hc.batch_pos, hc.batch_le, rfl, h.skip, h.activationType⟩

/-- The stop packet. -/
theorem lastRoot_fits {root : RootLlmInference β F σ} (h : root.controlPacket.Fits) :
    (lastRoot root).controlPacket.Fits :=
  { (h.setBatchSize (by decide : 1 < 2 ^ 32)).setDecodePhase true with
    batchSize := Nat.two_pow_pos 32 }

/-- The root before the forward of a call. -/
def called (S : StageSetup β F σ) (c : ForwardCall) (root : RootLlmInference β F σ) :
    RootLlmInference β F σ :=
  { root.prepare c with pipes := S.withTokens c (root.prepare c).pipes }

section Root

variable [Add F] [Sub F]

omit [Add F] [Sub F] in
theorem writeAll_runs (S : StageSetup β F σ) (packet : LlmControlPacket F) :
    Runs (S.writeAll packet) ((List.range (S.ppSize - 1)).map fun s =>
      .out (port 0 (s + 1)) (S.packets.storePacket packet)) () := by
  have hports : ((List.range (S.ppSize - 1)).map fun s => ((0, s) : Port)).Nodup :=
    List.nodup_range.map fun s s' h => congrArg Prod.snd h
  have h := Trace.writeMany_map hports fun _ => S.packets.storePacket packet
  have hall := h.bind (f := fun _ => Prog.ret (Except.ok () : Except String Unit)) (.ret _)
  rwa [List.append_nil] at hall

/-- The root runs its part and sends its activation to stage 1. -/
theorem rootSend_ok [Zero F] [NatCast F] {s : Stages β F σ} (h : Steady S s) {c : ForwardCall}
    (hc : Fits S c) (hpos : 0 < S.ppSize) :
    ∃ root message, S.rootSend (called S c s.root) = .ok (root, message) ∧
      Runs (S.forwardPrefillNoWait (called S c s.root))
        (((List.range (S.ppSize - 1)).map fun k =>
          .out (port 0 (k + 1)) (S.packets.storePacket (c.packet s.root.controlPacket))) ++
            message.map (.out (port 0 (nextParty S.ppSize 0)))) root ∧
      Emits S 0 hpos (c.packet s.root.controlPacket) root.pipes.memory s.root.pipeline
        root.pipeline message ∧
      (∃ bases, root = { S.rootExecute (called S c s.root) with
        pipeline := { s.root.pipeline with prevSendBySocket := bases } }) := by
  have hp := h.callPacket hc
  have hnext : nextParty S.ppSize 0 = 1 := nextParty_lt S.two_le_ppSize
  have hsized : S.Sized (S.rootExecute (called S c s.root)).pipes.memory := by
    have hbefore : S.Sized (called S c s.root).pipes.memory :=
      ⟨h.sized.xPipe, h.sized.logitsPipe⟩
    exact hbefore.forward _ _ _
  have hplain : (S.rootActivation (S.rootExecute (called S c s.root))).Plain := by
    have hle := Nat.mul_le_mul_left S.xPipeRowBytes hc.batch_le
    have hlen : (S.rootActivation (S.rootExecute (called S c s.root))).data.length
        = S.xPipeRowBytes * c.batchSize := by
      rw [rootActivation, List.length_take, hsized.xPipe]
      exact Nat.min_eq_left hle
    refine ⟨⟨hc.position, Nat.two_pow_pos 32, Nat.two_pow_pos 32, Nat.two_pow_pos 32, ?_⟩,
      h.activationType, ?_, rfl⟩
    · rw [hlen]
      exact hle.trans_lt S.xPipe_lt
    rw [hlen, Nat.mul_mod, S.xPipeRowBytes_words, Nat.zero_mul, Nat.zero_mod]
  have hserves : s.root.pipeline.Serves (S.link 0 hpos) := (h.links 0 hpos).source
  rcases send_ok hserves hplain with ⟨socket, message, c', hsend, hflight, hruns⟩
  rw [hnext] at hsend hruns
  refine ⟨{ S.rootExecute (called S c s.root) with pipeline := c' }, message, ?_, ?_,
    ⟨fun _ => ⟨s.root.pipeline, _, fun _ hd => hd, fun h => absurd rfl h, fun _ => rfl, hflight,
      rfl, fun _ => ⟨rfl, rfl⟩, fun hlast => ?_⟩, fun hno => absurd (.inl S.two_le_ppSize) hno⟩, ?_⟩
  · have hpipeline : (S.rootExecute (called S c s.root)).pipeline = s.root.pipeline := rfl
    simp only [rootSend, hpipeline, hsend, bind, Except.bind, pure, Except.pure]
  · rw [hnext]
    refine (writeAll_runs S _).bind ?_
    exact hruns.bind_pure fun pipeline => { S.rootExecute (called S c s.root) with pipeline }
  · have := S.two_le_ppSize
    omega
  · rcases hflight.prevSend with ⟨bases, rfl⟩
    exact ⟨bases, rfl⟩

omit [Add F] [Sub F] in
/-- The root has room for the logits of a call, in the place of a drain too. -/
theorem buffer_fit {s : Stages β F σ} (h : Steady S s) {c : ForwardCall} (hc : Fits S c)
    (useWave : Bool) {pipes : RootPipes β σ} (hsized : S.Sized pipes.memory)
    (htoken : pipes.tokenFromWorker = s.root.pipes.tokenFromWorker)
    (htop : pipes.topKPacked = s.root.pipes.topKPacked) :
    let p := c.packet s.root.controlPacket
    ((S.takePlace useWave c p).buffer pipes).length % 4 = 0 ∧
      placeSize p (S.logitsPlace p) ≤ ((S.takePlace useWave c p).buffer pipes).length := by
  intro p
  have hrow := S.logitsPipeRowBytes_words
  have hpipe := hsized.logitsPipe
  have hone : S.logitsPipeRowBytes ≤ S.logitsPipeRowBytes * S.nBatches :=
    Nat.le_mul_of_pos_right _ S.nBatches_pos
  have hbatch : S.logitsPipeRowBytes * p.batchSize ≤ S.logitsPipeRowBytes * S.nBatches :=
    Nat.mul_le_mul_left _ hc.batch_le
  have hmod : ∀ k, S.logitsPipeRowBytes * k % 4 = 0 := fun k => by
    rw [Nat.mul_mod, hrow, Nat.zero_mul, Nat.zero_mod]
  unfold takePlace
  by_cases hdrain : (useWave && !c.decodePhase) = true
  · have hphase : p.phase ≠ 1 := by
      have hprefill : c.decodePhase = false := by simp_all
      simp [p, ForwardCall.packet, LlmControlPacket.setDecodePhase, hprefill,
        LlmControlPacket.setBatchSize, LlmControlPacket.setLastPrefillChunk,
        LlmControlPacket.setPosition]
    have hsize : placeSize p (S.logitsPlace p) ≤ S.logitsPipeRowBytes * S.nBatches := by
      simp only [logitsPlace, hphase, false_and, and_false, if_false]
      split_ifs
      · exact hone
      · exact hbatch
    simp only [hdrain, if_true, LogitsPlace.buffer, List.drop_zero, List.length_take, hpipe,
      logitsPipeMaxBytes, min_self]
    exact ⟨hmod _, hsize⟩
  · rw [if_neg hdrain]
    rcases S.logitsPlace_cases p with hplace | hplace | hplace | hplace
    · simp [hplace, LogitsPlace.buffer, placeSize, htoken, h.tokenFromWorker]
    · have hcount : p.topKCount = s.root.controlPacket.topKCount := rfl
      simp only [hplace, LogitsPlace.buffer, placeSize, htop, h.topKPacked, hcount]
      omega
    · have hlast : (p.batchSize - 1) * S.logitsPipeRowBytes + S.logitsPipeRowBytes
          ≤ S.logitsPipeRowBytes * S.nBatches := by
        rw [← Nat.succ_mul, Nat.mul_comm]
        have hpos : 0 < p.batchSize := hc.batch_pos
        have hle : p.batchSize ≤ S.nBatches := hc.batch_le
        exact Nat.mul_le_mul_left _ (by omega)
      simp only [hplace, LogitsPlace.buffer, placeSize, List.length_take, List.length_drop, hpipe]
      omega
    · simp only [hplace, LogitsPlace.buffer, placeSize, List.drop_zero, List.length_take, hpipe,
        Nat.min_eq_left hbatch]
      exact ⟨hmod _, le_rfl⟩

omit [Add F] [Sub F] in
/-- A stored place keeps its room. -/
theorem store_sized {pipes : RootPipes β σ} (h : S.Sized pipes.memory) (place : LogitsPlace)
    {bytes : List β} (hlen : bytes.length = (place.buffer pipes).length) :
    S.Sized (place.store pipes bytes).memory ∧
      (place.store pipes bytes).tokenFromWorker.length = pipes.tokenFromWorker.length ∧
      (place.store pipes bytes).topKPacked.length = pipes.topKPacked.length := by
  cases place with
  | tokenFromWorker => exact ⟨⟨h.xPipe, h.logitsPipe⟩, hlen, rfl⟩
  | topKPacked => exact ⟨⟨h.xPipe, h.logitsPipe⟩, rfl, hlen⟩
  | logitsPipe offset size =>
      have hroom : bytes.length ≤ (pipes.memory.logitsPipe.drop offset).length := by
        rw [hlen]
        exact List.length_take_le' _ _
      refine ⟨⟨h.xPipe, ?_⟩, rfl, rfl⟩
      simp only [LogitsPlace.store, List.length_append, overwrite_length hroom]
      rw [← List.length_append, List.take_append_drop, h.logitsPipe]

/-- The root takes the logits that the last stage has sent. -/
theorem rootTake_ok [Zero F] [NatCast F] {k : Nat} (hk : k < S.ppSize) (hlast : k + 1 = S.ppSize)
    {p : LlmControlPacket F} (hsends : S.Sends k p) {m : NodeMemory β σ}
    {old new : NnPipelineCommunicator F} {message : List (List β)}
    (hm : Emits S k hk p m old new message) (hp : S.CallPacket p) (hsized : S.Sized m)
    (place : LogitsPlace) {root : RootLlmInference β F σ}
    (hlink : Linked (S.link k hk) old root.pipeline)
    (hwords : (place.buffer root.pipes).length % 4 = 0)
    (hroom : placeSize p (S.logitsPlace p) ≤ (place.buffer root.pipes).length) :
    ∃ bytes bases,
      let root' := { root with
        pipes := place.store root.pipes bytes
        pipeline := { root.pipeline with prevRecvBySocket := bases } }
      S.rootTake place root message = .ok root' ∧
      Runs (S.receiveLogits place root) (message.map (.inp (port 0 k))) root' ∧
      bytes.length = (place.buffer root.pipes).length ∧
      Linked (S.link k hk) new root'.pipeline ∧
      (p.pipelineDelta ≠ 1 → bytes = overwrite (place.buffer root.pipes) (S.lastLogits p m)) := by
  have htwo := S.two_le_ppSize
  have hrank : S.ppSize - 1 = k := by omega
  rcases hm.sends hsends with ⟨c, a, hkeep, hdelta, -, hflight, hemitted⟩
  rcases hemitted.logits hlast with ⟨hdata, hdtype⟩
  have hfit := (lastLogits_fit hp hsized).2
  have hlen : a.data.length ≤ (place.buffer root.pipes).length := by
    rw [hdata]
    exact hfit.trans hroom
  rcases take_ok (hkeep _ hlink) hflight hlen hwords with ⟨received, hrecv, hruns, htaken⟩
  rw [nextParty_last hlast] at hruns
  rcases htaken.comm with ⟨bases, hcomm⟩
  have haccept : place.accept root received = .ok { root with
      pipes := place.store root.pipes received.buffer
      pipeline := { root.pipeline with prevRecvBySocket := bases } } := by
    simp only [LogitsPlace.accept, htaken.result, hcomm]
  refine ⟨received.buffer, bases, ?_, ?_, htaken.length, hcomm ▸ htaken.linked, fun hoff => ?_⟩
  · simp only [rootTake, hrank, hrecv, bind, Except.bind]
    exact haccept
  · rw [receiveLogits, hrank]
    have hall := hruns.bind (f := fun received => Io.ofExcept (place.accept root received))
      (l := []) (by rw [haccept, Io.ofExcept_ok]; exact Runs.pure _)
    rwa [List.append_nil] at hall
  · rw [htaken.carried (hdelta (by omega) hoff), hdtype, hdata]
    rfl

end Root

/-! ## One call -/

section Call

variable [Add F] [Sub F] [Zero F] [One F] [LE F] [DecidableLE F] [LT F] [DecidableLT F]
variable [NatCast F] [Div F]

/-- The calls of all nodes for one call of the root.  All run one forward with the batch and the
positions of its packet, and a stage takes what the stage before it hands on.  The root waits for
the logits of the last stage at once, or later, or they are not sent. -/
structure CallRuns (S : StageSetup β F σ) (useWave : Bool) (c : ForwardCall) (s s' : Stages β F σ)
    (R : Round β) : Prop where
  fits : (c.packet s.root.controlPacket).Fits
  word : R.word = S.packets.storePacket (c.packet s.root.controlPacket)
  controlPacket : s'.root.controlPacket = c.packet s.root.controlPacket
  root : ∃ root, root.controlPacket = c.packet s.root.controlPacket ∧
    root.pipes.memory = S.forward 0 (root.controlPacket.phase == 1)
      (contiguous root.controlPacket.position root.controlPacket.batchSize)
      (called S c s.root).pipes.memory ∧
    Runs (S.forwardPrefillNoWait (called S c s.root))
      (((List.range (S.ppSize - 1)).map fun k => .out (port 0 (k + 1)) R.word) ++
        (R.messages 0).map (.out (port 0 (nextParty S.ppSize 0)))) root ∧
    (c.isLastPrefillChunk = true →
      Runs (S.receiveLogits (S.takePlace useWave c root.controlPacket) root)
        ((R.messages (S.ppSize - 1)).map (.inp (port 0 (S.ppSize - 1)))) s'.root) ∧
    (c.isLastPrefillChunk = false → R.messages (S.ppSize - 1) = [] ∧ s'.root = root)
  worker : ∀ r, 0 < r → r < S.ppSize → RunsRound S r (c.packet s.root.controlPacket) (s.worker r)
    (s'.worker r) (R.messages (r - 1)) (R.messages r)

omit [Add F] [Sub F] [Zero F] [One F] [LE F] [DecidableLE F] [LT F] [DecidableLT F] [NatCast F]
  [Div F] in
theorem Steady.ready_pipeline {s : Stages β F σ} (h : Steady S s) {r : Nat}
    (hr : r + 1 < S.ppSize) :
    Linked (S.link r (Nat.lt_of_succ_lt hr)) (s.pipeline r) (s.pipeline (r + 1)) := by
  have hlink := h.links r (Nat.lt_of_succ_lt hr)
  rwa [nextParty_lt hr] at hlink

/-- After its round the circle is steady again, once the root has taken what there is to take. -/
theorem Relayed.steady {c : ForwardCall} (hc : Fits S c) {s : Stages β F σ} (h : Steady S s)
    {root root' : RootLlmInference β F σ} {worker : Nat → StageWorker β F σ} {k : Nat}
    {hk : k < S.ppSize} (hlast : k + 1 = S.ppSize) {messages : Nat → List (List β)}
    (hr : Relayed S k hk (c.packet s.root.controlPacket) s ⟨root, worker⟩ messages)
    (hpacket : root'.controlPacket = c.packet s.root.controlPacket)
    (hsource : ∃ bases, root'.pipeline = { root.pipeline with prevRecvBySocket := bases })
    (htarget : Linked (S.link k hk) ((⟨root, worker⟩ : Stages β F σ).pipeline k) root'.pipeline)
    (hsized : S.Sized root'.pipes.memory) (htoken : root'.pipes.tokenFromWorker.length = 4)
    (htop : root'.pipes.topKPacked.length = 8 * s.root.controlPacket.topKCount) :
    Steady S ⟨root', worker⟩ := by
  have htwo := S.two_le_ppSize
  have hcount : root'.controlPacket.topKCount = s.root.controlPacket.topKCount := by
    rw [hpacket]
    rfl
  refine ⟨hsized, htoken, by rw [hcount]; exact htop, fun r h₁ h₂ => hr.ready r h₁ (by omega),
    fun r hlt => ?_, ?_, ?_, ?_⟩
  · rcases Nat.lt_or_ge r k with hbefore | hafter
    · have hlink := hr.linked r hbefore
      rw [nextParty_lt (by omega)]
      rcases Nat.eq_zero_or_pos r with rfl | hpos
      · rcases hsource with ⟨bases, hsource⟩
        refine linked_of_source hlink ?_ ?_ ?_ ?_ <;>
          simp only [Stages.pipeline, if_true, hsource]
      · simpa only [Stages.pipeline, Nat.ne_of_gt hpos, Nat.succ_ne_zero, if_false] using hlink
    · obtain rfl : r = k := by omega
      rw [nextParty_last hlast]
      have hne : r ≠ 0 := by omega
      simpa only [Stages.pipeline, hne, if_false, if_true] using htarget
  · rw [hpacket]
    exact h.skip
  · rw [hpacket]
    exact h.activationType
  · rw [hpacket]
    exact h.packet_fits hc

/-- The nodes hold what the model that the stages compute together holds. -/
structure Agrees (S : StageSetup β F σ) (s : Stages β F σ) (q : Sequential β F σ) : Prop where
  controlPacket : q.controlPacket = s.root.controlPacket
  pipes : q.pipes = s.root.pipes
  memory : ∀ r, 0 < r → r < S.ppSize → q.memory r = (s.worker r).memory

/-- Without differences the relay runs the forwards of the stages on each other's rows. -/
theorem Relayed.stagesForward {p : LlmControlPacket F} {s : Stages β F σ}
    {root : RootLlmInference β F σ} {worker : Nat → StageWorker β F σ} {k : Nat}
    {hk : k < S.ppSize} {messages : Nat → List (List β)}
    (h : Relayed S k hk p s ⟨root, worker⟩ messages) (hdelta : p.pipelineDelta ≠ 1)
    (hroot : s.root.pipeline.deltaEnabled = false) {q : Sequential β F σ} (hq : Agrees S s q)
    {first : NodeMemory β σ}
    (hfirst : root.pipes.memory
      = S.forward 0 (p.phase == 1) (contiguous p.position p.batchSize) first) (r : Nat)
    (hr : r ≤ k) :
    S.stagesForward p first q.memory r = (⟨root, worker⟩ : Stages β F σ).memory r := by
  induction r with
  | zero => exact hfirst.symm
  | succ r ih =>
      have hbefore : q.memory (r + 1) = s.memory (r + 1) := hq.memory (r + 1) r.succ_pos (by omega)
      rw [h.memory hdelta hroot r hr, StageSetup.stagesForward, ih (by omega), hbefore]

/-- A call succeeds, and all nodes play their parts of it.  Without differences it is a call of the
model that the stages compute together. -/
theorem lockCall_ok (useWave : Bool) {s : Stages β F σ} (h : Steady S s) {c : ForwardCall}
    (hc : Fits S c) :
    ∃ s' R, S.lockCall useWave s c = .ok s' ∧ Steady S s' ∧ CallRuns S useWave c s s' R ∧
      s'.root.pipeline.deltaEnabled = s.root.pipeline.deltaEnabled ∧
      (∀ q, Agrees S s q → s.root.controlPacket.pipelineDelta ≠ 1 →
        s.root.pipeline.deltaEnabled = false → Agrees S s' (S.seqCall useWave q c)) := by
  have htwo := S.two_le_ppSize
  have hpos : 0 < S.ppSize := by omega
  have hk : S.ppSize - 1 < S.ppSize := by omega
  have hlast : S.ppSize - 1 + 1 = S.ppSize := by omega
  have hne : S.ppSize - 1 ≠ 0 := by omega
  have hp := h.callPacket hc
  rcases rootSend_ok h hc hpos with ⟨root, message, hsend, hruns, hemits, bases, hroot⟩
  have hpacket : root.controlPacket = c.packet s.root.controlPacket := by
    rw [hroot]
    rfl
  have hsized : S.Sized root.pipes.memory := by
    have hbefore : S.Sized (called S c s.root).pipes.memory := ⟨h.sized.xPipe, h.sized.logitsPipe⟩
    rw [hroot]
    exact hbefore.forward _ _ _
  have htoken : root.pipes.tokenFromWorker = s.root.pipes.tokenFromWorker := by
    rw [hroot]
    rfl
  have htop : root.pipes.topKPacked = s.root.pipes.topKPacked := by
    rw [hroot]
    rfl
  rcases relay_ok hp hpos hemits hsized h.ready (fun r hr => h.ready_pipeline hr)
    (fun r hr => (h.links r hr).source) (S.ppSize - 1) hk with
    ⟨worker, messages, hzero, hrelay, hrelayed⟩
  -- the link to the root, before its receive
  have hlink : Linked (S.link (S.ppSize - 1) hk) (s.pipeline (S.ppSize - 1)) root.pipeline := by
    have hlink := h.links (S.ppSize - 1) hk
    rw [nextParty_last hlast] at hlink
    rw [hroot]
    exact linked_of_target hlink rfl rfl rfl rfl
  have hcalled : S.rootSend { s.root.prepare c with
      pipes := S.withTokens c (s.root.prepare c).pipes } = .ok (root, message) := hsend
  have hsends : S.Sends (S.ppSize - 1) (c.packet s.root.controlPacket) ↔
      c.isLastPrefillChunk = true := by
    have hflag : (c.packet s.root.controlPacket).isLastPrefillChunk = 1 ↔
        c.isLastPrefillChunk = true := by
      simp [ForwardCall.packet, LlmControlPacket.setLastPrefillChunk,
        LlmControlPacket.setPosition]
    have hphase : (c.packet s.root.controlPacket).phase = 1 → c.isLastPrefillChunk = true :=
      fun hphase => hc.decode (by
        simpa [ForwardCall.packet, LlmControlPacket.setLastPrefillChunk,
          LlmControlPacket.setPosition, LlmControlPacket.setBatchSize,
          LlmControlPacket.setDecodePhase] using hphase)
    rw [Sends, hflag]
    constructor
    · rintro (hlt | hdecode | hflag)
      · omega
      · exact hphase hdecode
      · exact hflag
    · exact fun hflag => .inr (.inr hflag)
  have hworker : ∀ r, 0 < r → r < S.ppSize → RunsRound S r (c.packet s.root.controlPacket)
      (s.worker r) (worker r) (messages (r - 1)) (messages r) :=
    fun r h₁ h₂ => hrelayed.runs r h₁ (by omega)
  have hdelta : root.pipeline.deltaEnabled = s.root.pipeline.deltaEnabled := by rw [hroot]
  have hforward : root.pipes.memory = S.forward 0 (root.controlPacket.phase == 1)
      (contiguous root.controlPacket.position root.controlPacket.batchSize)
      (called S c s.root).pipes.memory := by
    rw [hroot]
    rfl
  -- what the model holds before the root takes the logits
  have hmemory : ∀ q, Agrees S s q → s.root.controlPacket.pipelineDelta ≠ 1 →
      s.root.pipeline.deltaEnabled = false → ∀ r, r < S.ppSize →
      S.stagesForward (c.packet q.controlPacket) (S.withTokens c q.pipes).memory q.memory r
        = (⟨root, worker⟩ : Stages β F σ).memory r := by
    intro q hq hoff hrootOff r hr
    rw [hq.controlPacket, hq.pipes]
    exact hrelayed.stagesForward hoff hrootOff hq (by rw [hroot]; rfl) r (by omega)
  have hpipes : ∀ q, Agrees S s q → s.root.controlPacket.pipelineDelta ≠ 1 →
      s.root.pipeline.deltaEnabled = false →
      { S.withTokens c q.pipes with
        memory := S.stagesForward (c.packet q.controlPacket) (S.withTokens c q.pipes).memory
          q.memory 0 } = root.pipes := by
    intro q hq hoff hrootOff
    rw [hmemory q hq hoff hrootOff 0 hpos, hq.pipes, hroot]
    rfl
  rw [← hzero] at hruns
  cases hflag : c.isLastPrefillChunk with
  | true =>
      rcases buffer_fit h hc useWave hsized htoken htop with ⟨hwords, hroom⟩
      rcases rootTake_ok hk hlast (hsends.mpr hflag) hrelayed.emits hp hrelayed.sized
        (S.takePlace useWave c (c.packet s.root.controlPacket)) hlink hwords hroom with
        ⟨bytes, bases', htake, htakeRuns, hlen, hlinked, hcarried⟩
      rcases store_sized hsized _ hlen with ⟨hsized', htoken', htop'⟩
      generalize hroot' : ({ root with
        pipes := (S.takePlace useWave c (c.packet s.root.controlPacket)).store root.pipes bytes
        pipeline := { root.pipeline with prevRecvBySocket := bases' } } :
          RootLlmInference β F σ) = root' at htake htakeRuns hlinked
      have hpacket' : root'.controlPacket = c.packet s.root.controlPacket := by
        rw [← hroot']
        exact hpacket
      have hpipes' : root'.pipes
          = (S.takePlace useWave c (c.packet s.root.controlPacket)).store root.pipes bytes := by
        rw [← hroot']
      have hpipeline' : root'.pipeline = { root.pipeline with prevRecvBySocket := bases' } := by
        rw [← hroot']
      refine ⟨⟨root', worker⟩, ⟨_, messages⟩, ?_, ?_,
        ⟨hp.fits, rfl, hpacket', ⟨root, hpacket, hforward, hruns, ?_, ?_⟩, hworker⟩, ?_, ?_⟩
      · simp only [lockCall, hcalled, hpacket, hrelay, bind, Except.bind, hflag, if_true, htake,
          pure, Except.pure]
      · exact hrelayed.steady hc h hlast hpacket' ⟨bases', hpipeline'⟩ hlinked
          (by rw [hpipes']; exact hsized') (by rw [hpipes', htoken', htoken, h.tokenFromWorker])
          (by rw [hpipes', htop', htop, h.topKPacked])
      · intro _
        rw [hpacket]
        exact htakeRuns
      · exact fun hno => absurd (hflag.symm.trans hno) (by decide)
      · rw [hpipeline']
        exact hdelta
      · intro q hq hoff hrootOff
        have hlastMemory := hmemory q hq hoff hrootOff (S.ppSize - 1) hk
        refine ⟨by rw [hpacket', ← hq.controlPacket]; rfl, ?_, fun r hr hlt => ?_⟩
        · simp only [seqCall, hflag, if_true, hpipes q hq hoff hrootOff, hlastMemory]
          rw [hpipes', hcarried hoff, hq.controlPacket]
        · refine (hmemory q hq hoff hrootOff r hlt).trans ?_
          exact if_neg (Nat.ne_of_gt hr)
  | false =>
      have hsilent := hrelayed.emits.silent fun hs => by
        have := hsends.mp hs
        rw [hflag] at this
        cases this
      refine ⟨⟨root, worker⟩, ⟨_, messages⟩, ?_, ?_,
        ⟨hp.fits, rfl, hpacket, ⟨root, hpacket, hforward, hruns, ?_, ?_⟩, hworker⟩, hdelta, ?_⟩
      · simp only [lockCall, hcalled, hpacket, hrelay, bind, Except.bind, hflag,
          Bool.false_eq_true, if_false, pure, Except.pure]
      · exact hrelayed.steady hc h hlast hpacket ⟨root.pipeline.prevRecvBySocket, rfl⟩
          (hsilent.2 _ hlink) hsized (by rw [htoken, h.tokenFromWorker])
          (by rw [htop, h.topKPacked])
      · exact fun hyes => absurd (hflag.symm.trans hyes) (by decide)
      · exact fun _ => ⟨hsilent.1, rfl⟩
      · intro q hq hoff hrootOff
        refine ⟨by rw [hpacket, ← hq.controlPacket]; rfl, ?_, fun r hr hlt => ?_⟩
        · simp only [seqCall, hflag, Bool.false_eq_true, if_false, hpipes q hq hoff hrootOff]
        · refine (hmemory q hq hoff hrootOff r hlt).trans ?_
          exact if_neg (Nat.ne_of_gt hr)

end Call

end StageSetup

end Pipeline
end PrefillOpt
