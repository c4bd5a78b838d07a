import PrefillOpt.Pipeline.StageSteps

/-!
# Pipeline.StageRounds — a call through all stages

A stage takes what the stage before it emits and emits in turn.  By induction on the stages the
whole relay succeeds, and the programs of the workers make the calls of one round.
-/

namespace PrefillOpt
namespace Pipeline

open Lib Network

variable {β F σ : Type}

namespace StageSetup

variable {S : StageSetup β F σ}

/-! ## What a stage emits -/

section Emit

variable [Sub F] [Zero F] [NatCast F]
variable {p : LlmControlPacket F} {m : NodeMemory β σ}

/-- The activation that stage `k` sends with the memory `m`. -/
structure Emitted (S : StageSetup β F σ) (k : Nat) (p : LlmControlPacket F) (m : NodeMemory β σ)
    (a : Activation β) : Prop where
  seqPosition : a.seqPosition = p.position
  next : k + 1 < S.ppSize → a.data = S.rows p m ∧ a.dtype = p.activationType
  logits : k + 1 = S.ppSize → a.data = S.lastLogits p m ∧ a.dtype = .f32

/-- Stage `k`, whose communicator was `old` before the round and is `new` after it, has sent
`message` on its link. -/
structure Emits (S : StageSetup β F σ) (k : Nat) (hk : k < S.ppSize) (p : LlmControlPacket F)
    (m : NodeMemory β σ) (old new : NnPipelineCommunicator F) (message : List (List β)) :
    Prop where
  sends : S.Sends k p → ∃ c a, (∀ d, Linked (S.link k hk) old d → Linked (S.link k hk) c d) ∧
    (k ≠ 0 → p.pipelineDelta ≠ 1 → c.deltaEnabled = false) ∧
    (k = 0 → c.deltaEnabled = old.deltaEnabled) ∧
    InFlight k hk a c new message ∧ Emitted S k p m a
  silent : ¬ S.Sends k p → message = [] ∧
    ∀ d, Linked (S.link k hk) old d → Linked (S.link k hk) new d

end Emit

/-- A link is kept by all that leaves the sender's bases alone. -/
theorem linked_of_source {l : StageLink S.topology} {c c' d : NnPipelineCommunicator F}
    (h : Linked l c d) (htopo : c'.topology = c.topology) (hnode : c'.myNodeIndex = c.myNodeIndex)
    (hsockets : c'.nSockets = c.nSockets) (hbases : c'.prevSendBySocket = c.prevSendBySocket) :
    Linked l c' d :=
  ⟨⟨htopo.trans h.source.topology, hnode.trans h.source.node, hsockets.trans h.source.sockets⟩,
    h.target, by rw [hbases]; exact h.sizes⟩

theorem linked_of_target {l : StageLink S.topology} {c d d' : NnPipelineCommunicator F}
    (h : Linked l c d) (htopo : d'.topology = d.topology) (hnode : d'.myNodeIndex = d.myNodeIndex)
    (hsockets : d'.nSockets = d.nSockets) (hbases : d'.prevRecvBySocket = d.prevRecvBySocket) :
    Linked l c d' :=
  ⟨h.source, ⟨htopo.trans h.target.topology, hnode.trans h.target.node,
    hsockets.trans h.target.sockets⟩, by rw [hbases]; exact h.sizes⟩

/-! ## The round of a worker -/

/-- A worker between two rounds. -/
structure Ready (S : StageSetup β F σ) (w : StageWorker β F σ) : Prop where
  sized : S.Sized w.memory
  isFinished : w.inference.isFinished = false

section React

variable [Add F] [Sub F] [Zero F] [One F] [LE F] [DecidableLE F] [LT F] [DecidableLT F]
variable [NatCast F] [Div F]
variable {p : LlmControlPacket F} {m : NodeMemory β σ}

/-- The calls of a worker in a round.  It hears the packet and takes one message, runs one forward
with the batch and the positions of the packet, and hands on one message. -/
structure RunsRound (S : StageSetup β F σ) (r : Nat) (p : LlmControlPacket F)
    (w w' : StageWorker β F σ) (message message' : List (List β)) : Prop where
  heard : ∃ w₁ w₂, S.hear p w = .ok w₁ ∧ Hears p w₁ ∧
    Runs (S.beforeForward r w₁) (message.map (.inp (port r (r - 1)))) w₂ ∧
    S.execute r w₂ = { w₂ with
      memory := S.forward r (p.phase == 1) (contiguous p.position p.batchSize) w₂.memory } ∧
    Runs (S.afterForward r (S.execute r w₂))
      (message'.map (.out (port r (nextParty S.ppSize r)))) w'

/-- Stage `r + 1` takes what stage `r` has sent, and emits its own message. -/
theorem react_ok {r : Nat} (hr : r + 1 < S.ppSize) (hp : S.CallPacket p)
    {old new : NnPipelineCommunicator F} {message : List (List β)}
    (hm : Emits S r (Nat.lt_of_succ_lt hr) p m old new message) (hsized : S.Sized m)
    {w : StageWorker β F σ} (hw : Ready S w)
    (hlink : Linked (S.link r (Nat.lt_of_succ_lt hr)) old w.pipeline)
    (hserves : w.pipeline.Serves (S.link (r + 1) hr)) :
    ∃ w' message', S.react (r + 1) p message w = .ok (w', message') ∧
      RunsRound S (r + 1) p w w' message message' ∧ Ready S w' ∧
      Linked (S.link r (Nat.lt_of_succ_lt hr)) new w'.pipeline ∧
      Emits S (r + 1) hr p w'.memory w.pipeline w'.pipeline message' ∧
      (p.pipelineDelta ≠ 1 → (r = 0 → old.deltaEnabled = false) →
        w'.memory = S.forward (r + 1) (p.phase == 1) (contiguous p.position p.batchSize)
          { w.memory with
            xPipe := overwrite w.memory.xPipe (S.fmt.carry p.activationType (S.rows p m)) }) := by
  rcases S.hear_ok hp w hw.isFinished with ⟨inference, hhear, heard⟩
  rcases hm.sends (.inl hr) with ⟨c, a, hkeep, hdelta, hdelta₀, hflight, hemitted⟩
  rcases hemitted.next hr with ⟨hdata, hdtype⟩
  -- the worker that has heard the packet
  generalize hw₁ : ({ w with
    inference
    pipelineActivationType := p.activationType
    pipeline := w.pipeline.setTransportOptions (p.pipelineDelta == 1) p.pipelineDeltaMinBytes
      p.pipelineChunkBytes } : StageWorker β F σ) = w₁ at hhear
  have hears : Hears p w₁ := by
    subst hw₁
    exact ⟨heard.controlPacket, heard.decodePhase, heard.batchSize, heard.positionPipe,
      heard.isFinished.trans hw.isFinished⟩
  have hmemory₁ : w₁.memory = w.memory := by rw [← hw₁]
  have hpipeline₁ : w₁.pipeline = w.pipeline.setTransportOptions (p.pipelineDelta == 1)
      p.pipelineDeltaMinBytes p.pipelineChunkBytes := by rw [← hw₁]
  have htype₁ : w₁.pipelineActivationType = p.activationType := by rw [← hw₁]
  have hlink₁ : Linked (S.link r (Nat.lt_of_succ_lt hr)) c w₁.pipeline := by
    rw [hpipeline₁]
    exact linked_of_target (hkeep _ hlink) rfl rfl rfl rfl
  have hlen : a.data.length = S.xPipeRowBytes * p.batchSize := by
    have hle := Nat.mul_le_mul_left S.xPipeRowBytes hp.batch_le
    rw [hdata, rows, List.length_take, hsized.xPipe]
    omega
  -- it takes the activation
  rcases stageTake_ok hr hp hears (hmemory₁ ▸ hw.sized) hlink₁ hflight hemitted.seqPosition
    hlen with
    ⟨w₂, arrived, htake, htakeRuns, hears₂, hskip, ⟨bases, hpipeline₂⟩, hlink₂, htype₂, hmemory₂,
      harrived, hcarried⟩
  -- it runs its forward
  have hexecute : S.execute (r + 1) w₂ = { w₂ with
      memory := S.forward (r + 1) w₂.inference.decodePhase w₂.inference.positionPipe w₂.memory } :=
    if_neg (by rw [hskip]; exact Bool.false_ne_true)
  rw [hears₂.decodePhase, hears₂.positionPipe] at hexecute
  have honce := hexecute
  have hsized₂ : S.Sized w₂.memory := by
    have hroom : arrived.length ≤ w.memory.xPipe.length := by
      rw [harrived, hw.sized.xPipe]
      exact Nat.mul_le_mul_left _ hp.batch_le
    rw [hmemory₂, hmemory₁]
    exact ⟨(overwrite_length hroom).trans hw.sized.xPipe, hw.sized.logitsPipe⟩
  generalize hw₃ : S.execute (r + 1) w₂ = w₃ at hexecute
  have hears₃ : Hears p w₃ := by
    rw [hexecute]
    exact ⟨hears₂.controlPacket, hears₂.decodePhase, hears₂.batchSize, hears₂.positionPipe,
      hears₂.isFinished⟩
  have hpipeline₃ : w₃.pipeline = w₂.pipeline := by rw [hexecute]
  have hmemory₃ : w₃.memory = S.forward (r + 1) (p.phase == 1) (contiguous p.position p.batchSize)
      w₂.memory := by rw [hexecute]
  have hsized₃ : S.Sized w₃.memory := hmemory₃ ▸ hsized₂.forward _ _ _
  have htype₃ : w₃.pipelineActivationType = p.activationType := by
    rw [hexecute]
    exact htype₂.trans htype₁
  have hform₃ : w₃.pipeline = { w.pipeline.setTransportOptions (p.pipelineDelta == 1)
      p.pipelineDeltaMinBytes p.pipelineChunkBytes with prevRecvBySocket := bases } := by
    rw [hpipeline₃, hpipeline₂, hpipeline₁]
  have hserves₃ : w₃.pipeline.Serves (S.link (r + 1) hr) := by
    rw [hform₃]
    exact ⟨hserves.topology, hserves.node, hserves.sockets⟩
  -- it sends its own message
  rcases afterForward_ok (Nat.succ_pos r) hr hp hears₃ hsized₃
      (htype₃.trans_ne hp.activationType) hserves₃ with
    ⟨w', message', hsend, hsendRuns, hears', hmemory', ⟨bases', hpipeline'⟩, hsends, hsilent⟩
  refine ⟨w', message', ?_, ⟨w₁, w₂, hhear, hears, htakeRuns, honce, ?_⟩, ⟨hmemory' ▸ hsized₃,
    hears'.isFinished⟩, ?_, ⟨fun h => ?_, fun h => ?_⟩, fun hoff hroot => ?_⟩
  · simp only [react, hhear, htake, hw₃, bind, Except.bind]
    exact hsend
  · rw [hw₃]
    exact hsendRuns
  · rw [hpipeline', hpipeline₃]
    exact linked_of_target hlink₂ rfl rfl rfl rfl
  · rcases hsends h with ⟨a', hflight', hsent⟩
    refine ⟨w₃.pipeline, a', fun d hd => ?_, fun _ hoff => ?_,
      fun h => absurd h (Nat.succ_ne_zero r), hflight', hsent.seqPosition, fun hnext => ?_,
      fun hlast => ?_⟩
    · rw [hform₃]
      exact linked_of_source hd rfl rfl rfl rfl
    · rw [hform₃]
      exact beq_false_of_ne hoff
    · rcases hsent.next hnext with ⟨hdata', hdtype'⟩
      refine ⟨?_, hdtype'.trans htype₃⟩
      rw [hdata', xBuffer, hears₃.batchSize, hmemory']
      rfl
    · rcases hsent.logits hlast with ⟨hdata', hdtype'⟩
      rw [hdata', payloadBytes_eq_lastLogits hears₃, hmemory']
      exact ⟨rfl, hdtype'⟩
  · rcases hsilent h with ⟨hnil, hsame⟩
    refine ⟨hnil, fun d hd => ?_⟩
    rw [hsame, hform₃]
    exact linked_of_source hd rfl rfl rfl rfl
  · have hcoff : c.deltaEnabled = false := by
      by_cases hr₀ : r = 0
      · rw [hdelta₀ hr₀, hroot hr₀]
      · exact hdelta hr₀ hoff
    rw [hmemory', hmemory₃, hmemory₂, hmemory₁, hcarried hcoff, hdtype, hdata]

/-! ## The relay -/

/-- The stages `1`, …, `k` have had their round: `s` is before it and `s'` after it, and the root
is the one that has sent. -/
structure Relayed (S : StageSetup β F σ) (k : Nat) (hk : k < S.ppSize) (p : LlmControlPacket F)
    (s s' : Stages β F σ) (messages : Nat → List (List β)) : Prop where
  later : ∀ r, k < r → s'.worker r = s.worker r
  runs : ∀ r, 0 < r → r ≤ k → RunsRound S r p (s.worker r) (s'.worker r) (messages (r - 1))
    (messages r)
  ready : ∀ r, 0 < r → r ≤ k → Ready S (s'.worker r)
  linked : ∀ r (hr : r < k), Linked (S.link r (hr.trans hk)) (s'.pipeline r) (s'.pipeline (r + 1))
  emits : Emits S k hk p (s'.memory k) (s.pipeline k) (s'.pipeline k) (messages k)
  sized : S.Sized (s'.memory k)
  memory : p.pipelineDelta ≠ 1 → s.root.pipeline.deltaEnabled = false → ∀ r, r < k →
    s'.memory (r + 1) = S.forward (r + 1) (p.phase == 1) (contiguous p.position p.batchSize)
      { s.memory (r + 1) with
        xPipe := overwrite (s.memory (r + 1)).xPipe
          (S.fmt.carry p.activationType (S.rows p (s'.memory r))) }

theorem relay_ok (hp : S.CallPacket p) {s : Stages β F σ} {root : RootLlmInference β F σ}
    {message : List (List β)} (hpos : 0 < S.ppSize)
    (hm : Emits S 0 hpos p root.pipes.memory s.root.pipeline root.pipeline message)
    (hsized : S.Sized root.pipes.memory)
    (hready : ∀ r, 0 < r → r < S.ppSize → Ready S (s.worker r))
    (hlinks : ∀ r (hr : r + 1 < S.ppSize),
      Linked (S.link r (Nat.lt_of_succ_lt hr)) (s.pipeline r) (s.pipeline (r + 1)))
    (hserves : ∀ r (hr : r < S.ppSize), (s.pipeline r).Serves (S.link r hr)) (k : Nat)
    (hk : k < S.ppSize) :
    ∃ worker messages, messages 0 = message ∧
      S.relay p message s.worker k = .ok (worker, messages k) ∧
      Relayed S k hk p s ⟨root, worker⟩ messages := by
  induction k with
  | zero =>
      exact ⟨s.worker, fun _ => message, rfl, rfl, fun _ _ => rfl, fun r h₁ h₂ => by omega,
        fun r h₁ h₂ => by omega, fun r hr => absurd hr (Nat.not_lt_zero r), hm, hsized,
        fun _ _ r hr => absurd hr (Nat.not_lt_zero r)⟩
  | succ k ih =>
      rcases ih (Nat.lt_of_succ_lt hk) with ⟨worker, messages, hzero, hrelay, h⟩
      have hsame : worker (k + 1) = s.worker (k + 1) := h.later (k + 1) (Nat.lt_succ_self k)
      have hlink : Linked (S.link k (Nat.lt_of_succ_lt hk)) (s.pipeline k)
          (s.worker (k + 1)).pipeline := hlinks k hk
      rcases react_ok hk hp h.emits h.sized (hready (k + 1) (Nat.succ_pos k) hk) hlink
        (hserves (k + 1) hk) with ⟨w, message', hreact, hruns, hwready, hlinked, hemits, hmemory⟩
      have hold : ∀ r, r ≤ k → Function.update worker (k + 1) w r = worker r := fun r hr =>
        Function.update_of_ne (by omega) _ _
      have hmsg : ∀ r, r ≤ k → Function.update messages (k + 1) message' r = messages r :=
        fun r hr => Function.update_of_ne (by omega) _ _
      have hpipe : ∀ r, r ≤ k → (⟨root, Function.update worker (k + 1) w⟩ : Stages β F σ).pipeline r
          = (⟨root, worker⟩ : Stages β F σ).pipeline r := by
        intro r hr
        simp only [Stages.pipeline, hold r hr]
      have hmem : ∀ r, r ≤ k → (⟨root, Function.update worker (k + 1) w⟩ : Stages β F σ).memory r
          = (⟨root, worker⟩ : Stages β F σ).memory r := by
        intro r hr
        simp only [Stages.memory, hold r hr]
      have hnew : Function.update worker (k + 1) w (k + 1) = w := Function.update_self ..
      refine ⟨Function.update worker (k + 1) w, Function.update messages (k + 1) message',
        (hmsg 0 (Nat.zero_le k)).trans hzero, ?_, ?_⟩
      · simp only [relay, hrelay, hsame, hreact, bind, Except.bind, pure, Except.pure,
          Function.update_self]
      constructor
      case later =>
        intro r hr
        rw [← h.later r (by omega)]
        exact Function.update_of_ne (by omega) _ _
      case runs =>
        intro r hr hrk
        rcases Nat.lt_or_ge k r with hlast | hbefore
        · obtain rfl : r = k + 1 := by omega
          simpa only [Function.update_self, Nat.add_sub_cancel, hmsg k le_rfl] using hruns
        · simpa only [hold r hbefore, hmsg (r - 1) (by omega), hmsg r hbefore]
            using h.runs r hr hbefore
      case ready =>
        intro r hr hrk
        rcases Nat.lt_or_ge k r with hlast | hbefore
        · obtain rfl : r = k + 1 := by omega
          simpa only [Function.update_self] using hwready
        · simpa only [hold r hbefore] using h.ready r hr hbefore
      case linked =>
        intro r hr
        rw [hpipe r (by omega)]
        rcases Nat.lt_or_ge r k with hbefore | hlast
        · rw [hpipe (r + 1) (by omega)]
          exact h.linked r hbefore
        · obtain rfl : r = k := by omega
          simpa only [Stages.pipeline, Nat.succ_ne_zero, if_false, hnew] using hlinked
      case emits =>
        simpa only [Stages.pipeline, Stages.memory, Nat.succ_ne_zero, if_false,
          Function.update_self] using hemits
      case sized =>
        simpa only [Stages.memory, Nat.succ_ne_zero, if_false, hnew] using hwready.sized
      case memory =>
        intro hoff hroot r hr
        rw [hmem r (by omega)]
        rcases Nat.lt_or_ge r k with hbefore | hlast
        · rw [hmem (r + 1) (by omega)]
          exact h.memory hoff hroot r hbefore
        · obtain rfl : r = k := by omega
          have hw := hmemory hoff fun hr₀ => by
            subst hr₀
            exact hroot
          simpa only [Stages.memory, Nat.succ_ne_zero, if_false, hnew] using hw

end React

end StageSetup

end Pipeline
end PrefillOpt
