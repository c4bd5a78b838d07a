import PrefillOpt.Pipeline.StageRuns

/-!
# Pipeline.StageRequests — whole requests, in any order of the steps

By induction on its calls the programs of all nodes play their parts of one list of rounds, with
the stop packet as the last of them.  So a request completes on links of any capacity, and every
node ends as in lockstep; without differences the stages compute what one model computes.
-/

namespace PrefillOpt
namespace Pipeline

open Lib Network

variable {β F σ : Type}

namespace StageSetup

variable {S : StageSetup β F σ}

section Requests

variable [Add F] [Sub F] [Zero F] [One F] [LE F] [DecidableLE F] [LT F] [DecidableLT F]
variable [NatCast F] [Div F]
variable {useWave : Bool} {c : ForwardCall} {cs ds : List ForwardCall} {s s' : Stages β F σ}
variable {R : Round β} {Rs : List (Round β)}

/-! ## The calls of a request -/

inductive LockRuns (S : StageSetup β F σ) (useWave : Bool) :
    List ForwardCall → Stages β F σ → Stages β F σ → List (Round β) → Prop
  | nil (s : Stages β F σ) : LockRuns S useWave [] s s []
  | cons {c : ForwardCall} {cs : List ForwardCall} {s s₁ s' : Stages β F σ} {R : Round β}
      {Rs : List (Round β)} (head : CallRuns S useWave c s s₁ R)
      (tail : LockRuns S useWave cs s₁ s' Rs) : LockRuns S useWave (c :: cs) s s' (R :: Rs)

theorem LockRuns.append (h : LockRuns S useWave (cs ++ ds) s s' Rs) :
    ∃ s₁ Rs₁ Rs₂, Rs = Rs₁ ++ Rs₂ ∧ LockRuns S useWave cs s s₁ Rs₁ ∧
      LockRuns S useWave ds s₁ s' Rs₂ := by
  induction cs generalizing s Rs with
  | nil => exact ⟨s, [], Rs, rfl, .nil s, h⟩
  | cons c cs ih =>
      cases h with
      | cons head tail =>
          rcases ih tail with ⟨s₁, Rs₁, Rs₂, rfl, h₁, h₂⟩
          exact ⟨s₁, _ :: Rs₁, Rs₂, rfl, .cons head h₁, h₂⟩

/-- Calls that fit succeed one after the other. -/
theorem lockCalls_ok (useWave : Bool) (hs : Steady S s) (hcs : ∀ c ∈ cs, Fits S c) :
    ∃ s' Rs, cs.foldlM (S.lockCall useWave) s = .ok s' ∧ Steady S s' ∧
      LockRuns S useWave cs s s' Rs ∧
      (∀ q, Agrees S s q → s.root.controlPacket.pipelineDelta ≠ 1 →
        s.root.pipeline.deltaEnabled = false → Agrees S s' (S.sequential useWave cs q)) := by
  induction cs generalizing s with
  | nil => exact ⟨s, [], rfl, hs, .nil s, fun q hq _ _ => hq⟩
  | cons c cs ih =>
      rcases lockCall_ok useWave hs (hcs c (List.mem_cons_self ..)) with
        ⟨s₁, R, hcall, hs₁, hruns, hdelta, hagrees⟩
      rcases ih hs₁ fun c' hc' => hcs c' (List.mem_cons_of_mem _ hc') with
        ⟨s', Rs, hcalls, hs', hrest, hagrees'⟩
      refine ⟨s', R :: Rs, ?_, hs', .cons hruns hrest, fun q hq hoff hroot => ?_⟩
      · rw [List.foldlM_cons, hcall]
        exact hcalls
      · refine hagrees' _ (hagrees q hq hoff hroot) ?_ (hdelta.trans hroot)
        rw [hruns.controlPacket]
        exact hoff

/-! ## The root -/

/-- The root sends the activation and does not wait, as no logits come. -/
theorem CallRuns.noWait (h : CallRuns S useWave c s s' R) (hlast : c.isLastPrefillChunk = false) :
    Runs (S.forwardPrefillNoWait (called S c s.root)) (R.hubPart S.ppSize port) s'.root := by
  rcases h.root with ⟨root, -, -, hruns, -, hnone⟩
  rcases hnone hlast with ⟨hnil, rfl⟩
  rw [Round.hubPart, hnil, List.map_nil, List.append_nil]
  exact hruns

/-- The root waits for the logits that come. -/
theorem CallRuns.wait (h : CallRuns S useWave c s s' R) (hlast : c.isLastPrefillChunk = true) :
    Runs (S.forwardPrefillNoWait (called S c s.root) >>= fun root =>
      S.receiveLogits (S.takePlace useWave c root.controlPacket) root)
      (R.hubPart S.ppSize port) s'.root := by
  rcases h.root with ⟨root, -, -, hruns, htake, -⟩
  rw [Round.hubPart, ← List.append_assoc]
  exact hruns.bind (htake hlast)

omit [Add F] [Sub F] [Zero F] [One F] [LE F] [DecidableLE F] [LT F] [DecidableLT F] [NatCast F]
  [Div F] in
theorem setDecodePhase_prefill {root : RootLlmInference β F σ} {p : LlmControlPacket F}
    (h : root.controlPacket = c.packet p) (hphase : c.decodePhase = false) :
    root.setDecodePhase false = root := by
  have hzero : root.controlPacket.phase = 0 := by
    rw [h]
    simp [ForwardCall.packet, LlmControlPacket.setDecodePhase, LlmControlPacket.setBatchSize,
      LlmControlPacket.setLastPrefillChunk, LlmControlPacket.setPosition, hphase]
  rw [RootLlmInference.setDecodePhase, LlmControlPacket.setDecodePhase_false hzero]

/-- In a prefill with a wait for each chunk. -/
theorem LockRuns.blocking (h : LockRuns S false cs s s' Rs)
    (hcs : ∀ c ∈ cs, c.isLastPrefillChunk = true ∧ c.decodePhase = false) :
    Runs (cs.foldlM (S.prefillChunk false) (s.root.setDecodePhase false))
      (Rs.flatMap (Round.hubPart S.ppSize port)) (s'.root.setDecodePhase false) := by
  induction h with
  | nil s => exact Runs.pure _
  | @cons c cs s s₁ s' R Rs head tail ih =>
      rcases hcs c (List.mem_cons_self ..) with ⟨hlast, hphase⟩
      have hcall : S.prefillChunk false (s.root.setDecodePhase false) c
          = S.forwardPrefillNoWait (called S c s.root) >>= fun root =>
            S.receiveLogits (S.takePlace false c root.controlPacket) root := by
        simp only [prefillChunk, called, RootLlmInference.prepare, hphase]
        rfl
      rw [List.foldlM_cons, List.flatMap_cons, hcall]
      refine (head.wait hlast).bind ?_
      rw [← setDecodePhase_prefill head.controlPacket hphase]
      exact ih fun c' hc' => hcs c' (List.mem_cons_of_mem _ hc')

/-- The chunks of a wave: logits come for the last one only. -/
inductive Wave : List ForwardCall → Prop
  | nil : Wave []
  | last {c : ForwardCall} (hlast : c.isLastPrefillChunk = true) (hphase : c.decodePhase = false) :
      Wave [c]
  | more {c d : ForwardCall} {cs : List ForwardCall} (hmore : c.isLastPrefillChunk = false)
      (hphase : c.decodePhase = false) (rest : Wave (d :: cs)) : Wave (c :: d :: cs)

/-- In a wave, with one wait at the end. -/
theorem LockRuns.wave (h : LockRuns S true cs s s' Rs) (hcs : Wave cs) :
    Runs (cs.foldlM (S.prefillChunk true) (s.root.setDecodePhase false) >>= fun root =>
      if !cs.isEmpty then S.drainPrefillLogits root else pure root)
      (Rs.flatMap (Round.hubPart S.ppSize port)) (s'.root.setDecodePhase false) := by
  induction hcs generalizing s Rs with
  | nil =>
      cases h
      exact Runs.pure _
  | @last c hlast hphase =>
      cases h with
      | cons head tail =>
          cases tail
          have hcall : S.prefillChunk true (s.root.setDecodePhase false) c
              = S.forwardPrefillNoWait (called S c s.root) := by
            simp only [prefillChunk, called, RootLlmInference.prepare, hphase]
            rfl
          have hplace : ∀ p : LlmControlPacket F,
              S.takePlace true c p = .logitsPipe 0 S.logitsPipeMaxBytes := fun p => by
            simp [takePlace, hphase]
          have hwait := head.wait hlast
          simp only [hplace] at hwait
          rw [setDecodePhase_prefill head.controlPacket hphase]
          simpa [List.foldlM_cons, hcall, drainPrefillLogits] using hwait
  | @more c d cs hmore hphase rest ih =>
      cases h with
      | @cons _ _ _ s₁ _ _ _ head tail =>
          have hcall : S.prefillChunk true (s.root.setDecodePhase false) c
              = S.forwardPrefillNoWait (called S c s.root) := by
            simp only [prefillChunk, called, RootLlmInference.prepare, hphase]
            rfl
          rw [List.foldlM_cons, List.flatMap_cons, hcall, bind_assoc]
          refine (head.noWait hmore).bind ?_
          rw [← setDecodePhase_prefill head.controlPacket hphase]
          exact ih tail

/-- One token after the other, from the setters before the loop on. -/
theorem LockRuns.decode (h : LockRuns S useWave cs s s' Rs)
    (hcs : ∀ c ∈ cs, c = ⟨c.position, 1, true, true⟩) :
    Runs (cs.foldlM S.decodeToken ((s.root.setBatchSize 1).setDecodePhase true))
      (Rs.flatMap (Round.hubPart S.ppSize port))
      ((s'.root.setBatchSize 1).setDecodePhase true) := by
  induction h with
  | nil s => exact Runs.pure _
  | @cons c cs s s₁ s' R Rs head tail ih =>
      have hc := hcs c (List.mem_cons_self ..)
      have hcall : S.decodeToken ((s.root.setBatchSize 1).setDecodePhase true) c
          = S.forwardPrefillNoWait (called S c s.root) >>= fun root =>
            S.receiveLogits (S.takePlace useWave c root.controlPacket) root := by
        have hplace : ∀ p : LlmControlPacket F, S.takePlace useWave c p = S.logitsPlace p :=
          fun p => by
            rw [hc]
            simp [takePlace]
        simp only [hplace]
        rw [hc]
        rfl
      have hlast : c.isLastPrefillChunk = true := by rw [hc]
      have hdecoding : s₁.root.controlPacket.Decoding := by
        rw [head.controlPacket, hc]
        exact ⟨rfl, rfl, rfl⟩
      have hdone : (s₁.root.setBatchSize 1).setDecodePhase true = s₁.root := by
        simp only [RootLlmInference.setBatchSize, RootLlmInference.setDecodePhase, hdecoding.eq]
      rw [List.foldlM_cons, List.flatMap_cons, hcall]
      refine (head.wait hlast).bind ?_
      rw [← hdone]
      exact ih fun c' hc' => hcs c' (List.mem_cons_of_mem _ hc')

/-- The round of the stop packet. -/
def stopRound (S : StageSetup β F σ) (root : RootLlmInference β F σ) : Round β where
  word := S.packets.storePacket (lastRoot root).controlPacket
  messages _ := []

omit [Add F] [Sub F] [Zero F] [One F] [LE F] [DecidableLE F] [LT F] [DecidableLT F] [NatCast F]
  [Div F] in
theorem finish_runs (S : StageSetup β F σ) (root : RootLlmInference β F σ) :
    Runs (S.finish ((root.setBatchSize 1).setDecodePhase true))
      ((stopRound S root).hubPart S.ppSize port) (lastRoot root) := by
  have h := (writeAll_runs S (lastRoot root).controlPacket).bind_pure fun _ => lastRoot root
  have hpart : (stopRound S root).hubPart S.ppSize port = (List.range (S.ppSize - 1)).map fun k =>
      .out (port 0 (k + 1)) (S.packets.storePacket (lastRoot root).controlPacket) := by
    simp [Round.hubPart, stopRound]
  rw [hpart]
  exact h

/-- The chunks of a prefill in the mode of the root. -/
def Prefill (useWave : Bool) (cs : List ForwardCall) : Prop :=
  if useWave then Wave cs else ∀ c ∈ cs, c.isLastPrefillChunk = true ∧ c.decodePhase = false

/-- The whole program of the root. -/
theorem LockRuns.inference {s₁ : Stages β F σ} {Rs₁ : List (Round β)}
    (h₁ : LockRuns S useWave cs s s₁ Rs) (hcs : Prefill useWave cs)
    (h₂ : LockRuns S useWave ds s₁ s' Rs₁) (hds : ∀ c ∈ ds, c = ⟨c.position, 1, true, true⟩) :
    Runs (S.inference useWave cs ds s.root)
      ((Rs ++ Rs₁ ++ [stopRound S s'.root]).flatMap (Round.hubPart S.ppSize port))
      (lastRoot s'.root) := by
  rw [List.flatMap_append, List.flatMap_append, List.flatMap_singleton, List.append_assoc]
  have hdecode := (h₂.decode hds).bind (finish_runs S s'.root)
  have hsetters : ((s₁.root.setDecodePhase false).setBatchSize 1).setDecodePhase true
      = (s₁.root.setBatchSize 1).setDecodePhase true := rfl
  unfold StageSetup.inference
  cases useWave with
  | true =>
      have hprefill := (h₁.wave hcs).bind (f := fun root =>
        ds.foldlM S.decodeToken ((root.setBatchSize 1).setDecodePhase true) >>= S.finish)
        (by rw [hsetters]; exact hdecode)
      cases hempty : cs.isEmpty <;>
        simpa only [Bool.true_and, bind_assoc, hempty, Bool.not_true, Bool.not_false, if_true,
          Bool.false_eq_true, if_false] using hprefill
  | false =>
      have hprefill := (h₁.blocking hcs).bind (f := fun root =>
        ds.foldlM S.decodeToken ((root.setBatchSize 1).setDecodePhase true) >>= S.finish)
        (by rw [hsetters]; exact hdecode)
      simpa only [Bool.false_and, Bool.false_eq_true, if_false, pure_bind] using hprefill

/-! ## A worker -/

theorem port_root (r : Nat) : port r 0 = (r, 0) := by
  simp [port, getSocketIndexForNode]

/-- The packets of a request arrive as they were written. -/
theorem CallRuns.loadPacket (h : CallRuns S useWave c s s' R) :
    R.word.length = S.packets.packetSize ∧
      S.packets.loadPacket R.word = c.packet s.root.controlPacket := by
  rw [h.word]
  exact ⟨S.packets.storePacket_length _, S.packets.loadPacket_store _ h.fits⟩

/-- A worker runs one round of its loop for each call. -/
theorem LockRuns.stageLoop (h : LockRuns S useWave cs s s' Rs) {r fuel : Nat} (hr : 0 < r)
    (hlt : r < S.ppSize) {es : List (LEv Port β)} {w : StageWorker β F σ}
    (hrest : Runs (S.stageLoop r fuel (s'.worker r)) es w) :
    Runs (S.stageLoop r (cs.length + fuel) (s.worker r))
      ((Rs.flatMap fun R => R.partyPart S.ppSize port r) ++ es) w := by
  induction h with
  | nil s =>
      rw [List.length_nil, Nat.zero_add]
      exact hrest
  | @cons c cs s s₁ s' R Rs head tail ih =>
      rcases head.loadPacket with ⟨hlen, hload⟩
      rcases (head.worker r hr hlt).heard with ⟨w₁, w₂, hhear, hears, htake, -, hsend⟩
      have htail := ih hrest
      have hfuel : (c :: cs).length + fuel = (cs.length + fuel) + 1 := by
        rw [List.length_cons]
        omega
      rw [hfuel, StageSetup.stageLoop, readControlPacket, List.flatMap_cons, Round.partyPart,
        bind_assoc, List.append_assoc, List.cons_append, port_root]
      refine Runs.read_bind hlen ?_
      rw [hload, hhear, Io.ofExcept_ok, pure_bind, hears.isFinished]
      simp only [Bool.false_eq_true, if_false]
      rw [List.append_assoc]
      exact htake.bind (hsend.bind htail)

/-- The stop packet ends the loop. -/
theorem stop_runs (S : StageSetup β F σ) {root : RootLlmInference β F σ}
    (hfits : root.controlPacket.Fits) (worker : Nat → StageWorker β F σ) {r : Nat} (hr : 0 < r)
    (hlt : r < S.ppSize) (fuel : Nat) :
    Runs (S.stageLoop r (fuel + 1) (worker r)) ((stopRound S root).partyPart S.ppSize port r)
      (S.stopped (lastRoot root).controlPacket worker r) := by
  have hload : S.packets.loadPacket (stopRound S root).word = (lastRoot root).controlPacket :=
    S.packets.loadPacket_store _ (lastRoot_fits hfits)
  have hhear : S.hear (lastRoot root).controlPacket (worker r)
      = .ok (S.stopped (lastRoot root).controlPacket worker r) := by
    simp only [hear, WorkerLlmInference.tryReadControlPacket, stopped, hr, hlt, lastRoot, and_self,
      if_true, bind, Except.bind, pure, Except.pure]
  have hfinished : (S.stopped (lastRoot root).controlPacket worker r).inference.isFinished
      = true := by
    simp [stopped, hr, hlt]
  have hpart : (stopRound S root).partyPart S.ppSize port r
      = [.inp (port r 0) (stopRound S root).word] := by
    simp [Round.partyPart, stopRound]
  rw [hpart, StageSetup.stageLoop, readControlPacket, bind_assoc, port_root]
  refine Runs.read_bind (S.packets.storePacket_length _) ?_
  change Runs (Io.ofExcept (S.hear (S.packets.loadPacket (stopRound S root).word) _) >>= _) _ _
  rw [hload, hhear, Io.ofExcept_ok, pure_bind, hfinished]
  exact Runs.pure _

/-! ## The system -/

omit [Add F] [Sub F] [Zero F] [One F] [LE F] [DecidableLE F] [LT F] [DecidableLT F] [NatCast F]
  [Div F] in
theorem mesh (S : StageSetup β F σ) (cap : Port → Nat) :
    Mesh (mainNet cap) S.ppSize (fun i => ((i, 0) : Party)) port where
  owner _ _ _ _ _ := rfl
  peer _ _ _ _ hij := farEnd_port hij.symm
  party_inj _ _ _ _ h := congrArg Prod.fst h

/-- The calls of a request, in the two loops of the root. -/
structure RequestCalls (S : StageSetup β F σ) (useWave : Bool) (prefill decode : List ForwardCall) :
    Prop where
  fits : ∀ c ∈ prefill ++ decode, Fits S c
  prefill : Prefill useWave prefill
  decode : ∀ c ∈ decode, c = ⟨c.position, 1, true, true⟩

/-- The nodes after the stop packet. -/
def finished (S : StageSetup β F σ) (s : Stages β F σ) : Stages β F σ :=
  ⟨lastRoot s.root, S.stopped (lastRoot s.root).controlPacket s.worker⟩

/-- All nodes play their parts of the rounds of a request, and of the stop packet after them. -/
theorem RequestCalls.plays {prefill decode : List ForwardCall}
    (h : RequestCalls S useWave prefill decode)
    (hruns : LockRuns S useWave (prefill ++ decode) s s' Rs)
    (hpacket : s'.root.controlPacket.Fits) {fuel : Nat}
    (hfuel : (prefill ++ decode).length < fuel) (cap : Port → Nat) :
    Plays (mainNet cap) (S.system fuel useWave prefill decode s)
      ((Rs ++ [stopRound S s'.root]).flatMap (Round.events S.ppSize port))
      ((List.range S.ppSize).map fun i => (i, 0)) (fun p => .ok (S.result (S.finished s') p)) := by
  have hpos : 0 < S.ppSize := Nat.lt_of_lt_of_le Nat.two_pos S.two_le_ppSize
  rcases hruns.append with ⟨s₁, Rs₁, Rs₂, rfl, h₁, h₂⟩
  refine (mesh S cap).plays_rounds S.two_le_ppSize _ rfl ?_ ?_ ?_
  · have hroot := (h₁.inference h.prefill h₂ h.decode).map StageResult.root
    have hproc : (S.system fuel useWave prefill decode s).proc (0, 0)
        = (StageResult.root <$> S.inference useWave prefill decode s.root).run := by
      simp [system, Nat.not_le.mpr hpos]
    have hresult : S.result (S.finished s') (0, 0) = .root (lastRoot s'.root) := by
      simp [result, finished, Nat.not_le.mpr hpos]
    rw [hproc, hresult]
    exact hroot
  · intro r hr hlt
    have hproc : (S.system fuel useWave prefill decode s).proc (r, 0)
        = (StageResult.worker <$> S.stageLoop r fuel (s.worker r)).run := by
      simp [system, Nat.not_le.mpr hlt, Nat.ne_of_gt hr]
    have hresult : S.result (S.finished s') (r, 0)
        = .worker (S.stopped (lastRoot s'.root).controlPacket s'.worker r) := by
      simp [result, finished, Nat.not_le.mpr hlt, Nat.ne_of_gt hr]
    rcases Nat.exists_eq_add_of_lt hfuel with ⟨k, rfl⟩
    rw [hproc, hresult, List.flatMap_append, List.flatMap_singleton, Nat.add_assoc]
    refine Runs.map ?_ StageResult.worker
    exact hruns.stageLoop hr hlt (stop_runs S hpacket s'.worker hr hlt k)
  · intro p hp
    have hout : p.2 ≠ 0 ∨ S.ppSize ≤ p.1 := by
      by_contra hin
      push Not at hin
      exact hp p.1 hin.2 (Prod.ext rfl hin.1)
    simp only [system, result, if_pos hout]

/-- A request completes, and every node ends as in lockstep. -/
theorem RequestCalls.completes {prefill decode : List ForwardCall}
    (h : RequestCalls S useWave prefill decode) (hs : Steady S s) {fuel : Nat}
    (hfuel : (prefill ++ decode).length < fuel) (cap : Port → Nat) :
    ∃ s', S.lockstep useWave (prefill ++ decode) s = .ok s' ∧
      Completes (mainNet cap) (S.system fuel useWave prefill decode s)
        (fun p => .ok (S.result s' p)) ∧
      (∀ q, Agrees S s q → s.root.controlPacket.pipelineDelta ≠ 1 →
        s.root.pipeline.deltaEnabled = false →
        (S.sequential useWave (prefill ++ decode) q).pipes = s'.root.pipes ∧
        ∀ r, 0 < r → r < S.ppSize → (S.sequential useWave (prefill ++ decode) q).memory r
          = (s'.worker r).memory) := by
  rcases lockCalls_ok useWave hs h.fits with ⟨s', Rs, hcalls, hs', hruns, hagrees⟩
  refine ⟨S.finished s', ?_, (h.plays hruns hs'.packet hfuel cap).completes,
    fun q hq hoff hroot => ?_⟩
  · simp only [lockstep, hcalls, bind, Except.bind, pure, Except.pure, finished]
  · have hfinal := hagrees q hq hoff hroot
    refine ⟨hfinal.pipes, fun r hr hlt => (hfinal.memory r hr hlt).trans ?_⟩
    simp only [finished, stopped, hr, hlt, and_self, if_true]

/-! ## The calls of `inference()` -/

section Calls

variable {total prefillBatchCap : Nat}

omit [Add F] [Sub F] [Zero F] [One F] [LE F] [DecidableLE F] [LT F] [DecidableLT F] [NatCast F]
  [Div F] in
/-- Only the last chunk of a wave asks for logits. -/
theorem prefillCalls_wave (hcap : 0 < prefillBatchCap) {fuel pos : Nat}
    (hfuel : total ≤ pos + fuel) : Wave (prefillCalls true total prefillBatchCap fuel pos) := by
  induction fuel generalizing pos with
  | zero => exact .nil
  | succ fuel ih =>
      by_cases hpos : pos < total
      · rw [prefillCalls_succ fuel hpos]
        by_cases hlast : total ≤ pos + min (total - pos) prefillBatchCap
        · rw [prefillCalls_done fuel hlast]
          exact .last (decide_eq_true hlast) rfl
        · have hrest : Wave (prefillCalls true total prefillBatchCap fuel
              (pos + min (total - pos) prefillBatchCap)) := ih (by omega)
          cases fuel with
          | zero => omega
          | succ fuel =>
              rw [prefillCalls_succ fuel (Nat.not_le.mp hlast)] at hrest ⊢
              exact .more (decide_eq_false hlast) rfl hrest
      · rw [prefillCalls_done _ (Nat.not_lt.mp hpos)]
        exact .nil

omit [Add F] [Sub F] [Zero F] [One F] [LE F] [DecidableLE F] [LT F] [DecidableLT F] [NatCast F]
  [Div F] in
theorem prefillCalls_blocking {fuel pos : Nat} {c : ForwardCall} (hcap : 0 < prefillBatchCap)
    (hc : c ∈ prefillCalls false total prefillBatchCap fuel pos) :
    c.isLastPrefillChunk = true ∧ c.decodePhase = false := by
  refine ⟨?_, (prefillCalls_mem hcap hc).2.2.2⟩
  induction fuel generalizing pos with
  | zero => cases hc
  | succ fuel ih =>
      by_cases hpos : pos < total
      · rw [prefillCalls_succ fuel hpos] at hc
        rcases List.mem_cons.mp hc with rfl | hc
        · rfl
        · exact ih hc
      · rw [prefillCalls_done _ (Nat.not_lt.mp hpos)] at hc
        cases hc

omit [Add F] [Sub F] [Zero F] [One F] [LE F] [DecidableLE F] [LT F] [DecidableLT F] [NatCast F]
  [Div F] in
theorem inferenceCalls_request (S : StageSetup β F σ) (useWave : Bool) (hcap : 0 < prefillBatchCap)
    (hle : prefillBatchCap ≤ S.nBatches) {total realTotal maxPos : Nat} (htotal : total ≤ 2 ^ 32)
    (hmax : maxPos ≤ 2 ^ 32) :
    RequestCalls S useWave (prefillCalls useWave total prefillBatchCap total 0)
      (decodeCalls realTotal maxPos) := by
  have hdecode : ∀ c ∈ decodeCalls realTotal maxPos, c = ⟨c.position, 1, true, true⟩ := by
    intro c hc
    rcases List.mem_map.mp hc with ⟨pos, -, rfl⟩
    rfl
  have hposition : ∀ c ∈ decodeCalls realTotal maxPos, c.position < maxPos := by
    intro c hc
    rcases List.mem_map.mp hc with ⟨pos, hpos, rfl⟩
    have hlt := List.mem_range'_1.mp hpos
    simp only
    omega
  refine ⟨fun c hc => ?_, ?_, hdecode⟩
  · rcases List.mem_append.mp hc with hc | hc
    · rcases prefillCalls_mem hcap hc with ⟨hpos, hbatch, hend, hphase⟩
      exact ⟨by omega, hpos, hbatch.trans hle,
        fun h => absurd (hphase.symm.trans h) Bool.false_ne_true⟩
    · rw [hdecode c hc]
      exact ⟨(hposition c hc).trans_le hmax, Nat.one_pos, S.nBatches_pos, fun _ => rfl⟩
  · cases useWave with
    | true => exact prefillCalls_wave hcap (Nat.le_add_left _ _)
    | false => exact fun c hc => prefillCalls_blocking hcap hc

end Calls

end Requests

end StageSetup

end Pipeline
end PrefillOpt
