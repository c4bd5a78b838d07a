import PrefillOpt.Pipeline.StagePipeline

/-!
# Pipeline.StageDeliveries — what the links of a request carry

A request of `inference()` is a list of rounds, one for each call of the root, and the round of the
stop packet.  In a round every stage hears the packet, takes what the stage before it hands on in
this round, runs one forward and hands on its own message; the root takes the logits that the last
stage hands back in the round of the chunk or token it waits for (`CallRuns`).

The histories of a run say that the links carry these rounds and nothing else.
-/

namespace PrefillOpt
namespace Pipeline

open Lib Network

variable {β F σ : Type}

namespace StageSetup

section Requests

variable [Add F] [Sub F] [Zero F] [One F] [LE F] [DecidableLE F] [LT F] [DecidableLT F]
variable [NatCast F] [Div F]
variable {S : StageSetup β F σ} {useWave : Bool} {s s' : Stages β F σ} {Rs : List (Round β)}

/-- In the end a link has carried what its sender handed on in the rounds, in their order, and all
of it has been taken. -/
theorem RequestCalls.delivers {prefill decode : List ForwardCall}
    (h : RequestCalls S useWave prefill decode)
    (hruns : LockRuns S useWave (prefill ++ decode) s s' Rs)
    (hpacket : s'.root.controlPacket.Fits) {fuel : Nat}
    (hfuel : (prefill ++ decode).length < fuel) (cap : Port → Nat)
    {d : Config Party Port β (Except String (StageResult β F σ) × List (Call Port β))}
    (hd : Reach (mainNet cap) (S.system fuel useWave prefill decode s).logged d) (hfin : d.Final)
    {i j : Nat} (hi : i < S.ppSize) (hj : j < S.ppSize) (hij : i ≠ j) :
    let sent := Call.written (port i j) (d.history (i, 0))
    sent = (Rs ++ [stopRound S s'.root]).flatMap (fun R => R.carried S.ppSize i j) ∧
      Call.taken (port j i) (d.history (j, 0)) = sent := by
  have hplays := h.plays hruns hpacket hfuel cap
  rcases hplays.completes_logged fun _ => rfl with ⟨calls, hcomp, hcalls⟩
  have hlink := hcalls (port i j)
  have hround : ∀ R : Round β,
      LEv.outs (port i j) (view (mainNet cap) (i, 0) (R.events S.ppSize port))
        = R.carried S.ppSize i j := fun R => (mesh S cap).outs_round R hi hj hij
  simp only [mainNet, socketNet_owner, socketNet_peer, farEnd_port hij.symm, port_fst] at hlink
  simp only [hcomp.history_eq hd hfin]
  refine ⟨hlink.1.trans ?_, hlink.2⟩
  -- the schedule is the rounds one after the other, so the link carries round after round
  rw [view_flatMap, LEv.outs_flatMap]
  exact List.flatMap_congr fun R _ => hround R

end Requests

section Requests

variable [Add F] [Sub F] [Zero F] [One F] [LE F] [DecidableLE F] [LT F] [DecidableLT F]
variable [NatCast F] [Div F]
variable (S : StageSetup β F σ) (tileAlignedSchedule useWave : Bool)
variable {realTotal prefillBatchCap maxPos fuel : Nat} {s : Stages β F σ}

/-- Whatever the links hold and in whatever order the nodes move, nobody waits forever, and no
packet, activation or logits are lost, taken twice or taken in another's place: each link carries
the messages of the rounds, one round for each call, and the node at its end takes them all. -/
theorem inference_delivers (hs : Fresh S s) (hcap : 0 < prefillBatchCap)
    (hle : prefillBatchCap ≤ S.nBatches)
    (hsched : schedTotal tileAlignedSchedule realTotal ≤ 2 ^ 32) (hmax : maxPos ≤ 2 ^ 32)
    (hfuel : (inferenceCalls tileAlignedSchedule useWave realTotal prefillBatchCap maxPos).length
      < fuel) (cap : Port → Nat) :
    let system :=
      S.inferenceSystem fuel tileAlignedSchedule useWave realTotal prefillBatchCap maxPos s
    ∃ s' Rs, LockRuns S useWave
        (inferenceCalls tileAlignedSchedule useWave realTotal prefillBatchCap maxPos) s s' Rs ∧
      Completes (mainNet cap) system (fun p => .ok (S.result (S.finished s') p)) ∧
      ∀ d, Reach (mainNet cap) system.logged d → d.Final →
        ∀ i j, i < S.ppSize → j < S.ppSize → i ≠ j →
          let sent := Call.written (port i j) (d.history (i, 0))
          sent = (Rs ++ [stopRound S s'.root]).flatMap (fun R => R.carried S.ppSize i j) ∧
            Call.taken (port j i) (d.history (j, 0)) = sent := by
  have hrequest : RequestCalls S useWave
      (prefillCalls useWave (schedTotal tileAlignedSchedule realTotal) prefillBatchCap
        (schedTotal tileAlignedSchedule realTotal) 0)
      (decodeCalls realTotal maxPos) := inferenceCalls_request S useWave hcap hle hsched hmax
  rcases lockCalls_ok useWave hs.steady hrequest.fits with ⟨s', Rs, -, hs', hruns, -⟩
  refine ⟨s', Rs, hruns, (hrequest.plays hruns hs'.packet hfuel cap).completes,
    fun d hd hfin i j hi hj hij => ?_⟩
  exact hrequest.delivers hruns hs'.packet hfuel cap hd hfin hi hj hij

/-- A prompt of four tokens in a wave of two chunks and two decoded tokens, on links that hold
nothing. -/
theorem inference_delivers_wave :
    let system := twoStageSetup.inferenceSystem 5 false true 3 2 5 twoStageStart
    ∃ s' Rs, LockRuns twoStageSetup true (inferenceCalls false true 3 2 5) twoStageStart s' Rs ∧
      Completes (mainNet fun _ => 0) system
        (fun p => .ok (twoStageSetup.result (twoStageSetup.finished s') p)) ∧
      ∀ d, Reach (mainNet fun _ => 0) system.logged d → d.Final →
        ∀ i j, i < 2 → j < 2 → i ≠ j →
          let sent := Call.written (port i j) (d.history (i, 0))
          sent = (Rs ++ [stopRound twoStageSetup s'.root]).flatMap (fun R => R.carried 2 i j) ∧
            Call.taken (port j i) (d.history (j, 0)) = sent :=
  inference_delivers twoStageSetup false true twoStageStart_fresh Nat.two_pos (Nat.le_refl 2)
    (by decide) (by decide) (by decide) _

end Requests

end StageSetup

end Pipeline
end PrefillOpt
