import PrefillOpt.Pipeline.StageSkip

/-!
# Pipeline.SkipLanes — stage skipping with several nodes per stage

A stage of `spSize` sequence-parallel ranks is `spSize` nodes.  Each hands its rows to the node of
its own rank in the next stage, and a decode step makes no rank wait for another: the K/V rows are
exchanged in prefill only.  Rank 0 of the last stage answers the root, which so waits for its own
lane alone.  The polls of the post-target stage may run into their timeout here.

With one node per stage and no timeout this is the protocol of `SkipSetup`.
-/

namespace PrefillOpt
namespace Pipeline

open Relation Lib

variable {F : Type}

/-! ## The setting -/

structure LaneSetup (F : Type) extends SkipSetup F where
  spSize : Nat
  spSize_pos : 0 < spSize

inductive LaneAction (F : Type) where
  | step (a : SkipAction F)
  /-- A poll of the normal source has found nothing, and 30 s are over. -/
  | pollTimeout (n : Nat)

namespace LaneSetup

variable (L : LaneSetup F)

/-- Node `n` of the cluster is `ppRank * spSize + spRank`. -/
def place (n : Nat) : StagePlace := ⟨L.ppSize, n / L.spSize, n % L.spSize, 0⟩

/-- The node of a stage in the lane of node `n`. -/
def node (ppRank n : Nat) : Nat := ppRank * L.spSize + n % L.spSize

/-- The nodes that `writeAll` reaches. -/
def workers : List Nat := List.range' 1 (L.ppSize * L.spSize - 1)

def nextRound (k : Nat) : RootPc :=
  if k < L.nTokens then .write L.workers else .finished

/-! ## Steps -/

def rootSend (s : SkipState F) (chunked delta : Bool) : Option (SkipState F) :=
  match s.rootPc with
  | .send =>
      let o : Outgoing := ⟨1, L.position s.token, .xPipe, 0⟩
      some { s.push 0 (L.node 1 0) (.activation (L.header o chunked delta)) with
        rootPc := .receive }
  | _ => none

def rootReceive (s : SkipState F) : Option (SkipState F) :=
  let upstream := L.node (L.ppSize - 1) 0
  match s.rootPc, s.link (upstream, 0) with
  | .receive, .activation _ :: rest =>
      some { s.setLink upstream 0 rest with
        rootPc := L.nextRound (s.token + 1)
        token := s.token + 1 }
  | .receive, .control _ :: rest =>
      some { s.setLink upstream 0 rest with rootPc := .failed "no activation" }
  | _, _ => none

def send (s : SkipState F) (n : Nat) (chunked delta : Bool) : Option (SkipState F) :=
  let st := s.stage n
  match st.pc with
  | .send (o :: outs) =>
      some ((s.push n (L.node o.targetPpRank n)
        (.activation (L.header o chunked delta))).setStage n
          { st with pc := SkipSetup.afterSends outs })
  | _ => none

def pollTimeout (s : SkipState F) (n : Nat) : Option (SkipState F) :=
  let st := s.stage n
  match st.pc, st.worker.sources (L.place n) with
  | .receive false, .poll _ normalSource =>
      match s.link (L.node normalSource n, n) with
      | [] => some (s.setStage n { st with
          pc := .failed "Stage-skip polling timeout waiting for pp3/pp4 activation" })
      | _ :: _ => none
  | _, _ => none

section Decision

variable [Zero F] [One F] [LE F] [DecidableLE F] [LT F] [DecidableLT F] [NatCast F] [Div F]

def receiveFrom (s : SkipState F) (source n : Nat) (metric : Option F) : Option (SkipState F) :=
  match s.link (source, n) with
  | [] => none
  | m :: rest =>
      some ((s.setLink source n rest).setStage n
        (SkipSetup.handleAt (L.place n) (s.stage n) metric m))

def receive (s : SkipState F) (n : Nat) (metric : Option F) : Option (SkipState F) :=
  let st := s.stage n
  match st.pc with
  | .receive bypassNext =>
      match st.worker.sources (L.place n) with
      | .none =>
          -- a worker of the first stage goes on to its forward
          let (w, outs) := st.worker.beginToken.afterForward (L.place n)
          some (s.setStage n { st with worker := w, pc := SkipSetup.afterSends outs })
      | .one source => L.receiveFrom s (L.node source n) n metric
      | .poll bypassSource normalSource =>
          let source := L.node (if bypassNext then bypassSource else normalSource) n
          some ((L.receiveFrom s source n metric).getD
            (s.setStage n { st with pc := .receive !bypassNext }))
  | _ => none

def step (s : SkipState F) : LaneAction F → Option (SkipState F)
  | .step (.writeControl n) => L.writeControl s n
  | .step (.rootSend chunked delta) => L.rootSend s chunked delta
  | .step .rootReceive => L.rootReceive s
  | .step (.readControl n) => if n ∈ L.workers then L.readControl s n else none
  | .step (.receive n metric) => if n ∈ L.workers then L.receive s n metric else none
  | .step (.send n chunked delta) => if n ∈ L.workers then L.send s n chunked delta else none
  | .pollTimeout n => if n ∈ L.workers then L.pollTimeout s n else none

def Step (s s' : SkipState F) : Prop := ∃ a, L.step s a = some s'

/-- A step in which no poll times out. -/
def UntimedStep (s s' : SkipState F) : Prop := ∃ a, L.step s (.step a) = some s'

def runActions (s : SkipState F) (as : List (LaneAction F)) : Option (SkipState F) :=
  as.foldlM L.step s

end Decision

/-- The prefill is over. -/
def start (worker : Nat → WorkerLlmInference F) : SkipState F :=
  { L.toSkipSetup.start worker with rootPc := L.nextRound 0 }

/-! ## One node per stage -/

section OneLane

variable {L} (hone : L.spSize = 1)
include hone

theorem place_one (n : Nat) : L.place n = L.toSkipSetup.place n := by
  rw [place, hone, Nat.div_one, Nat.mod_one]
  rfl

theorem node_one (ppRank n : Nat) : L.node ppRank n = ppRank := by
  rw [node, hone, Nat.mul_one, Nat.mod_one, Nat.add_zero]

theorem workers_one : L.workers = L.toSkipSetup.workers := by
  rw [workers, hone, Nat.mul_one]
  rfl

theorem nextRound_one (k : Nat) : L.nextRound k = L.toSkipSetup.nextRound k := by
  rw [nextRound, workers_one hone]
  rfl

theorem start_one (worker : Nat → WorkerLlmInference F) :
    L.start worker = L.toSkipSetup.start worker := by
  rw [start, nextRound_one hone]
  rfl

theorem rootSend_one (s : SkipState F) (chunked delta : Bool) :
    L.rootSend s chunked delta = L.toSkipSetup.rootSend s chunked delta := by
  unfold rootSend SkipSetup.rootSend
  cases s.rootPc with
  | send =>
      dsimp only
      rw [node_one hone]
  | _ => rfl

theorem rootReceive_one (s : SkipState F) : L.rootReceive s = L.toSkipSetup.rootReceive s := by
  unfold rootReceive SkipSetup.rootReceive
  dsimp only
  rw [node_one hone]
  cases s.rootPc with
  | receive =>
      cases s.link (L.ppSize - 1, 0) with
      | nil => rfl
      | cons m rest =>
          cases m with
          | control packet => rfl
          | activation header =>
              dsimp only
              rw [nextRound_one hone]
  | _ => rfl

theorem send_one (s : SkipState F) (n : Nat) (chunked delta : Bool) :
    L.send s n chunked delta = L.toSkipSetup.send s n chunked delta := by
  unfold send SkipSetup.send
  dsimp only
  cases (s.stage n).pc with
  | send outs =>
      cases outs with
      | nil => rfl
      | cons o outs =>
          dsimp only
          rw [node_one hone]
  | _ => rfl

section Steps

variable [Zero F] [One F] [LE F] [DecidableLE F] [LT F] [DecidableLT F] [NatCast F] [Div F]

theorem receive_one {n : Nat} (hn : 1 ≤ n) (s : SkipState F) (metric : Option F) :
    L.receive s n metric = L.toSkipSetup.receive s n metric := by
  have hfrom (source : Nat) :
      L.receiveFrom s source n metric = L.toSkipSetup.receiveFrom s source n metric := by
    unfold receiveFrom SkipSetup.receiveFrom SkipSetup.handle
    cases s.link (source, n) with
    | nil => rfl
    | cons m rest =>
        dsimp only
        rw [place_one hone]
  have hsources : (s.stage n).worker.sources (L.toSkipSetup.place n) ≠ .none := by
    have hrecv : (L.toSkipSetup.place n).shouldRecvActivations = true := decide_eq_true hn
    unfold WorkerLlmInference.sources
    rw [hrecv]
    simp only [Bool.not_true, Bool.false_eq_true, if_false]
    split_ifs <;> exact nofun
  unfold receive SkipSetup.receive
  simp only [place_one hone, node_one hone, hfrom]
  cases hpc : (s.stage n).pc with
  | receive bypassNext =>
      cases hs : (s.stage n).worker.sources (L.toSkipSetup.place n) with
      | none => exact absurd hs hsources
      | one source => rfl
      | poll bypassSource normalSource => rfl
  | _ => rfl

theorem step_one (s : SkipState F) (a : SkipAction F) :
    L.step s (.step a) = L.toSkipSetup.step s a := by
  cases a with
  | writeControl n => rfl
  | rootSend chunked delta => exact rootSend_one hone s chunked delta
  | rootReceive => exact rootReceive_one hone s
  | readControl n => simp only [step, SkipSetup.step, workers_one hone]
  | receive n metric =>
      simp only [step, SkipSetup.step, workers_one hone]
      split_ifs with hmem
      · exact receive_one hone (SkipSetup.mem_workers.1 hmem).1 s metric
      · rfl
  | send n chunked delta =>
      simp only [step, SkipSetup.step, workers_one hone, send_one hone]

theorem untimedStep_one : L.UntimedStep = L.toSkipSetup.SkipStep := by
  funext s s'
  simp only [UntimedStep, SkipSetup.SkipStep, step_one hone]

end Steps

end OneLane

section Runs

variable {L} [Zero F] [One F] [LE F] [DecidableLE F] [LT F] [DecidableLT F] [NatCast F] [Div F]
  {s s' : SkipState F}

theorem runActions_reach {as : List (LaneAction F)} (h : L.runActions s as = some s') :
    ReflTransGen L.Step s s' := by
  induction as generalizing s with
  | nil =>
      cases h
      exact .refl
  | cons a as ih =>
      rw [runActions, List.foldlM_cons] at h
      rcases Option.bind_eq_some_iff.mp h with ⟨t, hstep, hrest⟩
      exact .head ⟨a, hstep⟩ (ih hrest)

end Runs

end LaneSetup

/-! ## Where the stages lose their tokens -/

/-- The four stages with `n` nodes each. -/
def fourStagesOf (n : Nat) (hn : 0 < n) : LaneSetup Nat :=
  ⟨fourStages, n, hn⟩

/-- The control packets of a token for both nodes of four stages, and the root's activation. -/
def beginTwoLanes : List (SkipAction Nat) :=
  [.writeControl 1, .writeControl 2, .writeControl 3, .writeControl 4, .writeControl 5,
    .writeControl 6, .writeControl 7, .rootSend false false]

/-- The first token goes through the root's lane; in the other lane it waits at the target, and the
second token goes past it. -/
def secondLaneLags : List (SkipAction Nat) :=
  beginTwoLanes ++
  [.readControl 2, .receive 2 none, .send 2 false false,
    .readControl 4, .receive 4 none, .send 4 false false,
    .readControl 6, .receive 6 none, .receive 6 none, .send 6 false false, .rootReceive,
    .readControl 1, .receive 1 none, .send 1 false false,
    .readControl 3, .receive 3 none, .send 3 false false] ++
  beginTwoLanes ++
  [.readControl 1, .receive 1 none, .send 1 false false,
    .readControl 3, .receive 3 (some 0), .send 3 false false, .send 3 false false,
    .readControl 7, .receive 7 none]

end Pipeline
end PrefillOpt
