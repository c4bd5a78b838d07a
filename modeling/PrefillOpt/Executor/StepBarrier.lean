import PrefillOpt.Executor.Threads
import PrefillOpt.Lib.Transition

/-!
# StepBarrier — what holds between the threads at every moment

While a forward is in progress, a thread has either not joined it yet, or is in its step loop, or
has left the loop.  `currentStepIndex` stands still until every thread has counted itself for its
step, and the forward ends once every thread has counted itself for the run.
-/

namespace PrefillOpt
namespace Executor

open Lib

variable {n nSteps : Nat}

/-! ## Where the threads are -/

/-- Outside the step loop, waiting for the next forward. -/
def WorkerPc.parked : WorkerPc → Bool
  | .lock | .waitShutdown | .waitEpoch | .asleep | .notify => true
  | _ => false

/-- Between the moment when `forward` has advanced the epoch and its return. -/
def MainPc.running : MainPc → Bool
  | .idle | .lock | .storeAlive | .storeStep | .storeDone | .storeDoneRun | .storeRunDone
  | .storeBatch | .addEpoch => false
  | _ => true

namespace Worker

/-- Counted in `doneThreadCount` for the step `cur`, and waiting for the next one. -/
def spinning (cur : Nat) (w : Worker) : Bool :=
  match w.pc with
  | .spin _ step => step = cur
  | _ => false

/-- The last one of a step, which moves everybody to the next step. -/
def leading (w : Worker) : Bool :=
  match w.pc with
  | .resetDone _ | .advance _ => true
  | _ => false

def advancing (w : Worker) : Bool :=
  match w.pc with
  | .advance _ => true
  | _ => false

def counted (cur : Nat) (w : Worker) : Bool :=
  w.spinning cur || w.leading

/-- The last one to leave the loop, which ends the forward. -/
def ending (w : Worker) : Bool :=
  w.pc = .setRunDone

/-- Out of the loop of the forward number `round`. -/
def left (round : Nat) (w : Worker) : Bool :=
  w.round = round && (w.pc.parked || w.ending)

/-- Where a thread can be.  It has joined the latest forward, or it has not and then nobody has got
past the first step. -/
def Ok (nSteps : Nat) (running : Bool) (round cur : Nat) (w : Worker) : Prop :=
  w.localEpoch = UInt32.ofNat w.round ∧
    match w.pc with
    | .lock | .waitShutdown | .waitEpoch | .asleep | .notify =>
        (w.round = round ∧ (running → cur = nSteps)) ∨ (running ∧ w.round + 1 = round ∧ cur = 0)
    | .checkShutdown | .loadEpoch => running ∧ w.round + 1 = round ∧ cur = 0
    | .checkAlive | .loadStep => running ∧ w.round = round ∧ cur ≤ nSteps
    | .execute step | .executing step | .countDone step | .resetDone step | .advance step =>
        running ∧ w.round = round ∧ step = cur ∧ cur < nSteps
    | .spin _ step =>
        running ∧ w.round = round ∧ (step = cur ∨ step + 1 = cur) ∧ cur ≤ nSteps ∧ step < nSteps
    | .countRun | .setRunDone => running ∧ w.round = round ∧ cur = nSteps
    | .stopped => False

/-- What the counters see of a thread. -/
structure SameFlags (round cur : Nat) (w w' : Worker) : Prop where
  spinning : w'.spinning cur = w.spinning cur
  leading : w'.leading = w.leading
  advancing : w'.advancing = w.advancing
  left : w'.left round = w.left round
  ending : w'.ending = w.ending

end Worker

/-- What `forward` has prepared before the next store. -/
def MainPc.Ok (ctx : NnExecutorContext) (batchSize : Nat) : MainPc → Prop
  | .storeDone => ctx.currentStepIndex = 0
  | .storeDoneRun => ctx.currentStepIndex = 0 ∧ ctx.doneThreadCount = 0
  | .storeRunDone =>
      ctx.currentStepIndex = 0 ∧ ctx.doneThreadCount = 0 ∧ ctx.doneRunThreadCount = 0
  | .storeBatch =>
      ctx.currentStepIndex = 0 ∧ ctx.doneThreadCount = 0 ∧ ctx.doneRunThreadCount = 0 ∧
        ctx.isRunDone = false
  | .addEpoch =>
      ctx.currentStepIndex = 0 ∧ ctx.doneThreadCount = 0 ∧ ctx.doneRunThreadCount = 0 ∧
        ctx.isRunDone = false ∧ ctx.batchSize = batchSize
  | .unlockWait | .checkAlive => ctx.isRunDone = true
  | .threw => False
  | _ => True

/-! ## The invariant -/

/-- `doneThreadCount` counts the threads that wait for the next step; once the last one has reset
it, they are all still waiting. -/
structure StepCounts (ctx : NnExecutorContext) (workers : Fin n → Worker) : Prop where
  done : ctx.doneThreadCount + n * count Worker.advancing workers
    = count (Worker.counted ctx.currentStepIndex) workers
  leader : ∀ t, (workers t).leading = true → ∀ t', t' ≠ t →
    (workers t').spinning ctx.currentStepIndex = true

/-- `doneRunThreadCount` counts the threads that have left the loop. -/
structure RunCounts (ctx : NnExecutorContext) (round : Nat) (workers : Fin n → Worker) : Prop where
  doneRun : ctx.doneRunThreadCount = count (Worker.left round) workers
  ender : ∀ t, (workers t).ending = true → ∀ t', t' ≠ t →
    (workers t').left round = true ∧ (workers t').ending = false
  runDone : ctx.isRunDone = true → ∀ t,
    (workers t).left round = true ∧ (workers t).ending = false

/-- What the counters say while the forward number `round` is in progress. -/
structure Counts (ctx : NnExecutorContext) (batchSize round : Nat) (workers : Fin n → Worker) :
    Prop where
  batch : ctx.batchSize = batchSize
  steps : StepCounts ctx workers
  run : RunCounts ctx round workers

structure Inv (nSteps : Nat) (s : State n) : Prop where
  alive : s.ctx.isAlive = true
  notShutdown : s.ctx.isShutdown = false
  epoch : s.ctx.epoch = UInt32.ofNat s.round
  round : s.round = s.returned + if s.main.running then 1 else 0
  calls : s.calls.length = s.returned + if s.main = .idle then 0 else 1
  main : s.main.Ok s.ctx (s.calls.getLastD 0)
  workers : ∀ t, (s.workers t).Ok nSteps s.main.running s.round s.ctx.currentStepIndex
  counts : s.main.running = true → Counts s.ctx (s.calls.getLastD 0) s.round s.workers

theorem init_inv : Inv nSteps (State.init n) where
  alive := rfl
  notShutdown := rfl
  epoch := rfl
  round := rfl
  calls := rfl
  main := trivial
  workers _ := ⟨rfl, .inl ⟨rfl, Bool.noConfusion⟩⟩
  counts := Bool.noConfusion

/-! ## Moves that no counter sees -/

theorem Worker.SameFlags.refl (round cur : Nat) (w : Worker) : Worker.SameFlags round cur w w :=
  ⟨rfl, rfl, rfl, rfl, rfl⟩

/-- Every thread but one is as it was. -/
theorem forall_update {workers : Fin n → Worker} {Q : Fin n → Worker → Prop} {t : Fin n}
    {w : Worker} (hw : Q t w) (h : ∀ t', t' ≠ t → Q t' (workers t')) (t' : Fin n) :
    Q t' (Function.update workers t w t') := by
  by_cases ht : t' = t
  · subst ht
    rw [Function.update_self]
    exact hw
  · rw [Function.update_of_ne ht]
    exact h t' ht

theorem StepCounts.congr {ctx ctx' : NnExecutorContext} {workers workers' : Fin n → Worker}
    (h : StepCounts ctx workers) (hdone : ctx'.doneThreadCount = ctx.doneThreadCount)
    (hcur : ctx'.currentStepIndex = ctx.currentStepIndex)
    (hspinning : ∀ t, (workers' t).spinning ctx.currentStepIndex
      = (workers t).spinning ctx.currentStepIndex)
    (hleading : ∀ t, (workers' t).leading = (workers t).leading)
    (hadvancing : ∀ t, (workers' t).advancing = (workers t).advancing) :
    StepCounts ctx' workers' := by
  have hcountAdvancing : count Worker.advancing workers' = count Worker.advancing workers :=
    count_congr hadvancing
  have hcounted : count (Worker.counted ctx.currentStepIndex) workers'
      = count (Worker.counted ctx.currentStepIndex) workers :=
    count_congr fun t => congrArg₂ or (hspinning t) (hleading t)
  constructor
  · rw [hdone, hcur, hcountAdvancing, hcounted]
    exact h.done
  · intro t₁ h₁ t₂ h₂
    rw [hleading t₁] at h₁
    rw [hcur, hspinning t₂]
    exact h.leader t₁ h₁ t₂ h₂

theorem RunCounts.congr {ctx ctx' : NnExecutorContext} {round : Nat}
    {workers workers' : Fin n → Worker} (h : RunCounts ctx round workers)
    (hdone : ctx'.doneRunThreadCount = ctx.doneRunThreadCount)
    (hrun : ctx'.isRunDone = ctx.isRunDone)
    (hleft : ∀ t, (workers' t).left round = (workers t).left round)
    (hending : ∀ t, (workers' t).ending = (workers t).ending) :
    RunCounts ctx' round workers' := by
  have hcount : count (Worker.left round) workers' = count (Worker.left round) workers :=
    count_congr hleft
  refine ⟨?_, ?_, ?_⟩
  · rw [hdone, hcount]
    exact h.doneRun
  · intro t₁ h₁ t₂ h₂
    rw [hending t₁] at h₁
    rw [hleft t₂, hending t₂]
    exact h.ender t₁ h₁ t₂ h₂
  · intro hall t
    rw [hleft t, hending t]
    exact h.runDone (hrun ▸ hall) t

theorem Counts.congr {ctx ctx' : NnExecutorContext} {batchSize round : Nat}
    {workers workers' : Fin n → Worker} (h : Counts ctx batchSize round workers)
    (hctx : ctx' = { ctx with locked := ctx'.locked })
    (hflags : ∀ t, Worker.SameFlags round ctx.currentStepIndex (workers t) (workers' t)) :
    Counts ctx' batchSize round workers' := by
  rw [hctx]
  refine ⟨h.batch, h.steps.congr rfl rfl ?_ ?_ ?_, h.run.congr rfl rfl ?_ ?_⟩
  · exact fun t => (hflags t).spinning
  · exact fun t => (hflags t).leading
  · exact fun t => (hflags t).advancing
  · exact fun t => (hflags t).left
  · exact fun t => (hflags t).ending

/-- The thread `t` moves and no counter sees it. -/
theorem Inv.move {s : State n} (h : Inv nSteps s) (t : Fin n) {w : Worker} (locked : Bool)
    (history : List (Event n))
    (hok : w.Ok nSteps s.main.running s.round s.ctx.currentStepIndex)
    (hflags : s.main.running = true →
      Worker.SameFlags s.round s.ctx.currentStepIndex (s.workers t) w) :
    Inv nSteps { s with
      ctx := { s.ctx with locked := locked }
      workers := Function.update s.workers t w
      history := history } where
  alive := h.alive
  notShutdown := h.notShutdown
  epoch := h.epoch
  round := h.round
  calls := h.calls
  main := by
    have hmain := h.main
    cases hpc : s.main <;> rw [hpc] at hmain <;> exact hmain
  workers := forall_update hok fun t' _ => h.workers t'
  counts hrunning := (h.counts hrunning).congr rfl (forall_update (hflags hrunning)
    fun _ _ => .refl ..)

/-! ## The steps of a worker -/

theorem ofNat_succ_ne (m : Nat) : UInt32.ofNat (m + 1) ≠ UInt32.ofNat m := by
  intro h
  have hnat := congrArg UInt32.toNat h
  rw [UInt32.toNat_ofNat', UInt32.toNat_ofNat'] at hnat
  omega

section WorkerSteps

variable {s : State n} {t : Fin n}

/-- A thread goes on to another program counter and no counter sees it. -/
theorem Inv.goto (h : Inv nSteps s) {pc : WorkerPc} {localEpoch : UInt32} {round : Nat}
    (hw : s.workers t = ⟨pc, localEpoch, round⟩) {pc' : WorkerPc} (locked : Bool)
    (history : List (Event n))
    (hok : Worker.Ok nSteps s.main.running s.round s.ctx.currentStepIndex ⟨pc', localEpoch, round⟩)
    (hflags : s.main.running = true →
      Worker.SameFlags s.round s.ctx.currentStepIndex ⟨pc, localEpoch, round⟩
        ⟨pc', localEpoch, round⟩) :
    Inv nSteps (({ s with
      ctx := { s.ctx with locked := locked }
      history := history } : State n).setPc t pc') := by
  rw [← hw] at hflags
  have hmove := h.move t locked history hok hflags
  have hpc : ({ s.workers t with pc := pc' } : Worker) = ⟨pc', localEpoch, round⟩ := by rw [hw]
  rw [← hpc] at hmove
  exact hmove

/-- The steps of a thread that none of the counters sees. -/
theorem workerStep_quiet (h : Inv nSteps s) {s' : State n} {pc : WorkerPc} {localEpoch : UInt32}
    {round : Nat} (hw : s.workers t = ⟨pc, localEpoch, round⟩)
    (hpc : pc.parked = true ∨ pc = .checkShutdown ∨ pc = .checkAlive ∨ pc = .loadStep ∨
      ∃ step, pc = .execute step ∨ pc = .executing step ∨ ∃ load, pc = .spin load step)
    (hne : pc ≠ .notify) (hstep : workerStep nSteps t s = some s') : Inv nSteps s' := by
  have hok := h.workers t
  rw [hw] at hok
  have hlocal : localEpoch = UInt32.ofNat round := hok.1
  cases pc with
  | lock =>
      simp only [workerStep, hw] at hstep
      split_ifs at hstep
      cases hstep
      exact h.goto hw true s.history hok fun _ => ⟨rfl, rfl, rfl, rfl, rfl⟩
  | waitShutdown =>
      simp only [workerStep, hw, h.notShutdown, Bool.false_eq_true, if_false] at hstep
      cases hstep
      exact h.goto hw s.ctx.locked s.history hok fun _ => ⟨rfl, rfl, rfl, rfl, rfl⟩
  | waitEpoch =>
      simp only [workerStep, hw] at hstep
      cases hstep
      rcases hok.2 with ⟨hround, _⟩ | ⟨hrunning, hround, hcur⟩
      · have hsame : ¬ s.ctx.epoch ≠ localEpoch := by
          rw [h.epoch, hlocal, not_not]
          exact congrArg UInt32.ofNat hround.symm
        rw [if_neg hsame]
        exact h.goto hw false s.history hok fun _ => ⟨rfl, rfl, rfl, rfl, rfl⟩
      · have hnew : s.ctx.epoch ≠ localEpoch := by
          rw [h.epoch, hlocal, ← hround]
          exact ofNat_succ_ne _
        rw [if_pos hnew]
        refine h.goto hw false s.history ⟨hok.1, hrunning, hround, hcur⟩ fun _ => ?_
        have hold : round ≠ s.round := fun heq => Nat.succ_ne_self round (hround.trans heq.symm)
        exact ⟨rfl, rfl, rfl, by simp [Worker.left, hold], rfl⟩
  | checkShutdown =>
      simp only [workerStep, hw, h.notShutdown, Bool.false_eq_true, if_false] at hstep
      cases hstep
      exact h.goto hw s.ctx.locked s.history hok fun _ => ⟨rfl, rfl, rfl, rfl, rfl⟩
  | checkAlive =>
      simp only [workerStep, hw, h.alive, if_true] at hstep
      cases hstep
      exact h.goto hw s.ctx.locked s.history hok fun _ => ⟨rfl, rfl, rfl, rfl, rfl⟩
  | loadStep =>
      simp only [workerStep, hw] at hstep
      cases hstep
      rcases hok with ⟨hepoch, hrunning, hround, hcur⟩
      split_ifs with hlast
      · exact h.goto hw s.ctx.locked s.history ⟨hepoch, hrunning, hround, hlast⟩
          fun _ => ⟨rfl, rfl, rfl, rfl, rfl⟩
      · exact h.goto hw s.ctx.locked s.history
          ⟨hepoch, hrunning, hround, rfl, Nat.lt_of_le_of_ne hcur hlast⟩
          fun _ => ⟨rfl, rfl, rfl, rfl, rfl⟩
  | execute step =>
      simp only [workerStep, hw] at hstep
      cases hstep
      exact h.goto hw s.ctx.locked (s.history ++ [_]) hok fun _ => ⟨rfl, rfl, rfl, rfl, rfl⟩
  | executing step =>
      simp only [workerStep, hw] at hstep
      cases hstep
      exact h.goto hw s.ctx.locked (s.history ++ [_]) hok fun _ => ⟨rfl, rfl, rfl, rfl, rfl⟩
  | spin load step =>
      rcases hok with ⟨hepoch, hrunning, hround, hstep', hcur, hlt⟩
      cases load with
      | step =>
          simp only [workerStep, hw] at hstep
          cases hstep
          split_ifs with hsame
          · exact h.goto hw s.ctx.locked s.history
              ⟨hepoch, hrunning, hround, hstep', hcur, hlt⟩ fun _ => ⟨rfl, rfl, rfl, rfl, rfl⟩
          · refine h.goto hw s.ctx.locked s.history ⟨hepoch, hrunning, hround, hcur⟩ fun _ => ?_
            have hpast : step ≠ s.ctx.currentStepIndex := fun heq => hsame heq.symm
            exact ⟨by simp [Worker.spinning, hpast], rfl, rfl, rfl, rfl⟩
      | alive =>
          simp only [workerStep, hw, h.alive, if_true] at hstep
          cases hstep
          exact h.goto hw s.ctx.locked s.history ⟨hepoch, hrunning, hround, hstep', hcur, hlt⟩
            fun _ => ⟨rfl, rfl, rfl, rfl, rfl⟩
      | shutdown =>
          simp only [workerStep, hw, h.notShutdown, Bool.false_eq_true, if_false] at hstep
          cases hstep
          exact h.goto hw s.ctx.locked s.history ⟨hepoch, hrunning, hround, hstep', hcur, hlt⟩
            fun _ => ⟨rfl, rfl, rfl, rfl, rfl⟩
      | epoch =>
          have hsame : s.ctx.epoch = localEpoch := by
            rw [h.epoch, hlocal]
            exact congrArg UInt32.ofNat hround.symm
          simp only [workerStep, hw, hsame, if_true] at hstep
          cases hstep
          exact h.goto hw s.ctx.locked s.history ⟨hepoch, hrunning, hround, hstep', hcur, hlt⟩
            fun _ => ⟨rfl, rfl, rfl, rfl, rfl⟩
  | asleep =>
      simp only [workerStep, hw] at hstep
      cases hstep
  | notify => exact absurd rfl hne
  | _ => simp [WorkerPc.parked] at hpc

theorem Worker.ok_wakeUp {running : Bool} {round cur : Nat} {w : Worker}
    (h : w.Ok nSteps running round cur) : w.wakeUp.Ok nSteps running round cur := by
  rcases w with ⟨pc, localEpoch, wround⟩
  cases pc <;> exact h

theorem Worker.sameFlags_wakeUp (round cur : Nat) (w : Worker) :
    Worker.SameFlags round cur w w.wakeUp := by
  rcases w with ⟨pc, localEpoch, wround⟩
  cases pc <;> exact ⟨rfl, rfl, rfl, rfl, rfl⟩

/-- A notification moves sleeping threads to the mutex. -/
theorem Inv.notifyAll (h : Inv nSteps s) : Inv nSteps s.notifyAll := by
  have hrunning : s.notifyAll.main.running = s.main.running := by
    unfold State.notifyAll
    split_ifs with hasleep
    · rw [hasleep]
      rfl
    · rfl
  have hidle : (s.notifyAll.main = .idle) = (s.main = .idle) := by
    unfold State.notifyAll
    split_ifs with hasleep
    · simp [hasleep]
    · rfl
  have hmain : s.notifyAll.main.Ok s.ctx (s.calls.getLastD 0) := by
    unfold State.notifyAll
    split_ifs with hasleep
    · trivial
    · exact h.main
  refine ⟨h.alive, h.notShutdown, h.epoch, ?_, ?_, hmain, fun t => ?_, fun hrun => ?_⟩
  · rw [hrunning]
    exact h.round
  · simp only [hidle]
    exact h.calls
  · rw [hrunning]
    exact Worker.ok_wakeUp (h.workers t)
  · exact (h.counts (hrunning ▸ hrun)).congr rfl fun t => Worker.sameFlags_wakeUp ..

theorem workerStep_notify (h : Inv nSteps s) {s' : State n} {localEpoch : UInt32} {round : Nat}
    (hw : s.workers t = ⟨.notify, localEpoch, round⟩) (hstep : workerStep nSteps t s = some s') :
    Inv nSteps s' := by
  simp only [workerStep, hw] at hstep
  cases hstep
  have hw' : s.notifyAll.workers t = ⟨.notify, localEpoch, round⟩ := by
    simp [State.notifyAll, Worker.wakeUp, hw]
  have hok := h.notifyAll.workers t
  rw [hw'] at hok
  exact h.notifyAll.goto hw' s.ctx.locked s.history hok fun _ => ⟨rfl, rfl, rfl, rfl, rfl⟩

/-- A thread joins the forward that is in progress. -/
theorem workerStep_loadEpoch (h : Inv nSteps s) {s' : State n} {localEpoch : UInt32} {round : Nat}
    (hw : s.workers t = ⟨.loadEpoch, localEpoch, round⟩) (hstep : workerStep nSteps t s = some s') :
    Inv nSteps s' := by
  have hok := h.workers t
  rw [hw] at hok
  rcases hok with ⟨_, hrunning, hround, hcur⟩
  have hround' : round + 1 = s.round := hround
  simp only [workerStep, hw] at hstep
  cases hstep
  refine h.move t s.ctx.locked s.history ⟨?_, hrunning, hround, ?_⟩ fun _ => ?_
  · rw [h.epoch, ← hround']
  · exact hcur ▸ Nat.zero_le _
  · have hold : round ≠ s.round := fun heq => Nat.succ_ne_self round (hround'.trans heq.symm)
    rw [hw]
    exact ⟨rfl, rfl, rfl, by simp [Worker.left, hold, WorkerPc.parked, Worker.ending], rfl⟩

/-! ## The steps that count -/

/-- While a forward is in progress `forward` itself only looks at `isRunDone`. -/
theorem MainPc.Ok.of_running {pc : MainPc} {ctx ctx' : NnExecutorContext} {batchSize : Nat}
    (h : pc.Ok ctx batchSize) (hrunning : pc.running = true)
    (hdone : ctx.isRunDone = true → ctx'.isRunDone = true) : pc.Ok ctx' batchSize := by
  cases pc with
  | unlockWait => exact hdone h
  | checkAlive => exact hdone h
  | threw => exact h
  | storeDone => cases hrunning
  | storeDoneRun => cases hrunning
  | storeRunDone => cases hrunning
  | storeBatch => cases hrunning
  | addEpoch => cases hrunning
  | _ => trivial

/-- A thread moves and one of the counters changes. -/
theorem Inv.moveCounting (h : Inv nSteps s) (hrunning : s.main.running = true) {w : Worker}
    {ctx : NnExecutorContext} (halive : ctx.isAlive = s.ctx.isAlive)
    (hshutdown : ctx.isShutdown = s.ctx.isShutdown) (hepoch : ctx.epoch = s.ctx.epoch)
    (hdone : s.ctx.isRunDone = true → ctx.isRunDone = true)
    (hok : w.Ok nSteps s.main.running s.round ctx.currentStepIndex)
    (hothers : ∀ t', t' ≠ t →
      (s.workers t').Ok nSteps s.main.running s.round ctx.currentStepIndex)
    (hcounts : Counts ctx (s.calls.getLastD 0) s.round (Function.update s.workers t w)) :
    Inv nSteps { s with ctx := ctx, workers := Function.update s.workers t w } where
  alive := halive.trans h.alive
  notShutdown := hshutdown.trans h.notShutdown
  epoch := hepoch.trans h.epoch
  round := h.round
  calls := h.calls
  main := h.main.of_running hrunning hdone
  workers := forall_update hok hothers
  counts _ := hcounts

/-- A thread that is neither waiting nor the last one rules out that anybody else is the last. -/
theorem StepCounts.no_leader {ctx : NnExecutorContext} {workers : Fin n → Worker}
    (h : StepCounts ctx workers) (hspinning : (workers t).spinning ctx.currentStepIndex = false)
    (hleading : (workers t).leading = false) (t' : Fin n) : (workers t').leading = false := by
  by_contra hnot
  have hleader : (workers t').leading = true := by simpa using hnot
  by_cases ht : t' = t
  · subst ht
    exact hnot hleading
  · have hwaits := h.leader t' hleader t (Ne.symm ht)
    rw [hspinning] at hwaits
    cases hwaits

/-- A thread that has not left the loop rules out that anybody is the last to leave it. -/
theorem RunCounts.no_ender {ctx : NnExecutorContext} {round : Nat} {workers : Fin n → Worker}
    (h : RunCounts ctx round workers) (hleft : (workers t).left round = false)
    (hending : (workers t).ending = false) (t' : Fin n) : (workers t').ending = false := by
  by_contra hnot
  have hender : (workers t').ending = true := by simpa using hnot
  by_cases ht : t' = t
  · subst ht
    exact hnot hending
  · have hgone := (h.ender t' hender t (Ne.symm ht)).1
    rw [hleft] at hgone
    cases hgone

theorem Worker.advancing_of_leading {w : Worker} (h : w.leading = false) : w.advancing = false := by
  rcases w with ⟨pc, localEpoch, round⟩
  cases pc <;> first | rfl | cases h

/-- A waiting thread is not the last one. -/
theorem Worker.leading_of_spinning {cur : Nat} {w : Worker} (h : w.spinning cur = true) :
    w.leading = false := by
  rcases w with ⟨pc, localEpoch, round⟩
  cases pc <;> first | rfl | cases h

/-- A move inside the loop is no move for those who count the threads that have left. -/
theorem RunCounts.move {ctx ctx' : NnExecutorContext} {round : Nat} {workers : Fin n → Worker}
    (h : RunCounts ctx round workers) {w : Worker}
    (hdone : ctx'.doneRunThreadCount = ctx.doneRunThreadCount)
    (hrun : ctx'.isRunDone = ctx.isRunDone) (hleft : w.left round = (workers t).left round)
    (hending : w.ending = (workers t).ending) :
    RunCounts ctx' round (Function.update workers t w) := by
  refine h.congr hdone hrun ?_ ?_
  · exact forall_update (Q := fun t w => w.left round = (workers t).left round) hleft fun _ _ => rfl
  · exact forall_update (Q := fun t w => w.ending = (workers t).ending) hending fun _ _ => rfl

theorem StepCounts.move {ctx ctx' : NnExecutorContext} {workers : Fin n → Worker}
    (h : StepCounts ctx workers) {w : Worker}
    (hdone : ctx'.doneThreadCount = ctx.doneThreadCount)
    (hcur : ctx'.currentStepIndex = ctx.currentStepIndex)
    (hspinning : w.spinning ctx.currentStepIndex = (workers t).spinning ctx.currentStepIndex)
    (hleading : w.leading = (workers t).leading) (hadvancing : w.advancing = (workers t).advancing) :
    StepCounts ctx' (Function.update workers t w) := by
  refine h.congr hdone hcur ?_ ?_ ?_
  · exact forall_update (Q := fun t w => w.spinning ctx.currentStepIndex
      = (workers t).spinning ctx.currentStepIndex) hspinning fun _ _ => rfl
  · exact forall_update (Q := fun t w => w.leading = (workers t).leading) hleading fun _ _ => rfl
  · exact forall_update (Q := fun t w => w.advancing = (workers t).advancing) hadvancing
      fun _ _ => rfl

/-- A thread that finds itself last in a step finds all others waiting. -/
theorem StepCounts.countDone {ctx : NnExecutorContext} {workers : Fin n → Worker}
    (h : StepCounts ctx workers) (hspinning : (workers t).spinning ctx.currentStepIndex = false)
    (hleading : (workers t).leading = false) {w : Worker}
    (hw : w.counted ctx.currentStepIndex = true) (hadvancing : w.advancing = false)
    (hlast : w.leading = true → ctx.doneThreadCount = n - 1) :
    StepCounts { ctx with doneThreadCount := ctx.doneThreadCount + 1 }
      (Function.update workers t w) := by
  have hnone := h.no_leader hspinning hleading
  have hzero : count Worker.advancing workers = 0 :=
    count_eq_zero fun t' => Worker.advancing_of_leading (hnone t')
  have hzero' : count Worker.advancing (Function.update workers t w) = 0 :=
    count_eq_zero (forall_update (Q := fun _ w => w.advancing = false) hadvancing
      fun t' _ => Worker.advancing_of_leading (hnone t'))
  have hnot : (workers t).counted ctx.currentStepIndex = false := by
    rw [Worker.counted, hspinning, hleading]
    rfl
  have hcount := count_update (Worker.counted ctx.currentStepIndex) workers t w
  have hdone := h.done
  rw [hzero, Nat.mul_zero, Nat.add_zero] at hdone
  rw [hnot, hw, ← hdone] at hcount
  constructor
  · rw [hzero', Nat.mul_zero, Nat.add_zero]
    exact hcount.symm
  · intro t₁ h₁ t₂ h₂
    -- the last one is the thread that has moved
    have ht₁ : t₁ = t := by
      by_contra hne
      rw [Function.update_of_ne hne, hnone t₁] at h₁
      cases h₁
    subst ht₁
    rw [Function.update_self] at h₁
    rw [Function.update_of_ne h₂]
    have hall := eq_true_of_count_eq_pred t₁.pos (hdone ▸ hlast h₁) hnot h₂
    rwa [Worker.counted, hnone t₂, Bool.or_false] at hall

theorem workerStep_countDone (h : Inv nSteps s) {s' : State n} {step : Nat}
    {localEpoch : UInt32} {round : Nat} (hw : s.workers t = ⟨.countDone step, localEpoch, round⟩)
    (hstep : workerStep nSteps t s = some s') : Inv nSteps s' := by
  have hok := h.workers t
  rw [hw] at hok
  rcases hok with ⟨hepoch, hrunning, hround, hsame, hlt⟩
  have hcounts := h.counts hrunning
  simp only [workerStep, hw] at hstep
  cases hstep
  have hspinning : (s.workers t).spinning s.ctx.currentStepIndex = false := by
    rw [hw]
    rfl
  have hleading : (s.workers t).leading = false := by
    rw [hw]
    rfl
  simp only [State.setPc, State.setWorker, State.setCtx, hw]
  split_ifs with hlast
  · refine h.moveCounting hrunning rfl rfl rfl id ⟨hepoch, hrunning, hround, hsame, hlt⟩
      (fun t' _ => h.workers t') ⟨hcounts.batch, ?_, ?_⟩
    · refine hcounts.steps.countDone hspinning hleading ?_ rfl fun _ => hlast
      simp [Worker.counted, Worker.leading]
    · exact hcounts.run.move rfl rfl (by rw [hw]; rfl) (by rw [hw]; rfl)
  · refine h.moveCounting hrunning rfl rfl rfl id
      ⟨hepoch, hrunning, hround, .inl hsame, hlt.le, hsame ▸ hlt⟩
      (fun t' _ => h.workers t') ⟨hcounts.batch, ?_, ?_⟩
    · refine hcounts.steps.countDone hspinning hleading ?_ rfl fun hlead => by cases hlead
      simp [Worker.counted, Worker.spinning, hsame]
    · exact hcounts.run.move rfl rfl (by rw [hw]; rfl) (by rw [hw]; rfl)

/-- The last one counts as waiting, and so does everybody else. -/
theorem StepCounts.all_counted {ctx : NnExecutorContext} {workers : Fin n → Worker}
    (h : StepCounts ctx workers) (hleading : (workers t).leading = true) :
    count (Worker.counted ctx.currentStepIndex) workers = n := by
  refine count_eq_all fun t' => ?_
  by_cases ht : t' = t
  · subst ht
    rw [Worker.counted, hleading, Bool.or_true]
  · rw [Worker.counted, h.leader t hleading t' ht, Bool.true_or]

theorem workerStep_resetDone (h : Inv nSteps s) {s' : State n} {step : Nat}
    {localEpoch : UInt32} {round : Nat} (hw : s.workers t = ⟨.resetDone step, localEpoch, round⟩)
    (hstep : workerStep nSteps t s = some s') : Inv nSteps s' := by
  have hok := h.workers t
  rw [hw] at hok
  have hrunning : s.main.running = true := hok.2.1
  have hcounts := h.counts hrunning
  simp only [workerStep, hw] at hstep
  cases hstep
  simp only [State.setPc, State.setWorker, State.setCtx, hw]
  refine h.moveCounting hrunning rfl rfl rfl id hok (fun t' _ => h.workers t')
    ⟨hcounts.batch, ?_, hcounts.run.move rfl rfl (by rw [hw]; rfl) (by rw [hw]; rfl)⟩
  have hleading : (s.workers t).leading = true := by
    rw [hw]
    rfl
  have hothers := hcounts.steps.leader t hleading
  have hall := hcounts.steps.all_counted hleading
  have hone := count_update Worker.advancing s.workers t ⟨.advance step, localEpoch, round⟩
  have hzero : count Worker.advancing s.workers = 0 := by
    refine count_eq_zero fun t' => ?_
    by_cases ht : t' = t
    · subst ht
      rw [hw]
      rfl
    · exact Worker.advancing_of_leading (Worker.leading_of_spinning (hothers t' ht))
  have hcounted : count (Worker.counted s.ctx.currentStepIndex)
      (Function.update s.workers t ⟨.advance step, localEpoch, round⟩) = n :=
    count_eq_all (forall_update (Q := fun _ w => w.counted s.ctx.currentStepIndex = true) rfl
      fun t' ht => by rw [Worker.counted, hothers t' ht, Bool.true_or])
  constructor
  · have hadvancing : count Worker.advancing
        (Function.update s.workers t ⟨.advance step, localEpoch, round⟩) = 1 := by
      rw [hzero, hw] at hone
      exact hone
    rw [hadvancing, hcounted, Nat.zero_add, Nat.mul_one]
  · intro t₁ h₁ t₂ h₂
    have ht₁ : t₁ = t := by
      by_contra hne
      rw [Function.update_of_ne hne, Worker.leading_of_spinning (hothers t₁ hne)] at h₁
      cases h₁
    subst ht₁
    rw [Function.update_of_ne h₂]
    exact hothers t₂ h₂

/-- Everybody waits for the step after `cur`. -/
theorem Worker.ok_of_spinning {running : Bool} {round cur : Nat} {w : Worker}
    (h : w.Ok nSteps running round cur) (hspinning : w.spinning cur = true) (hlt : cur < nSteps) :
    w.Ok nSteps running round (cur + 1) := by
  rcases w with ⟨pc, localEpoch, wround⟩
  cases pc with
  | spin load step =>
      have hsame : step = cur := of_decide_eq_true hspinning
      rcases h with ⟨hepoch, hrunning, hround, _, _, hstep⟩
      exact ⟨hepoch, hrunning, hround, .inr (congrArg (· + 1) hsame), hlt, hstep⟩
  | _ => cases hspinning

theorem Worker.spinning_succ {cur : Nat} {w : Worker} (h : w.spinning cur = true) :
    w.spinning (cur + 1) = false := by
  rcases w with ⟨pc, localEpoch, wround⟩
  cases pc with
  | spin load step =>
      have hsame : step = cur := of_decide_eq_true h
      simp [Worker.spinning, hsame]
  | _ => cases h

theorem workerStep_advance (h : Inv nSteps s) {s' : State n} {step : Nat}
    {localEpoch : UInt32} {round : Nat} (hw : s.workers t = ⟨.advance step, localEpoch, round⟩)
    (hstep : workerStep nSteps t s = some s') : Inv nSteps s' := by
  have hok := h.workers t
  rw [hw] at hok
  rcases hok with ⟨hepoch, hrunning, hround, _, hlt⟩
  have hcounts := h.counts hrunning
  simp only [workerStep, hw] at hstep
  cases hstep
  simp only [State.setPc, State.setWorker, State.setCtx, hw]
  have hleading : (s.workers t).leading = true := by
    rw [hw]
    rfl
  have hothers := hcounts.steps.leader t hleading
  refine h.moveCounting hrunning rfl rfl rfl id ⟨hepoch, hrunning, hround, hlt⟩
    (fun t' ht => Worker.ok_of_spinning (h.workers t') (hothers t' ht) hlt)
    ⟨hcounts.batch, ?_, hcounts.run.move rfl rfl (by rw [hw]; rfl) (by rw [hw]; rfl)⟩
  -- `n` threads are counted and one of them is advancing, so the counter has been reset
  have hdone : s.ctx.doneThreadCount = 0 := by
    have hsum := hcounts.steps.done
    have hsome : count Worker.advancing s.workers ≠ 0 := fun hzero => by
      have hnone := eq_false_of_count_eq_zero hzero t
      rw [hw] at hnone
      cases hnone
    rw [hcounts.steps.all_counted hleading] at hsum
    have hle : n * 1 ≤ n * count Worker.advancing s.workers :=
      Nat.mul_le_mul_left n (Nat.pos_of_ne_zero hsome)
    have hn : 0 < n := t.pos
    omega
  have hnone : ∀ t', (Function.update s.workers t ⟨.checkAlive, localEpoch, round⟩ t').leading
      = false :=
    forall_update (Q := fun _ w => w.leading = false) rfl
      fun t' ht => Worker.leading_of_spinning (hothers t' ht)
  have hnotSpinning : ∀ t', (Function.update s.workers t
      ⟨.checkAlive, localEpoch, round⟩ t').spinning (s.ctx.currentStepIndex + 1) = false :=
    forall_update (Q := fun _ w => w.spinning (s.ctx.currentStepIndex + 1) = false) rfl
      fun t' ht => Worker.spinning_succ (hothers t' ht)
  constructor
  · have hzero : count Worker.advancing
        (Function.update s.workers t ⟨.checkAlive, localEpoch, round⟩) = 0 :=
      count_eq_zero fun t' => Worker.advancing_of_leading (hnone t')
    have hcounted : count (Worker.counted (s.ctx.currentStepIndex + 1))
        (Function.update s.workers t ⟨.checkAlive, localEpoch, round⟩) = 0 :=
      count_eq_zero fun t' => by rw [Worker.counted, hnotSpinning, hnone, Bool.or_false]
    rw [hzero, hcounted, Nat.mul_zero, Nat.add_zero]
    exact hdone
  · intro t₁ h₁
    rw [hnone t₁] at h₁
    cases h₁

/-- A thread that finds itself last to leave the loop finds all others outside. -/
theorem RunCounts.countRun {ctx : NnExecutorContext} {round : Nat} {workers : Fin n → Worker}
    (h : RunCounts ctx round workers) (hleft : (workers t).left round = false)
    (hending : (workers t).ending = false) {w : Worker} (hw : w.left round = true)
    (hlast : w.ending = true → ctx.doneRunThreadCount = n - 1) :
    RunCounts { ctx with doneRunThreadCount := ctx.doneRunThreadCount + 1 } round
      (Function.update workers t w) := by
  have hnone := h.no_ender hleft hending
  have hcount := count_update (Worker.left round) workers t w
  rw [hleft, hw, ← h.doneRun] at hcount
  refine ⟨hcount.symm, ?_, ?_⟩
  · intro t₁ h₁ t₂ h₂
    have ht₁ : t₁ = t := by
      by_contra hne
      rw [Function.update_of_ne hne, hnone t₁] at h₁
      cases h₁
    subst ht₁
    rw [Function.update_self] at h₁
    rw [Function.update_of_ne h₂]
    exact ⟨eq_true_of_count_eq_pred t₁.pos (h.doneRun ▸ hlast h₁) hleft h₂, hnone t₂⟩
  · intro hdone
    have hgone := (h.runDone hdone t).1
    rw [hleft] at hgone
    cases hgone

theorem workerStep_countRun (h : Inv nSteps s) {s' : State n} {localEpoch : UInt32} {round : Nat}
    (hw : s.workers t = ⟨.countRun, localEpoch, round⟩) (hstep : workerStep nSteps t s = some s') :
    Inv nSteps s' := by
  have hok := h.workers t
  rw [hw] at hok
  rcases hok with ⟨hepoch, hrunning, hround, hcur⟩
  have hround' : round = s.round := hround
  have hcounts := h.counts hrunning
  simp only [workerStep, hw] at hstep
  cases hstep
  simp only [State.setPc, State.setWorker, State.setCtx, hw]
  have hleft : (s.workers t).left s.round = false := by
    rw [hw]
    simp [Worker.left, WorkerPc.parked, Worker.ending]
  have hending : (s.workers t).ending = false := by
    rw [hw]
    rfl
  split_ifs with hlast
  · refine h.moveCounting hrunning rfl rfl rfl id ⟨hepoch, hrunning, hround, hcur⟩
      (fun t' _ => h.workers t') ⟨hcounts.batch, ?_, ?_⟩
    · exact hcounts.steps.move rfl rfl (by rw [hw]; rfl) (by rw [hw]; rfl) (by rw [hw]; rfl)
    · refine hcounts.run.countRun hleft hending ?_ fun _ => hlast
      simp [Worker.left, Worker.ending, hround']
  · refine h.moveCounting hrunning rfl rfl rfl id ⟨hepoch, .inl ⟨hround, fun _ => hcur⟩⟩
      (fun t' _ => h.workers t') ⟨hcounts.batch, ?_, ?_⟩
    · exact hcounts.steps.move rfl rfl (by rw [hw]; rfl) (by rw [hw]; rfl) (by rw [hw]; rfl)
    · refine hcounts.run.countRun hleft hending ?_ fun hend => by simp [Worker.ending] at hend
      simp [Worker.left, WorkerPc.parked, hround']

theorem workerStep_setRunDone (h : Inv nSteps s) {s' : State n} {localEpoch : UInt32}
    {round : Nat} (hw : s.workers t = ⟨.setRunDone, localEpoch, round⟩)
    (hstep : workerStep nSteps t s = some s') : Inv nSteps s' := by
  have hok := h.workers t
  rw [hw] at hok
  rcases hok with ⟨hepoch, hrunning, hround, hcur⟩
  have hround' : round = s.round := hround
  have hcounts := h.counts hrunning
  simp only [workerStep, hw] at hstep
  cases hstep
  simp only [State.setPc, State.setWorker, State.setCtx, hw]
  have hleft : (s.workers t).left s.round = true := by
    rw [hw]
    simp [Worker.left, Worker.ending, hround']
  have hothers := hcounts.run.ender t (by rw [hw]; rfl)
  -- everybody is outside now, and nobody is left to end the forward once more
  have hall : ∀ t', (Function.update s.workers t ⟨.notify, localEpoch, round⟩ t').left s.round
      = true ∧ (Function.update s.workers t ⟨.notify, localEpoch, round⟩ t').ending = false :=
    forall_update (Q := fun _ w => w.left s.round = true ∧ w.ending = false)
      ⟨by simp [Worker.left, WorkerPc.parked, hround'], rfl⟩ hothers
  refine h.moveCounting hrunning rfl rfl rfl (fun _ => rfl)
    ⟨hepoch, .inl ⟨hround, fun _ => hcur⟩⟩ (fun t' _ => h.workers t') ⟨hcounts.batch, ?_, ?_⟩
  · exact hcounts.steps.move rfl rfl (by rw [hw]; rfl) (by rw [hw]; rfl) (by rw [hw]; rfl)
  · refine ⟨?_, fun t₁ h₁ => ?_, fun _ => hall⟩
    · have hsame : count (Worker.left s.round)
          (Function.update s.workers t ⟨.notify, localEpoch, round⟩)
          = count (Worker.left s.round) s.workers := by
        refine count_congr (forall_update (Q := fun t' w => w.left s.round
          = (s.workers t').left s.round) ?_ fun _ _ => rfl)
        rw [hleft]
        simp [Worker.left, WorkerPc.parked, hround']
      rw [hsame]
      exact hcounts.run.doneRun
    · rw [(hall t₁).2] at h₁
      cases h₁

theorem workerStep_inv (h : Inv nSteps s) {s' : State n} (hstep : workerStep nSteps t s = some s') :
    Inv nSteps s' := by
  rcases hw : s.workers t with ⟨pc, localEpoch, round⟩
  cases pc with
  | lock => exact workerStep_quiet h hw (.inl rfl) (by simp) hstep
  | waitShutdown => exact workerStep_quiet h hw (.inl rfl) (by simp) hstep
  | waitEpoch => exact workerStep_quiet h hw (.inl rfl) (by simp) hstep
  | asleep => exact workerStep_quiet h hw (.inl rfl) (by simp) hstep
  | checkShutdown => exact workerStep_quiet h hw (by simp) (by simp) hstep
  | loadEpoch => exact workerStep_loadEpoch h hw hstep
  | checkAlive => exact workerStep_quiet h hw (by simp) (by simp) hstep
  | loadStep => exact workerStep_quiet h hw (by simp) (by simp) hstep
  | execute step => exact workerStep_quiet h hw (by simp) (by simp) hstep
  | executing step => exact workerStep_quiet h hw (by simp) (by simp) hstep
  | countDone step => exact workerStep_countDone h hw hstep
  | resetDone step => exact workerStep_resetDone h hw hstep
  | advance step => exact workerStep_advance h hw hstep
  | spin load step => exact workerStep_quiet h hw (by simp) (by simp) hstep
  | countRun => exact workerStep_countRun h hw hstep
  | setRunDone => exact workerStep_setRunDone h hw hstep
  | notify => exact workerStep_notify h hw hstep
  | stopped =>
      simp only [workerStep, hw] at hstep
      cases hstep

end WorkerSteps

/-! ## The steps of `forward` -/

section MainSteps

variable {s : State n}

/-- `forward` goes on and the workers see nothing but the mutex. -/
theorem Inv.mainMove (h : Inv nSteps s) (locked : Bool) {pc : MainPc}
    (hrunning : pc.running = s.main.running) (hidle : s.main ≠ .idle) (hidle' : pc ≠ .idle)
    (hok : pc.Ok s.ctx (s.calls.getLastD 0)) :
    Inv nSteps { s with ctx := { s.ctx with locked := locked }, main := pc } where
  alive := h.alive
  notShutdown := h.notShutdown
  epoch := h.epoch
  round := by
    simp only [hrunning]
    exact h.round
  calls := by
    have hcalls := h.calls
    rw [if_neg hidle] at hcalls
    rw [if_neg hidle']
    exact hcalls
  main := by
    cases pc <;> exact hok
  workers t := by
    simp only [hrunning]
    exact h.workers t
  counts hrun := (h.counts (hrunning ▸ hrun)).congr rfl fun _ => .refl ..

/-- Between two forwards every thread is parked, wherever `currentStepIndex` stands. -/
theorem Worker.Ok.quiet {round cur : Nat} {w : Worker} (h : w.Ok nSteps false round cur) :
    w.localEpoch = UInt32.ofNat w.round ∧ w.round = round ∧ w.pc.parked = true := by
  rcases w with ⟨pc, localEpoch, wround⟩
  rcases h with ⟨hepoch, hplace⟩
  cases pc <;> simp_all [WorkerPc.parked]

theorem Worker.ok_of_quiet {round cur : Nat} {w : Worker}
    (h : w.localEpoch = UInt32.ofNat w.round ∧ w.round = round ∧ w.pc.parked = true) :
    w.Ok nSteps false round cur := by
  rcases w with ⟨pc, localEpoch, wround⟩
  rcases h with ⟨hepoch, hround, hparked⟩
  refine ⟨hepoch, ?_⟩
  cases pc <;> simp_all [WorkerPc.parked]

/-- `forward` stores a value before it advances the epoch. -/
theorem Inv.mainStore (h : Inv nSteps s) (hquiet : s.main.running = false) (hidle : s.main ≠ .idle)
    {ctx : NnExecutorContext} {pc : MainPc} (halive : ctx.isAlive = true)
    (hshutdown : ctx.isShutdown = s.ctx.isShutdown) (hepoch : ctx.epoch = s.ctx.epoch)
    (hrunning : pc.running = false) (hidle' : pc ≠ .idle) (hok : pc.Ok ctx (s.calls.getLastD 0)) :
    Inv nSteps { s with ctx := ctx, main := pc } where
  alive := halive
  notShutdown := hshutdown.trans h.notShutdown
  epoch := hepoch.trans h.epoch
  round := by
    have hround := h.round
    rw [hquiet] at hround
    simp only [hrunning]
    exact hround
  calls := by
    have hcalls := h.calls
    rw [if_neg hidle] at hcalls
    rw [if_neg hidle']
    exact hcalls
  main := hok
  workers t := by
    have hworker := h.workers t
    rw [hquiet] at hworker
    simp only [hrunning]
    exact Worker.ok_of_quiet hworker.quiet
  counts hrun := by
    rw [hrunning] at hrun
    cases hrun

/-- The epoch starts the forward: every thread is one forward behind, and all counters are zero. -/
theorem mainStep_addEpoch (h : Inv nSteps s) {s' : State n} (hpc : s.main = .addEpoch)
    (hstep : mainStep s = some s') : Inv nSteps s' := by
  have hprepared := h.main
  rw [hpc] at hprepared
  rcases hprepared with ⟨hcur, hdone, hdoneRun, hrunDone, hbatch⟩
  have hquiet : s.main.running = false := by
    rw [hpc]
    rfl
  have hround := h.round
  have hcalls := h.calls
  rw [hquiet] at hround
  rw [hpc] at hcalls
  simp only [mainStep, hpc] at hstep
  cases hstep
  have hworker : ∀ t, (s.workers t).localEpoch = UInt32.ofNat (s.workers t).round ∧
      (s.workers t).round = s.round ∧ (s.workers t).pc.parked = true := by
    intro t
    have hok := h.workers t
    rw [hquiet] at hok
    exact hok.quiet
  have hflags : ∀ t, (s.workers t).spinning 0 = false ∧ (s.workers t).leading = false ∧
      (s.workers t).ending = false ∧ (s.workers t).left (s.round + 1) = false := by
    intro t
    rcases hworker t with ⟨_, hjoined, hparked⟩
    have hne : ¬ s.round = s.round + 1 := by omega
    rcases hw : s.workers t with ⟨pc, localEpoch, round⟩
    rw [hw] at hjoined hparked
    have hjoined' : round = s.round := hjoined
    cases pc <;> simp_all [WorkerPc.parked, Worker.spinning, Worker.leading, Worker.ending,
      Worker.left]
  refine ⟨h.alive, h.notShutdown, ?_, ?_, ?_, trivial, fun t => ?_, fun _ => ⟨hbatch, ?_, ?_⟩⟩
  · have hnext : s.ctx.epoch + 1 = UInt32.ofNat (s.round + 1) := by
      rw [h.epoch, UInt32.ofNat_add]
      rfl
    exact hnext
  · simpa [MainPc.running] using hround
  · simpa using hcalls
  · rcases hworker t with ⟨hepoch, hjoined, hparked⟩
    refine ⟨hepoch, ?_⟩
    rcases hw : s.workers t with ⟨pc, localEpoch, round⟩
    rw [hw] at hjoined hparked
    have hbehind : round + 1 = s.round + 1 := congrArg (· + 1) hjoined
    cases pc <;> first
      | exact .inr ⟨rfl, hbehind, hcur⟩
      | cases hparked
  · constructor
    · have hadvancing : count Worker.advancing s.workers = 0 :=
        count_eq_zero fun t => Worker.advancing_of_leading (hflags t).2.1
      have hcounted : count (Worker.counted s.ctx.currentStepIndex) s.workers = 0 :=
        count_eq_zero fun t => by
          rw [hcur, Worker.counted, (hflags t).1, (hflags t).2.1, Bool.or_false]
      show s.ctx.doneThreadCount + n * count Worker.advancing s.workers = _
      rw [hadvancing, hdone]
      exact hcounted.symm
    · intro t₁ h₁
      rw [(hflags t₁).2.1] at h₁
      cases h₁
  · refine ⟨?_, fun t₁ h₁ => ?_, fun hrun => ?_⟩
    · have hleft : count (Worker.left (s.round + 1)) s.workers = 0 :=
        count_eq_zero fun t => (hflags t).2.2.2
      exact hdoneRun.trans hleft.symm
    · rw [(hflags t₁).2.2.1] at h₁
      cases h₁
    · have hrun' : s.ctx.isRunDone = true := hrun
      rw [hrunDone] at hrun'
      cases hrun'

/-- `forward` returns: every thread has left the loop. -/
theorem mainStep_checkAlive (h : Inv nSteps s) {s' : State n} (hpc : s.main = .checkAlive)
    (hstep : mainStep s = some s') : Inv nSteps s' := by
  have hrunDone : s.ctx.isRunDone = true := by
    have hmain := h.main
    rw [hpc] at hmain
    exact hmain
  have hrunning : s.main.running = true := by
    rw [hpc]
    rfl
  have hall := (h.counts hrunning).run.runDone hrunDone
  have hround := h.round
  have hcalls := h.calls
  rw [hrunning] at hround
  rw [hpc] at hcalls
  simp only [mainStep, hpc, h.alive, if_true] at hstep
  cases hstep
  refine ⟨h.alive, h.notShutdown, h.epoch, ?_, ?_, trivial, fun t => ?_, fun hrun => by cases hrun⟩
  · simpa [MainPc.running] using hround
  · simpa using hcalls
  · have hleft := (hall t).1
    rw [Worker.left, (hall t).2, Bool.or_false, Bool.and_eq_true] at hleft
    exact Worker.ok_of_quiet ⟨(h.workers t).1, of_decide_eq_true hleft.1, hleft.2⟩

theorem mainStep_inv (h : Inv nSteps s) {s' : State n} (hstep : mainStep s = some s') :
    Inv nSteps s' := by
  have hmain := h.main
  cases hpc : s.main with
  | idle =>
      simp only [mainStep, hpc] at hstep
      cases hstep
  | lock =>
      simp only [mainStep, hpc] at hstep
      split_ifs at hstep
      cases hstep
      exact h.mainMove true (by rw [hpc]; rfl) (by simp [hpc]) (by simp) trivial
  | storeAlive =>
      simp only [mainStep, hpc] at hstep
      cases hstep
      exact h.mainStore (by rw [hpc]; rfl) (by simp [hpc]) rfl rfl rfl rfl (by simp) trivial
  | storeStep =>
      simp only [mainStep, hpc] at hstep
      cases hstep
      exact h.mainStore (by rw [hpc]; rfl) (by simp [hpc]) h.alive rfl rfl rfl (by simp) rfl
  | storeDone =>
      simp only [mainStep, hpc] at hstep
      cases hstep
      rw [hpc] at hmain
      exact h.mainStore (by rw [hpc]; rfl) (by simp [hpc]) h.alive rfl rfl rfl (by simp)
        ⟨hmain, rfl⟩
  | storeDoneRun =>
      simp only [mainStep, hpc] at hstep
      cases hstep
      rw [hpc] at hmain
      exact h.mainStore (by rw [hpc]; rfl) (by simp [hpc]) h.alive rfl rfl rfl (by simp)
        ⟨hmain.1, hmain.2, rfl⟩
  | storeRunDone =>
      simp only [mainStep, hpc] at hstep
      cases hstep
      rw [hpc] at hmain
      exact h.mainStore (by rw [hpc]; rfl) (by simp [hpc]) h.alive rfl rfl rfl (by simp)
        ⟨hmain.1, hmain.2.1, hmain.2.2, rfl⟩
  | storeBatch =>
      simp only [mainStep, hpc] at hstep
      cases hstep
      rw [hpc] at hmain
      exact h.mainStore (by rw [hpc]; rfl) (by simp [hpc]) h.alive rfl rfl rfl (by simp)
        ⟨hmain.1, hmain.2.1, hmain.2.2.1, hmain.2.2.2, rfl⟩
  | addEpoch => exact mainStep_addEpoch h hpc hstep
  | unlock =>
      simp only [mainStep, hpc] at hstep
      cases hstep
      exact h.mainMove false (by rw [hpc]; rfl) (by simp [hpc]) (by simp) trivial
  | notify =>
      simp only [mainStep, hpc] at hstep
      cases hstep
      have hsame : s.notifyAll.main = .notify := by simp [State.notifyAll, hpc]
      exact h.notifyAll.mainMove s.ctx.locked (by rw [hsame]; rfl) (by simp [hsame]) (by simp)
        trivial
  | lockWait =>
      simp only [mainStep, hpc] at hstep
      split_ifs at hstep
      cases hstep
      exact h.mainMove true (by rw [hpc]; rfl) (by simp [hpc]) (by simp) trivial
  | loadObserved =>
      simp only [mainStep, hpc] at hstep
      cases hstep
      exact h.mainMove s.ctx.locked (by rw [hpc]; rfl) (by simp [hpc]) (by simp) trivial
  | loopShutdown =>
      simp only [mainStep, hpc, h.notShutdown, Bool.false_eq_true, if_false] at hstep
      cases hstep
      exact h.mainMove s.ctx.locked (by rw [hpc]; rfl) (by simp [hpc]) (by simp) trivial
  | loopRunDone =>
      simp only [mainStep, hpc] at hstep
      cases hstep
      split_ifs with hdone
      · exact h.mainMove s.ctx.locked (by rw [hpc]; rfl) (by simp [hpc]) (by simp) hdone
      · exact h.mainMove s.ctx.locked (by rw [hpc]; rfl) (by simp [hpc]) (by simp) trivial
  | loopAlive =>
      simp only [mainStep, hpc, h.alive, if_true] at hstep
      cases hstep
      exact h.mainMove s.ctx.locked (by rw [hpc]; rfl) (by simp [hpc]) (by simp) trivial
  | predShutdown timedOut =>
      simp only [mainStep, hpc, h.notShutdown, Bool.false_eq_true, if_false] at hstep
      cases hstep
      exact h.mainMove s.ctx.locked (by rw [hpc]; rfl) (by simp [hpc]) (by simp) trivial
  | predRunDone timedOut =>
      simp only [mainStep, hpc] at hstep
      cases hstep
      split_ifs with hdone
      · exact h.mainMove s.ctx.locked (by rw [hpc]; rfl) (by simp [hpc]) (by simp) hdone
      · exact h.mainMove s.ctx.locked (by rw [hpc]; rfl) (by simp [hpc]) (by simp) trivial
  | predAlive timedOut =>
      cases timedOut with
      | true =>
          simp only [mainStep, hpc, h.alive, if_true] at hstep
          cases hstep
          exact h.mainMove s.ctx.locked (by rw [hpc]; rfl) (by simp [hpc]) (by simp) trivial
      | false =>
          simp only [mainStep, hpc] at hstep
          rw [if_pos h.alive, if_neg Bool.false_ne_true] at hstep
          cases hstep
          exact h.mainMove false (by rw [hpc]; rfl) (by simp [hpc]) (by simp) trivial
  | asleep =>
      simp only [mainStep, hpc] at hstep
      cases hstep
  | relock timedOut =>
      simp only [mainStep, hpc] at hstep
      split_ifs at hstep
      cases hstep
      exact h.mainMove true (by rw [hpc]; rfl) (by simp [hpc]) (by simp) trivial
  | loadProgress =>
      simp only [mainStep, hpc] at hstep
      cases hstep
      exact h.mainMove s.ctx.locked (by rw [hpc]; rfl) (by simp [hpc]) (by simp) trivial
  | unlockWait =>
      simp only [mainStep, hpc] at hstep
      cases hstep
      rw [hpc] at hmain
      exact h.mainMove false (by rw [hpc]; rfl) (by simp [hpc]) (by simp) hmain
  | checkAlive => exact mainStep_checkAlive h hpc hstep
  | threw =>
      rw [hpc] at hmain
      exact hmain.elim

end MainSteps

theorem step_inv {s s' : State n} (h : Inv nSteps s) (hstep : Step nSteps s s') :
    Inv nSteps s' := by
  cases hstep with
  | worker t ht => exact workerStep_inv h ht
  | main hm => exact mainStep_inv h hm
  | wake t hsleep =>
      rcases hw : s.workers t with ⟨pc, localEpoch, round⟩
      rw [hw] at hsleep
      have hpc : pc = .asleep := hsleep
      subst hpc
      have hok := h.workers t
      rw [hw] at hok
      exact h.goto hw s.ctx.locked s.history hok fun _ => ⟨rfl, rfl, rfl, rfl, rfl⟩
  | wakeMain timedOut hsleep =>
      exact h.mainMove s.ctx.locked (by rw [hsleep]; rfl) (by simp [hsleep]) (by simp) trivial
  | call batchSize hb hidle =>
      have hquiet : s.main.running = false := by
        rw [hidle]
        rfl
      have hround := h.round
      have hcalls := h.calls
      rw [hquiet] at hround
      rw [if_pos hidle] at hcalls
      refine ⟨h.alive, h.notShutdown, h.epoch, hround, ?_, trivial, fun t => ?_,
        fun hrun => by cases hrun⟩
      · simpa using hcalls
      · have hok := h.workers t
        rw [hquiet] at hok
        exact hok

end Executor
end PrefillOpt
