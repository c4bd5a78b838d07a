import Mathlib.Data.Fintype.Card
import Mathlib.Logic.Function.Basic
import Mathlib.Logic.Relation
import Mathlib.Tactic.SplitIfs

/-!
# Threads — the worker threads of the executor

The loop that every worker thread of `NnExecutor` runs, and `NnExecutor::forward`.  Each load, store
and `fetch_add` of an atomic, each move of the mutex and each end of a step is one step of the
system; the threads take their steps in any order.  No step throws, and `forward` does not give up.

A program counter names the action that comes next.
-/

namespace PrefillOpt
namespace Executor

/-! ## The shared context -/

structure NnExecutorContext where
  epoch : UInt32
  currentStepIndex : Nat
  doneThreadCount : Nat
  doneRunThreadCount : Nat
  isAlive : Bool
  isShutdown : Bool
  isRunDone : Bool
  batchSize : Nat
  /-- The mutex is held by some thread. -/
  locked : Bool

/-! ## Worker threads -/

/-- The four loads of the loop that waits for the end of a step. -/
inductive Spin where
  | step
  | alive
  | shutdown
  | epoch
  deriving DecidableEq

inductive WorkerPc where
  /-- `std::unique_lock lock(ctx->mutex)`, also on the way out of a sleep. -/
  | lock
  /-- The predicate of `cv.wait`, under the mutex. -/
  | waitShutdown
  | waitEpoch
  | asleep
  | checkShutdown
  | loadEpoch
  | checkAlive
  | loadStep
  /-- About to call `executeStep`. -/
  | execute (step : Nat)
  /-- Inside `executeStep`. -/
  | executing (step : Nat)
  | countDone (step : Nat)
  | resetDone (step : Nat)
  | advance (step : Nat)
  | spin (load : Spin) (step : Nat)
  | countRun
  | setRunDone
  | notify
  | stopped
  deriving DecidableEq

structure Worker where
  pc : WorkerPc
  localEpoch : UInt32
  /-- The number of forwards that the thread has joined. -/
  round : Nat

/-- A sleeping thread is woken and goes for the mutex. -/
def Worker.wakeUp (w : Worker) : Worker :=
  if w.pc = .asleep then { w with pc := .lock } else w

/-! ## The thread that calls `forward` -/

inductive MainPc where
  /-- Not in `forward`. -/
  | idle
  | lock
  | storeAlive
  | storeStep
  | storeDone
  | storeDoneRun
  | storeRunDone
  | storeBatch
  | addEpoch
  | unlock
  | notify
  | lockWait
  | loadObserved
  /-- The condition of the `while` loop. -/
  | loopShutdown
  | loopRunDone
  | loopAlive
  /-- The predicate of `cv.wait_for`, before a sleep or after one that has timed out or not. -/
  | predShutdown (timedOut : Bool)
  | predRunDone (timedOut : Bool)
  | predAlive (timedOut : Bool)
  | asleep
  | relock (timedOut : Bool)
  | loadProgress
  | unlockWait
  | checkAlive
  | threw
  deriving DecidableEq

/-- What threads have done, for the record.  A thread counts the forwards that it has joined. -/
inductive Event (n : Nat) where
  | began (thread : Fin n) (round step batchSize : Nat)
  | finished (thread : Fin n) (round step : Nat)
  deriving DecidableEq

structure State (n : Nat) where
  ctx : NnExecutorContext
  workers : Fin n → Worker
  main : MainPc
  /-- The batch sizes of the calls of `forward` so far. -/
  calls : List Nat
  /-- How often `epoch` has been advanced, and how many calls have returned. -/
  round : Nat
  returned : Nat
  history : List (Event n)

namespace State

variable {n : Nat}

/-- The executor after its constructor, before the threads have run. -/
def init (n : Nat) : State n where
  ctx := ⟨0, 0, 0, 0, true, false, true, 0, false⟩
  workers _ := ⟨.lock, 0, 0⟩
  main := .idle
  calls := []
  round := 0
  returned := 0
  history := []

def setWorker (s : State n) (t : Fin n) (w : Worker) : State n :=
  { s with workers := Function.update s.workers t w }

def setPc (s : State n) (t : Fin n) (pc : WorkerPc) : State n :=
  s.setWorker t { s.workers t with pc := pc }

def setCtx (s : State n) (ctx : NnExecutorContext) : State n :=
  { s with ctx := ctx }

def record (s : State n) (e : Event n) : State n :=
  { s with history := s.history ++ [e] }

/-- `cv.notify_all()`. -/
def notifyAll (s : State n) : State n :=
  { s with
    workers := fun t => (s.workers t).wakeUp
    main := if s.main = .asleep then .relock false else s.main }

end State

open State

variable {n : Nat}

/-- One step of the worker thread `t`; `none` where it waits for the mutex or sleeps. -/
def workerStep (nSteps : Nat) (t : Fin n) (s : State n) : Option (State n) :=
  let w := s.workers t
  let ctx := s.ctx
  match w.pc with
  | .lock =>
      if ctx.locked then none
      else some ((s.setCtx { ctx with locked := true }).setPc t .waitShutdown)
  | .waitShutdown =>
      if ctx.isShutdown then some ((s.setCtx { ctx with locked := false }).setPc t .checkShutdown)
      else some (s.setPc t .waitEpoch)
  | .waitEpoch =>
      -- either way the mutex is given up, to go on or to sleep
      some ((s.setCtx { ctx with locked := false }).setPc t
        (if ctx.epoch ≠ w.localEpoch then .checkShutdown else .asleep))
  | .asleep => none
  | .checkShutdown => some (s.setPc t (if ctx.isShutdown then .stopped else .loadEpoch))
  | .loadEpoch =>
      some (s.setWorker t { pc := .checkAlive, localEpoch := ctx.epoch, round := w.round + 1 })
  | .checkAlive => some (s.setPc t (if ctx.isAlive then .loadStep else .countRun))
  | .loadStep =>
      some (s.setPc t
        (if ctx.currentStepIndex = nSteps then .countRun else .execute ctx.currentStepIndex))
  | .execute step =>
      some ((s.record (.began t w.round step ctx.batchSize)).setPc t (.executing step))
  | .executing step => some ((s.record (.finished t w.round step)).setPc t (.countDone step))
  | .countDone step =>
      some ((s.setCtx { ctx with doneThreadCount := ctx.doneThreadCount + 1 }).setPc t
        (if ctx.doneThreadCount = n - 1 then .resetDone step else .spin .step step))
  | .resetDone step => some ((s.setCtx { ctx with doneThreadCount := 0 }).setPc t (.advance step))
  | .advance _ =>
      some ((s.setCtx { ctx with currentStepIndex := ctx.currentStepIndex + 1 }).setPc t .checkAlive)
  | .spin .step step =>
      some (s.setPc t (if ctx.currentStepIndex = step then .spin .alive step else .checkAlive))
  | .spin .alive step =>
      some (s.setPc t (if ctx.isAlive then .spin .shutdown step else .checkAlive))
  | .spin .shutdown step =>
      some (s.setPc t (if ctx.isShutdown then .checkAlive else .spin .epoch step))
  | .spin .epoch step =>
      some (s.setPc t (if ctx.epoch = w.localEpoch then .spin .step step else .checkAlive))
  | .countRun =>
      some ((s.setCtx { ctx with doneRunThreadCount := ctx.doneRunThreadCount + 1 }).setPc t
        (if ctx.doneRunThreadCount = n - 1 then .setRunDone else .lock))
  | .setRunDone => some ((s.setCtx { ctx with isRunDone := true }).setPc t .notify)
  | .notify => some (s.notifyAll.setPc t .lock)
  | .stopped => none

/-- One step of the thread that is in `forward`. -/
def mainStep (s : State n) : Option (State n) :=
  let ctx := s.ctx
  let goto (ctx : NnExecutorContext) (pc : MainPc) : Option (State n) :=
    some { s with ctx := ctx, main := pc }
  match s.main with
  | .idle => none
  | .lock => if ctx.locked then none else goto { ctx with locked := true } .storeAlive
  | .storeAlive => goto { ctx with isAlive := true } .storeStep
  | .storeStep => goto { ctx with currentStepIndex := 0 } .storeDone
  | .storeDone => goto { ctx with doneThreadCount := 0 } .storeDoneRun
  | .storeDoneRun => goto { ctx with doneRunThreadCount := 0 } .storeRunDone
  | .storeRunDone => goto { ctx with isRunDone := false } .storeBatch
  | .storeBatch => goto { ctx with batchSize := s.calls.getLastD 0 } .addEpoch
  | .addEpoch =>
      some { s with
        ctx := { ctx with epoch := ctx.epoch + 1 }
        main := .unlock
        round := s.round + 1 }
  | .unlock => goto { ctx with locked := false } .notify
  | .notify => some { s.notifyAll with main := .lockWait }
  | .lockWait => if ctx.locked then none else goto { ctx with locked := true } .loadObserved
  | .loadObserved => goto ctx .loopShutdown
  | .loopShutdown => goto ctx (if ctx.isShutdown then .unlockWait else .loopRunDone)
  | .loopRunDone => goto ctx (if ctx.isRunDone then .unlockWait else .loopAlive)
  | .loopAlive => goto ctx (if ctx.isAlive then .predShutdown false else .unlockWait)
  | .predShutdown timedOut =>
      goto ctx (if ctx.isShutdown then .unlockWait else .predRunDone timedOut)
  | .predRunDone timedOut =>
      goto ctx (if ctx.isRunDone then .unlockWait else .predAlive timedOut)
  | .predAlive timedOut =>
      if ctx.isAlive then
        if timedOut then goto ctx .loadProgress else goto { ctx with locked := false } .asleep
      else goto ctx .unlockWait
  | .asleep => none
  | .relock timedOut =>
      if ctx.locked then none else goto { ctx with locked := true } (.predShutdown timedOut)
  | .loadProgress => goto ctx .loopShutdown
  | .unlockWait => goto { ctx with locked := false } .checkAlive
  | .checkAlive =>
      if ctx.isAlive then some { s with main := .idle, returned := s.returned + 1 }
      else goto ctx .threw
  | .threw => none

/-- One step of the system. -/
inductive Step (nSteps : Nat) : State n → State n → Prop where
  | worker {s s' : State n} (t : Fin n) (h : workerStep nSteps t s = some s') : Step nSteps s s'
  | main {s s' : State n} (h : mainStep s = some s') : Step nSteps s s'
  /-- A wait on a condition variable can also end on its own. -/
  | wake {s : State n} (t : Fin n) (h : (s.workers t).pc = .asleep) :
      Step nSteps s (s.setPc t .lock)
  | wakeMain {s : State n} (timedOut : Bool) (h : s.main = .asleep) :
      Step nSteps s { s with main := .relock timedOut }
  /-- The program calls `forward` with the batch size that it has set. -/
  | call {s : State n} (batchSize : Nat) (hb : 0 < batchSize) (h : s.main = .idle) :
      Step nSteps s { s with main := .lock, calls := s.calls ++ [batchSize] }

/-! ## Runs -/

/-- Who takes the next step. -/
inductive Choice (n : Nat) where
  | worker (t : Fin n)
  | main
  | wake (t : Fin n)
  | wakeMain (timedOut : Bool)
  | call (batchSize : Nat)

def perform (nSteps : Nat) (s : State n) : Choice n → Option (State n)
  | .worker t => workerStep nSteps t s
  | .main => mainStep s
  | .wake t => if (s.workers t).pc = .asleep then some (s.setPc t .lock) else none
  | .wakeMain timedOut =>
      if s.main = .asleep then some { s with main := .relock timedOut } else none
  | .call batchSize =>
      if 0 < batchSize ∧ s.main = .idle then
        some { s with main := .lock, calls := s.calls ++ [batchSize] }
      else none

theorem step_of_perform {nSteps : Nat} {s s' : State n} {c : Choice n}
    (h : perform nSteps s c = some s') : Step nSteps s s' := by
  cases c with
  | worker t => exact .worker t h
  | main => exact .main h
  | wake t =>
      simp only [perform] at h
      split_ifs at h with hsleep
      cases h
      exact .wake t hsleep
  | wakeMain timedOut =>
      simp only [perform] at h
      split_ifs at h with hsleep
      cases h
      exact .wakeMain timedOut hsleep
  | call batchSize =>
      simp only [perform] at h
      split_ifs at h with hcall
      cases h
      exact .call batchSize hcall.1 hcall.2

/-- The run that a list of choices stands for. -/
def performAll (nSteps : Nat) : List (Choice n) → State n → Option (State n)
  | [], s => some s
  | c :: cs, s => perform nSteps s c >>= performAll nSteps cs

theorem reach_of_performAll {nSteps : Nat} {cs : List (Choice n)} {s s' : State n}
    (h : performAll nSteps cs s = some s') : Relation.ReflTransGen (Step nSteps) s s' := by
  induction cs generalizing s with
  | nil =>
      cases h
      exact .refl
  | cons c cs ih =>
      rcases Option.bind_eq_some_iff.1 h with ⟨next, hc, hcs⟩
      exact (ih hcs).head (step_of_perform hc)

end Executor
end PrefillOpt
