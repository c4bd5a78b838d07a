import Mathlib.Data.List.Infix
import PrefillOpt.Executor.StepBarrier

/-!
# ForwardHistory — what the threads have executed

The record of every thread is determined by where it stands: in each forward that it has finished it
has executed every step once and in order, in the latest one it has got as far as its program
counter says.
-/

namespace PrefillOpt
namespace Executor

open Lib

variable {n nSteps : Nat}

/-! ## The record of one thread -/

/-- The events of thread `t` in forward number `r`. -/
def Event.isOf (t : Fin n) (r : Nat) : Event n → Bool
  | .began thread round _ _ => decide (thread = t ∧ round = r)
  | .finished thread round _ => decide (thread = t ∧ round = r)

/-- The first `k` steps of a forward, each begun with that batch size and then finished. -/
def roundEvents (t : Fin n) (r batchSize k : Nat) : List (Event n) :=
  (List.range k).flatMap fun step => [.began t r step batchSize, .finished t r step]

/-- The batch size of the `r`-th call of `forward`, the first one being number 1. -/
def batchOf (calls : List Nat) (r : Nat) : Nat :=
  calls.getD (r - 1) 0

namespace Worker

/-- What a thread has executed in the forward that it has joined last. -/
def progress (nSteps cur : Nat) (t : Fin n) (batchSize : Nat) (w : Worker) : List (Event n) :=
  match w.pc with
  | .checkAlive | .loadStep => roundEvents t w.round batchSize cur
  | .execute step => roundEvents t w.round batchSize step
  | .executing step => roundEvents t w.round batchSize step ++ [.began t w.round step batchSize]
  | .countDone step | .resetDone step | .advance step | .spin _ step =>
      roundEvents t w.round batchSize (step + 1)
  | _ => roundEvents t w.round batchSize nSteps

/-- What a thread has executed in the forward number `r`. -/
def executed (nSteps cur : Nat) (calls : List Nat) (t : Fin n) (w : Worker) (r : Nat) :
    List (Event n) :=
  if r = 0 ∨ w.round < r then []
  else if r < w.round then roundEvents t r (batchOf calls r) nSteps
  else w.progress nSteps cur t (batchOf calls r)

end Worker

theorem roundEvents_succ (t : Fin n) (r batchSize k : Nat) :
    roundEvents t r batchSize (k + 1)
      = roundEvents t r batchSize k ++ [.began t r k batchSize, .finished t r k] := by
  rw [roundEvents, List.range_succ, List.flatMap_append, List.flatMap_singleton]
  rfl

theorem finished_mem_roundEvents {t : Fin n} {r batchSize k step : Nat} (h : step < k) :
    Event.finished t r step ∈ roundEvents t r batchSize k := by
  refine List.mem_flatMap.2 ⟨step, List.mem_range.2 h, ?_⟩
  simp

/-- Fewer steps are an initial part of more steps. -/
theorem roundEvents_isPrefix {t : Fin n} {r batchSize k k' : Nat} (h : k ≤ k') :
    List.IsPrefix (roundEvents t r batchSize k) (roundEvents t r batchSize k') := by
  rcases Nat.exists_eq_add_of_le h with ⟨d, rfl⟩
  rw [roundEvents, roundEvents, List.range_add, List.flatMap_append]
  exact List.prefix_append ..

/-! ## The invariant -/

/-- Before a thread begins a step all threads have finished the step before. -/
def BarrierKept (history : List (Event n)) : Prop :=
  ∀ before t r k batchSize after, history = before ++ .began t r (k + 1) batchSize :: after →
    ∀ t', .finished t' r k ∈ before

structure Recorded (nSteps : Nat) (s : State n) : Prop where
  events : ∀ t r, s.history.filter (Event.isOf t r)
    = (s.workers t).executed nSteps s.ctx.currentStepIndex s.calls t r
  barrier : BarrierKept s.history

theorem init_recorded : Recorded nSteps (State.init n) where
  events t r := by
    have hnone : r = 0 ∨ 0 < r := Nat.eq_zero_or_pos r
    simp [State.init, Worker.executed, hnone]
  barrier before t r k batchSize after h := by
    simp [State.init] at h

/-- Only a beginning can break the barrier. -/
theorem BarrierKept.append {history : List (Event n)} (h : BarrierKept history) {e : Event n}
    (he : ∀ t r k batchSize, e = .began t r (k + 1) batchSize →
      ∀ t', .finished t' r k ∈ history) : BarrierKept (history ++ [e]) := by
  intro before t r k batchSize after hsplit t'
  rcases List.eq_nil_or_concat after with rfl | ⟨after', last, rfl⟩
  · have hlast := List.append_inj' hsplit rfl
    rw [← hlast.1]
    exact he t r k batchSize (List.singleton_inj.1 hlast.2) t'
  · have hsplit' :
        history ++ [e] = (before ++ .began t r (k + 1) batchSize :: after') ++ [last] := by
      simpa using hsplit
    exact h before t r k batchSize after' (List.append_inj' hsplit' rfl).1 t'

/-- The record of a thread depends on its program counter and its number of forwards only. -/
theorem Worker.executed_congr {cur cur' : Nat} {calls : List Nat} {t : Fin n} {w w' : Worker}
    (hround : w'.round = w.round)
    (hprogress : ∀ batchSize, w'.progress nSteps cur' t batchSize
      = w.progress nSteps cur t batchSize) (r : Nat) :
    w'.executed nSteps cur' calls t r = w.executed nSteps cur calls t r := by
  rw [Worker.executed, Worker.executed, hround, hprogress]

section Steps

variable {s : State n} {t : Fin n}

/-- Nothing is executed, and the record of no thread changes. -/
theorem Recorded.silent (h : Recorded nSteps s) {s' : State n} (hhistory : s'.history = s.history)
    (hsame : ∀ t r, (s'.workers t).executed nSteps s'.ctx.currentStepIndex s'.calls t r
      = (s.workers t).executed nSteps s.ctx.currentStepIndex s.calls t r) : Recorded nSteps s' where
  events t r := by
    rw [hhistory, hsame]
    exact h.events t r
  barrier := by
    rw [hhistory]
    exact h.barrier

/-- A thread goes on to another program counter and executes nothing. -/
theorem Recorded.goto (h : Recorded nSteps s) {pc pc' : WorkerPc} {localEpoch : UInt32}
    {round : Nat} (hw : s.workers t = ⟨pc, localEpoch, round⟩) (ctx : NnExecutorContext)
    (hcur : ctx.currentStepIndex = s.ctx.currentStepIndex)
    (hprogress : ∀ batchSize,
      Worker.progress nSteps s.ctx.currentStepIndex t batchSize ⟨pc', localEpoch, round⟩
        = Worker.progress nSteps s.ctx.currentStepIndex t batchSize ⟨pc, localEpoch, round⟩) :
    Recorded nSteps ((s.setCtx ctx).setPc t pc') := by
  refine h.silent rfl fun t' r => ?_
  have hcur' : ((s.setCtx ctx).setPc t pc').ctx.currentStepIndex = s.ctx.currentStepIndex := hcur
  rw [hcur']
  refine forall_update (Q := fun t' w => w.executed nSteps s.ctx.currentStepIndex s.calls t' r
    = (s.workers t').executed nSteps s.ctx.currentStepIndex s.calls t' r) ?_ (fun _ _ => rfl) t'
  have hpc : ({ (s.setCtx ctx).workers t with pc := pc' } : Worker) = ⟨pc', localEpoch, round⟩ := by
    rw [show (s.setCtx ctx).workers t = s.workers t from rfl, hw]
  have hround : (⟨pc', localEpoch, round⟩ : Worker).round
      = (⟨pc, localEpoch, round⟩ : Worker).round := rfl
  rw [hpc, hw]
  exact Worker.executed_congr hround hprogress r

theorem Recorded.notifyAll (h : Recorded nSteps s) : Recorded nSteps s.notifyAll := by
  refine h.silent rfl fun t' r => ?_
  refine Worker.executed_congr ?_ (fun batchSize => ?_) r
  · rcases hw : s.workers t' with ⟨pc, localEpoch, round⟩
    simp only [State.notifyAll, hw]
    cases pc <;> rfl
  · rcases hw : s.workers t' with ⟨pc, localEpoch, round⟩
    simp only [State.notifyAll, hw]
    cases pc <;> rfl

/-- A thread joins a forward, in which it has not executed anything yet. -/
theorem Worker.executed_join {calls : List Nat} {localEpoch epoch : UInt32} {round : Nat} (r : Nat) :
    Worker.executed nSteps 0 calls t ⟨.checkAlive, epoch, round + 1⟩ r
      = Worker.executed nSteps 0 calls t ⟨.loadEpoch, localEpoch, round⟩ r := by
  unfold Worker.executed
  rcases Nat.lt_trichotomy r round with hlt | heq | hgt
  · have h₁ : ¬ round < r := Nat.not_lt.2 hlt.le
    have h₂ : ¬ round + 1 < r := by omega
    have h₃ : r < round + 1 := by omega
    simp [hlt, h₁, h₂, h₃]
  · subst heq
    simp [Worker.progress]
  · have h₁ : ¬ r < round + 1 := by omega
    by_cases hnew : r = round + 1
    · subst hnew
      simp [Worker.progress, roundEvents]
    · have h₂ : round + 1 < r := by omega
      simp [hgt, h₂]

/-- A thread begins or finishes a step. -/
theorem Recorded.event (h : Recorded nSteps s) {pc pc' : WorkerPc} {localEpoch : UInt32}
    {round : Nat} (hw : s.workers t = ⟨pc, localEpoch, round⟩) {e : Event n} (hround : round ≠ 0)
    (hmine : ∀ t' r, Event.isOf t' r e = decide (t = t' ∧ round = r))
    (hprogress : Worker.progress nSteps s.ctx.currentStepIndex t (batchOf s.calls round)
        ⟨pc', localEpoch, round⟩
      = Worker.progress nSteps s.ctx.currentStepIndex t (batchOf s.calls round)
          ⟨pc, localEpoch, round⟩ ++ [e])
    (hbarrier : ∀ t₁ r k batchSize, e = .began t₁ r (k + 1) batchSize →
      ∀ t', .finished t' r k ∈ s.history) :
    Recorded nSteps ((s.record e).setPc t pc') where
  events t' r := by
    have hpc : ((s.record e).setPc t pc').workers
        = Function.update s.workers t ⟨pc', localEpoch, round⟩ := by
      simp only [State.setPc, State.setWorker, State.record, hw]
    have hold := h.events t' r
    rw [hpc]
    show (s.history ++ [e]).filter (Event.isOf t' r) = _
    rw [List.filter_append, hold]
    by_cases ht : t' = t
    · subst ht
      rw [Function.update_self, hw, Worker.executed, Worker.executed]
      by_cases hr : round = r
      · subst hr
        have he : List.filter (Event.isOf t' round) [e] = [e] := by simp [hmine]
        rw [he]
        simp only [hround, Nat.lt_irrefl, or_self, if_false]
        exact hprogress.symm
      · have he : List.filter (Event.isOf t' r) [e] = [] := by simp [hmine, hr]
        rw [he, List.append_nil]
        by_cases hout : r = 0 ∨ round < r
        · rw [if_pos hout, if_pos hout]
        · have hlt : r < round := by omega
          rw [if_neg hout, if_neg hout, if_pos hlt, if_pos hlt]
          rfl
    · have he : List.filter (Event.isOf t' r) [e] = [] := by simp [hmine, Ne.symm ht]
      rw [he, List.append_nil, Function.update_of_ne ht]
      rfl
  barrier := h.barrier.append hbarrier

/-- A thread of the latest forward has finished every step before the current one. -/
theorem Worker.finished_mem_progress {running : Bool} {round cur batchSize step : Nat} {w : Worker}
    (hok : w.Ok nSteps running round cur) (hround : w.round = round) (hrunning : running = true)
    (h : step < cur) : Event.finished t round step ∈ w.progress nSteps cur t batchSize := by
  rcases w with ⟨pc, localEpoch, wround⟩
  have hround' : wround = round := hround
  subst hround'
  rcases hok with ⟨_, hplace⟩
  cases pc with
  | checkAlive => exact finished_mem_roundEvents h
  | loadStep => exact finished_mem_roundEvents h
  | execute k =>
      have hk : k = cur := hplace.2.2.1
      exact finished_mem_roundEvents (hk ▸ h)
  | executing k =>
      have hk : k = cur := hplace.2.2.1
      exact List.mem_append_left _ (finished_mem_roundEvents (hk ▸ h))
  | countDone k =>
      have hk : k = cur := hplace.2.2.1
      exact finished_mem_roundEvents (hk ▸ Nat.lt_succ_of_lt h)
  | resetDone k =>
      have hk : k = cur := hplace.2.2.1
      exact finished_mem_roundEvents (hk ▸ Nat.lt_succ_of_lt h)
  | advance k =>
      have hk : k = cur := hplace.2.2.1
      exact finished_mem_roundEvents (hk ▸ Nat.lt_succ_of_lt h)
  | spin load k =>
      have hk : k = cur ∨ k + 1 = cur := hplace.2.2.1
      exact finished_mem_roundEvents (by omega)
  | countRun =>
      have hcur : cur = nSteps := hplace.2.2
      exact finished_mem_roundEvents (hcur ▸ h)
  | setRunDone =>
      have hcur : cur = nSteps := hplace.2.2
      exact finished_mem_roundEvents (hcur ▸ h)
  | checkShutdown => exact absurd hplace.2.1 (Nat.succ_ne_self _)
  | loadEpoch => exact absurd hplace.2.1 (Nat.succ_ne_self _)
  | stopped => exact hplace.elim
  | _ =>
      rcases hplace with ⟨_, hcur⟩ | ⟨_, hbehind, _⟩
      · exact finished_mem_roundEvents (hcur hrunning ▸ h)
      · exact absurd hbehind (Nat.succ_ne_self _)

/-- A forward in progress is not the first round, before any call. -/
theorem Inv.round_ne_zero (hI : Inv nSteps s) (hrunning : s.main.running = true) :
    s.round ≠ 0 := by
  have hround := hI.round
  rw [hrunning] at hround
  exact hround ▸ Nat.succ_ne_zero _

/-- When a thread stands before a step, all threads have finished the step before. -/
theorem Recorded.finished_before (hI : Inv nSteps s) (h : Recorded nSteps s)
    (hrunning : s.main.running = true) {k : Nat} (hk : k < s.ctx.currentStepIndex) (t' : Fin n) :
    Event.finished t' s.round k ∈ s.history := by
  have hok := hI.workers t'
  have hjoined : (s.workers t').round = s.round := by
    rcases hw : s.workers t' with ⟨pc, localEpoch, round⟩
    rw [hw] at hok
    rcases hok with ⟨_, hplace⟩
    cases pc <;> simp_all <;> omega
  have hpos := hI.round_ne_zero hrunning
  have hmem : Event.finished t' s.round k ∈ (s.workers t').progress nSteps s.ctx.currentStepIndex
      t' (batchOf s.calls s.round) := Worker.finished_mem_progress hok hjoined hrunning hk
  have hevents := h.events t' s.round
  have hout : ¬ (s.round = 0 ∨ (s.workers t').round < s.round) := by
    rw [hjoined]
    simp [hpos]
  rw [Worker.executed, if_neg hout, hjoined, if_neg (Nat.lt_irrefl _)] at hevents
  rw [← hevents] at hmem
  exact (List.mem_filter.1 hmem).1

/-- While a forward is in progress its batch size is the one of the latest call. -/
theorem Inv.batchSize_eq (hI : Inv nSteps s) (hrunning : s.main.running = true) :
    s.ctx.batchSize = batchOf s.calls s.round := by
  have hround := hI.round
  have hcalls := hI.calls
  have hidle : s.main ≠ .idle := fun hpc => by
    rw [hpc] at hrunning
    cases hrunning
  rw [hrunning, if_pos rfl] at hround
  rw [if_neg hidle] at hcalls
  rw [(hI.counts hrunning).batch, batchOf, hround, ← hcalls]
  rw [List.getLastD_eq_getLast?, List.getLast?_eq_getElem?, List.getD_eq_getElem?_getD]

theorem workerStep_recorded (hI : Inv nSteps s) (h : Recorded nSteps s) {s' : State n}
    (hstep : workerStep nSteps t s = some s') : Recorded nSteps s' := by
  have hok := hI.workers t
  rcases hw : s.workers t with ⟨pc, localEpoch, round⟩
  rw [hw] at hok
  cases pc with
  | lock =>
      simp only [workerStep, hw] at hstep
      split_ifs at hstep
      cases hstep
      exact h.goto hw _ rfl fun _ => rfl
  | waitShutdown =>
      simp only [workerStep, hw] at hstep
      split_ifs at hstep
      · cases hstep
        exact h.goto hw _ rfl fun _ => rfl
      · cases hstep
        exact h.goto hw s.ctx rfl fun _ => rfl
  | waitEpoch =>
      simp only [workerStep, hw] at hstep
      cases hstep
      split_ifs
      · exact h.goto hw _ rfl fun _ => rfl
      · exact h.goto hw _ rfl fun _ => rfl
  | asleep =>
      simp only [workerStep, hw] at hstep
      cases hstep
  | checkShutdown =>
      simp only [workerStep, hw] at hstep
      cases hstep
      split_ifs
      · exact h.goto hw s.ctx rfl fun _ => rfl
      · exact h.goto hw s.ctx rfl fun _ => rfl
  | loadEpoch =>
      simp only [workerStep, hw] at hstep
      cases hstep
      have hcur : s.ctx.currentStepIndex = 0 := hok.2.2.2
      refine h.silent rfl fun t' r => ?_
      refine forall_update (Q := fun t' w => w.executed nSteps s.ctx.currentStepIndex s.calls t' r
        = (s.workers t').executed nSteps s.ctx.currentStepIndex s.calls t' r) ?_ (fun _ _ => rfl) t'
      rw [hw, hcur]
      exact Worker.executed_join r
  | checkAlive =>
      simp only [workerStep, hw, hI.alive, if_true] at hstep
      cases hstep
      exact h.goto hw s.ctx rfl fun _ => rfl
  | loadStep =>
      simp only [workerStep, hw] at hstep
      cases hstep
      split_ifs with hlast
      · refine h.goto hw s.ctx rfl fun _ => ?_
        simp only [Worker.progress, hlast]
      · exact h.goto hw s.ctx rfl fun _ => rfl
  | execute step =>
      rcases hok with ⟨_, hrunning, hround, hsame, _⟩
      have hround' : round = s.round := hround
      have hpos : round ≠ 0 := hround'.trans_ne (hI.round_ne_zero hrunning)
      simp only [workerStep, hw] at hstep
      cases hstep
      refine h.event hw hpos (fun _ _ => rfl) ?_ ?_
      · rw [hround', ← hI.batchSize_eq hrunning]
        rfl
      · intro t₁ r k batchSize he t'
        simp only [Event.began.injEq] at he
        rcases he with ⟨_, hr, hk, _⟩
        have hlt : k < s.ctx.currentStepIndex := by omega
        have hmem := h.finished_before hI hrunning hlt t'
        rwa [← hround', hr] at hmem
  | executing step =>
      rcases hok with ⟨_, hrunning, hround, hsame, _⟩
      have hround' : round = s.round := hround
      have hpos : round ≠ 0 := hround'.trans_ne (hI.round_ne_zero hrunning)
      simp only [workerStep, hw] at hstep
      cases hstep
      refine h.event hw hpos (fun _ _ => rfl) ?_ fun t₁ r k batchSize he => by cases he
      show roundEvents t round _ (step + 1) = (roundEvents t round _ step ++ [_]) ++ [_]
      rw [roundEvents_succ, List.append_assoc]
      rfl
  | countDone step =>
      simp only [workerStep, hw] at hstep
      cases hstep
      split_ifs
      · exact h.goto hw _ rfl fun _ => rfl
      · exact h.goto hw _ rfl fun _ => rfl
  | resetDone step =>
      simp only [workerStep, hw] at hstep
      cases hstep
      exact h.goto hw _ rfl fun _ => rfl
  | advance step =>
      rcases hok with ⟨_, hrunning, hround, hsame, _⟩
      have hothers := (hI.counts hrunning).steps.leader t (by rw [hw]; rfl)
      simp only [workerStep, hw] at hstep
      cases hstep
      refine h.silent rfl fun t' r => ?_
      simp only [State.setPc, State.setWorker, State.setCtx, hw]
      refine forall_update (Q := fun t' w => w.executed nSteps (s.ctx.currentStepIndex + 1) s.calls
        t' r = (s.workers t').executed nSteps s.ctx.currentStepIndex s.calls t' r) ?_ ?_ t'
      · rw [hw]
        refine Worker.executed_congr rfl (fun batchSize => ?_) r
        simp only [Worker.progress, hsame]
      · intro t' ht
        -- the others wait, and what they have executed does not depend on the current step
        have hspins := hothers t' ht
        refine Worker.executed_congr rfl (fun batchSize => ?_) r
        rcases hw' : s.workers t' with ⟨pc, localEpoch', round'⟩
        rw [hw'] at hspins
        cases pc with
        | spin load step' => rfl
        | _ => cases hspins
  | spin load step =>
      rcases hok with ⟨_, hrunning, hround, hsame, hcur, hlt⟩
      have halive : s.ctx.isAlive = true := hI.alive
      cases load with
      | step =>
          simp only [workerStep, hw] at hstep
          cases hstep
          split_ifs with hstill
          · exact h.goto hw s.ctx rfl fun _ => rfl
          · refine h.goto hw s.ctx rfl fun _ => ?_
            have hpast : step + 1 = s.ctx.currentStepIndex := by omega
            simp only [Worker.progress, hpast]
      | alive =>
          simp only [workerStep, hw, halive, if_true] at hstep
          cases hstep
          exact h.goto hw s.ctx rfl fun _ => rfl
      | shutdown =>
          simp only [workerStep, hw, hI.notShutdown, Bool.false_eq_true, if_false] at hstep
          cases hstep
          exact h.goto hw s.ctx rfl fun _ => rfl
      | epoch =>
          have hepoch : s.ctx.epoch = localEpoch := by
            have hlocal := (hI.workers t).1
            rw [hw] at hlocal
            have hround' : round = s.round := hround
            rw [hI.epoch, ← hround']
            exact hlocal.symm
          simp only [workerStep, hw, hepoch, if_true] at hstep
          cases hstep
          exact h.goto hw s.ctx rfl fun _ => rfl
  | countRun =>
      simp only [workerStep, hw] at hstep
      cases hstep
      split_ifs
      · exact h.goto hw _ rfl fun _ => rfl
      · exact h.goto hw _ rfl fun _ => rfl
  | setRunDone =>
      simp only [workerStep, hw] at hstep
      cases hstep
      exact h.goto hw _ rfl fun _ => rfl
  | notify =>
      simp only [workerStep, hw] at hstep
      cases hstep
      have hw' : s.notifyAll.workers t = ⟨.notify, localEpoch, round⟩ := by
        simp [State.notifyAll, Worker.wakeUp, hw]
      exact h.notifyAll.goto hw' s.ctx rfl fun _ => rfl
  | stopped =>
      simp only [workerStep, hw] at hstep
      cases hstep

/-- `forward` executes nothing itself, and it moves `currentStepIndex` only between forwards. -/
theorem mainStep_frame {s' : State n} (hstep : mainStep s = some s') :
    s'.history = s.history ∧ s'.calls = s.calls ∧
      (s'.workers = s.workers ∨ s'.workers = s.notifyAll.workers) ∧
      (s.main.running = true → s'.ctx.currentStepIndex = s.ctx.currentStepIndex) := by
  cases hpc : s.main with
  | notify =>
      simp only [mainStep, hpc] at hstep
      cases hstep
      exact ⟨rfl, rfl, .inr rfl, fun _ => rfl⟩
  | storeStep =>
      simp only [mainStep, hpc] at hstep
      cases hstep
      exact ⟨rfl, rfl, .inl rfl, fun hrunning => by cases hrunning⟩
  | _ =>
      simp only [mainStep, hpc] at hstep
      try split_ifs at hstep
      all_goals
        cases hstep
        try exact ⟨rfl, rfl, .inl rfl, fun _ => rfl⟩

/-- What a parked thread has executed does not depend on the current step. -/
theorem Worker.executed_parked {w : Worker} (h : w.pc.parked = true) (cur cur' : Nat)
    (calls : List Nat) (r : Nat) :
    w.executed nSteps cur' calls t r = w.executed nSteps cur calls t r := by
  refine Worker.executed_congr rfl (fun batchSize => ?_) r
  rcases w with ⟨pc, localEpoch, round⟩
  cases pc <;> first | rfl | cases h

theorem mainStep_recorded (hI : Inv nSteps s) (h : Recorded nSteps s) {s' : State n}
    (hstep : mainStep s = some s') : Recorded nSteps s' := by
  rcases mainStep_frame hstep with ⟨hhistory, hcalls, hworkers, hcur⟩
  -- first the current step moves, then threads may be woken
  have hmoved : ∀ t r, (s.workers t).executed nSteps s'.ctx.currentStepIndex s.calls t r
      = (s.workers t).executed nSteps s.ctx.currentStepIndex s.calls t r := by
    intro t r
    cases hrunning : s.main.running with
    | true => rw [hcur hrunning]
    | false =>
        have hok := hI.workers t
        rw [hrunning] at hok
        exact Worker.executed_parked hok.quiet.2.2 _ _ _ r
  refine h.silent hhistory fun t r => ?_
  rw [hcalls, ← hmoved t r]
  rcases hworkers with hsame | hwoken
  · rw [hsame]
  · rw [hwoken]
    refine Worker.executed_congr ?_ (fun batchSize => ?_) r
    · rcases hw : s.workers t with ⟨pc, localEpoch, round⟩
      simp only [State.notifyAll, hw]
      cases pc <;> rfl
    · rcases hw : s.workers t with ⟨pc, localEpoch, round⟩
      simp only [State.notifyAll, hw]
      cases pc <;> rfl

/-- A new call changes the batch size of no forward that somebody has joined. -/
theorem Worker.executed_call {calls : List Nat} {w : Worker} {cur : Nat}
    (h : w.round ≤ calls.length) (batchSize r : Nat) :
    w.executed nSteps cur (calls ++ [batchSize]) t r = w.executed nSteps cur calls t r := by
  by_cases hout : r = 0 ∨ w.round < r
  · rw [Worker.executed, Worker.executed, if_pos hout, if_pos hout]
  · have hin : r - 1 < calls.length := by omega
    have hbatch : batchOf (calls ++ [batchSize]) r = batchOf calls r := by
      rw [batchOf, batchOf, List.getD_eq_getElem?_getD, List.getD_eq_getElem?_getD,
        List.getElem?_append_left hin]
    rw [Worker.executed, Worker.executed, hbatch]

theorem step_recorded (hI : Inv nSteps s) (h : Recorded nSteps s) {s' : State n}
    (hstep : Step nSteps s s') : Recorded nSteps s' := by
  cases hstep with
  | worker t ht => exact workerStep_recorded hI h ht
  | main hm => exact mainStep_recorded hI h hm
  | wake t hsleep =>
      rcases hw : s.workers t with ⟨pc, localEpoch, round⟩
      rw [hw] at hsleep
      have hpc : pc = .asleep := hsleep
      subst hpc
      exact h.goto hw s.ctx rfl fun _ => rfl
  | wakeMain timedOut hsleep => exact h.silent rfl fun _ _ => rfl
  | call batchSize hb hidle =>
      refine h.silent rfl fun t r => Worker.executed_call ?_ batchSize r
      have hquiet : s.main.running = false := by
        rw [hidle]
        rfl
      have hround := hI.round
      have hcalls := hI.calls
      have hok := hI.workers t
      rw [hquiet] at hround hok
      rw [if_pos hidle] at hcalls
      rw [hok.quiet.2.1, hround, hcalls]
      exact Nat.le_refl _

end Steps

/-! ## The step barrier -/

abbrev Reachable (nSteps : Nat) (s : State n) : Prop :=
  Relation.ReflTransGen (Step nSteps) (State.init n) s

theorem reachable_recorded {s : State n} (h : Reachable nSteps s) :
    Inv nSteps s ∧ Recorded nSteps s := by
  have hstep : ∀ s s' : State n, Inv nSteps s ∧ Recorded nSteps s → Step nSteps s s' →
      Inv nSteps s' ∧ Recorded nSteps s' :=
    fun s s' hs hs' => ⟨step_inv hs.1 hs', step_recorded hs.1 hs.2 hs'⟩
  exact invariant_of_reach hstep ⟨init_inv, init_recorded⟩ h

theorem Worker.progress_isPrefix {running : Bool} {round cur batchSize : Nat} {t : Fin n}
    {w : Worker} (hok : w.Ok nSteps running round cur) :
    List.IsPrefix (w.progress nSteps cur t batchSize)
      (roundEvents t w.round batchSize nSteps) := by
  rcases w with ⟨pc, localEpoch, wround⟩
  rcases hok with ⟨_, hplace⟩
  cases pc with
  | checkAlive => exact roundEvents_isPrefix hplace.2.2
  | loadStep => exact roundEvents_isPrefix hplace.2.2
  | execute k => exact roundEvents_isPrefix (hplace.2.2.1 ▸ hplace.2.2.2.le)
  | executing k =>
      have hk : k + 1 ≤ nSteps := hplace.2.2.1 ▸ hplace.2.2.2
      have hsplit : roundEvents t wround batchSize (k + 1)
          = (roundEvents t wround batchSize k ++ [.began t wround k batchSize])
            ++ [.finished t wround k] := by
        rw [roundEvents_succ, List.append_assoc]
        rfl
      have hbegin : List.IsPrefix (roundEvents t wround batchSize k ++ [.began t wround k batchSize])
          (roundEvents t wround batchSize (k + 1)) := by
        rw [hsplit]
        exact List.prefix_append ..
      exact hbegin.trans (roundEvents_isPrefix hk)
  | countDone k => exact roundEvents_isPrefix (hplace.2.2.1 ▸ hplace.2.2.2)
  | resetDone k => exact roundEvents_isPrefix (hplace.2.2.1 ▸ hplace.2.2.2)
  | advance k => exact roundEvents_isPrefix (hplace.2.2.1 ▸ hplace.2.2.2)
  | spin load k => exact roundEvents_isPrefix hplace.2.2.2.2
  | _ => exact List.prefix_rfl

/-- A thread that has not joined the latest forward is done with the one before. -/
theorem Worker.Ok.behind {running : Bool} {round cur : Nat} {w : Worker}
    (hok : w.Ok nSteps running round cur) (hne : w.round ≠ round) (t : Fin n) (batchSize : Nat) :
    w.round + 1 = round ∧
      w.progress nSteps cur t batchSize = roundEvents t w.round batchSize nSteps := by
  rcases w with ⟨pc, localEpoch, wround⟩
  rcases hok with ⟨_, hplace⟩
  have hne' : wround ≠ round := hne
  cases pc with
  | checkShutdown => exact ⟨hplace.2.1, rfl⟩
  | loadEpoch => exact ⟨hplace.2.1, rfl⟩
  | lock => exact ⟨(hplace.resolve_left fun h => hne' h.1).2.1, rfl⟩
  | waitShutdown => exact ⟨(hplace.resolve_left fun h => hne' h.1).2.1, rfl⟩
  | waitEpoch => exact ⟨(hplace.resolve_left fun h => hne' h.1).2.1, rfl⟩
  | asleep => exact ⟨(hplace.resolve_left fun h => hne' h.1).2.1, rfl⟩
  | notify => exact ⟨(hplace.resolve_left fun h => hne' h.1).2.1, rfl⟩
  | stopped => exact hplace.elim
  | _ => exact absurd hplace.2.1 hne'

/-- In a forward that has returned a thread has executed everything. -/
theorem Inv.executed_returned {s : State n} (hI : Inv nSteps s) (t : Fin n) {r : Nat}
    (hone : 1 ≤ r) (hr : r ≤ s.returned) :
    (s.workers t).executed nSteps s.ctx.currentStepIndex s.calls t r
      = roundEvents t r (batchOf s.calls r) nSteps := by
  have hok := hI.workers t
  have hround := hI.round
  have hclosed : r ≤ (s.workers t).round ∧ ((s.workers t).round = r →
      (s.workers t).progress nSteps s.ctx.currentStepIndex t (batchOf s.calls r)
        = roundEvents t (s.workers t).round (batchOf s.calls r) nSteps) := by
    by_cases hjoined : (s.workers t).round = s.round
    · cases hrunning : s.main.running with
      | true =>
          rw [hrunning] at hround
          have hlt : r < (s.workers t).round := by
            rw [hjoined, hround]
            exact Nat.lt_succ_of_le hr
          exact ⟨hlt.le, fun heq => absurd heq (Nat.ne_of_gt hlt)⟩
      | false =>
          rw [hrunning] at hround hok
          refine ⟨by rw [hjoined, hround]; exact hr, fun _ => ?_⟩
          have hparked := hok.quiet.2.2
          rcases hw : s.workers t with ⟨pc, localEpoch, round⟩
          rw [hw] at hparked
          cases pc <;> first | rfl | cases hparked
    · have hbehind := hok.behind hjoined t (batchOf s.calls r)
      refine ⟨?_, fun _ => hbehind.2⟩
      cases hrunning : s.main.running with
      | true =>
          rw [hrunning, if_pos rfl] at hround
          omega
      | false =>
          rw [hrunning] at hok
          exact absurd hok.quiet.2.1 hjoined
  have hin : ¬ (r = 0 ∨ (s.workers t).round < r) := by omega
  rw [Worker.executed, if_neg hin]
  split_ifs with hpast
  · rfl
  · have heq : (s.workers t).round = r := Nat.le_antisymm (Nat.not_lt.1 hpast) hclosed.1
    rw [hclosed.2 heq, heq]

/-- The step barrier.  In every reachable state, for any number of threads, steps and forwards:

- nobody has begun a step before all threads had finished the step before it;
- in every forward every thread has executed some first steps in order, each once and each with
  the batch size of that forward;
- in every forward that has returned every thread has executed all steps;
- when `forward` has returned all threads are outside the step loop. -/
theorem step_barrier_correct {s : State n} (h : Reachable nSteps s) :
    BarrierKept s.history ∧
      (∀ t r, List.IsPrefix (s.history.filter (Event.isOf t r))
        (roundEvents t r (batchOf s.calls r) nSteps)) ∧
      (∀ t r, 1 ≤ r → r ≤ s.returned →
        s.history.filter (Event.isOf t r) = roundEvents t r (batchOf s.calls r) nSteps) ∧
      (s.main = .idle → ∀ t, (s.workers t).pc.parked = true ∧ (s.workers t).round = s.returned) := by
  rcases reachable_recorded h with ⟨hI, hR⟩
  refine ⟨hR.barrier, fun t r => ?_, fun t r hone hr => ?_, fun hidle t => ?_⟩
  · rw [hR.events, Worker.executed]
    split_ifs with hout hpast
    · exact List.nil_prefix
    · exact List.prefix_rfl
    · have hround : (s.workers t).round = r := by omega
      have hleading : List.IsPrefix ((s.workers t).progress nSteps s.ctx.currentStepIndex t
          (batchOf s.calls r)) (roundEvents t (s.workers t).round (batchOf s.calls r) nSteps) :=
        Worker.progress_isPrefix (hI.workers t)
      rwa [hround] at hleading
  · rw [hR.events]
    exact hI.executed_returned t hone hr
  · have hok := hI.workers t
    have hround := hI.round
    rw [hidle] at hok hround
    exact ⟨hok.quiet.2.2, hok.quiet.2.1.trans hround⟩

/-- One forward of one step on two threads: thread 0 comes first and waits for thread 1. -/
def twoThreads : List (Choice 2) :=
  [.call 5] ++ List.replicate 10 .main ++ List.replicate 10 (.worker 0)
    ++ List.replicate 15 (.worker 1) ++ List.replicate 6 (.worker 0) ++ List.replicate 6 .main

theorem step_barrier_twoThreads :
    ∃ s : State 2, performAll 1 twoThreads (State.init 2) = some s ∧ s.returned = 1 ∧
      BarrierKept s.history ∧ s.history.filter (Event.isOf 1 1) = roundEvents 1 1 5 1 := by
  have hsome : (performAll 1 twoThreads (State.init 2)).isSome = true := by decide
  rcases Option.isSome_iff_exists.1 hsome with ⟨s, hs⟩
  have hreturned : (performAll 1 twoThreads (State.init 2)).map State.returned = some 1 := by
    decide
  have hcalls : (performAll 1 twoThreads (State.init 2)).map State.calls = some [5] := by
    decide
  rw [hs] at hreturned hcalls
  have hcorrect := step_barrier_correct (reach_of_performAll hs)
  have hone : 1 ≤ s.returned := (Option.some.inj hreturned).ge
  have hall := hcorrect.2.2.1 1 1 (Nat.le_refl 1) hone
  rw [Option.some.inj hcalls] at hall
  exact ⟨s, hs, Option.some.inj hreturned, hcorrect.1, hall⟩

end Executor
end PrefillOpt
