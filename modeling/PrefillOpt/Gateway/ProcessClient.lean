import Mathlib.Algebra.Ring.Int.Defs
import Mathlib.Algebra.BigOperators.Group.List.Basic
import Mathlib.Algebra.Order.Group.Int
import PrefillOpt.Gateway.Backends
import PrefillOpt.Lib.Transition

/-!
# Gateway.ProcessClient — the accounting of the gateway

`processClient` of `dllama-gateway.cpp`, one detached thread for each accepted client.  A step is
one atomic operation on the shared state or one operation on a socket, which may fail.

The reply to a client that finds all backends busy is written inside the `try` block, after the
slot is given up; when that write fails, the handler comes to the end of the function, where the
slot is given up once more.
-/

namespace PrefillOpt
namespace Gateway

open Lib Relation

/-- The next operation of a `processClient` call. -/
inductive Pc where
  /-- `++state->activeRequests` -/
  | enter
  /-- Too many requests: `--state->activeRequests`. -/
  | queueFull
  /-- `writePlainResponse`, outside the `try` block. -/
  | writeQueueFull
  | readRequest
  | selectBackend
  /-- No backend has room: `--state->activeRequests`. -/
  | allBusy
  /-- `writePlainResponse`, inside the `try` block. -/
  | writeAllBusy
  | copyBackend (backendIndex : Nat)
  | connect (backendIndex : Nat)
  | writeRequest (backendIndex : Nat)
  | proxyResponse (backendIndex : Nat)
  /-- The handler writes its response and ignores a failure. -/
  | handler (backendIndex : Option Nat)
  | release (backendIndex : Option Nat) (backendFailed : Bool)
  /-- `--state->activeRequests` at the end of the function. -/
  | leave
  | done
  /-- An exception left the thread function. -/
  | terminated
  deriving DecidableEq, Repr

/-- How an operation on a socket ends; the response is proxied in any number of rounds. -/
inductive Outcome where
  | ok
  | more
  | failed
  deriving DecidableEq, Repr

/-- One call; `givenUp` counts its decrements of `activeRequests`. -/
structure Call where
  pc : Pc
  givenUp : Nat
  deriving DecidableEq, Repr

namespace Pc

/-- The backend that is acquired and not released. -/
def held : Pc → Option Nat
  | .copyBackend i | .connect i | .writeRequest i | .proxyResponse i => some i
  | .handler b | .release b _ => b
  | _ => none

/-- The decrements behind this point on every way through the source but one. -/
def decrements : Pc → Nat
  | .writeQueueFull | .writeAllBusy | .done | .terminated => 1
  | _ => 0

end Pc

namespace Call

/-- The call has acquired the backend and not released it. -/
def HoldsBackend (c : Call) (i : Nat) : Prop := c.pc.held = some i

instance (c : Call) (i : Nat) : Decidable (c.HoldsBackend i) :=
  inferInstanceAs (Decidable (_ = _))

/-- The call has started and not given up its slot. -/
def HoldsSlot (c : Call) : Prop := c.pc ≠ .enter ∧ c.givenUp = 0

instance (c : Call) : Decidable c.HoldsSlot := inferInstanceAs (Decidable (_ ∧ _))

/-- One step of a call at the time `now`. -/
def step (config : GatewayConfig) (s : RuntimeState) (c : Call) (o : Outcome) (now : Nat) :
    Option (RuntimeState × Call) :=
  let giveUp : RuntimeState := { s with activeRequests := s.activeRequests - 1 }
  match c.pc with
  | .enter =>
      let activeNow := s.activeRequests + 1
      some ({ s with activeRequests := activeNow },
        { c with pc := if config.maxQueue < activeNow then .queueFull else .readRequest })
  | .queueFull => some (giveUp, ⟨.writeQueueFull, c.givenUp + 1⟩)
  | .writeQueueFull => some (s, { c with pc := if o = .failed then .terminated else .done })
  | .readRequest =>
      some (s, { c with pc := if o = .failed then .handler none else .selectBackend })
  | .selectBackend =>
      match s.selectBackendAndAcquire config now with
      | (s, none) => some (s, { c with pc := .allBusy })
      | (s, some i) => some (s, { c with pc := .copyBackend i })
  | .allBusy => some (giveUp, ⟨.writeAllBusy, c.givenUp + 1⟩)
  | .writeAllBusy =>
      some (s, { c with pc := if o = .failed then .handler none else .done })
  | .copyBackend i => some (s, { c with pc := .connect i })
  | .connect i =>
      some (s, { c with pc := if o = .failed then .handler (some i) else .writeRequest i })
  | .writeRequest i =>
      some (s, { c with pc := if o = .failed then .handler (some i) else .proxyResponse i })
  | .proxyResponse i =>
      some (s, { c with pc := match o with
        | .failed => .handler (some i)
        | .more => .proxyResponse i
        | .ok => .release (some i) false })
  | .handler b => some (s, { c with pc := .release b true })
  | .release b failed => some (s.releaseBackend config b failed now, { c with pc := .leave })
  | .leave => some (giveUp, ⟨.done, c.givenUp + 1⟩)
  | .done => none
  | .terminated => none

end Call

/-- The shared state and all calls so far. -/
structure System where
  state : RuntimeState
  calls : List Call
  deriving DecidableEq, Repr

inductive Action where
  /-- `main` accepts a client and starts a thread. -/
  | accept
  | call (id : Nat) (o : Outcome) (now : Nat)
  deriving DecidableEq, Repr

namespace System

/-- An exception that leaves a thread ends the process. -/
def step (config : GatewayConfig) (s : System) (a : Action) : Option System :=
  if s.calls.any (fun c => c.pc == .terminated) then none
  else match a with
    | .accept => some { s with calls := s.calls ++ [⟨.enter, 0⟩] }
    | .call id o now => do
        let c ← s.calls[id]?
        let (state, c') ← c.step config s.state o now
        return ⟨state, s.calls.set id c'⟩

def Step (config : GatewayConfig) (s s' : System) : Prop := ∃ a, s.step config a = some s'

def runActions (config : GatewayConfig) (s : System) (as : List Action) : Option System :=
  as.foldlM (fun s a => s.step config a) s

/-- The step is a failed reply to a client that found all backends busy. -/
def LosesBusyReply (s : System) : Action → Prop
  | .accept => False
  | .call id o _ => o = .failed ∧ ∃ c, s.calls[id]? = some c ∧ c.pc = .writeAllBusy

/-- A step that loses no such reply. -/
def SafeStep (config : GatewayConfig) (s s' : System) : Prop :=
  ∃ a, s.step config a = some s' ∧ ¬ s.LosesBusyReply a

/-- The gateway before its first client. -/
def start (backends : List (String × Nat)) : System where
  state := ⟨backends.map fun b => ⟨b.1, b.2, 0, 0⟩, 0, 0⟩
  calls := []

/-- What the counters stand for. -/
structure Accounted (config : GatewayConfig) (s : System) : Prop where
  active : s.state.activeRequests = s.calls.countP fun c => c.HoldsSlot
  nonneg : 0 ≤ s.state.activeRequests
  idle : (∀ c ∈ s.calls, c.pc = .done) → s.state.activeRequests = 0
  once : ∀ c ∈ s.calls, c.givenUp ≤ 1
  ended : ∀ c ∈ s.calls, c.pc = .done → c.givenUp = 1
  inflight : ∀ i, s.state.inflight i = s.calls.countP fun c => c.HoldsBackend i
  bounded : ∀ i, s.state.inflight i ≤ config.maxInflightPerBackend

end System

/-! ## What one step of a call can be -/

namespace Call

/-- The steps of a call by what they do to the counters. -/
inductive Move (config : GatewayConfig) (s : RuntimeState) (c : Call) (o : Outcome) (now : Nat) :
    RuntimeState → Call → Prop where
  | enter (pc : Pc) (hpc : c.pc = .enter) (hpc' : pc = .queueFull ∨ pc = .readRequest) :
      Move config s c o now { s with activeRequests := s.activeRequests + 1 } { c with pc }
  | proceed (pc : Pc) (hpc : c.pc ≠ .enter) (hpc' : pc ≠ .enter) (hheld : pc.held = c.pc.held)
      (hgiven : pc.decrements = c.pc.decrements ∨ c.pc = .writeAllBusy ∧ o = .failed) :
      Move config s c o now s { c with pc }
  | giveUp (pc : Pc) (hpc : c.pc ≠ .enter) (hpc' : pc ≠ .enter) (hheld : c.pc.held = none)
      (hheld' : pc.held = none) (hgiven : pc.decrements = c.pc.decrements + 1) :
      Move config s c o now { s with activeRequests := s.activeRequests - 1 } ⟨pc, c.givenUp + 1⟩
  | acquire (i : Nat) (hpc : c.pc = .selectBackend)
      (hsel : (s.selectBackendAndAcquire config now).2 = some i) :
      Move config s c o now (s.selectBackendAndAcquire config now).1 { c with pc := .copyBackend i }
  | release (b : Option Nat) (failed : Bool) (hpc : c.pc = .release b failed) :
      Move config s c o now (s.releaseBackend config b failed now) { c with pc := .leave }

variable {config : GatewayConfig} {s s' : RuntimeState} {c c' : Call} {o : Outcome} {now : Nat}

theorem step_move (h : c.step config s o now = some (s', c')) :
    Move config s c o now s' c' := by
  rcases c with ⟨pc, givenUp⟩
  cases pc with
  | enter =>
      simp only [step, Option.some.injEq, Prod.mk.injEq] at h
      rcases h with ⟨rfl, rfl⟩
      apply Move.enter _ rfl
      split_ifs
      · exact .inl rfl
      · exact .inr rfl
  | queueFull | allBusy | leave =>
      simp only [step, Option.some.injEq, Prod.mk.injEq] at h
      rcases h with ⟨rfl, rfl⟩
      exact .giveUp _ (by simp) (by simp) rfl rfl rfl
  | selectBackend =>
      simp only [step] at h
      split at h
      · next t hsel =>
          have hnone : (s.selectBackendAndAcquire config now).1 = s :=
            RuntimeState.selectBackendAndAcquire_none (by rw [hsel])
          simp only [Option.some.injEq, Prod.mk.injEq] at h
          rcases h with ⟨rfl, rfl⟩
          rw [show t = s from by simpa [hsel] using hnone]
          exact .proceed _ (by simp) (by simp) rfl (.inl rfl)
      · next t i hsel =>
          simp only [Option.some.injEq, Prod.mk.injEq] at h
          rcases h with ⟨rfl, rfl⟩
          have hmove := @Move.acquire config s ⟨.selectBackend, givenUp⟩ o now i rfl (by rw [hsel])
          rwa [hsel] at hmove
  | release b failed =>
      simp only [step, Option.some.injEq, Prod.mk.injEq] at h
      rcases h with ⟨rfl, rfl⟩
      exact .release b failed rfl
  | done | terminated =>
      simp [step] at h
  | writeAllBusy =>
      simp only [step, Option.some.injEq, Prod.mk.injEq] at h
      rcases h with ⟨rfl, rfl⟩
      split_ifs with ho
      · exact .proceed _ (by simp) (by simp) rfl (.inr ⟨rfl, ho⟩)
      · exact .proceed _ (by simp) (by simp) rfl (.inl rfl)
  | proxyResponse i =>
      simp only [step, Option.some.injEq, Prod.mk.injEq] at h
      rcases h with ⟨rfl, rfl⟩
      cases o <;> exact .proceed _ (by simp) (by simp) rfl (.inl rfl)
  | writeQueueFull | readRequest | copyBackend i | connect i | writeRequest i | handler b =>
      simp only [step, Option.some.injEq, Prod.mk.injEq] at h
      rcases h with ⟨rfl, rfl⟩
      try split_ifs
      all_goals exact .proceed _ (by simp) (by simp) rfl (.inl rfl)

/-- What the call adds to `activeRequests`. -/
def slots (c : Call) : Int := (if c.pc = .enter then 0 else 1) - c.givenUp

/-- What the call adds to the requests of a backend. -/
def holds (i : Nat) (c : Call) : Int := if c.HoldsBackend i then 1 else 0

theorem move_slots (h : Move config s c o now s' c') :
    s'.activeRequests = s.activeRequests + (c'.slots - c.slots) := by
  cases h with
  | enter pc hpc hpc' =>
      rcases hpc' with rfl | rfl <;> simp [slots, hpc]
  | proceed pc hpc hpc' hheld hgiven =>
      simp [slots, hpc, hpc']
  | giveUp pc hpc hpc' hheld hheld' hgiven =>
      simp only [slots, hpc, hpc', if_false]
      omega
  | acquire i hpc hsel =>
      simp [slots, hpc, (RuntimeState.selectBackendAndAcquire_some hsel).2.2.2.1]
  | release b failed hpc =>
      simp [slots, hpc, (s.releaseBackend_frame b failed now).1]

/-- `hpos` is what `releaseBackend` checks. -/
theorem move_holds (h : Move config s c o now s' c')
    (hpos : ∀ i, c.HoldsBackend i → 0 < s.inflight i) (i : Nat) :
    s'.inflight i = s.inflight i + (c'.holds i - c.holds i) := by
  cases h with
  | enter pc hpc hpc' =>
      rcases hpc' with rfl | rfl <;> simp [holds, HoldsBackend, hpc, Pc.held, RuntimeState.inflight]
  | proceed pc hpc hpc' hheld hgiven =>
      have hsame : ({ c with pc } : Call).holds i = c.holds i :=
        if_congr (by simp [HoldsBackend, hheld]) rfl rfl
      omega
  | giveUp pc hpc hpc' hheld hheld' hgiven =>
      simp [holds, HoldsBackend, hheld, hheld', RuntimeState.inflight]
  | acquire j hpc hsel =>
      rw [(RuntimeState.selectBackendAndAcquire_some hsel).2.2.1]
      simp [holds, HoldsBackend, hpc, Pc.held]
  | release b failed hpc =>
      cases b with
      | none => simp [holds, HoldsBackend, hpc, Pc.held, RuntimeState.releaseBackend]
      | some j =>
          have hj : 0 < s.inflight j := hpos j (by simp [HoldsBackend, hpc, Pc.held])
          rw [RuntimeState.releaseBackend_inflight failed now hj]
          simp only [holds, HoldsBackend, hpc, Pc.held, Option.some.injEq, reduceCtorEq, if_false]
          omega

theorem move_bounded (h : Move config s c o now s' c')
    (hpos : ∀ i, c.HoldsBackend i → 0 < s.inflight i)
    (hbound : ∀ i, s.inflight i ≤ config.maxInflightPerBackend) (i : Nat) :
    s'.inflight i ≤ config.maxInflightPerBackend := by
  cases h with
  | enter pc hpc hpc' => exact hbound i
  | proceed pc hpc hpc' hheld hgiven => exact hbound i
  | giveUp pc hpc hpc' hheld hheld' hgiven => exact hbound i
  | acquire j hpc hsel =>
      rcases RuntimeState.selectBackendAndAcquire_some hsel with ⟨-, hroom, hinflight, -⟩
      rw [hinflight]
      split_ifs with hji
      · -- the chosen backend had room for one more
        subst hji
        omega
      · have := hbound i
        omega
  | release b failed hpc =>
      have hmove := move_holds (.release b failed hpc : Move config s c o now _ _) hpos i
      have hnone : ¬ ({ c with pc := .leave } : Call).HoldsBackend i := by
        simp [HoldsBackend, Pc.held]
      have hless : 0 ≤ c.holds i := by
        unfold holds
        split_ifs <;> simp
      have := hbound i
      rw [hmove, holds, if_neg hnone]
      omega

/-- Only a lost reply leads off the way. -/
theorem move_sound (h : Move config s c o now s' c') (hc : c.givenUp = c.pc.decrements)
    (hsafe : ¬ (c.pc = .writeAllBusy ∧ o = .failed)) : c'.givenUp = c'.pc.decrements := by
  cases h with
  | enter pc hpc hpc' =>
      rcases hpc' with rfl | rfl <;> simpa [hpc, Pc.decrements] using hc
  | proceed pc hpc hpc' hheld hgiven => exact hc.trans (hgiven.resolve_right hsafe).symm
  | giveUp pc hpc hpc' hheld hheld' hgiven =>
      simp only [hc, hgiven]
  | acquire i hpc hsel => simpa [hpc, Pc.decrements] using hc
  | release b failed hpc => simpa [hpc, Pc.decrements] using hc

end Call

/-! ## Runs -/

namespace System

variable {config : GatewayConfig} {s s' : System}

/-- The counters are the sums over the calls. -/
structure Counted (config : GatewayConfig) (s : System) : Prop where
  active : s.state.activeRequests = (s.calls.map Call.slots).sum
  inflight : ∀ i, s.state.inflight i = (s.calls.map (Call.holds i)).sum
  bounded : ∀ i, s.state.inflight i ≤ config.maxInflightPerBackend

theorem holds_nonneg (i : Nat) (c : Call) : 0 ≤ c.holds i := by
  unfold Call.holds
  split_ifs <;> simp

/-- A backend that a call holds has a request to give back. -/
theorem Counted.inflight_pos (h : Counted config s) {c : Call} (hc : c ∈ s.calls) {i : Nat}
    (hi : c.HoldsBackend i) : 0 < s.state.inflight i := by
  have hone : c.holds i = 1 := if_pos hi
  have hle := List.single_le_sum (l := s.calls.map (Call.holds i))
    (by simpa using fun c _ => holds_nonneg i c) (c.holds i) (List.mem_map_of_mem hc)
  rw [h.inflight]
  omega

theorem start_counted (config : GatewayConfig) (backends : List (String × Nat)) :
    Counted config (start backends) := by
  have hzero : ∀ i, (start backends).state.inflight i = 0 := by
    intro i
    simp only [start, RuntimeState.inflight, List.getElem?_map]
    cases backends[i]? <;> rfl
  refine ⟨rfl, fun i => by rw [hzero]; rfl, fun i => ?_⟩
  have := config.maxInflightPerBackend_pos
  rw [hzero]
  omega

/-- What a step of the system is. -/
theorem step_cases {a : Action} (h : s.step config a = some s') :
    (a = .accept ∧ s' = { s with calls := s.calls ++ [⟨.enter, 0⟩] }) ∨
    ∃ id o now c c' state, a = .call id o now ∧ s.calls[id]? = some c ∧
      Call.Move config s.state c o now state c' ∧ s' = ⟨state, s.calls.set id c'⟩ := by
  unfold step at h
  split_ifs at h
  cases a with
  | accept => exact .inl ⟨rfl, (Option.some.inj h).symm⟩
  | call id o now =>
      simp only [Option.bind_eq_bind, Option.bind_eq_some_iff] at h
      rcases h with ⟨c, hc, ⟨state, c'⟩, hcall, hs'⟩
      simp only [Option.pure_def, Option.some.injEq] at hs'
      exact .inr ⟨id, o, now, c, c', state, rfl, hc, Call.step_move hcall, hs'.symm⟩

theorem step_counted (s s' : System) (h : Counted config s) (hstep : Step config s s') :
    Counted config s' := by
  rcases hstep with ⟨a, ha⟩
  rcases step_cases ha with ⟨-, rfl⟩ | ⟨id, o, now, c, c', state, -, hc, hmove, rfl⟩
  · refine ⟨?_, fun i => ?_, h.bounded⟩
    · simpa [Call.slots] using h.active
    · simpa [Call.holds, Call.HoldsBackend, Pc.held] using h.inflight i
  · have hpos : ∀ i, c.HoldsBackend i → 0 < s.state.inflight i := fun i =>
      h.inflight_pos (List.mem_of_getElem? hc)
    refine ⟨?_, fun i => ?_, Call.move_bounded hmove hpos h.bounded⟩
    · rw [sum_map_set _ hc, ← h.active]
      exact Call.move_slots hmove
    · rw [sum_map_set _ hc, ← h.inflight]
      exact Call.move_holds hmove hpos i

/-- In every run the requests of a backend are those of the calls that hold it, and
`activeRequests` is what the calls have left of their slots: each lost reply takes one off. -/
theorem counted_of_reach (config : GatewayConfig) (backends : List (String × Nat))
    (h : ReflTransGen (Step config) (start backends) s) : Counted config s :=
  invariant_of_reach step_counted (start_counted config backends) h

/-- No call has left the way through the source. -/
def Sound (s : System) : Prop := ∀ c ∈ s.calls, c.givenUp = c.pc.decrements

theorem step_sound (s s' : System) (h : s.Sound) (hstep : SafeStep config s s') : s'.Sound := by
  rcases hstep with ⟨a, ha, hsafe⟩
  rcases step_cases ha with ⟨-, rfl⟩ | ⟨id, o, now, c, c', state, rfl, hc, hmove, rfl⟩
  · intro d hd
    rcases List.mem_append.mp hd with hd | hd
    · exact h d hd
    · rw [List.mem_singleton.mp hd]
      rfl
  · intro d hd
    rcases List.mem_or_eq_of_mem_set hd with hd | rfl
    · exact h d hd
    · exact Call.move_sound hmove (h c (List.mem_of_getElem? hc)) fun hlost =>
        hsafe ⟨hlost.2, c, hc, hlost.1⟩

/-- Sums over the calls count the calls. -/
theorem Counted.active_eq (h : Counted config s) (hsound : s.Sound) :
    s.state.activeRequests = s.calls.countP fun c => c.HoldsSlot := by
  rw [h.active, countP_eq_sum_map]
  refine congrArg List.sum (List.map_congr_left fun c hc => ?_)
  have hgiven := hsound c hc
  unfold Call.slots
  cases hpc : c.pc <;> simp_all [Call.HoldsSlot, Pc.decrements]

theorem Counted.inflight_eq (h : Counted config s) (i : Nat) :
    s.state.inflight i = s.calls.countP fun c => c.HoldsBackend i := by
  rw [h.inflight, countP_eq_sum_map]
  refine congrArg List.sum (List.map_congr_left fun c _ => ?_)
  simp [Call.holds]

theorem Counted.accounted (h : Counted config s) (hsound : s.Sound) : Accounted config s where
  active := h.active_eq hsound
  nonneg := by
    rw [h.active_eq hsound]
    exact Int.natCast_nonneg _
  idle := by
    intro hdone
    have hnone : (s.calls.countP fun c => c.HoldsSlot) = 0 := by
      refine List.countP_eq_zero.mpr fun c hc => ?_
      have hone := hsound c hc
      rw [hdone c hc] at hone
      simp [Call.HoldsSlot, hone, Pc.decrements]
    rw [h.active_eq hsound, hnone]
    rfl
  once := by
    intro c hc
    rw [hsound c hc]
    cases c.pc <;> simp [Pc.decrements]
  ended := by
    intro c hc hdone
    rw [hsound c hc, hdone]
    rfl
  inflight := h.inflight_eq
  bounded := h.bounded

theorem SafeStep.step (h : SafeStep config s s') : Step config s s' := by
  rcases h with ⟨a, ha, -⟩
  exact ⟨a, ha⟩

/-- In every run in which no reply to a client that found all backends busy is lost, the counters
are exact in every state. -/
theorem gateway_accounting_exact (config : GatewayConfig) (backends : List (String × Nat))
    (h : ReflTransGen (SafeStep config) (start backends) s) : Accounted config s := by
  have hcounted : Counted config s :=
    counted_of_reach config backends (ReflTransGen.mono (fun _ _ => SafeStep.step) _ _ h)
  have hsound : s.Sound := invariant_of_reach step_sound (by simp [Sound, start]) h
  exact hcounted.accounted hsound

/-! ## Two clients and one backend -/

theorem runActions_reach {as : List Action} (h : s.runActions config as = some s') :
    ReflTransGen (Step config) s s' := by
  induction as generalizing s with
  | nil =>
      rw [show s = s' from Option.some.inj h]
  | cons a as ih =>
      rw [runActions, List.foldlM_cons] at h
      rcases Option.bind_eq_some_iff.mp h with ⟨t, ht, hrest⟩
      exact .head ⟨a, ht⟩ (ih hrest)

/-- A run in which no operation fails loses no reply. -/
theorem runActions_safe {as : List Action} (h : s.runActions config as = some s')
    (hok : ∀ a ∈ as, ∀ id now, a ≠ .call id .failed now) :
    ReflTransGen (SafeStep config) s s' := by
  induction as generalizing s with
  | nil =>
      rw [show s = s' from Option.some.inj h]
  | cons a as ih =>
      rw [runActions, List.foldlM_cons] at h
      rcases Option.bind_eq_some_iff.mp h with ⟨t, ht, hrest⟩
      refine .head ⟨a, ht, ?_⟩ (ih hrest fun b hb => hok b (List.mem_cons_of_mem a hb))
      cases a with
      | accept => exact id
      | call id o now =>
          rintro ⟨rfl, -⟩
          exact hok _ (List.mem_cons_self ..) id now rfl

private theorem queueOf_pos : (1 : Int) ≤ 32 := by decide

def oneEach : GatewayConfig where
  maxQueue := 32
  maxInflightPerBackend := 1
  healthRetryMs := 5000
  maxQueue_pos := queueOf_pos
  maxInflightPerBackend_pos := Int.le_refl 1

/-- The second client comes while the backend works for the first. -/
def secondClient : List Action :=
  [.accept, .call 0 .ok 0, .call 0 .ok 0, .call 0 .ok 0,
    .accept, .call 1 .ok 0, .call 1 .ok 0, .call 1 .ok 0, .call 1 .ok 0]

/-- The reply to the second client fails; then both calls come to their end. -/
def lostReply : List Action :=
  secondClient ++ [.call 1 .failed 0, .call 1 .ok 0, .call 1 .ok 0, .call 1 .ok 0,
    .call 0 .ok 0, .call 0 .failed 0, .call 0 .ok 0, .call 0 .ok 0, .call 0 .ok 0]

theorem gateway_accounting_exact_two : ∃ s,
    (start [("backend", 9001)]).runActions oneEach (secondClient ++ [.call 1 .ok 0]) = some s ∧
      Accounted oneEach s := by
  have hsome : ((start [("backend", 9001)]).runActions oneEach
      (secondClient ++ [.call 1 .ok 0])).isSome := by decide
  rcases Option.isSome_iff_exists.mp hsome with ⟨s, hs⟩
  refine ⟨s, hs, gateway_accounting_exact oneEach [("backend", 9001)] (runActions_safe hs ?_)⟩
  simp [secondClient]

/-- Both calls have ended, and `activeRequests` is -1. -/
theorem lost_reply_counts_twice : ∃ s,
    ReflTransGen (Step oneEach) (start [("backend", 9001)]) s ∧
      (∀ c ∈ s.calls, c.pc = .done) ∧ s.state.activeRequests = -1 ∧ ¬ Accounted oneEach s := by
  have hrun : ((start [("backend", 9001)]).runActions oneEach lostReply).any fun s =>
      s.calls.all (fun c => c.pc == .done) && s.state.activeRequests == -1 := by decide
  rcases Option.any_eq_true_iff_get _ _ |>.mp hrun with ⟨hsome, hs⟩
  simp only [Bool.and_eq_true, List.all_eq_true, beq_iff_eq] at hs
  refine ⟨_, runActions_reach (Option.some_get hsome).symm, hs.1, hs.2, fun h => ?_⟩
  have := h.nonneg
  omega

end System

end Gateway
end PrefillOpt
