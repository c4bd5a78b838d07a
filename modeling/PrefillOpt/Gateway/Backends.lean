import Mathlib.Algebra.Ring.Int.Defs
import Mathlib.Data.List.Basic

/-!
# Gateway.Backends — choosing and giving back a backend

`dllama-gateway.cpp`.  Every access to the backends is inside one critical section, so a call of
`selectBackendAndAcquire` or of `releaseBackend` is one step.  The time is an argument of a step.
-/

namespace PrefillOpt
namespace Gateway

structure BackendTarget where
  host : String
  port : Nat
  inflight : Int
  /-- In milliseconds; 0 is `time_point::min()`. -/
  unhealthyUntil : Nat
  deriving DecidableEq, Repr

/-- The options, as far as the calls read them; the bounds are checked by `parseArgs`. -/
structure GatewayConfig where
  maxQueue : Int
  maxInflightPerBackend : Int
  healthRetryMs : Nat
  maxQueue_pos : 1 ≤ maxQueue
  maxInflightPerBackend_pos : 1 ≤ maxInflightPerBackend

/-- `config->backends` and the fields of `RuntimeState`. -/
structure RuntimeState where
  backends : List BackendTarget
  rrCursor : Nat
  activeRequests : Int
  deriving DecidableEq, Repr

/-- `std::numeric_limits<int>::max()` -/
def intMax : Int := 2 ^ 31 - 1

variable (config : GatewayConfig)

namespace RuntimeState

variable (s : RuntimeState)

/-- The requests a backend is working on; 0 where there is no such backend. -/
def inflight (i : Nat) : Int :=
  match s.backends[i]? with
  | some b => b.inflight
  | none => 0

def setInflight (i : Nat) (inflight : Int) : List BackendTarget :=
  s.backends.modify i fun b => { b with inflight }

/-- One turn of the selection loop: `(selected, minInflight)`. -/
def consider (now : Nat) (best : Option Nat × Int) (idx : Nat) : Option Nat × Int :=
  match s.backends[idx]? with
  | none => best
  | some backend =>
      if now < backend.unhealthyUntil then best
      else if config.maxInflightPerBackend ≤ backend.inflight then best
      else if backend.inflight < best.2 then (some idx, backend.inflight)
      else best

def selected (now : Nat) : Option Nat :=
  let n := s.backends.length
  (((List.range n).map fun i => (s.rrCursor + i) % n).foldl (s.consider config now)
    (none, intMax)).1

/-- The state afterwards, and the index; `none` where the source returns -1. -/
def selectBackendAndAcquire (now : Nat) : RuntimeState × Option Nat :=
  match s.selected config now with
  | none => (s, none)
  | some i =>
      ({ s with
          backends := s.setInflight i (s.inflight i + 1)
          rrCursor := (i + 1) % s.backends.length }, some i)

def releaseBackend (backendIndex : Option Nat) (markUnhealthy : Bool) (now : Nat) :
    RuntimeState :=
  match backendIndex with
  | none => s
  | some i =>
      { s with
        backends := s.backends.modify i fun b =>
          { b with
            inflight := if 0 < b.inflight then b.inflight - 1 else b.inflight
            unhealthyUntil :=
              if markUnhealthy then now + config.healthRetryMs else b.unhealthyUntil } }

/-! ## What the two calls do to the counters -/

variable {config s}

theorem inflight_modify {i : Nat} {f : BackendTarget → BackendTarget} (j : Nat) :
    inflight { s with backends := s.backends.modify i f } j
      = if i = j then (match s.backends[j]? with | some b => (f b).inflight | none => 0)
        else s.inflight j := by
  unfold inflight
  rw [List.getElem?_modify]
  by_cases hij : i = j
  · simp only [hij, if_true]
    cases s.backends[j]? <;> rfl
  · simp only [hij, if_false]
    cases s.backends[j]? <;> rfl

/-- Only a backend with room is chosen. -/
theorem consider_room {now idx : Nat} {best : Option Nat × Int}
    (h : ∀ i, best.1 = some i → i < s.backends.length ∧
      s.inflight i < config.maxInflightPerBackend) (i : Nat)
    (hi : (s.consider config now best idx).1 = some i) :
    i < s.backends.length ∧ s.inflight i < config.maxInflightPerBackend := by
  unfold consider at hi
  cases hb : s.backends[idx]? with
  | none =>
      rw [hb] at hi
      exact h i hi
  | some backend =>
      simp only [hb] at hi
      split_ifs at hi with hhealthy hroom hless
      · exact h i hi
      · exact h i hi
      · -- this backend is the best so far
        simp only [Option.some.injEq] at hi
        subst hi
        refine ⟨(List.getElem?_eq_some_iff.mp hb).1, ?_⟩
        simpa [inflight, hb] using hroom
      · exact h i hi

theorem selected_room {now i : Nat} (h : s.selected config now = some i) :
    i < s.backends.length ∧ s.inflight i < config.maxInflightPerBackend := by
  have hloop : ∀ (idxs : List Nat) (best : Option Nat × Int),
      (∀ i, best.1 = some i → i < s.backends.length ∧
        s.inflight i < config.maxInflightPerBackend) →
      ∀ i, (idxs.foldl (s.consider config now) best).1 = some i →
        i < s.backends.length ∧ s.inflight i < config.maxInflightPerBackend := by
    intro idxs
    induction idxs with
    | nil => exact fun best hbest => hbest
    | cons idx idxs ih =>
        intro best hbest
        exact ih _ (consider_room hbest)
  exact hloop _ _ (by simp) i h

/-- A chosen backend gets one request more, and the others are left alone. -/
theorem selectBackendAndAcquire_some {now i : Nat}
    (h : (s.selectBackendAndAcquire config now).2 = some i) :
    i < s.backends.length ∧ s.inflight i < config.maxInflightPerBackend ∧
      (∀ j, (s.selectBackendAndAcquire config now).1.inflight j
        = s.inflight j + if i = j then 1 else 0) ∧
      (s.selectBackendAndAcquire config now).1.activeRequests = s.activeRequests ∧
      (s.selectBackendAndAcquire config now).1.backends.length = s.backends.length := by
  unfold selectBackendAndAcquire at h ⊢
  cases hsel : s.selected config now with
  | none =>
      rw [hsel] at h
      cases h
  | some k =>
      simp only [hsel, Option.some.injEq] at h ⊢
      subst h
      rcases selected_room hsel with ⟨hlt, hroom⟩
      refine ⟨hlt, hroom, fun j => ?_, trivial, List.length_modify ..⟩
      have hmod := inflight_modify (s := s) (i := k)
        (f := fun b => { b with inflight := s.inflight k + 1 }) j
      change inflight { s with backends := s.backends.modify k _ } j = _
      rw [hmod]
      by_cases hkj : k = j
      · subst hkj
        simp [List.getElem?_eq_getElem hlt]
      · simp [hkj]

theorem selectBackendAndAcquire_none {now : Nat}
    (h : (s.selectBackendAndAcquire config now).2 = none) :
    (s.selectBackendAndAcquire config now).1 = s := by
  unfold selectBackendAndAcquire at h ⊢
  cases hsel : s.selected config now with
  | none => rfl
  | some k =>
      rw [hsel] at h
      cases h

/-- A backend with a request gets one less. -/
theorem releaseBackend_inflight {i : Nat} (failed : Bool) (now : Nat) (h : 0 < s.inflight i)
    (j : Nat) : (s.releaseBackend config (some i) failed now).inflight j
      = s.inflight j - if i = j then 1 else 0 := by
  unfold releaseBackend
  rw [inflight_modify]
  by_cases hij : i = j
  · subst hij
    cases hb : s.backends[i]? with
    | none => simp [inflight, hb] at h
    | some b =>
        have hpos : 0 < b.inflight := by simpa [inflight, hb] using h
        simp [inflight, hb, hpos]
  · simp [hij]

theorem releaseBackend_frame (b : Option Nat) (failed : Bool) (now : Nat) :
    (s.releaseBackend config b failed now).activeRequests = s.activeRequests ∧
      (s.releaseBackend config b failed now).backends.length = s.backends.length := by
  cases b with
  | none => exact ⟨rfl, rfl⟩
  | some i => exact ⟨rfl, List.length_modify ..⟩

end RuntimeState

end Gateway
end PrefillOpt
