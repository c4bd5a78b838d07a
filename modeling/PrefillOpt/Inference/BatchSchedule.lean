import Mathlib.Data.List.GetD
import Mathlib.Data.List.Nodup
import Mathlib.Data.Nat.ModEq
import PrefillOpt.Inference.ContinuousBatching
import PrefillOpt.Lib.Transition

/-!
# Inference.BatchSchedule — the rounds come to an end

A round picks each request once at most and only unfinished ones, `activeCount` is the number of
the others, and each turn takes a position from what is left.  When the loop stops no request is
unfinished.
-/

namespace PrefillOpt
namespace Inference

open Lib

/-! ## What is left of a request -/

def CbRequestState.left (req : CbRequestState) : Nat :=
  if req.active then req.maxPos - req.pos else 0

theorem CbRequestState.left_pos {req : CbRequestState} (h : req.active = true) : 0 < req.left := by
  rw [left, if_pos h]
  simp only [active, Bool.and_eq_true, decide_eq_true_eq] at h
  omega

theorem CbRequestState.not_finished {req : CbRequestState} (h : req.active = true) :
    req.finished = false := by
  simp only [active, Bool.and_eq_true, Bool.not_eq_true'] at h
  exact h.1

namespace CbContext

variable {H R : Type} {ctx : CbContext H R} {req : CbRequestState} {strBuffer : List Cell}
  {nextToken : Nat}

/-- Behind a token a request is active unless it has finished. -/
theorem active_advance :
    (ctx.advance strBuffer req nextToken).1.active
      = !(ctx.advance strBuffer req nextToken).1.finished := by
  simp only [CbRequestState.active, advance]
  cases ctx.tokenizer.isEos nextToken with
  | true => rfl
  | false =>
      simp only [Bool.false_or]
      by_cases hend : req.maxPos ≤ req.pos + 1
      · simp [hend]
      · simp [hend, Nat.lt_of_not_le hend]

theorem left_advance (h : req.active = true) :
    (ctx.advance strBuffer req nextToken).1.left < req.left := by
  have hpos := CbRequestState.left_pos h
  rw [CbRequestState.left]
  split_ifs with hactive
  · rw [CbRequestState.left, if_pos h] at hpos ⊢
    simp only [CbRequestState.active, Bool.and_eq_true, advance] at hactive ⊢
    omega
  · exact hpos

end CbContext

/-! ## The pick -/

namespace CbState

variable {H R : Type} {s : CbState H R} {maxActive : Nat}

theorem isActive_iff {idx : Nat} :
    s.isActive idx = true ↔ ∃ req, s.reqs[idx]? = some req ∧ req.active = true := by
  rw [isActive]
  cases s.reqs[idx]? with
  | none => simp
  | some req => simp

theorem isActive_of_mem_pick {idx : Nat} (h : idx ∈ s.pick maxActive) : s.isActive idx = true :=
  (List.mem_filter.1 (List.mem_of_mem_take h)).2

theorem pick_nodup : (s.pick maxActive).Nodup := by
  apply List.Nodup.sublist (List.take_sublist _ _)
  apply List.Nodup.filter
  apply List.Nodup.map_on _ List.nodup_range
  intro i hi j hj heq
  have hmod : Nat.ModEq s.reqs.length i j := Nat.ModEq.add_left_cancel' s.rrCursor heq
  exact Nat.ModEq.eq_of_lt_of_lt hmod (List.mem_range.1 hi) (List.mem_range.1 hj)

/-- The round robin comes past every request. -/
theorem mem_roundRobin {idx : Nat} (h : idx < s.reqs.length) :
    idx ∈ (List.range s.reqs.length).map fun i => (s.rrCursor + i) % s.reqs.length := by
  have hcursor := Nat.mod_lt s.rrCursor (Nat.zero_lt_of_lt h)
  refine List.mem_map.2 ⟨(idx + (s.reqs.length - s.rrCursor % s.reqs.length)) % s.reqs.length,
    List.mem_range.2 (Nat.mod_lt _ (Nat.zero_lt_of_lt h)), ?_⟩
  calc (s.rrCursor + (idx + (s.reqs.length - s.rrCursor % s.reqs.length)) % s.reqs.length)
        % s.reqs.length
      = (s.rrCursor % s.reqs.length
          + (idx + (s.reqs.length - s.rrCursor % s.reqs.length))) % s.reqs.length := by
        rw [Nat.add_mod_mod, Nat.mod_add_mod]
    _ = (idx + s.reqs.length) % s.reqs.length := by
        congr 1
        omega
    _ = idx := by rw [Nat.add_mod_right, Nat.mod_eq_of_lt h]

theorem pick_eq_nil (hmax : 0 < maxActive) (h : s.pick maxActive = []) (idx : Nat) :
    s.isActive idx = false := by
  by_contra hidx
  have hactive : s.isActive idx = true := by simpa using hidx
  obtain ⟨req, hreq, -⟩ := isActive_iff.1 hactive
  have hmem := mem_roundRobin (List.getElem?_eq_some_iff.1 hreq).1
  rcases List.take_eq_nil_iff.1 h with hzero | hnil
  · omega
  · exact List.not_mem_nil (hnil ▸ List.mem_filter.2 ⟨hmem, hactive⟩)

end CbState

/-! ## The schedule -/

/-- The due requests are unfinished and each is due once. -/
structure CbState.Scheduled {H R : Type} (s : CbState H R) : Prop where
  nodup : (s.due.map Prod.fst).Nodup
  active : ∀ d ∈ s.due, s.isActive d.1 = true
  count : s.activeCount = s.reqs.countP fun req => !req.finished

namespace CbContext

variable {H R : Type} {ctx : CbContext H R} {maxActive : Nat} {s s' : CbState H R}

theorem step_cases (h : ctx.step maxActive s = some s') :
    (s.due = [] ∧ s.pick maxActive ≠ [] ∧ s' = ctx.forwardRound s (s.pick maxActive)) ∨
      ∃ idx nextToken due, s.due = (idx, nextToken) :: due ∧ s' = ctx.turn s idx nextToken due := by
  rw [step] at h
  cases hdue : s.due with
  | nil =>
      simp only [hdue] at h
      split_ifs at h with hcount hpick
      exact .inl ⟨rfl, hpick, (Option.some.inj h).symm⟩
  | cons d due =>
      simp only [hdue] at h
      exact .inr ⟨d.1, d.2, due, rfl, (Option.some.inj h).symm⟩

theorem step_eq_none (h : ctx.step maxActive s = none) :
    s.due = [] ∧ (s.activeCount = 0 ∨ s.pick maxActive = []) := by
  rw [step] at h
  cases hdue : s.due with
  | nil =>
      simp only [hdue] at h
      split_ifs at h with hcount hpick
      · exact ⟨rfl, .inl hcount⟩
      · exact ⟨rfl, .inr hpick⟩
  | cons d due =>
      simp only [hdue] at h
      cases h

theorem forwardRound_due (s : CbState H R) (picked : List Nat) :
    (ctx.forwardRound s picked).due.map Prod.fst = picked := by
  simp only [forwardRound, List.map_map]
  exact List.zipIdx_map_fst 0 picked

/-- The turn of an unfinished request. -/
theorem turn_of_some {idx nextToken : Nat} {due : List (Nat × Nat)} {req : CbRequestState}
    (h : s.reqs[idx]? = some req) :
    ctx.turn s idx nextToken due
      = { s with
          reqs := s.reqs.set idx (ctx.advance s.strBuffer req nextToken).1
          strBuffer := if (ctx.advance s.strBuffer req nextToken).1.finished then []
            else (ctx.advance s.strBuffer req nextToken).2
          activeCount := if (ctx.advance s.strBuffer req nextToken).1.finished
            then s.activeCount - 1 else s.activeCount
          due } := by
  simp only [turn, h]

theorem getElem?_turn {idx nextToken i : Nat} {due : List (Nat × Nat)} (hi : i ≠ idx) :
    (ctx.turn s idx nextToken due).reqs[i]? = s.reqs[i]? := by
  cases hreq : s.reqs[idx]? with
  | none => simp only [turn, hreq]
  | some req => rw [turn_of_some hreq, List.getElem?_set_ne (Ne.symm hi)]

/-- A request behind a turn is the one whose turn it was, or as it was. -/
theorem turn_cases {idx nextToken i : Nat} {due : List (Nat × Nat)} {req req' : CbRequestState}
    (h : s.reqs[idx]? = some req) (h' : (ctx.turn s idx nextToken due).reqs[i]? = some req') :
    (i = idx ∧ req' = (ctx.advance s.strBuffer req nextToken).1)
      ∨ (i ≠ idx ∧ s.reqs[i]? = some req') := by
  by_cases hi : i = idx
  · subst hi
    rw [turn_of_some h, List.getElem?_set_self (List.getElem?_eq_some_iff.1 h).1] at h'
    exact .inl ⟨rfl, (Option.some.inj h').symm⟩
  · rw [getElem?_turn hi] at h'
    exact .inr ⟨hi, h'⟩

theorem scheduled_forwardRound (h : s.Scheduled) :
    (ctx.forwardRound s (s.pick maxActive)).Scheduled where
  nodup := by
    rw [forwardRound_due]
    exact CbState.pick_nodup
  active := by
    intro d hd
    have hmem := List.mem_map_of_mem (f := Prod.fst) hd
    rw [forwardRound_due] at hmem
    exact @CbState.isActive_of_mem_pick H R s maxActive d.1 hmem
  count := h.count

theorem scheduled_turn {idx nextToken : Nat} {due : List (Nat × Nat)}
    (hdue : s.due = (idx, nextToken) :: due) (h : s.Scheduled) :
    (ctx.turn s idx nextToken due).Scheduled := by
  have hnodup := h.nodup
  have hactive := h.active
  rw [hdue] at hnodup hactive
  obtain ⟨hnot, hnodup⟩ := List.nodup_cons.1 hnodup
  obtain ⟨req, (hreq : s.reqs[idx]? = some req), hreqActive⟩ :=
    CbState.isActive_iff.1 (hactive _ List.mem_cons_self)
  refine ⟨?_, ?_, ?_⟩
  · rw [turn_of_some hreq]
    exact hnodup
  · intro d hd
    rw [turn_of_some hreq] at hd
    have hne : d.1 ≠ idx := by
      intro heq
      have hmem := List.mem_map_of_mem (f := Prod.fst) hd
      rw [heq] at hmem
      exact hnot hmem
    rw [CbState.isActive, getElem?_turn hne]
    exact hactive d (List.mem_cons_of_mem _ hd)
  · have hcount := sum_map_set (fun req : CbRequestState => if !req.finished then 1 else 0) hreq
      (ctx.advance s.strBuffer req nextToken).1
    rw [← countP_eq_sum_map, ← countP_eq_sum_map] at hcount
    rw [turn_of_some hreq]
    simp only [h.count]
    have hwas := CbRequestState.not_finished hreqActive
    simp only [hwas] at hcount
    split_ifs with hend
    · simp only [hend] at hcount
      simp at hcount
      omega
    · simp only [hend] at hcount
      simp at hcount
      omega

theorem scheduled_step (hstep : ctx.step maxActive s = some s') (h : s.Scheduled) :
    s'.Scheduled := by
  rcases step_cases hstep with ⟨-, -, rfl⟩ | ⟨idx, nextToken, due, hdue, rfl⟩
  · exact scheduled_forwardRound h
  · exact scheduled_turn hdue h

/-! ## The end -/

theorem size_eq (s : CbState H R) :
    (size s : Int) = 2 * (s.reqs.map fun req => (req.left : Int)).sum
      + if s.due = [] then 1 else 0 := by
  have hsum : ((s.reqs.map CbRequestState.left).sum : Int)
      = (s.reqs.map fun req => (req.left : Int)).sum := by
    induction s.reqs with
    | nil => rfl
    | cons req reqs ih =>
        rw [List.map_cons, List.sum_cons, Int.natCast_add, ih, List.map_cons, List.sum_cons]
  rw [← hsum]
  simp only [size]
  split_ifs <;> rfl

theorem size_step (hstep : ctx.step maxActive s = some s') (h : s.Scheduled) :
    size s' < size s := by
  rcases step_cases hstep with ⟨hdue, hpick, rfl⟩ | ⟨idx, nextToken, due, hdue, rfl⟩
  · have hdue' : (ctx.forwardRound s (s.pick maxActive)).due ≠ [] := by
      intro hnil
      have hpicked := @forwardRound_due H R ctx s (s.pick maxActive)
      rw [hnil] at hpicked
      exact hpick hpicked.symm
    simp only [size, hdue, hdue', if_true, if_false]
    exact Nat.lt_succ_self _
  · have hactive := h.active (idx, nextToken) (hdue ▸ List.mem_cons_self)
    obtain ⟨req, (hreq : s.reqs[idx]? = some req), hreqActive⟩ := CbState.isActive_iff.1 hactive
    have hleft := @left_advance H R ctx req s.strBuffer nextToken hreqActive
    have hsum := sum_map_set (fun req : CbRequestState => (req.left : Int)) hreq
      (ctx.advance s.strBuffer req nextToken).1
    have hsize := size_eq s
    have hsize' := size_eq (ctx.turn s idx nextToken due)
    have hsome : s.due ≠ [] := by simp [hdue]
    have hflag : (if (ctx.turn s idx nextToken due).due = [] then (1 : Int) else 0) ≤ 1 := by
      split_ifs <;> omega
    have hreqs : (ctx.turn s idx nextToken due).reqs
        = s.reqs.set idx (ctx.advance s.strBuffer req nextToken).1 := by
      rw [turn_of_some hreq]
    rw [hreqs, hsum] at hsize'
    rw [if_neg hsome] at hsize
    omega

section Runs

variable {reqs : List CbRequestState}

theorem after_succ (n : Nat) :
    ctx.after maxActive reqs (n + 1)
      = (ctx.step maxActive (ctx.after maxActive reqs n)).getD (ctx.after maxActive reqs n) :=
  iterate_succ n _

/-- What holds at the start and what every step from a state of the run keeps. -/
theorem after_induction {P : CbState H R → Prop} (hstart : P (ctx.start reqs))
    (hstep : ∀ n s', P (ctx.after maxActive reqs n) →
      ctx.step maxActive (ctx.after maxActive reqs n) = some s' → P s') (n : Nat) :
    P (ctx.after maxActive reqs n) := by
  induction n with
  | zero => exact hstart
  | succ n ih =>
      rw [after_succ]
      cases h : ctx.step maxActive (ctx.after maxActive reqs n) with
      | none => exact ih
      | some s' => exact hstep n s' ih h

theorem scheduled_after (hstart : (ctx.start reqs).Scheduled) (n : Nat) :
    (ctx.after maxActive reqs n).Scheduled :=
  after_induction hstart (fun _ _ h hstep => scheduled_step hstep h) n

/-- When the loop stops, nobody is unfinished. -/
theorem inactive_of_step_eq_none (hmax : 0 < maxActive) (h : s.Scheduled)
    (hstep : ctx.step maxActive s = none) {req : CbRequestState} (hreq : req ∈ s.reqs) :
    req.active = false := by
  rcases (step_eq_none hstep).2 with hcount | hpick
  · rw [h.count, List.countP_eq_zero] at hcount
    have hfinished : req.finished = true := by simpa using hcount req hreq
    rw [CbRequestState.active, hfinished]
    rfl
  · obtain ⟨idx, hidx⟩ := List.mem_iff_getElem?.1 hreq
    have hinactive := CbState.pick_eq_nil hmax hpick idx
    rwa [CbState.isActive, hidx] at hinactive

/-- The loop ends, with every request finished or at its last position. -/
theorem batched_inactive (hmax : 0 < maxActive) (hstart : (ctx.start reqs).Scheduled)
    {req : CbRequestState} (hreq : req ∈ ctx.batched maxActive reqs) : req.active = false := by
  have hend := @iterate_normal _ (ctx.step maxActive) CbState.Scheduled size
    (fun s s' h hstep => scheduled_step hstep h)
    (fun s s' h hstep => size_step hstep h) _ _ hstart (Nat.le_refl (size (ctx.start reqs)))
  exact inactive_of_step_eq_none hmax (scheduled_after hstart _) hend hreq

end Runs

end CbContext

end Inference
end PrefillOpt
