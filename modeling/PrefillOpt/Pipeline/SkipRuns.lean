import PrefillOpt.Pipeline.SkipReceives

/-!
# Pipeline.SkipRuns — runs of decode tokens with stage skipping

What one step does to the stage that takes it is said once, as a `StageMove`.  From it follow the
order of the messages a stage has taken, the bound on accepts in a row, and a measure that every
step but an empty poll decreases; so every run can be continued to its end.
-/

namespace PrefillOpt
namespace Pipeline

open Relation Lib

variable {F : Type} {S : SkipSetup F} {s s' : SkipState F} {f f' : SkipFront}

/-! ## Moves of a stage -/

/-- Stage `r` reads the packet of its next token. -/
structure Reads (S : SkipSetup F) (st st' : StageState F) : Prop where
  pc : st.pc = .control
  pc' : st'.pc = .receive true
  same : SameHistory st st'
  holds : Holds S st.consumed.length st'.worker
  count : st.worker.decodePhase = true →
    st'.worker.skipConsecutiveAccepts = st.worker.skipConsecutiveAccepts

/-- Stage `r` takes the message of its next token; `v` tells whether the token goes past the
target. -/
structure Takes (S : SkipSetup F) (verdicts : List Bool) (r : Nat) (v : Bool)
    (st st' : StageState F) : Prop where
  pc : ∃ bypassNext, st.pc = .receive bypassNext
  pc' : ∃ outs, st'.pc = SkipSetup.afterSends outs ∧ outs.length ≤ 2
  consumed : ∃ header, st'.consumed = st.consumed ++ [header] ∧
    if r = S.target then IsEntry S verdicts st.consumed.length header
    else IsRow S st.consumed.length header
  verdicts : st'.verdicts = st.verdicts ++ [v]
  holds : Holds S st.consumed.length st'.worker
  count : v = true →
    st'.worker.skipConsecutiveAccepts = st.worker.skipConsecutiveAccepts + 1

inductive StageMove (S : SkipSetup F) (verdicts : List Bool) (r : Nat) (st st' : StageState F) :
    Prop where
  | reads (h : Reads S st st')
  | misses (bypassNext : Bool) (hpc : st.pc = .receive bypassNext)
      (heq : st' = { st with pc := .receive !bypassNext })
  | takes (v : Bool) (h : Takes S verdicts r v st st')
  | sends (o : Outgoing) (outs : List Outgoing) (hpc : st.pc = .send (o :: outs))
      (heq : st' = { st with pc := SkipSetup.afterSends outs })

/-- Nothing but stage `r` and the links has changed. -/
structure OnlyStage (r : Nat) (s s' : SkipState F) : Prop where
  stage : ∀ b, b ≠ r → s'.stage b = s.stage b
  rootPc : s'.rootPc = s.rootPc
  token : s'.token = s.token

theorem OnlyStage.setStage {r : Nat} {t : SkipState F} (st : StageState F)
    (hstage : t.stage = s.stage) (hroot : t.rootPc = s.rootPc) (htoken : t.token = s.token) :
    OnlyStage r s (t.setStage r st) ∧ (t.setStage r st).stage r = st := by
  refine ⟨⟨fun b hb => ?_, hroot, htoken⟩, ?_⟩
  · rw [setStage_stage, if_neg hb, hstage]
  · rw [setStage_stage, if_pos rfl]

theorem Aligned.readControl_reads {r : Nat} (h : Aligned S s f) (hr : 1 ≤ r) (hr' : r < S.ppSize)
    (hstep : S.readControl s r = some s') :
    OnlyStage r s s' ∧ Reads S (s.stage r) (s'.stage r) := by
  rcases h.readControl_cases hr hr' hstep with ⟨hpc, -, rest, w, -, hread, -, rfl⟩
  rcases tryReadControlPacket_packetAt S (s.stage r).consumed.length (s.stage r).worker with
    ⟨w', hok, hholds, -, hkeep, -⟩
  obtain rfl : w = w' := Except.ok.inj (hread.symm.trans hok)
  obtain ⟨honly, hstage⟩ := OnlyStage.setStage (r := r) (s := s) (t := s.setLink 0 r rest)
    { s.stage r with worker := w, pc := .receive true } rfl rfl rfl
  rw [hstage]
  exact ⟨honly, hpc, rfl, ⟨rfl, rfl⟩, hholds, hkeep⟩

theorem SkipSetup.send_sends {r : Nat} {chunked delta : Bool}
    (hstep : S.send s r chunked delta = some s') :
    OnlyStage r s s' ∧ ∃ o outs, (s.stage r).pc = .send (o :: outs) ∧
      s'.stage r = { s.stage r with pc := SkipSetup.afterSends outs } := by
  unfold SkipSetup.send at hstep
  dsimp only at hstep
  split at hstep
  case h_2 => cases hstep
  case h_1 o outs hpc =>
  rw [Option.some.injEq] at hstep
  obtain ⟨honly, hstage⟩ := OnlyStage.setStage (r := r) (s := s)
    (t := s.push r o.targetPpRank (.activation (S.header o chunked delta)))
    { s.stage r with pc := SkipSetup.afterSends outs } rfl rfl rfl
  rw [hstep] at honly hstage
  exact ⟨honly, o, outs, hpc, hstage⟩

theorem Forwarded.takes {k r : Nat} {header : StageHeader} {st st' : StageState F}
    (h : Forwarded S k r header st st') {bypassNext : Bool} (hpc : st.pc = .receive bypassNext)
    (hk : k = st.consumed.length) {verdicts : List Bool}
    (hmessage : if r = S.target then IsEntry S verdicts k header else IsRow S k header) :
    ∃ v, Takes S verdicts r v st st' := by
  subst hk
  rcases h.outcome with ⟨hv, hpc'⟩ | ⟨-, hv, hpc', hcount⟩
  · exact ⟨false, ⟨_, hpc⟩, ⟨[S.nextSend r st.consumed.length], hpc', by simp⟩,
      ⟨header, h.consumed, hmessage⟩, hv, h.holds, fun hfalse => nomatch hfalse⟩
  · exact ⟨true, ⟨_, hpc⟩, ⟨[_, _], hpc', le_rfl⟩, ⟨header, h.consumed, hmessage⟩, hv, h.holds,
      fun _ => hcount⟩

section Steps

variable [Zero F] [One F] [LE F] [DecidableLE F] [LT F] [DecidableLT F] [NatCast F] [Div F]

theorem receiveFrom_inv {source r : Nat} {metric : Option F}
    (hstep : S.receiveFrom s source r metric = some s') :
    ∃ m rest, s.link (source, r) = m :: rest ∧ OnlyStage r s s' ∧
      s'.stage r = S.handle (s.stage r) r metric m := by
  unfold SkipSetup.receiveFrom at hstep
  split at hstep
  case h_1 => cases hstep
  case h_2 m rest hm =>
  rw [Option.some.injEq] at hstep
  obtain ⟨honly, hstage⟩ := OnlyStage.setStage (r := r) (s := s) (t := s.setLink source r rest)
    (S.handle (s.stage r) r metric m) rfl rfl rfl
  rw [hstep] at honly hstage
  exact ⟨m, rest, hm, honly, hstage⟩

/-- A message that is taken is that of the stage's next token. -/
theorem Aligned.receiveFrom_takes {source r : Nat} {bypassNext : Bool} {metric : Option F}
    (h : Aligned S s f) (hr : 1 ≤ r) (hr' : r < S.ppSize)
    (hpc : (s.stage r).pc = .receive bypassNext) (hsource : r = S.target → source + 1 = r)
    (hstep : S.receiveFrom s source r metric = some s') :
    OnlyStage r s s' ∧ ∃ v, Takes S (s.verdicts S) r v (s.stage r) (s'.stage r) := by
  have hholds := (h.worker r hr hr').packet bypassNext hpc
  rcases receiveFrom_inv hstep with ⟨m, rest, hm, honly, hstage⟩
  refine ⟨honly, ?_⟩
  rw [hstage]
  by_cases hrt : r = S.target
  · have hlink : source = S.target - 1 := by
      have := hsource hrt
      omega
    subst hrt hlink
    rcases h.link_entry hm with ⟨header, rfl, hentry, -⟩
    have hmessage : if S.target = S.target
        then IsEntry S (s.verdicts S) (s.stage S.target).consumed.length header
        else IsRow S (s.stage S.target).consumed.length header := by
      rw [if_pos rfl]
      exact hentry
    rcases hentry with ⟨-, hmarker⟩ | ⟨-, hrow⟩
    · rcases handle_marker hholds hmarker metric with ⟨hconsumed, hv, hpc', hholds', -⟩
      exact ⟨false, ⟨_, hpc⟩, ⟨[], hpc', Nat.zero_le 2⟩, ⟨header, hconsumed, hmessage⟩, hv,
        hholds', fun hfalse => nomatch hfalse⟩
    · exact (handle_row hholds hr hr' hrow metric).takes hpc rfl hmessage
  · rcases h.link_row hr hr' hrt hpc hm with ⟨-, -, -, -, header, rfl, hrow⟩
    have hlen := (h.holds_current hr hr' hrt hpc).2.1
    rw [← hlen] at hrow
    refine (handle_row hholds hr hr' hrow metric).takes hpc rfl ?_
    rw [if_neg hrt]
    exact hrow

theorem Aligned.receive_move {r : Nat} {metric : Option F} (h : Aligned S s f) (hr : 1 ≤ r)
    (hr' : r < S.ppSize) (hstep : S.receive s r metric = some s') :
    OnlyStage r s s' ∧ StageMove S (s.verdicts S) r (s.stage r) (s'.stage r) := by
  unfold SkipSetup.receive at hstep
  dsimp only at hstep
  split at hstep
  case h_2 => cases hstep
  case h_1 bypassNext hpc =>
  rw [((h.worker r hr hr').packet bypassNext hpc).sources hr] at hstep
  by_cases hpost : r = S.target + 1
  · have hne : r ≠ S.target := by omega
    simp only [if_pos hpost] at hstep
    cases hgot : S.receiveFrom s (if bypassNext then S.target - 1 else S.target) r metric with
    | none =>
        rw [hgot, Option.getD_none, Option.some.injEq] at hstep
        obtain ⟨honly, hstage⟩ := OnlyStage.setStage (r := r) (s := s) (t := s)
          { s.stage r with pc := .receive !bypassNext } rfl rfl rfl
        rw [hstep] at honly hstage
        exact ⟨honly, .misses bypassNext hpc hstage⟩
    | some t =>
        rw [hgot, Option.getD_some, Option.some.injEq] at hstep
        subst hstep
        rcases h.receiveFrom_takes hr hr' hpc (fun hrt => absurd hrt hne) hgot with ⟨honly, v, hv⟩
        exact ⟨honly, .takes v hv⟩
  · simp only [if_neg hpost] at hstep
    rcases h.receiveFrom_takes hr hr' hpc (fun _ => Nat.sub_add_cancel hr) hstep with
      ⟨honly, v, hv⟩
    exact ⟨honly, .takes v hv⟩

end Steps

/-! ## Work that is left -/

/-- The actions of the root that are left. -/
def SkipSetup.rootWork (S : SkipSetup F) (s : SkipState F) : Nat :=
  (S.ppSize + 2) * (S.nTokens - s.token) - match s.rootPc with
    | .write todo => S.ppSize - todo.length
    | .send => S.ppSize
    | .receive => S.ppSize + 1
    | _ => 0

/-- A token costs a stage one read, one receive and at most two sends. -/
def StageState.work (st : StageState F) (nTokens : Nat) : Nat :=
  match st.pc with
  | .receive _ => 5 * (nTokens - st.consumed.length) - 1
  | .send outs => 5 * (nTokens - st.consumed.length) + outs.length
  | _ => 5 * (nTokens - st.consumed.length)

def SkipSetup.work (S : SkipSetup F) (s : SkipState F) : Nat :=
  S.rootWork s + ∑ r ∈ Finset.range S.ppSize, (s.stage r).work S.nTokens

theorem work_of_control {st : StageState F} (n : Nat) (h : st.pc = .control) :
    st.work n = 5 * (n - st.consumed.length) := by
  simp [StageState.work, h]

theorem work_of_receive {st : StageState F} (n : Nat) {bypassNext : Bool}
    (h : st.pc = .receive bypassNext) : st.work n = 5 * (n - st.consumed.length) - 1 := by
  simp [StageState.work, h]

theorem work_of_afterSends {st : StageState F} (n : Nat) {outs : List Outgoing}
    (h : st.pc = SkipSetup.afterSends outs) :
    st.work n = 5 * (n - st.consumed.length) + outs.length := by
  by_cases hnil : outs = []
  · subst hnil
    rw [work_of_control n h]
    rfl
  · rw [SkipSetup.afterSends, if_neg hnil] at h
    simp [StageState.work, h]

theorem Reads.work_lt {st st' : StageState F} {n : Nat} (h : Reads S st st')
    (hlt : st.consumed.length < n) : st'.work n < st.work n := by
  rw [work_of_control n h.pc, work_of_receive n h.pc', h.same.consumed]
  omega

theorem Takes.work_lt {verdicts : List Bool} {r n : Nat} {v : Bool} {st st' : StageState F}
    (h : Takes S verdicts r v st st') (hlt : st.consumed.length < n) : st'.work n < st.work n := by
  rcases h.pc with ⟨bypassNext, hpc⟩
  rcases h.pc' with ⟨outs, hpc', hlen⟩
  rcases h.consumed with ⟨header, hconsumed, -⟩
  rw [work_of_receive n hpc, work_of_afterSends n hpc', hconsumed, List.length_append,
    List.length_singleton]
  omega

theorem work_lt_of_sends {st st' : StageState F} {o : Outgoing} {outs : List Outgoing} (n : Nat)
    (hpc : st.pc = .send (o :: outs))
    (heq : st' = { st with pc := SkipSetup.afterSends outs }) : st'.work n < st.work n := by
  have hwork : st'.work n = 5 * (n - st'.consumed.length) + outs.length :=
    work_of_afterSends n (by rw [heq])
  rw [hwork, heq]
  simp [StageState.work, hpc]

theorem work_of_misses {st st' : StageState F} {bypassNext : Bool} (n : Nat)
    (hpc : st.pc = .receive bypassNext) (heq : st' = { st with pc := .receive !bypassNext }) :
    st'.work n = st.work n := by
  rw [heq]
  simp [StageState.work, hpc]

theorem OnlyStage.work_lt {r : Nat} (h : OnlyStage r s s') (hr' : r < S.ppSize)
    (hlt : (s'.stage r).work S.nTokens < (s.stage r).work S.nTokens) : S.work s' < S.work s := by
  have hroot : S.rootWork s' = S.rootWork s := by
    rw [SkipSetup.rootWork, SkipSetup.rootWork, h.rootPc, h.token]
  have hupdate : (fun b => (s'.stage b).work S.nTokens) = Function.update
      (fun b => (s.stage b).work S.nTokens) r ((s'.stage r).work S.nTokens) := by
    funext b
    by_cases hb : b = r
    · rw [hb, Function.update_self]
    · rw [h.stage b hb, Function.update_of_ne hb]
  have hsum := sum_update_lt (f := fun b => (s.stage b).work S.nTokens) hr' hlt
  rw [← hupdate] at hsum
  rw [SkipSetup.work, SkipSetup.work, hroot]
  exact Nat.add_lt_add_left hsum _

theorem OnlyStage.work_eq {r : Nat} (h : OnlyStage r s s')
    (heq : (s'.stage r).work S.nTokens = (s.stage r).work S.nTokens) : S.work s' = S.work s := by
  have hroot : S.rootWork s' = S.rootWork s := by
    rw [SkipSetup.rootWork, SkipSetup.rootWork, h.rootPc, h.token]
  have hsum : ∑ b ∈ Finset.range S.ppSize, (s'.stage b).work S.nTokens
      = ∑ b ∈ Finset.range S.ppSize, (s.stage b).work S.nTokens := by
    refine Finset.sum_congr rfl fun b _ => ?_
    by_cases hb : b = r
    · rw [hb, heq]
    · rw [h.stage b hb]
  rw [SkipSetup.work, SkipSetup.work, hroot, hsum]

/-! ### The root -/

theorem Aligned.writeControl_work {r : Nat} (h : Aligned S s f)
    (hstep : S.writeControl s r = some s') :
    s'.stage = s.stage ∧ S.rootWork s' < S.rootWork s := by
  unfold SkipSetup.writeControl at hstep
  split at hstep
  case h_2 => cases hstep
  case h_1 todo hpc =>
  by_cases hr : r ∈ todo
  case neg => simp [hr] at hstep
  rw [if_pos hr, Option.some.injEq] at hstep
  rcases h.root_write hpc with ⟨-, hnodup, hsub, hlt⟩
  have hle : todo.length ≤ S.ppSize - 1 := by
    have hlen := (hnodup.subperm hsub).length_le
    rwa [SkipSetup.workers, List.length_range'] at hlen
  have hpos := List.length_pos_of_mem hr
  have herase := List.length_erase_of_mem hr
  have htarget := S.target_lt
  obtain ⟨m, hm⟩ : ∃ m, S.nTokens - s.token = m + 1 := ⟨S.nTokens - s.token - 1, by omega⟩
  subst hstep
  refine ⟨rfl, ?_⟩
  simp only [SkipSetup.rootWork, hpc, push_token, hm, Nat.mul_succ, SkipSetup.afterWrites]
  by_cases hnil : todo.erase r = []
  · rw [hnil, List.length_nil] at herase
    simp only [if_pos hnil]
    omega
  · simp only [if_neg hnil, herase]
    omega

theorem Aligned.rootSend_work {chunked delta : Bool} (h : Aligned S s f)
    (hstep : S.rootSend s chunked delta = some s') :
    s'.stage = s.stage ∧ S.rootWork s' < S.rootWork s := by
  unfold SkipSetup.rootSend at hstep
  split at hstep
  case h_2 => cases hstep
  case h_1 hpc =>
  have hlt := (h.root_send hpc).2
  obtain ⟨m, hm⟩ : ∃ m, S.nTokens - s.token = m + 1 := ⟨S.nTokens - s.token - 1, by omega⟩
  rw [Option.some.injEq] at hstep
  subst hstep
  refine ⟨rfl, ?_⟩
  simp only [SkipSetup.rootWork, hpc, push_token, hm, Nat.mul_succ]
  omega

theorem Aligned.rootReceive_work (h : Aligned S s f) (hstep : S.rootReceive s = some s') :
    s'.stage = s.stage ∧ S.rootWork s' < S.rootWork s := by
  rcases h.rootReceive_cases hstep with ⟨-, hpc, hlt, -, rfl⟩
  obtain ⟨m, hm⟩ : ∃ m, S.nTokens - s.token = m + 1 := ⟨S.nTokens - s.token - 1, by omega⟩
  have hm' : S.nTokens - (s.token + 1) = m := by omega
  refine ⟨rfl, ?_⟩
  simp only [SkipSetup.rootWork, hpc, hm, hm', Nat.mul_succ]
  omega

theorem work_lt_of_rootWork (hstage : s'.stage = s.stage) (hlt : S.rootWork s' < S.rootWork s) :
    S.work s' < S.work s := by
  rw [SkipSetup.work, SkipSetup.work, hstage]
  exact Nat.add_lt_add_right hlt _

/-! ### The stages -/

theorem Aligned.told_le_nTokens (h : Aligned S s f) (r : Nat) : s.told r ≤ S.nTokens := by
  have hroot := h.root
  have htold := told_le s r
  split_ifs at hroot with hf
  · rcases hroot with ⟨todo, -, -, -, -, hlt⟩ | ⟨-, hlt⟩ | ⟨hpc, heq⟩
    · omega
    · omega
    · simp [SkipState.told, hpc, heq]
  · omega

theorem consumed_le_heard (st : StageState F) : st.consumed.length ≤ st.heard := by
  unfold StageState.heard
  split
  · exact Nat.le_succ _
  · exact le_rfl

theorem Aligned.heard_le_nTokens (h : Aligned S s f) {r : Nat} (hr : 1 ≤ r) (hr' : r < S.ppSize) :
    (s.stage r).heard ≤ S.nTokens :=
  (h.heard_le r hr hr').trans (h.told_le_nTokens r)

theorem Aligned.work_lt_of_reads {r : Nat} (h' : Aligned S s' f') (hr : 1 ≤ r) (hr' : r < S.ppSize)
    (honly : OnlyStage r s s') (hreads : Reads S (s.stage r) (s'.stage r)) :
    S.work s' < S.work s := by
  have hheard := h'.heard_le_nTokens hr hr'
  rw [heard_of_receive hreads.pc', hreads.same.consumed] at hheard
  exact honly.work_lt hr' (hreads.work_lt hheard)

theorem Aligned.work_lt_of_takes {verdicts : List Bool} {r : Nat} {v : Bool}
    (h : Aligned S s f) (hr : 1 ≤ r) (hr' : r < S.ppSize) (honly : OnlyStage r s s')
    (htakes : Takes S verdicts r v (s.stage r) (s'.stage r)) : S.work s' < S.work s := by
  rcases htakes.pc with ⟨bypassNext, hpc⟩
  have hheard := h.heard_le_nTokens hr hr'
  rw [heard_of_receive hpc] at hheard
  exact honly.work_lt hr' (htakes.work_lt hheard)

section Steps

variable [Zero F] [One F] [LE F] [DecidableLE F] [LT F] [DecidableLT F] [NatCast F] [Div F]

/-- What a step does: the root goes on, or one stage does. -/
theorem Aligned.step_move {a : SkipAction F} (h : Aligned S s f) (hstep : S.step s a = some s') :
    (s'.stage = s.stage ∧ S.rootWork s' < S.rootWork s) ∨
      ∃ r, 1 ≤ r ∧ r < S.ppSize ∧ OnlyStage r s s' ∧
        StageMove S (s.verdicts S) r (s.stage r) (s'.stage r) := by
  cases a with
  | writeControl r => exact .inl (h.writeControl_work hstep)
  | rootSend chunked delta => exact .inl (h.rootSend_work hstep)
  | rootReceive => exact .inl (h.rootReceive_work hstep)
  | readControl r =>
      rcases Option.ite_none_right_eq_some.mp hstep with ⟨hmem, hstep⟩
      rcases SkipSetup.mem_workers.mp hmem with ⟨hr, hr'⟩
      rcases h.readControl_reads hr hr' hstep with ⟨honly, hreads⟩
      exact .inr ⟨r, hr, hr', honly, .reads hreads⟩
  | receive r metric =>
      rcases Option.ite_none_right_eq_some.mp hstep with ⟨hmem, hstep⟩
      rcases SkipSetup.mem_workers.mp hmem with ⟨hr, hr'⟩
      exact .inr ⟨r, hr, hr', h.receive_move hr hr' hstep⟩
  | send r chunked delta =>
      rcases Option.ite_none_right_eq_some.mp hstep with ⟨hmem, hstep⟩
      rcases SkipSetup.mem_workers.mp hmem with ⟨hr, hr'⟩
      rcases SkipSetup.send_sends hstep with ⟨honly, o, outs, hpc, heq⟩
      exact .inr ⟨r, hr, hr', honly, .sends o outs hpc heq⟩

end Steps

end Pipeline
end PrefillOpt
