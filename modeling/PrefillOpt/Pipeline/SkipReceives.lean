import PrefillOpt.Pipeline.SkipSends

/-!
# Pipeline.SkipReceives — a receive keeps the stages aligned

A stage other than the target takes the current token's activation, and the front goes to that
stage.  The target takes the next message of its link: a marker leaves the front where it is.
-/

namespace PrefillOpt
namespace Pipeline

open Relation Lib

variable {F : Type} {S : SkipSetup F} {s s' : SkipState F} {f : SkipFront}

/-- The state after stage `r` has taken a message from `source` and become `st`. -/
def SkipState.takenState (s : SkipState F) (source r : Nat) (rest : List (SkipMessage F))
    (st : StageState F) : SkipState F :=
  (s.setLink source r rest).setStage r st

/-- The packet a stage other than the target holds is that of the current token. -/
theorem Aligned.holds_current (h : Aligned S s f) {r : Nat} (hr : 1 ≤ r) (hr' : r < S.ppSize)
    (hne : r ≠ S.target) {bypassNext : Bool} (hpc : (s.stage r).pc = .receive bypassNext) :
    f.level S < r ∧ (s.stage r).consumed.length = s.token ∧
      Holds S s.token (s.stage r).worker := by
  have hstage := h.stage r hr hr' hne
  by_cases hbehind : r ≤ f.level S
  · have hpc' := (hstage.behind hbehind).2
    split_ifs at hpc'
    · cases hpc.symm.trans hpc'
    · cases hpc.symm.trans hpc'
  · have hahead := Nat.not_le.mp hbehind
    have hlen := (hstage.ahead hahead).1
    exact ⟨hahead, hlen, hlen ▸ (h.worker r hr hr').packet bypassNext hpc⟩

theorem carries_flying_unique {past : Prop} {r a b a' b' : Nat}
    (h : (SkipFront.flying r).Carries S past a b) (h' : (SkipFront.flying r).Carries S past a' b') :
    (a, b) = (a', b') := by
  rcases h with ⟨rfl, ⟨hpost, hpast, rfl⟩ | ⟨hnot, ha⟩⟩
  · rcases h' with ⟨rfl, ⟨-, -, rfl⟩ | ⟨hnot', -⟩⟩
    · rfl
    · exact absurd ⟨hpost, hpast⟩ hnot'
  · rcases h' with ⟨rfl, ⟨hpost', hpast', -⟩ | ⟨-, ha'⟩⟩
    · exact absurd ⟨hpost', hpast'⟩ hnot
    · rw [Nat.succ.inj (ha.trans ha'.symm)]

/-- A message that waits for a stage other than the target is the current token's activation. -/
theorem Aligned.link_row (h : Aligned S s f) {source r : Nat} (hr : 1 ≤ r) (hr' : r < S.ppSize)
    (hne : r ≠ S.target) {bypassNext : Bool} (hpc : (s.stage r).pc = .receive bypassNext)
    {m : SkipMessage F} {rest : List (SkipMessage F)} (hm : s.link (source, r) = m :: rest) :
    f = .flying r ∧ rest = [] ∧ s.controls S source r = [] ∧
      (SkipFront.flying r).Carries S ((s.verdicts S)[s.token]? = some true) source r ∧
      ∃ header, m = .activation header ∧ IsRow S s.token header := by
  have hab : (source, r) ≠ (S.target - 1, S.target) := fun heq => hne (congrArg Prod.snd heq)
  have hctrl : s.controls S source r = [] := by
    -- the stage holds the packet of the current token, and was told of no later one
    have hlen := (h.holds_current hr hr' hne hpc).2.1
    have htold := told_le s r
    have hheard := heard_of_receive hpc
    unfold SkipState.controls
    split_ifs
    · rw [Nat.sub_eq_zero_of_le (by omega)]
      rfl
    · rfl
  rcases h.link source r hab with ⟨hs, hold, hcarried⟩
  rw [hctrl, List.nil_append, hm] at hold
  by_cases hcarries : f.Carries S ((s.verdicts S)[s.token]? = some true) source r
  · rcases hcarried.1 hcarries with ⟨header, rfl, -, hrow⟩
    simp only [List.map_cons, List.map_nil, List.cons.injEq] at hold
    rcases hcarries.flying_or_logits with ⟨rfl, -⟩ | ⟨-, -, hr0⟩
    · exact ⟨rfl, hold.2, hctrl, hcarries, header, hold.1, hrow (by omega)⟩
    · omega
  · rw [hcarried.2 hcarries] at hold
    cases hold

theorem Aligned.worker_forwarded (h : Aligned S s f) {k r : Nat} (hr : 1 ≤ r) (hr' : r < S.ppSize)
    {bypassNext : Bool} (hpc : (s.stage r).pc = .receive bypassNext) {header : StageHeader}
    {st : StageState F} (hst : Forwarded S k r header (s.stage r) st) : WorkerAt S st := by
  have hworker := h.worker r hr hr'
  have hdecode := (hworker.packet bypassNext hpc).decodePhase
  have hlen : st.verdicts.length = st.consumed.length := by
    rcases hst.outcome with ⟨hv, -⟩ | ⟨-, hv, -⟩
    · simp [hv, hst.consumed, hworker.lengths]
    · simp [hv, hst.consumed, hworker.lengths]
  refine ⟨hlen, hst.isFinished.trans hworker.running, fun bypassNext hbad => ?_,
    fun _ => hst.count_le (hworker.count_le hdecode)⟩
  rcases hst.outcome with ⟨-, hpc'⟩ | ⟨-, -, hpc', -⟩
  · cases hpc'.symm.trans hbad
  · cases hpc'.symm.trans hbad

theorem Forwarded.heard {k r : Nat} {header : StageHeader} {st st' : StageState F}
    (hst : Forwarded S k r header st st') {bypassNext : Bool} (hpc : st.pc = .receive bypassNext) :
    st'.heard = st.heard := by
  have hlen : st'.consumed.length = st.consumed.length + 1 := by
    rw [hst.consumed, List.length_append, List.length_singleton]
  rw [heard_of_receive hpc, ← hlen]
  rcases hst.outcome with ⟨-, hpc'⟩ | ⟨-, -, hpc', -⟩
  · exact heard_of_send hpc'
  · exact heard_of_send hpc'

/-- The verdicts on earlier tokens stay when a stage takes a message. -/
theorem takenState_verdicts {source r : Nat} {rest : List (SkipMessage F)} {st : StageState F}
    {v : Bool} (hv : st.verdicts = (s.stage r).verdicts ++ [v]) :
    (s.takenState source r rest st).verdicts S
      = if S.target - 1 = r then s.verdicts S ++ [v] else s.verdicts S := by
  by_cases hb : S.target - 1 = r
  · simp [SkipState.verdicts, SkipState.decision, SkipState.takenState, setStage_stage, hb, hv]
  · simp [SkipState.verdicts, SkipState.decision, SkipState.takenState, setStage_stage, hb]

theorem takenState_controls {source r : Nat} {rest : List (SkipMessage F)} {st : StageState F}
    (hheard : st.heard = (s.stage r).heard) (a b : Nat) :
    (s.takenState source r rest st).controls S a b = s.controls S a b := by
  have hsame : ((s.takenState source r rest st).stage b).heard = (s.stage b).heard := by
    rw [SkipState.takenState, setStage_stage]
    split_ifs with hb
    · rw [hheard, hb]
    · rfl
  unfold SkipState.controls
  rw [hsame]
  rfl

/-- The decision stage has decided on the tokens it has taken. -/
theorem Aligned.verdicts_length (h : Aligned S s f) :
    (s.verdicts S).length = s.took (S.target - 1) := by
  have htwo := S.two_le
  have hle := S.target_lt
  exact (h.worker (S.target - 1) (by omega) (by omega)).lengths

/-- A stage other than the target takes the activation of the current token, and the front `f'`
is at that stage. -/
theorem Aligned.take_row {source r : Nat} {bypassNext v : Bool} {header : StageHeader}
    {st : StageState F} {f' : SkipFront} (h : Aligned S s (.flying r)) (hr : 1 ≤ r)
    (hr' : r < S.ppSize) (hne : r ≠ S.target) (hpc : (s.stage r).pc = .receive bypassNext)
    (hctrl : s.controls S source r = [])
    (hcarry : (SkipFront.flying r).Carries S ((s.verdicts S)[s.token]? = some true) source r)
    (hst : Forwarded S s.token r header (s.stage r) st)
    (hv : st.verdicts = (s.stage r).verdicts ++ [v]) (hpc' : st.pc = .send (f'.outs S s.token))
    (hlevel : f'.level S = r) (hsender : f'.sender S = r)
    (hf' : f' ≠ .root ∧ f' ≠ .held S.target ∧ f' ≠ .flying S.target)
    (hcarries : ∀ past a b, ¬ f'.Carries S past a b) (hvalid : f'.Valid S)
    (hdisp : f'.dispatched S s.token = (SkipFront.flying r).dispatched S s.token)
    (hverdict : ∀ vs : List Bool, (S.target - 1 = r → vs[s.token]? = some v) →
      f'.Verdict S vs (s.took S.target) s.token) :
    Aligned S (s.takenState source r [] st) f' := by
  have htwo := S.two_le
  have hle := S.target_lt
  have hlen := (h.holds_current hr hr' hne hpc).2.1
  have hstage := setStage_stage (s.setLink source r []) r st
  have hheard := hst.heard hpc
  have hverdicts : (s.takenState source r [] st).verdicts S
      = if S.target - 1 = r then s.verdicts S ++ [v] else s.verdicts S := takenState_verdicts hv
  have htook : (s.takenState source r [] st).took S.target = s.took S.target := by
    simp [SkipState.took, SkipState.takenState, setStage_stage, hne.symm]
  have hlate : (SkipFront.flying r).dispatched S s.token ≤ s.token ∨ S.target - 1 ≠ r := by
    by_cases hD : S.target - 1 = r
    · left
      simp only [SkipFront.dispatched]
      rw [if_pos (by omega)]
    · exact .inr hD
  -- the verdicts on the tokens the target lags behind on are those from before
  have hsame : ∀ j, j < (SkipFront.flying r).dispatched S s.token →
      ((s.takenState source r [] st).verdicts S)[j]? = (s.verdicts S)[j]? := by
    intro j hj
    rw [hverdicts]
    split_ifs with hD
    · have hvlen := h.verdicts_length
      rw [hD, SkipState.took, hlen] at hvlen
      exact List.getElem?_append_left (by have := hlate.resolve_right (not_not.mpr hD); omega)
    · rfl
  have hnew : S.target - 1 = r →
      ((s.takenState source r [] st).verdicts S)[s.token]? = some v := by
    intro hD
    have hvlen := h.verdicts_length
    rw [hD, SkipState.took, hlen] at hvlen
    rw [hverdicts, if_pos hD, ← hvlen, List.getElem?_concat_length]
  refine ⟨hvalid, ?_, ?_, ?_, ?_, ?_, ?_, ?_, ?_, ?_⟩
  · have hroot := h.root
    rw [if_neg (by simp)] at hroot
    rw [if_neg hf'.1]
    exact hroot
  · intro b hb hb'
    rw [SkipState.takenState, hstage b]
    split_ifs with hbr
    · exact h.worker_forwarded hr hr' hpc hst
    · exact h.worker b hb hb'
  · intro b hb hb'
    rw [SkipState.takenState, hstage b]
    split_ifs with hbr
    · subst hbr
      rw [hheard]
      exact h.heard_le b hb hb'
    · exact h.heard_le b hb hb'
  · intro b hb hb' hbt
    have hold := h.stage b hb hb' hbt
    rw [SkipState.takenState, hstage b]
    split_ifs with hbr
    · subst hbr
      refine ⟨fun _ => ⟨?_, hpc'.trans (if_pos hsender.symm).symm⟩, fun hahead => ?_⟩
      · rw [hst.consumed, List.length_append, List.length_singleton, hlen]
        rfl
      · rw [hlevel] at hahead
        exact absurd hahead (Nat.lt_irrefl _)
    · refine ⟨fun hbehind => ?_, fun hahead => hold.ahead ?_⟩
      · rcases hold.behind (by simp only [SkipFront.level]; omega) with ⟨hlenb, hpcb⟩
        exact ⟨hlenb, hpcb.trans ((if_neg (show ¬ b = 0 by omega)).trans
          (if_neg (by omega)).symm)⟩
      · simp only [SkipFront.level]
        omega
  · rw [if_neg hf'.2.1, SkipState.takenState, hstage S.target, if_neg (Ne.symm hne)]
    have htarget := h.target
    rw [if_neg (by simp)] at htarget
    exact htarget
  · intro a b hab
    rcases h.link a b hab with ⟨hs, hold, hcarried⟩
    refine ⟨[], (setLink_link ..).trans ?_, fun hc => absurd hc (hcarries _ a b), fun _ => rfl⟩
    rw [takenState_controls hheard, List.map_nil, List.append_nil]
    by_cases hlast : (a, b) = (source, r)
    · cases hlast
      rw [if_pos rfl, hctrl]
    · -- the activation was in one link only
      have hnil : hs = [] := hcarried.2 fun hc => hlast (carries_flying_unique hc hcarry)
      rw [if_neg hlast, hold, hnil, List.map_nil, List.append_nil]
  · rcases h.queue with ⟨hs, hold, hqlen, hentry⟩
    rw [htook]
    refine ⟨hs, (setLink_link ..).trans ?_, hqlen.trans hdisp.symm, fun i e hi => ?_⟩
    · rw [if_neg fun heq => hne (congrArg Prod.snd heq).symm, hold]
    · have hi' : i < hs.length := (List.getElem?_eq_some_iff.mp hi).1
      have hj := hsame (s.took S.target + i) (by omega)
      unfold IsEntry
      rw [hj]
      exact hentry i e hi
  · rw [htook]
    intro j hj hj'
    have hj'' : j < (SkipFront.flying r).dispatched S s.token := hj'.trans_eq hdisp
    rw [hsame j hj'', h.lag j hj hj'']
    simp [hf'.2.2, hne]
  · rw [htook]
    exact hverdict _ hnew

/-- A poll that finds nothing turns to the other source. -/
theorem Aligned.poll_miss {r : Nat} {bypassNext : Bool} (h : Aligned S s f)
    (hpc : (s.stage r).pc = .receive bypassNext) (hne : r ≠ S.target) :
    Aligned S (s.setStage r { s.stage r with pc := .receive !bypassNext }) f := by
  obtain ⟨st, hst⟩ : ∃ st : StageState F,
    { s.stage r with pc := .receive !bypassNext } = st := ⟨_, rfl⟩
  have hsame : SameHistory (s.stage r) st := by
    subst hst
    exact ⟨rfl, rfl⟩
  have hpc' : st.pc = .receive !bypassNext := by
    subst hst
    rfl
  have hheard : st.heard = (s.stage r).heard := by
    rw [heard_of_receive hpc', heard_of_receive hpc, hsame.consumed]
  have hwork : st.worker = (s.stage r).worker := by
    subst hst
    rfl
  rw [hst]
  have hstage := setStage_stage s r st
  have htook := hsame.took s rfl
  have hverdicts := hsame.allVerdicts (S := S) s rfl
  have hheardAll : ∀ b, ((s.setStage r st).stage b).heard = (s.stage b).heard := by
    intro b
    rw [hstage b]
    split_ifs with hbr
    · rw [hheard, hbr]
    · rfl
  refine ⟨h.valid, h.root, ?_, ?_, ?_, ?_, ?_, ?_, ?_, ?_⟩
  · intro b hb hb'
    rw [hstage b]
    split_ifs with hbr
    · subst hbr
      have hworker := h.worker b hb hb'
      refine ⟨?_, hwork ▸ hworker.running, fun _ _ => ?_, hwork ▸ hworker.count_le⟩
      · rw [hsame.consumed, hsame.verdicts]
        exact hworker.lengths
      · rw [hsame.consumed, hwork]
        exact hworker.packet bypassNext hpc
    · exact h.worker b hb hb'
  · intro b hb hb'
    rw [hheardAll b]
    exact h.heard_le b hb hb'
  · intro b hb hb' hbt
    have hold := h.stage b hb hb' hbt
    rw [hstage b]
    split_ifs with hbr
    · subst hbr
      refine ⟨fun hbehind => ?_, fun hahead => ?_⟩
      · have hctl := (hold.behind hbehind).2
        rw [hpc] at hctl
        split_ifs at hctl
      · exact ⟨(congrArg List.length hsame.consumed).trans (hold.ahead hahead).1, .inr ⟨_, hpc'⟩⟩
    · exact ⟨hold.behind, hold.ahead⟩
  · rw [hstage S.target, if_neg (Ne.symm hne)]
    exact h.target
  · intro a b hab
    have hctrl : (s.setStage r st).controls S a b = s.controls S a b := by
      unfold SkipState.controls
      rw [hheardAll b]
      rfl
    rw [hctrl, hverdicts]
    exact h.link a b hab
  · rw [htook, hverdicts]
    exact h.queue
  · rw [htook, hverdicts]
    exact h.lag
  · rw [hverdicts, htook]
    exact h.verdict

/-! ## The target -/

/-- The first message of the target's link is about the first token it has not taken. -/
theorem Aligned.link_entry (h : Aligned S s f) {m : SkipMessage F} {rest : List (SkipMessage F)}
    (hm : s.link (S.target - 1, S.target) = m :: rest) :
    ∃ header, m = .activation header ∧ IsEntry S (s.verdicts S) (s.took S.target) header ∧
      s.took S.target < f.dispatched S s.token := by
  rcases h.queue with ⟨hs, hold, hlen, hentries⟩
  rw [hm] at hold
  cases hs with
  | nil => cases hold
  | cons e hs =>
      simp only [List.map_cons, List.cons.injEq] at hold
      rw [List.length_cons] at hlen
      exact ⟨e, hold.1, hentries 0 e rfl, by omega⟩

/-- The target takes the first message of its link; `f'` is the front afterwards. -/
theorem Aligned.take_target {f' : SkipFront} {header : StageHeader}
    {rest : List (SkipMessage F)} {st : StageState F} (h : Aligned S s f)
    (hm : s.link (S.target - 1, S.target) = .activation header :: rest)
    (hconsumed : st.consumed = (s.stage S.target).consumed ++ [header])
    (hworker : WorkerAt S st) (hheard : st.heard = (s.stage S.target).heard)
    (hpc' : if f' = .held S.target then st.pc = .send (f'.outs S s.token) else st.pc.Waiting)
    (hroot : f' = .root ↔ f = .root) (hvalid : f'.Valid S)
    (hstage : ∀ b st, 1 ≤ b → b ≠ S.target → StageAt S f s.token b st →
      StageAt S f' s.token b st)
    (hcarries : ∀ past a b, (a, b) ≠ (S.target - 1, S.target) →
      (f'.Carries S past a b ↔ f.Carries S past a b))
    (hdisp : f'.dispatched S s.token = f.dispatched S s.token)
    (hlag : ∀ j, s.took S.target + 1 ≤ j → j < f'.dispatched S s.token →
      (s.verdicts S)[j]? = some (!decide (f' = .flying S.target ∧ j = s.token)))
    (hverdict : f'.Verdict S (s.verdicts S) (s.took S.target + 1) s.token) :
    Aligned S (s.takenState (S.target - 1) S.target rest st) f' := by
  have htwo := S.two_le
  have hst := setStage_stage (s.setLink (S.target - 1) S.target rest) S.target st
  have hverdicts : (s.takenState (S.target - 1) S.target rest st).verdicts S = s.verdicts S := by
    simp only [SkipState.verdicts, SkipState.decision, SkipState.takenState]
    rw [hst, if_neg (show ¬ S.target - 1 = S.target by omega)]
    rfl
  have htook : (s.takenState (S.target - 1) S.target rest st).took S.target
      = s.took S.target + 1 := by
    simp only [SkipState.took, SkipState.takenState]
    rw [hst, if_pos rfl, hconsumed, List.length_append, List.length_singleton]
  refine ⟨hvalid, ?_, ?_, ?_, ?_, ?_, ?_, ?_, ?_, ?_⟩
  · have hold := h.root
    simp only [← hroot] at hold
    exact hold
  · intro b hb hb'
    rw [SkipState.takenState, hst b]
    split_ifs with hbt
    · exact hworker
    · exact h.worker b hb hb'
  · intro b hb hb'
    rw [SkipState.takenState, hst b]
    split_ifs with hbt
    · subst hbt
      rw [hheard]
      exact h.heard_le S.target hb hb'
    · exact h.heard_le b hb hb'
  · intro b hb hb' hbt
    rw [SkipState.takenState, hst b, if_neg hbt]
    exact hstage b _ hb hbt (h.stage b hb hb' hbt)
  · rw [SkipState.takenState, hst S.target, if_pos rfl]
    exact hpc'
  · intro a b hab
    rw [takenState_controls hheard, hverdicts]
    have hlink : (s.takenState (S.target - 1) S.target rest st).link (a, b) = s.link (a, b) :=
      (setLink_link ..).trans (if_neg hab)
    simp only [SkipState.takenState, setStage_token, setLink_token] at hlink ⊢
    rw [hlink, hcarries _ a b hab]
    exact h.link a b hab
  · rcases h.queue with ⟨hs, hold, hlen, hentry⟩
    rw [htook, hverdicts]
    rw [hm] at hold
    cases hs with
    | nil => cases hold
    | cons e hs =>
        simp only [List.map_cons, List.cons.injEq] at hold
        refine ⟨hs, ?_, ?_, fun i e' hi => ?_⟩
        · exact (setLink_link ..).trans ((if_pos rfl).trans hold.2)
        · rw [List.length_cons] at hlen
          refine Eq.trans ?_ (hlen.trans hdisp.symm)
          omega
        · have hnext := hentry (i + 1) e' hi
          rwa [Nat.add_assoc, Nat.add_comm 1 i]
  · rw [htook, hverdicts]
    exact hlag
  · rw [hverdicts, htook]
    exact hverdict

/-! ## The action -/

section Receive

variable [Zero F] [One F] [LE F] [DecidableLE F] [LT F] [DecidableLT F] [NatCast F] [Div F]

/-- A stage other than the target receives: the activation it got goes on, or past the target. -/
theorem Aligned.receiveFrom_row {source r : Nat} {bypassNext : Bool} {metric : Option F}
    (h : Aligned S s f) (hr : 1 ≤ r) (hr' : r < S.ppSize) (hne : r ≠ S.target)
    (hpc : (s.stage r).pc = .receive bypassNext)
    (hstep : S.receiveFrom s source r metric = some s') : ∃ f', Aligned S s' f' := by
  have htwo := S.two_le
  unfold SkipSetup.receiveFrom at hstep
  split at hstep
  case h_1 => cases hstep
  case h_2 m rest hm =>
  rcases h.link_row hr hr' hne hpc hm with ⟨rfl, rfl, hctrl, hcarry, header, rfl, hrow⟩
  cases hstep
  have hst := handle_row (h.holds_current hr hr' hne hpc).2.2 hr hr' hrow metric
  generalize S.handle (s.stage r) r metric (.activation header) = st at hst
  rcases hst.outcome with ⟨hv, hpc'⟩ | ⟨hdecision, hv, hpc', -⟩
  · refine ⟨.held r, h.take_row hr hr' hne hpc hctrl hcarry hst hv hpc' rfl rfl ?_
      (fun _ _ _ hfalse => hfalse) ⟨hr, hr'⟩ rfl ?_⟩
    · simpa using hne
    · rintro vs hvs (hdec | htgt)
      · exact hvs (by omega)
      · exact absurd htgt hne
  · have hD : S.target - 1 = r := by omega
    refine ⟨.marker, h.take_row hr hr' hne hpc hctrl hcarry hst hv hpc' hD hD ?_
      (fun _ _ _ hfalse => hfalse) trivial ?_ ?_⟩
    · simp
    · exact (if_pos (by omega)).symm
    · exact fun vs hvs => hvs hD

/-- The target receives: a marker about an earlier token or the current one, or the activation of
the current token. -/
theorem Aligned.receiveFrom_target {bypassNext : Bool} {metric : Option F} (h : Aligned S s f)
    (hpc : (s.stage S.target).pc = .receive bypassNext)
    (hstep : S.receiveFrom s (S.target - 1) S.target metric = some s') : ∃ f', Aligned S s' f' := by
  have htwo := S.two_le
  have hle := S.target_lt
  have hworker := h.worker S.target (by omega) (by omega)
  have hholds : Holds S (s.took S.target) (s.stage S.target).worker := hworker.packet bypassNext hpc
  unfold SkipSetup.receiveFrom at hstep
  split at hstep
  case h_1 => cases hstep
  case h_2 m rest hm =>
  rcases h.link_entry hm with ⟨header, rfl, hentry, hdisp⟩
  have hlag := h.lag (s.took S.target) le_rfl hdisp
  cases hstep
  rcases hentry with ⟨hacc, hmarker⟩ | ⟨hrej, hrow⟩
  · -- a marker: the front stays where it is
    rcases handle_marker hholds hmarker metric with ⟨hconsumed, hverdicts, hpc', -, hfin, hcount⟩
    generalize S.handle (s.stage S.target) S.target metric (.activation header) = st at *
    have hnotHeld : f ≠ .held S.target := by
      rintro rfl
      have htarget := h.target
      rw [if_pos rfl, hpc] at htarget
      cases htarget
    refine ⟨f, h.take_target hm hconsumed ⟨?_, hfin.trans hworker.running, ?_,
      fun _ => hcount (hworker.count_le hholds.decodePhase)⟩ ?_ ?_ Iff.rfl h.valid
      (fun _ _ _ _ hst => hst) (fun _ _ _ _ => Iff.rfl) rfl
      (fun j hj hj' => h.lag j (by omega) hj') ?_⟩
    · rw [hverdicts, hconsumed, List.length_append, List.length_append, hworker.lengths]
      rfl
    · intro b hbad
      cases hpc'.symm.trans hbad
    · rw [heard_of_control hpc', hconsumed, heard_of_receive hpc, List.length_append]
      rfl
    · rw [if_neg hnotHeld]
      exact .inl hpc'
    · -- the activation that flies to the target is about a later token
      have hverdict := h.verdict
      cases f with
      | flying b =>
          intro hb
          subst hb
          have hle := hverdict rfl
          rw [hacc] at hlag
          have : s.took S.target ≠ s.token := fun heq => by simp [heq] at hlag
          omega
      | _ => exact hverdict
  · -- the activation of the current token, which was flying to the target
    rw [hrej] at hlag
    obtain ⟨rfl, htoken⟩ : f = .flying S.target ∧ s.took S.target = s.token := by
      simpa using hlag
    have hst := handle_row (r := S.target) hholds (by omega) (by omega) hrow metric
    have hworker' := h.worker_forwarded (by omega) (by omega) hpc hst
    have hheard' := hst.heard hpc
    generalize S.handle (s.stage S.target) S.target metric (.activation header) = st at *
    obtain ⟨-, hpc'⟩ : st.verdicts = (s.stage S.target).verdicts ++ [false] ∧
        st.pc = .send [S.nextSend S.target (s.took S.target)] := by
      rcases hst.outcome with hgoes | ⟨hbad, -⟩
      · exact hgoes
      · omega
    refine ⟨.held S.target, h.take_target hm hst.consumed hworker' hheard' ?_ ?_
      ⟨by omega, by omega⟩ ?_ ?_ rfl ?_ ?_⟩
    · rw [if_pos rfl, ← htoken]
      exact hpc'
    · simp
    · intro b st' hb hbt hold
      have hlevel : b ≤ S.target ↔ b ≤ S.target - 1 := by omega
      refine ⟨fun hbehind => ?_, fun hahead => hold.ahead ?_⟩
      · rcases hold.behind (hlevel.mp hbehind) with ⟨hlen, hpcb⟩
        exact ⟨hlen, hpcb.trans ((if_neg (show ¬ b = 0 by omega)).trans (if_neg hbt).symm)⟩
      · simp only [SkipFront.level] at hahead ⊢
        omega
    · intro past a b hab
      simp only [SkipFront.Carries, false_iff]
      rintro ⟨rfl, ⟨hbad, -⟩ | ⟨-, ha⟩⟩
      · omega
      · exact hab (by rw [← ha]; rfl)
    · intro j hj hj'
      have hd : SkipFront.dispatched S s.token (.held S.target) = s.token + 1 :=
        if_neg (Nat.lt_irrefl _)
      omega
    · rintro (hbad | -)
      · omega
      · exact htoken ▸ hrej

theorem Aligned.receive {r : Nat} {metric : Option F} (h : Aligned S s f) (hr : 1 ≤ r)
    (hr' : r < S.ppSize) (hstep : S.receive s r metric = some s') : ∃ f', Aligned S s' f' := by
  unfold SkipSetup.receive at hstep
  dsimp only at hstep
  split at hstep
  case h_2 => cases hstep
  case h_1 bypassNext hpc =>
  have hholds := (h.worker r hr hr').packet bypassNext hpc
  rw [hholds.sources hr] at hstep
  by_cases hpost : r = S.target + 1
  · have hne : r ≠ S.target := by omega
    simp only [if_pos hpost] at hstep
    cases hgot : S.receiveFrom s (if bypassNext then S.target - 1 else S.target) r metric with
    | none =>
        rw [hgot, Option.getD_none, Option.some.injEq] at hstep
        subst hstep
        exact ⟨f, h.poll_miss hpc hne⟩
    | some t =>
        rw [hgot, Option.getD_some, Option.some.injEq] at hstep
        subst hstep
        exact h.receiveFrom_row hr hr' hne hpc hgot
  · simp only [if_neg hpost] at hstep
    by_cases hrt : r = S.target
    · subst hrt
      exact h.receiveFrom_target hpc hstep
    · exact h.receiveFrom_row hr hr' hrt hpc hstep

/-- Every step keeps the stages aligned. -/
theorem Aligned.step {a : SkipAction F} (h : Aligned S s f) (hstep : S.step s a = some s') :
    ∃ f', Aligned S s' f' := by
  cases a with
  | writeControl r => exact ⟨f, h.writeControl hstep⟩
  | rootSend chunked delta => exact ⟨_, h.rootSend hstep⟩
  | rootReceive => exact ⟨_, h.rootReceive hstep⟩
  | readControl r =>
      rcases Option.ite_none_right_eq_some.mp hstep with ⟨hmem, hstep⟩
      rcases SkipSetup.mem_workers.mp hmem with ⟨hr, hr'⟩
      exact ⟨f, h.readControl hr hr' hstep⟩
  | receive r metric =>
      rcases Option.ite_none_right_eq_some.mp hstep with ⟨hmem, hstep⟩
      rcases SkipSetup.mem_workers.mp hmem with ⟨hr, hr'⟩
      exact h.receive hr hr' hstep
  | send r chunked delta =>
      rcases Option.ite_none_right_eq_some.mp hstep with ⟨hmem, hstep⟩
      rcases SkipSetup.mem_workers.mp hmem with ⟨hr, hr'⟩
      exact ⟨_, h.send hr hr' hstep⟩

end Receive

end Pipeline
end PrefillOpt
