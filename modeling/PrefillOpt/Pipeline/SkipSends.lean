import PrefillOpt.Pipeline.SkipSteps

/-!
# Pipeline.SkipSends — a send keeps the stages aligned

The stage at the front is the only one with sends left, and each of them moves the front.
-/

namespace PrefillOpt
namespace Pipeline

open Relation Lib

variable {F : Type} {S : SkipSetup F} {s s' : SkipState F} {f : SkipFront}

/-- The front after the next send of the stage that has sends left. -/
def SkipFront.next (S : SkipSetup F) : SkipFront → SkipFront
  | .held b => if b + 1 = S.ppSize then .logits else .flying (b + 1)
  | .marker => .bypass
  | _ => .flying (S.target + 1)

/-- No activation is in a link while a stage holds it. -/
theorem Aligned.link_idle (h : Aligned S s f) (hf : ∀ past a b, ¬ f.Carries S past a b) {a b : Nat}
    (hab : (a, b) ≠ (S.target - 1, S.target)) : s.link (a, b) = s.controls S a b := by
  rcases h.link a b hab with ⟨hs, hold, hcarried⟩
  rw [hold, hcarried.2 (hf _ a b), List.map_nil, List.append_nil]

/-- A stage with sends left is the one at the front. -/
theorem Aligned.sending (h : Aligned S s f) {r : Nat} (hr : 1 ≤ r) (hr' : r < S.ppSize)
    {outs : List Outgoing} (hpc : (s.stage r).pc = .send outs) :
    f.sender S = r ∧ f.outs S s.token = outs := by
  by_cases hrt : r = S.target
  · subst hrt
    have htarget := h.target
    split_ifs at htarget with hheld
    · subst hheld
      rw [hpc, StagePc.send.injEq] at htarget
      exact ⟨rfl, htarget.symm⟩
    · rcases htarget with hc | ⟨bypassNext, hc⟩
      · cases hpc.symm.trans hc
      · cases hpc.symm.trans hc
  · have hstage := h.stage r hr hr' hrt
    by_cases hbehind : r ≤ f.level S
    · have hpc' := (hstage.behind hbehind).2
      split_ifs at hpc' with hsender
      · rw [hpc, StagePc.send.injEq] at hpc'
        exact ⟨hsender.symm, hpc'.symm⟩
      · cases hpc.symm.trans hpc'
    · rcases (hstage.ahead (Nat.not_le.mp hbehind)).2 with hc | ⟨bypassNext, hc⟩
      · cases hpc.symm.trans hc
      · cases hpc.symm.trans hc

@[simp] theorem afterSends_nil : SkipSetup.afterSends [] = .control := rfl

/-- The state after stage `r` has sent the first of its sends. -/
def SkipState.sentState (s : SkipState F) (r : Nat) (o : Outgoing) (outs : List Outgoing)
    (header : StageHeader) : SkipState F :=
  (s.push r o.targetPpRank (.activation header)).setStage r
    { s.stage r with pc := SkipSetup.afterSends outs }

theorem heard_of_send {st : StageState F} {outs : List Outgoing} (h : st.pc = .send outs) :
    st.heard = st.consumed.length := by
  simp [StageState.heard, h]

theorem heard_afterSends (st : StageState F) (outs : List Outgoing) :
    ({ st with pc := SkipSetup.afterSends outs } : StageState F).heard = st.consumed.length := by
  unfold SkipSetup.afterSends StageState.heard
  split_ifs <;> rfl

section Sent

variable {r : Nat} {o : Outgoing} {outs : List Outgoing} {header : StageHeader}

theorem sentState_history (s : SkipState F) (r : Nat) (o : Outgoing) (outs : List Outgoing)
    (header : StageHeader) :
    (∀ b, (s.sentState r o outs header).took b = s.took b) ∧
      (s.sentState r o outs header).verdicts S = s.verdicts S := by
  have hsame : SameHistory (s.stage r) { s.stage r with pc := SkipSetup.afterSends outs } :=
    ⟨rfl, rfl⟩
  exact ⟨hsame.took _ rfl, hsame.allVerdicts _ rfl⟩

theorem sentState_controls (hpc : (s.stage r).pc = .send (o :: outs)) (a b : Nat) :
    (s.sentState r o outs header).controls S a b = s.controls S a b := by
  have hheard : ((s.sentState r o outs header).stage b).heard = (s.stage b).heard := by
    rw [SkipState.sentState, setStage_stage]
    split_ifs with hb
    · rw [heard_afterSends, hb, heard_of_send hpc]
    · rfl
  unfold SkipState.controls
  rw [hheard]
  rfl

/-- What a send leaves alone, whatever front it leads to. -/
theorem Aligned.sent (h : Aligned S s f) (header : StageHeader) (hr : 1 ≤ r) (hr' : r < S.ppSize)
    (hpc : (s.stage r).pc = .send (o :: outs))
    (hlevel : ∀ b, b ≠ S.target → (b ≤ (f.next S).level S ↔ b ≤ f.level S))
    (hnext : r ≠ S.target → SkipSetup.afterSends outs =
      if r = (f.next S).sender S then .send ((f.next S).outs S s.token) else .control)
    (hsender : (f.next S).sender S = r ∨ (f.next S).sender S = 0)
    (hlast : r = S.target → outs = []) (hne : f.next S ≠ .root ∧ f.next S ≠ .held S.target)
    (hvalid : (f.next S).Valid S)
    (hlink : ∀ a b, (a, b) ≠ (S.target - 1, S.target) → ∃ hs : List StageHeader,
      (s.sentState r o outs header).link (a, b) = s.controls S a b ++ hs.map .activation ∧
        ((f.next S).Carries S ((s.verdicts S)[s.token]? = some true) a b →
          ∃ h, hs = [h] ∧ h.seqPosition = S.position s.token ∧ (b ≠ 0 → IsRow S s.token h)) ∧
        (¬ (f.next S).Carries S ((s.verdicts S)[s.token]? = some true) a b → hs = []))
    (hqueue : ∃ hs : List StageHeader,
      (s.sentState r o outs header).link (S.target - 1, S.target) = hs.map .activation ∧
        s.took S.target + hs.length = (f.next S).dispatched S s.token ∧
        ∀ i h, hs[i]? = some h → IsEntry S (s.verdicts S) (s.took S.target + i) h)
    (hlag : ∀ j, s.took S.target ≤ j → j < (f.next S).dispatched S s.token →
      (s.verdicts S)[j]? = some (!decide (f.next S = .flying S.target ∧ j = s.token)))
    (hverdict : (f.next S).Verdict S (s.verdicts S) (s.took S.target) s.token) :
    Aligned S (s.sentState r o outs header) (f.next S) := by
  rcases h.sending hr hr' hpc with ⟨hfsender, -⟩
  have hroot : f ≠ .root := by
    rintro rfl
    simp only [SkipFront.sender] at hfsender
    omega
  have hworker := h.worker r hr hr'
  have hstage := setStage_stage (s.push r o.targetPpRank (.activation header)) r
    { s.stage r with pc := SkipSetup.afterSends outs }
  rcases sentState_history (S := S) s r o outs header with
    ⟨htook, hverdicts⟩
  refine ⟨hvalid, ?_, ?_, ?_, ?_, ?_, ?_, ?_, ?_, ?_⟩
  · have hold := h.root
    rw [if_neg hroot] at hold
    rw [if_neg hne.1]
    exact hold
  · intro b hb hb'
    rw [SkipState.sentState, hstage b]
    split_ifs with hbr
    · refine ⟨hworker.lengths, hworker.running, fun bypassNext hbad => ?_, hworker.count_le⟩
      simp only [SkipSetup.afterSends] at hbad
      split_ifs at hbad
    · exact h.worker b hb hb'
  · intro b hb hb'
    rw [SkipState.sentState, hstage b]
    split_ifs with hbr
    · subst hbr
      have hle := h.heard_le b hb hb'
      rw [heard_of_send hpc] at hle
      rw [heard_afterSends]
      exact hle
    · exact h.heard_le b hb hb'
  · intro b hb hb' hbt
    have hold := h.stage b hb hb' hbt
    have hlev := hlevel b hbt
    rw [SkipState.sentState, hstage b]
    split_ifs with hbr
    · subst hbr
      refine ⟨fun hbehind => ⟨(hold.behind (hlev.mp hbehind)).1, hnext hbt⟩, fun hahead => ?_⟩
      rcases (hold.ahead (by have := hlev.not; omega)).2 with hc | ⟨bypassNext, hc⟩
      · cases hpc.symm.trans hc
      · cases hpc.symm.trans hc
    · refine ⟨fun hbehind => ?_, fun hahead => hold.ahead (by have := hlev.not; omega)⟩
      rcases hold.behind (hlev.mp hbehind) with ⟨hlen, hpcb⟩
      rw [if_neg (by omega)] at hpcb
      exact ⟨hlen, hpcb.trans (if_neg (by omega)).symm⟩
  · rw [if_neg hne.2, SkipState.sentState, hstage S.target]
    split_ifs with hrt
    · left
      simp [SkipSetup.afterSends, hlast hrt.symm]
    · have htarget := h.target
      rw [if_neg] at htarget
      · exact htarget
      · rintro rfl
        exact hrt hfsender
  · rw [hverdicts]
    intro a b hab
    rw [sentState_controls hpc]
    exact hlink a b hab
  · rw [hverdicts, htook]
    exact hqueue
  · rw [hverdicts, htook]
    exact hlag
  · rw [hverdicts, htook]
    exact hverdict

/-- The activation leaves for a link other than that to the target. -/
theorem Aligned.sent_on (h : Aligned S s f)
    (hf : ∀ past a b, ¬ f.Carries S past a b)
    (hpush : (r, o.targetPpRank) ≠ (S.target - 1, S.target))
    (hpos : header.seqPosition = S.position s.token)
    (hrow : o.targetPpRank ≠ 0 → IsRow S s.token header)
    (hcarries : ∀ a b, (f.next S).Carries S ((s.verdicts S)[s.token]? = some true) a b ↔
      (a, b) = (r, o.targetPpRank)) {a b : Nat} (hab : (a, b) ≠ (S.target - 1, S.target)) :
    ∃ hs : List StageHeader,
      (s.sentState r o outs header).link (a, b) = s.controls S a b ++ hs.map .activation ∧
        ((f.next S).Carries S ((s.verdicts S)[s.token]? = some true) a b →
          ∃ h, hs = [h] ∧ h.seqPosition = S.position s.token ∧ (b ≠ 0 → IsRow S s.token h)) ∧
        (¬ (f.next S).Carries S ((s.verdicts S)[s.token]? = some true) a b → hs = []) := by
  have hlink := push_link s r o.targetPpRank (.activation header) (a, b)
  rw [hcarries]
  by_cases hlast : (a, b) = (r, o.targetPpRank)
  · cases hlast
    rw [if_pos rfl, h.link_idle hf hpush] at hlink
    exact ⟨[header], hlink, fun _ => ⟨header, rfl, hpos, hrow⟩, fun hne => absurd rfl hne⟩
  · rw [if_neg hlast, h.link_idle hf hab] at hlink
    exact ⟨[], hlink.trans (by simp), fun heq => absurd heq hlast, fun _ => rfl⟩

/-- The link to the target is not written to. -/
theorem Aligned.queue_of_ne (h : Aligned S s f)
    (hpush : (r, o.targetPpRank) ≠ (S.target - 1, S.target))
    (hdisp : (f.next S).dispatched S s.token = f.dispatched S s.token) :
    ∃ hs : List StageHeader,
      (s.sentState r o outs header).link (S.target - 1, S.target) = hs.map .activation ∧
        s.took S.target + hs.length = (f.next S).dispatched S s.token ∧
        ∀ i h, hs[i]? = some h → IsEntry S (s.verdicts S) (s.took S.target + i) h := by
  rcases h.queue with ⟨hs, hold, hlen, hentry⟩
  refine ⟨hs, (push_link ..).trans ?_, hlen.trans hdisp.symm, hentry⟩
  rw [if_neg (Ne.symm hpush), hold]

/-- One more message for the target, about the current token. -/
theorem Aligned.queue_push (h : Aligned S s f) (hr : r = S.target - 1)
    (ho : o.targetPpRank = S.target) (hdisp : f.dispatched S s.token = s.token)
    (hdisp' : (f.next S).dispatched S s.token = s.token + 1)
    (hentry : IsEntry S (s.verdicts S) s.token header) :
    ∃ hs : List StageHeader,
      (s.sentState r o outs header).link (S.target - 1, S.target) = hs.map .activation ∧
        s.took S.target + hs.length = (f.next S).dispatched S s.token ∧
        ∀ i h, hs[i]? = some h → IsEntry S (s.verdicts S) (s.took S.target + i) h := by
  rcases h.queue with ⟨hs, hold, hlen, hentries⟩
  rw [hdisp] at hlen
  refine ⟨hs ++ [header], (push_link ..).trans ?_, ?_, ?_⟩
  · rw [hr, ho, if_pos rfl, hold, List.map_append]
    rfl
  · rw [List.length_append, List.length_singleton, hdisp']
    omega
  · intro i h hi
    rcases Nat.lt_trichotomy i hs.length with hlt | heq | hgt
    · rw [List.getElem?_append_left hlt] at hi
      exact hentries i h hi
    · rw [heq, List.getElem?_concat_length, Option.some.injEq] at hi
      rw [heq, hlen, ← hi]
      exact hentry
    · rw [List.getElem?_eq_none (by rw [List.length_append, List.length_singleton]; omega)] at hi
      cases hi

/-- The tokens the target lags behind on when no token was added to its link. -/
theorem Aligned.lag_of_ne (h : Aligned S s f)
    (hdisp : (f.next S).dispatched S s.token = f.dispatched S s.token)
    (hne : f ≠ .flying S.target ∧ f.next S ≠ .flying S.target) (j : Nat)
    (hj : s.took S.target ≤ j) (hj' : j < (f.next S).dispatched S s.token) :
    (s.verdicts S)[j]? = some (!decide (f.next S = .flying S.target ∧ j = s.token)) := by
  have hold := h.lag j hj (hj'.trans_eq hdisp)
  simp only [hne.1, hne.2, false_and, decide_false] at hold ⊢
  exact hold

/-- The logits leave the last stage. -/
theorem Aligned.send_logits (h : Aligned S s (.held r)) (hr : 1 ≤ r) (hlast : r + 1 = S.ppSize)
    (hpc : (s.stage r).pc = .send [o]) (ho : o.targetPpRank = 0)
    (hpos : header.seqPosition = S.position s.token) :
    Aligned S (s.sentState r o [] header) .logits := by
  have htwo := S.two_le
  have hle := S.target_lt
  have hnext : (SkipFront.held r).next S = .logits := if_pos hlast
  have hpush : (r, o.targetPpRank) ≠ (S.target - 1, S.target) := fun heq => by
    have := congrArg Prod.fst heq
    simp only at this
    omega
  have hdisp : ((SkipFront.held r).next S).dispatched S s.token
      = (SkipFront.held r).dispatched S s.token := by
    rw [hnext]
    simp only [SkipFront.dispatched]
    rw [if_neg (by omega)]
  have hcarries : ∀ a b, ((SkipFront.held r).next S).Carries S
      ((s.verdicts S)[s.token]? = some true) a b ↔ (a, b) = (r, o.targetPpRank) := by
    intro a b
    rw [hnext, ho, Prod.mk.injEq]
    simp only [SkipFront.Carries]
    omega
  have hsent := h.sent header hr (by omega) hpc ?_ ?_ ?_ (fun _ => rfl) ?_ ?_
    (fun a b hab => h.sent_on (fun _ _ _ hfalse => hfalse) hpush hpos (fun hne => absurd ho hne)
      hcarries hab)
    (h.queue_of_ne hpush hdisp) (h.lag_of_ne hdisp ⟨by simp, by simp [hnext]⟩) ?_
  · rwa [hnext] at hsent
  · intro b hb
    rw [hnext]
    simp only [SkipFront.level]
    omega
  · intro hne
    rw [hnext, afterSends_nil]
    exact (if_neg (show ¬ r = 0 by omega)).symm
  · rw [hnext]
    exact .inr rfl
  · rw [hnext]
    simp
  · rw [hnext]
    trivial
  · rw [hnext]
    trivial

/-- A stage other than the decision stage hands the activation to the next one. -/
theorem Aligned.send_on (h : Aligned S s (.held r)) (hr : 1 ≤ r) (hnotlast : r + 1 < S.ppSize)
    (hnot : r + 1 ≠ S.target) (hpc : (s.stage r).pc = .send [o]) (ho : o.targetPpRank = r + 1)
    (hrow : IsRow S s.token header) :
    Aligned S (s.sentState r o [] header) (.flying (r + 1)) := by
  have htwo := S.two_le
  have hle := S.target_lt
  have hnext : (SkipFront.held r).next S = .flying (r + 1) := if_neg (by omega)
  have hpush : (r, o.targetPpRank) ≠ (S.target - 1, S.target) := fun heq => by
    have := congrArg Prod.fst heq
    simp only at this
    omega
  have hdisp : ((SkipFront.held r).next S).dispatched S s.token
      = (SkipFront.held r).dispatched S s.token := by
    rw [hnext]
    simp only [SkipFront.dispatched]
    split_ifs <;> omega
  have hcarries : ∀ a b, ((SkipFront.held r).next S).Carries S
      ((s.verdicts S)[s.token]? = some true) a b ↔ (a, b) = (r, o.targetPpRank) := by
    intro a b
    -- the target holds the activation of a token that was not accepted
    have hpast : r = S.target → ¬ (s.verdicts S)[s.token]? = some true := by
      intro hrt hacc
      have hverdict := h.verdict (.inr hrt)
      rw [hacc] at hverdict
      cases hverdict
    rw [hnext, ho, Prod.mk.injEq]
    simp only [SkipFront.Carries]
    constructor
    · rintro ⟨rfl, ⟨hrt, hacc, -⟩ | ⟨-, ha⟩⟩
      · exact absurd hacc (hpast (by omega))
      · exact ⟨by omega, rfl⟩
    · rintro ⟨rfl, rfl⟩
      exact ⟨rfl, .inr ⟨fun hc => hpast (by omega) hc.2, rfl⟩⟩
  have hsent := h.sent header hr (by omega) hpc ?_ ?_ ?_ (fun _ => rfl) ?_ ?_
    (fun a b hab =>
      h.sent_on (fun _ _ _ hfalse => hfalse) hpush hrow.seqPosition (fun _ => hrow) hcarries hab)
    (h.queue_of_ne hpush hdisp)
    (h.lag_of_ne hdisp ⟨by simp, by rw [hnext, ne_eq, SkipFront.flying.injEq]; exact hnot⟩) ?_
  · rwa [hnext] at hsent
  · intro b hb
    rw [hnext]
    exact Iff.rfl
  · intro hne
    rw [hnext, afterSends_nil]
    exact (if_neg (show ¬ r = 0 by omega)).symm
  · rw [hnext]
    exact .inr rfl
  · rw [hnext]
    simp
  · rw [hnext]
    exact ⟨by omega, hnotlast⟩
  · rw [hnext]
    exact fun hc => absurd hc hnot

/-- The decision stage hands a rejected token to the target. -/
theorem Aligned.send_target (h : Aligned S s (.held r)) (hr : r = S.target - 1)
    (hpc : (s.stage r).pc = .send [o]) (ho : o.targetPpRank = S.target)
    (hrow : IsRow S s.token header) :
    Aligned S (s.sentState r o [] header) (.flying S.target) := by
  have htwo := S.two_le
  have hle := S.target_lt
  have hr1 : r + 1 = S.target := by omega
  have hnext : (SkipFront.held r).next S = .flying S.target := by
    rw [← hr1]
    exact if_neg (by omega)
  have hdisp : (SkipFront.held r).dispatched S s.token = s.token := if_pos (by omega)
  have hdisp' : ((SkipFront.held r).next S).dispatched S s.token = s.token + 1 := by
    rw [hnext]
    exact if_neg (Nat.lt_irrefl _)
  have hverdict : (s.verdicts S)[s.token]? = some false := h.verdict (.inl hr1)
  have htook : s.took S.target ≤ s.token := by
    rcases h.queue with ⟨hs, -, hlen, -⟩
    rw [hdisp] at hlen
    omega
  have hsent := h.sent header (by omega) (by omega) hpc ?_ ?_ ?_ (fun _ => rfl) ?_ ?_ ?_
    (h.queue_push hr ho hdisp hdisp' (.inr ⟨hverdict, hrow⟩)) ?_ ?_
  · rwa [hnext] at hsent
  · intro b hb
    rw [hnext, hr]
    exact Iff.rfl
  · intro hne
    rw [hnext, afterSends_nil]
    exact (if_neg (show ¬ r = 0 by omega)).symm
  · rw [hnext]
    exact .inr rfl
  · rw [hnext]
    simp
  · rw [hnext]
    exact ⟨by omega, by omega⟩
  · intro a b hab
    have hidle := h.link_idle (fun _ _ _ hfalse => hfalse) hab
    refine ⟨[], (push_link ..).trans ?_, fun hc => ?_, fun _ => rfl⟩
    · rw [hr, ho, if_neg hab, hidle]
      simp
    · rw [hnext] at hc
      rcases hc with ⟨rfl, ⟨hbad, -⟩ | ⟨-, ha⟩⟩
      · omega
      · exact absurd (show (a, S.target) = (S.target - 1, S.target) by rw [← ha]; rfl) hab
  · intro j hj hj'
    rw [hdisp'] at hj'
    rw [hnext]
    rcases Nat.lt_succ_iff_lt_or_eq.mp hj' with hlt | rfl
    · have hold := h.lag j hj (hdisp.symm ▸ hlt)
      simpa [Nat.ne_of_lt hlt] using hold
    · simpa using hverdict
  · rw [hnext]
    exact fun _ => htook

/-- The decision stage sends the marker of an accepted token. -/
theorem Aligned.send_marker (h : Aligned S s .marker) (hr : r = S.target - 1)
    (hpc : (s.stage r).pc = .send [o, S.bypassSend s.token]) (ho : o.targetPpRank = S.target)
    (hmarker : IsMarker S s.token header) :
    Aligned S (s.sentState r o [S.bypassSend s.token] header) .bypass := by
  have htwo := S.two_le
  have hle := S.target_lt
  have hverdict : (s.verdicts S)[s.token]? = some true := h.verdict
  refine h.sent header (by omega) (by omega) hpc (fun _ _ => Iff.rfl) ?_ (.inl hr.symm) (by omega)
    ⟨by simp [SkipFront.next], by simp [SkipFront.next]⟩ trivial ?_
    (h.queue_push hr ho rfl rfl (.inl ⟨hverdict, hmarker⟩)) ?_ hverdict
  · exact fun _ => (if_pos hr).symm
  · intro a b hab
    have hidle := h.link_idle (fun _ _ _ hfalse => hfalse) hab
    refine ⟨[], (push_link ..).trans ?_, fun hc => hc.elim, fun _ => rfl⟩
    rw [hr, ho, if_neg hab, hidle]
    simp
  · intro j hj hj'
    rcases Nat.lt_succ_iff_lt_or_eq.mp hj' with hlt | rfl
    · have hold := h.lag j hj hlt
      simpa [SkipFront.next] using hold
    · simpa [SkipFront.next] using hverdict

/-- The activation of an accepted token goes to the stage after the target. -/
theorem Aligned.send_bypass (h : Aligned S s .bypass) (hr : r = S.target - 1)
    (hpc : (s.stage r).pc = .send [o]) (ho : o.targetPpRank = S.target + 1)
    (hrow : IsRow S s.token header) :
    Aligned S (s.sentState r o [] header) (.flying (S.target + 1)) := by
  have htwo := S.two_le
  have hle := S.target_lt
  have hverdict : (s.verdicts S)[s.token]? = some true := h.verdict
  have hpush : (r, o.targetPpRank) ≠ (S.target - 1, S.target) := fun heq => by
    have := congrArg Prod.snd heq
    simp only at this
    omega
  have hdisp : (SkipFront.bypass.next S).dispatched S s.token
      = SkipFront.bypass.dispatched S s.token := if_neg (by omega)
  have hcarries : ∀ a b, (SkipFront.bypass.next S).Carries S
      ((s.verdicts S)[s.token]? = some true) a b ↔ (a, b) = (r, o.targetPpRank) := by
    intro a b
    rw [ho, hr, Prod.mk.injEq]
    constructor
    · rintro ⟨rfl, ⟨-, -, ha⟩ | ⟨hbad, -⟩⟩
      · exact ⟨ha, rfl⟩
      · exact absurd ⟨rfl, hverdict⟩ hbad
    · rintro ⟨rfl, rfl⟩
      exact ⟨rfl, .inl ⟨rfl, hverdict, rfl⟩⟩
  refine h.sent header (by omega) (by omega) hpc ?_ ?_ (.inr rfl) (fun _ => rfl)
    ⟨by simp [SkipFront.next], by simp [SkipFront.next]⟩ ⟨by omega, by omega⟩
    (fun a b hab =>
      h.sent_on (fun _ _ _ hfalse => hfalse) hpush hrow.seqPosition (fun _ => hrow) hcarries hab)
    (h.queue_of_ne hpush hdisp) (h.lag_of_ne hdisp ⟨by simp, by simp [SkipFront.next]⟩) ?_
  · intro b hb
    simp only [SkipFront.next, SkipFront.level]
    omega
  · exact fun _ => (if_neg (show ¬ r = 0 by omega)).symm
  · exact fun hc => absurd hc (by omega)

end Sent

theorem isMarker_header (k : Nat) (chunked delta : Bool) :
    IsMarker S k (S.header (S.markerSend k) chunked delta) := by
  refine ⟨rfl, S.marker_bytes, ?_⟩
  simp only [SkipSetup.header, SkipSetup.markerSend, transportFlags, hasFlag_or]
  rw [Bool.or_eq_true]
  exact .inr (by decide)

theorem Aligned.send {r : Nat} {chunked delta : Bool} (h : Aligned S s f) (hr : 1 ≤ r)
    (hr' : r < S.ppSize) (hstep : S.send s r chunked delta = some s') :
    Aligned S s' (f.next S) := by
  have htwo := S.two_le
  unfold SkipSetup.send at hstep
  dsimp only at hstep
  split at hstep
  case h_2 => cases hstep
  case h_1 o outs hpc =>
  rcases h.sending hr hr' hpc with ⟨hsender, houts⟩
  have heq : s' = s.sentState r o outs (S.header o chunked delta) := by
    cases hstep
    rfl
  subst heq
  cases f with
  | root => cases houts
  | flying b => cases houts
  | logits => cases houts
  | held b =>
      have hb : b = r := hsender
      subst hb
      simp only [SkipFront.outs, List.cons.injEq] at houts
      rcases houts with ⟨rfl, rfl⟩
      by_cases hlast : b + 1 = S.ppSize
      · have ho : (S.nextSend b s.token).targetPpRank = 0 := by simp [SkipSetup.nextSend, hlast]
        rw [show (SkipFront.held b).next S = .logits from if_pos hlast]
        have hpos : (S.nextSend b s.token).seqPosition = S.position s.token := by
          simp [SkipSetup.nextSend, hlast]
        exact h.send_logits hr hlast hpc ho hpos
      · have ho : S.nextSend b s.token = ⟨b + 1, S.position s.token, .xPipe, 0⟩ := if_neg hlast
        rw [show (SkipFront.held b).next S = .flying (b + 1) from if_neg hlast]
        rw [ho] at hpc ⊢
        have hrow : IsRow S s.token
            (S.header ⟨b + 1, S.position s.token, .xPipe, 0⟩ chunked delta) :=
          isRow_header rfl rfl chunked delta
        by_cases htarget : b + 1 = S.target
        · have hsent := h.send_target (by omega) hpc htarget hrow
          rwa [← htarget] at hsent
        · exact h.send_on hr (by omega) htarget hpc rfl hrow
  | marker =>
      have hr1 : r = S.target - 1 := hsender.symm
      simp only [SkipFront.outs, List.cons.injEq] at houts
      rcases houts with ⟨rfl, rfl⟩
      exact h.send_marker hr1 hpc rfl (isMarker_header s.token chunked delta)
  | bypass =>
      have hr1 : r = S.target - 1 := hsender.symm
      simp only [SkipFront.outs, List.cons.injEq] at houts
      rcases houts with ⟨rfl, rfl⟩
      exact h.send_bypass hr1 hpc rfl (isRow_header rfl rfl chunked delta)

end Pipeline
end PrefillOpt
