import PrefillOpt.Pipeline.SkipRuns

/-!
# Pipeline.StageSkip — what a run with stage skipping leaves

Over every run: each stage has taken one message for each token, in the order of the tokens; the
decision stage accepts no more tokens in a row than it may; when the root has got the logits of a
token, nothing is under way but what the target has not read yet.
-/

namespace PrefillOpt
namespace Pipeline

open Relation Lib

variable {F : Type} {S : SkipSetup F} {s s' : SkipState F} {f f' : SkipFront}

/-! ## Accepts in a row -/

/-- The tokens from `i` on, `n` of them, were all accepted. -/
def AllAccepted (verdicts : List Bool) (i n : Nat) : Prop :=
  ∀ j, i ≤ j → j < i + n → verdicts[j]? = some true

def AcceptsBounded (max : Nat) (verdicts : List Bool) : Prop :=
  ∀ i n, AllAccepted verdicts i n → n ≤ max

/-- The counter of a stage covers the accepts its verdicts end with. -/
structure Counted (max : Nat) (st : StageState F) : Prop where
  decodePhase : st.verdicts ≠ [] → st.worker.decodePhase = true
  bounded : AcceptsBounded max st.verdicts
  trailing : ∀ i n, i + n = st.verdicts.length → AllAccepted st.verdicts i n →
    n ≤ st.worker.skipConsecutiveAccepts

/-- A run of accepts ends within the list. -/
theorem AllAccepted.le_length {verdicts : List Bool} {i n : Nat} (h : AllAccepted verdicts i n)
    (hn : n ≠ 0) : i + n ≤ verdicts.length := by
  have hlast := h (i + n - 1) (by omega) (by omega)
  have hlt := (List.getElem?_eq_some_iff.mp hlast).1
  omega

theorem AllAccepted.shorter {verdicts : List Bool} {i n m : Nat} (h : AllAccepted verdicts i n)
    (hm : m ≤ n) : AllAccepted verdicts i m :=
  fun j hj hj' => h j hj (by omega)

/-- A run of accepts that does not reach the new verdict was there before. -/
theorem AllAccepted.of_append {verdicts : List Bool} {v : Bool} {i n : Nat}
    (h : AllAccepted (verdicts ++ [v]) i n) (hle : i + n ≤ verdicts.length) :
    AllAccepted verdicts i n := by
  intro j hj hj'
  have hnew := h j hj hj'
  rwa [List.getElem?_append_left (by omega)] at hnew

/-- A run of accepts that ends with the new verdict. -/
theorem AllAccepted.last {verdicts : List Bool} {v : Bool} {i n : Nat}
    (h : AllAccepted (verdicts ++ [v]) i n) (hlast : i + n = verdicts.length + 1) (hn : n ≠ 0) :
    v = true ∧ AllAccepted verdicts i (n - 1) := by
  refine ⟨?_, (h.shorter (Nat.sub_le n 1)).of_append (by omega)⟩
  have hv := h verdicts.length (by omega) (by omega)
  rw [List.getElem?_concat_length, Option.some.injEq] at hv
  exact hv

theorem Counted.takes {max r : Nat} {verdicts : List Bool} {v : Bool} {st st' : StageState F}
    (h : Counted max st) (htakes : Takes S verdicts r v st st')
    (hle : st'.worker.skipConsecutiveAccepts ≤ max) : Counted max st' := by
  -- a run that ends with this token is counted
  have htrailing : ∀ i n, i + n = st.verdicts.length + 1 → AllAccepted (st.verdicts ++ [v]) i n →
      n ≤ st'.worker.skipConsecutiveAccepts := by
    intro i n hin hall
    by_cases hn : n = 0
    · omega
    · rcases hall.last hin hn with ⟨hv, hbefore⟩
      have hcount := htakes.count hv
      have hle' := h.trailing i (n - 1) (by omega) hbefore
      omega
  refine ⟨fun _ => htakes.holds.decodePhase, ?_, ?_⟩
  · intro i n hall
    rw [htakes.verdicts] at hall
    by_cases hn : n = 0
    · omega
    · have hlen := hall.le_length hn
      rw [List.length_append, List.length_singleton] at hlen
      rcases Nat.lt_or_ge st.verdicts.length (i + n) with hlast | hearlier
      · exact (htrailing i n (by omega) hall).trans hle
      · exact h.bounded i n (hall.of_append hearlier)
  · intro i n hin hall
    rw [htakes.verdicts] at hin hall
    rw [List.length_append, List.length_singleton] at hin
    exact htrailing i n hin hall

theorem Counted.reads {max : Nat} {st st' : StageState F} (h : Counted max st)
    (hreads : Reads S st st') : Counted max st' := by
  refine ⟨fun _ => hreads.holds.decodePhase, ?_, ?_⟩
  · rw [hreads.same.verdicts]
    exact h.bounded
  · rw [hreads.same.verdicts]
    intro i n hin hall
    by_cases hnil : st.verdicts = []
    · rw [hnil, List.length_nil] at hin
      omega
    · rw [hreads.count (h.decodePhase hnil)]
      exact h.trailing i n hin hall

theorem Counted.move {max r : Nat} {verdicts : List Bool} {st st' : StageState F}
    (h : Counted max st) (hmove : StageMove S verdicts r st st')
    (hle : st'.worker.decodePhase = true → st'.worker.skipConsecutiveAccepts ≤ max) :
    Counted max st' := by
  cases hmove with
  | reads hreads => exact h.reads hreads
  | misses bypassNext hpc heq =>
      subst heq
      exact ⟨h.decodePhase, h.bounded, h.trailing⟩
  | takes v htakes => exact h.takes htakes (hle htakes.holds.decodePhase)
  | sends o outs hpc heq =>
      subst heq
      exact ⟨h.decodePhase, h.bounded, h.trailing⟩

/-! ## What the stages have taken -/

/-- Stage `r` has taken one message for each of the first tokens, in their order: the target a
marker or an activation, as the decision was, the other stages an activation. -/
def TakenInOrder (S : SkipSetup F) (verdicts : List Bool) (r : Nat) (taken : List StageHeader) :
    Prop :=
  ∀ j h, taken[j]? = some h →
    if r = S.target then IsEntry S verdicts j h else IsRow S j h

structure History (S : SkipSetup F) (s : SkipState F) : Prop where
  taken : ∀ r, 1 ≤ r → r < S.ppSize → TakenInOrder S (s.verdicts S) r (s.stage r).consumed
  counted : Counted S.packet.stageSkipMaxConsecutive (s.decision S)

theorem IsEntry.append {verdicts : List Bool} {j : Nat} {h : StageHeader}
    (hentry : IsEntry S verdicts j h) (vs : List Bool) : IsEntry S (verdicts ++ vs) j h := by
  have hkeep : ∀ b, verdicts[j]? = some b → (verdicts ++ vs)[j]? = some b := by
    intro b hb
    rw [List.getElem?_append_left (List.getElem?_eq_some_iff.mp hb).1, hb]
  rcases hentry with ⟨hv, hm⟩ | ⟨hv, hrow⟩
  · exact .inl ⟨hkeep true hv, hm⟩
  · exact .inr ⟨hkeep false hv, hrow⟩

theorem TakenInOrder.append {verdicts : List Bool} {r : Nat} {taken : List StageHeader}
    (h : TakenInOrder S verdicts r taken) (vs : List Bool) :
    TakenInOrder S (verdicts ++ vs) r taken := by
  intro j header hj
  have hold := h j header hj
  split_ifs at hold ⊢ with hrt
  · exact hold.append vs
  · exact hold

theorem TakenInOrder.concat {verdicts : List Bool} {r : Nat} {taken : List StageHeader}
    {header : StageHeader} (h : TakenInOrder S verdicts r taken)
    (hnew : if r = S.target then IsEntry S verdicts taken.length header
      else IsRow S taken.length header) : TakenInOrder S verdicts r (taken ++ [header]) := by
  intro j e hj
  rcases Nat.lt_trichotomy j taken.length with hlt | rfl | hgt
  · rw [List.getElem?_append_left hlt] at hj
    exact h j e hj
  · rw [List.getElem?_concat_length, Option.some.injEq] at hj
    rwa [← hj]
  · rw [List.getElem?_eq_none (by rw [List.length_append, List.length_singleton]; omega)] at hj
    cases hj

/-- The verdicts only grow. -/
theorem StageMove.verdicts {r : Nat} {verdicts : List Bool} {st st' : StageState F}
    (h : StageMove S verdicts r st st') : ∃ vs, st'.verdicts = st.verdicts ++ vs := by
  cases h with
  | reads hreads => exact ⟨[], by rw [hreads.same.verdicts, List.append_nil]⟩
  | misses bypassNext hpc heq => exact ⟨[], by rw [heq, List.append_nil]⟩
  | takes v htakes => exact ⟨[v], htakes.verdicts⟩
  | sends o outs hpc heq => exact ⟨[], by rw [heq, List.append_nil]⟩

theorem StageMove.taken {r : Nat} {verdicts : List Bool} {st st' : StageState F}
    (h : StageMove S verdicts r st st') (hst : TakenInOrder S verdicts r st.consumed) :
    TakenInOrder S verdicts r st'.consumed := by
  cases h with
  | reads hreads =>
      rw [hreads.same.consumed]
      exact hst
  | misses bypassNext hpc heq =>
      rw [heq]
      exact hst
  | takes v htakes =>
      rcases htakes.consumed with ⟨header, hconsumed, hmessage⟩
      rw [hconsumed]
      exact hst.concat hmessage
  | sends o outs hpc heq =>
      rw [heq]
      exact hst

/-! ## The start -/

/-- What is known of the workers when decode begins: they run, and a count of accepts that is left
from an earlier decode phase is within the bound. -/
structure SkipSetup.Ready (S : SkipSetup F) (worker : Nat → WorkerLlmInference F) : Prop where
  running : ∀ r ∈ S.workers, (worker r).isFinished = false
  count_le : ∀ r ∈ S.workers, (worker r).decodePhase = true →
    (worker r).skipConsecutiveAccepts ≤ S.packet.stageSkipMaxConsecutive

theorem start_told (worker : Nat → WorkerLlmInference F) {r : Nat} (hr : 1 ≤ r)
    (hr' : r < S.ppSize) : (S.start worker).told r = 0 := by
  have hmem : r ∈ S.workers := SkipSetup.mem_workers.mpr ⟨hr, hr'⟩
  simp only [SkipState.told, SkipSetup.start, SkipSetup.nextRound]
  by_cases hn : 0 < S.nTokens
  · simp [hn, hmem]
  · simp [hn]

theorem Aligned.start {worker : Nat → WorkerLlmInference F} (h : S.Ready worker) :
    Aligned S (S.start worker) .root := by
  have htwo := S.two_le
  have htarget := S.target_lt
  refine ⟨trivial, ?_, ?_, fun _ _ _ => Nat.zero_le _, ?_, ?_, ?_, ?_, ?_, trivial⟩
  · rw [if_pos rfl]
    by_cases hn : 0 < S.nTokens
    · refine .inl ⟨S.workers, if_pos hn, ?_, List.nodup_range', fun _ hb => hb, hn⟩
      exact List.ne_nil_of_mem (SkipSetup.mem_workers.mpr ⟨le_rfl, by omega⟩)
    · exact .inr (.inr ⟨if_neg hn, (Nat.eq_zero_of_not_pos hn).symm⟩)
  · intro r hr hr'
    have hmem : r ∈ S.workers := SkipSetup.mem_workers.mpr ⟨hr, hr'⟩
    exact ⟨rfl, h.running r hmem, fun _ hfalse => (nomatch hfalse), h.count_le r hmem⟩
  · exact fun r hr _ _ => ⟨fun hfalse => absurd hfalse (Nat.not_le.mpr hr),
      fun _ => ⟨rfl, .inl rfl⟩⟩
  · rw [if_neg (by simp)]
    exact .inl rfl
  · intro a b _
    refine ⟨[], ?_, fun hfalse => hfalse.elim, fun _ => rfl⟩
    unfold SkipState.controls
    split_ifs with hctrl
    · rw [start_told worker hctrl.2.1 hctrl.2.2]
      rfl
    · rfl
  · exact ⟨[], rfl, rfl, fun _ _ hfalse => nomatch hfalse⟩
  · exact fun j _ hj => absurd hj (Nat.not_lt_zero j)

/-- What holds of every state of a run. -/
def SkipInv (S : SkipSetup F) (s : SkipState F) : Prop :=
  (∃ f, Aligned S s f) ∧ History S s

theorem SkipInv.start {worker : Nat → WorkerLlmInference F} (h : S.Ready worker) :
    SkipInv S (S.start worker) := by
  refine ⟨⟨.root, .start h⟩, fun _ _ _ _ _ hfalse => (nomatch hfalse), fun hne => absurd rfl hne,
    fun i n hall => ?_, fun i n hin _ => ?_⟩
  · by_cases hn : n = 0
    · omega
    · have hlen : i + n ≤ 0 := hall.le_length hn
      omega
  · have hlen : i + n = 0 := hin
    omega

/-! ## Runs -/

section Steps

variable [Zero F] [One F] [LE F] [DecidableLE F] [LT F] [DecidableLT F] [NatCast F] [Div F]

theorem History.step {a : SkipAction F} (hist : History S s) (h : Aligned S s f)
    (h' : Aligned S s' f') (hstep : S.step s a = some s') : History S s' := by
  have htwo := S.two_le
  have htarget := S.target_lt
  rcases h.step_move hstep with ⟨hstage, -⟩ | ⟨r, hr, hr', honly, hmove⟩
  · have hdecision : s'.decision S = s.decision S := by
      rw [SkipState.decision, hstage]
      rfl
    refine ⟨fun b hb hb' => ?_, ?_⟩
    · rw [SkipState.verdicts, hdecision, hstage]
      exact hist.taken b hb hb'
    · rw [hdecision]
      exact hist.counted
  obtain ⟨vs, hvs⟩ : ∃ vs, s'.verdicts S = s.verdicts S ++ vs := by
    by_cases hD : S.target - 1 = r
    · rw [SkipState.verdicts, SkipState.verdicts, SkipState.decision, SkipState.decision, hD]
      exact hmove.verdicts
    · rw [SkipState.verdicts, SkipState.decision, honly.stage _ hD]
      exact ⟨[], (List.append_nil _).symm⟩
  refine ⟨fun b hb hb' => ?_, ?_⟩
  · rw [hvs]
    by_cases hbr : b = r
    · subst hbr
      exact (hmove.taken (hist.taken b hb hb')).append vs
    · rw [honly.stage b hbr]
      exact (hist.taken b hb hb').append vs
  · by_cases hD : S.target - 1 = r
    · have hle := (h'.worker (S.target - 1) (by omega) (by omega)).count_le
      have hcounted := hist.counted
      rw [SkipState.decision, hD] at hcounted ⊢
      rw [hD] at hle
      exact hcounted.move hmove hle
    · rw [SkipState.decision, honly.stage _ hD]
      exact hist.counted

theorem SkipInv.step (h : SkipInv S s) (hstep : S.SkipStep s s') : SkipInv S s' := by
  rcases h with ⟨⟨f, haligned⟩, hist⟩
  rcases hstep with ⟨a, hstep⟩
  rcases haligned.step hstep with ⟨f', haligned'⟩
  exact ⟨⟨f', haligned'⟩, hist.step haligned haligned' hstep⟩

theorem SkipInv.run (h : SkipInv S s) (hreach : ReflTransGen S.SkipStep s s') : SkipInv S s' :=
  invariant_of_reach (fun _ _ hs hstep => hs.step hstep) h hreach

/-! ## Progress -/

theorem Aligned.can_readControl (h : Aligned S s f) {r : Nat} (hr : 1 ≤ r) (hr' : r < S.ppSize)
    (hpc : (s.stage r).pc = .control) (hlt : (s.stage r).heard < s.told r) :
    ∃ a s', S.step s a = some s' ∧ S.work s' < S.work s := by
  have htwo := S.two_le
  have hab : (0, r) ≠ (S.target - 1, S.target) := fun heq => by
    have := congrArg Prod.fst heq
    simp only at this
    omega
  obtain ⟨rest, hm⟩ : ∃ rest, s.link (0, r)
      = .control (S.packetAt (s.stage r).heard) :: rest := by
    rcases h.link 0 r hab with ⟨hs, hold, -⟩
    rw [controls_cons hr hr' hlt, List.cons_append] at hold
    exact ⟨_, hold⟩
  have hmem : r ∈ S.workers := SkipSetup.mem_workers.mpr ⟨hr, hr'⟩
  obtain ⟨s', hstep⟩ : ∃ s', S.readControl s r = some s' := by
    unfold SkipSetup.readControl
    simp only [hpc, hm]
    exact ⟨_, rfl⟩
  rcases h.readControl_reads hr hr' hstep with ⟨honly, hreads⟩
  exact ⟨.readControl r, s', (if_pos hmem).trans hstep,
    (h.readControl hr hr' hstep).work_lt_of_reads hr hr' honly hreads⟩

theorem can_send {r : Nat} (hr : 1 ≤ r) (hr' : r < S.ppSize)
    {o : Outgoing} {outs : List Outgoing} (hpc : (s.stage r).pc = .send (o :: outs)) :
    ∃ a s', S.step s a = some s' ∧ S.work s' < S.work s := by
  have hmem : r ∈ S.workers := SkipSetup.mem_workers.mpr ⟨hr, hr'⟩
  obtain ⟨s', hstep⟩ : ∃ s', S.send s r false false = some s' := by
    unfold SkipSetup.send
    simp only [hpc]
    exact ⟨_, rfl⟩
  rcases SkipSetup.send_sends hstep with ⟨honly, o', outs', hpc', heq⟩
  exact ⟨.send r false false, s', (if_pos hmem).trans hstep,
    honly.work_lt hr' (work_lt_of_sends _ hpc' heq)⟩

theorem receiveFrom_of_ne_nil {source r : Nat} (hne : s.link (source, r) ≠ [])
    (metric : Option F) : ∃ s', S.receiveFrom s source r metric = some s' := by
  unfold SkipSetup.receiveFrom
  split
  case h_1 hm => exact absurd hm hne
  case h_2 m rest hm => exact ⟨_, rfl⟩

/-- A stage that waits for the message in one of its links takes it, if need be after a poll of
the other source. -/
theorem Aligned.can_receive (h : Aligned S s f) {source r : Nat} (hr : 1 ≤ r) (hr' : r < S.ppSize)
    {bypassNext : Bool} (hpc : (s.stage r).pc = .receive bypassNext)
    (hsource : (r = S.target + 1 → source = S.target - 1 ∨ source = S.target) ∧
      (r ≠ S.target + 1 → source + 1 = r)) (hne : s.link (source, r) ≠ []) :
    ∃ s', ReflTransGen S.SkipStep s s' ∧ S.work s' < S.work s := by
  have hmem : r ∈ S.workers := SkipSetup.mem_workers.mpr ⟨hr, hr'⟩
  have hsources := ((h.worker r hr hr').packet bypassNext hpc).sources hr
  have htaken : ∀ {t t' : SkipState F} {source bypassNext}, Aligned S t f →
      (t.stage r).pc = .receive bypassNext → (r = S.target → source + 1 = r) →
      S.receiveFrom t source r none = some t' → S.work t' < S.work t := by
    intro t t' source bypassNext ht hpct hs hgot
    rcases ht.receiveFrom_takes hr hr' hpct hs hgot with ⟨honly, v, htakes⟩
    exact ht.work_lt_of_takes hr hr' honly htakes
  by_cases hpost : r = S.target + 1
  · have hnt : r ≠ S.target := by omega
    rw [if_pos hpost] at hsources
    have hreceive : ∀ {t : SkipState F} {turn : Bool}, (t.stage r).pc = .receive turn →
        (t.stage r).worker = (s.stage r).worker → S.receive t r none =
          some ((S.receiveFrom t (if turn then S.target - 1 else S.target) r none).getD
            (t.setStage r { t.stage r with pc := .receive !turn })) := by
      intro t turn hpct hworker
      unfold SkipSetup.receive
      simp only [hpct, hworker, hsources]
    have hgo := hreceive hpc rfl
    cases hgot : S.receiveFrom s (if bypassNext then S.target - 1 else S.target) r none with
    | some t =>
        rw [hgot, Option.getD_some] at hgo
        exact ⟨t, .single ⟨.receive r none, (if_pos hmem).trans hgo⟩,
          htaken h hpc (fun hrt => absurd hrt hnt) hgot⟩
    | none =>
        -- the poll finds nothing, so the message is in the other link
        rw [hgot, Option.getD_none] at hgo
        have hmiss := h.poll_miss hpc hnt
        rcases OnlyStage.setStage (r := r) (s := s) (t := s)
          { s.stage r with pc := .receive !bypassNext } rfl rfl rfl with ⟨honly, hstage⟩
        have hlinks : (s.setStage r { s.stage r with pc := .receive !bypassNext }).link = s.link :=
          rfl
        generalize s.setStage r { s.stage r with pc := .receive !bypassNext } = t at *
        have hpct : (t.stage r).pc = .receive !bypassNext := by rw [hstage]
        have hother : source = if (!bypassNext) = true then S.target - 1 else S.target := by
          have hnot : source ≠ if bypassNext then S.target - 1 else S.target := by
            rintro rfl
            rcases receiveFrom_of_ne_nil (S := S) hne none with ⟨t', ht'⟩
            cases hgot.symm.trans ht'
          have hsrc := hsource.1 hpost
          cases bypassNext with
          | true => exact hsrc.resolve_left hnot
          | false => exact hsrc.resolve_right hnot
        obtain ⟨t', ht'⟩ := receiveFrom_of_ne_nil (S := S) (s := t) (by rw [hlinks]; exact hne) none
        have hgo' := hreceive hpct (by rw [hstage])
        rw [← hother, ht', Option.getD_some] at hgo'
        have hwork : S.work t = S.work s := honly.work_eq (work_of_misses _ hpc hstage)
        refine ⟨t', .tail (.single ⟨.receive r none, (if_pos hmem).trans hgo⟩)
          ⟨.receive r none, (if_pos hmem).trans hgo'⟩, ?_⟩
        rw [← hwork]
        exact htaken hmiss hpct (fun hrt => absurd hrt hnt) ht'
  · rw [if_neg hpost] at hsources
    have hsrc := hsource.2 hpost
    obtain ⟨t, hgot⟩ := receiveFrom_of_ne_nil (S := S) hne none
    have hgo : S.receive s r none = some t := by
      unfold SkipSetup.receive
      simp only [hpc, hsources]
      rw [← hgot, ← hsrc]
      rfl
    exact ⟨t, .single ⟨.receive r none, (if_pos hmem).trans hgo⟩,
      htaken h hpc (fun _ => hsrc) hgot⟩

/-- The run is over: every stage has taken a message for each token, and nothing is under way. -/
structure Done (S : SkipSetup F) (s : SkipState F) : Prop where
  rootPc : s.rootPc = .finished
  stage : ∀ r, 1 ≤ r → r < S.ppSize → (s.stage r).pc = .control ∧ s.took r = S.nTokens
  link : ∀ c, s.link c = []

/-- A waiting stage that has a token to handle can go on. -/
theorem Aligned.can_wait (h : Aligned S s f) (source : Nat) {r : Nat} (hr : 1 ≤ r)
    (hr' : r < S.ppSize) (hwait : (s.stage r).pc.Waiting) (hlt : s.took r < s.told r)
    (hsource : (r = S.target + 1 → source = S.target - 1 ∨ source = S.target) ∧
      (r ≠ S.target + 1 → source + 1 = r)) (hne : s.link (source, r) ≠ []) :
    ∃ s', ReflTransGen S.SkipStep s s' ∧ S.work s' < S.work s := by
  rcases hwait with hpc | ⟨bypassNext, hpc⟩
  · have hheard : (s.stage r).heard < s.told r := (heard_of_control hpc).trans_lt hlt
    rcases h.can_readControl hr hr' hpc hheard with ⟨a, s', hstep, hwork⟩
    exact ⟨s', .single ⟨a, hstep⟩, hwork⟩
  · exact h.can_receive hr hr' hpc hsource hne

/-- The stage the activation is on its way to can go on. -/
theorem Aligned.can_land {b : Nat} (h : Aligned S s (.flying b)) :
    ∃ s', ReflTransGen S.SkipStep s s' ∧ S.work s' < S.work s := by
  have htwo := S.two_le
  have htarget := S.target_lt
  have hvalid : 1 ≤ b ∧ b < S.ppSize := h.valid
  have hroot := h.root
  rw [if_neg (by simp)] at hroot
  have htold : s.told b = s.token + 1 := by simp [SkipState.told, hroot.1]
  by_cases hbt : b = S.target
  · subst hbt
    have htook : s.took S.target ≤ s.token := h.verdict rfl
    have hwait := h.target
    rw [if_neg (by simp)] at hwait
    have hne : s.link (S.target - 1, S.target) ≠ [] := by
      rcases h.queue with ⟨hs, hold, hlen, -⟩
      have hd : SkipFront.dispatched S s.token (.flying S.target) = s.token + 1 :=
        if_neg (Nat.lt_irrefl _)
      rw [hold]
      rintro hnil
      rw [List.map_eq_nil_iff.mp hnil, List.length_nil] at hlen
      omega
    exact h.can_wait _ hvalid.1 hvalid.2 hwait (by omega) ⟨by omega, by omega⟩ hne
  · have hahead := (h.stage b hvalid.1 hvalid.2 hbt).ahead (by simp only [SkipFront.level]; omega)
    have hlt : s.took b < s.told b := by
      rw [htold, SkipState.took, hahead.1]
      exact Nat.lt_succ_self _
    -- one of its links carries the activation
    obtain ⟨source, hcarry, hsource⟩ : ∃ source,
        (SkipFront.flying b).Carries S ((s.verdicts S)[s.token]? = some true) source b ∧
          ((b = S.target + 1 → source = S.target - 1 ∨ source = S.target) ∧
            (b ≠ S.target + 1 → source + 1 = b)) := by
      by_cases hpast : b = S.target + 1 ∧ (s.verdicts S)[s.token]? = some true
      · exact ⟨S.target - 1, ⟨rfl, .inl ⟨hpast.1, hpast.2, rfl⟩⟩, by omega, by omega⟩
      · exact ⟨b - 1, ⟨rfl, .inr ⟨hpast, by omega⟩⟩, by omega, by omega⟩
    have hab : (source, b) ≠ (S.target - 1, S.target) := fun heq => hbt (congrArg Prod.snd heq)
    rcases h.link source b hab with ⟨hs, hold, hcarried⟩
    rcases hcarried.1 hcarry with ⟨header, rfl, -⟩
    have hne : s.link (source, b) ≠ [] := by
      rw [hold]
      simp
    exact h.can_wait source hvalid.1 hvalid.2 hahead.2 hlt hsource hne

theorem Aligned.can_send_on (h : Aligned S s f) {r : Nat} {o : Outgoing} {outs : List Outgoing}
    (hr : 1 ≤ r) (hr' : r < S.ppSize) (hrt : r ≠ S.target) (hlevel : f.level S = r)
    (hsender : f.sender S = r) (houts : f.outs S s.token = o :: outs) :
    ∃ s', ReflTransGen S.SkipStep s s' ∧ S.work s' < S.work s := by
  have hpc := ((h.stage r hr hr' hrt).behind hlevel.ge).2
  rw [if_pos hsender.symm, houts] at hpc
  rcases can_send hr hr' hpc with ⟨a, s', hstep, hwork⟩
  exact ⟨s', .single ⟨a, hstep⟩, hwork⟩

/-- While the activation is on its way, some node can go on. -/
theorem Aligned.can_go (h : Aligned S s f) (hf : f ≠ .root) :
    ∃ s', ReflTransGen S.SkipStep s s' ∧ S.work s' < S.work s := by
  have htwo := S.two_le
  have htarget := S.target_lt
  cases f with
  | root => exact absurd rfl hf
  | flying b => exact h.can_land
  | held b =>
      have hvalid : 1 ≤ b ∧ b < S.ppSize := h.valid
      by_cases hbt : b = S.target
      · subst hbt
        have hpc := h.target
        rw [if_pos rfl] at hpc
        rcases can_send hvalid.1 hvalid.2 hpc with ⟨a, s', hstep, hwork⟩
        exact ⟨s', .single ⟨a, hstep⟩, hwork⟩
      · exact h.can_send_on hvalid.1 hvalid.2 hbt rfl rfl rfl
  | marker => exact h.can_send_on (r := S.target - 1) (by omega) (by omega) (by omega) rfl rfl rfl
  | bypass => exact h.can_send_on (r := S.target - 1) (by omega) (by omega) (by omega) rfl rfl rfl
  | logits =>
      have hroot := h.root
      rw [if_neg (by simp)] at hroot
      have hab : (S.ppSize - 1, 0) ≠ (S.target - 1, S.target) := fun heq => by
        have := congrArg Prod.snd heq
        simp only at this
        omega
      rcases h.link (S.ppSize - 1) 0 hab with ⟨hs, hold, hcarried⟩
      rcases hcarried.1 ⟨by omega, rfl⟩ with ⟨header, rfl, -⟩
      rw [controls_of_ne_zero _ _ (by omega)] at hold
      obtain ⟨s', hstep⟩ : ∃ s', S.rootReceive s = some s' := by
        unfold SkipSetup.rootReceive
        rw [hroot.1, hold]
        exact ⟨_, rfl⟩
      rcases h.rootReceive_work hstep with ⟨hstage, hwork⟩
      exact ⟨s', .single ⟨.rootReceive, hstep⟩, work_lt_of_rootWork hstage hwork⟩

/-- The root has got the logits of the last token: the target takes what is left, or the run is
over. -/
theorem Aligned.can_finish (h : Aligned S s .root) (hpc : s.rootPc = .finished) :
    Done S s ∨ ∃ s', ReflTransGen S.SkipStep s s' ∧ S.work s' < S.work s := by
  have htwo := S.two_le
  have htarget := S.target_lt
  have htoken : s.token = S.nTokens := by
    have hroot := h.root
    rw [if_pos rfl, hpc] at hroot
    simpa using hroot
  have htold : ∀ r, s.told r = s.token := fun r => by simp [SkipState.told, hpc]
  have hwait := h.target
  rw [if_neg (by simp)] at hwait
  rcases h.queue with ⟨hs, hold, hlen, -⟩
  have hlen' : s.took S.target + hs.length = s.token := hlen
  by_cases hnil : hs = []
  case neg =>
    right
    have hpos := List.length_pos_iff.mpr hnil
    have htook := htold S.target
    refine h.can_wait (S.target - 1) (by omega) (by omega) hwait (by omega)
      ⟨by omega, by omega⟩ ?_
    rw [hold]
    exact fun hbad => hnil (List.map_eq_nil_iff.mp hbad)
  left
  -- a stage that has handled all tokens was told of no other
  have hidle : ∀ r, 1 ≤ r → r < S.ppSize → s.took r = s.token → (s.stage r).pc.Waiting →
      (s.stage r).pc = .control ∧ (s.stage r).heard = s.token := by
    rintro r hr hr' htook (hctl | ⟨bypassNext, hrec⟩)
    · exact ⟨hctl, (heard_of_control hctl).trans htook⟩
    · have hle := h.heard_le r hr hr'
      rw [heard_of_receive hrec, htold r] at hle
      have : (s.stage r).consumed.length = s.token := htook
      omega
  have hstage : ∀ r, 1 ≤ r → r < S.ppSize →
      s.took r = s.token ∧ (s.stage r).pc = .control ∧ (s.stage r).heard = s.token := by
    intro r hr hr'
    by_cases hrt : r = S.target
    · subst hrt
      have htook : s.took S.target = s.token := by
        rw [hnil, List.length_nil] at hlen'
        exact hlen'
      exact ⟨htook, hidle _ hr hr' htook hwait⟩
    · have hahead := (h.stage r hr hr' hrt).ahead (by simp only [SkipFront.level]; omega)
      exact ⟨hahead.1, hidle r hr hr' hahead.1 hahead.2⟩
  refine ⟨hpc, fun r hr hr' => ?_, fun c => ?_⟩
  · rcases hstage r hr hr' with ⟨htook, hctl, -⟩
    exact ⟨hctl, htook.trans htoken⟩
  · obtain ⟨a, b⟩ := c
    by_cases hab : (a, b) = (S.target - 1, S.target)
    · rw [hab, hold, hnil]
      rfl
    · rw [h.link_idle (fun _ _ _ hfalse => hfalse) hab]
      unfold SkipState.controls
      split_ifs with hctrl
      · rw [htold b, (hstage b hctrl.2.1 hctrl.2.2).2.2, Nat.sub_self]
        rfl
      · rfl

theorem Aligned.progress (h : Aligned S s f) (hnot : ¬ Done S s) :
    ∃ s', ReflTransGen S.SkipStep s s' ∧ S.work s' < S.work s := by
  by_cases hf : f = .root
  case neg => exact h.can_go hf
  subst hf
  have hroot := h.root
  rw [if_pos rfl] at hroot
  rcases hroot with ⟨todo, hpc, hne, -⟩ | ⟨hpc, -⟩ | ⟨hpc, -⟩
  · obtain ⟨r, hr⟩ := List.exists_mem_of_ne_nil todo hne
    obtain ⟨s', hstep⟩ : ∃ s', S.writeControl s r = some s' := by
      unfold SkipSetup.writeControl
      simp only [hpc, if_pos hr]
      exact ⟨_, rfl⟩
    rcases h.writeControl_work hstep with ⟨hstage, hwork⟩
    exact ⟨s', .single ⟨.writeControl r, hstep⟩, work_lt_of_rootWork hstage hwork⟩
  · obtain ⟨s', hstep⟩ : ∃ s', S.rootSend s false false = some s' := by
      unfold SkipSetup.rootSend
      simp only [hpc]
      exact ⟨_, rfl⟩
    rcases h.rootSend_work hstep with ⟨hstage, hwork⟩
    exact ⟨s', .single ⟨.rootSend false false, hstep⟩, work_lt_of_rootWork hstage hwork⟩
  · exact (h.can_finish hpc).resolve_left hnot

/-- Every run can be continued to its end. -/
theorem SkipInv.exists_done (h : SkipInv S s) : ∃ e, ReflTransGen S.SkipStep s e ∧ Done S e := by
  have hprogress : ∀ t, SkipInv S t → ¬ Done S t →
      ∃ t', ReflTransGen S.SkipStep t t' ∧ SkipInv S t' ∧ S.work t' < S.work t := by
    intro t ht hnot
    rcases ht.1 with ⟨f, haligned⟩
    rcases haligned.progress hnot with ⟨t', hreach, hwork⟩
    exact ⟨t', hreach, ht.run hreach, hwork⟩
  rcases exists_reach_final_of_reach (Done S) S.work hprogress h with ⟨e, hreach, -, hdone⟩
  exact ⟨e, hreach, hdone⟩

end Steps

/-! ## When the logits of a token have reached the root -/

/-- The root has got the logits of the tokens before `s.token` and has written no packet since. -/
structure Settled (S : SkipSetup F) (s : SkipState F) : Prop where
  stage : ∀ r, 1 ≤ r → r < S.ppSize → r ≠ S.target → s.took r = s.token
  /-- What lies in front of the target are markers of accepted tokens. -/
  target : ∃ hs : List StageHeader, s.link (S.target - 1, S.target) = hs.map .activation ∧
    s.took S.target + hs.length = s.token ∧
      ∀ i h, hs[i]? = some h → (s.verdicts S)[s.took S.target + i]? = some true ∧
        IsMarker S (s.took S.target + i) h
  /-- The packets of the tokens the target has not begun. -/
  packets : s.link (0, S.target) = (List.range' (s.stage S.target).heard
    (s.token - (s.stage S.target).heard)).map fun k => .control (S.packetAt k)
  link : ∀ c, c ≠ (S.target - 1, S.target) → c ≠ (0, S.target) → s.link c = []

theorem Aligned.settled (h : Aligned S s .root) (hpc : s.rootPc = S.nextRound s.token) :
    Settled S s := by
  have htwo := S.two_le
  have htarget := S.target_lt
  have htold : ∀ r, 1 ≤ r → r < S.ppSize → s.told r = s.token := by
    intro r hr hr'
    have hmem : r ∈ S.workers := SkipSetup.mem_workers.mpr ⟨hr, hr'⟩
    simp only [SkipState.told, hpc, SkipSetup.nextRound]
    by_cases hn : s.token < S.nTokens
    · simp [hn, hmem]
    · simp [hn]
  have hahead : ∀ r, 1 ≤ r → r < S.ppSize → r ≠ S.target → s.took r = s.token := by
    intro r hr hr' hrt
    exact ((h.stage r hr hr' hrt).ahead (by simp only [SkipFront.level]; omega)).1
  have hlink := fun a b => h.link_idle (a := a) (b := b) (fun _ _ _ hfalse => hfalse)
  refine ⟨hahead, ?_, ?_, ?_⟩
  · rcases h.queue with ⟨hs, hold, hlen, hentry⟩
    refine ⟨hs, hold, hlen, fun i e hi => ?_⟩
    have hlt : i < hs.length := (List.getElem?_eq_some_iff.mp hi).1
    have hlag : (s.verdicts S)[s.took S.target + i]? = some true := by
      simpa using h.lag (s.took S.target + i) (Nat.le_add_right _ _) (by omega)
    rcases hentry i e hi with ⟨-, hmarker⟩ | ⟨hrej, -⟩
    · exact ⟨hlag, hmarker⟩
    · cases hlag.symm.trans hrej
  · rw [hlink 0 S.target (fun heq => by have := congrArg Prod.fst heq; simp only at this; omega)]
    have hctrl : 1 ≤ S.target ∧ S.target < S.ppSize := by omega
    simp only [SkipState.controls, hctrl, and_self, if_true, htold S.target hctrl.1 hctrl.2]
  · rintro ⟨a, b⟩ hab hctl
    rw [hlink a b hab]
    unfold SkipState.controls
    split_ifs with hc
    · have hbt : b ≠ S.target := fun hb => hctl (by rw [hc.1, hb])
      have hle := consumed_le_heard (s.stage b)
      have htook : (s.stage b).consumed.length = s.token := hahead b hc.2.1 hc.2.2 hbt
      rw [htold b hc.2.1 hc.2.2, Nat.sub_eq_zero_of_le (by omega)]
      rfl
    · rfl

/-- The message by which the root gets the logits is that of its token. -/
theorem Aligned.rootReceive_settled (h : Aligned S s f) (hstep : S.rootReceive s = some s') :
    (∃ header, s.link (S.ppSize - 1, 0) = [.activation header] ∧
      header.seqPosition = S.position s.token) ∧ s'.token = s.token + 1 ∧ Settled S s' := by
  have h' := h.rootReceive hstep
  rcases h.rootReceive_cases hstep with ⟨-, -, -, hlogits, rfl⟩
  exact ⟨hlogits, rfl, h'.settled rfl⟩

/-- No exception was thrown and no bytes were taken for what they are not. -/
structure NoFailure (S : SkipSetup F) (s : SkipState F) : Prop where
  root : ∀ text, s.rootPc ≠ .failed text
  stage : ∀ r, 1 ≤ r → r < S.ppSize → (s.stage r).pc ≠ .stopped ∧
    ∀ text, (s.stage r).pc ≠ .failed text

theorem StagePc.Waiting.ne {pc : StagePc} (h : pc.Waiting) :
    pc ≠ .stopped ∧ ∀ text, pc ≠ .failed text := by
  rcases h with rfl | ⟨bypassNext, rfl⟩
  · exact ⟨nofun, nofun⟩
  · exact ⟨nofun, nofun⟩

theorem Aligned.noFailure (h : Aligned S s f) : NoFailure S s := by
  refine ⟨fun text hbad => ?_, fun r hr hr' => ?_⟩
  · have hroot := h.root
    rw [hbad] at hroot
    simp at hroot
  · by_cases hrt : r = S.target
    · subst hrt
      have htarget := h.target
      split_ifs at htarget
      · rw [htarget]
        exact ⟨nofun, nofun⟩
      · exact htarget.ne
    · have hstage := h.stage r hr hr' hrt
      by_cases hbehind : r ≤ f.level S
      · rw [(hstage.behind hbehind).2]
        split_ifs
        · exact ⟨nofun, nofun⟩
        · exact ⟨nofun, nofun⟩
      · exact (hstage.ahead (Nat.not_le.mp hbehind)).2.ne

/-! ## Stage skipping keeps the stages with their tokens -/

section Result

variable [Zero F] [One F] [LE F] [DecidableLE F] [LT F] [DecidableLT F] [NatCast F] [Div F]

/-- In every state of every run the stages have taken one message for each token in order, the
accepts in a row are bounded, and no stage has failed.  When the logits of a token reach the root,
only what the target has not read is under way; and the run can be continued to its end. -/
theorem stage_skip_keeps_aligned (S : SkipSetup F) {worker : Nat → WorkerLlmInference F}
    (hready : S.Ready worker) {s : SkipState F}
    (hreach : ReflTransGen S.SkipStep (S.start worker) s) :
    (∀ r, 1 ≤ r → r < S.ppSize → TakenInOrder S (s.verdicts S) r (s.stage r).consumed) ∧
    AcceptsBounded S.packet.stageSkipMaxConsecutive (s.verdicts S) ∧
    NoFailure S s ∧
    (∀ s', S.rootReceive s = some s' →
      (∃ header, s.link (S.ppSize - 1, 0) = [.activation header] ∧
        header.seqPosition = S.position s.token) ∧ s'.token = s.token + 1 ∧ Settled S s') ∧
    ∃ e, ReflTransGen S.SkipStep s e ∧ Done S e := by
  have hinv := (SkipInv.start hready).run hreach
  rcases hinv.1 with ⟨f, haligned⟩
  exact ⟨hinv.2.taken, hinv.2.counted.bounded, haligned.noFailure,
    fun _ hstep => haligned.rootReceive_settled hstep, hinv.exists_done⟩

theorem runActions_reach {as : List (SkipAction F)} (h : S.runActions s as = some s') :
    ReflTransGen S.SkipStep s s' := by
  induction as generalizing s with
  | nil =>
      cases h
      exact .refl
  | cons a as ih =>
      rw [SkipSetup.runActions, List.foldlM_cons] at h
      rcases Option.bind_eq_some_iff.mp h with ⟨t, hstep, hrest⟩
      exact .head ⟨a, hstep⟩ (ih hrest)

end Result

/-- Four stages, the third of which may be skipped; every token that can be compared with its
predecessor is accepted. -/
def fourStages : SkipSetup Nat where
  ppSize := 4
  packet := {
    position := 0, batchSize := 1, phase := 0, isLastPrefillChunk := 1, positionMode := 0
    tokenOnlyMode := 0, topKCount := 0, activationType := .f32, pipelineDelta := 0
    pipelineDeltaMinBytes := 0, pipelineChunkBytes := 0, stageSkipShadow := 0
    stageSkipEnabled := 1, stageSkipTarget := 2, stageSkipTheta := 0, stageSkipAlpha := 1
    stageSkipMaxConsecutive := 1, stageSkipMaxRejectStreak := 8, batchPositions := [] }
  maxBatchSize := 32
  firstPosition := 7
  nTokens := 2
  payloadBytes
    | .marker => 0
    | _ => 4
  enabled := rfl
  two_le_target := le_rfl
  target_le := le_rfl
  maxBatchSize_pos := by decide
  marker_bytes := rfl
  xPipe_bytes := by decide

/-- A worker as it is constructed. -/
def freshWorker : WorkerLlmInference Nat where
  isFinished := false
  controlPacket := fourStages.packet
  decodePhase := false
  batchSize := 0
  positionPipe := []
  hasPrevXPipeRow := false
  skipForwardThisToken := false
  hasLastSkipDecision := false
  lastSkipDecisionAccept := 0
  hasLastDeltaNorm := false
  lastDeltaNorm := 0
  skipConsecutiveAccepts := 0
  skipRejectStreak := 0

theorem freshWorker_ready : fourStages.Ready fun _ => freshWorker :=
  ⟨fun _ _ => rfl, fun _ _ _ => Nat.zero_le _⟩

/-- The first token goes through all stages, the second past the target, which does not read. -/
def laggingTarget : List (SkipAction Nat) :=
  [.writeControl 1, .writeControl 2, .writeControl 3, .rootSend false false,
    .readControl 1, .receive 1 none, .send 1 false false,
    .readControl 2, .receive 2 none, .send 2 false false,
    .readControl 3, .receive 3 none, .receive 3 none, .send 3 false false, .rootReceive,
    .writeControl 1, .writeControl 2, .writeControl 3, .rootSend false false,
    .readControl 1, .receive 1 (some 0), .send 1 false false, .send 1 false false,
    .readControl 3, .receive 3 none, .send 3 false false]

/-- The logits of an accepted token reach the root while its marker lies in the link to the
target. -/
theorem marker_outlives_logits :
    ∃ s s', ReflTransGen fourStages.SkipStep (fourStages.start fun _ => freshWorker) s ∧
      fourStages.rootReceive s = some s' ∧ s'.token = 2 ∧
      s'.link (fourStages.target - 1, fourStages.target) ≠ [] := by
  have hrun : ((fourStages.runActions (fourStages.start fun _ => freshWorker)
      laggingTarget).bind fourStages.rootReceive).map
        (fun s => (s.token, (s.link (1, 2)).length)) = some (2, 1) := by decide
  rcases Option.map_eq_some_iff.mp hrun with ⟨s', hs', hlink⟩
  rcases Option.bind_eq_some_iff.mp hs' with ⟨s, hs, hreceive⟩
  rw [Prod.mk.injEq] at hlink
  refine ⟨s, s', runActions_reach hs, hreceive, hlink.1, fun hnil => ?_⟩
  have hlen : (s'.link (1, 2)).length = 1 := hlink.2
  have hnil' : s'.link (1, 2) = [] := hnil
  rw [hnil'] at hlen
  cases hlen

end Pipeline
end PrefillOpt
