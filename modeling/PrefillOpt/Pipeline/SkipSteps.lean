import PrefillOpt.Pipeline.SkipAlignment

/-!
# Pipeline.SkipSteps — the root and the control packets keep the stages aligned

One lemma for each action.  A write of a control packet and the read of one leave the front where
it is; the root moves it when it sends its activation and when it has got the logits.
-/

namespace PrefillOpt
namespace Pipeline

open Relation Lib

variable {F : Type} {S : SkipSetup F} {s s' : SkipState F} {f : SkipFront}

theorem SkipSetup.mem_workers {r : Nat} : r ∈ S.workers ↔ 1 ≤ r ∧ r < S.ppSize := by
  have htarget := S.target_lt
  rw [SkipSetup.workers, List.mem_range'_1]
  omega

/-! ## What an update leaves alone -/

section Updates

variable (s : SkipState F) (a b r : Nat) (m : SkipMessage F) (ms : List (SkipMessage F))
  (st : StageState F)

@[simp] theorem push_stage : (s.push a b m).stage = s.stage := rfl

@[simp] theorem push_rootPc : (s.push a b m).rootPc = s.rootPc := rfl

@[simp] theorem push_token : (s.push a b m).token = s.token := rfl

@[simp] theorem setLink_stage : (s.setLink a b ms).stage = s.stage := rfl

@[simp] theorem setLink_rootPc : (s.setLink a b ms).rootPc = s.rootPc := rfl

@[simp] theorem setLink_token : (s.setLink a b ms).token = s.token := rfl

@[simp] theorem setStage_link : (s.setStage r st).link = s.link := rfl

@[simp] theorem setStage_rootPc : (s.setStage r st).rootPc = s.rootPc := rfl

@[simp] theorem setStage_token : (s.setStage r st).token = s.token := rfl

theorem push_link (c : Nat × Nat) :
    (s.push a b m).link c = if c = (a, b) then s.link (a, b) ++ [m] else s.link c := by
  by_cases hc : c = (a, b)
  · simp [SkipState.push, hc]
  · simp [SkipState.push, hc]

theorem setLink_link (c : Nat × Nat) :
    (s.setLink a b ms).link c = if c = (a, b) then ms else s.link c := by
  by_cases hc : c = (a, b)
  · simp [SkipState.setLink, hc]
  · simp [SkipState.setLink, hc]

theorem setStage_stage (q : Nat) :
    (s.setStage r st).stage q = if q = r then st else s.stage q := by
  by_cases hq : q = r
  · simp [SkipState.setStage, hq]
  · simp [SkipState.setStage, hq]

end Updates

/-- One more packet for a worker that has not heard more than it was told. -/
theorem range'_told {lo hi : Nat} (h : lo ≤ hi) :
    List.range' lo (hi + 1 - lo) = List.range' lo (hi - lo) ++ [hi] := by
  rw [Nat.succ_sub h, List.range'_concat, Nat.one_mul, Nat.add_sub_cancel' h]

theorem controls_of_ne_zero (s : SkipState F) {a : Nat} (b : Nat) (ha : a ≠ 0) :
    s.controls S a b = [] :=
  if_neg fun hc => ha hc.1

/-! ## The root -/

theorem Aligned.root_write (h : Aligned S s f) {todo : List Nat} (hpc : s.rootPc = .write todo) :
    f = .root ∧ todo.Nodup ∧ todo ⊆ S.workers ∧ s.token < S.nTokens := by
  have hroot := h.root
  split_ifs at hroot with hf
  · rcases hroot with ⟨todo', heq, -, hnodup, hsub, hlt⟩ | ⟨heq, -⟩ | ⟨heq, -⟩
    · cases hpc.symm.trans heq
      exact ⟨hf, hnodup, hsub, hlt⟩
    · cases hpc.symm.trans heq
    · cases hpc.symm.trans heq
  · cases hpc.symm.trans hroot.1

theorem Aligned.writeControl {r : Nat} (h : Aligned S s f)
    (hstep : S.writeControl s r = some s') : Aligned S s' f := by
  unfold SkipSetup.writeControl at hstep
  split at hstep
  case h_2 => cases hstep
  case h_1 todo hpc =>
  by_cases hr : r ∈ todo
  case neg => simp [hr] at hstep
  rw [if_pos hr] at hstep
  rcases h.root_write hpc with ⟨rfl, hnodup, hsub, hlt⟩
  have hworker := SkipSetup.mem_workers.mp (hsub hr)
  have hlink : ∀ c, s'.link c = if c = (0, r) then
      s.link (0, r) ++ [.control (S.packetAt s.token)] else s.link c := by
    cases hstep
    exact push_link s 0 r (.control (S.packetAt s.token))
  have hrest : s'.stage = s.stage ∧ s'.token = s.token ∧
      s'.rootPc = SkipSetup.afterWrites (todo.erase r) := by
    cases hstep
    exact ⟨rfl, rfl, rfl⟩
  rcases hrest with ⟨hstage, htoken, hpc'⟩
  -- only worker `r` is told more
  have htold : ∀ b, s'.told b = if b = r then s.token + 1 else s.told b := by
    intro b
    have hmem : b ≠ r → (b ∈ todo.erase r ↔ b ∈ todo) := fun hb => List.mem_erase_of_ne hb
    have hnot : r ∉ todo.erase r := hnodup.not_mem_erase
    unfold SkipSetup.afterWrites at hpc'
    by_cases herase : todo.erase r = []
    · rw [if_pos herase] at hpc'
      rw [herase] at hmem
      simp only [SkipState.told, hpc', hpc, htoken]
      split_ifs with hb hmem'
      · rfl
      · exact absurd ((hmem hb).mpr hmem') List.not_mem_nil
      · rfl
    · rw [if_neg herase] at hpc'
      simp only [SkipState.told, hpc', hpc, htoken]
      by_cases hb : b = r
      · simp [hb, hnot]
      · simp [hb, hmem hb]
  have hbefore : s.told r = s.token := by simp [SkipState.told, hpc, hr]
  have hheard : (s.stage r).heard ≤ s.token := hbefore ▸ h.heard_le r hworker.1 hworker.2
  have hD : S.target - 1 ≠ 0 := by
    have := S.two_le
    omega
  obtain ⟨rootPc', token', stage', link'⟩ := s'
  simp only at hstage htoken hpc' hlink
  subst hstage htoken hpc'
  refine ⟨h.valid, ?_, h.worker, ?_, h.stage, h.target, ?_, ?_, h.lag, h.verdict⟩
  · rw [if_pos rfl]
    by_cases herase : todo.erase r = []
    · exact .inr (.inl ⟨if_pos herase, hlt⟩)
    · exact .inl ⟨_, if_neg herase, herase, hnodup.erase r,
        fun b hb => hsub (List.mem_of_mem_erase hb), hlt⟩
  · intro b hb hb'
    rw [htold b]
    split_ifs with hbr
    · subst hbr
      exact hheard.trans (Nat.le_succ _)
    · exact h.heard_le b hb hb'
  · intro a b hab
    rcases h.link a b hab with ⟨hs, hold, hcarried⟩
    have hnil : hs = [] := hcarried.2 fun hfalse => hfalse
    refine ⟨hs, (hlink (a, b)).trans ?_, hcarried⟩
    by_cases hlast : (a, b) = (0, r)
    · -- the packet joins those on their way to `r`
      cases hlast
      rw [if_pos rfl, hold, hnil, List.map_nil, List.append_nil, List.append_nil]
      simp only [SkipState.controls, hworker, and_self, if_true, htold r, hbefore]
      rw [range'_told hheard, List.map_append]
      rfl
    · rw [if_neg hlast, hold]
      congr 1
      unfold SkipState.controls
      split_ifs with hctrl
      · rw [htold b, if_neg fun hbr => hlast (by rw [hctrl.1, hbr])]
      · rfl
  · rcases h.queue with ⟨hs, hold, hqueue⟩
    refine ⟨hs, (hlink _).trans ?_, hqueue⟩
    rw [if_neg fun heq => hD (congrArg Prod.fst heq), hold]

theorem Aligned.root_send (h : Aligned S s f) (hpc : s.rootPc = .send) :
    f = .root ∧ s.token < S.nTokens := by
  have hroot := h.root
  split_ifs at hroot with hf
  · rcases hroot with ⟨todo, heq, -⟩ | ⟨-, hlt⟩ | ⟨heq, -⟩
    · cases hpc.symm.trans heq
    · exact ⟨hf, hlt⟩
    · cases hpc.symm.trans heq
  · cases hpc.symm.trans hroot.1

theorem isRow_header {k : Nat} {o : Outgoing} (hpos : o.seqPosition = S.position k)
    (hpayload : o.payload = .xPipe) (chunked delta : Bool) :
    IsRow S k (S.header o chunked delta) :=
  ⟨hpos, congrArg S.payloadBytes hpayload⟩

theorem Aligned.rootSend {chunked delta : Bool} (h : Aligned S s f)
    (hstep : S.rootSend s chunked delta = some s') : Aligned S s' (.flying 1) := by
  unfold SkipSetup.rootSend at hstep
  split at hstep
  case h_2 => cases hstep
  case h_1 hpc =>
  rcases h.root_send hpc with ⟨rfl, hlt⟩
  have htwo := S.two_le
  have hle := S.target_lt
  obtain ⟨header, hheader, hrow⟩ : ∃ header, S.header ⟨1, S.position s.token, .xPipe, 0⟩ chunked
      delta = header ∧ IsRow S s.token header := ⟨_, rfl, isRow_header rfl rfl chunked delta⟩
  simp only [hheader] at hstep
  have hlink := push_link s 0 1 (.activation header)
  cases hstep
  have htold : ∀ b, SkipState.told { s.push 0 1 (.activation header) with rootPc := .receive } b
      = s.told b := fun b => by simp [SkipState.told, hpc]
  have hctrl : ∀ a b, SkipState.controls S
      { s.push 0 1 (.activation header) with rootPc := .receive } a b = s.controls S a b := by
    intro a b
    unfold SkipState.controls
    rw [htold b]
    rfl
  have hcarries : ∀ past a b, SkipFront.Carries S past a b (.flying 1) ↔ (a, b) = (0, 1) := by
    intro past a b
    simp only [SkipFront.Carries, Prod.mk.injEq]
    omega
  refine ⟨⟨le_rfl, by omega⟩, ?_, h.worker, ?_, ?_, ?_, ?_, ?_, ?_, ?_⟩
  · simpa using hlt
  · intro b hb hb'
    rw [htold b]
    exact h.heard_le b hb hb'
  · exact fun r hr hr' hne => ⟨(h.stage r hr hr' hne).behind, (h.stage r hr hr' hne).ahead⟩
  · simpa using h.target
  · intro a b hab
    rcases h.link a b hab with ⟨hs, hold, hcarried⟩
    have hnil : hs = [] := hcarried.2 fun hfalse => hfalse
    rw [hnil, List.map_nil, List.append_nil] at hold
    rw [hctrl a b, hcarries]
    by_cases hlast : (a, b) = (0, 1)
    · cases hlast
      exact ⟨[header], (hlink _).trans (by rw [if_pos rfl, hold]),
        fun _ => ⟨header, rfl, hrow.seqPosition, fun _ => hrow⟩, fun hne => absurd rfl hne⟩
    · exact ⟨[], (hlink _).trans (by rw [if_neg hlast, hold]; simp), fun heq => absurd heq hlast,
        fun _ => rfl⟩
  · rcases h.queue with ⟨hs, hold, hlen, hentry⟩
    refine ⟨hs, (hlink _).trans ?_, hlen.trans ?_, hentry⟩
    · rw [if_neg fun heq => by have := congrArg Prod.fst heq; simp only at this; omega, hold]
    · simp only [SkipFront.dispatched, push_token, if_pos (show 1 < S.target by omega)]
  · intro j hj hj'
    have hdisp : j < SkipFront.dispatched S s.token .root := by
      simpa only [SkipFront.dispatched, push_token, if_pos (show 1 < S.target by omega)] using hj'
    refine (h.lag j hj hdisp).trans ?_
    simp [show ¬ 1 = S.target by omega]
  · exact fun hfalse => absurd hfalse (by omega)

/-- No stage sends anything but the logits to the root. -/
theorem Aligned.link_root (h : Aligned S s f) {a : Nat} {m : SkipMessage F}
    {rest : List (SkipMessage F)} (hm : s.link (a, 0) = m :: rest) :
    f = .logits ∧ a + 1 = S.ppSize ∧ rest = [] ∧
      ∃ header, m = .activation header ∧ header.seqPosition = S.position s.token := by
  have htwo := S.two_le
  have hab : (a, 0) ≠ (S.target - 1, S.target) := fun heq => by
    have := congrArg Prod.snd heq
    simp only at this
    omega
  rcases h.link a 0 hab with ⟨hs, hold, hcarried⟩
  have hctrl : s.controls S a 0 = [] := if_neg fun hc => absurd hc.2.1 (by decide)
  rw [hctrl, List.nil_append, hm] at hold
  by_cases hcarries : f.Carries S ((s.verdicts S)[s.token]? = some true) a 0
  · rcases hcarried.1 hcarries with ⟨header, rfl, hpos, -⟩
    simp only [List.map_cons, List.map_nil, List.cons.injEq] at hold
    rcases hcarries.flying_or_logits with ⟨-, hfrom⟩ | ⟨rfl, hlast, -⟩
    · omega
    · exact ⟨rfl, hlast, hold.2, header, hold.1, hpos⟩
  · rw [hcarried.2 hcarries] at hold
    cases hold

/-- The root receives the logits of its token, and nothing is behind them. -/
theorem Aligned.rootReceive_cases (h : Aligned S s f) (hstep : S.rootReceive s = some s') :
    f = .logits ∧ s.rootPc = .receive ∧ s.token < S.nTokens ∧
      (∃ header, s.link (S.ppSize - 1, 0) = [.activation header] ∧
        header.seqPosition = S.position s.token) ∧
      s' = { s.setLink (S.ppSize - 1) 0 [] with
        rootPc := S.nextRound (s.token + 1), token := s.token + 1 } := by
  unfold SkipSetup.rootReceive at hstep
  split at hstep
  case h_3 => cases hstep
  case h_2 packet rest _ hm =>
    rcases h.link_root hm with ⟨-, -, -, header, hne, -⟩
    cases hne
  case h_1 header rest hpc hm =>
  rcases h.link_root hm with ⟨rfl, -, rfl, header', heq, hpos⟩
  cases heq
  have hroot := h.root
  rw [if_neg (by simp)] at hroot
  cases hstep
  exact ⟨rfl, hpc, hroot.2, ⟨header, hm, hpos⟩, rfl⟩

theorem Aligned.rootReceive (h : Aligned S s f) (hstep : S.rootReceive s = some s') :
    Aligned S s' .root := by
  have htwo := S.two_le
  have hle := S.target_lt
  rcases h.rootReceive_cases hstep with ⟨rfl, hpc, hlt, -, rfl⟩
  have hlink := setLink_link s (S.ppSize - 1) 0 []
  -- a worker has been told of the tokens so far, whether another one follows or not
  have htold : ∀ b, 1 ≤ b → b < S.ppSize → SkipState.told
      { s.setLink (S.ppSize - 1) 0 [] with
        rootPc := S.nextRound (s.token + 1), token := s.token + 1 } b = s.told b := by
    intro b hb hb'
    have hmem : b ∈ S.workers := SkipSetup.mem_workers.mpr ⟨hb, hb'⟩
    simp only [SkipState.told, hpc, SkipSetup.nextRound]
    split_ifs with hmore
    · simp [hmem]
    · rfl
  refine ⟨trivial, ?_, h.worker, ?_, ?_, ?_, ?_, ?_, ?_, trivial⟩
  · rw [if_pos rfl]
    by_cases hmore : s.token + 1 < S.nTokens
    · refine .inl ⟨S.workers, if_pos hmore, ?_, List.nodup_range', fun _ hb => hb, hmore⟩
      exact List.ne_nil_of_mem (SkipSetup.mem_workers.mpr ⟨le_rfl, by omega⟩)
    · exact .inr (.inr ⟨if_neg hmore, show s.token + 1 = S.nTokens by omega⟩)
  · intro b hb hb'
    rw [htold b hb hb']
    exact h.heard_le b hb hb'
  · intro r hr hr' hne
    rcases (h.stage r hr hr' hne).behind (show r ≤ S.ppSize - 1 by omega) with ⟨hlen, hpc'⟩
    exact ⟨fun hbehind => absurd hbehind (Nat.not_le.mpr hr),
      fun _ => ⟨hlen, .inl (hpc'.trans (if_neg (show ¬ r = 0 by omega)))⟩⟩
  · simpa using h.target
  · intro a b hab
    rcases h.link a b hab with ⟨hs, hold, hcarried⟩
    refine ⟨[], (hlink _).trans ?_, fun hfalse => hfalse.elim, fun _ => rfl⟩
    by_cases hlast : (a, b) = (S.ppSize - 1, 0)
    · cases hlast
      rw [if_pos rfl, controls_of_ne_zero _ _ (by omega)]
      rfl
    · have hnil : hs = [] := hcarried.2 fun hc => hlast <| by
        rw [Prod.mk.injEq]
        exact ⟨by have := hc.1; omega, hc.2⟩
      rw [if_neg hlast, hold, hnil]
      congr 1
      unfold SkipState.controls
      split_ifs with hctrl
      · rw [htold b hctrl.2.1 hctrl.2.2]
        rfl
      · rfl
  · rcases h.queue with ⟨hs, hold, hqueue⟩
    refine ⟨hs, (hlink _).trans ?_, hqueue⟩
    rw [if_neg fun heq => by have := congrArg Prod.snd heq; simp only at this; omega, hold]
  · intro j hj hj'
    refine (h.lag j hj hj').trans ?_
    simp

/-! ## Control packets -/

theorem told_le (s : SkipState F) (r : Nat) : s.told r ≤ s.token + 1 := by
  unfold SkipState.told
  split
  · split_ifs <;> omega
  · omega
  · exact le_rfl

theorem heard_of_control {st : StageState F} (h : st.pc = .control) :
    st.heard = st.consumed.length := by
  simp [StageState.heard, h]

theorem heard_of_receive {st : StageState F} {bypassNext : Bool} (h : st.pc = .receive bypassNext) :
    st.heard = st.consumed.length + 1 := by
  simp [StageState.heard, h]

theorem controls_cons {r : Nat} (hr : 1 ≤ r) (hr' : r < S.ppSize)
    (hlt : (s.stage r).heard < s.told r) :
    s.controls S 0 r = .control (S.packetAt (s.stage r).heard) ::
      (List.range' ((s.stage r).heard + 1) (s.told r - ((s.stage r).heard + 1))).map fun k =>
        .control (S.packetAt k) := by
  have hsub : s.told r - (s.stage r).heard = s.told r - ((s.stage r).heard + 1) + 1 := by omega
  simp only [SkipState.controls, hr, hr', and_self, if_true]
  rw [hsub, List.range'_succ, List.map_cons]

/-- A worker that waits for a packet and finds a message finds the packet of its next token. -/
theorem Aligned.link_control (h : Aligned S s f) {r : Nat} (hr : 1 ≤ r) (hr' : r < S.ppSize)
    (hpc : (s.stage r).pc = .control) {m : SkipMessage F} {rest : List (SkipMessage F)}
    (hm : s.link (0, r) = m :: rest) :
    (s.stage r).heard < s.told r ∧ m = .control (S.packetAt (s.stage r).consumed.length) := by
  have htwo := S.two_le
  have hab : (0, r) ≠ (S.target - 1, S.target) := fun heq => by
    have := congrArg Prod.fst heq
    simp only at this
    omega
  rcases h.link 0 r hab with ⟨hs, hold, hcarried⟩
  have hle := h.heard_le r hr hr'
  have hlt : (s.stage r).heard < s.told r := by
    by_contra hnot
    -- no packet is on its way, so the message would be the activation for stage 1
    have hctrl : s.controls S 0 r = [] := by
      simp [SkipState.controls, Nat.sub_eq_zero_of_le (Nat.not_lt.mp hnot)]
    rw [hctrl, List.nil_append, hm] at hold
    by_cases hcarries : f.Carries S ((s.verdicts S)[s.token]? = some true) 0 r
    · rcases hcarries.flying_or_logits with ⟨rfl, hfrom⟩ | ⟨-, -, hr0⟩
      · have hlen := ((h.stage r hr hr' (by omega)).ahead
          (by simp only [SkipFront.level]; omega)).1
        have hroot := h.root
        rw [if_neg (by simp)] at hroot
        have htold : s.told r = s.token + 1 := by simp [SkipState.told, hroot.1]
        rw [heard_of_control hpc] at hnot
        omega
      · omega
    · rw [hcarried.2 hcarries] at hold
      cases hold
  refine ⟨hlt, ?_⟩
  rw [controls_cons hr hr' hlt, hm, List.cons_append, List.cons.injEq, heard_of_control hpc] at hold
  exact hold.1

/-- What a change of the place in the loop leaves of a stage. -/
structure SameHistory (st st' : StageState F) : Prop where
  consumed : st'.consumed = st.consumed
  verdicts : st'.verdicts = st.verdicts

theorem SameHistory.took {r : Nat} {st : StageState F} (h : SameHistory (s.stage r) st)
    (t : SkipState F) (ht : t.stage = s.stage) (b : Nat) : (t.setStage r st).took b = s.took b := by
  by_cases hb : b = r
  · simp [SkipState.took, setStage_stage, hb, h.consumed]
  · simp [SkipState.took, setStage_stage, hb, ht]

theorem SameHistory.allVerdicts {r : Nat} {st : StageState F} (h : SameHistory (s.stage r) st)
    (t : SkipState F) (ht : t.stage = s.stage) :
    (t.setStage r st).verdicts S = s.verdicts S := by
  by_cases hb : S.target - 1 = r
  · simp [SkipState.verdicts, SkipState.decision, setStage_stage, hb, h.verdicts]
  · simp [SkipState.verdicts, SkipState.decision, setStage_stage, hb, ht]

/-- A worker reads the packet of its next token and then waits for the activation. -/
theorem Aligned.readControl_cases {r : Nat} (h : Aligned S s f) (hr : 1 ≤ r) (hr' : r < S.ppSize)
    (hstep : S.readControl s r = some s') :
    (s.stage r).pc = .control ∧ (s.stage r).heard < s.told r ∧ ∃ rest w,
      s.link (0, r) = .control (S.packetAt (s.stage r).consumed.length) :: rest ∧
      (s.stage r).worker.tryReadControlPacket S.maxBatchSize
        (S.packetAt (s.stage r).consumed.length) = .ok w ∧ w.isFinished = false ∧
      s' = (s.setLink 0 r rest).setStage r
        { s.stage r with worker := w, pc := .receive true } := by
  unfold SkipSetup.readControl at hstep
  dsimp only at hstep
  split at hstep
  case h_3 => cases hstep
  case h_2 header rest hpc hm =>
    cases (h.link_control hr hr' hpc hm).2
  case h_1 packet rest hpc hm =>
  rcases h.link_control hr hr' hpc hm with ⟨hlt, hpacket⟩
  cases hpacket
  rcases tryReadControlPacket_packetAt S (s.stage r).consumed.length (s.stage r).worker with
    ⟨w, hok, -, hfin, -⟩
  have hrunning : w.isFinished = false := hfin.trans (h.worker r hr hr').running
  simp only [hok, hrunning, Bool.false_eq_true, if_false, Option.some.injEq] at hstep
  exact ⟨hpc, hlt, rest, w, hm, hok, hrunning, hstep.symm⟩

theorem Aligned.readControl {r : Nat} (h : Aligned S s f) (hr : 1 ≤ r) (hr' : r < S.ppSize)
    (hstep : S.readControl s r = some s') : Aligned S s' f := by
  rcases h.readControl_cases hr hr' hstep with ⟨hpc, hlt, rest, w, hm, hread, hrunning, rfl⟩
  rcases tryReadControlPacket_packetAt S (s.stage r).consumed.length (s.stage r).worker with
    ⟨w', hok, hholds, -, hkeep, hreset⟩
  obtain rfl : w = w' := Except.ok.inj (hread.symm.trans hok)
  have hworker := h.worker r hr hr'
  obtain ⟨st, hst⟩ : ∃ st : StageState F,
    { s.stage r with worker := w, pc := .receive true } = st := ⟨_, rfl⟩
  have hsame : SameHistory (s.stage r) st := by
    subst hst
    exact ⟨rfl, rfl⟩
  have hpc' : st.pc = .receive true := by
    subst hst
    rfl
  have hheard' : st.heard = (s.stage r).heard + 1 := by
    rw [heard_of_receive hpc', heard_of_control hpc, hsame.consumed]
  have hworker' : WorkerAt S st := by
    subst hst
    refine ⟨hworker.lengths, hrunning, fun _ _ => hholds, fun _ => ?_⟩
    cases hphase : (s.stage r).worker.decodePhase with
    | true => exact (hkeep hphase).trans_le (hworker.count_le hphase)
    | false => exact (hreset hphase).trans_le (Nat.zero_le _)
  rw [hst]
  have hlink := setLink_link s 0 r rest
  have hstage := setStage_stage (s.setLink 0 r rest) r st
  have htook := hsame.took (s.setLink 0 r rest) rfl
  have hverdicts := hsame.allVerdicts (S := S) (s.setLink 0 r rest) rfl
  have htold : ∀ b, ((s.setLink 0 r rest).setStage r st).told b = s.told b := fun b => rfl
  refine ⟨h.valid, h.root, ?_, ?_, ?_, ?_, ?_, ?_, ?_, ?_⟩
  · intro b hb hb'
    rw [hstage b]
    split_ifs with hbr
    · exact hworker'
    · exact h.worker b hb hb'
  · intro b hb hb'
    rw [hstage b, htold b]
    split_ifs with hbr
    · rw [hheard', hbr]
      exact hlt
    · exact h.heard_le b hb hb'
  · intro b hb hb' hne
    rw [hstage b]
    split_ifs with hbr
    · subst hbr
      refine ⟨fun hbehind => ?_, fun hahead => ?_⟩
      · -- it has handled the token, and was told of no other
        have hlen := ((h.stage b hb hb' hne).behind hbehind).1
        have := told_le s b
        rw [heard_of_control hpc] at hlt
        omega
      · exact ⟨(congrArg List.length hsame.consumed).trans
          ((h.stage b hb hb' hne).ahead hahead).1, .inr ⟨true, hpc'⟩⟩
    · exact ⟨(h.stage b hb hb' hne).behind, (h.stage b hb hb' hne).ahead⟩
  · rw [hstage S.target]
    have htarget := h.target
    split_ifs at htarget ⊢ with hheld hrt hrt
    · rw [hrt, hpc] at htarget
      cases htarget
    · exact htarget
    · exact .inr ⟨true, hpc'⟩
    · exact htarget
  · intro a b hab
    rcases h.link a b hab with ⟨hs, hold, hcarried⟩
    rw [hverdicts]
    refine ⟨hs, (hlink _).trans ?_, hcarried⟩
    by_cases hlast : (a, b) = (0, r)
    · cases hlast
      rw [if_pos rfl]
      rw [controls_cons hr hr' hlt, hm, List.cons_append, List.cons.injEq] at hold
      refine hold.2.trans ?_
      simp only [SkipState.controls, hr, hr', and_self, if_true, hstage r, hheard', htold r]
    · rw [if_neg hlast, hold]
      congr 1
      unfold SkipState.controls
      split_ifs with hctrl
      · rw [htold b, hstage b, if_neg fun hbr => hlast (by rw [hctrl.1, hbr])]
        rfl
      · rfl
  · rcases h.queue with ⟨hs, hold, hlen, hentry⟩
    have htwo := S.two_le
    rw [htook, hverdicts]
    refine ⟨hs, (hlink _).trans ?_, hlen, hentry⟩
    rw [if_neg fun heq => by have := congrArg Prod.fst heq; simp only at this; omega, hold]
  · rw [htook, hverdicts]
    exact h.lag
  · rw [hverdicts, htook]
    exact h.verdict

end Pipeline
end PrefillOpt
