import PrefillOpt.Network.Handshake

/-!
# HandshakeRuns — every run of the handshake returns, and what it leaves

Every step brings the handshake closer to its end, and until `connect` and all `serve` calls have
returned some process can step.  What is left then depends on the order in which the connects
completed: up to three nodes there is one order, from four on an accept can take the connection of
another worker than the one its loop has come to.
-/

namespace PrefillOpt
namespace Network

open Lib Relation

/-! ## The measure -/

/-- The steps a worker still has to do. -/
def WorkerPc.left (n : Nat) : WorkerPc → Nat
  | .listening => n + 1
  | .accepted => n
  | .waitingReady _ => n - 1
  | .looping _ i => n - 2 - i

def HandshakeState.remaining (n : Nat) (s : HandshakeState) : Nat :=
  (3 * (n - 1) - s.root.rank n) + ∑ w ∈ Finset.range n, (s.worker w).left n

variable {n : Nat} {s s' : HandshakeState}

/-- A step of the root. -/
theorem remaining_lt_of_root (hworker : s'.worker = s.worker)
    (hrank : s'.root.rank n = s.root.rank n + 1) (hle : s'.root.rank n ≤ 3 * (n - 1)) :
    s'.remaining n < s.remaining n := by
  unfold HandshakeState.remaining
  rw [hworker]
  omega

/-- A step of a worker. -/
theorem remaining_lt_of_worker {w : Nat} {pc : WorkerPc} (hw : w < n) (hroot : s'.root = s.root)
    (hworker : s'.worker = Function.update s.worker w pc)
    (hlt : pc.left n < (s.worker w).left n) : s'.remaining n < s.remaining n := by
  unfold HandshakeState.remaining
  have hsum : (fun v => (s'.worker v).left n)
      = Function.update (fun v => (s.worker v).left n) w (pc.left n) := by
    funext v
    rw [hworker]
    rcases eq_or_ne v w with rfl | hne
    · simp
    · simp [Function.update_of_ne hne]
  have hless : ∑ v ∈ Finset.range n, (s'.worker v).left n
      < ∑ v ∈ Finset.range n, (s.worker v).left n := by
    rw [hsum]
    exact sum_update_lt hw hlt
  rw [hroot]
  omega

namespace HandshakeInv

/-- Every step is one of finitely many. -/
theorem remaining_lt (hn : 2 ≤ n) (h : HandshakeInv n s) (hstep : HandshakeStep n s s') :
    s'.remaining n < s.remaining n := by
  rcases hstep with ⟨hgreet⟩ | ⟨hpeer⟩
  · have hrank := (h.greetStep hn hgreet).root.1
    cases hgreet with
    | @rootConnect i hpc hi =>
        exact remaining_lt_of_root rfl (by rw [hpc]; rfl) hrank
    | @rootAck i k hpc hack =>
        refine remaining_lt_of_root rfl ?_ hrank
        have hi : i < n - 1 := h.root.2.2 i hpc
        rw [hpc]
        split_ifs with hlast
        · rfl
        · simp only [RootPc.rank]
          omega
    | @rootReady i hpc hi =>
        exact remaining_lt_of_root rfl (by rw [hpc]; rfl) hrank
    | acceptRoot hw hpc hqueue =>
        refine remaining_lt_of_worker hw.2 rfl rfl ?_
        rw [hpc]
        exact Nat.lt_succ_self n
    | readConfig hw hpc hroot hmsg =>
        refine remaining_lt_of_worker hw.2 rfl rfl ?_
        rw [hpc]
        simp only [WorkerPc.left]
        omega
    | readReady hw hpc hroot hmsg =>
        refine remaining_lt_of_worker hw.2 rfl rfl ?_
        rw [hpc]
        simp only [WorkerPc.left]
        omega
  · cases hpeer with
    | accept hw hpc hi hbelow hqueue =>
        rcases h.broadcasting_of_looping hpc with ⟨-, rfl, -, -⟩
        have hi' := hi
        simp only [PeerConfig.nOtherWorkers, peerConfig] at hi'
        refine remaining_lt_of_worker hw.2 rfl rfl ?_
        rw [hpc]
        simp only [WorkerPc.left]
        omega
    | connect hw hpc hi habove =>
        rcases h.broadcasting_of_looping hpc with ⟨-, rfl, -, -⟩
        have hi' := hi
        simp only [PeerConfig.nOtherWorkers, peerConfig] at hi'
        refine remaining_lt_of_worker hw.2 rfl rfl ?_
        rw [hpc]
        simp only [WorkerPc.left]
        omega

/-! ## Some process can step -/

/-- Until every worker has been let go, the root or a worker it greets can step. -/
theorem exists_greetStep (h : HandshakeInv n s)
    (hnot : ¬ (s.root = .broadcasting (n - 1) ∧
      ∀ w, 1 ≤ w ∧ w < n → ∃ c i, s.worker w = .looping c i)) :
    ∃ s', GreetStep n s s' := by
  cases hroot : s.root with
  | connecting i => exact ⟨_, .rootConnect hroot (h.root.2.1 i hroot)⟩
  | waitingAck i =>
      have hi := h.root.2.2 i hroot
      have hw : 1 ≤ i + 1 ∧ i + 1 < n := by omega
      have hg := h.greeting (i + 1) hw
      have hr : s.root.rank n = 2 * i + 1 := by rw [hroot]; rfl
      rw [hr] at hg
      rcases hg.greeted hw rfl with ⟨hworker, hqueue⟩ | ⟨hworker, hmsg, hsock⟩ | hacks
      · exact ⟨_, .acceptRoot hw hworker hqueue⟩
      · exact ⟨_, .readConfig hw hworker hsock hmsg⟩
      · exact ⟨_, .rootAck hroot hacks⟩
  | broadcasting i =>
      rcases Nat.lt_or_ge i (n - 1) with hi | hi
      · exact ⟨_, .rootReady hroot hi⟩
      · have hrank : s.root.rank n = 2 * (n - 1) + i := by rw [hroot]; rfl
        have hle := h.root.1
        obtain rfl : i = n - 1 := by omega
        rw [hroot] at hnot
        simp only [true_and, not_forall] at hnot
        rcases hnot with ⟨w, hw, hlooping⟩
        have hg := h.greeting w hw
        rcases hg.released hw (by omega) with ⟨c, hworker, hmsg, hsock⟩ | ⟨c, i, hworker⟩
        · exact ⟨_, .readReady hw hworker hsock hmsg⟩
        · exact absurd ⟨c, i, hworker⟩ hlooping

/-- When the workers below are through their loops, worker `w` finds a connection to accept. -/
theorem queue_ne_nil (h : HandshakeInv n s) {w : Nat} (hw : 1 ≤ w ∧ w < n)
    (hturn : (s.worker w).turn < w - 1)
    (hlower : ∀ c, 1 ≤ c → c < w → w - 1 ≤ (s.worker c).turn) : s.queue w ≠ [] := by
  intro hqueue
  rcases (h.peers w hw).arrived with ⟨acc, hlen, -, hnodup, hmem⟩
  rw [hqueue, List.filter_nil, List.append_nil] at hnodup hmem
  have hsub : List.range' 1 (w - 1) ⊆ acc := by
    intro c hc
    rcases List.mem_range'_1.mp hc with ⟨h₁, h₂⟩
    exact (hmem c).mpr ⟨h₁, by omega, hlower c h₁ (by omega)⟩
  have hcount := (List.subperm_of_subset (List.nodup_range' ..) hsub).length_le
  rw [List.length_range', hlen] at hcount
  omega

/-- The lowest worker that is not through its loop can go on. -/
theorem exists_peerStep (h : HandshakeInv n s)
    (hlooping : ∀ w, 1 ≤ w ∧ w < n → ∃ c i, s.worker w = .looping c i)
    (hnot : ∃ w, (1 ≤ w ∧ w < n) ∧ (s.worker w).turn < n - 2) : ∃ s', PeerStep n s s' := by
  classical
  have hw := Nat.find_spec hnot
  have hlower := fun c (hc : c < Nat.find hnot) => Nat.find_min hnot hc
  generalize Nat.find hnot = w at hw hlower
  rcases hlooping w hw.1 with ⟨c, i, hpc⟩
  rcases h.broadcasting_of_looping hpc with ⟨-, rfl, -, -⟩
  have hi : i < n - 2 := by
    have hturn := hw.2
    rwa [hpc] at hturn
  rcases peerConfig_turn n hw.1 hi with ⟨-, -, hside, -⟩
  by_cases hbelow : (peerConfig n (w - 1)).otherWorkerIndex i < (peerConfig n (w - 1)).nodeIndex
  · have hiw := hside.mp hbelow
    have hne : s.queue w ≠ [] := by
      refine h.queue_ne_nil hw.1 (by rw [hpc]; exact hiw) fun c hc hcw => ?_
      have hdone := hlower c hcw
      have hwn := hw.1.2
      simp only [not_and, not_lt] at hdone
      have := hdone ⟨hc, by omega⟩
      omega
    rcases List.exists_cons_of_ne_nil hne with ⟨client, rest, hqueue⟩
    exact ⟨_, .accept hw.1 hpc hi hbelow hqueue⟩
  · exact ⟨_, .connect hw.1 hpc hi hbelow⟩

/-- Until all calls have returned some process can step. -/
theorem exists_step (h : HandshakeInv n s) (hnot : ¬ s.Returned n) :
    ∃ s', HandshakeStep n s s' := by
  by_cases hgreeted : s.root = .broadcasting (n - 1) ∧
      ∀ w, 1 ≤ w ∧ w < n → ∃ c i, s.worker w = .looping c i
  · rcases hgreeted with ⟨hroot, hlooping⟩
    have hunfinished : ∃ w, (1 ≤ w ∧ w < n) ∧ (s.worker w).turn < n - 2 := by
      by_contra hall
      refine hnot ⟨hroot, fun w hw hwn => ?_⟩
      rcases hlooping w ⟨hw, hwn⟩ with ⟨c, i, hpc⟩
      rcases h.broadcasting_of_looping hpc with ⟨-, rfl, -, hi⟩
      have hturn : ¬ i < n - 2 := fun hlt => hall ⟨w, ⟨hw, hwn⟩, by rw [hpc]; exact hlt⟩
      exact ⟨_, hpc.trans (congrArg _ (Nat.le_antisymm hi (Nat.not_lt.mp hturn)))⟩
    rcases h.exists_peerStep hlooping hunfinished with ⟨s', hstep⟩
    exact ⟨s', .peer hstep⟩
  · rcases h.exists_greetStep hgreeted with ⟨s', hstep⟩
    exact ⟨s', .greet hstep⟩

/-- A property every step keeps holds in some state in which all calls have returned. -/
theorem exists_returned (hn : 2 ≤ n) {P : HandshakeState → Prop}
    (hP : ∀ s s', HandshakeInv n s → P s → HandshakeStep n s s' → P s')
    (h : HandshakeInv n s) (hs : P s) :
    ∃ f, ReflTransGen (HandshakeStep n) s f ∧ (HandshakeInv n f ∧ P f) ∧ f.Returned n := by
  have hprogress : ∀ t, HandshakeInv n t ∧ P t → ¬ t.Returned n →
      ∃ t', HandshakeStep n t t' ∧ (HandshakeInv n t' ∧ P t') ∧
        t'.remaining n < t.remaining n := by
    rintro t ⟨ht, hPt⟩ hnot
    rcases ht.exists_step hnot with ⟨t', hstep⟩
    exact ⟨t', hstep, ⟨ht.step hn hstep, hP t t' ht hPt hstep⟩, ht.remaining_lt hn hstep⟩
  exact exists_reach_final _ _ hprogress ⟨h, hs⟩

/-! ## What a finished handshake leaves -/

/-- Worker `w` is through its loop. -/
theorem returned_turn (h : HandshakeInv n s) (hret : s.Returned n) {w : Nat}
    (hw : 1 ≤ w ∧ w < n) : (s.worker w).turn = n - 2 := by
  rcases hret.2 w hw.1 hw.2 with ⟨c, hpc⟩
  rcases h.broadcasting_of_looping hpc with ⟨-, rfl, -, -⟩
  rw [hpc]
  rfl

/-- The slots of the root, and slot `0` of the workers. -/
theorem returned_root (h : HandshakeInv n s) (hret : s.Returned n) {w : Nat}
    (hw : 1 ≤ w ∧ w < n) :
    s.sockets 0 (w - 1) = some ⟨0, w, true⟩ ∧ s.sockets w 0 = some ⟨0, w, false⟩ := by
  constructor
  · have hslot := h.rootSockets (w - 1) (by rw [hret.1]; simp only [RootPc.connected]; omega)
    rwa [Nat.sub_add_cancel hw.1] at hslot
  · rcases hret.2 w hw.1 hw.2 with ⟨c, hpc⟩
    have hg := h.greeting w hw
    rw [hpc] at hg
    exact hg.looping_inv.2.2.2.2

/-- The slot of worker `w` for a worker above it. -/
theorem returned_above (h : HandshakeInv n s) (hret : s.Returned n) {w b : Nat}
    (hw : 1 ≤ w ∧ w < b) (hb : b < n) : s.sockets w (b - 1) = some ⟨w, b, true⟩ := by
  rcases Nat.exists_eq_add_of_le' (show 2 ≤ b by omega) with ⟨k, rfl⟩
  refine (h.peers w ⟨hw.1, by omega⟩).connected k (by omega) ?_
  rw [h.returned_turn hret ⟨hw.1, by omega⟩]
  omega

/-- The slots match exactly when every worker accepted the lower workers in their order. -/
theorem matched_iff (h : HandshakeInv n s) (hret : s.Returned n) :
    s.Matched n ↔ ∀ c w, 1 ≤ c → c < w → w < n → s.sockets w c = some ⟨c, w, false⟩ := by
  constructor
  · intro hmatched c w hc hcw hw
    rcases hmatched c w (by omega) hw (by omega) with ⟨e, hlow, hhigh⟩
    rw [getSocketIndexForNode_eq, if_neg (by omega),
      h.returned_above hret ⟨hc, hcw⟩ hw] at hlow
    rw [getSocketIndexForNode_eq, if_pos hcw] at hhigh
    rw [hhigh, ← Option.some.inj hlow]
    rfl
  · intro horder
    have hpair : ∀ c w, c < w → w < n → s.sockets c (w - 1) = some ⟨c, w, true⟩ ∧
        s.sockets w c = some ⟨c, w, false⟩ := by
      intro c w hcw hw
      rcases Nat.eq_zero_or_pos c with rfl | hc
      · exact h.returned_root hret ⟨hcw, hw⟩
      · exact ⟨h.returned_above hret ⟨hc, hcw⟩ hw, horder c w hc hcw hw⟩
    intro a b ha hb hne
    rw [getSocketIndexForNode_eq, getSocketIndexForNode_eq]
    rcases Nat.lt_or_gt_of_ne hne with hlt | hgt
    · rw [if_neg hlt.not_gt, if_pos hlt]
      exact ⟨_, (hpair a b hlt hb).1, (hpair a b hlt hb).2⟩
    · rw [if_pos hgt, if_neg (Nat.not_lt.mpr hgt.le)]
      exact ⟨_, (hpair b a hgt ha).2, (hpair b a hgt ha).1⟩

/-- A worker with one worker below it accepts that worker. -/
theorem matched_of_le (h : HandshakeInv n s) (hret : s.Returned n) (hn : n ≤ 3) :
    s.Matched n := by
  refine (h.matched_iff hret).mpr fun c w hc hcw hw => ?_
  obtain ⟨rfl, rfl⟩ : c = 1 ∧ w = 2 := by omega
  rcases (h.peers 2 ⟨by omega, hw⟩).arrived with ⟨acc, hlen, hacc, -, hmem⟩
  rw [h.returned_turn hret ⟨by omega, hw⟩] at hlen
  have hpos : 0 < acc.length := by omega
  have hfirst := (hmem (acc.get ⟨0, hpos⟩)).mp (List.mem_append_left _ (List.get_mem ..))
  have hone : acc.get ⟨0, hpos⟩ = 1 := by
    have := hfirst.1
    have := hfirst.2.1
    omega
  rw [hacc 0 hpos, hone]

end HandshakeInv

/-! ## The overtaking connect -/

/-- The turns of a worker's loop, with the configuration the root gave it. -/
theorem exists_connect {w i : Nat} (hw : 1 ≤ w ∧ w < n) (hi : i < n - 2) (hwi : w - 1 ≤ i)
    (hpc : s.worker w = .looping (peerConfig n (w - 1)) i) :
    ∃ s', PeerStep n s s' ∧
      s'.worker = Function.update s.worker w (.looping (peerConfig n (w - 1)) (i + 1)) ∧
      s'.queue = Function.update s.queue (i + 2) (s.queue (i + 2) ++ [w]) := by
  rcases peerConfig_turn n hw hi with ⟨-, -, hside, hhost⟩
  refine ⟨_, .connect hw hpc hi (mt hside.mp (Nat.not_lt.mpr hwi)), rfl, ?_⟩
  rw [hhost hwi]

theorem exists_accept {w i client : Nat} {rest : List Nat} (hw : 1 ≤ w ∧ w < n)
    (hi : i < n - 2) (hiw : i < w - 1) (hpc : s.worker w = .looping (peerConfig n (w - 1)) i)
    (hqueue : s.queue w = client :: rest) :
    ∃ s', PeerStep n s s' ∧
      s'.worker = Function.update s.worker w (.looping (peerConfig n (w - 1)) (i + 1)) ∧
      s'.queue = Function.update s.queue w rest := by
  rcases peerConfig_turn n hw hi with ⟨-, -, hside, -⟩
  exact ⟨_, .accept hw hpc hi (hside.mpr hiw) hqueue, rfl, rfl⟩

/-- Every worker stands before its loop. -/
def AtLoopStart (n : Nat) (s : HandshakeState) : Prop :=
  ∀ w, 1 ≤ w ∧ w < n → s.worker w = .looping (peerConfig n (w - 1)) 0 ∧ s.queue w = []

theorem exists_atLoopStart (hn : 2 ≤ n) :
    ∃ s, ReflTransGen (HandshakeStep n) .start s ∧ HandshakeInv n s ∧ AtLoopStart n s := by
  -- only steps before the loops are taken, so every turn is zero
  have hkeep : ∀ t, HandshakeInv n t ∧ (∀ w, (t.worker w).turn = 0) →
      ¬ (t.root = .broadcasting (n - 1) ∧
        ∀ w, 1 ≤ w ∧ w < n → ∃ c i, t.worker w = .looping c i) →
      ∃ t', GreetStep n t t' ∧ (HandshakeInv n t' ∧ ∀ w, (t'.worker w).turn = 0) ∧
        t'.remaining n < t.remaining n := by
    rintro t ⟨ht, hturn⟩ hnot
    rcases ht.exists_greetStep hnot with ⟨t', hstep⟩
    refine ⟨t', hstep, ⟨ht.greetStep hn hstep, fun v => ?_⟩, ht.remaining_lt hn (.greet hstep)⟩
    have hupdate : ∀ (w : Nat) (pc : WorkerPc), pc.turn = 0 →
        (Function.update t.worker w pc v).turn = 0 := by
      intro w pc hpc
      rcases eq_or_ne v w with rfl | hne
      · simpa using hpc
      · simpa [Function.update_of_ne hne] using hturn v
    cases hstep with
    | rootConnect _ _ => exact hturn v
    | rootAck _ _ => exact hturn v
    | rootReady _ _ => exact hturn v
    | acceptRoot _ _ _ => exact hupdate _ _ rfl
    | readConfig _ _ _ _ => exact hupdate _ _ rfl
    | readReady _ _ _ _ => exact hupdate _ _ rfl
  rcases exists_reach_final _ _ hkeep ⟨HandshakeInv.start n hn, fun _ => rfl⟩ with
    ⟨s, hreach, ⟨hs, hturn⟩, hroot, hlooping⟩
  refine ⟨s, ReflTransGen.mono (fun _ _ => .greet) _ _ hreach, hs, fun w hw => ?_⟩
  rcases hlooping w hw with ⟨c, i, hpc⟩
  rcases hs.broadcasting_of_looping hpc with ⟨-, rfl, -, -⟩
  have hi : i = 0 := by
    have := hturn w
    rwa [hpc] at this
  subst hi
  refine ⟨hpc, ?_⟩
  -- no worker has connected
  have hg := hs.greeting w hw
  rw [hpc] at hg
  rcases (hs.peers w hw).arrived with ⟨acc, -, -, -, hmem⟩
  by_contra hne
  rcases List.exists_mem_of_ne_nil _ hne with ⟨c, hc⟩
  have hc0 : c ≠ 0 := fun h0 => hg.looping_inv.2.2.2.1 (h0 ▸ hc)
  rcases (hmem c).mp (List.mem_append_right _ (List.mem_filter.mpr ⟨hc, by simpa using hc0⟩)) with
    ⟨h₁, h₂, h₃⟩
  rw [hturn c] at h₃
  omega

/-- Worker 2 is ahead of worker 1 at worker 3, or was accepted there in worker 1's turn. -/
def Overtaken (s : HandshakeState) : Prop :=
  (∃ c rest, s.worker 3 = .looping c 0 ∧ s.queue 3 = 2 :: rest) ∨
    (1 ≤ (s.worker 3).turn ∧ s.sockets 3 1 = some ⟨2, 3, false⟩)

/-- A connection that arrives does not change which is first. -/
theorem exists_cons_enqueue {queue : Nat → List Nat} {a first : Nat} {rest : List Nat}
    (h : queue a = first :: rest) (b client : Nat) :
    ∃ rest', Function.update queue b (queue b ++ [client]) a = first :: rest' := by
  rcases eq_or_ne a b with rfl | hne
  · exact ⟨rest ++ [client], by rw [Function.update_self, h]; rfl⟩
  · exact ⟨rest, by rw [Function.update_of_ne hne, h]⟩

theorem Overtaken.step (h : HandshakeInv n s) (hs : Overtaken s)
    (hstep : HandshakeStep n s s') : Overtaken s' := by
  rcases hstep with ⟨hgreet⟩ | ⟨hpeer⟩
  · -- worker 3 is in its loop: its part of the state changes only by a connection of the root
    have hlooping : ∃ c i, s.worker 3 = .looping c i := by
      rcases hs with ⟨c, rest, hpc, -⟩ | ⟨hturn, -⟩
      · exact ⟨c, 0, hpc⟩
      · cases hpc : s.worker 3 with
        | looping c i => exact ⟨c, i, rfl⟩
        | _ =>
            rw [hpc] at hturn
            exact absurd hturn (Nat.not_succ_le_zero 0)
    rcases hlooping with ⟨c₃, i₃, hpc₃⟩
    have hother : ∀ {w : Nat} {pc : WorkerPc}, s.worker w = pc →
        (∀ c i, pc ≠ .looping c i) → 3 ≠ w := by
      rintro w pc hpc hne rfl
      exact hne c₃ i₃ (hpc.symm.trans hpc₃)
    cases hgreet with
    | @rootConnect i hpc hi =>
        have hnode : (3 : Nat) ≠ 0 := by decide
        simp only [Overtaken, s.setSocket_of_node_ne hnode]
        rcases hs with ⟨c, rest, hpc', hqueue⟩ | hdone
        · rcases exists_cons_enqueue hqueue (i + 1) 0 with ⟨rest', hqueue'⟩
          exact .inl ⟨c, rest', hpc', hqueue'⟩
        · exact .inr hdone
    | rootAck _ _ => exact hs
    | rootReady _ _ => exact hs
    | acceptRoot hw hpc hqueue =>
        have hne := hother hpc (by simp)
        simpa only [Overtaken, Function.update_of_ne hne, s.setSocket_of_node_ne hne] using hs
    | readConfig hw hpc hroot hmsg =>
        have hne := hother hpc (by simp)
        simpa only [Overtaken, Function.update_of_ne hne] using hs
    | readReady hw hpc hroot hmsg =>
        have hne := hother hpc (by simp)
        simpa only [Overtaken, Function.update_of_ne hne] using hs
  · cases hpeer with
    | @accept w i client c rest hw hpc hi hbelow hqueue =>
        rcases h.broadcasting_of_looping hpc with ⟨-, rfl, -, -⟩
        rcases peerConfig_turn n hw hi with ⟨-, hsocket, -, -⟩
        by_cases hw3 : 3 = w
        · subst hw3
          rw [hsocket]
          rcases hs with ⟨c, rest', hpc', hqueue'⟩ | ⟨hturn, hslot⟩
          · -- the overtaking connection is taken in turn 0
            rw [hpc, WorkerPc.looping.injEq] at hpc'
            rw [hqueue, List.cons.injEq] at hqueue'
            refine .inr ⟨?_, ?_⟩
            · simp [WorkerPc.turn]
            · simp only [hpc'.2, hqueue'.1, HandshakeState.setSocket_self]
          · rw [hpc] at hturn
            have hi1 : 1 ≤ i := hturn
            refine .inr ⟨?_, ?_⟩
            · simp [WorkerPc.turn]
            · simp only [s.setSocket_of_index_ne (show 1 ≠ i + 1 by omega), hslot]
        · simpa only [Overtaken, Function.update_of_ne hw3, s.setSocket_of_node_ne hw3] using hs
    | @connect w i c hw hpc hi habove =>
        rcases h.broadcasting_of_looping hpc with ⟨-, rfl, -, -⟩
        rcases peerConfig_turn n hw hi with ⟨-, hsocket, hside, hhost⟩
        have hwi : w - 1 ≤ i := Nat.not_lt.mp (mt hside.mpr habove)
        rw [hsocket, hhost hwi]
        by_cases hw3 : 3 = w
        · subst hw3
          -- worker 3 connects in turns from 2 on
          rcases hs with ⟨c, rest', hpc', -⟩ | ⟨-, hslot⟩
          · rw [hpc, WorkerPc.looping.injEq] at hpc'
            omega
          · refine .inr ⟨?_, ?_⟩
            · simp [WorkerPc.turn]
            · simp only [s.setSocket_of_index_ne (show 1 ≠ i + 1 by omega), hslot]
        · simp only [Overtaken, Function.update_of_ne hw3, s.setSocket_of_node_ne hw3]
          rcases hs with ⟨c, rest, hpc', hqueue⟩ | hdone
          · rcases exists_cons_enqueue hqueue (i + 2) w with ⟨rest', hqueue'⟩
            exact .inl ⟨c, rest', hpc', hqueue'⟩
          · exact .inr hdone

/-- Worker 1 connects to worker 2, which accepts it and connects to worker 3 before worker 1
does. -/
theorem exists_overtaken (hn : 4 ≤ n) :
    ∃ s, ReflTransGen (HandshakeStep n) .start s ∧ HandshakeInv n s ∧ Overtaken s := by
  rcases exists_atLoopStart (show 2 ≤ n by omega) with ⟨s₀, hreach, hinv, hstart⟩
  have h₁ := (hstart 1 ⟨by omega, by omega⟩).1
  rcases hstart 2 ⟨by omega, by omega⟩ with ⟨h₂, hqueue₂⟩
  rcases hstart 3 ⟨by omega, by omega⟩ with ⟨h₃, hqueue₃⟩
  rcases exists_connect ⟨by omega, by omega⟩ (show 0 < n - 2 by omega) (by omega) h₁ with
    ⟨s₁, hstep₁, hworker₁, hq₁⟩
  have h₂' : s₁.worker 2 = .looping (peerConfig n (2 - 1)) 0 := by rw [hworker₁]; simpa using h₂
  have hq₂ : s₁.queue 2 = [1] := by rw [hq₁]; simp [hqueue₂]
  rcases exists_accept ⟨by omega, by omega⟩ (show 0 < n - 2 by omega) (by omega) h₂' hq₂ with
    ⟨s₂, hstep₂, hworker₂, hq₂'⟩
  have h₂'' : s₂.worker 2 = .looping (peerConfig n (2 - 1)) 1 := by rw [hworker₂]; simp
  rcases exists_connect ⟨by omega, by omega⟩ (show 1 < n - 2 by omega) (by omega) h₂'' with
    ⟨s₃, hstep₃, hworker₃, hq₃⟩
  refine ⟨s₃, ((hreach.tail (.peer hstep₁)).tail (.peer hstep₂)).tail (.peer hstep₃),
    ((hinv.peerStep hstep₁).peerStep hstep₂).peerStep hstep₃,
    .inl ⟨peerConfig n (3 - 1), [], ?_, ?_⟩⟩
  · rw [hworker₃, hworker₂, hworker₁]
    simpa using h₃
  · rw [hq₃, hq₂', hq₁]
    simp [hqueue₃]

/-- From four nodes on a handshake can return with slots that do not match. -/
theorem exists_returned_not_matched (hn : 4 ≤ n) :
    ∃ s, ReflTransGen (HandshakeStep n) .start s ∧ s.Returned n ∧ ¬ s.Matched n := by
  rcases exists_overtaken hn with ⟨s, hreach, hinv, hs⟩
  rcases hinv.exists_returned (by omega) (fun _ _ ht hPt hstep => hPt.step ht hstep) hs with
    ⟨f, hfinish, ⟨hf, hover⟩, hret⟩
  refine ⟨f, hreach.trans hfinish, hret, fun hmatched => ?_⟩
  have hslot := (hf.matched_iff hret).mp hmatched 1 3 (by omega) (by omega) (by omega)
  rcases hover with ⟨c, rest, hpc, -⟩ | ⟨-, hother⟩
  · -- worker 3 is through its loop
    have hturn := hf.returned_turn hret ⟨by omega, show 3 < n by omega⟩
    rw [hpc] at hturn
    simp only [WorkerPc.turn] at hturn
    omega
  · rw [hother] at hslot
    exact absurd hslot (by decide)

/-! ## When the slots match -/

/-- In whatever order the connects complete, the slots match, exactly up to three nodes. -/
theorem handshake_matched_iff (n : Nat) (hn : 2 ≤ n) :
    (∀ s, ReflTransGen (HandshakeStep n) .start s → s.Returned n → s.Matched n) ↔ n ≤ 3 := by
  constructor
  · intro hall
    by_contra hgt
    rcases exists_returned_not_matched (Nat.not_le.mp hgt) with ⟨s, hreach, hret, hnot⟩
    exact hnot (hall s hreach hret)
  · intro hle s hreach hret
    have hs : HandshakeInv n s :=
      invariant_of_reach (fun _ _ ht hstep => ht.step hn hstep) (HandshakeInv.start n hn) hreach
    exact hs.matched_of_le hret hle

theorem handshake_matched_iff_three_nodes :
    (∀ s, ReflTransGen (HandshakeStep 3) .start s → s.Returned 3 → s.Matched 3) ↔ 3 ≤ 3 :=
  handshake_matched_iff 3 (by decide)

/-- Three workers: worker 2 can be filed as worker 1 by worker 3. -/
theorem handshake_crossed_four_nodes :
    ∃ s, ReflTransGen (HandshakeStep 4) .start s ∧ s.Returned 4 ∧ ¬ s.Matched 4 :=
  exists_returned_not_matched (Nat.le_refl 4)

end Network
end PrefillOpt
