import PrefillOpt.Lib.History

/-!
# Relay — a hub that gives the word, and a chain that passes messages on

In every round party 0 hands one word to all others; then each party sends its messages to the
next one, and the last party sends its own back to party 0.  The rounds are one schedule of the
system, so it is enough that every party plays its own part of each round.
-/

namespace PrefillOpt
namespace Lib

variable {P π β ρ τ : Type}

/-! ## Concatenations with one or two parts -/

theorem flatMap_range_one {F : Nat → List τ} {n i : Nat} (hi : i < n)
    (h : ∀ k, k < n → k ≠ i → F k = []) : (List.range n).flatMap F = F i := by
  induction n with
  | zero => omega
  | succ n ih =>
      rw [List.range_succ, List.flatMap_append, List.flatMap_singleton]
      by_cases hlast : i = n
      · have hnone : (List.range n).flatMap F = [] :=
          List.flatMap_eq_nil_iff.mpr fun k hk => by
            have := List.mem_range.mp hk
            exact h k (by omega) (by omega)
        rw [hnone, hlast, List.nil_append]
      · rw [ih (by omega) fun k hk hne => h k (by omega) hne, h n (by omega) (Ne.symm hlast),
          List.append_nil]

theorem flatMap_range_two {F : Nat → List τ} {n i j : Nat} (hij : i < j) (hj : j < n)
    (h : ∀ k, k < n → k ≠ i → k ≠ j → F k = []) : (List.range n).flatMap F = F i ++ F j := by
  induction n with
  | zero => omega
  | succ n ih =>
      rw [List.range_succ, List.flatMap_append, List.flatMap_singleton]
      by_cases hlast : j = n
      · subst hlast
        rw [flatMap_range_one hij fun k hk hne => h k (by omega) hne (by omega)]
      · rw [ih (by omega) fun k hk hi hj => h k (by omega) hi hj,
          h n (by omega) (by omega) (Ne.symm hlast), List.append_nil]

/-! ## Rounds -/

/-- The word of the hub, and the messages that each party hands on. -/
structure Round (β : Type) where
  word : List β
  messages : Nat → List (List β)

/-- The party after `i` in a circle of `n`. -/
def nextParty (n i : Nat) : Nat := if i + 1 < n then i + 1 else 0

theorem nextParty_lt {n i : Nat} (hi : i + 1 < n) : nextParty n i = i + 1 := if_pos hi

theorem nextParty_last {n i : Nat} (hi : i + 1 = n) : nextParty n i = 0 := if_neg (by omega)

variable [DecidableEq P] [DecidableEq π]

/-- `n` parties with a link between any two of them; `link i j` is the end of `i`. -/
structure Mesh (N : Net P π) (n : Nat) (party : Nat → P) (link : Nat → Nat → π) : Prop where
  owner : ∀ i j, i < n → j < n → i ≠ j → N.owner (link i j) = party i
  peer : ∀ i j, i < n → j < n → i ≠ j → N.peer (link i j) = link j i
  party_inj : ∀ i j, i < n → j < n → party i = party j → i = j

namespace Round

variable (n : Nat) (link : Nat → Nat → π) (R : Round β)

def events : List (GEv π β) :=
  ((List.range (n - 1)).map fun s => .msg (link 0 (s + 1)) R.word) ++
    (List.range n).flatMap fun i => (R.messages i).map (.msg (link i (nextParty n i)))

/-- The part of the hub. -/
def hubPart : List (LEv π β) :=
  ((List.range (n - 1)).map fun s => .out (link 0 (s + 1)) R.word) ++
    ((R.messages 0).map (.out (link 0 (nextParty n 0))) ++
      (R.messages (n - 1)).map (.inp (link 0 (n - 1))))

/-- The part of party `i`, one of the others. -/
def partyPart (i : Nat) : List (LEv π β) :=
  .inp (link i 0) R.word ::
    ((R.messages (i - 1)).map (.inp (link i (i - 1))) ++
      (R.messages i).map (.out (link i (nextParty n i))))

/-- The blocks that party `i` hands to party `j`: the word if it is the hub, and its messages if `j`
is the next one. -/
def carried (i j : Nat) : List (List β) :=
  (if i = 0 then blocks R.word else []) ++
    if nextParty n i = j then (R.messages i).flatMap blocks else []

end Round

namespace Mesh

variable {N : Net P π} {n : Nat} {party : Nat → P} {link : Nat → Nat → π}

omit [DecidableEq π] in
theorem view_msg (M : Mesh N n party link) {i j k : Nat} (hi : i < n) (hj : j < n) (hij : i ≠ j)
    (hk : k < n) (xs : List β) :
    (GEv.msg (link i j) xs).view N (party k)
      = if i = k then [.out (link i j) xs] else if j = k then [.inp (link j i) xs] else [] := by
  have howner : N.owner (link i j) = party k ↔ i = k := by
    rw [M.owner i j hi hj hij]
    exact ⟨M.party_inj i k hi hk, congrArg party⟩
  have hpeer : N.owner (link j i) = party k ↔ j = k := by
    rw [M.owner j i hj hi hij.symm]
    exact ⟨M.party_inj j k hj hk, congrArg party⟩
  simp only [GEv.view, M.peer i j hi hj hij, howner, hpeer]

omit [DecidableEq π] in
theorem view_msgs (M : Mesh N n party link) {i j k : Nat} (hi : i < n) (hj : j < n) (hij : i ≠ j)
    (hk : k < n) (ms : List (List β)) :
    view N (party k) (ms.map (.msg (link i j)))
      = if i = k then ms.map (.out (link i j)) else if j = k then ms.map (.inp (link j i))
        else [] := by
  induction ms with
  | nil => simp
  | cons m ms ih =>
      rw [List.map_cons, view_cons, ih, M.view_msg hi hj hij hk]
      split_ifs <;> rfl

theorem nextParty_mem {i : Nat} (hn : 2 ≤ n) (hi : i < n) :
    nextParty n i < n ∧ i ≠ nextParty n i := by
  unfold nextParty
  split_ifs <;> omega

omit [DecidableEq π] in
theorem view_hub (M : Mesh N n party link) (hn : 2 ≤ n) (R : Round β) :
    view N (party 0) (R.events n link) = R.hubPart n link := by
  have h0 : 0 < n := by omega
  have hword : view N (party 0) ((List.range (n - 1)).map fun s => .msg (link 0 (s + 1)) R.word)
      = (List.range (n - 1)).map fun s => .out (link 0 (s + 1)) R.word := by
    rw [view, List.flatMap_map, List.map_eq_flatMap]
    refine List.flatMap_congr fun s hs => ?_
    have := List.mem_range.mp hs
    rw [M.view_msg h0 (by omega) (by omega) h0, if_pos rfl]
  have hpart : ∀ i, i < n → view N (party 0) ((R.messages i).map (.msg (link i (nextParty n i))))
      = if i = 0 then (R.messages i).map (.out (link i (nextParty n i)))
        else if nextParty n i = 0 then (R.messages i).map (.inp (link (nextParty n i) i))
        else [] := fun i hi =>
    M.view_msgs hi (nextParty_mem hn hi).1 (nextParty_mem hn hi).2 h0 _
  have hchain : ((List.range n).flatMap fun i =>
      view N (party 0) ((R.messages i).map (.msg (link i (nextParty n i)))))
      = (R.messages 0).map (.out (link 0 (nextParty n 0))) ++
        (R.messages (n - 1)).map (.inp (link 0 (n - 1))) := by
    rw [flatMap_range_two (show 0 < n - 1 by omega) (by omega)]
    · have hlast : nextParty n (n - 1) = 0 := nextParty_last (by omega)
      rw [hpart 0 h0, if_pos rfl, hpart (n - 1) (by omega), if_neg (by omega), if_pos hlast, hlast]
    · intro k hk hk0 hklast
      rw [hpart k hk, if_neg hk0, nextParty_lt (by omega), if_neg (by omega)]
  rw [Round.events, view_append, hword, view_flatMap, hchain, Round.hubPart]

omit [DecidableEq π] in
theorem view_party (M : Mesh N n party link) (R : Round β) {k : Nat} (hk : 0 < k) (hkn : k < n) :
    view N (party k) (R.events n link) = R.partyPart n link k := by
  have hn : 2 ≤ n := by omega
  have hword : view N (party k) ((List.range (n - 1)).map fun s => .msg (link 0 (s + 1)) R.word)
      = [.inp (link k 0) R.word] := by
    simp only [view, List.flatMap_map]
    rw [flatMap_range_one (i := k - 1) (by omega)]
    · have hback : k - 1 + 1 = k := by omega
      rw [hback, M.view_msg (by omega) hkn (by omega) hkn, if_neg (by omega), if_pos rfl]
    · intro s hs hne
      rw [M.view_msg (by omega) (by omega) (by omega) hkn, if_neg (by omega), if_neg (by omega)]
  have hpart : ∀ i, i < n → view N (party k) ((R.messages i).map (.msg (link i (nextParty n i))))
      = if i = k then (R.messages i).map (.out (link i (nextParty n i)))
        else if nextParty n i = k then (R.messages i).map (.inp (link (nextParty n i) i))
        else [] := fun i hi =>
    M.view_msgs hi (nextParty_mem hn hi).1 (nextParty_mem hn hi).2 hkn _
  have hchain : ((List.range n).flatMap fun i =>
      view N (party k) ((R.messages i).map (.msg (link i (nextParty n i)))))
      = (R.messages (k - 1)).map (.inp (link k (k - 1))) ++
        (R.messages k).map (.out (link k (nextParty n k))) := by
    have hbefore : nextParty n (k - 1) = k := by
      rw [nextParty_lt (by omega)]
      omega
    rw [flatMap_range_two (show k - 1 < k by omega) hkn]
    · rw [hpart (k - 1) (by omega), if_neg (by omega), if_pos hbefore, hbefore, hpart k hkn,
        if_pos rfl]
    · intro i hi hne hne'
      have hnext : nextParty n i ≠ k := by
        unfold nextParty
        split_ifs <;> omega
      rw [hpart i hi, if_neg hne', if_neg hnext]
  rw [Round.events, view_append, hword, view_flatMap, hchain, Round.partyPart]
  rfl

omit [DecidableEq π] in
theorem view_other (M : Mesh N n party link) (hn : 2 ≤ n) (R : Round β) {p : P}
    (hp : ∀ i, i < n → p ≠ party i) : view N p (R.events n link) = [] := by
  have hmsg : ∀ {i j : Nat}, i < n → j < n → i ≠ j → ∀ xs : List β,
      (GEv.msg (link i j) xs).view N p = [] := by
    intro i j hi hj hij xs
    have h₁ : N.owner (link i j) ≠ p := by
      rw [M.owner i j hi hj hij]
      exact (hp i hi).symm
    have h₂ : N.owner (N.peer (link i j)) ≠ p := by
      rw [M.peer i j hi hj hij, M.owner j i hj hi hij.symm]
      exact (hp j hj).symm
    simp only [GEv.view, if_neg h₁, if_neg h₂]
  rw [Round.events, view_append, List.append_eq_nil_iff]
  constructor
  · simp only [view, List.flatMap_map]
    refine List.flatMap_eq_nil_iff.mpr fun s hs => ?_
    have := List.mem_range.mp hs
    exact hmsg (by omega) (by omega) (by omega) _
  · rw [view_flatMap]
    refine List.flatMap_eq_nil_iff.mpr fun i hi => ?_
    have hi := List.mem_range.mp hi
    simp only [view, List.flatMap_map]
    exact List.flatMap_eq_nil_iff.mpr fun m _ =>
      hmsg hi (nextParty_mem hn hi).1 (nextParty_mem hn hi).2 m

omit [DecidableEq P] [DecidableEq π] in
theorem msg_events (M : Mesh N n party link) (hn : 2 ≤ n) (R : Round β) {e : GEv π β}
    (he : e ∈ R.events n link) : ∃ a xs, e = .msg a xs ∧ N.owner a ≠ N.owner (N.peer a) := by
  have hlink : ∀ {i j : Nat}, i < n → j < n → i ≠ j →
      N.owner (link i j) ≠ N.owner (N.peer (link i j)) := by
    intro i j hi hj hij
    rw [M.peer i j hi hj hij, M.owner i j hi hj hij, M.owner j i hj hi hij.symm]
    exact fun h => hij (M.party_inj i j hi hj h)
  rcases List.mem_append.mp he with he | he
  · rcases List.mem_map.mp he with ⟨s, hs, rfl⟩
    have := List.mem_range.mp hs
    exact ⟨_, _, rfl, hlink (by omega) (by omega) (by omega)⟩
  · rcases List.mem_flatMap.mp he with ⟨i, hi, he⟩
    rcases List.mem_map.mp he with ⟨m, -, rfl⟩
    have hi := List.mem_range.mp hi
    exact ⟨_, _, rfl, hlink hi (nextParty_mem hn hi).1 (nextParty_mem hn hi).2⟩

omit [DecidableEq P] [DecidableEq π] in
theorem link_inj (M : Mesh N n party link) {i j k : Nat} (hi : i < n) (hj : j < n) (hk : k < n)
    (hij : i ≠ j) (hik : i ≠ k) : link i j = link i k ↔ j = k := by
  refine ⟨fun h => M.party_inj j k hj hk ?_, fun h => by rw [h]⟩
  rw [← M.owner j i hj hi hij.symm, ← M.peer i j hi hj hij, h, M.peer i k hi hk hik,
    M.owner k i hk hi hik.symm]

/-- In a round a link carries what its party hands to the other end. -/
theorem outs_round (M : Mesh N n party link) (R : Round β) {i j : Nat} (hi : i < n) (hj : j < n)
    (hij : i ≠ j) :
    LEv.outs (link i j) (view N (party i) (R.events n link)) = R.carried n i j := by
  have hn : 2 ≤ n := by omega
  have hnext := nextParty_mem hn hi
  have hmessages : LEv.outs (link i j) ((R.messages i).map (.out (link i (nextParty n i))))
      = if nextParty n i = j then (R.messages i).flatMap blocks else [] := by
    rw [LEv.outs_map_out]
    exact if_congr (M.link_inj hi hnext.1 hj hnext.2 hij) rfl rfl
  rcases Nat.eq_zero_or_pos i with rfl | hpos
  · -- the word leaves once on every link of the hub
    have hword : LEv.outs (link 0 j)
        ((List.range (n - 1)).map fun s => LEv.out (link 0 (s + 1)) R.word) = blocks R.word := by
      have hpart : ∀ s, s < n - 1 →
          LEv.outs (link 0 j) [LEv.out (link 0 (s + 1)) R.word]
            = if s + 1 = j then blocks R.word else [] := by
        intro s hs
        have hlink := M.link_inj hi (by omega : s + 1 < n) hj (by omega) hij
        simp only [LEv.outs, List.flatMap_singleton, hlink]
      rw [List.map_eq_flatMap, LEv.outs_flatMap, flatMap_range_one (i := j - 1) (by omega)]
      · rw [hpart (j - 1) (by omega), if_pos (by omega)]
      · intro s hs hne
        rw [hpart s hs, if_neg (by omega)]
    rw [M.view_hub hn, Round.hubPart, LEv.outs_append, LEv.outs_append, hword, hmessages,
      LEv.outs_map_inp, List.append_nil, Round.carried, if_pos rfl]
  · -- what another party takes leaves on no link
    have hcons : R.partyPart n link i
        = [R.word].map (.inp (link i 0)) ++ ((R.messages (i - 1)).map (.inp (link i (i - 1))) ++
          (R.messages i).map (.out (link i (nextParty n i)))) := rfl
    rw [M.view_party R hpos hi, hcons, LEv.outs_append, LEv.outs_append, LEv.outs_map_inp,
      LEv.outs_map_inp, hmessages, Round.carried, if_neg (Nat.ne_of_gt hpos)]
    rfl

/-- Parties that play their parts of all rounds play one schedule. -/
theorem plays_rounds (M : Mesh N n party link) (hn : 2 ≤ n) (Rs : List (Round β))
    {c : Config P π β ρ} {r : P → ρ} (hsent : c.sent = fun _ => [])
    (hhub : Trace (c.proc (party 0)) (Rs.flatMap (Round.hubPart n link)) (r (party 0)))
    (hparty : ∀ i, 0 < i → i < n →
      Trace (c.proc (party i)) (Rs.flatMap fun R => R.partyPart n link i) (r (party i)))
    (hother : ∀ p, (∀ i, i < n → p ≠ party i) → c.proc p = .ret (r p)) :
    Plays N c (Rs.flatMap (Round.events n link)) ((List.range n).map party) r := by
  have hsched : Sched N c.sent (Rs.flatMap (Round.events n link)) := by
    rw [hsent]
    refine Sched.of_msgs fun e he => ?_
    rcases List.mem_flatMap.mp he with ⟨R, -, he⟩
    exact M.msg_events hn R he
  refine ⟨hsched, fun p hp => ?_, fun p => ?_⟩
  · refine hother p fun i hi h => hp ?_
    rw [h]
    exact List.mem_map_of_mem (List.mem_range.mpr hi)
  · rw [view_flatMap]
    by_cases hmem : ∃ i, i < n ∧ p = party i
    · rcases hmem with ⟨i, hi, rfl⟩
      rcases Nat.eq_zero_or_pos i with rfl | hpos
      · simpa only [M.view_hub hn] using hhub
      · simpa only [M.view_party _ hpos hi] using hparty i hpos hi
    · push Not at hmem
      have hnil : (Rs.flatMap fun R => view N p (R.events n link)) = [] :=
        List.flatMap_eq_nil_iff.mpr fun R _ => M.view_other hn R hmem
      rw [hnil, hother p hmem]
      exact .ret _

end Mesh

end Lib
end PrefillOpt
