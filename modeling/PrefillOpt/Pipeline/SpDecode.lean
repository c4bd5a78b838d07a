import PrefillOpt.Network.SpKvExchange
import PrefillOpt.Pipeline.SkippedKv

/-!
# Pipeline.SpDecode — the caches of a sequence-parallel group while tokens are decoded

Each rank of a group writes the rows of its own part of the sequence, and the exchange after a
prompt chunk hands them round.  In decode the exchange is left out, but the guard of the shift op
stays: what rank 0 computes for a position beyond its part is dropped, and nobody sends it.

The caches are those of one layer on all nodes.  The first contents are arbitrary, so a row can
only be right because the request has put it there.
-/

namespace PrefillOpt
namespace Pipeline

open Lib Network

/-! ## The run of a request -/

/-- What the nodes share.  The context-parallel cut is off and `--prefill-sp-only` on. -/
structure SpSetup where
  t : NnParallelTopology
  kvDim : Nat
  seqLen : Nat
  /-- `DLLAMA_SP_NOSHARD` -/
  spNoShard : Bool
  strictKvAffinity : Bool
  allowKvMigration : Bool
  two_le : 2 ≤ t.spSize
  kvDim_pos : 0 < kvDim / t.tpSize
  /-- `sliceKvCache` asserts it. -/
  seqLen_mod : seqLen % t.spSize = 0
  seqLen_lt : seqLen < 2 ^ 32

namespace SpSetup

variable (S : SpSetup)

def kvSetup : KvSetup where
  ppSize := S.t.ppSize
  tpSize := S.t.tpSize
  spSize := S.t.spSize
  seqLen := S.seqLen
  kvDim := S.kvDim
  spNoShard := S.spNoShard
  cpSplit := false
  layers _ := []
  spSize_pos := S.t.spSize_pos
  tpSize_pos := S.t.tpSize_pos
  kvDim_pos := S.kvDim_pos
  seqLen_mod := S.seqLen_mod
  seqLen_lt := S.seqLen_lt

def localSeqLen : Nat := S.seqLen / S.t.spSize

def rowBytes : Nat := S.kvSetup.rowBytes

def forward (c : ForwardCall) : SpKvForward :=
  ⟨S.kvDim, S.seqLen, c.batchSize, KvSetup.indexes c, false⟩

section Run

variable {β : Type} (cap : Port → Nat) (calls : List ForwardCall)

/-- Both shift ops on every node; `temp node b` is row `b` of `kTemp` and `vTemp` there. -/
def shift (c : ForwardCall) (temp : Nat → Nat → Kv β) (kv : Nat → Kv β) (node : Nat) : Kv β :=
  let spRank := (S.t.placement node).spRank
  let g := S.kvSetup.rowState spRank
  let config := shiftConfigOf (S.kvSetup.slice spRank)
  ⟨shiftForward g config c.batchSize (KvSetup.indexes c) S.rowBytes (fun b => (temp node b).k)
      (kv node).k,
    shiftForward g config c.batchSize (KvSetup.indexes c) S.rowBytes (fun b => (temp node b).v)
      (kv node).v⟩

/-- Every thread of every node is about to run `SYNC_SP_KV`. -/
def BeforeSync (c : ForwardCall) (kv : Nat → Kv β) (s : Config Party Port β (Kv β)) : Prop :=
  (s.sent = fun _ => []) ∧ ∀ p : Party,
    if p.1 < S.t.nNodes then
      syncSpKv ⟨true, S.strictKvAffinity, S.allowKvMigration, c.decodePhase⟩
        (spKvCall S.t (S.forward c) p.1) p.2 (kv p.1) = .ok (s.proc p)
    else s.proc p = .ret (kv p.1)

/-- All nodes have come through the exchange, in some interleaving; without sharding the graph
has no exchange. -/
def Sync (c : ForwardCall) (kv kv' : Nat → Kv β) : Prop :=
  if S.spNoShard then kv' = kv
  else ∃ s d, S.BeforeSync c kv s ∧ Reach (mainNet cap) s d ∧ d.Final ∧
    ∀ node, d.proc (node, 0) = .ret (kv' node)

/-- The caches before call `i`, whose rows `b` are `temp i node b`. -/
inductive Run (temp : Nat → Nat → Nat → Kv β) (init : Nat → Kv β) : Nat → (Nat → Kv β) → Prop
  | start : Run temp init 0 init
  | call {i : Nat} {c : ForwardCall} {kv kv' : Nat → Kv β} (hrun : Run temp init i kv)
      (hcall : calls[i]? = some c) (hsync : S.Sync cap c (S.shift c (temp i) kv) kv') :
      Run temp init (i + 1) kv'

end Run

end SpSetup

/-! ## Complete caches -/

/-- Of the first `n` calls the last one with position `q` is call `k`: it brought the token that
is at the position now. -/
structure BringsToken (calls : List ForwardCall) (n q k : Nat) (c : ForwardCall) : Prop where
  lt : k < n
  call : calls[k]? = some c
  has : c.Has q
  last : ∀ (k' : Nat) (c' : ForwardCall), k < k' → k' < n → calls[k']? = some c' → ¬c'.Has q

namespace SpSetup

variable (S : SpSetup) {β : Type}

/-- After `n` calls row `q` is what some rank computed for the token at position `q`. -/
def HoldsToken (calls : List ForwardCall) (temp : Nat → Nat → Nat → Kv β) (n pp tp : Nat)
    (kv : Kv β) (q : Nat) : Prop :=
  ∃ k c, BringsToken calls n q k c ∧ ∃ r, r < S.t.spSize ∧ ∀ j, j < S.rowBytes →
    kv.k (q * S.rowBytes + j) = (temp k (S.t.rankAt pp r tp) (q - c.position)).k j ∧
    kv.v (q * S.rowBytes + j) = (temp k (S.t.rankAt pp r tp) (q - c.position)).v j

/-- In every run, whatever the caches held and whatever is computed, each row that the attention
of SP rank 0 reads in a decode call is there and is its token's. -/
def DecodeComplete (cap : Port → Nat) (calls : List ForwardCall) : Prop :=
  ∀ (temp : Nat → Nat → Nat → Kv UInt8) (init : Nat → Kv UInt8) (i : Nat) (kv : Nat → Kv UInt8)
    (c : ForwardCall), S.Run cap calls temp init i kv → calls[i]? = some c →
    c.decodePhase = true → ∀ pp tp, pp < S.t.ppSize → tp < S.t.tpSize →
    ∀ pos, c.Has pos → ∀ q, q ≤ pos →
      S.HoldsToken calls temp (i + 1) pp tp (S.shift c (temp i) kv (S.t.rankAt pp 0 tp)) q

/-! ## What the exchange leaves in the caches -/

/-- The caches after the exchange. -/
def afterSync (c : ForwardCall) (kv : Nat → Kv β) : Nat → Kv β :=
  if S.spNoShard || c.decodePhase then kv
  else fun node => spKvResult S.t (S.forward c) kv (node, 0)

variable {S} {cap : Port → Nat} {c : ForwardCall} {kv kv' : Nat → Kv β}

theorem forward_disjoint (S : SpSetup) (c : ForwardCall) :
    DisjointBlocks ((S.forward c).block S.t) S.t.spSize :=
  disjointBlocks_of_not_cpSplit rfl

/-- In decode nobody sends or receives anything. -/
theorem beforeSync_decode (hdecode : c.decodePhase = true) {s : Config Party Port β (Kv β)} :
    S.BeforeSync c kv s ↔ s = .done fun p => kv p.1 := by
  obtain ⟨proc, sent⟩ := s
  simp only [BeforeSync, syncSpKv, hdecode, Bool.and_self, if_true, Config.done,
    Config.mk.injEq]
  rw [and_comm]
  refine and_congr_left fun _ => ⟨fun h => ?_, fun h p => ?_⟩
  · funext p
    have hp := h p
    split_ifs at hp
    · exact (Except.ok.inj hp).symm
    · exact hp
  · subst h
    split_ifs <;> rfl

theorem beforeSync_prefill (hprefill : c.decodePhase = false)
    {s : Config Party Port β (Kv β)} :
    S.BeforeSync c kv s ↔ s = spKvSystem S.t (S.forward c) kv := by
  obtain ⟨proc, sent⟩ := s
  simp only [BeforeSync, syncSpKv, hprefill, Bool.and_false, Bool.false_and, Bool.false_eq_true,
    if_false, spKvSystem, Config.mk.injEq]
  rw [and_comm]
  refine and_congr_left fun _ => ⟨fun h => ?_, fun h p => ?_⟩
  · funext p
    have hp := h p
    by_cases hnode : p.1 < S.t.nNodes
    · rw [if_pos hnode] at hp
      by_cases hthread : p.2 = 0
      · rw [if_neg (not_not.2 hthread)] at hp
        rw [if_pos ⟨hnode, hthread⟩]
        exact (Except.ok.inj hp).symm
      · rw [if_pos hthread] at hp
        rw [if_neg fun h => hthread h.2]
        exact (Except.ok.inj hp).symm
    · rw [if_neg hnode] at hp
      rw [if_neg fun h => hnode h.1]
      exact hp
  · subst h
    by_cases hnode : p.1 < S.t.nNodes
    · by_cases hthread : p.2 = 0
      · simp [hnode, hthread]
      · simp [hnode, hthread]
    · simp [hnode]

/-- The exchange ends in every interleaving, and always with the same caches. -/
theorem sync_iff : S.Sync cap c kv kv' ↔ kv' = S.afterSync c kv := by
  unfold Sync afterSync
  by_cases hshard : S.spNoShard = true
  · rw [if_pos hshard, hshard, Bool.true_or, if_pos rfl]
  rw [if_neg hshard, Bool.not_eq_true _ |>.mp hshard, Bool.false_or]
  -- what the programs start from and what they all end with
  obtain ⟨s, r, hbefore, hends, hresult⟩ : ∃ (s : Config Party Port β (Kv β)) (r : Party → Kv β),
      (∀ s', S.BeforeSync c kv s' ↔ s' = s) ∧ Completes (mainNet cap) s r ∧
      (if c.decodePhase = true then kv
        else fun node => spKvResult S.t (S.forward c) kv (node, 0)) = fun node => r (node, 0) := by
    by_cases hdecode : c.decodePhase = true
    · refine ⟨.done fun p => kv p.1, fun p => kv p.1, fun s' => beforeSync_decode hdecode,
        .of_reach .refl, ?_⟩
      rw [if_pos hdecode]
    · rw [Bool.not_eq_true] at hdecode
      refine ⟨spKvSystem S.t (S.forward c) kv, spKvResult S.t (S.forward c) kv,
        fun s' => beforeSync_prefill hdecode,
        spKvSystem_completes S.two_le (S.forward_disjoint c) cap kv, ?_⟩
      rw [hdecode, if_neg Bool.false_ne_true]
  rw [hresult]
  constructor
  · rintro ⟨s', d, hs', hreach, hfinal, hkv'⟩
    rw [hbefore] at hs'
    subst hs'
    rw [hends.eq_done hreach hfinal] at hkv'
    funext node
    exact (Prog.ret.inj (hkv' node)).symm
  · rintro rfl
    exact ⟨s, .done r, (hbefore s).2 rfl, hends.reach_done, Completes.done_final r, fun _ => rfl⟩

/-! ## Rows -/

theorem rowBytes_eq (S : SpSetup) (c : ForwardCall) :
    S.rowBytes = (S.forward c).kvDim0Bytes S.t := rfl

theorem localSeqLen_mul (S : SpSetup) : S.localSeqLen * S.t.spSize = S.seqLen :=
  Nat.div_mul_cancel (Nat.dvd_of_mod_eq_zero S.seqLen_mod)

theorem localSeqLen_pos {q : Nat} (hq : q < S.seqLen) : 0 < S.localSeqLen := by
  apply Nat.pos_of_ne_zero
  intro hzero
  have hlen := S.localSeqLen_mul
  rw [hzero, Nat.zero_mul] at hlen
  omega

theorem rowState_cpSize (S : SpSetup) (r : Nat) : (S.kvSetup.rowState r).cpSize ≤ 1 :=
  Nat.le_refl 1

section Shift

variable {temp : Nat → Nat → Kv β} {node q j : Nat}

/-- A row that a node writes is what it has computed. -/
theorem shift_of_writes (hfits : c.position + c.batchSize ≤ S.seqLen)
    (hrank : (S.t.placement node).spRank < S.t.spSize) (hj : j < S.rowBytes)
    (hwrites : S.kvSetup.Writes (S.t.placement node).spRank c q) :
    (S.shift c temp kv node).k (q * S.rowBytes + j) = (temp node (q - c.position)).k j ∧
      (S.shift c temp kv node).v (q * S.rowBytes + j) = (temp node (q - c.position)).v j := by
  rcases hwrites with ⟨b, hb, rfl⟩
  have hindex : ∀ b' ∈ S.kvSetup.writtenRows (S.t.placement node).spRank c,
      KvSetup.indexes c b' = c.position + b' := fun b' hb' =>
    KvSetup.indexes_eq (K := S.kvSetup) hfits (KvSetup.lt_batchSize_of_mem hrank hb')
  have huniq : ∀ b' ∈ S.kvSetup.writtenRows (S.t.placement node).spRank c,
      KvSetup.indexes c b' = KvSetup.indexes c b → b' = b := by
    intro b' hb' heq
    rw [hindex b' hb', hindex b hb] at heq
    exact Nat.add_left_cancel heq
  have hrow : KvSetup.indexes c b - c.position = b := by
    rw [hindex b hb, Nat.add_sub_cancel_left]
  rw [hrow]
  exact ⟨shiftForward_of_mem hb huniq hj, shiftForward_of_mem hb huniq hj⟩

/-- Other rows are kept. -/
theorem shift_of_not_writes (temp : Nat → Nat → Kv β) (kv : Nat → Kv β) (hj : j < S.rowBytes)
    (hnot : ¬S.kvSetup.Writes (S.t.placement node).spRank c q) :
    (S.shift c temp kv node).k (q * S.rowBytes + j) = (kv node).k (q * S.rowBytes + j) ∧
      (S.shift c temp kv node).v (q * S.rowBytes + j) = (kv node).v (q * S.rowBytes + j) := by
  have hne : ∀ b ∈ S.kvSetup.writtenRows (S.t.placement node).spRank c,
      KvSetup.indexes c b ≠ q := fun b hb heq => hnot ⟨b, hb, heq⟩
  exact ⟨shiftForward_of_not_mem hne hj, shiftForward_of_not_mem hne hj⟩

end Shift

/-- The rows that SP rank 0 writes itself. -/
def Own (S : SpSetup) (q : Nat) : Prop :=
  S.spNoShard = true ∨ q < S.localSeqLen

theorem writes_zero_iff (hfits : c.position + c.batchSize ≤ S.seqLen) {q : Nat} :
    S.kvSetup.Writes 0 c q ↔ c.Has q ∧ S.Own q := by
  constructor
  · intro hwrites
    have hhas : c.Has q := hwrites.has S.t.spSize_pos hfits
    refine ⟨hhas, ?_⟩
    by_cases hshard : S.spNoShard = true
    · exact .inl hshard
    · rcases hwrites with ⟨b, hb, rfl⟩
      have hguard := (mem_shiftRows.1 hb).2
      have hlen : 0 < S.seqLen / S.t.spSize := localSeqLen_pos (hhas.2.trans_le hfits)
      simp only [shiftWrites, shiftConfigOf, KvSetup.slice, kvSetup, hshard, if_false,
        kvCacheSlice, Bool.false_eq_true, hlen, KvSetup.rowState, Nat.le_refl, and_self, if_true,
        Nat.zero_mul, Nat.zero_add, Nat.zero_le, true_and, decide_eq_true_eq] at hguard
      exact .inr hguard
  · rintro ⟨hhas, hown⟩
    apply KvSetup.writes_of_guard (S.rowState_cpSize 0) hfits hhas
    have hlt : q < S.seqLen := hhas.2.trans_le hfits
    by_cases hshard : S.spNoShard = true
    · simpa [KvSetup.slice, kvSetup, hshard, kvCacheSlice] using hlt
    · have hlocal : q < S.seqLen / S.t.spSize := hown.resolve_left hshard
      simpa [KvSetup.slice, kvSetup, hshard, kvCacheSlice] using hlocal

section Sync

variable {pp tp q j : Nat}

/-- After the exchange a rank has the row of its owner, up to the last position of the batch. -/
theorem afterSync_row (kv : Nat → Kv β) (hshard : S.spNoShard = false)
    (hprefill : c.decodePhase = false) (hpp : pp < S.t.ppSize) (htp : tp < S.t.tpSize)
    {r : Nat} (hr : r < S.t.spSize)
    (hq : q < S.seqLen) (hj : j < S.rowBytes) :
    ∃ owner, (owner = r ∨ owner = q / S.localSeqLen) ∧ owner < S.t.spSize ∧
      (S.afterSync c kv (S.t.rankAt pp r tp)).k (q * S.rowBytes + j)
        = (kv (S.t.rankAt pp owner tp)).k (q * S.rowBytes + j) ∧
      (S.afterSync c kv (S.t.rankAt pp r tp)).v (q * S.rowBytes + j)
        = (kv (S.t.rankAt pp owner tp)).v (q * S.rowBytes + j) := by
  have hlen : 0 < S.localSeqLen := localSeqLen_pos hq
  have howner : q / S.localSeqLen < S.t.spSize := by
    rw [Nat.div_lt_iff_lt_mul hlen, Nat.mul_comm, S.localSeqLen_mul]
    exact hq
  have hrange := (range_mem_iff (t := S.t) (f := S.forward c) rfl (q / S.localSeqLen) q).2
    ⟨hlen, rfl⟩
  obtain ⟨h₁, h₂, h₃⟩ := S.t.placement_rankAt pp hr htp
  have hnode := S.t.rankAt_lt hpp hr htp
  refine ⟨if q ≤ (S.forward c).maxPos then q / S.localSeqLen else r, ?_, ?_, ?_⟩
  · split_ifs
    · exact .inr rfl
    · exact .inl rfl
  · split_ifs
    · exact howner
    · exact hr
  · rw [rowBytes_eq S c] at hj ⊢
    simp only [afterSync, hshard, hprefill, Bool.or_self, Bool.false_eq_true, if_false,
      spKvResult, hnode, true_and, if_true, h₁, h₂, h₃, Kv.gather]
    exact ⟨gather_row (S.forward_disjoint c) hj howner hrange,
      gather_row (S.forward_disjoint c) hj howner hrange⟩

/-- No exchange changes the rows that SP rank 0 writes itself. -/
theorem afterSync_own (c : ForwardCall) (kv : Nat → Kv β) (hpp : pp < S.t.ppSize)
    (htp : tp < S.t.tpSize) (hq : q < S.seqLen) (hown : S.Own q) (hj : j < S.rowBytes) :
    (S.afterSync c kv (S.t.rankAt pp 0 tp)).k (q * S.rowBytes + j)
        = (kv (S.t.rankAt pp 0 tp)).k (q * S.rowBytes + j) ∧
      (S.afterSync c kv (S.t.rankAt pp 0 tp)).v (q * S.rowBytes + j)
        = (kv (S.t.rankAt pp 0 tp)).v (q * S.rowBytes + j) := by
  by_cases hquiet : (S.spNoShard || c.decodePhase) = true
  · rw [afterSync, if_pos hquiet]
    exact ⟨rfl, rfl⟩
  · rw [Bool.not_eq_true, Bool.or_eq_false_iff] at hquiet
    rcases afterSync_row kv hquiet.1 hquiet.2 hpp htp S.t.spSize_pos hq hj with
      ⟨owner, howner, -, hrow⟩
    have hlocal : q < S.localSeqLen := hown.resolve_left (by simp [hquiet.1])
    rw [Nat.div_eq_of_lt hlocal, or_self] at howner
    subst howner
    exact hrow

end Sync

/-! ## The rows of SP rank 0 -/

section Complete

variable {calls : List ForwardCall} {temp : Nat → Nat → Nat → Kv β} {init : Nat → Kv β}
  {i pp tp q : Nat}

theorem shift_holdsToken (temp : Nat → Nat → Nat → Kv β) (kv : Nat → Kv β)
    (htp : tp < S.t.tpSize) (hcall : calls[i]? = some c)
    (hfits : c.position + c.batchSize ≤ S.seqLen) (hown : S.Own q)
    (h : ¬c.Has q → S.HoldsToken calls temp i pp tp (kv (S.t.rankAt pp 0 tp)) q) :
    S.HoldsToken calls temp (i + 1) pp tp (S.shift c (temp i) kv (S.t.rankAt pp 0 tp)) q := by
  have hzero := (S.t.placement_rankAt pp S.t.spSize_pos htp).2.1
  by_cases hhas : c.Has q
  · have hwrites : S.kvSetup.Writes (S.t.placement (S.t.rankAt pp 0 tp)).spRank c q := by
      rw [hzero]
      exact (writes_zero_iff hfits).2 ⟨hhas, hown⟩
    refine ⟨i, c, ⟨Nat.lt_succ_self i, hcall, hhas, fun k' c' hlt hle => by omega⟩, 0,
      S.t.spSize_pos, fun j hj => ?_⟩
    exact shift_of_writes hfits (hzero.trans_lt S.t.spSize_pos) hj hwrites
  · rcases h hhas with ⟨k, c', hbrings, r, hr, hrow⟩
    refine ⟨k, c', ⟨hbrings.lt.trans (Nat.lt_succ_self i), hbrings.call, hbrings.has, ?_⟩, r, hr,
      fun j hj => ?_⟩
    · intro k' c'' hlt hle hcall' hhas'
      rcases Nat.lt_succ_iff_lt_or_eq.1 hle with hlt' | rfl
      · exact hbrings.last k' c'' hlt hlt' hcall' hhas'
      · exact hhas (Option.some.inj (hcall.symm.trans hcall') ▸ hhas')
    · have hnot : ¬S.kvSetup.Writes (S.t.placement (S.t.rankAt pp 0 tp)).spRank c q := by
        rw [hzero]
        exact fun hwrites => hhas (hwrites.has S.t.spSize_pos hfits)
      have hkept := shift_of_not_writes (temp i) kv hj hnot
      exact ⟨hkept.1.trans (hrow j hj).1, hkept.2.trans (hrow j hj).2⟩

/-- Between the calls each of its own rows holds the token of its position. -/
theorem Run.own_holdsToken (hrun : S.Run cap calls temp init i kv)
    (hfits : ∀ c ∈ calls, c.position + c.batchSize ≤ S.seqLen) (hpp : pp < S.t.ppSize)
    (htp : tp < S.t.tpSize) (hown : S.Own q)
    (hhas : ∃ (k : Nat) (c : ForwardCall), k < i ∧ calls[k]? = some c ∧ c.Has q) :
    S.HoldsToken calls temp i pp tp (kv (S.t.rankAt pp 0 tp)) q := by
  induction hrun with
  | start =>
      rcases hhas with ⟨k, -, hk, -⟩
      exact absurd hk (Nat.not_lt_zero k)
  | @call i c kv kv' _ hcall hsync ih =>
      rw [sync_iff] at hsync
      subst hsync
      have hc := hfits c (List.mem_of_getElem? hcall)
      have hshift := shift_holdsToken temp kv htp hcall hc hown
        fun hnot => ih (by
          rcases hhas with ⟨k, c', hk, hcall', hhas'⟩
          rcases Nat.lt_succ_iff_lt_or_eq.1 hk with hlt | rfl
          · exact ⟨k, c', hlt, hcall', hhas'⟩
          · exact absurd (Option.some.inj (hcall.symm.trans hcall') ▸ hhas') hnot)
      rcases hshift with ⟨k, c', hbrings, r, hr, hrow⟩
      refine ⟨k, c', hbrings, r, hr, fun j hj => ?_⟩
      have hq : q < S.seqLen :=
        hbrings.has.2.trans_le (hfits c' (List.mem_of_getElem? hbrings.call))
      have hkept := afterSync_own c (S.shift c (temp i) kv) hpp htp hq hown hj
      exact ⟨hkept.1.trans (hrow j hj).1, hkept.2.trans (hrow j hj).2⟩

/-! ## Rows that rank 0 drops -/

/-- The exchange always ends, so the run reaches every call. -/
theorem exists_run (S : SpSetup) (cap : Port → Nat) (calls : List ForwardCall)
    (temp : Nat → Nat → Nat → Kv β) (init : Nat → Kv β) {n : Nat} (hn : n ≤ calls.length) :
    ∃ kv, S.Run cap calls temp init n kv := by
  induction n with
  | zero => exact ⟨init, .start⟩
  | succ n ih =>
      rcases ih (Nat.le_of_succ_le hn) with ⟨kv, hrun⟩
      exact ⟨_, .call hrun (List.getElem?_eq_getElem hn) (sync_iff.2 rfl)⟩

/-- While the nodes compute the byte `x` only, the rows of the group hold nothing else. -/
theorem Run.constant {x : β} (hrun : S.Run cap calls temp init i kv)
    (hshard : S.spNoShard = false)
    (hfits : ∀ c ∈ calls, c.position + c.batchSize ≤ S.seqLen)
    (hinit : ∀ node a, (init node).k a = x)
    (htemp : ∀ k, k < i → ∀ node b a, (temp k node b).k a = x)
    (hpp : pp < S.t.ppSize) (htp : tp < S.t.tpSize) {r j : Nat} (hr : r < S.t.spSize)
    (hq : q < S.seqLen) (hj : j < S.rowBytes) :
    (kv (S.t.rankAt pp r tp)).k (q * S.rowBytes + j) = x := by
  induction hrun generalizing r with
  | start => exact hinit _ _
  | @call i c kv kv' _ hcall hsync ih =>
      rw [sync_iff] at hsync
      subst hsync
      have hc := hfits c (List.mem_of_getElem? hcall)
      have hshift : ∀ r, r < S.t.spSize →
          (S.shift c (temp i) kv (S.t.rankAt pp r tp)).k (q * S.rowBytes + j) = x := by
        intro r hr
        have hrank := (S.t.placement_rankAt pp hr htp).2.1
        by_cases hwrites :
            S.kvSetup.Writes (S.t.placement (S.t.rankAt pp r tp)).spRank c q
        · rw [(shift_of_writes hc (hrank.trans_lt hr) hj hwrites).1]
          exact htemp i (Nat.lt_succ_self i) _ _ _
        · rw [(shift_of_not_writes _ _ hj hwrites).1]
          exact ih (fun k hk => htemp k (hk.trans (Nat.lt_succ_self i))) hr
      by_cases hdecode : c.decodePhase = true
      · simpa [afterSync, hdecode] using hshift r hr
      · rw [Bool.not_eq_true] at hdecode
        rcases afterSync_row (S.shift c (temp i) kv) hshard hdecode hpp htp hr hq hj with
          ⟨owner, -, howner, hrow, -⟩
        rw [hrow]
        exact hshift owner howner

end Complete

/-- Rank 0 drops the row of a decoded token beyond its part of the sequence. -/
theorem not_decodeComplete (cap : Port → Nat) (R : Request S.seqLen)
    (hshard : S.spNoShard = false) (hc : c ∈ R.calls) (hdecode : c.decodePhase = true)
    (hfar : S.localSeqLen < c.position + c.batchSize) : ¬S.DecodeComplete cap R.calls := by
  intro hcomplete
  rcases List.getElem?_of_mem hc with ⟨i, hcall⟩
  -- the call computes ones, everything before it zeros
  let temp : Nat → Nat → Nat → Kv UInt8 := fun k _ _ =>
    if k = i then ⟨fun _ => 1, fun _ => 1⟩ else ⟨fun _ => 0, fun _ => 0⟩
  let init : Nat → Kv UInt8 := fun _ => ⟨fun _ => 0, fun _ => 0⟩
  have hi : i ≤ R.calls.length := (List.getElem?_eq_some_iff.1 hcall).1.le
  rcases S.exists_run cap R.calls temp init hi with ⟨kv, hrun⟩
  have hbatch := R.batch_pos c hc
  have hfits := R.fits c hc
  have hlast : c.Has (c.position + c.batchSize - 1) := ⟨by omega, by omega⟩
  have hzero := (S.t.placement_rankAt 0 S.t.spSize_pos S.t.tpSize_pos).2.1
  have hbytes : 0 < S.rowBytes := S.kvSetup.rowBytes_pos
  rcases hcomplete temp init i kv c hrun hcall hdecode 0 0 S.t.ppSize_pos S.t.tpSize_pos _ hlast _
    le_rfl with ⟨k, c', hbrings, r, hr, hrow⟩
  obtain rfl : k = i := by
    by_contra hne
    have hlt := hbrings.lt
    exact hbrings.last i c (by omega) (Nat.lt_succ_self i) hcall hlast
  have hone := (hrow 0 hbytes).1
  have hnot : ¬S.kvSetup.Writes (S.t.placement (S.t.rankAt 0 0 0)).spRank c
      (c.position + c.batchSize - 1) := by
    rw [hzero, writes_zero_iff hfits]
    rintro ⟨-, hbad | hown⟩
    · rw [hshard] at hbad
      cases hbad
    · omega
  rw [(shift_of_not_writes _ _ hbytes hnot).1, hrun.constant (x := 0) hshard R.fits (fun _ _ => rfl)
    (fun k' hk' _ _ _ => by simp [temp, hk'.ne]) S.t.ppSize_pos S.t.tpSize_pos S.t.spSize_pos
    (by omega) hbytes] at hone
  simp [temp] at hone

/-- The cache of SP rank 0 is complete in every run of a request exactly if nothing is sharded or
no token is decoded beyond the rank's own part of the sequence. -/
theorem decodeComplete_iff (S : SpSetup) (R : Request S.seqLen) (cap : Port → Nat) :
    S.DecodeComplete cap R.calls ↔
      S.spNoShard = true ∨
        ∀ c ∈ R.calls, c.decodePhase = true → c.position + c.batchSize ≤ S.localSeqLen := by
  constructor
  · intro hcomplete
    by_cases hshard : S.spNoShard = true
    · exact .inl hshard
    · refine .inr fun c hc hdecode => ?_
      by_contra hfar
      exact not_decodeComplete cap R (by simpa using hshard) hc hdecode (Nat.lt_of_not_le hfar)
        hcomplete
  · intro hshort temp init i kv c hrun hcall hdecode pp tp hpp htp pos hpos q hq
    have hc := List.mem_of_getElem? hcall
    have hown : S.Own q := by
      refine hshort.imp_right fun h => ?_
      have hend := h c hc hdecode
      exact (Nat.lt_of_le_of_lt hq hpos.2).trans_le hend
    apply shift_holdsToken temp kv htp hcall (R.fits c hc) hown
    intro hnot
    apply hrun.own_holdsToken R.fits hpp htp hown
    have hbefore : q < c.position := by
      by_contra hle
      exact hnot ⟨Nat.le_of_not_lt hle, Nat.lt_of_le_of_lt hq hpos.2⟩
    exact R.gapless i c hcall q hbefore

private theorem twoHalves_nNodes : 2 = 1 * 2 * 1 := rfl

private theorem twoHalves_kvDim : 0 < 1 / 1 := by decide

private theorem twoHalves_seqLen : 4 % 2 = 0 ∧ 4 < 2 ^ 32 := by decide

/-- Two ranks, each with half of a sequence of 4 positions. -/
def twoHalves : SpSetup where
  t := ⟨2, 1, 2, 1, Nat.one_pos, Nat.two_pos, Nat.one_pos, twoHalves_nNodes⟩
  kvDim := 1
  seqLen := 4
  spNoShard := false
  strictKvAffinity := true
  allowKvMigration := false
  two_le := Nat.le_refl 2
  kvDim_pos := twoHalves_kvDim
  seqLen_mod := twoHalves_seqLen.1
  seqLen_lt := twoHalves_seqLen.2

private theorem threeTokenRequest_cap : 0 < 32 := by decide

private theorem threeTokenRequest_fits :
    schedTotal false 2 ≤ twoHalves.seqLen ∧ 3 ≤ twoHalves.seqLen := by decide

/-- A prompt of 3 tokens: a chunk of two and the last token, decoded at position 2. -/
def threeTokenRequest : Request twoHalves.seqLen :=
  inferenceRequest false false 2 32 3 threeTokenRequest_cap threeTokenRequest_fits.1
    threeTokenRequest_fits.2

/-- Position 2 belongs to rank 1, so rank 0 has not even the row of the token it decodes. -/
theorem not_decodeComplete_third_token :
    ¬twoHalves.DecodeComplete (fun _ => 0) threeTokenRequest.calls :=
  not_decodeComplete (c := ⟨2, 1, true, true⟩) _ threeTokenRequest rfl (by decide) rfl
    (by decide)

end SpSetup

end Pipeline
end PrefillOpt
