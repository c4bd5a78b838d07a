import PrefillOpt.ContextParallel
import PrefillOpt.Pipeline.Inference
import PrefillOpt.Pipeline.StageSkip

/-!
# Pipeline.SkippedKv — the cache rows of a stage that skips tokens

A forward writes the keys and values of its batch into every layer of the stage, and its attention
reads the rows of all earlier positions.  A stage that skips a token runs no forward for it, so the
row of that token stays unwritten.  The row is read as soon as the stage runs a later token.

The cells of a cache are `true` where the current request has written them.  Pruning of rows is
left out: only the root may turn it on.
-/

namespace PrefillOpt
namespace Pipeline

open Lib Network

/-! ## The caches of a stage -/

/-- What the caches depend on. -/
structure KvSetup where
  ppSize : Nat
  tpSize : Nat
  spSize : Nat
  seqLen : Nat
  kvDim : Nat
  /-- `DLLAMA_SP_NOSHARD` -/
  spNoShard : Bool
  cpSplit : Bool
  /-- The layers whose attention a stage runs. -/
  layers : Nat → List Nat
  spSize_pos : 0 < spSize
  tpSize_pos : 0 < tpSize
  kvDim_pos : 0 < kvDim / tpSize
  /-- `sliceKvCache` asserts it. -/
  seqLen_mod : seqLen % spSize = 0
  seqLen_lt : seqLen < 2 ^ 32

namespace KvSetup

variable (K : KvSetup)

def slice (spRank : Nat) : NnKvCacheSlice :=
  if K.spNoShard then kvCacheSlice K.kvDim K.seqLen K.tpSize 1 0
  else kvCacheSlice K.kvDim K.seqLen K.tpSize K.spSize spRank

def rowState (spRank : Nat) : CpuRowState :=
  if K.cpSplit then ⟨0, K.spSize, spRank⟩ else ⟨0, 1, 0⟩

/-- The bytes of a row of the node's heads. -/
def rowBytes : Nat := getBytes .f32 (K.kvDim / K.tpSize)

/-- The value of the position pipe for a row of the batch. -/
def indexes (c : ForwardCall) (b : Nat) : Nat := (contiguous c.position c.batchSize).getD b 0

/-- The rows of the batch that a node writes. -/
def writtenRows (spRank : Nat) (c : ForwardCall) : List Nat :=
  shiftRows (K.rowState spRank) (shiftConfigOf (K.slice spRank)) c.batchSize (indexes c)

/-- Both shift ops of a layer. -/
def shiftKv (spRank : Nat) (kv : Kv Bool) (c : ForwardCall) : Kv Bool where
  k := shiftForward (K.rowState spRank) (shiftConfigOf (K.slice spRank)) c.batchSize (indexes c)
    K.rowBytes (fun _ _ => true) kv.k
  v := shiftForward (K.rowState spRank) (shiftConfigOf (K.slice spRank)) c.batchSize (indexes c)
    K.rowBytes (fun _ _ => true) kv.v

/-- The cache of one layer on the node of one rank after its forwards. -/
def kvAfter (spRank : Nat) (forwards : List ForwardCall) : Kv Bool :=
  forwards.foldl (K.shiftKv spRank) ⟨fun _ => false, fun _ => false⟩

/-- The whole row of a position is written. -/
def RowWritten (kv : Kv Bool) (q : Nat) : Prop :=
  ∀ j, j < K.rowBytes → kv.k (q * K.rowBytes + j) = true ∧ kv.v (q * K.rowBytes + j) = true

end KvSetup

/-! ## Stages that skip -/

/-- The target leaves out the forward of a single token in decode that was accepted. -/
def skips (calls : List ForwardCall) (accepted : Nat → Bool) (i : Nat) : Bool :=
  match calls[i]? with
  | some c => c.decodeSingle && accepted i
  | none => false

/-- A stage runs the forward of call `i`. -/
def runs (target : Nat) (calls : List ForwardCall) (accepted : Nat → Bool) (r i : Nat) : Bool :=
  !(r == target && skips calls accepted i)

/-- The forwards a stage has run when it is at call `i`, in order. -/
def forwards (target : Nat) (calls : List ForwardCall) (accepted : Nat → Bool) (r i : Nat) :
    List ForwardCall :=
  ((List.range (i + 1)).filter (runs target calls accepted r)).filterMap fun k => calls[k]?

/-- Whenever a stage runs its attention, every row it reads was written by the stage for the
request: on one of the nodes that share its sequence. -/
def NeverReadsUnwritten (K : KvSetup) (target : Nat) (calls : List ForwardCall)
    (accepted : Nat → Bool) : Prop :=
  ∀ r, r < K.ppSize → ∀ (i : Nat) (c : ForwardCall), calls[i]? = some c →
    runs target calls accepted r i = true → ∀ layer ∈ K.layers r, ∀ pos, c.Has pos →
      ∀ q, q ≤ pos → ∃ spRank, spRank < K.spSize ∧
        K.RowWritten (K.kvAfter spRank (forwards target calls accepted r i)) q

/-! ## Rows and forwards -/

namespace KvSetup

variable {K : KvSetup} {c : ForwardCall} {spRank : Nat}

theorem indexes_eq (hfits : c.position + c.batchSize ≤ K.seqLen) {b : Nat} (hb : b < c.batchSize) :
    indexes c b = c.position + b := by
  have hlt := K.seqLen_lt
  have hmod : (c.position + b) % 2 ^ 32 = c.position + b := Nat.mod_eq_of_lt (by omega)
  simpa [indexes, contiguous, List.getD_eq_getElem?_getD, hb] using hmod

theorem rowBytes_pos (K : KvSetup) : 0 < K.rowBytes :=
  Nat.mul_pos K.kvDim_pos (by decide)

theorem lt_batchSize_of_mem (hrank : spRank < K.spSize) {b : Nat}
    (hb : b ∈ K.writtenRows spRank c) : b < c.batchSize := by
  have hwindow := (mem_shiftRows.mp hb).1.2
  have hlt : (K.rowState spRank).cpRank < (K.rowState spRank).cpSize := by
    unfold rowState
    split_ifs
    · exact hrank
    · exact Nat.one_pos
  have hactive : activeRowCount (K.rowState spRank) c.batchSize = c.batchSize := by
    apply activeRowCount_eq_batchSize
    left
    unfold rowState
    split_ifs <;> rfl
  exact hactive ▸ lt_activeRowCount_of_lt_window hlt hwindow

/-- A node writes the position in a call. -/
def Writes (K : KvSetup) (spRank : Nat) (c : ForwardCall) (q : Nat) : Prop :=
  ∃ b ∈ K.writtenRows spRank c, indexes c b = q

theorem Writes.has (hrank : spRank < K.spSize) (hfits : c.position + c.batchSize ≤ K.seqLen)
    {q : Nat} (h : K.Writes spRank c q) : c.Has q := by
  rcases h with ⟨b, hb, rfl⟩
  have hlt := lt_batchSize_of_mem hrank hb
  rw [indexes_eq hfits hlt]
  exact ⟨Nat.le_add_right _ _, Nat.add_lt_add_left hlt _⟩

/-- Without a row window the whole batch is looked at, and the guard decides. -/
theorem writes_of_guard (hcp : (K.rowState spRank).cpSize ≤ 1)
    (hfits : c.position + c.batchSize ≤ K.seqLen) {q : Nat} (hq : c.Has q)
    (hguard : (K.slice spRank).localSeqStart ≤ q ∧
      q < (K.slice spRank).localSeqStart + (K.slice spRank).localSeqLen) :
    K.Writes spRank c q := by
  rcases hq with ⟨hle, hlt⟩
  have hb : q - c.position < c.batchSize := by omega
  have hindex : indexes c (q - c.position) = q := by
    rw [indexes_eq hfits hb]
    omega
  have hactive : (K.rowState spRank).activeRows = 0 := by
    unfold rowState
    split_ifs <;> rfl
  refine ⟨q - c.position, mem_shiftRows.mpr ⟨?_, ?_⟩, hindex⟩
  · rw [cpRowWindow_eq, if_pos (.inl hcp), activeRowCount_eq_batchSize (.inl hactive)]
    exact ⟨Nat.zero_le _, by simpa using hb⟩
  · rw [hindex]
    unfold shiftWrites
    split_ifs
    · exact decide_eq_true hguard
    · rfl

/-- Some node of the stage writes each position of the batch. -/
theorem exists_writes (hfits : c.position + c.batchSize ≤ K.seqLen) {q : Nat} (hq : c.Has q) :
    ∃ spRank, spRank < K.spSize ∧ K.Writes spRank c q := by
  have hseq : q < K.seqLen := hq.2.trans_le hfits
  by_cases hcp : K.cpSplit = true ∧ 2 ≤ K.spSize
  · -- the window of some rank has the row, and the guard is off
    have hb : q - c.position < c.batchSize := by
      have := hq.1
      have := hq.2
      omega
    have hindex : indexes c (q - c.position) = q := by
      rw [indexes_eq hfits hb]
      have := hq.1
      omega
    obtain ⟨r, hr, hle, hlt⟩ : ∃ r, r < K.spSize ∧
        (cpRowWindow (K.rowState r) c.batchSize).1 ≤ q - c.position ∧
        q - c.position < (cpRowWindow (K.rowState r) c.batchSize).1
          + (cpRowWindow (K.rowState r) c.batchSize).2 := by
      have hstate : ∀ r, K.rowState r = ⟨0, K.spSize, r⟩ := fun r => if_pos hcp.1
      have hactive : ∀ r, activeRowCount ⟨0, K.spSize, r⟩ c.batchSize = c.batchSize := fun r =>
        activeRowCount_eq_batchSize (.inl rfl)
      by_cases hshort : c.batchSize < K.spSize
      · refine ⟨0, K.spSize_pos, ?_⟩
        rw [hstate, cpRowWindow_eq, hactive, if_pos (.inr hshort)]
        exact ⟨Nat.zero_le _, by simpa using hb⟩
      · rcases exists_block (m := c.batchSize) K.spSize_pos hb with ⟨r, hr, hblock⟩
        refine ⟨r, hr, ?_⟩
        rw [hstate, cpRowWindow_eq, hactive, if_neg (by simp only; omega), blockRows_eq]
        exact hblock
    refine ⟨r, hr, q - c.position, mem_shiftRows.mpr ⟨⟨hle, hlt⟩, ?_⟩, hindex⟩
    have hsize : ¬ (K.rowState r).cpSize ≤ 1 := by
      simp only [rowState, if_pos hcp.1]
      omega
    simp [shiftWrites, hsize]
  · have hsize : ∀ r, (K.rowState r).cpSize ≤ 1 := by
      intro r
      unfold rowState
      split_ifs with hsplit
      · simp only
        by_contra hbig
        exact hcp ⟨hsplit, by omega⟩
      · exact le_rfl
    by_cases hshard : K.spNoShard = true
    · refine ⟨0, K.spSize_pos, writes_of_guard (hsize 0) hfits hq ?_⟩
      simpa [slice, if_pos hshard, kvCacheSlice] using hseq
    · -- the rank whose part of the sequence has the position
      have hdiv : K.seqLen / K.spSize * K.spSize = K.seqLen :=
        Nat.div_mul_cancel (Nat.dvd_of_mod_eq_zero K.seqLen_mod)
      have hpos : 0 < K.seqLen / K.spSize := by
        by_contra hzero
        rw [Nat.eq_zero_of_not_pos hzero, Nat.zero_mul] at hdiv
        omega
      have hrank : q / (K.seqLen / K.spSize) < K.spSize := by
        rw [Nat.div_lt_iff_lt_mul hpos, Nat.mul_comm, hdiv]
        exact hseq
      refine ⟨q / (K.seqLen / K.spSize), hrank, writes_of_guard (hsize _) hfits hq ?_⟩
      simp only [slice, if_neg hshard, kvCacheSlice]
      exact ⟨Nat.div_mul_le_self q _, Nat.lt_div_mul_add hpos⟩

/-! ## What the forwards leave in the cache -/

theorem rowWritten_shiftKv (hrank : spRank < K.spSize)
    (hfits : c.position + c.batchSize ≤ K.seqLen) (kv : Kv Bool) (q : Nat) :
    K.RowWritten (K.shiftKv spRank kv c) q ↔ K.Writes spRank c q ∨ K.RowWritten kv q := by
  by_cases hw : K.Writes spRank c q
  · refine iff_of_true (fun j hj => ?_) (.inl hw)
    rcases hw with ⟨b, hb, rfl⟩
    have huniq : ∀ b' ∈ K.writtenRows spRank c, indexes c b' = indexes c b → b' = b := by
      intro b' hb' heq
      rw [indexes_eq hfits (lt_batchSize_of_mem hrank hb'),
        indexes_eq hfits (lt_batchSize_of_mem hrank hb)] at heq
      omega
    exact ⟨shiftForward_of_mem hb huniq hj, shiftForward_of_mem hb huniq hj⟩
  · have hnot : ∀ b ∈ K.writtenRows spRank c, indexes c b ≠ q := fun b hb heq => hw ⟨b, hb, heq⟩
    have hkeep : ∀ j, j < K.rowBytes →
        (K.shiftKv spRank kv c).k (q * K.rowBytes + j) = kv.k (q * K.rowBytes + j) ∧
        (K.shiftKv spRank kv c).v (q * K.rowBytes + j) = kv.v (q * K.rowBytes + j) := fun j hj =>
      ⟨shiftForward_of_not_mem hnot hj, shiftForward_of_not_mem hnot hj⟩
    constructor
    · exact fun h => .inr fun j hj => by
        rw [← (hkeep j hj).1, ← (hkeep j hj).2]
        exact h j hj
    · rintro (hbad | h)
      · exact absurd hbad hw
      · intro j hj
        rw [(hkeep j hj).1, (hkeep j hj).2]
        exact h j hj

/-- A row is written exactly if one of the forwards wrote it. -/
theorem rowWritten_kvAfter (hrank : spRank < K.spSize) {forwards : List ForwardCall}
    (hfits : ∀ c ∈ forwards, c.position + c.batchSize ≤ K.seqLen) (q : Nat) :
    K.RowWritten (K.kvAfter spRank forwards) q ↔ ∃ c ∈ forwards, K.Writes spRank c q := by
  have hfold : ∀ kv : Kv Bool, K.RowWritten (forwards.foldl (K.shiftKv spRank) kv) q ↔
      (∃ c ∈ forwards, K.Writes spRank c q) ∨ K.RowWritten kv q := by
    induction forwards with
    | nil => simp
    | cons c cs ih =>
        intro kv
        rw [List.foldl_cons, ih fun c hc => hfits c (List.mem_cons_of_mem _ hc),
          rowWritten_shiftKv hrank (hfits c List.mem_cons_self)]
        simp only [List.mem_cons, exists_eq_or_imp]
        rw [or_left_comm, or_assoc]
  have hempty : ¬ K.RowWritten ⟨fun _ => false, fun _ => false⟩ q := fun h =>
    Bool.false_ne_true (h 0 K.rowBytes_pos).1
  exact (hfold _).trans (or_iff_left hempty)

/-- A row is written on some node of the stage exactly if it is in the batch of a forward. -/
theorem stage_written_iff {forwards : List ForwardCall}
    (hfits : ∀ c ∈ forwards, c.position + c.batchSize ≤ K.seqLen) (q : Nat) :
    (∃ spRank, spRank < K.spSize ∧ K.RowWritten (K.kvAfter spRank forwards) q) ↔
      ∃ c ∈ forwards, c.Has q := by
  constructor
  · rintro ⟨spRank, hrank, hwritten⟩
    rcases (rowWritten_kvAfter hrank hfits q).mp hwritten with ⟨c, hc, hw⟩
    exact ⟨c, hc, hw.has hrank (hfits c hc)⟩
  · rintro ⟨c, hc, hhas⟩
    rcases exists_writes (hfits c hc) hhas with ⟨spRank, hrank, hw⟩
    exact ⟨spRank, hrank, (rowWritten_kvAfter hrank hfits q).mpr ⟨c, hc, hw⟩⟩

end KvSetup

/-! ## Forwards that are run -/

section Runs

variable {seqLen target : Nat} {accepted : Nat → Bool}

theorem mem_forwards {calls : List ForwardCall} {r i : Nat} {c : ForwardCall} :
    c ∈ forwards target calls accepted r i ↔
      ∃ k, k ≤ i ∧ runs target calls accepted r k = true ∧ calls[k]? = some c := by
  simp only [forwards, List.mem_filterMap, List.mem_filter, List.mem_range, Nat.lt_succ_iff,
    and_assoc]

theorem runs_of_ne {calls : List ForwardCall} {r : Nat} (h : r ≠ target) (i : Nat) :
    runs target calls accepted r i = true := by
  simp [runs, h]

theorem runs_target {calls : List ForwardCall} (i : Nat) :
    runs target calls accepted target i = !skips calls accepted i := by
  simp [runs]

theorem decodeSingle_of_skips {calls : List ForwardCall} {i : Nat}
    (h : skips calls accepted i = true) :
    ∃ c, calls[i]? = some c ∧ c.decodePhase = true ∧ c.batchSize = 1 := by
  unfold skips at h
  split at h
  case h_2 => cases h
  case h_1 c hc =>
  simp only [ForwardCall.decodeSingle, Bool.and_eq_true, beq_iff_eq] at h
  exact ⟨c, hc, h.1⟩

namespace Request

variable (R : Request seqLen)

/-- The target never runs a call after one it has skipped, unless a chunk before that one had its
row already. -/
def SkipsToTheEnd (accepted : Nat → Bool) : Prop :=
  ∀ (i j : Nat) (c : ForwardCall), i < j → j < R.calls.length → R.calls[i]? = some c →
    skips R.calls accepted i = true → skips R.calls accepted j = false →
      ∃ (k : Nat) (c' : ForwardCall), k < i ∧ R.calls[k]? = some c' ∧ c'.decodePhase = false ∧
        c'.Has c.position

variable {R}

theorem forwards_fit (r i : Nat) :
    ∀ c ∈ forwards target R.calls accepted r i, c.position + c.batchSize ≤ seqLen := by
  intro c hc
  rcases mem_forwards.mp hc with ⟨k, -, -, hk⟩
  exact R.fits c (List.mem_of_getElem? hk)

/-- Every row that a call reads is in its own batch or in that of an earlier one. -/
theorem read_covered {i pos q : Nat} {c : ForwardCall} (hc : R.calls[i]? = some c)
    (hpos : c.Has pos) (hq : q ≤ pos) :
    ∃ (k : Nat) (c' : ForwardCall), k ≤ i ∧ R.calls[k]? = some c' ∧ c'.Has q := by
  by_cases hown : c.position ≤ q
  · exact ⟨i, c, le_rfl, hc, hown, hq.trans_lt hpos.2⟩
  · rcases R.gapless i c hc q (Nat.not_le.mp hown) with ⟨j, c', hj, hc', hhas⟩
    exact ⟨j, c', hj.le, hc', hhas⟩

/-- A call that has the position of a decoded token comes before it and is a chunk. -/
theorem before_of_has {i k : Nat} {c c' : ForwardCall} (hc : R.calls[i]? = some c)
    (hphase : c.decodePhase = true) (hone : c.batchSize = 1) (hc' : R.calls[k]? = some c')
    (hhas : c'.Has c.position) (hne : k ≠ i) : k < i ∧ c'.decodePhase = false := by
  have hki : k < i := by
    by_contra hnot
    have hadv := R.advancing i k c c' (by omega) hc hc' hphase
    have := hhas.1
    omega
  refine ⟨hki, ?_⟩
  by_contra hdec
  have hadv := R.advancing k i c' c hki hc' hc (by simpa using hdec)
  have := hhas.2
  omega

end Request

end Runs

/-! ## When no unwritten row is read -/

section Result

variable {K : KvSetup} {R : Request K.seqLen} {target : Nat} {accepted : Nat → Bool}

/-- A stage with attention that comes back from a skipped token reads the row of that token. -/
theorem skipsToTheEnd_of_never_reads (htarget : target < K.ppSize) (hlayers : K.layers target ≠ [])
    (h : NeverReadsUnwritten K target R.calls accepted) : R.SkipsToTheEnd accepted := by
  intro i j c hij hj hc hskip hrun
  obtain ⟨layer, hlayer⟩ := List.exists_mem_of_ne_nil _ hlayers
  rcases decodeSingle_of_skips hskip with ⟨c₁, hc₁, hphase, hone⟩
  cases hc.symm.trans hc₁
  obtain ⟨d, hd⟩ : ∃ d, R.calls[j]? = some d := ⟨_, List.getElem?_eq_getElem hj⟩
  have hadv := R.advancing i j c d hij hc hd hphase
  have hbatch := R.batch_pos d (List.mem_of_getElem? hd)
  have hruns : runs target R.calls accepted target j = true := by
    rw [runs_target, hrun]
    rfl
  have hread := h target htarget j d hd hruns layer hlayer d.position
    ⟨le_rfl, by omega⟩ c.position (by omega)
  rcases (KvSetup.stage_written_iff (R.forwards_fit target j) _).mp hread with ⟨c', hmem, hhas⟩
  rcases mem_forwards.mp hmem with ⟨k, -, hrun', hc'⟩
  have hne : k ≠ i := by
    rintro rfl
    rw [runs_target, hskip] at hrun'
    cases hrun'
  rcases R.before_of_has hc hphase hone hc' hhas hne with ⟨hki, hchunk⟩
  exact ⟨k, c', hki, hc', hchunk, hhas⟩

theorem never_reads_of_skipsToTheEnd (h : K.layers target = [] ∨ R.SkipsToTheEnd accepted) :
    NeverReadsUnwritten K target R.calls accepted := by
  intro r hr i c hc hrun layer hlayer pos hpos q hq
  rw [KvSetup.stage_written_iff (R.forwards_fit r i)]
  rcases R.read_covered hc hpos hq with ⟨k, c', hk, hc', hhas⟩
  by_cases hruns : runs target R.calls accepted r k = true
  · exact ⟨c', mem_forwards.mpr ⟨k, hk, hruns, hc'⟩, hhas⟩
  -- the row is that of a token the target has skipped before it came back
  have hrt : r = target := by
    by_contra hne
    exact hruns (runs_of_ne hne k)
  subst hrt
  rw [runs_target] at hruns hrun
  have hskip : skips R.calls accepted k = true := by simpa using hruns
  have hrun' : skips R.calls accepted i = false := by simpa using hrun
  have hki : k < i := by
    rcases Nat.lt_or_eq_of_le hk with hlt | rfl
    · exact hlt
    · cases hskip.symm.trans hrun'
  rcases h with hnone | hend
  · rw [hnone] at hlayer
    cases hlayer
  rcases decodeSingle_of_skips hskip with ⟨c₁, hc₁, -, hone⟩
  cases hc'.symm.trans hc₁
  rcases hend k i c' hki (List.getElem?_eq_some_iff.mp hc).1 hc' hskip hrun' with
    ⟨l, d, hl, hd, hchunk, hhas'⟩
  have hq' : q = c'.position := by
    have := hhas.1
    have := hhas.2
    omega
  have hchunkRuns : runs r R.calls accepted r l = true := by
    rw [runs_target]
    simp [skips, hd, ForwardCall.decodeSingle, hchunk]
  exact ⟨d, mem_forwards.mpr ⟨l, by omega, hchunkRuns, hd⟩, hq' ▸ hhas'⟩

/-- The stages read only rows they have written, if and only if the target runs no attention or
never comes back from a skipped token whose row is not in a chunk. -/
theorem never_reads_unwritten_iff (K : KvSetup) (R : Request K.seqLen) {target : Nat}
    (htarget : target < K.ppSize) (accepted : Nat → Bool) :
    NeverReadsUnwritten K target R.calls accepted ↔
      K.layers target = [] ∨ R.SkipsToTheEnd accepted := by
  constructor
  · intro h
    by_cases hlayers : K.layers target = []
    · exact .inl hlayers
    · exact .inr (skipsToTheEnd_of_never_reads htarget hlayers h)
  · exact never_reads_of_skipsToTheEnd

end Result

private theorem eight_div_pos : 0 < 8 / 1 := by decide

private theorem seqLen_mod_one : 64 % 1 = 0 := rfl

private theorem seqLen_lt_word : 64 < 2 ^ 32 := by decide

/-- Four stages of two layers, one node each. -/
def fourStagesKv : KvSetup where
  ppSize := 4
  tpSize := 1
  spSize := 1
  seqLen := 64
  kvDim := 8
  spNoShard := false
  cpSplit := false
  layers r := [2 * r, 2 * r + 1]
  spSize_pos := Nat.one_pos
  tpSize_pos := Nat.one_pos
  kvDim_pos := eight_div_pos
  seqLen_mod := seqLen_mod_one
  seqLen_lt := seqLen_lt_word

private theorem threeTokens_cap : 0 < 32 := by decide

private theorem threeTokens_sched : schedTotal false 7 ≤ fourStagesKv.seqLen := by decide

private theorem threeTokens_max : 10 ≤ fourStagesKv.seqLen := by decide

/-- A prompt of eight tokens in one chunk, then three tokens are decoded. -/
def threeTokens : Request fourStagesKv.seqLen :=
  inferenceRequest false false 7 32 10 threeTokens_cap threeTokens_sched threeTokens_max

theorem threeTokens_calls : threeTokens.calls =
    [⟨0, 7, false, true⟩, ⟨7, 1, true, true⟩, ⟨8, 1, true, true⟩, ⟨9, 1, true, true⟩] := by
  decide

/-- The second token is accepted and the third is not. -/
def secondAccepted (i : Nat) : Bool := i == 2

theorem never_reads_unwritten_iff_first_two :
    2 < fourStagesKv.ppSize ∧
    (NeverReadsUnwritten fourStagesKv 2 threeTokens.calls (fun _ => false) ↔
      fourStagesKv.layers 2 = [] ∨ threeTokens.SkipsToTheEnd fun _ => false) :=
  ⟨by decide, never_reads_unwritten_iff fourStagesKv threeTokens (by decide) fun _ => false⟩

/-! ## The decisions are those of a run -/

section Decisions

variable {F : Type} [Zero F] [One F] [LE F] [DecidableLE F] [LT F] [DecidableLT F] [NatCast F]
  [Div F]

/-- In every run with stage skipping the header that makes a stage leave its forward out comes for
the accepted tokens, to the target. -/
theorem marker_iff_accepted {S : SkipSetup F} {worker : Nat → WorkerLlmInference F}
    (hready : S.Ready worker) {s : SkipState F}
    (hreach : Relation.ReflTransGen S.SkipStep (S.start worker) s) {r j : Nat} (hr : 1 ≤ r)
    (hr' : r < S.ppSize) {h : StageHeader} (hj : (s.stage r).consumed[j]? = some h) :
    (r = S.target ∧ hasFlag h.flags PIPELINE_FLAG_STAGE_SKIP_BYPASS = true ∧ h.payloadBytes = 0) ↔
      r = S.target ∧ (s.verdicts S)[j]? = some true := by
  have htaken := ((SkipInv.start hready).run hreach).2.taken r hr hr' j h hj
  constructor
  · rintro ⟨hrt, -, hbytes⟩
    rw [if_pos hrt] at htaken
    rcases htaken with ⟨hv, -⟩ | ⟨-, hrow⟩
    · exact ⟨hrt, hv⟩
    · have := S.xPipe_bytes
      have := hrow.payloadBytes
      omega
  · rintro ⟨hrt, hv⟩
    rw [if_pos hrt] at htaken
    rcases htaken with ⟨-, hmarker⟩ | ⟨hv', -⟩
    · exact ⟨hrt, hmarker.bypass, hmarker.payloadBytes⟩
    · cases hv.symm.trans hv'

end Decisions

/-- The three tokens in the four stages: the second is accepted, and the bound on accepts in a row
rejects the third. -/
def threeTokenSetup : SkipSetup Nat := { fourStages with nTokens := 3 }

theorem threeTokenSetup_verdicts :
    ((threeTokenSetup.runActions (threeTokenSetup.start fun _ => freshWorker)
      (laggingTarget ++ [.rootReceive, .writeControl 1, .writeControl 2, .writeControl 3,
        .rootSend false false, .readControl 1, .receive 1 (some 0)])).map
      fun s => s.verdicts threeTokenSetup) = some [false, true, false] := by
  decide

/-- The target runs the third token and reads the row of the second, which it has skipped. -/
theorem reads_unwritten_after_accept :
    (∃ s, Relation.ReflTransGen threeTokenSetup.SkipStep
      (threeTokenSetup.start fun _ => freshWorker) s ∧
      s.verdicts threeTokenSetup = [1, 2, 3].map secondAccepted) ∧
    ¬ NeverReadsUnwritten fourStagesKv 2 threeTokens.calls secondAccepted := by
  constructor
  · rcases Option.map_eq_some_iff.mp threeTokenSetup_verdicts with ⟨s, hs, hverdicts⟩
    exact ⟨s, runActions_reach hs, hverdicts⟩
  · intro h
    have hend := skipsToTheEnd_of_never_reads (by decide) (by decide) h
    have hskip : skips threeTokens.calls secondAccepted 2 = true := by decide
    have hrun : skips threeTokens.calls secondAccepted 3 = false := by decide
    have hsecond : threeTokens.calls[2]? = some ⟨8, 1, true, true⟩ := by decide
    rcases hend 2 3 _ (by decide) (by decide) hsecond hskip hrun with ⟨k, c, hk, hc, hchunk, hhas⟩
    -- the chunk ends before the second token
    rw [threeTokens_calls] at hc
    match k, hk with
    | 0, _ =>
        cases hc
        exact absurd hhas (by decide)
    | 1, _ =>
        cases hc
        cases hchunk

end Pipeline
end PrefillOpt
