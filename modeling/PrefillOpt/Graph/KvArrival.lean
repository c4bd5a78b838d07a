import Mathlib.Data.List.GetD
import PrefillOpt.Graph.KvOrder

/-!
# KvArrival — the key/value rows a node has while a prompt runs

A prompt runs the step list once for each chunk.  A shift adds the rows the node writes itself, an
exchange the rows of its peers, and an attention op reads every row up to its queries' positions.
-/

namespace PrefillOpt

open Network

/-- The positions whose rows come from a peer: its range, up to the largest position. -/
def Network.SpKvCall.receivedRows (c : SpKvCall) : List Nat :=
  (List.range c.actualSpSize).flatMap fun spRankPeer =>
    if spRankPeer = c.mySpRank then []
    else List.range' (c.peerRange spRankPeer).1
      (min (c.maxPos + 1) (c.peerRange spRankPeer).2 - (c.peerRange spRankPeer).1)

/-- What the steps of a chunk change: the positions of its rows, and the rows at hand. -/
structure KvArrival where
  positions : List Nat
  arrived : BufferIndex → List Nat

namespace KvArrival

def empty : KvArrival := ⟨[], fun _ => []⟩

def position (s : KvArrival) (b : Nat) : Nat := s.positions.getD b 0

def add (s : KvArrival) (buffer : BufferIndex) (rows : List Nat) : KvArrival :=
  ⟨s.positions, fun b => if b = buffer then s.arrived b ++ rows else s.arrived b⟩

/-- The call of a node's `SYNC_SP_KV` during a prompt chunk. -/
def spKvCall (s : KvArrival) (node : NnNodePlacement) (sync : NnSyncConfig) : SpKvCall :=
  ⟨node, ⟨sync.spKvLocalSeqStart, sync.spKvLocalSeqLen, sync.spKvDim0⟩, s.positions.length,
    s.position, false⟩

def sync (node : NnNodePlacement) (s : KvArrival) (sync : NnSyncConfig) : KvArrival :=
  match sync.syncType, sync.spKvBuffers with
  | .spKv, some (k, v) =>
      let rows := (s.spKvCall node sync).receivedRows
      (s.add k rows).add v rows
  | _, _ => s

/-- The process-wide row settings with the context-parallel cut off. -/
def rowState : CpuRowState := ⟨0, 1, 0⟩

/-- `keep` picks the rows that survive the pruning op; they are moved to the front. -/
def op (keep : List Nat → List Nat) (s : KvArrival) (op : NnOpConfig) : KvArrival :=
  match op.code, op.config, op.output.source with
  | .shift, .shift _ range, .buffer b =>
      s.add b ((shiftRows rowState range s.positions.length s.position).map s.position)
  | .pruneTokens, _, _ => ⟨keep s.positions, s.arrived⟩
  | _, _, _ => s

def step (node : NnNodePlacement) (keep : List Nat → List Nat) (s : KvArrival) :
    NnExecutorStep → KvArrival
  | .executeOp op => s.op keep op
  | .syncNodes syncs => syncs.foldl (sync node) s

def startChunk (s : KvArrival) (start n : Nat) : KvArrival :=
  ⟨List.range' start n, s.arrived⟩

/-- The prompt up to the end of the given chunks. -/
def prefill (node : NnNodePlacement) (keep : List Nat → List Nat) (steps : List NnExecutorStep)
    (start : Nat) (s : KvArrival) : List Nat → KvArrival
  | [] => s
  | n :: chunks =>
      prefill node keep steps (start + n)
        (steps.foldl (step node keep) (s.startChunk start n)) chunks

/-- The rows an op reads: an attention op reads all keys and values up to its queries. -/
def RowsThere (s : KvArrival) (op : NnOpConfig) : Prop :=
  match op.code, op.config with
  | .multiheadAtt, .multiHeadAtt _ _ _ _ _ _ _ _ _ _ _ _ k v _ =>
      ∀ q ∈ s.positions, ∀ p ≤ q, p ∈ s.arrived k ∧ p ∈ s.arrived v
  | _, _ => True

end KvArrival

/-- What pruning may do: drop rows, but never the last one. -/
def KeepsLast (keep : List Nat → List Nat) : Prop :=
  ∀ rows, (keep rows).Sublist rows ∧ (keep rows).getLast? = rows.getLast?

/-- In every prompt chunk, every row an attention op reads is there. -/
def AttentionRowsArrive (nBatches seqLen : Nat) (node : NnNodePlacement)
    (steps : List NnExecutorStep) : Prop :=
  ∀ keep, KeepsLast keep → ∀ chunks n,
    (∀ m ∈ chunks ++ [n], 1 ≤ m ∧ m ≤ nBatches) → (chunks ++ [n]).sum ≤ seqLen →
    ∀ l₁ l₂ op, steps = l₁ ++ .executeOp op :: l₂ →
      (l₁.foldl (KvArrival.step node keep)
        ((KvArrival.prefill node keep steps 0 .empty chunks).startChunk chunks.sum n)).RowsThere op

namespace KvArrival

variable {node : NnNodePlacement} {keep : List Nat → List Nat} {s : KvArrival}

/-! ## Steps that do not touch keys and values -/

theorem mem_add {b buffer : BufferIndex} {rows : List Nat} {p : Nat}
    (h : p ∈ (s.add buffer rows).arrived b) : p ∈ s.arrived b ∨ p ∈ rows := by
  simp only [add] at h
  split_ifs at h
  · exact List.mem_append.1 h
  · exact .inl h

theorem step_of_not_touchesKv {x : NnExecutorStep} (h : x.touchesKv = false) :
    s.step node id x = s := by
  cases x with
  | executeOp o =>
      simp only [NnExecutorStep.touchesKv, Bool.or_eq_false_iff, beq_eq_false_iff_ne] at h
      simp only [step, op]
      split
      · rename_i hcode _ _
        exact absurd hcode h.1
      · rfl
      · rfl
  | syncNodes syncs =>
      simp only [NnExecutorStep.touchesKv, List.any_eq_false, beq_iff_eq] at h
      simp only [step]
      induction syncs with
      | nil => rfl
      | cons y syncs ih =>
          have hy : sync node s y = s := by
            have hne := h y (List.mem_cons_self ..)
            unfold sync
            split
            · rename_i htype _
              exact absurd htype hne
            · rfl
          rw [List.foldl_cons, hy]
          exact ih fun z hz => h z (List.mem_cons_of_mem _ hz)

theorem foldl_step_of_not_touchesKv {l : List NnExecutorStep}
    (h : ∀ x ∈ l, x.touchesKv = false) : l.foldl (step node id) s = s := by
  induction l with
  | nil => rfl
  | cons x l ih =>
      rw [List.foldl_cons, step_of_not_touchesKv (h x (List.mem_cons_self ..))]
      exact ih fun y hy => h y (List.mem_cons_of_mem _ hy)

/-! ## No row arrives before its chunk -/

/-- All rows and positions lie below `total`. -/
structure Below (total : Nat) (s : KvArrival) : Prop where
  positions : ∀ p ∈ s.positions, p < total
  arrived : ∀ b, ∀ p ∈ s.arrived b, p < total

theorem below_empty (total : Nat) : empty.Below total where
  positions p hp := by cases hp
  arrived b p hp := by cases hp

theorem position_lt {total b : Nat} (htotal : 0 < total) (h : s.Below total) :
    s.position b < total := by
  unfold position
  rcases Nat.lt_or_ge b s.positions.length with hb | hb
  · rw [List.getD_eq_getElem _ _ hb]
    exact h.positions _ (List.getElem_mem hb)
  · rw [List.getD_eq_default _ _ hb]
    exact htotal

theorem Below.add {total : Nat} {buffer : BufferIndex} {rows : List Nat} (h : s.Below total)
    (hrows : ∀ p ∈ rows, p < total) : (s.add buffer rows).Below total where
  positions := h.positions
  arrived b p hp := by
    rcases mem_add hp with hp | hp
    · exact h.arrived b p hp
    · exact hrows p hp

theorem maxPosition_lt {positions : Nat → Nat} {total : Nat} (htotal : 0 < total)
    (h : ∀ b, positions b < total) (batchSize : Nat) : maxPosition positions batchSize < total := by
  unfold maxPosition
  refine List.foldlRecOn (motive := fun m => m < total) _ _ htotal ?_
  intro m hm b _
  split_ifs
  · exact h b
  · exact hm

theorem receivedRows_lt {c : SpKvCall} {p : Nat} (h : p ∈ c.receivedRows) : p < c.maxPos + 1 := by
  rcases List.mem_flatMap.1 h with ⟨r, -, hp⟩
  split_ifs at hp
  · cases hp
  · rcases List.mem_range'_1.1 hp with ⟨h₁, h₂⟩
    omega

theorem Below.sync {total : Nat} (htotal : 0 < total) (h : s.Below total) (y : NnSyncConfig) :
    (KvArrival.sync node s y).Below total := by
  unfold KvArrival.sync
  split
  · have hrows : ∀ p ∈ (s.spKvCall node y).receivedRows, p < total := by
      intro p hp
      have hmax : (s.spKvCall node y).maxPos < total :=
        maxPosition_lt htotal (fun b => position_lt htotal h) _
      exact (Nat.lt_succ_iff.1 (receivedRows_lt hp)).trans_lt hmax
    exact (h.add hrows).add hrows
  · exact h

theorem Below.step {total : Nat} (htotal : 0 < total) (h : s.Below total) (x : NnExecutorStep) :
    (s.step node id x).Below total := by
  cases x with
  | executeOp o =>
      simp only [KvArrival.step, op]
      split
      · refine h.add fun p hp => ?_
        rcases List.mem_map.1 hp with ⟨b, -, rfl⟩
        exact position_lt htotal h
      · exact h
      · exact h
  | syncNodes syncs =>
      exact List.foldlRecOn (motive := fun s : KvArrival => s.Below total) _ _ h
        fun s hs y _ => hs.sync htotal y

theorem Below.foldl_step {total : Nat} (htotal : 0 < total) (h : s.Below total)
    (l : List NnExecutorStep) : (l.foldl (KvArrival.step node id) s).Below total :=
  List.foldlRecOn (motive := fun s : KvArrival => s.Below total) _ _ h
    fun _ hs x _ => hs.step htotal x

theorem Below.startChunk {total : Nat} (h : s.Below total) (n : Nat) :
    (s.startChunk total n).Below (total + n) where
  positions _ hp := (List.mem_range'_1.1 hp).2
  arrived b p hp := (h.arrived b p hp).trans_le (Nat.le_add_right _ _)

/-- After some chunks only their rows are there. -/
theorem Below.prefill {steps : List NnExecutorStep} {start : Nat} {chunks : List Nat}
    (hchunks : ∀ m ∈ chunks, 1 ≤ m) (h : s.Below start) :
    (KvArrival.prefill node id steps start s chunks).Below (start + chunks.sum) := by
  induction chunks generalizing start s with
  | nil => exact h
  | cons n chunks ih =>
      rw [List.sum_cons, ← Nat.add_assoc]
      have hn := hchunks n (List.mem_cons_self ..)
      refine ih (fun m hm => hchunks m (List.mem_cons_of_mem _ hm)) ?_
      exact (h.startChunk n).foldl_step (by omega) steps

/-! ## A row that is missing -/

variable {c : BlockContext} {nNodes ppSize ppRank nodeIndex subStart subEnd : Nat} {fused : Bool}

theorem keepsLast_id : KeepsLast id :=
  fun rows => ⟨List.Sublist.refl rows, rfl⟩

/-- A sharded shift adds rows of its own range only. -/
theorem shiftRows_range {range : NnShiftOpCodeConfig} (hlen : 0 < range.localSeqLen) {p : Nat}
    (hp : p ∈ (shiftRows rowState range s.positions.length s.position).map s.position) :
    range.localSeqStart ≤ p ∧ p < range.localSeqStart + range.localSeqLen := by
  rcases List.mem_map.1 hp with ⟨b, hb, rfl⟩
  have hwrites := (mem_shiftRows.1 hb).2
  simpa [shiftWrites, rowState, hlen] using hwrites

/-- A query outside the node's own range, in a chunk of its own: the first attention op misses its
key. -/
theorem not_attentionRowsArrive {layerIndex : Nat} {rest : List Nat} {nBatches seqLen q : Nat}
    (hatts : BlockContext.ownedAtts subStart subEnd = layerIndex :: rest)
    (hlen : 0 < c.kvCacheSlice.localSeqLen)
    (hq : ¬ (c.kvCacheSlice.localSeqStart ≤ q
      ∧ q < c.kvCacheSlice.localSeqStart + c.kvCacheSlice.localSeqLen))
    (hbatches : 1 ≤ nBatches) (hfits : q < seqLen) :
    ¬ AttentionRowsArrive nBatches seqLen node
      (executorSteps nNodes (c.nodeSegments ppSize ppRank nodeIndex subStart subEnd fused)) := by
  intro h
  rcases c.steps_eq_of_ownedAtts nNodes ppSize ppRank nodeIndex fused hatts with
    ⟨before, after, hsteps, hquiet⟩
  let chunks := List.replicate q 1
  have hsum : chunks.sum = q := by simp [chunks]
  have hchunks : ∀ m ∈ chunks, m = 1 := fun m hm => List.eq_of_mem_replicate hm
  have hread := h id keepsLast_id chunks 1
    (by
      intro m hm
      rcases List.mem_append.1 hm with hm | hm
      · have := hchunks m hm
        omega
      · have := List.mem_singleton.1 hm
        omega)
    (by rw [List.sum_append, hsum, List.sum_singleton]; exact hfits)
    (before ++ [.executeOp (c.shiftKOp layerIndex), .executeOp (c.shiftVOp layerIndex)]) after
    (c.attentionOp layerIndex) (by rw [hsteps]; simp)
  -- nothing before the chunk, and nothing in it before the shifts, brings the row
  generalize hst : ((prefill node id (executorSteps nNodes
    (c.nodeSegments ppSize ppRank nodeIndex subStart subEnd fused)) 0 empty chunks).startChunk
    chunks.sum 1) = st at hread
  have hearlier : ∀ p ∈ st.arrived (.k layerIndex), p < chunks.sum := by
    have hbelow : (prefill node id (executorSteps nNodes
        (c.nodeSegments ppSize ppRank nodeIndex subStart subEnd fused)) 0 empty chunks).Below
        (0 + chunks.sum) :=
      Below.prefill (fun m hm => (hchunks m hm).ge) (below_empty 0)
    rw [Nat.zero_add] at hbelow
    subst hst
    exact hbelow.arrived (.k layerIndex)
  have hquery : q ∈ st.positions := by
    subst hst
    exact List.mem_range'_1.2 (by rw [hsum]; omega)
  rw [List.foldl_append, foldl_step_of_not_touchesKv hquiet] at hread
  have hkey := (hread q hquery q (Nat.le_refl q)).1
  -- the values go elsewhere, and the keys are those of the own range
  have hkey : q ∈ (st.add (.k layerIndex) ((shiftRows rowState
      ⟨c.kvCacheSlice.localSeqStart, c.kvCacheSlice.localSeqLen⟩ st.positions.length
      st.position).map st.position)).arrived (.k layerIndex) := hkey
  rcases mem_add hkey with hp | hp
  · have := hearlier q hp
    omega
  · exact hq (shiftRows_range hlen hp)

/-- Some row of the prompt lies outside the range of a rank. -/
theorem exists_row_outside {seqLen spSize : Nat} (spRank : Nat) (hsp : 1 < spSize)
    (hdvd : seqLen % spSize = 0) (hseq : 0 < seqLen) :
    ∃ q, ¬ (spRank * (seqLen / spSize) ≤ q ∧ q < spRank * (seqLen / spSize) + seqLen / spSize) ∧
      q < seqLen := by
  have hmul : spSize * (seqLen / spSize) = seqLen :=
    Nat.mul_div_cancel' (Nat.dvd_of_mod_eq_zero hdvd)
  have hlen : 0 < seqLen / spSize := Nat.div_pos (Nat.le_of_dvd hseq (Nat.dvd_of_mod_eq_zero hdvd))
    (by omega)
  have htwo : 2 * (seqLen / spSize) ≤ seqLen := by
    calc 2 * (seqLen / spSize) ≤ spSize * (seqLen / spSize) := Nat.mul_le_mul_right _ hsp
      _ = seqLen := hmul
  cases spRank with
  | zero =>
      -- the first row of the next rank
      exact ⟨seqLen / spSize, by omega, by omega⟩
  | succ r =>
      refine ⟨0, fun hown => ?_, by omega⟩
      rw [Nat.succ_mul] at hown
      omega

end KvArrival

/-! ## The claim of a whole net -/

theorem blockContext_localSeq (h : LlmHeader) (t : NnParallelTopology) {o : BuildOptions}
    (n : LlmSlices) (ropeSlice : NnRopeSlice) (spRank : Nat) (hshard : o.spNoShard = false) :
    (blockContext h t o n ropeSlice spRank).kvCacheSlice.localSeqStart
        = spRank * (h.seqLen / t.spSize) ∧
    (blockContext h t o n ropeSlice spRank).kvCacheSlice.localSeqLen = h.seqLen / t.spSize := by
  simp [blockContext, hshard, kvCacheSlice]

/-- The order of the steps is right exactly where there is no attention. -/
theorem exchangesBeforeAttention_iff {h : LlmHeader} {t : NnParallelTopology} {o : BuildOptions}
    {net : LlmNet} (hnet : buildLlmNet h t o = .ok net) {node : Nat} (hnode : node < t.nNodes) :
    ExchangesBeforeAttention (net.steps node)
      ↔ net.attLayers (t.placement node).ppRank = [] := by
  rcases LlmNet.steps_eq hnet hnode with ⟨ropeSlice, -, hsteps⟩
  rw [hsteps]
  exact exchangesBeforeAttention_iff_ownedAtts

/-- A prompt run finds all rows exactly where there is no attention or no prompt. -/
theorem attentionRowsArrive_iff {h : LlmHeader} {t : NnParallelTopology} {o : BuildOptions}
    {net : LlmNet} (hnet : buildLlmNet h t o = .ok net) (hsp : 1 < t.spSize)
    (hshard : o.spNoShard = false) {node : Nat} (hnode : node < t.nNodes) :
    AttentionRowsArrive o.nBatches h.seqLen (t.placement node) (net.steps node)
      ↔ net.attLayers (t.placement node).ppRank = [] ∨ o.nBatches = 0 ∨ h.seqLen = 0 := by
  rcases LlmNet.steps_eq hnet hnode with ⟨ropeSlice, hdvd, hsteps⟩
  rw [hsteps]
  constructor
  · intro harrive
    by_contra hno
    push Not at hno
    rcases hno with ⟨hatts, hbatches, hseq⟩
    rcases List.exists_cons_of_ne_nil hatts with ⟨layerIndex, rest, hatts⟩
    rcases KvArrival.exists_row_outside (t.placement node).spRank hsp (hdvd hshard)
      (Nat.pos_of_ne_zero hseq) with ⟨q, hq, hfits⟩
    rcases blockContext_localSeq h t net.slices ropeSlice (t.placement node).spRank hshard with
      ⟨hstart, hlen⟩
    refine KvArrival.not_attentionRowsArrive hatts ?_ ?_ (Nat.pos_of_ne_zero hbatches) hfits harrive
    · rw [hlen]
      exact Nat.div_pos (Nat.le_of_dvd (Nat.pos_of_ne_zero hseq)
        (Nat.dvd_of_mod_eq_zero (hdvd hshard))) (by omega)
    · rwa [hstart, hlen]
  · intro hempty keep _ chunks n hsizes hsum l₁ l₂ op hop
    rcases hempty with hatts | hbatches | hseq
    · have hquiet := BlockContext.touchesKv_of_ownedAtts_nil _ t.nNodes t.ppSize
        (t.placement node).ppRank node o.fusedLmHeadArgmax hatts (.executeOp op)
        (by rw [hop]; exact List.mem_append_right _ (List.mem_cons_self ..))
      have hcode : op.code ≠ .multiheadAtt := by
        simp only [NnExecutorStep.touchesKv, Bool.or_eq_false_iff, beq_eq_false_iff_ne] at hquiet
        exact hquiet.2
      unfold KvArrival.RowsThere
      split
      · rename_i hatt _
        exact absurd hatt hcode
      · trivial
    · have := hsizes n (by simp)
      omega
    · have := hsizes n (by simp)
      rw [List.sum_append, List.sum_singleton] at hsum
      omega

/-- On a sharded sequence-parallel net the exchange precedes the attention, and prompt rows arrive
in time, exactly on the nodes whose stage owns no attention. -/
theorem kv_arrives_before_attention_iff (h : LlmHeader) (t : NnParallelTopology)
    (o : BuildOptions) (net : LlmNet) (hnet : buildLlmNet h t o = .ok net) (hsp : 1 < t.spSize)
    (hshard : o.spNoShard = false) (node : Nat) (hnode : node < t.nNodes) :
    let atts := net.attLayers (t.placement node).ppRank
    (ExchangesBeforeAttention (net.steps node) ↔ atts = []) ∧
    (AttentionRowsArrive o.nBatches h.seqLen (t.placement node) (net.steps node)
      ↔ atts = [] ∨ o.nBatches = 0 ∨ h.seqLen = 0) :=
  ⟨exchangesBeforeAttention_iff hnet hnode, attentionRowsArrive_iff hnet hsp hshard hnode⟩

private theorem twoRanks_nNodes : 2 = 1 * 2 * 1 := rfl

/-- Two sequence-parallel ranks. -/
def twoRanks : NnParallelTopology :=
  ⟨2, 1, 2, 1, Nat.one_pos, Nat.two_pos, Nat.one_pos, twoRanks_nNodes⟩

def twoRows : BuildOptions := ⟨2, [], none, false, false⟩

theorem buildLlmNet_twoRanks :
    ∃ net, buildLlmNet (tinyHeader 1) twoRanks twoRows = .ok net ∧ net.attLayers 0 ≠ [] :=
  ⟨_, rfl, by decide⟩

/-- One layer on two ranks: node 0 owns its attention. -/
theorem kv_arrives_before_attention_iff_two_ranks :
    ∃ net, buildLlmNet (tinyHeader 1) twoRanks twoRows = .ok net ∧
      (ExchangesBeforeAttention (net.steps 0) ↔ net.attLayers 0 = []) := by
  rcases buildLlmNet_twoRanks with ⟨net, hnet, -⟩
  exact ⟨net, hnet, (kv_arrives_before_attention_iff (tinyHeader 1) twoRanks twoRows net hnet
    (by decide) rfl 0 (by decide)).1⟩

/-- One layer on two ranks: the order is wrong, and rank 0 attends to rows that are not there. -/
theorem not_kv_arrives_two_ranks :
    ∃ net, buildLlmNet (tinyHeader 1) twoRanks twoRows = .ok net ∧
      ¬ ExchangesBeforeAttention (net.steps 0) ∧
      ¬ AttentionRowsArrive 2 4 (twoRanks.placement 0) (net.steps 0) := by
  rcases buildLlmNet_twoRanks with ⟨net, hnet, hatts⟩
  have hnode : 0 < twoRanks.nNodes := by decide
  refine ⟨net, hnet, fun horder => ?_, fun harrive => ?_⟩
  · exact hatts ((exchangesBeforeAttention_iff hnet hnode).1 horder)
  · have := (attentionRowsArrive_iff hnet (by decide) rfl hnode).1 harrive
    rcases this with h | h | h
    · exact hatts h
    · exact absurd h (by decide)
    · exact absurd h (by decide)

end PrefillOpt
