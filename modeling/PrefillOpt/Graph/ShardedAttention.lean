import PrefillOpt.Graph.ShardedRope

/-!
# ShardedAttention — the attention part of a layer on ranks

A rank has its heads of the queries, keys and values and keeps the keys and values of its heads.
Heads are cut where key heads are, so the attention of a rank is the attention of the single node
to the heads of the rank.
-/

namespace PrefillOpt

open Lib Kernels

namespace TensorSplit

variable {F : Type} {n : Nat} [Field F] [LinearOrder F] [FloorSemiring F] {T : TensorSplit F n}
  {batchSize : Nat} {κ : ShardMap} {name : OpName} {index w : Nat}

/-! ## Keys and values -/

section Shift

variable {source : NnPointerSource} {k : Sharding}

/-- A row of a cache that all ranks replace. -/
theorem Sharded.update_row {s : Fin n → NnMemory (BatchRow F)} {u : NnMemory (BatchRow F)}
    (h : T.Sharded batchSize κ s u) (hpos : source ≠ .pipe .pos) (hk : κ source = some k) (p : Nat)
    {rows : Fin n → BatchRow F} {wholeRow : BatchRow F}
    (hrows : ∀ z, k.Holds (fun r => rows r z) (wholeRow z)) :
    T.Sharded batchSize κ (fun r => Function.update (s r) (source, p) (rows r))
      (Function.update u (source, p) wholeRow) := by
  constructor
  -- the row that is replaced, and all others
  · intro source' k' hk' b hb z
    by_cases hrow : (source', b) = (source, p)
    · cases hrow
      rw [hk] at hk'
      cases hk'
      simp only [Function.update_self]
      exact hrows z
    · simp only [Function.update_of_ne hrow]
      exact h.holds hk' hb z
  · intro b hb
    have hne : ((.pipe .pos, b) : NnRow) ≠ (source, p) := fun heq =>
      hpos (congrArg Prod.fst heq).symm
    rw [RowNode.position, Function.update_of_ne hne]
    exact h.position b hb

theorem mem_shiftRows {range : NnShiftOpCodeConfig} {indexes : Nat → Nat} {b : Nat}
    (h : b ∈ PrefillOpt.shiftRows ⟨0, 1, 0⟩ range batchSize indexes) : b < batchSize := by
  have hwindow := List.mem_of_mem_filter h
  simp only [activeRowCount, List.mem_range'_1] at hwindow
  simpa using hwindow.2

/-- The rows of the batch go to their positions on every rank. -/
theorem keeps_shift {input output : BufferIndex} {range : NnShiftOpCodeConfig} {size : NnSize3D}
    {p : NnPointerConfig} (hp : p.source = .buffer output)
    (hpos : κ (.pipe .pos) = some .equal) (hin : κ (.buffer input) = some k)
    (hout : κ (.buffer output) = some k) :
    T.Keeps batchSize κ κ
      (fun _ => [.addOp ⟨.shift, name, index, pointerBatchConfig (.buffer input), p, size,
        .shift .pos range⟩])
      [.addOp ⟨.shift, name, index, pointerBatchConfig (.buffer input), p, size,
        .shift .pos range⟩] := by
  intro s u hs
  have hplaces : ∀ b < batchSize, ∀ r, RowNode.position .pos (s r) b = RowNode.position .pos u b :=
    fun b hb r => hs.position_eq hpos hb r
  have hlist : ∀ r, PrefillOpt.shiftRows ⟨0, 1, 0⟩ range batchSize (RowNode.position .pos (s r))
      = PrefillOpt.shiftRows ⟨0, 1, 0⟩ range batchSize (RowNode.position .pos u) := by
    intro r
    refine List.filter_congr fun b hb => ?_
    have hlt : b < batchSize := by simpa [activeRowCount, List.mem_range'_1] using hb
    rw [hplaces b hlt r]
  -- row by row, each of them goes to the same place everywhere
  have hrows : ∀ (l : List Nat), (∀ b ∈ l, b < batchSize) → ∀ s' u', T.Sharded batchSize κ s' u' →
      T.Sharded batchSize κ
        (fun r => l.foldl (fun m b => Function.update m
          (.buffer output, RowNode.position .pos (s r) b) (s r (.buffer input, b))) (s' r))
        (l.foldl (fun m b => Function.update m
          (.buffer output, RowNode.position .pos u b) (u (.buffer input, b))) u') := by
    intro l
    induction l with
    | nil => exact fun _ _ _ h => h
    | cons b l ih =>
        intro hl s' u' h
        have hb := hl b List.mem_cons_self
        simp only [List.foldl_cons, hplaces b hb]
        exact ih (fun b' hb' => hl b' (List.mem_cons_of_mem b hb')) _ _
          (h.update_row (by simp) hout _ fun z => hs.row hin hb z)
  have hrun := hrows (PrefillOpt.shiftRows ⟨0, 1, 0⟩ range batchSize (RowNode.position .pos u))
    (fun _ hb => mem_shiftRows hb) s u hs
  simp only [← hp] at hrun
  simp only [RowNode.run, List.filterMap_cons, List.filterMap_nil, BuilderCall.op?, List.foldl_cons,
    List.foldl_nil, RowNode.execute, RowNode.shiftRows, RowNode.load_batch, hlist]
  exact hrun

end Shift

end TensorSplit

/-! ## Attention to some of the heads -/

section Heads

variable {F : Type} [Field F]

theorem softmaxAverage_congr {e : F → F} {S : Finset Nat} {s s' w w' : Nat → F}
    (hs : ∀ t ∈ S, s t = s' t) (hw : ∀ t ∈ S, w t = w' t) :
    softmaxAverage e S s w = softmaxAverage e S s' w' := by
  have hsum : ∑ t ∈ S, e (s t) * w t = ∑ t ∈ S, e (s' t) * w' t :=
    Finset.sum_congr rfl fun t ht => by rw [hs t ht, hw t ht]
  have hnorm : ∑ t ∈ S, e (s t) = ∑ t ∈ S, e (s' t) :=
    Finset.sum_congr rfl fun t ht => by rw [hs t ht]
  rw [softmaxAverage, softmaxAverage, hsum, hnorm]

/-- The heads `c` has of the heads of `c'`, from head `r * c.nHeads0` on, with the key heads they
share from `r * nKv0` on. -/
structure HeadsOf (c c' : NnMultiHeadAttOpConfig) (r nKv0 : Nat) : Prop where
  nHeads : c.nHeads = c'.nHeads
  nKvHeads : c.nKvHeads = c'.nKvHeads
  headDim : c.headDim = c'.headDim
  kvMul_pos : 0 < c'.nHeads / c'.nKvHeads
  nHeads0 : c.nHeads0 = c'.nHeads / c'.nKvHeads * nKv0

variable {c c' : NnMultiHeadAttOpConfig} {r nKv0 h0 : Nat}

/-- Query heads of a rank attend to key heads of the rank. -/
theorem HeadsOf.keyColumn (h : HeadsOf c c' r nKv0) (hh : h0 < c.nHeads0) :
    Kernels.keyColumn c' (r * c.nHeads0 + h0)
        = r * (nKv0 * c'.headDim) + Kernels.keyColumn c h0 ∧
      Kernels.keyColumn c h0 + c'.headDim ≤ nKv0 * c'.headDim := by
  have hhead : h0 / (c'.nHeads / c'.nKvHeads) < nKv0 := by
    rw [h.nHeads0] at hh
    exact Nat.div_lt_of_lt_mul hh
  have hglobal : (r * c.nHeads0 + h0) / (c'.nHeads / c'.nKvHeads)
      = r * nKv0 + h0 / (c'.nHeads / c'.nKvHeads) := by
    rw [h.nHeads0, Nat.mul_left_comm, Nat.mul_add_div h.kvMul_pos]
  simp only [Kernels.keyColumn, h.nHeads, h.nKvHeads, h.headDim]
  rw [hglobal, Nat.add_mul, Nat.mul_assoc]
  refine ⟨rfl, ?_⟩
  rw [← Nat.succ_mul]
  exact Nat.mul_le_mul_right _ hhead

/-- Attention of a head of a rank is attention of the head it is in the whole model. -/
theorem attentionOut_cut (h : HeadsOf c c' r nKv0) (l : Libm F) {inp inp' : AttInput F}
    {S : Finset Nat} {b i : Nat} (hh : h0 < c.nHeads0) (hi : i < c'.headDim)
    (hquery : ∀ x < c.nHeads0 * c'.headDim, inp.query (b * c.qSliceD0 + x)
      = inp'.query (b * c'.qSliceD0 + (r * (c.nHeads0 * c'.headDim) + x)))
    (hkey : ∀ t ∈ S, ∀ x < nKv0 * c'.headDim, inp.keyCache (t * c.kvDim0 + x)
      = inp'.keyCache (t * c'.kvDim0 + (r * (nKv0 * c'.headDim) + x)))
    (hvalue : ∀ t ∈ S, ∀ x < nKv0 * c'.headDim, inp.valueCache (t * c.kvDim0 + x)
      = inp'.valueCache (t * c'.kvDim0 + (r * (nKv0 * c'.headDim) + x))) :
    attentionOut l c inp S b h0 i = attentionOut l c' inp' S b (r * c.nHeads0 + h0) i := by
  rcases h.keyColumn hh with ⟨hcolumn, hroom⟩
  have hplace {t j : Nat} (hj : j < c'.headDim) (m m' : Mem F)
      (hm : ∀ x < nKv0 * c'.headDim,
        m (t * c.kvDim0 + x) = m' (t * c'.kvDim0 + (r * (nKv0 * c'.headDim) + x))) :
      m (Kernels.keyColumn c h0 + t * c.kvDim0 + j)
        = m' (Kernels.keyColumn c' (r * c.nHeads0 + h0) + t * c'.kvDim0 + j) := by
    have heq := hm (Kernels.keyColumn c h0 + j) (by omega)
    rw [hcolumn]
    convert heq using 2 <;> omega
  -- the values are the same, and so are the scores: sums over the columns of one head
  refine softmaxAverage_congr (fun t ht => ?_) fun t ht => hplace hi _ _ (hvalue t ht)
  have hsum : ∑ j ∈ Finset.range c.headDim, inp.query (b * c.qSliceD0 + h0 * c.headDim + j)
        * inp.keyCache (Kernels.keyColumn c h0 + t * c.kvDim0 + j)
      = ∑ j ∈ Finset.range c'.headDim,
        inp'.query (b * c'.qSliceD0 + (r * c.nHeads0 + h0) * c'.headDim + j)
          * inp'.keyCache (Kernels.keyColumn c' (r * c.nHeads0 + h0) + t * c'.kvDim0 + j) := by
    rw [h.headDim]
    refine Finset.sum_congr rfl fun j hj => ?_
    have hj := Finset.mem_range.1 hj
    have hq : inp.query (b * c.qSliceD0 + h0 * c'.headDim + j)
        = inp'.query (b * c'.qSliceD0 + (r * c.nHeads0 + h0) * c'.headDim + j) := by
      rw [Nat.add_assoc, hquery _ (add_mul_lt hh hj), Nat.add_mul, Nat.mul_assoc]
      congr 1
      omega
    rw [hq, hplace hj _ _ (hkey t ht)]
  rw [headScore, headScore, hsum, h.headDim]

end Heads

namespace RowNode

variable {F : Type} {D : RowNode F} {w x : Nat}

/-- Where an op writes the columns of its slice. -/
theorem store_slice {source : NnPointerSource}
    (hw : D.sliceWidth (pointerBatchedSliceConfig source) = w) (hx : x < w) (new old : BatchRow F)
    (z : Nat) :
    D.store (pointerBatchedSliceConfig source) new old z (D.tpRank * w + x) = new z x := by
  have hstart : D.sliceStart (pointerBatchedSliceConfig source) = D.tpRank * w :=
    (if_pos rfl).trans (congrArg (D.tpRank * ·) hw)
  have hin : D.tpRank * w ≤ D.tpRank * w + x ∧ D.tpRank * w + x < D.tpRank * w + w :=
    ⟨Nat.le_add_right _ x, Nat.add_lt_add_left hx _⟩
  have htype : (pointerBatchedSliceConfig source).type = .batchedSlice := rfl
  rw [store, if_pos htype, hstart, hw, if_pos hin, Nat.add_sub_cancel_left]

/-- Where an op reads the columns of its slice. -/
theorem load_slice {source : NnPointerSource}
    (hw : D.sliceWidth (pointerBatchedSliceConfig source) = w) (s : NnMemory (BatchRow F))
    (b z : Nat) :
    D.load (pointerBatchedSliceConfig source) s b z
      = fun x => s (source, b) z (D.tpRank * w + x) := by
  have hstart : D.sliceStart (pointerBatchedSliceConfig source) = D.tpRank * w :=
    (if_pos rfl).trans (congrArg (D.tpRank * ·) hw)
  rw [← hstart]
  rfl

theorem flatten_apply (s : NnMemory (BatchRow F)) (source : NnPointerSource) (t : Nat)
    (hx : x < w) : flatten w s source (t * w + x) = s (source, t) 0 x := by
  have hw : 0 < w := by omega
  rw [flatten, Nat.mul_comm t w, Nat.mul_add_div hw, Nat.mul_add_mod, Nat.div_eq_of_lt hx,
    Nat.mod_eq_of_lt hx, Nat.add_zero]

end RowNode

namespace TensorSplit

variable {F : Type} {n : Nat} (T : TensorSplit F n)

theorem sliceWidth_z (r : Fin n) :
    (T.rank r).sliceWidth (pointerBatchedSliceConfig (.buffer .z)) = T.slices.qSlice.d0 := by
  have hwidth : (T.rank r).sliceWidth (pointerBatchedSliceConfig (.buffer .z)) = T.h.qDim / n := rfl
  rw [hwidth, ← T.slicesOf.qSlice.2, Nat.mul_div_cancel_left _ T.ranks_pos]

theorem whole_sliceWidth_z :
    T.whole.sliceWidth (pointerBatchedSliceConfig (.buffer .z)) = n * T.slices.qSlice.d0 :=
  (Nat.div_one _).trans T.slicesOf.qSlice.2.symm

theorem whole_qSlice : T.wholeSlices.qSlice.d0 = n * T.slices.qSlice.d0 := by
  rw [T.slicesOf.qSlice.2, ← T.wholeSlicesOf.qSlice.2, Nat.one_mul]

theorem whole_kSlice : T.wholeSlices.kSlice.d0 = n * T.slices.kSlice.d0 := by
  rw [T.slicesOf.kSlice.2, ← T.wholeSlicesOf.kSlice.2, Nat.one_mul]

/-- The attention of a rank, and the one of the single node. -/
def attConfig (c : BlockContext) : NnMultiHeadAttOpConfig :=
  ⟨c.n.multiHeadAttSlice.nHeads, c.n.multiHeadAttSlice.nHeads0, c.h.nKvHeads, c.h.headDim,
    c.h.seqLen, c.n.qSlice.d0, c.kvCacheSlice.kvDim0⟩

/-- A rank has whole groups of heads. -/
theorem headsOf (r : Fin n) : ∃ nKv0, T.slices.kSlice.d0 = nKv0 * T.h.headDim ∧
    T.slices.qSlice.d0 = T.slices.multiHeadAttSlice.nHeads0 * T.h.headDim ∧
    HeadsOf (attConfig (T.rankContext r)) (attConfig T.wholeContext) r.val nKv0 := by
  rcases T.ranks_dvd with ⟨nKv0, hkv⟩
  rcases T.kvHeads_dvd with ⟨kvMul, hheads⟩
  have hkvPos : 0 < T.h.nKvHeads :=
    Nat.pos_of_dvd_of_pos ⟨kvMul, hheads⟩ T.heads_pos
  have hdiv : T.h.nHeads / T.h.nKvHeads = kvMul := by
    rw [hheads, Nat.mul_div_cancel_left _ hkvPos]
  have hmulPos : 0 < kvMul := by
    refine Nat.pos_of_ne_zero fun hzero => ?_
    have hpos := T.heads_pos
    rw [hheads, hzero, Nat.mul_zero] at hpos
    exact absurd hpos (lt_irrefl 0)
  refine ⟨nKv0, T.width_eq T.slicesOf.kSlice.2 ?_, T.width_eq T.slicesOf.qSlice.2 ?_, ?_⟩
  · rw [← Nat.mul_assoc, ← hkv, T.kvDim_eq]
  · rw [← Nat.mul_assoc, T.slicesOf.heads.2, T.qDim_eq]
  · refine ⟨T.slicesOf.heads.1.trans T.wholeSlicesOf.heads.1.symm, rfl, rfl, ?_, ?_⟩
    · simpa only [attConfig, wholeContext_n, wholeContext_h, T.wholeSlicesOf.heads.1, hdiv]
    · simp only [attConfig, wholeContext_n, wholeContext_h, rankContext_n,
        T.wholeSlicesOf.heads.1, hdiv]
      refine T.width_eq T.slicesOf.heads.2 ?_
      rw [Nat.mul_left_comm, ← hkv, hheads, Nat.mul_comm]

section Ops

variable {T} [Field F] [LinearOrder F] [FloorSemiring F] {batchSize : Nat} {κ : ShardMap}
  {layerIndex : Nat}

/-- The attention of a rank goes to the columns of its heads. -/
theorem keeps_multiHeadAtt (hpos : κ (.pipe .pos) = some .equal)
    (hq : κ (.buffer .q) = some (.cut T.slices.qSlice.d0))
    (hk : κ (.buffer (.k layerIndex)) = some (.cut T.slices.kSlice.d0))
    (hv : κ (.buffer (.v layerIndex)) = some (.cut T.slices.kSlice.d0)) :
    T.Keeps batchSize κ (Function.update κ (.buffer .z) (some (.own T.slices.qSlice.d0)))
      (fun r => [(T.rankContext r).multiHeadAttOp layerIndex])
      [T.wholeContext.multiHeadAttOp layerIndex] := by
  refine keeps_op (p := pointerBatchedSliceConfig (.buffer .z)) rfl
    (by simp [pointerBatchedSliceConfig])
    (fun _ => ⟨rfl, rfl⟩) ⟨rfl, rfl⟩ fun s u hs b hb z r x hx => ?_
  rcases T.headsOf r with ⟨nKv0, hkv0, hq0, hheads⟩
  have hcut := add_mul_lt r.isLt hx
  have hrank := RowNode.store_slice (D := T.rank r) (T.sliceWidth_z r) hx
  have hwhole := RowNode.store_slice (D := T.whole) T.whole_sliceWidth_z hcut
  have hrankRank : (T.rank r).tpRank = r.val := rfl
  have hwholeRank : T.whole.tpRank = 0 := rfl
  rw [hrankRank] at hrank
  rw [hwholeRank, Nat.zero_mul, Nat.zero_add] at hwhole
  simp only [pointerBatchedSliceConfig] at hrank hwhole ⊢
  simp only [hrank, hwhole, RowNode.rowOf, hs.position_eq hpos hb r]
  -- the column of the row by head and column of the head
  rcases div_mod_cut (m := T.slices.multiHeadAttSlice.nHeads0) (r := r.val) (x := x) T.headDim_pos
    with ⟨hhead, hcol⟩
  rw [← hq0] at hhead hcol
  rw [T.wholeContext_h, hhead, hcol]
  -- a cache of the rank holds its columns of every position
  have hkv : T.h.kvDim / n = T.slices.kSlice.d0 := T.kvDim0_eq
  have hkvWhole : T.h.kvDim / 1 = n * T.slices.kSlice.d0 :=
    (Nat.div_one _).trans T.slicesOf.kSlice.2.symm
  have hcache {cache : BufferIndex} (h : κ (.buffer cache) = some (.cut T.slices.kSlice.d0))
      (hisCache : (NnPointerSource.buffer cache).isCache = true) (t : Nat) {y : Nat}
      (hy : y < nKv0 * T.h.headDim) :
      RowNode.flatten (T.h.kvDim / n) (s r) (.buffer cache) (t * (T.h.kvDim / n) + y)
        = RowNode.flatten (T.h.kvDim / 1) u (.buffer cache)
            (t * (T.h.kvDim / 1) + (r.val * (nKv0 * T.h.headDim) + y)) := by
    rw [← hkv0] at hy ⊢
    rw [hkv, hkvWhole, RowNode.flatten_apply _ _ _ hy,
      RowNode.flatten_apply _ _ _ (add_mul_lt r.isLt hy)]
    exact hs.holds h (by simp [NnRow.inBatch, hisCache]) 0 r y hy
  refine attentionOut_cut hheads _ (Nat.div_lt_of_lt_mul ?_) (Nat.mod_lt x T.headDim_pos)
    (fun y hy => ?_) (fun t _ y hy => hcache hk rfl t hy) fun t _ y hy => hcache hv rfl t hy
  · rw [Nat.mul_comm]
    exact hq0 ▸ hx
  · have hy' : y < T.slices.qSlice.d0 := hq0 ▸ hy
    have hrow : s r (.buffer .q, b) 0 y = u (.buffer .q, b) 0 (r.val * T.slices.qSlice.d0 + y) :=
      hs.row hq hb 0 r y hy'
    have hplace : RowNode.flatten T.wholeSlices.qSlice.d0 u (.buffer .q)
        (b * T.wholeSlices.qSlice.d0 + (r.val * T.slices.qSlice.d0 + y))
          = u (.buffer .q, b) 0 (r.val * T.slices.qSlice.d0 + y) :=
      RowNode.flatten_apply _ _ _ (T.whole_qSlice ▸ add_mul_lt r.isLt hy')
    refine (RowNode.flatten_apply (s r) _ b hy').trans (hrow.trans ?_)
    rw [← hplace, hq0]
    rfl

/-- The columns of a rank, wherever they were, start the row of the next product. -/
theorem keeps_castY2 (hz : κ (.buffer .z) = some (.own T.slices.qSlice.d0)) :
    T.Keeps batchSize κ (Function.update κ (.buffer .qZSlice) (some (.cut T.slices.qSlice.d0)))
      (fun _ => [BlockContext.castY2Op layerIndex]) [BlockContext.castY2Op layerIndex] := by
  have hblocks : WholeBlocks T (.buffer .z) (.buffer .qZSlice) T.slices.qSlice.d0 :=
    wholeBlocks_of_dvd fun hsync => (T.blocks hsync).2.1
  refine keeps_batchOp rfl (by simp) (fun _ => ⟨rfl, rfl⟩) ⟨rfl, rfl⟩ fun s u hs b hb z => ?_
  have hrank := fun r => RowNode.load_slice (T.sliceWidth_z r) (s r) b z
  have hwhole := RowNode.load_slice T.whole_sliceWidth_z u b z
  have hwholeRank : T.whole.tpRank = 0 := rfl
  simp only [hwholeRank, Nat.zero_mul, Nat.zero_add] at hwhole
  simp only [RowNode.rowOf, (castRow_eq T _ z).1, (castRow_eq T _ z).2, hrank, hwhole]
  exact castSlot_cut hblocks (cut_of_own (hs.row hz hb z))

/-- The norms of queries and keys, head by head. -/
theorem keeps_headNorm (buffer : BufferIndex) {name name' : OpName} {index m m' d0 : Nat}
    (hname : Unsliced (F := F) name') (hcache : (NnPointerSource.buffer buffer).isCache = false)
    (hbuffer : buffer ≠ .invRms) (hm : m * T.h.headDim = d0) (hm' : m' * T.h.headDim = n * d0)
    (hw : ∀ r, (T.rank r).width (.buffer buffer) = d0)
    (hwhole : T.whole.width (.buffer buffer) = n * d0)
    (hin : κ (.buffer buffer) = some (.cut d0)) :
    T.Keeps batchSize κ (Function.update (Function.update κ (.buffer .invRms) (some (.cut m)))
        (.buffer buffer) (some (.cut d0)))
      (fun r => [(T.rankContext r).invRmsOp name index buffer m,
        BlockContext.rmsNormOp name' index buffer buffer (size2D .f32 1 T.h.headDim) m])
      [T.wholeContext.invRmsOp name index buffer m',
        BlockContext.rmsNormOp name' index buffer buffer (size2D .f32 1 T.h.headDim) m'] := by
  -- the single node has as many times the heads as there are ranks
  have hmul : m' = n * m := by
    refine Nat.eq_of_mul_eq_mul_right T.headDim_pos ?_
    rw [hm', Nat.mul_assoc, hm]
  subst hmul hm
  refine Keeps.cons (keeps_invRms_cut (m := m) hin hw (hwhole.trans (Nat.mul_assoc ..).symm)) ?_
  have hsize : (size2D .f32 1 T.h.headDim).x = T.h.headDim := rfl
  refine Keeps.cons (keeps_rmsNorm_cut hname (hsize ▸ T.headDim_pos) ?_ (Function.update_self ..)
    hcache) Keeps.nil
  rw [Function.update_of_ne (by simpa using hbuffer)]
  exact hin

end Ops

/-! ## The segment -/

/-- The queries, keys and values of the batch, before the keys and values are stored. -/
def projected : ShardMap :=
  Function.update (Function.update (Function.update T.row (.buffer .q)
    (some (.cut T.slices.qSlice.d0))) (.buffer .kTemp) (some (.cut T.slices.kSlice.d0)))
    (.buffer .vTemp) (some (.cut T.slices.kSlice.d0))

@[simp] theorem projected_vTemp :
    T.projected (.buffer .vTemp) = some (.cut T.slices.kSlice.d0) := by simp [projected]

@[simp] theorem projected_kTemp :
    T.projected (.buffer .kTemp) = some (.cut T.slices.kSlice.d0) := by simp [projected]

@[simp] theorem projected_q :
    T.projected (.buffer .q) = some (.cut T.slices.qSlice.d0) := by simp [projected]

@[simp] theorem projected_x : T.projected (.buffer .x) = some (.copies T.h.dim) := by
  simp [projected]

@[simp] theorem projected_pos : T.projected (.pipe .pos) = some .equal := by simp [projected]

@[simp] theorem projected_k (layerIndex : Nat) :
    T.projected (.buffer (.k layerIndex)) = some (.cut T.slices.kSlice.d0) := by simp [projected]

@[simp] theorem projected_v (layerIndex : Nat) :
    T.projected (.buffer (.v layerIndex)) = some (.cut T.slices.kSlice.d0) := by simp [projected]

section Segment

variable [Field F] [LinearOrder F] [FloorSemiring F] {batchSize : Nat} {κ : ShardMap}

omit [Field F] [LinearOrder F] [FloorSemiring F] in
theorem projected_le (hq : κ (.buffer .q) = some (.cut T.slices.qSlice.d0))
    (hkTemp : κ (.buffer .kTemp) = some (.cut T.slices.kSlice.d0))
    (hvTemp : κ (.buffer .vTemp) = some (.cut T.slices.kSlice.d0))
    (hrow : ∀ source k, T.row source = some k → κ source = some k) :
    ∀ source k, T.projected source = some k → κ source = some k :=
  update_le hvTemp (update_le hkTemp (update_le hq hrow))

theorem keeps_projections (layerIndex : Nat) :
    T.Keeps batchSize T.row T.projected
      (fun r => [(T.rankContext r).invRmsOp .blockNormPre0 layerIndex .x 1,
          BlockContext.rmsNormOp .blockNorm0 layerIndex .x .y T.slices.rmsNormSize 1]
        ++ (T.rankContext r).castYCalls .blockCastY layerIndex
        ++ [BlockContext.matmulOp .blockMatmulQ layerIndex (T.rankContext r).yqBufferIndex .q
              (size2D T.h.weightType T.slices.qSlice.n T.slices.qSlice.d0) 0 0,
            BlockContext.matmulOp .blockMatmulK layerIndex (T.rankContext r).yqBufferIndex .kTemp
              (size2D T.h.weightType T.slices.kSlice.n T.slices.kSlice.d0) 0 0,
            BlockContext.matmulOp .blockMatmulV layerIndex (T.rankContext r).yqBufferIndex .vTemp
              (size2D T.h.weightType T.slices.vSlice.n T.slices.vSlice.d0) 0 0])
      ([T.wholeContext.invRmsOp .blockNormPre0 layerIndex .x 1,
          BlockContext.rmsNormOp .blockNorm0 layerIndex .x .y T.wholeSlices.rmsNormSize 1]
        ++ T.wholeContext.castYCalls .blockCastY layerIndex
        ++ [BlockContext.matmulOp .blockMatmulQ layerIndex T.wholeContext.yqBufferIndex .q
              (size2D T.h.weightType T.wholeSlices.qSlice.n T.wholeSlices.qSlice.d0) 0 0,
            BlockContext.matmulOp .blockMatmulK layerIndex T.wholeContext.yqBufferIndex .kTemp
              (size2D T.h.weightType T.wholeSlices.kSlice.n T.wholeSlices.kSlice.d0) 0 0,
            BlockContext.matmulOp .blockMatmulV layerIndex T.wholeContext.yqBufferIndex .vTemp
              (size2D T.h.weightType T.wholeSlices.vSlice.n T.wholeSlices.vSlice.d0) 0 0]) := by
  have hv : T.slices.vSlice.d0 = T.slices.kSlice.d0 :=
    T.width_eq T.slicesOf.vSlice.2 T.slicesOf.kSlice.2
  simp only [BlockContext.castYCalls, rankContext_yq, T.slicesOf.rmsNormSize,
    T.wholeSlicesOf.rmsNormSize, List.cons_append, List.nil_append]
  refine Keeps.cons (keeps_invRms_copies row_x (fun _ => rfl) rfl) ?_
  refine Keeps.cons (keeps_rmsNorm_copies (w := T.h.dim) (fun _ _ _ => rfl) rfl (by simp)
    (by simp) rfl) ?_
  refine Keeps.append (keeps_castUnless (fun h => Eq.symm (not_not.1 h)) (Function.update_self ..)
    (keeps_cast_copies (by simp) (by simp) (Function.update_self ..) wholeBlocks_dim)) ?_
  refine Keeps.cons (keeps_matmul_cut (fun s => s.qSlice.d0) (m := T.h.dim)
    (fun _ _ _ _ _ _ _ => rfl) rfl (by simp) T.slicesOf.qSlice.1 T.wholeSlicesOf.qSlice.1
    fun h => absurd rfl h) ?_
  refine Keeps.cons (keeps_matmul_cut (fun s => s.kSlice.d0) (m := T.h.dim)
    (fun _ _ _ _ _ _ _ => rfl) rfl (by simp) T.slicesOf.kSlice.1 T.wholeSlicesOf.kSlice.1
    fun h => absurd rfl h) ?_
  refine Keeps.cons (keeps_matmul_cut (fun s => s.vSlice.d0) (m := T.h.dim)
    (fun _ _ _ _ _ _ _ => rfl) rfl (by simp) T.slicesOf.vSlice.1 T.wholeSlicesOf.vSlice.1
    fun h => absurd rfl h) ?_
  simp only [hv]
  exact Keeps.nil.mono (T.projected_le (by simp) (by simp) (by simp)
    (row_le (by simp) (by simp) (by simp) (by simp)))

theorem keeps_qkNormCalls (layerIndex : Nat) :
    T.Keeps batchSize T.projected T.projected
      (fun r => (T.rankContext r).qkNormCalls layerIndex)
      (T.wholeContext.qkNormCalls layerIndex) := by
  simp only [BlockContext.qkNormCalls, rankContext_h, rankContext_n, wholeContext_h,
    wholeContext_n]
  by_cases hnorm : T.h.hasQkNorm = true
  · simp only [hnorm, if_true]
    have hq : T.wholeSlices.nQNormColumns * T.h.headDim = n * T.slices.qSlice.d0 :=
      (T.wholeSlicesOf.qNorm hnorm).trans T.whole_qSlice
    have hk : T.wholeSlices.nKNormColumns * T.h.headDim = n * T.slices.kSlice.d0 :=
      (T.wholeSlicesOf.kNorm hnorm).trans T.whole_kSlice
    refine Keeps.append (keeps_headNorm .q (fun _ _ _ => rfl) rfl (by simp)
      (T.slicesOf.qNorm hnorm) hq (fun _ => rfl) T.whole_qSlice (by simp)) ?_
    refine Keeps.mono (keeps_headNorm .kTemp (fun _ _ _ => rfl) rfl (by simp)
      (T.slicesOf.kNorm hnorm) hk (fun _ => rfl) T.whole_kSlice (by simp)) ?_
    exact T.projected_le (by simp) (by simp) (by simp)
      (row_le (by simp) (by simp) (by simp)
        (by simp))
  · simp only [hnorm]
    exact Keeps.nil

theorem keeps_attInputCalls (layerIndex : Nat) :
    T.Keeps batchSize T.row T.projected (fun r => (T.rankContext r).attInputCalls layerIndex)
      (T.wholeContext.attInputCalls layerIndex) := by
  refine Keeps.append (Keeps.append (T.keeps_projections layerIndex)
    (T.keeps_qkNormCalls layerIndex)) ?_
  refine Keeps.cons (keeps_rope true rfl (by simp) (by simp [ropeDim])) ?_
  refine Keeps.cons (keeps_rope false rfl (by simp) (by simp [ropeDim])) ?_
  exact Keeps.nil.mono (T.projected_le (by simp [ropeDim]) (by simp [ropeDim])
    (by simp)
    (row_le (by simp) (by simp) (by simp)
      (by simp)))

/-- From the row of a layer to the summands of its attention part. -/
theorem keeps_attBodyCalls (layerIndex : Nat) :
    T.Keeps batchSize T.row (Function.update T.row (.pipe .zq) (some (.parts T.h.dim)))
      (fun r => (T.rankContext r).attBodyCalls layerIndex)
      (T.wholeContext.attBodyCalls layerIndex) := by
  have hwo : T.slices.qSlice.d0 = T.slices.woSlice.n0 :=
    T.width_eq T.slicesOf.qSlice.2 T.slicesOf.woSlice.2
  have hwholeWo : T.wholeSlices.woSlice.n0 = n * T.slices.woSlice.n0 := by
    rw [T.slicesOf.woSlice.2, ← T.wholeSlicesOf.woSlice.2, Nat.one_mul]
  have hshift : T.Keeps batchSize T.projected T.projected
      (fun r => (T.rankContext r).shiftCalls layerIndex)
      (T.wholeContext.shiftCalls layerIndex) := by
    have hsame : ∀ r, (T.rankContext r).shiftCalls layerIndex
        = T.wholeContext.shiftCalls layerIndex := fun _ => rfl
    simp only [hsame]
    exact Keeps.cons (keeps_shift rfl T.projected_pos T.projected_kTemp (T.projected_k _))
      (Keeps.cons (keeps_shift rfl T.projected_pos T.projected_vTemp (T.projected_v _)) Keeps.nil)
  refine Keeps.append (Keeps.append (Keeps.append (T.keeps_attInputCalls layerIndex) hshift)
    Keeps.nil) ?_
  simp only [BlockContext.attOutputCalls, rankContext_h, rankContext_n, wholeContext_h,
    wholeContext_n]
  refine Keeps.cons (keeps_multiHeadAtt (by simp) (by simp)
    (by simp) (by simp)) ?_
  refine Keeps.cons (keeps_castY2 (by simp)) ?_
  simp only [hwo]
  refine Keeps.cons (keeps_matmul_parts (fun s => s.woSlice.n0) (d := T.h.dim)
    (fun _ _ _ _ _ _ _ => rfl) rfl (by simp) rfl hwholeWo fun h => absurd rfl h) ?_
  refine Keeps.cons (keeps_copy rfl (by simp) (Function.update_self ..) rfl) ?_
  refine Keeps.cons (Keeps.sync (fun _ => rfl) rfl) (Keeps.nil.mono ?_)
  exact update_le (by simp) (row_le (by simp) (by simp)
    (by simp) (by simp))

end Segment

end TensorSplit

end PrefillOpt
