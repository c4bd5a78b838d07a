import PrefillOpt.Graph.TensorSlices

/-!
# ShardedOps — the ops of the ranks against the ops of a single node

What is known of a pipe or buffer is how the rows of the ranks make up the row of the single node.
An op that the ranks and the single node execute turns what is known of its inputs into something
that is known of its output, and leaves the rest alone.
-/

namespace PrefillOpt

open Lib

/-- What is known of the pipes and buffers, where anything is. -/
abbrev ShardMap := NnPointerSource → Option Sharding

variable {F : Type} {n : Nat} [Field F] [LinearOrder F] [FloorSemiring F]

/-- The ops among some builder calls, one after the other. -/
def RowNode.run (D : RowNode F) (batchSize : Nat) (calls : List BuilderCall)
    (s : NnMemory (BatchRow F)) : NnMemory (BatchRow F) :=
  (calls.filterMap BuilderCall.op?).foldl (fun s op => D.execute batchSize op s) s

/-- The ops that only write one row for each row of the batch. -/
def NnOpConfig.writesRows (op : NnOpConfig) : Bool :=
  match op.code, op.config with
  | .pruneTokens, _ => false
  | .matmulArgmax, _ => false
  | .argmaxReduce, _ => false
  | _, .shift _ _ => false
  | _, .moeGate _ _ _ => false
  | _, _ => true

theorem RowNode.execute_eq_writeRows (D : RowNode F) {op : NnOpConfig}
    (h : op.writesRows = true) (batchSize : Nat) (s : NnMemory (BatchRow F)) :
    D.execute batchSize op s = D.writeRows batchSize op.output (D.rowOf op s) s := by
  unfold NnOpConfig.writesRows at h
  unfold RowNode.execute
  split at h <;> simp_all

@[simp] theorem source_batch (source : NnPointerSource) :
    (pointerBatchConfig source).source = source := rfl

/-- A batch pointer sees the row as it is. -/
theorem RowNode.load_batch {F : Type} (D : RowNode F) (source : NnPointerSource)
    (s : NnMemory (BatchRow F)) (b : Nat) :
    D.load (pointerBatchConfig source) s b = s (source, b) := by
  funext z x
  have hstart : D.sliceStart (pointerBatchConfig source) = 0 := rfl
  rw [RowNode.load, hstart, Nat.zero_add]
  rfl

namespace TensorSplit

variable (T : TensorSplit F n) (batchSize : Nat)

/-- The memories of the ranks hold what is known of the memory of the single node. -/
structure Sharded (κ : ShardMap) (s : Fin n → NnMemory (BatchRow F)) (u : NnMemory (BatchRow F)) :
    Prop where
  holds : ∀ {source : NnPointerSource} {k : Sharding}, κ source = some k →
    ∀ {b : Nat}, NnRow.inBatch batchSize (source, b) = true → ∀ z,
      k.Holds (fun r => s r (source, b) z) (u (source, b) z)
  position : ∀ b < batchSize, RowNode.position .pos u b < T.h.seqLen

/-- Some calls take what is known to what is known. -/
def Keeps (κ κ' : ShardMap) (calls : Fin n → List BuilderCall) (wholeCalls : List BuilderCall) :
    Prop :=
  ∀ s u, T.Sharded batchSize κ s u →
    T.Sharded batchSize κ' (fun r => (T.rank r).run batchSize (calls r) (s r))
      (T.whole.run batchSize wholeCalls u)

variable {T batchSize}

section Calls

variable {κ κ' κ'' : ShardMap} {calls calls' : Fin n → List BuilderCall}
  {wholeCalls wholeCalls' : List BuilderCall}

theorem Sharded.mono {s : Fin n → NnMemory (BatchRow F)} {u : NnMemory (BatchRow F)}
    (h : T.Sharded batchSize κ s u) (hle : ∀ source k, κ' source = some k → κ source = some k) :
    T.Sharded batchSize κ' s u :=
  ⟨fun hk => h.holds (hle _ _ hk), h.position⟩

/-- A source whose rows are in the batch. -/
theorem Sharded.row {s : Fin n → NnMemory (BatchRow F)} {u : NnMemory (BatchRow F)}
    (h : T.Sharded batchSize κ s u) {source : NnPointerSource} {k : Sharding}
    (hk : κ source = some k) {b : Nat} (hb : b < batchSize) (z : Nat) :
    k.Holds (fun r => s r (source, b) z) (u (source, b) z) :=
  h.holds hk (by simp [NnRow.inBatch, hb]) z

theorem Sharded.position_eq {s : Fin n → NnMemory (BatchRow F)} {u : NnMemory (BatchRow F)}
    (h : T.Sharded batchSize κ s u) (hpos : κ (.pipe .pos) = some .equal) {b : Nat}
    (hb : b < batchSize) (r : Fin n) :
    RowNode.position .pos (s r) b = RowNode.position .pos u b := by
  have hrow : s r (.pipe .pos, b) 0 = u (.pipe .pos, b) 0 := h.row hpos hb 0 r
  rw [RowNode.position, RowNode.position, hrow]

theorem Keeps.nil : T.Keeps batchSize κ κ (fun _ => []) [] := fun _ _ h => h

theorem Keeps.append (h : T.Keeps batchSize κ κ' calls wholeCalls)
    (h' : T.Keeps batchSize κ' κ'' calls' wholeCalls') :
    T.Keeps batchSize κ κ'' (fun r => calls r ++ calls' r) (wholeCalls ++ wholeCalls') := by
  intro s u hs
  have hrun : ∀ (D : RowNode F) (l l' : List BuilderCall) (m : NnMemory (BatchRow F)),
      D.run batchSize (l ++ l') m = D.run batchSize l' (D.run batchSize l m) := by
    intro D l l' m
    simp only [RowNode.run, List.filterMap_append, List.foldl_append]
  simp only [hrun]
  exact h' _ _ (h s u hs)

theorem Keeps.cons {call : Fin n → BuilderCall} {wholeCall : BuilderCall}
    (h : T.Keeps batchSize κ κ' (fun r => [call r]) [wholeCall])
    (h' : T.Keeps batchSize κ' κ'' calls wholeCalls) :
    T.Keeps batchSize κ κ'' (fun r => call r :: calls r) (wholeCall :: wholeCalls) :=
  h.append h'

/-- A sync is none of the ops of its segment. -/
theorem Keeps.sync {call : Fin n → BuilderCall} {wholeCall : BuilderCall}
    (h : ∀ r, (call r).op? = none) (hwhole : wholeCall.op? = none) :
    T.Keeps batchSize κ κ (fun r => [call r]) [wholeCall] := by
  intro s u hs
  simp only [RowNode.run, List.filterMap_cons, List.filterMap_nil, h, hwhole, List.foldl_nil]
  exact hs

theorem Keeps.mono (h : T.Keeps batchSize κ κ' calls wholeCalls)
    (hle : ∀ source k, κ'' source = some k → κ' source = some k) :
    T.Keeps batchSize κ κ'' calls wholeCalls :=
  fun s u hs => (h s u hs).mono hle

theorem Keeps.of_le (h : T.Keeps batchSize κ κ' calls wholeCalls)
    (hle : ∀ source k, κ source = some k → κ'' source = some k) :
    T.Keeps batchSize κ'' κ' calls wholeCalls :=
  fun s u hs => h s u (hs.mono hle)

end Calls

/-! ## Ops with one output row for each row of the batch -/

section Rows

variable {κ : ShardMap} {k : Sharding} {p : NnPointerConfig}

theorem Sharded.writeRows {s : Fin n → NnMemory (BatchRow F)} {u : NnMemory (BatchRow F)}
    (h : T.Sharded batchSize κ s u) (hcache : p.source.isCache = false)
    (hpos : p.source ≠ .pipe .pos) {rows : Fin n → Nat → BatchRow F} {wholeRows : Nat → BatchRow F}
    (hrows : ∀ b < batchSize, ∀ z,
      k.Holds (fun r => (T.rank r).store p (rows r b) (s r (p.source, b)) z)
        (T.whole.store p (wholeRows b) (u (p.source, b)) z)) :
    T.Sharded batchSize (Function.update κ p.source (some k))
      (fun r => (T.rank r).writeRows batchSize p (rows r) (s r))
      (T.whole.writeRows batchSize p wholeRows u) := by
  constructor
  · intro source k' hk b hb z
    by_cases hsource : source = p.source
    · subst hsource
      rw [Function.update_self] at hk
      cases hk
      have hlt : b < batchSize := by simpa [NnRow.inBatch, hcache] using hb
      simp only [RowNode.writeRows, hlt, and_self, if_true]
      exact hrows b hlt z
    · rw [Function.update_of_ne hsource] at hk
      simp only [RowNode.writeRows, hsource, false_and, if_false]
      exact h.holds hk hb z
  · intro b hb
    have hsame : RowNode.position .pos (T.whole.writeRows batchSize p wholeRows u) b
        = RowNode.position .pos u b := by
      simp only [RowNode.position, RowNode.writeRows, hpos.symm, false_and, if_false]
    rw [hsame]
    exact h.position b hb

/-- An op that writes rows, on the ranks and on the single node. -/
theorem keeps_op {op : Fin n → NnOpConfig} {wholeOp : NnOpConfig}
    (hcache : p.source.isCache = false) (hpos : p.source ≠ .pipe .pos)
    (hop : ∀ r, (op r).writesRows = true ∧ (op r).output = p)
    (hwhole : wholeOp.writesRows = true ∧ wholeOp.output = p)
    (hrows : ∀ s u, T.Sharded batchSize κ s u → ∀ b < batchSize, ∀ z,
      k.Holds (fun r => (T.rank r).store p ((T.rank r).rowOf (op r) (s r) b) (s r (p.source, b)) z)
        (T.whole.store p (T.whole.rowOf wholeOp u b) (u (p.source, b)) z)) :
    T.Keeps batchSize κ (Function.update κ p.source (some k)) (fun r => [.addOp (op r)])
      [.addOp wholeOp] := by
  intro s u hs
  simp only [RowNode.run, List.filterMap_cons, List.filterMap_nil, BuilderCall.op?,
    List.foldl_cons, List.foldl_nil, RowNode.execute_eq_writeRows _ (hop _).1,
    RowNode.execute_eq_writeRows _ hwhole.1, (hop _).2, hwhole.2]
  exact hs.writeRows hcache hpos (hrows s u hs)

/-- An op whose output is the row behind a batch pointer. -/
theorem keeps_batchOp {op : Fin n → NnOpConfig} {wholeOp : NnOpConfig} {output : NnPointerSource}
    (hcache : output.isCache = false) (hpos : output ≠ .pipe .pos)
    (hop : ∀ r, (op r).writesRows = true ∧ (op r).output = pointerBatchConfig output)
    (hwhole : wholeOp.writesRows = true ∧ wholeOp.output = pointerBatchConfig output)
    (hrows : ∀ s u, T.Sharded batchSize κ s u → ∀ b < batchSize, ∀ z,
      k.Holds (fun r => (T.rank r).rowOf (op r) (s r) b z) (T.whole.rowOf wholeOp u b z)) :
    T.Keeps batchSize κ (Function.update κ output (some k)) (fun r => [.addOp (op r)])
      [.addOp wholeOp] :=
  keeps_op (p := pointerBatchConfig output) hcache hpos hop hwhole hrows

end Rows

/-! ## Casts and sums -/

section Casts

variable {κ : ShardMap} {name : OpName} {index w : Nat} {input output : NnPointerSource}

/-- A slot through the float types of two sources. -/
def castSlot (T : TensorSplit F n) (input output : NnPointerSource) (v : Nat → F) : Nat → F :=
  if input.floatType T.h.syncType = output.floatType T.h.syncType then v
  else mapBlocks 32 (T.model.math.convert (input.floatType T.h.syncType)
    (output.floatType T.h.syncType)) v

omit [LinearOrder F] [FloorSemiring F] in
/-- The ranks and the single node cast alike. -/
theorem castRow_eq (T : TensorSplit F n) (row : BatchRow F) (z : Nat) :
    (∀ r, (T.rank r).castRow input output row z = castSlot T input output (row z)) ∧
      T.whole.castRow input output row z = castSlot T input output (row z) := by
  unfold castSlot
  split_ifs with hsame
  · exact ⟨fun r => congrFun (if_pos hsame) z, congrFun (if_pos hsame) z⟩
  · exact ⟨fun r => congrFun (if_neg hsame) z, congrFun (if_neg hsame) z⟩

/-- Quantised blocks are whole on every rank. -/
def WholeBlocks (T : TensorSplit F n) (input output : NnPointerSource) (w : Nat) : Prop :=
  input.floatType T.h.syncType ≠ output.floatType T.h.syncType → 32 ∣ w

theorem floatType_f32 (source : NnPointerSource) : source.floatType .f32 = .f32 := by
  unfold NnPointerSource.floatType
  split <;> rfl

omit [Field F] [LinearOrder F] [FloorSemiring F] in
/-- Without quantised rows there are no casts between float types. -/
theorem wholeBlocks_of_dvd (hdvd : T.h.syncType ≠ .f32 → 32 ∣ w) :
    WholeBlocks T input output w := by
  intro hne
  refine hdvd fun hsync => hne ?_
  rw [hsync, floatType_f32, floatType_f32]

omit [Field F] [LinearOrder F] [FloorSemiring F] in
/-- The row of a layer is cut into whole blocks, hence has whole blocks. -/
theorem wholeBlocks_dim : WholeBlocks T input output T.h.dim := by
  refine wholeBlocks_of_dvd fun hsync => ?_
  rw [← T.slicesOf.wclsSlice.2]
  exact Dvd.dvd.mul_left (T.blocks hsync).1 n

variable {v : Fin n → Nat → F} {u : Nat → F}

omit [LinearOrder F] [FloorSemiring F] in
theorem castSlot_copies (hblocks : WholeBlocks T input output w)
    (h : (Sharding.copies w).Holds v u) :
    (Sharding.copies w).Holds (fun r => castSlot T input output (v r))
      (castSlot T input output u) := by
  unfold castSlot
  split_ifs with hsame
  · exact h
  · exact copies_mapBlocks _ (hblocks hsame) h

omit [LinearOrder F] [FloorSemiring F] in
theorem castSlot_cut (hblocks : WholeBlocks T input output w) (h : (Sharding.cut w).Holds v u) :
    (Sharding.cut w).Holds (fun r => castSlot T input output (v r))
      (castSlot T input output u) := by
  unfold castSlot
  split_ifs with hsame
  · exact h
  · exact cut_mapBlocks _ (by decide) (hblocks hsame) h

variable (hcache : output.isCache = false) (hpos : output ≠ .pipe .pos)
include hcache hpos

/-- A cast between equal float types keeps whatever is known. -/
theorem keeps_copy {k : Sharding} (hin : κ input = some k)
    (hsame : input.floatType T.h.syncType = output.floatType T.h.syncType) :
    T.Keeps batchSize κ (Function.update κ output (some k))
      (fun _ => [BlockContext.castOp name index input output])
      [BlockContext.castOp name index input output] := by
  refine keeps_batchOp hcache hpos (fun _ => ⟨rfl, rfl⟩) ⟨rfl, rfl⟩ fun s u hs b hb z => ?_
  have hrow := hs.row hin hb z
  simp only [RowNode.rowOf, RowNode.load_batch, source_batch, (castRow_eq T _ z).1,
    (castRow_eq T _ z).2, castSlot, if_pos hsame]
  exact hrow

theorem keeps_cast_copies (hin : κ input = some (.copies w))
    (hblocks : WholeBlocks T input output w) :
    T.Keeps batchSize κ (Function.update κ output (some (.copies w)))
      (fun _ => [BlockContext.castOp name index input output])
      [BlockContext.castOp name index input output] := by
  refine keeps_batchOp hcache hpos (fun _ => ⟨rfl, rfl⟩) ⟨rfl, rfl⟩ fun s u hs b hb z => ?_
  simp only [RowNode.rowOf, RowNode.load_batch, source_batch, (castRow_eq T _ z).1,
    (castRow_eq T _ z).2]
  exact castSlot_copies hblocks (hs.row hin hb z)

theorem keeps_cast_cut (hin : κ input = some (.cut w)) (hblocks : WholeBlocks T input output w) :
    T.Keeps batchSize κ (Function.update κ output (some (.cut w)))
      (fun _ => [BlockContext.castOp name index input output])
      [BlockContext.castOp name index input output] := by
  refine keeps_batchOp hcache hpos (fun _ => ⟨rfl, rfl⟩) ⟨rfl, rfl⟩ fun s u hs b hb z => ?_
  simp only [RowNode.rowOf, RowNode.load_batch, source_batch, (castRow_eq T _ z).1,
    (castRow_eq T _ z).2]
  exact castSlot_cut hblocks (hs.row hin hb z)

/-- Every slot gets the cast of the first one. -/
theorem keeps_repeatZ (hin : κ input = some (.copies w)) (hblocks : WholeBlocks T input output w) :
    T.Keeps batchSize κ (Function.update κ output (some (.copies w)))
      (fun _ => [BlockContext.batchOp .repeatZ name index input output size0 .repeatZ])
      [BlockContext.batchOp .repeatZ name index input output size0 .repeatZ] := by
  refine keeps_batchOp hcache hpos (fun _ => ⟨rfl, rfl⟩) ⟨rfl, rfl⟩ fun s u hs b hb z => ?_
  simp only [RowNode.rowOf, RowNode.load_batch, source_batch, (castRow_eq T _ 0).1,
    (castRow_eq T _ 0).2]
  exact castSlot_copies hblocks (hs.row hin hb 0)

omit hcache hpos in
/-- The casts that are left out where the two buffers are one. -/
theorem keeps_castUnless {a b : BufferIndex} {p : Prop} [Decidable p] (hp : ¬ p → a = b)
    {k : Sharding} (hin : κ (.buffer a) = some k)
    (hcast : T.Keeps batchSize κ (Function.update κ (.buffer b) (some k))
      (fun _ => [BlockContext.castOp name index (.buffer a) (.buffer b)])
      [BlockContext.castOp name index (.buffer a) (.buffer b)]) :
    T.Keeps batchSize κ (Function.update κ (.buffer b) (some k))
      (fun _ => if p then [BlockContext.castOp name index (.buffer a) (.buffer b)] else [])
      (if p then [BlockContext.castOp name index (.buffer a) (.buffer b)] else []) := by
  by_cases h : p
  · simp only [if_pos h]
    exact hcast
  · simp only [if_neg h]
    rw [← hp h, Function.update_eq_self_iff.2 hin.symm]
    exact Keeps.nil

end Casts

section Sums

variable {κ : ShardMap} {name : OpName} {index w : Nat}

/-- What is pending in the `ZQ` pipe is added to a row that every rank has. -/
theorem keeps_mergeAdd (hx : κ (.buffer .x) = some (.copies w))
    (hzq : κ (.pipe .zq) = some (.copies w)) :
    T.Keeps batchSize κ (Function.update κ (.buffer .x) (some (.copies w)))
      (fun _ => [BlockContext.mergeAddOp name index]) [BlockContext.mergeAddOp name index] := by
  refine keeps_batchOp rfl (by simp) (fun _ => ⟨rfl, rfl⟩) ⟨rfl, rfl⟩
    fun s u hs b hb z r x hlt => ?_
  simp only [RowNode.rowOf, RowNode.load_batch]
  exact congrArg₂ (· + ·) (hs.row hx hb z r x hlt) (hs.row hzq hb z r x hlt)

end Sums

/-! ## Norms -/

section Norms

variable {κ : ShardMap} {name : OpName} {index w m size : Nat} {input output : BufferIndex}

omit [LinearOrder F] [FloorSemiring F] in
theorem invRms_congr {D D' : RowNode F} (hmath : D.math = D'.math) {x x' : Mem F} {off off' : Nat}
    (h : ∀ j < size, x (off + j) = x' (off' + j)) (epsilon : ℚ) :
    D.invRms x off size epsilon = D'.invRms x' off' size epsilon := by
  have hsum : ∑ j ∈ Finset.range size, x (off + j) * x (off + j)
      = ∑ j ∈ Finset.range size, x' (off' + j) * x' (off' + j) :=
    Finset.sum_congr rfl fun j hj => by rw [h j (Finset.mem_range.1 hj)]
  rw [RowNode.invRms, RowNode.invRms, hmath, hsum]

/-- The statistics of a row that every rank has. -/
theorem keeps_invRms_copies (hin : κ (.buffer input) = some (.copies w))
    (hw : ∀ r, (T.rank r).width (.buffer input) = w) (hwhole : T.whole.width (.buffer input) = w) :
    T.Keeps batchSize κ (Function.update κ (.buffer .invRms) (some (.copies 1)))
      (fun r => [(T.rankContext r).invRmsOp name index input 1])
      [T.wholeContext.invRmsOp name index input 1] := by
  refine keeps_batchOp rfl (by simp) (fun _ => ⟨rfl, rfl⟩) ⟨rfl, rfl⟩
    fun s u hs b hb z r col hcol => ?_
  simp only [RowNode.rowOf, RowNode.load_batch, source_batch, hw, hwhole, Nat.div_one]
  refine invRms_congr rfl (fun j hj => hs.row hin hb z r _ ?_) T.h.normEpsilon
  rw [Nat.lt_one_iff.1 hcol, Nat.zero_mul, Nat.zero_add]
  exact hj

/-- The statistics of the heads of a rank are those of its heads in the whole row. -/
theorem keeps_invRms_cut (hin : κ (.buffer input) = some (.cut (m * size)))
    (hw : ∀ r, (T.rank r).width (.buffer input) = m * size)
    (hwhole : T.whole.width (.buffer input) = n * m * size) :
    T.Keeps batchSize κ (Function.update κ (.buffer .invRms) (some (.cut m)))
      (fun r => [(T.rankContext r).invRmsOp name index input m])
      [T.wholeContext.invRmsOp name index input (n * m)] := by
  refine keeps_batchOp rfl (by simp) (fun _ => ⟨rfl, rfl⟩) ⟨rfl, rfl⟩
    fun s u hs b hb z r col hcol => ?_
  have hm : 0 < m := by omega
  have hcols : m * size / m = size := Nat.mul_div_cancel_left size hm
  have hwholeCols : n * m * size / (n * m) = size :=
    Nat.mul_div_cancel_left size (Nat.mul_pos T.ranks_pos hm)
  simp only [RowNode.rowOf, RowNode.load_batch, source_batch, hw, hwhole, hcols, hwholeCols]
  refine invRms_congr rfl (fun j hj => ?_) T.h.normEpsilon
  have hrow := hs.row hin hb z r (col * size + j) (add_mul_lt hcol hj)
  simp only at hrow
  rw [hrow, Nat.add_mul, Nat.mul_assoc, Nat.add_assoc]

/-- A weight that is not cut. -/
def Unsliced (name : OpName) : Prop :=
  ∀ (s : LlmSlices) (r : Nat) (weight : OpName → Nat → Nat → Nat → Nat → F),
    rankWeight s r weight name = weight name

theorem keeps_rmsNorm_copies (hname : Unsliced (F := F) name) {weightSize : NnSize3D}
    {nColumns : Fin n → Nat} {wholeColumns : Nat} (hsize : weightSize.x = w)
    (hin : κ (.buffer input) = some (.copies w))
    (hinv : κ (.buffer .invRms) = some (.copies 1))
    (hcache : (NnPointerSource.buffer output).isCache = false) :
    T.Keeps batchSize κ (Function.update κ (.buffer output) (some (.copies w)))
      (fun r => [BlockContext.rmsNormOp name index input output weightSize (nColumns r)])
      [BlockContext.rmsNormOp name index input output weightSize wholeColumns] := by
  refine keeps_batchOp hcache (by simp) (fun _ => ⟨rfl, rfl⟩) ⟨rfl, rfl⟩
    fun s u hs b hb z r x hx => ?_
  subst hsize
  have hweight : ∀ i, (T.rank r).weight name index 0 0 i = T.whole.weight name index 0 0 i :=
    fun i => (congrFun₂ (congrFun₂ (hname _ _ _) index 0) 0 i).trans
      (congrFun₂ (congrFun₂ (hname _ _ _) index 0) 0 i).symm
  have hstat : s r (.buffer .invRms, b) 0 (x / weightSize.x)
      = u (.buffer .invRms, b) 0 (x / weightSize.x) := by
    rw [Nat.div_eq_of_lt hx]
    exact hs.row hinv hb 0 r 0 Nat.one_pos
  have hrow : s r (.buffer input, b) z x = u (.buffer input, b) z x := hs.row hin hb z r x hx
  simp only [RowNode.rowOf, RowNode.load_batch]
  rw [hweight, hstat, hrow]

/-- A norm of heads: every head has its own statistics and all have one weight. -/
theorem keeps_rmsNorm_cut (hname : Unsliced (F := F) name) {weightSize : NnSize3D}
    (hsize : 0 < weightSize.x) {nColumns : Fin n → Nat} {wholeColumns : Nat}
    (hin : κ (.buffer input) = some (.cut (m * weightSize.x)))
    (hinv : κ (.buffer .invRms) = some (.cut m))
    (hcache : (NnPointerSource.buffer output).isCache = false) :
    T.Keeps batchSize κ (Function.update κ (.buffer output) (some (.cut (m * weightSize.x))))
      (fun r => [BlockContext.rmsNormOp name index input output weightSize (nColumns r)])
      [BlockContext.rmsNormOp name index input output weightSize wholeColumns] := by
  refine keeps_batchOp hcache (by simp) (fun _ => ⟨rfl, rfl⟩) ⟨rfl, rfl⟩
    fun s u hs b hb z r x hx => ?_
  have hweight : ∀ i, (T.rank r).weight name index 0 0 i = T.whole.weight name index 0 0 i :=
    fun i => (congrFun₂ (congrFun₂ (hname _ _ _) index 0) 0 i).trans
      (congrFun₂ (congrFun₂ (hname _ _ _) index 0) 0 i).symm
  rcases div_mod_cut (m := m) (r := r.val) (x := x) hsize with ⟨hdiv, hmod⟩
  have hstat : s r (.buffer .invRms, b) 0 (x / weightSize.x)
      = u (.buffer .invRms, b) 0 (r.val * m + x / weightSize.x) :=
    hs.row hinv hb 0 r _ (div_lt_of_lt_blocks hx)
  have hrow : s r (.buffer input, b) z x
      = u (.buffer input, b) z (r.val * (m * weightSize.x) + x) := hs.row hin hb z r x hx
  simp only [RowNode.rowOf, RowNode.load_batch]
  rw [hweight, hstat, hrow, hdiv, hmod]

end Norms

/-! ## Products -/

section Products

variable {κ : ShardMap} {name : OpName} {index m nExperts nActiveExperts : Nat}
  {input output : BufferIndex} {weightSize wholeSize : NnSize3D}

/-- The ranks choose the expert that the single node chooses. -/
def SelectsAlike (T : TensorSplit F n) (κ : ShardMap) (input : NnPointerSource)
    (nActiveExperts : Nat) : Prop :=
  nActiveExperts ≠ 0 → κ (.buffer .actExpIx) = some .equal ∧
    (∀ r, (T.rank r).slots input ≠ 1) ∧ T.whole.slots input ≠ 1

theorem expertOf_eq {s : Fin n → NnMemory (BatchRow F)} {u : NnMemory (BatchRow F)}
    (hs : T.Sharded batchSize κ s u) {op wholeOp : NnOpConfig}
    (hin : op.input.source = wholeOp.input.source)
    (hsel : SelectsAlike T κ wholeOp.input.source nActiveExperts) {b : Nat} (hb : b < batchSize)
    (z : Nat) (r : Fin n) :
    (T.rank r).expertOf op nActiveExperts .actExpIx (s r) b z
      = T.whole.expertOf wholeOp nActiveExperts .actExpIx u b z := by
  unfold RowNode.expertOf
  by_cases hnone : nActiveExperts = 0
  · rw [if_pos hnone, if_pos hnone]
  · rcases hsel hnone with ⟨hindexes, hrank, hwhole⟩
    have hrow : s r (.buffer .actExpIx, b) 0 = u (.buffer .actExpIx, b) 0 := hs.row hindexes hb 0 r
    rw [if_neg hnone, if_neg hnone, if_neg fun h => hrank r (hin ▸ h.1), if_neg fun h => hwhole h.1,
      hrow]

/-- A product with the whole weight. -/
theorem keeps_matmul_equal (hname : Unsliced (F := F) name)
    (hcache : (NnPointerSource.buffer output).isCache = false)
    (hin : κ (.buffer input) = some (.copies weightSize.y)) :
    T.Keeps batchSize κ (Function.update κ (.buffer output) (some .equal))
      (fun _ => [BlockContext.matmulOp name index input output weightSize 0 0])
      [BlockContext.matmulOp name index input output weightSize 0 0] := by
  refine keeps_batchOp hcache (by simp) (fun _ => ⟨rfl, rfl⟩) ⟨rfl, rfl⟩ fun s u hs b hb z r => ?_
  have hweight : (T.rank r).weight name index 0 = T.whole.weight name index 0 :=
    (congrFun₂ (hname _ _ _) index 0).trans (congrFun₂ (hname _ _ _) index 0).symm
  simp only [RowNode.rowOf, RowNode.load_batch, RowNode.expertOf, if_true]
  rw [hweight]
  exact equal_dotRow _ (hs.row hin hb z) r

/-- A product with rows of the weight: every rank has its part of the outputs. -/
theorem keeps_matmul_cut (d0 : LlmSlices → Nat)
    (hweight : ∀ (s : LlmSlices) (r : Nat) (W : OpName → Nat → Nat → Nat → Nat → F)
      (index e i j : Nat), rankWeight s r W name index e i j = W name index e (r * d0 s + i) j)
    (hcache : (NnPointerSource.buffer output).isCache = false)
    (hin : κ (.buffer input) = some (.copies m)) (hy : weightSize.y = m) (hwhole : wholeSize.y = m)
    (hsel : SelectsAlike T κ (.buffer input) nActiveExperts) :
    T.Keeps batchSize κ (Function.update κ (.buffer output) (some (.cut (d0 T.slices))))
      (fun _ => [BlockContext.matmulOp name index input output weightSize nExperts nActiveExperts])
      [BlockContext.matmulOp name index input output wholeSize nExperts nActiveExperts] := by
  refine keeps_batchOp hcache (by simp) (fun _ => ⟨rfl, rfl⟩) ⟨rfl, rfl⟩ fun s u hs b hb z => ?_
  simp only [RowNode.rowOf, RowNode.load_batch, hy, hwhole]
  refine cut_dotRow (fun r i _ j _ => ?_) (hs.row hin hb z)
  have hw : T.whole.weight name index = fun e i j => T.model.weight name index e i j := by
    funext e i j
    exact (hweight _ 0 T.model.weight index e i j).trans (by rw [Nat.zero_mul, Nat.zero_add])
  refine (hweight _ r.val T.model.weight index _ i j).trans ?_
  rw [hw]
  exact congrArg (fun e => T.model.weight name index e (r.val * d0 T.slices + i) j)
    (expertOf_eq hs (by rfl) hsel hb z r)

/-- A product with columns of the weight: what the ranks have are summands. -/
theorem keeps_matmul_parts (n0 : LlmSlices → Nat) {d : Nat}
    (hweight : ∀ (s : LlmSlices) (r : Nat) (W : OpName → Nat → Nat → Nat → Nat → F)
      (index e i j : Nat), rankWeight s r W name index e i j = W name index e i (r * n0 s + j))
    (hcache : (NnPointerSource.buffer output).isCache = false)
    (hin : κ (.buffer input) = some (.cut (n0 T.slices))) (hy : weightSize.y = n0 T.slices)
    (hwhole : wholeSize.y = n * n0 T.slices)
    (hsel : SelectsAlike T κ (.buffer input) nActiveExperts) :
    T.Keeps batchSize κ (Function.update κ (.buffer output) (some (.parts d)))
      (fun _ => [BlockContext.matmulOp name index input output weightSize nExperts nActiveExperts])
      [BlockContext.matmulOp name index input output wholeSize nExperts nActiveExperts] := by
  refine keeps_batchOp hcache (by simp) (fun _ => ⟨rfl, rfl⟩) ⟨rfl, rfl⟩ fun s u hs b hb z => ?_
  simp only [RowNode.rowOf, RowNode.load_batch, hy, hwhole]
  refine parts_dotRow (fun r i _ j _ => ?_) (hs.row hin hb z)
  have hw : T.whole.weight name index = fun e i j => T.model.weight name index e i j := by
    funext e i j
    exact (hweight _ 0 T.model.weight index e i j).trans (by rw [Nat.zero_mul, Nat.zero_add])
  refine (hweight _ r.val T.model.weight index _ i j).trans ?_
  rw [hw]
  exact congrArg (fun e => T.model.weight name index e i (r.val * n0 T.slices + j))
    (expertOf_eq hs (by rfl) hsel hb z r)

end Products

/-! ## Between the segments -/

section Known

variable (T) in
/-- The positions, and the keys and values of the heads of a rank. -/
def base : ShardMap
  | .pipe .pos => some .equal
  | .buffer (.k _) => some (.cut T.slices.kSlice.d0)
  | .buffer (.v _) => some (.cut T.slices.kSlice.d0)
  | _ => none

variable (T) in
/-- Within the layers every rank has their row. -/
def row : ShardMap := Function.update T.base (.buffer .x) (some (.copies T.h.dim))

omit [Field F] [LinearOrder F] [FloorSemiring F] in
@[simp] theorem row_x : T.row (.buffer .x) = some (.copies T.h.dim) := Function.update_self ..

omit [Field F] [LinearOrder F] [FloorSemiring F] in
@[simp] theorem row_pos : T.row (.pipe .pos) = some .equal := by
  rw [row, Function.update_of_ne (by simp)]
  rfl

omit [Field F] [LinearOrder F] [FloorSemiring F] in
@[simp] theorem row_k (layerIndex : Nat) :
    T.row (.buffer (.k layerIndex)) = some (.cut T.slices.kSlice.d0) := by
  rw [row, Function.update_of_ne (by simp)]
  rfl

omit [Field F] [LinearOrder F] [FloorSemiring F] in
@[simp] theorem row_v (layerIndex : Nat) :
    T.row (.buffer (.v layerIndex)) = some (.cut T.slices.kSlice.d0) := by
  rw [row, Function.update_of_ne (by simp)]
  rfl

variable {κ : ShardMap}

omit [Field F] [LinearOrder F] [FloorSemiring F] in
theorem base_le (hpos : κ (.pipe .pos) = some .equal)
    (hk : ∀ layerIndex, κ (.buffer (.k layerIndex)) = some (.cut T.slices.kSlice.d0))
    (hv : ∀ layerIndex, κ (.buffer (.v layerIndex)) = some (.cut T.slices.kSlice.d0)) :
    ∀ source k, T.base source = some k → κ source = some k := by
  intro source k h
  unfold base at h
  split at h
  · exact hpos.trans h
  · exact (hk _).trans h
  · exact (hv _).trans h
  · cases h

omit [Field F] [LinearOrder F] [FloorSemiring F] in
theorem update_le {κ' : ShardMap} {source : NnPointerSource} {k : Sharding}
    (h : κ source = some k) (hle : ∀ source k, κ' source = some k → κ source = some k) :
    ∀ source' k', Function.update κ' source (some k) source' = some k' → κ source' = some k' := by
  intro source' k' h'
  rcases eq_or_ne source' source with rfl | hne
  · rw [Function.update_self] at h'
    exact h.trans h'
  · rw [Function.update_of_ne hne] at h'
    exact hle _ _ h'

omit [Field F] [LinearOrder F] [FloorSemiring F] in
theorem row_le (hx : κ (.buffer .x) = some (.copies T.h.dim))
    (hpos : κ (.pipe .pos) = some .equal)
    (hk : ∀ layerIndex, κ (.buffer (.k layerIndex)) = some (.cut T.slices.kSlice.d0))
    (hv : ∀ layerIndex, κ (.buffer (.v layerIndex)) = some (.cut T.slices.kSlice.d0)) :
    ∀ source k, T.row source = some k → κ source = some k :=
  update_le hx (base_le hpos hk hv)

end Known

end TensorSplit

/-! ## Buffers that stand for others -/

namespace BlockContext

variable {c : BlockContext} {b : BufferIndex}

theorem ite_buffer_ne {p : Prop} [Decidable p] {a a' : BufferIndex} (h : b ≠ a) (h' : b ≠ a') :
    (if p then a else a') ≠ b := by
  split_ifs
  · exact h.symm
  · exact h'.symm

theorem ite_isCache {p : Prop} [Decidable p] {a a' : BufferIndex}
    (h : (NnPointerSource.buffer a).isCache = false)
    (h' : (NnPointerSource.buffer a').isCache = false) :
    (NnPointerSource.buffer (if p then a else a')).isCache = false := by
  split_ifs
  · exact h
  · exact h'

@[simp] theorem yq_ne (h : b ≠ .y) (hq : b ≠ .qY) : c.yqBufferIndex ≠ b := ite_buffer_ne h hq

@[simp] theorem ne_yq (h : b ≠ .y) (hq : b ≠ .qY) : b ≠ c.yqBufferIndex := (yq_ne h hq).symm

@[simp] theorem yq_isCache : (NnPointerSource.buffer c.yqBufferIndex).isCache = false :=
  ite_isCache rfl rfl

@[simp] theorem dq_ne (h : b ≠ .d) (hq : b ≠ .qD) : c.dqBufferIndex ≠ b := ite_buffer_ne h hq

@[simp] theorem ne_dq (h : b ≠ .d) (hq : b ≠ .qD) : b ≠ c.dqBufferIndex := (dq_ne h hq).symm

@[simp] theorem dq_isCache : (NnPointerSource.buffer c.dqBufferIndex).isCache = false :=
  ite_isCache rfl rfl

@[simp] theorem moeYq_ne (h : b ≠ .moeY) (hq : b ≠ .qMoeY) : c.moeYqBufferIndex ≠ b :=
  ite_buffer_ne h hq

@[simp] theorem ne_moeYq (h : b ≠ .moeY) (hq : b ≠ .qMoeY) : b ≠ c.moeYqBufferIndex :=
  (moeYq_ne h hq).symm

@[simp] theorem moeYq_isCache : (NnPointerSource.buffer c.moeYqBufferIndex).isCache = false :=
  ite_isCache rfl rfl

@[simp] theorem moeDq_ne (h : b ≠ .moeD) (hq : b ≠ .qMoeD) : c.moeDQBufferIndex ≠ b :=
  ite_buffer_ne h hq

@[simp] theorem ne_moeDq (h : b ≠ .moeD) (hq : b ≠ .qMoeD) : b ≠ c.moeDQBufferIndex :=
  (moeDq_ne h hq).symm

@[simp] theorem moeDq_isCache : (NnPointerSource.buffer c.moeDQBufferIndex).isCache = false :=
  ite_isCache rfl rfl

end BlockContext

namespace TensorSplit

variable {F : Type} {n : Nat} (T : TensorSplit F n) (r : Fin n)

@[simp] theorem rankContext_yq :
    (T.rankContext r).yqBufferIndex = T.wholeContext.yqBufferIndex := rfl

@[simp] theorem rankContext_dq :
    (T.rankContext r).dqBufferIndex = T.wholeContext.dqBufferIndex := rfl

@[simp] theorem rankContext_moeYq :
    (T.rankContext r).moeYqBufferIndex = T.wholeContext.moeYqBufferIndex := rfl

@[simp] theorem rankContext_moeDq :
    (T.rankContext r).moeDQBufferIndex = T.wholeContext.moeDQBufferIndex := rfl

end TensorSplit
end PrefillOpt
