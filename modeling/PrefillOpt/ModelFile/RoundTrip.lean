import PrefillOpt.ModelFile.HeaderRoundTrip

/-!
# ModelFile.RoundTrip — the program reads what the converter writes

Every load takes as many bytes as the tensor that was written at its turn, so the cursor never
leaves the plan and ends with the file.
-/

namespace PrefillOpt
namespace ModelFile

open Network (NnRootWeightLoader)

/-! ## The cursor -/

theorem visit_flatten {loads : List WeightLoad} {tensors : List (List UInt8)}
    (h : loads.map WeightLoad.nBytes = tensors.map List.length) (before : List UInt8) :
    visit (before ++ tensors.flatten) before.length loads = loads.zip tensors ∧
    cursorEnd before.length loads = (before ++ tensors.flatten).length := by
  induction loads generalizing tensors before with
  | nil =>
      cases tensors with
      | nil => exact ⟨rfl, by simp [cursorEnd]⟩
      | cons tensor tensors => cases h
  | cons load loads ih =>
      cases tensors with
      | nil => cases h
      | cons tensor tensors =>
          rw [List.map_cons, List.map_cons, List.cons.injEq] at h
          have hnext := ih h.2 (before ++ tensor)
          rw [List.length_append, ← h.1, List.append_assoc] at hnext
          refine ⟨?_, ?_⟩
          · rw [visit, List.flatten_cons, hnext.1, List.drop_left, h.1, List.take_left]
            rfl
          · rw [List.flatten_cons, ← hnext.2]
            rfl

/-- The loop of the converter, item by item. -/
theorem map_of_mapM_ok {α γ δ : Type} {f : α → Except String γ} {g : γ → δ} {g' : α → δ}
    {l : List α} {rs : List γ} (h : l.mapM f = .ok rs)
    (hg : ∀ a ∈ l, ∀ r, f a = .ok r → g r = g' a) : rs.map g = l.map g' := by
  induction l generalizing rs with
  | nil =>
      cases h
      rfl
  | cons a l ih =>
      rw [List.mapM_cons] at h
      rcases bind_eq_ok h with ⟨r, hr, h⟩
      rcases bind_eq_ok h with ⟨rs', hrs, h⟩
      cases h
      rw [List.map_cons, List.map_cons, hg a (List.mem_cons_self ..) r hr,
        ih hrs fun b hb => hg b (List.mem_cons_of_mem _ hb)]

/-! ## The tensors -/

namespace Config

variable (c : Config)

/-- The size of a head of a checkpoint. -/
def impliedHeadDim : Nat := c.headDim.getD (c.dim / c.nHeads)

/-- The width of an expert of a checkpoint. -/
def expertDim : Nat := c.moeHiddenDim.getD c.hiddenDim

/-- The shapes that the configuration implies, outputs before inputs. -/
def shapeOf : TensorName → List Nat
  | .embedTokens => [c.vocabSize, c.dim]
  | .qProj _ => [c.nHeads * c.impliedHeadDim, c.dim]
  | .kProj _ => [c.nKvHeads * c.impliedHeadDim, c.dim]
  | .vProj _ => [c.nKvHeads * c.impliedHeadDim, c.dim]
  | .oProj _ => [c.dim, c.nHeads * c.impliedHeadDim]
  | .gate _ => [c.nExperts, c.dim]
  | .expertGateProj _ _ => [c.expertDim, c.dim]
  | .expertDownProj _ _ => [c.dim, c.expertDim]
  | .expertUpProj _ _ => [c.expertDim, c.dim]
  | .gateProj _ => [c.hiddenDim, c.dim]
  | .downProj _ => [c.dim, c.hiddenDim]
  | .upProj _ => [c.hiddenDim, c.dim]
  | .qNorm _ => [c.impliedHeadDim]
  | .kNorm _ => [c.impliedHeadDim]
  | .inputLayernorm _ => [c.dim]
  | .postAttentionLayernorm _ => [c.dim]
  | .norm => [c.dim]
  | .lmHead => [c.vocabSize, c.dim]

/-- A checkpoint whose tensors have these shapes. -/
def HasShapes {α : Type} (model : TensorName → Option (Tensor α)) : Prop :=
  ∀ name, ∀ t ∈ model name, t.shape = c.shapeOf name

/-- The bytes of a tensor in the file. -/
def itemBytes (p : PlanItem) : Nat := getBytes p.floatType (c.shapeOf p.name).prod

end Config

theorem getBytes_blocks {floatType : NnFloatType} {n : Nat} (hpos : getBlockSize floatType ≠ 0)
    (hwhole : n % getBlockSize floatType = 0) :
    n / getBlockSize floatType * getBytes floatType (getBlockSize floatType)
      = getBytes floatType n := by
  cases floatType with
  | unk => exact absurd rfl hpos
  | f32 => simp [getBlockSize, getBytes]
  | f16 => simp [getBlockSize, getBytes]
  | q40 => rfl
  | q80 => rfl

section Write

variable {α : Type} {codec : BlockCodec α} {t t' : Tensor α} {bytes : List UInt8}

theorem writeTensor_length {floatType : NnFloatType}
    (h : writeTensor codec t floatType = .ok bytes) :
    bytes.length = getBytes floatType t.numel := by
  simp only [writeTensor] at h
  split_ifs at h with hzero
  · cases h
  rcases bind_eq_ok h with ⟨_, -, h⟩
  rcases bind_eq_ok h with ⟨_, hwhole, h⟩
  cases h
  have hmod : t.numel % getBlockSize floatType = 0 := by
    simpa using assertThat_eq_ok hwhole
  rw [List.length_flatMap]
  simp only [codec.pack_length, List.map_const', List.sum_replicate_nat, List.length_range]
  exact getBytes_blocks hzero hmod

theorem permute_shape {nHeads nKvHeads : Nat} (h : t.permute nHeads nKvHeads = .ok t') :
    t'.shape = t.shape := by
  rcases bind_eq_ok h with ⟨rows, -, h⟩
  cases h
  rfl

theorem applyTransform_shape {c : Config} {transform : Option Transform}
    (h : c.applyTransform t transform = .ok t') : t'.shape = t.shape := by
  unfold Config.applyTransform at h
  split at h
  · cases h
    rfl
  · split_ifs at h
    · exact permute_shape h
    · cases h
      rfl
  · split_ifs at h
    · exact permute_shape h
    · cases h
      rfl

/-- What is written for an item has the bytes of its shape. -/
theorem writeItem_length {c : Config} {model : TensorName → Option (Tensor α)}
    (hshapes : c.HasShapes model) {p : PlanItem}
    (hfallback : ∀ name ∈ p.fallback, c.shapeOf name = c.shapeOf p.name)
    (h : c.writeItem codec model p = .ok bytes) : bytes.length = c.itemBytes p := by
  rcases bind_eq_ok h with ⟨t, hfind, h⟩
  rcases bind_eq_ok h with ⟨t', htransform, h⟩
  have hshape : t.shape = c.shapeOf p.name := by
    unfold Config.findTensor at hfind
    split at hfind
    · rename_i t' hsome
      cases hfind
      rcases List.exists_of_findSome?_eq_some hsome with ⟨name, hname, ht⟩
      rw [hshapes name t ht]
      rcases List.mem_cons.1 hname with rfl | hname
      · rfl
      · exact hfallback name hname
    · cases hfind
  rw [writeTensor_length h, Tensor.numel, applyTransform_shape htransform, hshape]
  rfl

theorem fallback_layerPlan {c : Config} {l : Nat} : ∀ p ∈ c.layerPlan l, p.fallback = [] := by
  simp only [Config.layerPlan, List.forall_mem_append]
  refine ⟨⟨⟨by simp [Config.item], ?_⟩, ?_⟩, by simp [Config.item]⟩
  · unfold Config.mlpPlan
    split_ifs
    · simp only [List.forall_mem_cons, List.forall_mem_flatMap]
      exact ⟨rfl, fun e _ => by simp [Config.item]⟩
    · simp [Config.item]
  · unfold Config.qkNormPlan
    split_ifs <;> simp [Config.item]

/-- Only the logits have a second name, that of the embedding. -/
theorem fallback_shape {c : Config} {p : PlanItem} (hp : p ∈ c.plan) :
    ∀ name ∈ p.fallback, c.shapeOf name = c.shapeOf p.name := by
  have hnil (h : p.fallback = []) : ∀ name ∈ p.fallback, c.shapeOf name = c.shapeOf p.name := by
    rw [h]
    exact fun name hname => absurd hname List.not_mem_nil
  simp only [Config.plan, List.mem_append, List.mem_flatMap, List.mem_cons, List.not_mem_nil,
    or_false] at hp
  rcases hp with (rfl | ⟨l, -, hp⟩) | rfl | rfl
  · exact hnil rfl
  · exact hnil (fallback_layerPlan p hp)
  · exact hnil rfl
  · intro name hname
    rw [List.mem_singleton.1 hname]
    rfl

/-- The sizes of all tensors. -/
theorem write_lengths {c : Config} {model : TensorName → Option (Tensor α)}
    (hshapes : c.HasShapes model) {tensors : List (List UInt8)}
    (h : c.write codec model = .ok tensors) :
    tensors.map List.length = c.plan.map c.itemBytes :=
  map_of_mapM_ok h fun _ hp _ hbytes => writeItem_length hshapes (fallback_shape hp) hbytes

end Write

/-! ## The loads -/

/-- The op that a tensor is for, with the layer and the expert. -/
def TensorName.op : TensorName → OpName × Nat × Nat
  | .embedTokens => (.embedding, 0, 0)
  | .qProj l => (.blockMatmulQ, l, 0)
  | .kProj l => (.blockMatmulK, l, 0)
  | .vProj l => (.blockMatmulV, l, 0)
  | .oProj l => (.blockMatmulWo, l, 0)
  | .gate l => (.blockMoeGate, l, 0)
  | .expertGateProj l e => (.blockMatmulW1, l, e)
  | .expertDownProj l e => (.blockMatmulW2, l, e)
  | .expertUpProj l e => (.blockMatmulW3, l, e)
  | .gateProj l => (.blockMatmulW1, l, 0)
  | .downProj l => (.blockMatmulW2, l, 0)
  | .upProj l => (.blockMatmulW3, l, 0)
  | .qNorm l => (.blockNormQ, l, 0)
  | .kNorm l => (.blockNormK, l, 0)
  | .inputLayernorm l => (.blockNorm0, l, 0)
  | .postAttentionLayernorm l => (.blockNorm1, l, 0)
  | .norm => (.finalNorm, 0, 0)
  | .lmHead => (.finalMatmulLogits, 0, 0)

/-- The load that the program makes for a tensor. -/
def TensorName.load (name : TensorName) (nBytes : Nat) : WeightLoad :=
  ⟨name.op.1, name.op.2.1, name.op.2.2, nBytes⟩

/-- The whole sizes behind the slices. -/
structure SliceSizes (h : LlmHeader) (n : LlmSlices) : Prop where
  tokenEmbedding : n.tokenEmbeddingSize = size2D .f32 h.vocabSize h.dim
  rmsNorm : n.rmsNormSize = size1D .f32 h.dim
  qkRmsNorm : n.qkRmsNormSize = size1D .f32 h.headDim
  moeGate : n.moeGateSize = size2D .f32 h.dim h.nExperts
  q : n.qSlice.size = size2D h.weightType h.dim h.qDim
  k : n.kSlice.size = size2D h.weightType h.dim h.kvDim
  v : n.vSlice.size = size2D h.weightType h.dim h.kvDim
  wo : n.woSlice.size = size2D h.weightType h.qDim h.dim
  w1 : n.w1Slice.size = size2D h.weightType h.dim h.ffDim
  w2 : n.w2Slice.size = size2D h.weightType h.ffDim h.dim
  w3 : n.w3Slice.size = size2D h.weightType h.dim h.ffDim
  wcls : n.wclsSlice.size = size2D h.weightType h.dim h.vocabSize

theorem rowSlice_size {type : NnFloatType} {tp n d : Nat} {s : NnRowMatmulSlice}
    (h : sliceRowMatmul type tp n d = .ok s) : s.size = size2D type n d := by
  rcases bind_eq_ok h with ⟨_, -, h⟩
  rcases bind_eq_ok h with ⟨size, hsize, h⟩
  rcases bind_eq_ok h with ⟨_, -, h⟩
  cases h
  exact (Network.checkSize_ok hsize).1

theorem colSlice_size {type : NnFloatType} {tp n d : Nat} {s : NnColMatmulSlice}
    (h : sliceColMatmul type tp n d = .ok s) : s.size = size2D type n d := by
  rcases bind_eq_ok h with ⟨_, -, h⟩
  rcases bind_eq_ok h with ⟨size, hsize, h⟩
  rcases bind_eq_ok h with ⟨_, -, h⟩
  cases h
  exact (Network.checkSize_ok hsize).1

theorem sliceSizes_of_ok {h : LlmHeader} {tpSize nBatches : Nat} {n : LlmSlices}
    (hok : buildLlmSlices h tpSize nBatches = .ok n) : SliceSizes h n := by
  rcases bind_eq_ok hok with ⟨att, -, hok⟩
  rcases bind_eq_ok hok with ⟨q, hq, hok⟩
  rcases bind_eq_ok hok with ⟨k, hk, hok⟩
  rcases bind_eq_ok hok with ⟨v, hv, hok⟩
  rcases bind_eq_ok hok with ⟨wo, hwo, hok⟩
  rcases bind_eq_ok hok with ⟨w1, hw1, hok⟩
  rcases bind_eq_ok hok with ⟨w2, hw2, hok⟩
  rcases bind_eq_ok hok with ⟨w3, hw3, hok⟩
  rcases bind_eq_ok hok with ⟨wcls, hwcls, hok⟩
  have hlast : n.tokenEmbeddingSize = size2D .f32 h.vocabSize h.dim ∧
      n.rmsNormSize = size1D .f32 h.dim ∧ n.qkRmsNormSize = size1D .f32 h.headDim ∧
      n.moeGateSize = size2D .f32 h.dim h.nExperts ∧ n.qSlice = q ∧ n.kSlice = k ∧ n.vSlice = v ∧
      n.woSlice = wo ∧ n.w1Slice = w1 ∧ n.w2Slice = w2 ∧ n.w3Slice = w3 ∧ n.wclsSlice = wcls := by
    split_ifs at hok with hnorm
    · rcases bind_eq_ok hok with ⟨_, -, hok⟩
      rcases bind_eq_ok hok with ⟨_, -, hok⟩
      cases hok
      exact ⟨rfl, rfl, rfl, rfl, rfl, rfl, rfl, rfl, rfl, rfl, rfl, rfl⟩
    · cases hok
      exact ⟨rfl, rfl, rfl, rfl, rfl, rfl, rfl, rfl, rfl, rfl, rfl, rfl⟩
  rcases hlast with ⟨he, hr, hqk, hg, rfl, rfl, rfl, rfl, rfl, rfl, rfl, rfl⟩
  exact ⟨he, hr, hqk, hg, rowSlice_size hq, rowSlice_size hk, rowSlice_size hv, colSlice_size hwo,
    rowSlice_size hw1, colSlice_size hw2, rowSlice_size hw3, colSlice_size hwcls⟩

namespace Config

variable (c : Config)

/-- The experts or the dense layers have the width that the architecture gives them. -/
def FfnAgrees : Prop :=
  (if c.archType = .qwen3Moe then c.moeHiddenDim.getD 0 else c.hiddenDim)
    = if 0 < c.nExperts then c.expertDim else c.hiddenDim

/-- The elements of every tensor can be counted in an `NnUint`. -/
def TensorsFit : Prop := ∀ p ∈ c.plan, (c.shapeOf p.name).prod < 2 ^ 32

/-- The load of the program for a tensor of the plan. -/
def plannedLoad (p : PlanItem) : WeightLoad := p.name.load (c.itemBytes p)

end Config

section Loads

variable {c : Config} {l : NnRootWeightLoader} {n : LlmSlices} {headerSize fileSize : Nat}
  {syncType : NnFloatType} {layer : Nat}

/-- A size of two dimensions has the bytes of a shape with its product. -/
theorem size2D_nBytes {floatType : NnFloatType} {y x : Nat} {shape : List Nat}
    (hprod : shape.prod = y * x) (h : shape.prod < 2 ^ 32) :
    (size2D floatType y x).nBytes = getBytes floatType shape.prod := by
  rw [hprod] at h ⊢
  simp only [size2D, size3D, Nat.one_mul, u32_of_lt h]

theorem size1D_nBytes {floatType : NnFloatType} {x : Nat} (h : x < 2 ^ 32) :
    (size1D floatType x).nBytes = getBytes floatType x := by
  simp only [size1D, size3D, Nat.one_mul, u32_of_lt h]

theorem loadedHeadDim_eq (hhead : c.headDim ≠ some 0) : c.loadedHeadDim = c.impliedHeadDim := by
  unfold Config.loadedHeadDim Config.impliedHeadDim
  cases h : c.headDim with
  | none => rfl
  | some k =>
      rw [Option.getD_some, Option.getD_some, if_neg]
      rintro rfl
      exact hhead h

theorem mem_plan_of_layer (hlayer : layer < c.nLayers) {p : PlanItem} (hp : p ∈ c.layerPlan layer) :
    p ∈ c.plan := by
  rw [Config.plan, List.mem_append, List.mem_append, List.mem_flatMap]
  exact .inl (.inr ⟨layer, List.mem_range.2 hlayer, hp⟩)

/-- The heads of a layer are counted without a wrap. -/
theorem heads_eq (hdim : 0 < c.dim) (hhead : c.headDim ≠ some 0) {nHeads : Nat}
    (hfits : nHeads * c.impliedHeadDim * c.dim < 2 ^ 32) :
    u32 (c.loadedHeadDim * nHeads) = nHeads * c.impliedHeadDim := by
  rw [loadedHeadDim_eq hhead, Nat.mul_comm]
  exact u32_of_lt ((Nat.le_mul_of_pos_right _ hdim).trans_lt hfits)

/-- The loads of the attention. -/
theorem attLoads_eq (hdim : 0 < c.dim) (hhead : c.headDim ≠ some 0) (hfits : c.TensorsFit)
    (hn : SliceSizes (c.header headerSize fileSize syncType) n) (hlayer : layer < c.nLayers) :
    [loadRow l .blockMatmulQ layer 0 n.qSlice, loadRow l .blockMatmulK layer 0 n.kSlice,
      loadRow l .blockMatmulV layer 0 n.vSlice, loadCol l .blockMatmulWo layer 0 n.woSlice none]
      = [TensorName.qProj layer, .kProj layer, .vProj layer, .oProj layer].map fun name =>
          name.load (getBytes c.weightsFloatType (c.shapeOf name).prod) := by
  have hfit {p : PlanItem} (hp : p ∈ c.layerPlan layer) : (c.shapeOf p.name).prod < 2 ^ 32 :=
    hfits p (mem_plan_of_layer hlayer hp)
  have hqFit : (c.shapeOf (.qProj layer)).prod < 2 ^ 32 :=
    hfit (p := ⟨c.weightsFloatType, some .q, .qProj layer, []⟩) (by simp [Config.layerPlan])
  have hkFit : (c.shapeOf (.kProj layer)).prod < 2 ^ 32 :=
    hfit (p := ⟨c.weightsFloatType, some .k, .kProj layer, []⟩) (by simp [Config.layerPlan])
  have hprodQ : (c.shapeOf (.qProj layer)).prod = c.nHeads * c.impliedHeadDim * c.dim := by
    simp [Config.shapeOf]
  have hprodK : (c.shapeOf (.kProj layer)).prod = c.nKvHeads * c.impliedHeadDim * c.dim := by
    simp [Config.shapeOf]
  have hq := heads_eq hdim hhead (hprodQ ▸ hqFit)
  have hk := heads_eq hdim hhead (hprodK ▸ hkFit)
  have hqSize : n.qSlice.size.nBytes
      = getBytes c.weightsFloatType (c.shapeOf (.qProj layer)).prod := by
    rw [hn.q]
    refine size2D_nBytes ?_ hqFit
    rw [hprodQ, Nat.mul_comm]
    exact congrArg _ hq.symm
  have hkSize {size : NnSize3D} (hsize : size = size2D c.weightsFloatType c.dim
      (u32 (c.loadedHeadDim * c.nKvHeads))) :
      size.nBytes = getBytes c.weightsFloatType (c.shapeOf (.kProj layer)).prod := by
    rw [hsize]
    refine size2D_nBytes ?_ hkFit
    rw [hprodK, Nat.mul_comm]
    exact congrArg _ hk.symm
  have hoProd : (c.shapeOf (.oProj layer)).prod = (c.shapeOf (.qProj layer)).prod := by
    simp [Config.shapeOf, Nat.mul_comm]
  have hoSize : n.woSlice.size.nBytes
      = getBytes c.weightsFloatType (c.shapeOf (.oProj layer)).prod := by
    rw [hn.wo]
    refine size2D_nBytes ?_ (hoProd ▸ hqFit)
    rw [hoProd, hprodQ]
    exact congrArg (· * c.dim) hq.symm
  simp only [loadRow, loadCol, NnRootWeightLoader.loadRowMatmulSlices,
    NnRootWeightLoader.loadColMatmulSlices, hqSize, hkSize hn.k, hkSize hn.v, hoSize]
  rfl

/-- The loads of one expert or of the dense layers, of a width. -/
theorem ffLoads_eq {expert width : Nat} (hn : SliceSizes (c.header headerSize fileSize syncType) n)
    (hwidth : (c.header headerSize fileSize syncType).ffDim = width)
    (hfit : width * c.dim < 2 ^ 32) :
    ffLoads l n layer expert
      = [⟨.blockMatmulW1, layer, expert, getBytes c.weightsFloatType (width * c.dim)⟩,
        ⟨.blockMatmulW2, layer, expert, getBytes c.weightsFloatType (c.dim * width)⟩,
        ⟨.blockMatmulW3, layer, expert, getBytes c.weightsFloatType (width * c.dim)⟩] := by
  have hrow {size : NnSize3D} (hsize : size = size2D c.weightsFloatType c.dim
      (c.header headerSize fileSize syncType).ffDim) :
      size.nBytes = getBytes c.weightsFloatType (width * c.dim) := by
    rw [hsize, hwidth]
    have hprod : [width, c.dim].prod = c.dim * width := by simp [Nat.mul_comm]
    have hsame : [width, c.dim].prod = width * c.dim := by simp
    rw [size2D_nBytes hprod (hsame ▸ hfit), hsame]
  have hcol : n.w2Slice.size.nBytes = getBytes c.weightsFloatType (c.dim * width) := by
    rw [hn.w2, hwidth]
    have hprod : [width, c.dim].prod = width * c.dim := by simp
    rw [Nat.mul_comm c.dim, ← hprod]
    exact size2D_nBytes hprod (hprod ▸ hfit)
  simp only [ffLoads, loadRow, loadCol, NnRootWeightLoader.loadRowMatmulSlices,
    NnRootWeightLoader.loadColMatmulSlices, hrow hn.w1, hrow hn.w3, hcol]

theorem mlpLoads_eq (hffn : c.FfnAgrees) (hfits : c.TensorsFit)
    (hn : SliceSizes (c.header headerSize fileSize syncType) n) (hlayer : layer < c.nLayers) :
    mlpLoads l (c.header headerSize fileSize syncType) n layer
      = (c.mlpPlan layer).map c.plannedLoad := by
  have hfit {p : PlanItem} (hp : p ∈ c.mlpPlan layer) : (c.shapeOf p.name).prod < 2 ^ 32 := by
    refine hfits p (mem_plan_of_layer hlayer ?_)
    simp only [Config.layerPlan, List.mem_append]
    exact .inl (.inl (.inr hp))
  unfold Config.FfnAgrees at hffn
  show (if 0 < c.nExperts then _ else _) = _
  unfold Config.mlpPlan at hfit ⊢
  by_cases hexperts : 0 < c.nExperts
  · simp only [if_pos hexperts] at hffn hfit ⊢
    have hgate : n.moeGateSize.nBytes = getBytes .f32 (c.shapeOf (.gate layer)).prod := by
      rw [hn.moeGate]
      refine size2D_nBytes ?_ (hfit (p := Config.item .f32 (.gate layer)) (List.mem_cons_self ..))
      simp [Config.shapeOf, Config.header, Nat.mul_comm]
    have hexpert : ∀ e ∈ List.range c.nExperts, ffLoads l n layer e
        = [Config.item c.weightsFloatType (.expertGateProj layer e),
          Config.item c.weightsFloatType (.expertDownProj layer e),
          Config.item c.weightsFloatType (.expertUpProj layer e)].map c.plannedLoad := by
      intro e he
      have hwidth := hfit (p := Config.item c.weightsFloatType (.expertGateProj layer e)) (by
        refine List.mem_cons_of_mem _ (List.mem_flatMap.2 ⟨e, he, List.mem_cons_self ..⟩))
      rw [ffLoads_eq hn hffn (by simpa [Config.shapeOf, Config.item] using hwidth)]
      simp [Config.plannedLoad, Config.item, Config.itemBytes, TensorName.load, TensorName.op,
        Config.shapeOf]
    rw [List.map_cons, List.map_flatMap, loadAll, hgate]
    refine congrArg₂ _ rfl ?_
    exact congrArg List.flatten (List.map_congr_left hexpert)
  · simp only [if_neg hexperts] at hffn hfit ⊢
    have hwidth := hfit (p := Config.item c.weightsFloatType (.gateProj layer))
      (List.mem_cons_self ..)
    rw [ffLoads_eq hn hffn (by simpa [Config.shapeOf, Config.item] using hwidth)]
    simp [Config.plannedLoad, Config.item, Config.itemBytes, TensorName.load, TensorName.op,
      Config.shapeOf]

theorem layerLoads_eq (hdim : 0 < c.dim) (hhead : c.headDim ≠ some 0) (hffn : c.FfnAgrees)
    (hfits : c.TensorsFit) (hn : SliceSizes (c.header headerSize fileSize syncType) n)
    (hlayer : layer < c.nLayers) :
    layerLoads l (c.header headerSize fileSize syncType) n layer
      = (c.layerPlan layer).map c.plannedLoad := by
  have hfit {p : PlanItem} (hp : p ∈ c.layerPlan layer) : (c.shapeOf p.name).prod < 2 ^ 32 :=
    hfits p (mem_plan_of_layer hlayer hp)
  have hnorm : n.rmsNormSize.nBytes = getBytes .f32 c.dim := by
    rw [hn.rmsNorm]
    refine size1D_nBytes (show c.dim < 2 ^ 32 from ?_)
    have := hfit (p := Config.item .f32 (.inputLayernorm layer)) (by simp [Config.layerPlan])
    simpa [Config.shapeOf, Config.item] using this
  have hqk : qkNormLoads (c.header headerSize fileSize syncType) n layer
      = (c.qkNormPlan layer).map c.plannedLoad := by
    have hiff : (c.header headerSize fileSize syncType).hasQkNorm = true ↔
        c.archType = .qwen3 ∨ c.archType = .qwen3Moe := by
      simp [LlmHeader.hasQkNorm, Config.header]
    unfold qkNormLoads Config.qkNormPlan
    by_cases hqwen : c.archType = .qwen3 ∨ c.archType = .qwen3Moe
    · have hmem : Config.item .f32 (.qNorm layer) ∈ c.layerPlan layer := by
        simp only [Config.layerPlan, Config.qkNormPlan, if_pos hqwen]
        simp
      have hsize : n.qkRmsNormSize.nBytes = getBytes .f32 c.impliedHeadDim := by
        rw [hn.qkRmsNorm]
        show (size1D .f32 c.loadedHeadDim).nBytes = _
        rw [loadedHeadDim_eq hhead]
        refine size1D_nBytes ?_
        simpa [Config.shapeOf, Config.item] using hfit hmem
      rw [if_pos (hiff.2 hqwen), if_pos hqwen]
      simp [loadAll, hsize, Config.plannedLoad, Config.item, Config.itemBytes, TensorName.load,
        TensorName.op, Config.shapeOf]
    · rw [if_neg (fun h => hqwen (hiff.1 h)), if_neg hqwen]
      rfl
  rw [layerLoads, attLoads_eq hdim hhead hfits hn hlayer, mlpLoads_eq hffn hfits hn hlayer, hqk,
    Config.layerPlan, List.map_append, List.map_append, List.map_append]
  simp [loadAll, hnorm, Config.plannedLoad, Config.item, Config.itemBytes, TensorName.load,
    TensorName.op, Config.shapeOf]

/-- Every load of the program is the one planned for the tensor at its turn. -/
theorem netLoads_eq (hdim : 0 < c.dim) (hhead : c.headDim ≠ some 0) (hffn : c.FfnAgrees)
    (hfits : c.TensorsFit) (hn : SliceSizes (c.header headerSize fileSize syncType) n)
    (lastPpStage : Option Nat) :
    netLoads l (c.header headerSize fileSize syncType) n lastPpStage
      = c.plan.map c.plannedLoad := by
  have hembed : n.tokenEmbeddingSize.nBytes = getBytes .f32 (c.shapeOf .embedTokens).prod := by
    rw [hn.tokenEmbedding]
    refine size2D_nBytes ?_ (hfits (Config.item .f32 .embedTokens) (by simp [Config.plan]))
    simp [Config.shapeOf, Config.header]
  have hnorm : n.rmsNormSize.nBytes = getBytes .f32 (c.shapeOf .norm).prod := by
    rw [hn.rmsNorm]
    have := hfits (Config.item .f32 .norm) (by simp [Config.plan])
    simp only [Config.item, Config.shapeOf, List.prod_cons, List.prod_nil, Nat.mul_one] at this ⊢
    exact size1D_nBytes this
  have hlogits : n.wclsSlice.size.nBytes
      = getBytes c.weightsFloatType (c.shapeOf .lmHead).prod := by
    rw [hn.wcls]
    refine size2D_nBytes ?_ (hfits ⟨c.weightsFloatType, none, .lmHead, [.embedTokens]⟩
      (by simp [Config.plan]))
    simp [Config.shapeOf, Config.header, Nat.mul_comm]
  have hlayers : (List.range c.nLayers).flatMap
      (layerLoads l (c.header headerSize fileSize syncType) n)
        = ((List.range c.nLayers).flatMap c.layerPlan).map c.plannedLoad := by
    rw [List.map_flatMap]
    exact congrArg List.flatten (List.map_congr_left fun layer hlayer =>
      layerLoads_eq hdim hhead hffn hfits hn (List.mem_range.1 hlayer))
  show [loadAll .embedding 0 n.tokenEmbeddingSize] ++ (List.range c.nLayers).flatMap _ ++ _ = _
  rw [hlayers, Config.plan, List.map_append, List.map_append]
  simp only [loadAll, loadCol, NnRootWeightLoader.loadColMatmulSlices, hembed, hnorm, hlogits]
  rfl

end Loads

/-! ## The whole file -/

section File

variable {α : Type} {codec : BlockCodec α} {c : Config} {model : TensorName → Option (Tensor α)}
  {tensors : List (List UInt8)} {file : List UInt8}

/-- The logits have the float type of the weights, so it is one that can be written. -/
theorem weightsFloatType_ne_unk (h : c.write codec model = .ok tensors) :
    c.weightsFloatType ≠ .unk := by
  intro hunk
  have hmem : (⟨c.weightsFloatType, none, .lmHead, [.embedTokens]⟩ : PlanItem) ∈ c.plan := by
    simp [Config.plan]
  rcases List.mem_iff_getElem?.1 hmem with ⟨i, hi⟩
  rcases getElem?_of_mapM_ok h i hi with ⟨bytes, -, hbytes⟩
  rcases bind_eq_ok hbytes with ⟨t, -, hbytes⟩
  rcases bind_eq_ok hbytes with ⟨t', -, hbytes⟩
  rw [hunk] at hbytes
  cases hbytes

/-- The embedding and the last norm alone take eight bytes. -/
theorem eight_le_tensors (hdim : 0 < c.dim) (hvocab : 0 < c.vocabSize)
    (hlengths : tensors.map List.length = c.plan.map c.itemBytes) :
    8 ≤ tensors.flatten.length := by
  have hembed : 0 < c.vocabSize * c.dim := Nat.mul_pos hvocab hdim
  rw [List.length_flatten, hlengths, Config.plan]
  simp only [List.map_append, List.map_cons, List.map_nil, List.sum_append, List.sum_cons,
    List.sum_nil, Config.itemBytes, Config.item, Config.shapeOf, getBytes, List.prod_cons,
    List.prod_nil, Nat.mul_one]
  omega

theorem convert_eq_ok (h : convert codec c model = .ok file) :
    ∃ header tensors, writeHeader c.params = some header ∧ c.write codec model = .ok tensors ∧
      file = header ++ tensors.flatten := by
  unfold convert at h
  cases hheader : writeHeader c.params with
  | none =>
      rw [hheader] at h
      cases h
  | some header =>
      rw [hheader] at h
      rcases bind_eq_ok (show (c.write codec model >>= fun tensors =>
        pure (header ++ tensors.flatten)) = .ok file from h) with ⟨tensors, htensors, h⟩
      cases h
      exact ⟨header, tensors, rfl, htensors, rfl⟩

/-- The header of a file comes back as the one that the configuration ends in. -/
theorem loadLlmHeader_convert (hwrite : convert codec c model = .ok file)
    (hepsilon : ∀ value ∈ c.normEpsilon, value = 5 ∨ value = 6) (hshapes : c.HasShapes model)
    (hdim : 0 < c.dim) (hvocab : 0 < c.vocabSize) (hheads : 0 < c.nHeads) {maxSeqLen : Nat}
    (hcap : maxSeqLen = 0 ∨ c.maxSeqLen ≤ maxSeqLen) (syncType : NnFloatType) :
    ∃ header tensors, c.write codec model = .ok tensors ∧ file = header ++ tensors.flatten ∧
      loadLlmHeader file maxSeqLen syncType
        = .ok (c.finished header.length file.length syncType) := by
  rcases convert_eq_ok hwrite with ⟨header, tensors, hheader, htensors, rfl⟩
  refine ⟨header, tensors, htensors, rfl, ?_⟩
  rw [loadLlmHeader_writeHeader hheader hepsilon
    (eight_le_tensors hdim hvocab (write_lengths hshapes htensors))]
  exact finishHeader_loaded (weightsFloatType_ne_unk htensors) hheads hcap

/-- The loads take the tensors one by one and end with the file. -/
theorem loadLlmNetWeight_write {header : List UInt8} (htensors : c.write codec model = .ok tensors)
    (hshapes : c.HasShapes model) (hdim : 0 < c.dim) (hhead : c.headDim ≠ some 0)
    (hffn : c.FfnAgrees) (hfits : c.TensorsFit) {syncType : NnFloatType} {tpSize nBatches : Nat}
    {n : LlmSlices} (l : NnRootWeightLoader) (lastPpStage : Option Nat)
    (hn : buildLlmSlices (c.header header.length (header ++ tensors.flatten).length syncType)
      tpSize nBatches = .ok n) :
    loadLlmNetWeight l (header ++ tensors.flatten)
        (c.header header.length (header ++ tensors.flatten).length syncType) n lastPpStage
      = .ok ((c.plan.map c.plannedLoad).zip tensors) := by
  have hloads := @netLoads_eq c l n header.length (header ++ tensors.flatten).length syncType
    hdim hhead hffn hfits (sliceSizes_of_ok hn) lastPpStage
  have hsizes : (c.plan.map c.plannedLoad).map WeightLoad.nBytes = tensors.map List.length := by
    rw [write_lengths hshapes htensors, List.map_map]
    rfl
  rcases visit_flatten hsizes header with ⟨hvisit, hend⟩
  have hmissing : (cursorEnd header.length (c.plan.map c.plannedLoad) : Int)
      - (header ++ tensors.flatten).length = 0 := by
    rw [hend, sub_self]
  simp only [loadLlmNetWeight, hloads]
  show (if (cursorEnd header.length _ : Int) - (header ++ tensors.flatten).length ≠ 0 then _
    else Except.ok (visit _ header.length _)) = _
  rw [if_neg (not_not.2 hmissing), hvisit]

/-- The program reads each value of the header as it stores it, and at each load the bytes of the
tensor that is meant, up to the end of the file. -/
theorem modelFile_roundTrip {config : HfConfig} {floatType : NnFloatType}
    (hconfig : loadConfig config floatType = .ok c) (hwrite : convert codec c model = .ok file)
    (hshapes : c.HasShapes model) (hdim : 0 < c.dim) (hvocab : 0 < c.vocabSize)
    (hheads : 0 < c.nHeads) {maxSeqLen : Nat} (hcap : maxSeqLen = 0 ∨ c.maxSeqLen ≤ maxSeqLen)
    (syncType : NnFloatType) :
    ∃ lh h tensors, loadLlmHeader file maxSeqLen syncType = .ok lh ∧
      (∀ p ∈ c.params, lh.Holds p.1 (c.stored p.1 p.2)) ∧ lh.graphHeader = some h ∧
      c.write codec model = .ok tensors ∧
      (c.headDim ≠ some 0 → c.FfnAgrees → c.TensorsFit →
        ∀ (l : NnRootWeightLoader) (tpSize nBatches : Nat) (n : LlmSlices)
          (lastPpStage : Option Nat), buildLlmSlices h tpSize nBatches = .ok n →
          loadLlmNetWeight l file h n lastPpStage
            = .ok ((c.plan.map c.plannedLoad).zip tensors)) := by
  have hepsilon := epsilon_of_loadConfig hconfig
  rcases loadLlmHeader_convert hwrite hepsilon hshapes hdim hvocab hheads hcap syncType with
    ⟨header, tensors, htensors, rfl, hload⟩
  refine ⟨_, _, tensors, hload, holds_finished hepsilon, graphHeader_finished, htensors, ?_⟩
  intro hhead hffn hfits l tpSize nBatches n lastPpStage hn
  exact loadLlmNetWeight_write htensors hshapes hdim hhead hffn hfits l lastPpStage hn

end File

/-! ## Small models -/

/-- A configuration with rows of two numbers. -/
def smallConfig (modelType : String) (numExperts : Option Nat) (ropeTheta : ℚ) : HfConfig where
  modelType
  hiddenAct := "silu"
  hiddenSize := 2
  intermediateSize := 4
  numHiddenLayers := 1
  numAttentionHeads := 1
  numKeyValueHeads := 1
  maxPositionEmbeddings := 8
  vocabSize := 2
  numExperts
  numExpertsPerTok := numExperts
  ropeTheta := some ropeTheta
  ropeScaling := none
  headDim := none
  rmsNormEps := none
  moeIntermediateSize := some 3

/-- The bytes of a block of zeros. -/
def zeroCodec : BlockCodec Nat where
  pack floatType _ :=
    match floatType with
    | .q40 => [0, 0] ++ List.replicate 16 0x88
    | .unk | .f32 | .f16 | .q80 => List.replicate (getBytes floatType (getBlockSize floatType)) 0
  pack_length floatType block := by cases floatType <;> rfl

/-- A checkpoint of zeros. -/
def Config.zeros (c : Config) (name : TensorName) : Option (Tensor Nat) :=
  some ⟨c.shapeOf name, fun _ => 0⟩

theorem hasShapes_zeros (c : Config) : c.HasShapes c.zeros := by
  intro name t ht
  cases ht
  rfl

/-- What `loadConfig` makes of it. -/
def small (archType : LlmArchType) (nExperts : Nat) (ropeTheta : Int) : Config where
  archType
  hiddenAct := .silu
  dim := 2
  hiddenDim := 4
  nLayers := 1
  nHeads := 1
  nKvHeads := 1
  weightsFloatType := .f32
  maxSeqLen := 8
  vocabSize := 2
  nExperts
  nActiveExperts := nExperts
  ropeTheta := some ropeTheta
  ropeScaling := none
  headDim := none
  normEpsilon := none
  moeHiddenDim := some 3

theorem floatOfInt_odd : floatOfInt 16777217 = 16777216 := by
  decide +kernel

theorem exists_of_isOk {β : Type} {x : Except String β} (h : x.isOk) : ∃ a, x = .ok a := by
  cases x with
  | error e => cases h
  | ok a => exact ⟨a, rfl⟩

section Small

variable {archType : LlmArchType} {nExperts : Nat} {ropeTheta : Int}

theorem convert_small
    (h : (convert zeroCodec (small archType nExperts ropeTheta)
      (small archType nExperts ropeTheta).zeros).isOk) :
    ∃ file header tensors,
      convert zeroCodec (small archType nExperts ropeTheta)
        (small archType nExperts ropeTheta).zeros = .ok file ∧
      (small archType nExperts ropeTheta).write zeroCodec
        (small archType nExperts ropeTheta).zeros = .ok tensors ∧
      file = header ++ tensors.flatten ∧
      loadLlmHeader file 0 .q80 = .ok
        ((small archType nExperts ropeTheta).finished header.length file.length .q80) := by
  rcases exists_of_isOk h with ⟨file, hfile⟩
  rcases loadLlmHeader_convert hfile (fun _ hvalue => nomatch hvalue) (hasShapes_zeros _)
    Nat.two_pos Nat.two_pos Nat.one_pos (.inl rfl) .q80 with ⟨header, tensors, hrest⟩
  exact ⟨file, header, tensors, hfile, hrest⟩

theorem buildLlmSlices_small
    (h : (buildLlmSlices ((small archType nExperts ropeTheta).header 0 0 .q80) 1 1).isOk)
    (headerSize fileSize : Nat) :
    ∃ n, buildLlmSlices ((small archType nExperts ropeTheta).header headerSize fileSize .q80)
      1 1 = .ok n :=
  exists_of_isOk h

end Small

/-- A model with two experts, wholly read back. -/
theorem modelFile_roundTrip_experts :
    ∃ c file lh h n tensors,
      loadConfig (smallConfig "qwen3_moe" (some 2) 1000000) .f32 = .ok c ∧
      convert zeroCodec c c.zeros = .ok file ∧ loadLlmHeader file 0 .q80 = .ok lh ∧
      (∀ p ∈ c.params, lh.Holds p.1 (c.stored p.1 p.2)) ∧ lh.graphHeader = some h ∧
      c.write zeroCodec c.zeros = .ok tensors ∧ buildLlmSlices h 1 1 = .ok n ∧
      loadLlmNetWeight ⟨1, 1, 1, []⟩ file h n none
        = .ok ((c.plan.map c.plannedLoad).zip tensors) := by
  have hconfig : loadConfig (smallConfig "qwen3_moe" (some 2) 1000000) .f32
      = .ok (small .qwen3Moe 2 1000000) := rfl
  rcases @convert_small .qwen3Moe 2 1000000 (by decide +kernel) with
    ⟨file, header, tensors', hconvert, -, -, hload'⟩
  rcases modelFile_roundTrip hconfig hconvert (hasShapes_zeros _) Nat.two_pos Nat.two_pos
    Nat.one_pos (.inl rfl) .q80 with ⟨lh, h, tensors, hload, hholds, hgraph, hwrite, hrest⟩
  cases hload.symm.trans hload'
  cases hgraph.symm.trans graphHeader_finished
  rcases @buildLlmSlices_small .qwen3Moe 2 1000000 (by decide +kernel) header.length
    file.length with ⟨n, hn⟩
  have hffn : (small .qwen3Moe 2 1000000).FfnAgrees := by
    unfold Config.FfnAgrees
    decide
  have hfits : (small .qwen3Moe 2 1000000).TensorsFit := by
    unfold Config.TensorsFit
    decide
  exact ⟨_, file, _, _, n, tensors, hconfig, hconvert, hload, hholds, hgraph, hwrite, hn,
    hrest (by decide) hffn hfits _ 1 1 n none hn⟩

/-- An odd base of the rotation is no float, and without experts the program takes their width all
the same. -/
theorem modelFile_differs :
    (∃ c file lh, loadConfig (smallConfig "llama" none 16777217) .f32 = .ok c ∧
      convert zeroCodec c c.zeros = .ok file ∧ c.HasShapes c.zeros ∧
      loadLlmHeader file 0 .q80 = .ok lh ∧ ∃ p ∈ c.params, ¬lh.Holds p.1 p.2) ∧
    ∃ c file lh h n, loadConfig (smallConfig "qwen3_moe" none 1000000) .f32 = .ok c ∧
      convert zeroCodec c c.zeros = .ok file ∧ c.HasShapes c.zeros ∧
      loadLlmHeader file 0 .q80 = .ok lh ∧ lh.graphHeader = some h ∧
      buildLlmSlices h 1 1 = .ok n ∧
      loadLlmNetWeight ⟨1, 1, 1, []⟩ file h n none
        = .error "Missing bytes in weight file: -24" := by
  refine ⟨?_, ?_⟩
  · rcases @convert_small .llama 0 16777217 (by decide +kernel) with
      ⟨file, header, tensors, hconvert, -, -, hload⟩
    refine ⟨small .llama 0 16777217, file, _, rfl, hconvert, hasShapes_zeros _, hload,
      (.ropeTheta, 16777217), by decide, fun hholds => ?_⟩
    have htheta : (floatOfInt 16777217 : ℚ) = (16777217 : Int) := hholds
    rw [floatOfInt_odd] at htheta
    exact absurd (Int.cast_injective htheta) (by decide)
  · rcases @convert_small .qwen3Moe 0 1000000 (by decide +kernel) with
      ⟨file, header, tensors, hconvert, hwrite, rfl, hload⟩
    rcases @buildLlmSlices_small .qwen3Moe 0 1000000 (by decide +kernel) header.length
      (header ++ tensors.flatten).length with ⟨n, hn⟩
    refine ⟨small .qwen3Moe 0 1000000, _, _, _, n, rfl, hconvert, hasShapes_zeros _, hload,
      graphHeader_finished, hn, ?_⟩
    have hs := sliceSizes_of_ok hn
    have hfile : tensors.flatten.length = 232 := by
      rw [List.length_flatten, write_lengths (hasShapes_zeros _) hwrite]
      decide
    -- the program counts three numbers a row where the file has four
    generalize hheader : (small .qwen3Moe 0 1000000).header header.length
      (header ++ tensors.flatten).length .q80 = h at hs ⊢
    have hend : cursorEnd h.headerSize (netLoads ⟨1, 1, 1, []⟩ h n none) = header.length + 208 := by
      simp [netLoads, layerLoads, mlpLoads, qkNormLoads, ffLoads, loadAll, loadRow, loadCol,
        NnRootWeightLoader.loadRowMatmulSlices, NnRootWeightLoader.loadColMatmulSlices, hs.q, hs.k,
        hs.v, hs.wo, hs.w1, hs.w2, hs.w3, hs.wcls, hs.tokenEmbedding, hs.rmsNorm, hs.qkRmsNorm,
        ← hheader, Config.header, small, Config.loadedHeadDim, LlmHeader.hasQkNorm,
        cursorEnd, LlmHeader.ffDim, size2D, size1D, size3D, getBytes, u32]
    have hmissing : ((header.length + 208 : Nat) : Int) - h.fileSize = -24 := by
      rw [← hheader]
      show _ - ((header ++ tensors.flatten).length : Int) = _
      rw [List.length_append, hfile]
      omega
    simp only [loadLlmNetWeight, hend, hmissing]
    rfl

end ModelFile
end PrefillOpt
