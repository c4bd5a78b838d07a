import PrefillOpt.ModelFile.WeightRuns

/-!
# ModelFile.WeightsReach — weights reach exactly the nodes that use them

The graph builder and the weight loader decide by different code which node has which sub-block.
Where no count overflows they agree: every op of every node that has a weight receives every byte
of it once, and these are the part of its rank of the tensors with its name and index.
-/

namespace PrefillOpt

open BlockContext (subBlocks mem_subBlocks lt_of_mem_subBlocks nodeWeights)
open ModelFile

/-! ## Stages in order -/

section Order

theorem le_of_mem_scanl {a x : Nat} {counts : List Nat} (hsum : a + counts.sum < 2 ^ 32)
    (hx : x ∈ counts.scanl (fun sum count => u32 (sum + count)) a) :
    a ≤ x ∧ x ≤ a + counts.sum := by
  induction counts generalizing a with
  | nil =>
      rw [List.scanl_nil, List.mem_singleton] at hx
      subst hx
      exact ⟨le_rfl, Nat.le_add_right ..⟩
  | cons count counts ih =>
      rw [List.sum_cons] at hsum ⊢
      rw [List.scanl_cons] at hx
      rcases List.mem_cons.1 hx with rfl | hx
      · exact ⟨le_rfl, Nat.le_add_right ..⟩
      · rw [u32_of_lt (by omega)] at hx
        have hrest := ih (by omega) hx
        omega

/-- Running sums that do not overflow ascend. -/
theorem scanl_pairwise {a : Nat} {counts : List Nat} (hsum : a + counts.sum < 2 ^ 32) :
    (counts.scanl (fun sum count => u32 (sum + count)) a).Pairwise (· ≤ ·) := by
  induction counts generalizing a with
  | nil =>
      rw [List.scanl_nil]
      exact List.pairwise_singleton ..
  | cons count counts ih =>
      rw [List.sum_cons] at hsum
      rw [List.scanl_cons, u32_of_lt (by omega), List.pairwise_cons]
      refine ⟨fun x hx => ?_, ih (by omega)⟩
      have hle := (le_of_mem_scanl (by omega) hx).1
      omega

theorem mem_buildLayerStartOffsets {nLayers ppSize : Nat} {counts offsets : List Nat}
    (hok : buildLayerStartOffsets nLayers ppSize counts = .ok offsets)
    (hsum : counts.sum < 2 ^ 32) :
    offsets.Pairwise (· ≤ ·) ∧ ∀ x ∈ offsets, x ≤ max nLayers counts.sum := by
  unfold buildLayerStartOffsets at hok
  split_ifs at hok with hne hlen hzero hcount
  · cases hok
    refine ⟨scanl_pairwise (by omega), fun x hx => le_max_of_le_right ?_⟩
    have hle := (le_of_mem_scanl (by omega) hx).2
    omega
  · cases hok
    have hshare {i : Nat} (hi : i < ppSize) : i * (nLayers / ppSize) ≤ nLayers :=
      (Nat.mul_le_mul_right _ hi.le).trans (Nat.mul_div_le ..)
    refine ⟨List.pairwise_append.2 ⟨?_, List.pairwise_singleton .., ?_⟩, fun x hx => ?_⟩
    · refine List.pairwise_map.2 (List.pairwise_lt_range.imp fun hlt => ?_)
      exact Nat.mul_le_mul_right _ hlt.le
    · intro x hx y hy
      rcases List.mem_map.1 hx with ⟨i, hi, rfl⟩
      rw [List.mem_singleton.1 hy]
      exact hshare (List.mem_range.1 hi)
    · refine le_max_of_le_left ?_
      rcases List.mem_append.1 hx with hx | hx
      · rcases List.mem_map.1 hx with ⟨i, hi, rfl⟩
        exact hshare (List.mem_range.1 hi)
      · rw [List.mem_singleton.1 hx]

/-- An accepted split without overflow has its stages in order. -/
theorem stageOffsets_pairwise {nLayers ppSize : Nat} {counts offsets : List Nat}
    (hok : stageOffsets nLayers ppSize counts = .ok offsets) (hlayers : nLayers * 2 < 2 ^ 32)
    (hsum : counts.sum * 2 < 2 ^ 32) : offsets.Pairwise (· ≤ ·) := by
  unfold stageOffsets at hok
  split_ifs at hok with hsub
  · simp only [subMode, Bool.and_eq_true, Bool.not_eq_true', List.isEmpty_eq_false_iff] at hsub
    unfold buildSubBlockOffsets at hok
    rw [if_pos hsub.1.1] at hok
    split_ifs at hok
    cases hok
    exact scanl_pairwise (by omega)
  · rcases bind_eq_ok hok with ⟨layerOffsets, hlayerOffsets, hok⟩
    cases hok
    rcases mem_buildLayerStartOffsets hlayerOffsets (by omega) with ⟨hpairwise, hbound⟩
    refine List.pairwise_map.2 (hpairwise.imp_of_mem fun hx hy hle => ?_)
    have hx := hbound _ hx
    have hy := hbound _ hy
    rw [u32_of_lt (by omega), u32_of_lt (by omega)]
    omega

end Order

theorem getD_le_getD {offsets : List Nat} (horder : offsets.Pairwise (· ≤ ·)) {i j : Nat}
    (hij : i ≤ j) (hj : j < offsets.length) : offsets.getD i 0 ≤ offsets.getD j 0 := by
  rcases Nat.eq_or_lt_of_le hij with rfl | hlt
  · exact le_rfl
  · rw [List.getD_eq_getElem _ _ (hlt.trans hj), List.getD_eq_getElem _ _ hj]
    exact List.pairwise_iff_getElem.1 horder _ _ _ _ hlt

/-! ## The owner of a sub-block -/

section Owner

variable {l : Network.NnRootWeightLoader} {s ppRank : Nat} {name : OpName}

/-- The matmuls of a sub-block are told from their names. -/
theorem subPartOfOp_eq {h : LlmHeader}
    (hname : name ∈ if s % 2 = 0 then h.attWeights else h.ffWeights)
    (hsplit : (tensorShape h name).split ≠ .whole) : Network.subPartOfOp name = s % 2 := by
  have hcases : (s % 2 = 0 ∧ name ∈ [OpName.blockMatmulQ, .blockMatmulK, .blockMatmulV,
      .blockMatmulWo]) ∨ (s % 2 = 1 ∧ name ∈ [OpName.blockMatmulW1, .blockMatmulW2,
      .blockMatmulW3]) := by
    split_ifs at hname with hs
    · refine .inl ⟨hs, ?_⟩
      cases name <;> simp [LlmHeader.attWeights] at hname ⊢ <;> exact hsplit rfl
    · refine .inr ⟨by omega, ?_⟩
      cases name <;> simp [LlmHeader.ffWeights] at hname ⊢ <;> exact hsplit rfl
  have hatt : ∀ name ∈ [OpName.blockMatmulQ, .blockMatmulK, .blockMatmulV, .blockMatmulWo],
      Network.subPartOfOp name = 0 := by decide
  have hff : ∀ name ∈ [OpName.blockMatmulW1, .blockMatmulW2, .blockMatmulW3],
      Network.subPartOfOp name = 1 := by decide
  rcases hcases with ⟨hs, hmem⟩ | ⟨hs, hmem⟩
  · rw [hatt name hmem, hs]
  · rw [hff name hmem, hs]

/-- The loader finds the stage that a sub-block is in. -/
theorem getLayerOwnerPpRank_eq (hlength : l.ppLayerOffsets.length = l.ppSize + 1)
    (horder : l.ppLayerOffsets.Pairwise (· ≤ ·)) (hrank : ppRank < l.ppSize)
    (hstart : l.ppLayerOffsets.getD ppRank 0 ≤ s)
    (hend : s < l.ppLayerOffsets.getD (ppRank + 1) 0) (hs : s < 2 ^ 32)
    (hpart : Network.subPartOfOp name = s % 2) :
    ∀ rank ∈ l.getLayerOwnerPpRank (s / 2) name, rank = ppRank := by
  have hsub : u32 (s / 2 * 2 + Network.subPartOfOp name) = s := by
    rw [hpart, u32_of_lt (by omega)]
    omega
  have hfind : (List.range l.ppSize).find? (fun r => decide (l.ppLayerOffsets.getD r 0 ≤ s ∧
      s < l.ppLayerOffsets.getD (r + 1) 0)) = some ppRank := by
    rw [List.find?_range_eq_some]
    refine ⟨by simpa using ⟨hstart, hend⟩, List.mem_range.2 hrank, fun r hr => ?_⟩
    -- an earlier stage ends where this one starts, or before
    have hle : l.ppLayerOffsets.getD (r + 1) 0 ≤ l.ppLayerOffsets.getD ppRank 0 :=
      getD_le_getD horder (Nat.succ_le_of_lt hr) (by omega)
    simp only [Bool.not_eq_true', decide_eq_false_iff_not, not_and_or, Nat.not_lt]
    exact .inr (hle.trans hstart)
  intro rank hrank'
  unfold Network.NnRootWeightLoader.getLayerOwnerPpRank at hrank'
  split_ifs at hrank' with hnone
  · cases hrank'
  · simp only [hsub, hfind] at hrank'
    exact (Option.mem_some_iff.1 hrank').symm

end Owner

/-! ## The ops of a node -/

section Net

variable {h : LlmHeader} {t : NnParallelTopology} {o : BuildOptions} {net : LlmNet}

/-- The weights of a node of the net. -/
def LlmNet.weightKeys (net : LlmNet) (t : NnParallelTopology) (node : Nat) : List (OpName × Nat) :=
  let ppRank := (t.placement node).ppRank
  nodeWeights net.header t.ppSize ppRank node (net.ppLayerOffsets.getD ppRank 0)
    (net.ppLayerOffsets.getD (ppRank + 1) 0)

theorem weightType_ne_unk {tpSize nBatches : Nat} {n : LlmSlices}
    (hok : buildLlmSlices h tpSize nBatches = .ok n) : h.weightType ≠ .unk := by
  rcases bind_eq_ok hok with ⟨_, -, hok⟩
  rcases bind_eq_ok hok with ⟨_, hq, -⟩
  rcases bind_eq_ok hq with ⟨_, -, hq⟩
  rcases bind_eq_ok hq with ⟨_, hsize, -⟩
  exact (Network.checkSize_ok hsize).2

theorem nodeOps_eq (hnet : buildLlmNet h t o = .ok net) {node : Nat} (hnode : node < t.nNodes) :
    ∃ c : BlockContext, c.Sized ∧ c.h = h ∧ c.n = net.slices ∧
      net.nodeOps node = (c.nodeSegments t.ppSize (t.placement node).ppRank node
        (net.ppLayerOffsets.getD (t.placement node).ppRank 0)
        (net.ppLayerOffsets.getD ((t.placement node).ppRank + 1) 0)
        o.fusedLmHeadArgmax).flatMap NnSegmentConfig.ops := by
  rcases buildLlmNet_eq_ok hnet with ⟨hslices, -, -, -, hcfgs⟩
  rcases hcfgs node hnode with ⟨cfg, hcfg, hbuild⟩
  rcases buildNode_eq_ok hbuild with ⟨ropeSlice, -, -, rfl⟩
  refine ⟨blockContext h t o net.slices ropeSlice (t.placement node).spRank,
    ⟨sliceSizes_of_ok hslices, weightType_ne_unk hslices⟩, rfl, rfl, ?_⟩
  rw [LlmNet.nodeOps, hcfg]

/-- What has a weight is one of the weights of the node, with its size. -/
theorem weightKeys_of_hasWeight (hnet : buildLlmNet h t o = .ok net) {node : Nat}
    (hnode : node < t.nNodes) {op : NnOpConfig} (hop : op ∈ net.nodeOps node)
    (hweight : op.hasWeight = true) :
    op.key ∈ net.weightKeys t node ∧ op.weightSize = h.weightSize net.slices op.name := by
  rcases nodeOps_eq hnet hnode with ⟨c, hc, rfl, hslices, hops⟩
  have hmem : (op.key, op.weightSize) ∈ weightsOf (net.nodeOps node) :=
    mem_weightsOf.2 ⟨op, hop, hweight, rfl, rfl⟩
  rw [hops, BlockContext.weightsOf_node hc] at hmem
  rcases List.mem_map.1 hmem with ⟨key, hkey, heq⟩
  rw [Prod.mk.injEq] at heq
  rcases heq with ⟨rfl, hsize⟩
  rw [LlmNet.weightKeys, (buildLlmNet_eq_ok hnet).2.2.1]
  exact ⟨hkey, by rw [← hsize, hslices]; rfl⟩

theorem opKeys_nodup_net (hnet : buildLlmNet h t o = .ok net) {node : Nat}
    (hnode : node < t.nNodes) : ((net.nodeOps node).map NnOpConfig.key).Nodup := by
  rcases nodeOps_eq hnet hnode with ⟨c, -, -, -, hops⟩
  rw [hops]
  exact BlockContext.opKeys_nodup ..

/-- The weights of the layers are among the names of their sub-blocks. -/
theorem mem_names_of_mem_weights {name : OpName} :
    (name ∈ h.attWeights → name ∈ BlockContext.attNames) ∧
      (name ∈ h.ffWeights → name ∈ BlockContext.ffNames) := by
  unfold LlmHeader.attWeights LlmHeader.ffWeights
  constructor
  · intro hname
    split_ifs at hname <;> revert hname <;> revert name <;> decide
  · intro hname
    split_ifs at hname <;> revert hname <;> revert name <;> decide

/-- An op with the key of a weight has that weight. -/
theorem weightKeys_of_mem_modelKeys (hnet : buildLlmNet h t o = .ok net) {node : Nat}
    (hnode : node < t.nNodes) {op : NnOpConfig} (hop : op ∈ net.nodeOps node)
    (hkey : op.key ∈ modelKeys h) : op.hasWeight = true := by
  have hheader := (buildLlmNet_eq_ok hnet).2.2.1
  have hname := name_mem_of_mem_modelKeys hkey
  have hnodup := opKeys_nodup_net hnet hnode
  suffices hmem : op.key ∈ net.weightKeys t node by
    rcases nodeOps_eq hnet hnode with ⟨c, hc, rfl, hslices, hops⟩
    rw [LlmNet.weightKeys, hheader] at hmem
    have hsized : (op.key, c.h.weightSize c.n op.key.1) ∈ weightsOf (net.nodeOps node) := by
      rw [hops, BlockContext.weightsOf_node hc]
      exact List.mem_map.2 ⟨op.key, hmem, rfl⟩
    rcases mem_weightsOf.1 hsized with ⟨op', hop', hweight, hkey', -⟩
    -- no other op has this key
    have heq : op' = op := List.inj_on_of_nodup_map hnodup hop' hop hkey'
    exact heq ▸ hweight
  rcases nodeOps_eq hnet hnode with ⟨c, -, rfl, -, hops⟩
  rw [hops, BlockContext.flatMap_ops_nodeSegments] at hop
  rw [LlmNet.weightKeys, hheader]
  simp only [nodeWeights, List.mem_append]
  simp only [weightNames, List.mem_append, List.mem_cons, List.not_mem_nil, or_false] at hname
  have hdisjoint := BlockContext.names_disjoint
  have hnames := @mem_names_of_mem_weights c.h op.key.1
  rcases List.mem_append.1 hop with hop | hop
  · rcases List.mem_append.1 hop with hop | hop
    · -- the embedding, on node 0 of the first stage
      refine .inl (.inl ?_)
      have hcall : op.key ∈ BlockContext.callKeys (c.startCalls t.ppSize (t.placement node).ppRank
          node) := List.mem_map.2 ⟨op, hop, rfl⟩
      split_ifs with hroot
      · exact (c.callKeys_startCalls ..).subset hcall
      · refine absurd hcall ?_
        unfold BlockContext.startCalls
        rcases not_and_or.1 hroot with hpp | hzero
        · rw [if_neg hpp]
          exact List.not_mem_nil
        · rw [if_neg hzero]
          split_ifs <;> exact List.not_mem_nil
    · -- a sub-block of the stage
      refine .inl (.inr ?_)
      rcases List.mem_flatMap.1 hop with ⟨s, hs, hop⟩
      refine List.mem_flatMap.2 ⟨s, hs, ?_⟩
      rcases List.mem_map.1 ((c.callKeys_subBlockCalls s).subset
        (List.mem_map.2 ⟨op, hop, rfl⟩)) with ⟨name, hsub, heq⟩
      rw [← heq] at hname hnames ⊢
      refine List.mem_map.2 ⟨name, ?_, rfl⟩
      have hmem := BlockContext.mem_subNames hsub
      unfold BlockContext.subNames at hsub
      rcases hname with ((hname | hname) | hname) | hname
      · exact absurd (hname ▸ List.mem_append_left _ hmem) hdisjoint.2.2
      · split_ifs at hsub ⊢
        · exact hname
        · exact absurd hsub (hdisjoint.1 name (hnames.1 hname))
      · split_ifs at hsub ⊢
        · exact absurd (hnames.2 hname) (hdisjoint.1 name hsub)
        · exact hname
      · refine absurd ?_ (hdisjoint.2.1 name hmem)
        rcases hname with rfl | rfl <;> decide
  · -- behind the layers
    refine .inr ?_
    have htail := (c.callKeys_tail t.ppSize (t.placement node).ppRank o.fusedLmHeadArgmax).subset
      (List.mem_map.2 ⟨op, hop, rfl⟩)
    rcases List.mem_map.1 htail with ⟨name, hmem, heq⟩
    rw [← heq] at hname hnames ⊢
    have hlast : name = .finalNorm ∨ name = .finalMatmulLogits := by
      rcases hname with ((hname | hname) | hname) | hname
      · exact absurd (hname ▸ hmem : OpName.embedding ∈ BlockContext.tailNames) (by decide)
      · exact absurd hmem (hdisjoint.2.1 name (List.mem_append_left _ (hnames.1 hname)))
      · exact absurd hmem (hdisjoint.2.1 name (List.mem_append_right _ (hnames.2 hname)))
      · exact hname
    split_ifs with hpp
    · rcases hlast with rfl | rfl
      · exact List.mem_cons_self
      · exact List.mem_cons_of_mem _ List.mem_cons_self
    · refine absurd hop fun hop => ?_
      rw [if_neg hpp, List.append_nil] at hop
      have hbridge : op.key ∈ [(OpName.stageBridgeMergeAdd, 0), (.stageBridgeCastX, 0)] := by
        split_ifs at hop
        · exact List.mem_map.2 ⟨op, hop, rfl⟩
        · cases hop
      rw [← heq] at hbridge
      rcases hlast with rfl | rfl <;> simp at hbridge

/-- No weight of a node lies behind the layers of the model. -/
theorem mem_modelKeys_of_weightKeys (hnet : buildLlmNet h t o = .ok net)
    (horder : net.ppLayerOffsets.Pairwise (· ≤ ·)) {node : Nat} (hnode : node < t.nNodes)
    {key : OpName × Nat} (hkey : key ∈ net.weightKeys t node) : key ∈ modelKeys h := by
  rw [LlmNet.weightKeys, (buildLlmNet_eq_ok hnet).2.2.1] at hkey
  rw [mem_modelKeys]
  simp only [nodeWeights, List.mem_append] at hkey
  rcases hkey with (hkey | hkey) | hkey
  · split_ifs at hkey
    · exact .inl (List.mem_singleton.1 hkey)
    · cases hkey
  · rcases List.mem_flatMap.1 hkey with ⟨s, hs, hkey⟩
    rcases List.mem_map.1 hkey with ⟨name, hname, rfl⟩
    refine .inr (.inl ⟨?_, ?_⟩)
    · have hspan := spansSubBlocks_of_ok t.ppSize_pos (buildLlmNet_eq_ok hnet).2.1
      have hlt := (mem_subBlocks.1 hs).2.2
      have hrank := t.ppRank_lt hnode
      have hlength := hspan.length
      have hend : net.ppLayerOffsets.getD ((t.placement node).ppRank + 1) 0
          ≤ net.ppLayerOffsets.getD t.ppSize 0 :=
        getD_le_getD horder (Nat.succ_le_of_lt hrank) (by omega)
      rw [hspan.last] at hend
      have hword : u32 (h.nLayers * 2) ≤ h.nLayers * 2 := Nat.mod_le ..
      show s / 2 < h.nLayers
      omega
    · rw [List.mem_append]
      split_ifs at hname
      · exact .inl hname
      · exact .inr hname
  · split_ifs at hkey
    · simp only [List.mem_cons, List.not_mem_nil, or_false] at hkey
      exact .inr (.inr hkey)
    · cases hkey

/-! ## The nodes of a call -/

theorem nodes_nodup (l : Network.NnRootWeightLoader) (call : LoaderCall) :
    (call.nodes l).Nodup := by
  have hslice (ownerPpRank : Option Nat) (tpSize : Nat) :
      (LoaderCall.sliceNodes l ownerPpRank tpSize).Nodup := by
    unfold LoaderCall.sliceNodes
    split_ifs
    · exact List.nodup_singleton _
    · exact List.nodup_range.filter _
  unfold LoaderCall.nodes
  split
  · exact List.nodup_singleton _
  · exact List.nodup_range
  · exact hslice _ _
  · exact hslice _ _

/-- `tpGroupEnd` of the root is the size of a TP group. -/
theorem lastPpStage_eq (hnet : buildLlmNet h t o = .ok net) (hsp : t.spSize = 1) :
    net.lastPpStage = if t.ppSize = 1 then none else some (t.ppSize - 1) := by
  rcases buildLlmNet_eq_ok hnet with ⟨-, -, -, hnodes, hcfgs⟩
  rcases hcfgs 0 t.nNodes_pos with ⟨cfg, hcfg, hbuild⟩
  rcases buildNode_eq_ok hbuild with ⟨ropeSlice, -, -, rfl⟩
  have hgroup : (t.placement 0).tpGroupEnd = t.tpSize := by
    simp [NnParallelTopology.placement]
  have htotal : net.nNodes = t.ppSize * t.tpSize := by
    rw [hnodes, t.nNodes_eq, hsp, Nat.mul_one]
  have hpp := t.ppSize_pos
  have htp := t.tpSize_pos
  have hstages : net.nNodes / t.tpSize = t.ppSize := by
    rw [htotal, Nat.mul_div_cancel _ htp]
  simp only [LlmNet.lastPpStage, hcfg, Option.map_some, Option.getD_some, hgroup, hstages]
  by_cases hone : t.ppSize = 1
  · rw [if_pos hone, hone, Nat.sub_self, ite_self, if_neg (Nat.lt_irrefl 0)]
  · have hmany : 1 < net.nNodes := by
      rw [htotal]
      calc 1 < t.ppSize := by omega
        _ ≤ t.ppSize * t.tpSize := Nat.le_mul_of_pos_right _ htp
    rw [if_neg hone, if_pos hmany, if_pos (by omega)]

/-- The loader sends the weights of a node to it. -/
theorem mem_nodes_of_weightKeys (hnet : buildLlmNet h t o = .ok net) (hsp : t.spSize = 1)
    (horder : net.ppLayerOffsets.Pairwise (· ≤ ·)) {node : Nat} (hnode : node < t.nNodes)
    {key : OpName × Nat} (hkey : key ∈ net.weightKeys t node) (expertIndex : Nat) :
    node ∈ (callOf net.slices net.lastPpStage key expertIndex).nodes
      (net.weightLoader t.ppSize) := by
  rcases buildLlmNet_eq_ok hnet with ⟨hslices, hoffsets, hheader, hnodes, -⟩
  have hn := slicesOf_ok hslices
  have hspan := spansSubBlocks_of_ok t.ppSize_pos hoffsets
  have hrank := t.ppRank_lt hnode
  have hplace : (t.placement node).ppRank = node / t.tpSize := by
    simp [NnParallelTopology.placement, hsp]
  have hall : node ∈ List.range (net.weightLoader t.ppSize).nNodes :=
    List.mem_range.2 (hnode.trans_eq hnodes.symm)
  -- a slice goes to the nodes of its owner
  have hslice {ownerPpRank : Option Nat} {tpSize : Nat} (htp : tpSize = t.tpSize)
      (howner : ∀ rank ∈ ownerPpRank, rank = (t.placement node).ppRank) :
      node ∈ LoaderCall.sliceNodes (net.weightLoader t.ppSize) ownerPpRank tpSize := by
    unfold LoaderCall.sliceNodes
    split_ifs with hone
    · have hzero : node < 1 := by
        have hone' : net.nNodes = 1 := hone
        rw [← hone', hnodes]
        exact hnode
      exact List.mem_singleton.2 (by omega)
    · refine List.mem_filter.2 ⟨hall, (Option.all_eq_true ..).2 fun rank hmem => ?_⟩
      rw [Network.NnRootWeightLoader.nodeInPpStage, howner rank hmem, hplace, htp,
        beq_self_eq_true]
  rw [LlmNet.weightKeys, hheader] at hkey
  simp only [nodeWeights, List.mem_append] at hkey
  rcases key with ⟨name, index⟩
  rcases hkey with (hkey | hkey) | hkey
  · split_ifs at hkey with hroot
    · cases List.mem_singleton.1 hkey
      exact List.mem_singleton.2 hroot.2
    · cases hkey
  · rcases List.mem_flatMap.1 hkey with ⟨s, hs, hkey⟩
    rcases List.mem_map.1 hkey with ⟨name', hname, heq⟩
    cases heq
    have howner (hsplit : (tensorShape h name).split ≠ .whole) :
        ∀ rank ∈ (net.weightLoader t.ppSize).getLayerOwnerPpRank (s / 2) name,
          rank = (t.placement node).ppRank := by
      have hrange := (mem_subBlocks.1 hs).2
      exact getLayerOwnerPpRank_eq hspan.length horder hrank hrange.1 hrange.2
        (lt_of_mem_subBlocks hs) (subPartOfOp_eq hname hsplit)
    have hmatmul : name ∈ h.attWeights ++ h.ffWeights := by
      rw [List.mem_append]
      split_ifs at hname
      · exact .inl hname
      · exact .inr hname
    cases name <;> simp [LlmHeader.attWeights, LlmHeader.ffWeights] at hmatmul
    case blockNorm0 | blockNorm1 | blockNormQ | blockNormK | blockMoeGate => exact hall
    case blockMatmulQ => exact hslice (by rw [hn.q]; rfl) (howner WeightSplit.noConfusion)
    case blockMatmulK => exact hslice (by rw [hn.k]; rfl) (howner WeightSplit.noConfusion)
    case blockMatmulV => exact hslice (by rw [hn.v]; rfl) (howner WeightSplit.noConfusion)
    case blockMatmulWo => exact hslice (by rw [hn.wo]; rfl) (howner WeightSplit.noConfusion)
    case blockMatmulW1 => exact hslice (by rw [hn.w1]; rfl) (howner WeightSplit.noConfusion)
    case blockMatmulW2 => exact hslice (by rw [hn.w2]; rfl) (howner WeightSplit.noConfusion)
    case blockMatmulW3 => exact hslice (by rw [hn.w3]; rfl) (howner WeightSplit.noConfusion)
  · split_ifs at hkey with hpp
    · simp only [List.mem_cons, List.not_mem_nil, or_false] at hkey
      rcases hkey with heq | heq
      · cases heq
        exact hall
      · cases heq
        refine hslice (by rw [hn.wcls]; rfl) ?_
        rw [lastPpStage_eq hnet hsp]
        split_ifs with hone
        · intro rank hmem
          have howner : (net.weightLoader t.ppSize).getLayerOwnerPpRank 0 .finalMatmulLogits
              = none := if_pos (.inl (show t.ppSize ≤ 1 by omega))
          have hmem' : rank ∈ (net.weightLoader t.ppSize).getLayerOwnerPpRank 0
              .finalMatmulLogits := hmem
          rw [howner] at hmem'
          cases hmem'
        · intro rank hmem
          rw [hpp]
          exact (Option.mem_some_iff.1 hmem).symm
    · cases hkey

/-- The weight of an op has room for the parts of all its experts. -/
theorem weightSize_eq {n : LlmSlices} {tpSize : Nat} (hn : SlicesOf h tpSize n) {name : OpName}
    (hname : name ∈ weightNames h) (hfits : (tensorShape h name).Fits tpSize) :
    (h.weightSize n name).nBytes
        = (tensorShape h name).nExperts * (tensorShape h name).partBytes tpSize ∧
      (1 < (tensorShape h name).nExperts → 1 < (h.weightSize n name).z) := by
  have hsize := size3D_nBytes hfits.blocks hfits.weight
  have hff (y x : Nat) : h.ffSize y x = size3D h.weightType (ffExperts h) y x := by
    unfold LlmHeader.ffSize ffExperts
    split_ifs <;> rfl
  have hwhole {size : NnSize3D} (hexperts : (tensorShape h name).nExperts = 1)
      (hsplit : (tensorShape h name).split = .whole)
      (hbytes : size.nBytes = (tensorShape h name).nBytes) :
      size.nBytes = (tensorShape h name).nExperts * (tensorShape h name).partBytes tpSize ∧
        (1 < (tensorShape h name).nExperts → 1 < size.z) := by
    rw [hexperts, Nat.one_mul, TensorShape.nBytes_of_whole hsplit]
    exact ⟨hbytes, fun hlt => absurd hlt (Nat.lt_irrefl 1)⟩
  have hload := @load_callOf h n tpSize ⟨0, 0, 0, []⟩ none (name, 0) 0 hn hfits
  have hmatmul {size : NnSize3D}
      (heq : size = size3D (tensorShape h name).floatType (tensorShape h name).nExperts
        ((tensorShape h name).partN tpSize) ((tensorShape h name).partD tpSize)) :
      size.nBytes = (tensorShape h name).nExperts * (tensorShape h name).partBytes tpSize ∧
        (1 < (tensorShape h name).nExperts → 1 < size.z) := by
    subst heq
    exact ⟨hsize, fun hlt => hlt⟩
  simp only [weightNames, LlmHeader.attWeights, LlmHeader.ffWeights, List.mem_append] at hname
  cases name <;> simp at hname
  case embedding => exact hwhole rfl rfl hload
  case blockNorm0 | blockNorm1 | finalNorm | blockMoeGate => exact hwhole rfl rfl hload
  case blockNormQ | blockNormK =>
    have hqk : (size2D .f32 1 h.headDim).nBytes = n.qkRmsNormSize.nBytes := by
      rw [hn.sizes.qkRmsNorm]
      rfl
    exact hwhole rfl rfl (hqk.trans hload)
  case blockMatmulQ => exact hmatmul (by simp only [LlmHeader.weightSize, hn.q]; rfl)
  case blockMatmulK => exact hmatmul (by simp only [LlmHeader.weightSize, hn.k]; rfl)
  case blockMatmulV => exact hmatmul (by simp only [LlmHeader.weightSize, hn.v]; rfl)
  case blockMatmulWo => exact hmatmul (by simp only [LlmHeader.weightSize, hn.wo]; rfl)
  case blockMatmulW1 => exact hmatmul (by simp only [LlmHeader.weightSize, hn.w1, hff]; rfl)
  case blockMatmulW2 => exact hmatmul (by simp only [LlmHeader.weightSize, hn.w2, hff]; rfl)
  case blockMatmulW3 => exact hmatmul (by simp only [LlmHeader.weightSize, hn.w3, hff]; rfl)
  case finalMatmulLogits => exact hmatmul (by simp only [LlmHeader.weightSize, hn.wcls]; rfl)

end Net

end PrefillOpt
