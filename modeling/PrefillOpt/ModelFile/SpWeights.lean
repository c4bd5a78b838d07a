import PrefillOpt.ModelFile.WeightsLoaded

/-!
# ModelFile.SpWeights — weights of nets with sequence parallelism

The loader finds the nodes of a stage by `nodeIndex / tpSize`, and the last stage by
`nNodes / tpSize - 1`.  Both leave the ranks of a sequence-parallel group out: where there is one,
the logits matrix goes to the last TP group of the cluster only, and the first node of the last
stage has an op whose weight nobody sends.
-/

namespace PrefillOpt

open Lib (Mem foldlM_frame dispatch_frame)
open ModelFile

namespace ModelFile

/-- Every node ends with the weights of its ops, each byte loaded once, and no load fails. -/
def WeightsReach (h : LlmHeader) (t : NnParallelTopology) (net : LlmNet) (file : List UInt8)
    (tensors : List (WeightLoad × List UInt8)) (temps : Nat → Mem UInt8) : Prop :=
  ∃ records,
    sendNetWeight (net.weightLoader t.ppSize) file h net.slices net.lastPpStage temps
      = .ok records ∧
    ∀ node < t.nNodes, ∀ (repackOn : Bool) (memory : Nat → Mem UInt8), ∃ devices,
      loadNode repackOn (net.nodeOps node) node records (freshWeights memory) = .ok devices ∧
      Loaded h t.tpSize (t.placement node).tpRank tensors repackOn (net.nodeOps node) memory
        devices

/-! ## An op that no record names -/

/-- A node keeps what it has for an op with whose key it gets no record. -/
theorem loadNode_frame {repackOn : Bool} {ops : List NnOpConfig} {node : Nat}
    {records : List WeightRecord} {devices devices' : Nat → OpWeight} {i : Nat} {op : NnOpConfig}
    (hkeys : (ops.map NnOpConfig.key).Nodup) (hop : ops[i]? = some op)
    (hnone : (records.filter fun record => record.nodeIndex = node).filter
      (fun record => record.key = op.key) = [])
    (hrun : loadNode repackOn ops node records devices = .ok devices') :
    devices' i = devices i := by
  refine foldlM_frame (fun record hmem s s' hread => ?_) hrun
  have hkey : locateOp ops record.opName record.opIndex ≠ some i := by
    intro hfound
    have heq : op.key = record.key := (locateOp_eq_some_iff hkeys hop).1 hfound
    exact List.filter_eq_nil_iff.1 hnone record hmem (by simp [heq])
  -- a worker reads the record into its buffer first
  have hload : loadRecord repackOn ops s record = .ok s' := by
    unfold readRecord at hread
    split_ifs at hread with hworker
    · rcases bind_eq_ok hread with ⟨_, -, hload⟩
      exact hload
    · exact hread
  unfold loadRecord at hload
  refine dispatch_frame ?_ hload
  exact hkey

/-- A weight with bytes is not full before anything was loaded. -/
theorem freshWeights_ne_full {repackOn : Bool} {size : NnSize3D} (hbytes : size.nBytes ≠ 0)
    (memory : Nat → Mem UInt8) (i : Nat) (weight : Mem UInt8) :
    freshWeights memory i ≠ OpWeight.full repackOn size weight := by
  intro heq
  have hloaded := congrArg OpWeight.loadedBytes heq
  have hfull : (OpWeight.full repackOn size weight).loadedBytes = size.nBytes := by
    unfold OpWeight.full
    split_ifs <;> rfl
  rw [hfull] at hloaded
  exact hbytes hloaded.symm

section Net

variable {h : LlmHeader} {t : NnParallelTopology} {o : BuildOptions} {net : LlmNet}

/-- The graph of a node has an op for each of its weights. -/
theorem exists_op_of_weightKeys (hnet : buildLlmNet h t o = .ok net) {node : Nat}
    (hnode : node < t.nNodes) {key : OpName × Nat} (hkey : key ∈ net.weightKeys t node) :
    ∃ op ∈ net.nodeOps node, op.key = key ∧ op.hasWeight = true := by
  rcases nodeOps_eq hnet hnode with ⟨c, hc, rfl, hslices, hops⟩
  rw [LlmNet.weightKeys, (buildLlmNet_eq_ok hnet).2.2.1] at hkey
  have hsized : (key, c.h.weightSize c.n key.1) ∈ weightsOf (net.nodeOps node) := by
    rw [hops, BlockContext.weightsOf_node hc]
    exact List.mem_map.2 ⟨key, hkey, rfl⟩
  rcases mem_weightsOf.1 hsized with ⟨op, hop, hweight, hop', -⟩
  exact ⟨op, hop, hop', hweight⟩

/-! ## The logits matrix -/

/-- The last stage as the loader counts it is the last TP group. -/
theorem lastPpStage_sp (hnet : buildLlmNet h t o = .ok net) (hsp : 1 < t.spSize) :
    net.lastPpStage = some (t.ppSize * t.spSize - 1) := by
  rcases buildLlmNet_eq_ok hnet with ⟨-, -, -, hnodes, hcfgs⟩
  rcases hcfgs 0 t.nNodes_pos with ⟨cfg, hcfg, hbuild⟩
  rcases buildNode_eq_ok hbuild with ⟨ropeSlice, -, -, rfl⟩
  have hgroup : (t.placement 0).tpGroupEnd = t.tpSize := by
    simp [NnParallelTopology.placement]
  have hgroups : net.nNodes / t.tpSize = t.ppSize * t.spSize := by
    rw [hnodes, t.nNodes_eq, Nat.mul_div_cancel _ t.tpSize_pos]
  have hlanes : 1 < t.ppSize * t.spSize := by
    calc 1 < t.spSize := hsp
      _ ≤ t.ppSize * t.spSize := Nat.le_mul_of_pos_left _ t.ppSize_pos
  have hmany : 1 < net.nNodes := by
    rw [hnodes, t.nNodes_eq]
    exact hlanes.trans_le (Nat.le_mul_of_pos_right _ t.tpSize_pos)
  simp only [LlmNet.lastPpStage, hcfg, Option.map_some, Option.getD_some, hgroup, hgroups,
    if_pos hmany]
  exact if_pos (by omega)

/-- The first node of the last stage. -/
def firstOfLastStage (t : NnParallelTopology) : Nat :=
  t.rankAt (t.ppSize - 1) 0 0

theorem firstOfLastStage_lt : firstOfLastStage t < t.nNodes :=
  t.rankAt_lt (Nat.sub_lt t.ppSize_pos Nat.one_pos) t.spSize_pos t.tpSize_pos

theorem firstOfLastStage_eq : firstOfLastStage t = (t.ppSize - 1) * t.spSize * t.tpSize := by
  simp only [firstOfLastStage, NnParallelTopology.rankAt, Nat.zero_mul, Nat.add_zero,
    Nat.mul_assoc]

theorem ppRank_firstOfLastStage : (t.placement (firstOfLastStage t)).ppRank = t.ppSize - 1 := by
  rw [firstOfLastStage_eq, Nat.mul_assoc]
  exact Nat.mul_div_cancel _ t.laneCount_pos

/-- With a sequence-parallel group the loader does not send the logits matrix there. -/
theorem firstOfLastStage_notMem (hnet : buildLlmNet h t o = .ok net) (hsp : 1 < t.spSize)
    (expertIndex : Nat) :
    firstOfLastStage t ∉ (callOf net.slices net.lastPpStage (.finalMatmulLogits, 0)
      expertIndex).nodes (net.weightLoader t.ppSize) := by
  rcases buildLlmNet_eq_ok hnet with ⟨hslices, -, -, hnodes, -⟩
  have hn := slicesOf_ok hslices
  intro hmem
  have hmem' : firstOfLastStage t ∈ LoaderCall.sliceNodes (net.weightLoader t.ppSize)
      (net.lastPpStage <|> (net.weightLoader t.ppSize).getLayerOwnerPpRank 0 .finalMatmulLogits)
      net.slices.wclsSlice.nNodes := hmem
  have hgroup : net.slices.wclsSlice.nNodes = t.tpSize := by rw [hn.wcls]; rfl
  have hlanes : t.spSize ≤ t.ppSize * t.spSize := Nat.le_mul_of_pos_left _ t.ppSize_pos
  have hmany : (net.weightLoader t.ppSize).nNodes ≠ 1 := by
    intro hone
    have hone' : t.ppSize * t.spSize * t.tpSize = 1 := t.nNodes_eq ▸ hnodes ▸ hone
    have := Nat.eq_one_of_mul_eq_one_right hone'
    omega
  rw [lastPpStage_sp hnet hsp, hgroup, LoaderCall.sliceNodes, if_neg hmany] at hmem'
  -- the stage that the loader takes to be the last starts `spSize - 1` groups later
  have hstage := (List.mem_filter.1 hmem').2
  have hindex : firstOfLastStage t / t.tpSize = t.ppSize * t.spSize - 1 := by
    simpa [Network.NnRootWeightLoader.nodeInPpStage] using hstage
  rw [firstOfLastStage_eq, Nat.mul_div_cancel _ t.tpSize_pos, Nat.sub_mul, Nat.one_mul] at hindex
  omega

/-- With a sequence-parallel group the first node of the last stage has no logits matrix. -/
theorem not_weightsReach_of_sp (hnet : buildLlmNet h t o = .ok net) (hsp : 1 < t.spSize)
    (hexperts : ExpertsAgree h) (hfits : WeightsFit h t) {file : List UInt8}
    (hsize : h.fileSize = file.length) {tensors : List (WeightLoad × List UInt8)}
    (hfile : loadLlmNetWeight (net.weightLoader t.ppSize) file h net.slices net.lastPpStage
      = .ok tensors) (hmatrix : (tensorShape h .finalMatmulLogits).partBytes t.tpSize ≠ 0)
    (temps : Nat → Mem UInt8) : ¬WeightsReach h t net file tensors temps := by
  rintro ⟨records, hsend, hreach⟩
  rcases buildLlmNet_eq_ok hnet with ⟨hslices, -, hheader, hnodes, -⟩
  have hn := slicesOf_ok hslices
  have hone : (net.weightLoader t.ppSize).nNodes = 1 → t.tpSize = 1 := by
    intro hone
    have htotal : t.ppSize * t.spSize * t.tpSize = 1 := t.nNodes_eq ▸ hnodes ▸ hone
    exact Nat.eq_one_of_mul_eq_one_left htotal
  rcases sendNetWeight_ok hn hexperts hfits.shapes t.tpSize_pos hone hsize hfile temps with
    ⟨hend, -, hsend'⟩
  obtain rfl := Except.ok.inj (hsend.symm.trans hsend')
  -- the op of the matrix
  have hkey : (OpName.finalMatmulLogits, 0) ∈ net.weightKeys t (firstOfLastStage t) := by
    rw [LlmNet.weightKeys, ppRank_firstOfLastStage]
    simp [BlockContext.nodeWeights]
  rcases exists_op_of_weightKeys hnet firstOfLastStage_lt hkey with ⟨op, hop, hopKey, hweight⟩
  rcases List.mem_iff_getElem?.1 hop with ⟨i, hi⟩
  -- no record has its key
  have hnone : ((((visited (net.weightLoader t.ppSize) file h.headerSize
      (netCalls h net.slices net.lastPpStage)).flatMap fun found =>
        (found.1.nodes (net.weightLoader t.ppSize)).map (partRecord h t.tpSize found)).filter
          fun record => record.nodeIndex = firstOfLastStage t).filter
            fun record => record.key = op.key) = [] := by
    rw [filter_records, List.flatMap_eq_nil_iff]
    intro found hfound
    rcases List.mem_filter.1 hfound with ⟨hvisited, hfoundKey⟩
    have hcall := (found_of_mem hn hexperts hfits.shapes hend hvisited).call
    rcases eq_callOf_of_mem hexperts hcall with ⟨expertIndex, -, heq⟩
    rw [of_decide_eq_true hfoundKey, hopKey] at heq
    rw [heq, if_neg (firstOfLastStage_notMem hnet hsp expertIndex)]
  rcases hreach _ firstOfLastStage_lt false (fun _ _ => 0) with ⟨devices, hrun, hloaded⟩
  -- so nothing of the matrix is loaded
  have hframe := loadNode_frame (opKeys_nodup_net hnet firstOfLastStage_lt) hi hnone hrun
  have hop' := hloaded i op hi
  rw [if_pos hweight] at hop'
  rcases hop' with ⟨weight, hfull, -⟩
  refine freshWeights_ne_full ?_ _ i weight (hframe.symm.trans hfull)
  rcases weightKeys_of_hasWeight hnet firstOfLastStage_lt hop hweight with ⟨-, hopSize⟩
  have hname : OpName.finalMatmulLogits ∈ weightNames h := by simp [weightNames]
  have hopName : op.name = .finalMatmulLogits := congrArg Prod.fst hopKey
  rw [hopSize, hopName, (weightSize_eq hn hname (hfits.shapes _ hname)).1]
  exact Nat.mul_ne_zero (nExperts_pos hexperts _).ne' hmatrix

end Net

/-! ## When the weights reach the nodes that use them -/

/-- The weights reach the nodes that use them exactly without sequence parallelism. -/
theorem weightsReach_iff {h : LlmHeader} {t : NnParallelTopology} {o : BuildOptions}
    {net : LlmNet} (hnet : buildLlmNet h t o = .ok net) (hlayers : h.nLayers * 2 < 2 ^ 32)
    (hcounts : o.ppStageLayerCounts.sum * 2 < 2 ^ 32) (hexperts : ExpertsAgree h)
    (hfits : WeightsFit h t) {file : List UInt8} (hsize : h.fileSize = file.length)
    {tensors : List (WeightLoad × List UInt8)}
    (hfile : loadLlmNetWeight (net.weightLoader t.ppSize) file h net.slices net.lastPpStage
      = .ok tensors) (hmatrix : (tensorShape h .finalMatmulLogits).partBytes t.tpSize ≠ 0)
    (temps : Nat → Mem UInt8) :
    WeightsReach h t net file tensors temps ↔ t.spSize = 1 := by
  constructor
  · intro hreach
    by_contra hone
    have hsp : 1 < t.spSize := lt_of_le_of_ne t.spSize_pos (Ne.symm hone)
    exact not_weightsReach_of_sp hnet hsp hexperts hfits hsize hfile hmatrix temps hreach
  · intro hsp
    exact loaded_of_file hnet hsp hlayers hcounts hexperts hfits hsize hfile temps

/-- Four nodes in two stages of two tensor-parallel ranks. -/
theorem weightsReach_iff_two_stages :
    ∃ net tensors, buildLlmNet smallModel twoStages unevenStages = .ok net ∧
      (WeightsReach smallModel twoStages net (List.replicate 1104 1) tensors (fun _ _ => 0) ↔
        twoStages.spSize = 1) := by
  rcases smallModel_loads with ⟨net, tensors, hnet, hfile⟩
  exact ⟨net, tensors, hnet, weightsReach_iff hnet (by decide) (by decide)
    (by unfold ExpertsAgree; decide) weightsFit_small (List.length_replicate ..).symm hfile
    (by decide) fun _ _ => 0⟩

private theorem twoLanes_nNodes : 2 = 1 * 2 * 1 := rfl

/-- Two sequence-parallel ranks in one stage. -/
def twoLanes : NnParallelTopology :=
  ⟨2, 1, 2, 1, Nat.one_pos, Nat.two_pos, Nat.one_pos, twoLanes_nNodes⟩

def wholeStage : BuildOptions := ⟨1, [], none, false, false⟩

theorem weightsFit_lanes : WeightsFit smallModel twoLanes where
  shapes := by decide
  payload := by decide

/-- With two sequence-parallel ranks the root has no logits matrix. -/
theorem not_weightsReach_two_lanes :
    ∃ net tensors, buildLlmNet smallModel twoLanes wholeStage = .ok net ∧
      loadLlmNetWeight (net.weightLoader 1) (List.replicate 1104 1) smallModel net.slices
        net.lastPpStage = .ok tensors ∧
      ¬WeightsReach smallModel twoLanes net (List.replicate 1104 1) tensors fun _ _ => 0 := by
  have hnet : ∃ net, buildLlmNet smallModel twoLanes wholeStage = .ok net := ⟨_, rfl⟩
  rcases hnet with ⟨net, hnet⟩
  have hfile : ∃ tensors, loadLlmNetWeight (net.weightLoader 1) (List.replicate 1104 1) smallModel
      net.slices net.lastPpStage = .ok tensors := by
    cases hnet
    exact ⟨_, rfl⟩
  rcases hfile with ⟨tensors, hfile⟩
  exact ⟨net, tensors, hnet, hfile, not_weightsReach_of_sp hnet Nat.one_lt_two
    (by unfold ExpertsAgree; decide) weightsFit_lanes (List.length_replicate ..).symm hfile
    (by decide) fun _ _ => 0⟩

end ModelFile
end PrefillOpt
