import PrefillOpt.Graph.Embedding
import PrefillOpt.ModelFile.WeightsReach

/-!
# ModelFile.WeightsLoaded — every op ends with its weight

The whole run: the root sends, the nodes load.  A node's run splits into runs of its ops, and the
run of an op fills it with the parts of its experts.
-/

namespace PrefillOpt

open Lib (Mem dispatch itemsOf foldlM_dispatch)
open ModelFile

namespace ModelFile

open Network (NnRootWeightLoader)

/-! ## All records -/

/-- The expert of a call; what is not split has one. -/
def LoaderCall.expertIndex (call : LoaderCall) : Nat :=
  match call.method with
  | .loadRoot _ => 0
  | .loadAll _ => 0
  | .loadRowMatmulSlices expertIndex _ => expertIndex
  | .loadColMatmulSlices expertIndex _ _ => expertIndex

/-- The record that a call sends to a node. -/
def partRecord (h : LlmHeader) (tpSize : Nat) (found : LoaderCall × List UInt8)
    (nodeIndex : Nat) : WeightRecord :=
  let shape := tensorShape h found.1.opName
  found.1.recordOf nodeIndex (found.1.expertIndex * shape.partBytes tpSize)
    (shape.part tpSize (nodeIndex % tpSize) found.2)

/-- The bytes of a weight for a rank, expert by expert. -/
def nodePart (h : LlmHeader) (tpSize rank : Nat) (tensors : List (WeightLoad × List UInt8))
    (key : OpName × Nat) : List UInt8 :=
  (tensors.filter fun tensor => (tensor.1.opName, tensor.1.opIndex) = key).flatMap fun tensor =>
    (tensorShape h key.1).part tpSize rank tensor.2

theorem mapM_eq_ok {α τ : Type} {f : α → Except String τ} {g : α → τ} {l : List α}
    (h : ∀ a ∈ l, f a = .ok (g a)) : l.mapM f = .ok (l.map g) := by
  induction l with
  | nil => rfl
  | cons a l ih =>
      rw [List.mapM_cons, ok_bind_of_eq (h a List.mem_cons_self),
        ok_bind_of_eq (ih fun b hb => h b (List.mem_cons_of_mem a hb))]
      rfl

theorem foldlM_congr_mem {α σ : Type} {f g : σ → α → Except String σ} {l : List α}
    (h : ∀ a ∈ l, ∀ s, f s a = g s a) (s : σ) : l.foldlM f s = l.foldlM g s := by
  induction l generalizing s with
  | nil => rfl
  | cons a l ih =>
      rw [List.foldlM_cons, List.foldlM_cons, h a List.mem_cons_self s]
      cases g s a with
      | error e => rfl
      | ok s' => exact ih (fun b hb => h b (List.mem_cons_of_mem a hb)) s'

section Records

variable {h : LlmHeader} {n : LlmSlices} {tpSize : Nat} {l : NnRootWeightLoader}
  {lastPpStage : Option Nat} {file : List UInt8}

theorem expertIndex_callOf {key : OpName × Nat} {expertIndex : Nat}
    (hexpert : expertIndex < (tensorShape h key.1).nExperts) :
    (callOf n lastPpStage key expertIndex).expertIndex = expertIndex := by
  rcases key with ⟨name, index⟩
  have hzero (hone : (tensorShape h name).nExperts = 1) : 0 = expertIndex := by
    have hlt : expertIndex < (tensorShape h name).nExperts := hexpert
    omega
  cases name with
  | blockMatmulQ | blockMatmulK | blockMatmulV | blockMatmulWo | blockMatmulW1 | blockMatmulW2
  | blockMatmulW3 | finalMatmulLogits => rfl
  | _ => exact hzero rfl

/-- Every call is the one for some expert of its weight. -/
theorem eq_callOf_of_mem (hexperts : ExpertsAgree h) {call : LoaderCall}
    (hcall : call ∈ netCalls h n lastPpStage) :
    ∃ expertIndex < (tensorShape h call.opName).nExperts,
      call = callOf n lastPpStage call.key expertIndex := by
  have hmem : call ∈ (netCalls h n lastPpStage).filter (fun c => c.key = call.key) :=
    List.mem_filter.2 ⟨hcall, by simp⟩
  rw [filter_netCalls hexperts (key_mem_modelKeys hexperts hcall)] at hmem
  rcases List.mem_map.1 hmem with ⟨expertIndex, hexpert, heq⟩
  exact ⟨expertIndex, List.mem_range.1 hexpert, heq.symm⟩

theorem part_length {s : TensorShape} (hfits : s.Fits tpSize) (heven : s.Even tpSize)
    {bytes : List UInt8} (hbytes : bytes.length = s.nBytes) {rank : Nat} (hrank : rank < tpSize) :
    (s.part tpSize rank bytes).length = s.partBytes tpSize := by
  cases hsplit : s.split with
  | whole =>
      rw [TensorShape.part, hsplit, TensorShape.nBytes_of_whole hsplit]
      exact hbytes
  | rows =>
      rcases splitRow_part hsplit hfits heven hbytes hrank fun _ => 0 with ⟨out, _, -, hout⟩
      rw [← hout, Mem.slice_length]
  | columns =>
      rcases splitCol_part hsplit hfits heven hbytes hrank fun _ => 0 with ⟨out, _, -, hout⟩
      rw [← hout, Mem.slice_length]

/-- A call of the model with the bytes it found. -/
structure Found (h : LlmHeader) (n : LlmSlices) (lastPpStage : Option Nat)
    (found : LoaderCall × List UInt8) : Prop where
  call : found.1 ∈ netCalls h n lastPpStage
  bytes : found.2.length = (tensorShape h found.1.opName).nBytes

theorem found_of_mem (hn : SlicesOf h tpSize n) (hexperts : ExpertsAgree h)
    (hfits : ∀ name ∈ weightNames h, (tensorShape h name).Fits tpSize)
    (hend : cursorEnd h.headerSize (netLoads l h n lastPpStage) ≤ file.length)
    {found : LoaderCall × List UInt8}
    (hfound : found ∈ visited l file h.headerSize (netCalls h n lastPpStage)) :
    Found h n lastPpStage found := by
  have hcall : found.1 ∈ netCalls h n lastPpStage := by
    rw [← @map_fst_visited l file h.headerSize (netCalls h n lastPpStage)]
    exact List.mem_map_of_mem hfound
  rcases eq_callOf_of_mem hexperts hcall with ⟨expertIndex, -, heq⟩
  have hname := name_mem_of_mem_modelKeys (key_mem_modelKeys hexperts hcall)
  refine ⟨hcall, ?_⟩
  rw [← map_load_netCalls] at hend
  rw [length_of_mem_visited hend hfound, heq, load_callOf hn (hfits _ hname)]
  rfl

/-- A call sends every node that it picks the part of its rank. -/
theorem send_of_found (hn : SlicesOf h tpSize n) (hexperts : ExpertsAgree h)
    (hfits : ∀ name ∈ weightNames h, (tensorShape h name).Fits tpSize) (htp : 0 < tpSize)
    (hone : l.nNodes = 1 → tpSize = 1) {found : LoaderCall × List UInt8}
    (hfound : Found h n lastPpStage found) (temp : Mem UInt8) :
    found.1.send l (memOf found.2) temp
      = .ok ((found.1.nodes l).map (partRecord h tpSize found)) := by
  rcases found with ⟨call, bytes⟩
  rcases hfound with ⟨hcall, hbytes⟩
  rcases eq_callOf_of_mem hexperts hcall with ⟨expertIndex, hexpert, heq⟩
  have hname := name_mem_of_mem_modelKeys (key_mem_modelKeys hexperts hcall)
  have hsend := @send_callOf h n tpSize l lastPpStage call.key expertIndex hn (hfits _ hname) htp
    hone hexpert bytes hbytes temp
  have hindex := @expertIndex_callOf h n lastPpStage call.key expertIndex hexpert
  have heq' : callOf n lastPpStage call.key expertIndex = call := heq.symm
  rw [heq'] at hsend hindex
  refine hsend.trans (congrArg Except.ok (List.map_congr_left fun nodeIndex _ => ?_))
  rw [partRecord, hindex]
  rfl

/-- All records of a load that does not fail. -/
theorem sendNetWeight_ok (hn : SlicesOf h tpSize n) (hexperts : ExpertsAgree h)
    (hfits : ∀ name ∈ weightNames h, (tensorShape h name).Fits tpSize) (htp : 0 < tpSize)
    (hone : l.nNodes = 1 → tpSize = 1) (hsize : h.fileSize = file.length)
    {tensors : List (WeightLoad × List UInt8)}
    (hfile : loadLlmNetWeight l file h n lastPpStage = .ok tensors) (temps : Nat → Mem UInt8) :
    cursorEnd h.headerSize (netLoads l h n lastPpStage) ≤ file.length ∧
    tensors = (visited l file h.headerSize (netCalls h n lastPpStage)).map
      (fun found => (found.1.load l, found.2)) ∧
    sendNetWeight l file h n lastPpStage temps
      = .ok ((visited l file h.headerSize (netCalls h n lastPpStage)).flatMap fun found =>
          (found.1.nodes l).map (partRecord h tpSize found)) := by
  have hload := hfile
  unfold loadLlmNetWeight at hload
  dsimp only at hload
  by_cases hmissing : (cursorEnd h.headerSize (netLoads l h n lastPpStage) : Int) - h.fileSize ≠ 0
  · rw [if_pos hmissing] at hload
    cases hload
  rw [if_neg hmissing] at hload
  have hend : cursorEnd h.headerSize (netLoads l h n lastPpStage) ≤ file.length := by
    rw [← hsize]
    omega
  refine ⟨hend, ?_, ?_⟩
  · rw [map_load_visited, map_load_netCalls]
    exact (Except.ok.inj hload).symm
  · have hsent : sendAll l (visited l file h.headerSize (netCalls h n lastPpStage)) temps
        = .ok ((visited l file h.headerSize (netCalls h n lastPpStage)).flatMap fun found =>
            (found.1.nodes l).map (partRecord h tpSize found)) := by
      have hall : (visited l file h.headerSize (netCalls h n lastPpStage)).zipIdx.mapM
          (fun x => x.1.1.send l (memOf x.1.2) (temps x.2))
            = .ok ((visited l file h.headerSize (netCalls h n lastPpStage)).zipIdx.map fun x =>
                (x.1.1.nodes l).map (partRecord h tpSize x.1)) := by
        refine mapM_eq_ok fun x hx => ?_
        have hmem : x.1 ∈ visited l file h.headerSize (netCalls h n lastPpStage) := by
          have hfst := List.mem_map_of_mem (f := Prod.fst) hx
          rwa [List.zipIdx_map_fst] at hfst
        exact send_of_found hn hexperts hfits htp hone (found_of_mem hn hexperts hfits hend hmem) _
      have hflat : ((visited l file h.headerSize (netCalls h n lastPpStage)).zipIdx.map fun x =>
          (x.1.1.nodes l).map (partRecord h tpSize x.1)).flatten
            = (visited l file h.headerSize (netCalls h n lastPpStage)).flatMap fun found =>
                (found.1.nodes l).map (partRecord h tpSize found) := by
        conv_rhs => rw [← List.zipIdx_map_fst 0 (visited l file h.headerSize
          (netCalls h n lastPpStage)), List.flatMap_map]
        rfl
      rw [← hflat]
      exact ok_bind_of_eq hall
    have hzip : (netCalls h n lastPpStage).zip ((visit file h.headerSize
        (netLoads l h n lastPpStage)).map Prod.snd)
          = visited l file h.headerSize (netCalls h n lastPpStage) := by
      rw [visited, map_load_netCalls]
    rw [sendNetWeight, hzip, ok_bind_of_eq hsent, ok_bind_of_eq hfile]
    rfl

/-! ## The records of one op -/

theorem nodePart_eq (rank : Nat) (found : List (LoaderCall × List UInt8)) (key : OpName × Nat) :
    nodePart h tpSize rank (found.map fun found => (found.1.load l, found.2)) key
      = (found.filter fun found => found.1.key = key).flatMap fun found =>
          (tensorShape h key.1).part tpSize rank found.2 := by
  have hkey (call : LoaderCall) :
      ((call.load l).opName, (call.load l).opIndex) = call.key := by
    unfold LoaderCall.load
    split <;> rfl
  rw [nodePart, List.filter_map, List.flatMap_map]
  simp only [Function.comp_def, hkey]

/-- The records of a node for one op: those of the calls with its key. -/
theorem filter_records (found : List (LoaderCall × List UInt8)) (node : Nat)
    (key : OpName × Nat) :
    ((found.flatMap fun found => (found.1.nodes l).map (partRecord h tpSize found)).filter
        fun record => record.nodeIndex = node).filter (fun record => record.key = key)
      = (found.filter fun found => found.1.key = key).flatMap fun found =>
          if node ∈ found.1.nodes l then [partRecord h tpSize found node] else [] := by
  have hone (found : LoaderCall × List UInt8) :
      ((found.1.nodes l).map (partRecord h tpSize found)).filter
          (fun record => record.nodeIndex = node)
        = if node ∈ found.1.nodes l then [partRecord h tpSize found node] else [] := by
    rw [List.filter_map]
    have hsame : (fun record : WeightRecord => decide (record.nodeIndex = node)) ∘
        partRecord h tpSize found = fun nodeIndex => decide (nodeIndex = node) := rfl
    rw [hsame, List.filter_eq]
    split_ifs with hmem
    · rw [List.count_eq_one_of_mem (nodes_nodup l found.1) hmem]
      rfl
    · rw [List.count_eq_zero_of_not_mem hmem]
      rfl
  have hkey (found : LoaderCall × List UInt8) :
      (if node ∈ found.1.nodes l then [partRecord h tpSize found node] else []).filter
          (fun record => record.key = key)
        = if found.1.key = key then
            if node ∈ found.1.nodes l then [partRecord h tpSize found node] else []
          else [] := by
    have hrecord : (partRecord h tpSize found node).key = found.1.key := rfl
    split_ifs with hmem hk hk
    · rw [List.filter_cons_of_pos (by simp [hrecord, hk]), List.filter_nil]
    · rw [List.filter_cons_of_neg (by simp [hrecord, hk]), List.filter_nil]
    · rfl
    · rfl
  rw [List.filter_flatMap, funext hone, List.filter_flatMap, funext hkey]
  clear hone hkey
  induction found with
  | nil => rfl
  | cons found rest ih =>
      rw [List.flatMap_cons, ih]
      by_cases hk : found.1.key = key
      · rw [List.filter_cons_of_pos (by simp [hk]), if_pos hk, List.flatMap_cons]
      · rw [List.filter_cons_of_neg (by simp [hk]), if_neg hk, List.nil_append]

end Records

/-! ## The run of a node -/

section Net

variable {h : LlmHeader} {t : NnParallelTopology} {o : BuildOptions} {net : LlmNet}

/-- The items of one op are the records with its key. -/
theorem itemsOf_locateOp {ops : List NnOpConfig} (hkeys : (ops.map NnOpConfig.key).Nodup) {i : Nat}
    {op : NnOpConfig} (hop : ops[i]? = some op) (records : List WeightRecord) :
    itemsOf (fun record => locateOp ops record.opName record.opIndex) i records
      = records.filter fun record => record.key = op.key := by
  refine List.filter_congr fun record _ => ?_
  rw [decide_eq_decide, locateOp_eq_some_iff hkeys hop, WeightRecord.key, eq_comm]

theorem itemsOf_none {ops : List NnOpConfig} {i : Nat} (hop : ops[i]? = none)
    (records : List WeightRecord) :
    itemsOf (fun record => locateOp ops record.opName record.opIndex) i records = [] := by
  refine List.filter_eq_nil_iff.2 fun record _ hfound => ?_
  rcases List.findIdx?_eq_some_iff_getElem.1 (of_decide_eq_true hfound) with ⟨hi, -⟩
  rw [List.getElem?_eq_getElem hi] at hop
  cases hop

theorem nExperts_pos (hexperts : ExpertsAgree h) (name : OpName) :
    0 < (tensorShape h name).nExperts := by
  have hff : 0 < ffExperts h := by
    unfold ffExperts
    split_ifs with harch
    · exact hexperts.1 harch
    · exact Nat.one_pos
  cases name with
  | blockMatmulW1 | blockMatmulW2 | blockMatmulW3 => exact hff
  | _ => exact Nat.one_pos

/-- The records for an op of a node fill its weight with the parts of the rank of the node. -/
theorem loads_of_op (hnet : buildLlmNet h t o = .ok net) (hsp : t.spSize = 1)
    (horder : net.ppLayerOffsets.Pairwise (· ≤ ·)) (hexperts : ExpertsAgree h)
    (hfits : WeightsFit h t) {found : List (LoaderCall × List UInt8)}
    (hfst : found.map Prod.fst = netCalls h net.slices net.lastPpStage)
    (hfound : ∀ f ∈ found, Found h net.slices net.lastPpStage f) {node : Nat}
    (hnode : node < t.nNodes) {op : NnOpConfig} (hop : op ∈ net.nodeOps node)
    (hkey : op.key ∈ modelKeys h) (repackOn : Bool) (memory : Mem UInt8) :
    ∃ weight,
      ((found.filter fun f => f.1.key = op.key).flatMap fun f =>
          if node ∈ f.1.nodes (net.weightLoader t.ppSize) then [partRecord h t.tpSize f node]
          else []).foldlM (OpWeight.load repackOn op.weightSize) ⟨memory, 0, false⟩
        = .ok (OpWeight.full repackOn op.weightSize weight) ∧
      weight.slice 0 op.weightSize.nBytes
        = (found.filter fun f => f.1.key = op.key).flatMap fun f =>
            (tensorShape h op.key.1).part t.tpSize (node % t.tpSize) f.2 := by
  rcases buildLlmNet_eq_ok hnet with ⟨hslices, -⟩
  have hn := slicesOf_ok hslices
  have hname := name_mem_of_mem_modelKeys hkey
  have hweight := weightKeys_of_mem_modelKeys hnet hnode hop hkey
  rcases weightKeys_of_hasWeight hnet hnode hop hweight with ⟨hnodeKey, hsize⟩
  have hshape := hfits.shapes op.key.1 hname
  have heven := hn.even op.key.1
  rcases weightSize_eq hn hname hshape with ⟨hbytes, hz⟩
  rw [show h.weightSize net.slices op.key.1 = op.weightSize from hsize.symm] at hbytes hz
  -- one call for every expert
  have hcalls : (found.filter fun f => f.1.key = op.key).map Prod.fst
      = (List.range (tensorShape h op.key.1).nExperts).map
          (callOf net.slices net.lastPpStage op.key) := by
    rw [← filter_netCalls hexperts hkey, ← hfst, List.filter_map]
    rfl
  generalize hown : (found.filter fun f => f.1.key = op.key) = own at hcalls
  have hmem : ∀ f ∈ own, Found h net.slices net.lastPpStage f ∧ f.1.key = op.key := by
    intro f hf
    rw [← hown] at hf
    exact ⟨hfound f (List.mem_filter.1 hf).1, by simpa using (List.mem_filter.1 hf).2⟩
  have hlength : own.length = (tensorShape h op.key.1).nExperts := by
    have hlen := congrArg List.length hcalls
    simpa using hlen
  let record (e : Nat) : WeightRecord :=
    partRecord h t.tpSize (own.getD e (⟨op.name, op.index, .loadAll size0⟩, [])) node
  have hget {e : Nat} (he : e < own.length) :
      own.getD e (⟨op.name, op.index, .loadAll size0⟩, []) = own[e] :=
    List.getD_eq_getElem _ _ he
  have hcall {e : Nat} (he : e < own.length) :
      own[e].1 = callOf net.slices net.lastPpStage op.key e := by
    have hi := congrArg (fun l => l[e]?) hcalls
    simp only [List.getElem?_map, List.getElem?_eq_getElem he,
      List.getElem?_range (hlength ▸ he), Option.map_some] at hi
    exact Option.some.inj hi
  have hrecord : ∀ e < (tensorShape h op.key.1).nExperts,
      (record e).offset = e * (tensorShape h op.key.1).partBytes t.tpSize ∧
        (record e).weight.length = (tensorShape h op.key.1).partBytes t.tpSize := by
    intro e he
    have he' : e < own.length := hlength.symm ▸ he
    rcases hmem own[e] (List.getElem_mem he') with ⟨hf, hk⟩
    have hopName : own[e].1.opName = op.key.1 := congrArg Prod.fst hk
    have hindex : own[e].1.expertIndex = e := by
      rw [hcall he']
      exact expertIndex_callOf he
    simp only [record, hget he', partRecord, LoaderCall.recordOf, hopName, hindex, true_and]
    exact part_length hshape heven (hopName ▸ hf.bytes) (Nat.mod_lt _ t.tpSize_pos)
  rcases @loads_fill repackOn op.weightSize _ _ record hrecord (nExperts_pos hexperts _) hbytes hz
    memory with ⟨weight, hok, hslice⟩
  have hrange : own = (List.range own.length).map fun e =>
      own.getD e (⟨op.name, op.index, .loadAll size0⟩, []) := by
    refine List.ext_getElem (by simp) fun e he _ => ?_
    rw [List.getElem_map, List.getElem_range, hget he]
  refine ⟨weight, ?_, ?_⟩
  · have hreached : ∀ f ∈ own, (if node ∈ f.1.nodes (net.weightLoader t.ppSize) then
        [partRecord h t.tpSize f node] else []) = [partRecord h t.tpSize f node] := by
      intro f hf
      rcases List.getElem_of_mem hf with ⟨e, he, rfl⟩
      rw [hcall he, if_pos (mem_nodes_of_weightKeys hnet hsp horder hnode hnodeKey e)]
    rw [List.flatMap_congr hreached, ← List.map_eq_flatMap, hrange, List.map_map, hlength]
    exact hok
  · have hparts : ∀ f ∈ own, (partRecord h t.tpSize f node).weight
        = (tensorShape h op.key.1).part t.tpSize (node % t.tpSize) f.2 := by
      intro f hf
      have hopName : f.1.opName = op.key.1 := congrArg Prod.fst (hmem f hf).2
      simp only [partRecord, LoaderCall.recordOf, hopName]
    rw [hslice, ← List.flatMap_congr hparts, hrange, List.flatMap_map, hlength]

/-- A worker has room for every record that is sent to it. -/
theorem record_fits (hn : SlicesOf h t.tpSize net.slices) (hexperts : ExpertsAgree h)
    (hfits : WeightsFit h t) (hnodes : net.nNodes = t.nNodes) {f : LoaderCall × List UInt8}
    (hf : Found h net.slices net.lastPpStage f) {node : Nat}
    (hmem : node ∈ f.1.nodes (net.weightLoader t.ppSize)) (hworker : node ≠ 0) :
    (partRecord h t.tpSize f node).weight.length < 2 ^ 32 := by
  rcases eq_callOf_of_mem hexperts hf.call with ⟨expertIndex, -, heq⟩
  have hname := name_mem_of_mem_modelKeys (key_mem_modelKeys hexperts hf.call)
  have hnotRoot : f.1.opName ≠ .embedding := by
    intro hroot
    rw [heq] at hmem
    rcases f with ⟨⟨name, index, method⟩, bytes⟩
    cases (show name = .embedding from hroot)
    exact hworker (List.mem_singleton.1 hmem)
  have hmany : t.nNodes ≠ 1 := by
    intro hone
    refine hworker ?_
    have hone' : (net.weightLoader t.ppSize).nNodes = 1 := hnodes.trans hone
    have hslice {ownerPpRank : Option Nat} {tpSize : Nat}
        (hmem : node ∈ LoaderCall.sliceNodes (net.weightLoader t.ppSize) ownerPpRank tpSize) :
        node = 0 := by
      rw [LoaderCall.sliceNodes, if_pos hone'] at hmem
      exact List.mem_singleton.1 hmem
    unfold LoaderCall.nodes at hmem
    split at hmem
    · exact List.mem_singleton.1 hmem
    · rw [hone'] at hmem
      simpa using hmem
    · exact hslice hmem
    · exact hslice hmem
  have hlength := part_length (hfits.shapes _ hname) (hn.even _) hf.bytes
    (Nat.mod_lt node t.tpSize_pos)
  exact hlength.trans_lt (hfits.payload hmany _ hname hnotRoot)

/-- The records of a node, each of which it takes without an error. -/
theorem loadNode_eq (repackOn : Bool) {node : Nat} {records : List WeightRecord}
    (hroom : ∀ record ∈ records, record.nodeIndex = node → node ≠ 0 →
      record.weight.length < 2 ^ 32) (ops : List NnOpConfig) (devices : Nat → OpWeight) :
    loadNode repackOn ops node records devices
      = (records.filter fun record => record.nodeIndex = node).foldlM (loadRecord repackOn ops)
          devices := by
  refine foldlM_congr_mem (fun record hrecord s => ?_) devices
  rcases List.mem_filter.1 hrecord with ⟨hmem, hown⟩
  unfold readRecord
  by_cases hroot : node = 0
  · rw [if_neg (not_not.2 hroot)]
  · have hlt := hroom record hmem (of_decide_eq_true hown) hroot
    rw [if_pos hroot, assertThat, if_pos (decide_eq_true hlt)]
    rfl

/-- What a node ends with: every op that has a weight has all bytes of it loaded, those of its
matrices in the file that belong to the rank of the node, expert by expert; and nothing was loaded
for any other op. -/
def Loaded (h : LlmHeader) (tpSize rank : Nat) (tensors : List (WeightLoad × List UInt8))
    (repackOn : Bool) (ops : List NnOpConfig) (memory : Nat → Mem UInt8)
    (devices : Nat → OpWeight) : Prop :=
  ∀ (i : Nat) (op : NnOpConfig), ops[i]? = some op →
    if op.hasWeight then
      ∃ weight, devices i = OpWeight.full repackOn op.weightSize weight ∧
        weight.slice 0 op.weightSize.nBytes = nodePart h tpSize rank tensors op.key
    else devices i = freshWeights memory i

theorem loaded_of_file (hnet : buildLlmNet h t o = .ok net) (hsp : t.spSize = 1)
    (hlayers : h.nLayers * 2 < 2 ^ 32) (hcounts : o.ppStageLayerCounts.sum * 2 < 2 ^ 32)
    (hexperts : ExpertsAgree h) (hfits : WeightsFit h t) {file : List UInt8}
    (hsize : h.fileSize = file.length) {tensors : List (WeightLoad × List UInt8)}
    (hfile : loadLlmNetWeight (net.weightLoader t.ppSize) file h net.slices net.lastPpStage
      = .ok tensors) (temps : Nat → Mem UInt8) :
    ∃ records,
      sendNetWeight (net.weightLoader t.ppSize) file h net.slices net.lastPpStage temps
        = .ok records ∧
      ∀ node < t.nNodes, ∀ (repackOn : Bool) (memory : Nat → Mem UInt8), ∃ devices,
        loadNode repackOn (net.nodeOps node) node records (freshWeights memory) = .ok devices ∧
        Loaded h t.tpSize (t.placement node).tpRank tensors repackOn (net.nodeOps node) memory
          devices := by
  rcases buildLlmNet_eq_ok hnet with ⟨hslices, hoffsets, -, hnodes, -⟩
  have hn := slicesOf_ok hslices
  have horder := stageOffsets_pairwise hoffsets hlayers hcounts
  have hone : (net.weightLoader t.ppSize).nNodes = 1 → t.tpSize = 1 := by
    intro hone
    have htotal : t.ppSize * t.spSize * t.tpSize = 1 := t.nNodes_eq ▸ hnodes ▸ hone
    exact Nat.eq_one_of_mul_eq_one_left htotal
  rcases sendNetWeight_ok hn hexperts hfits.shapes t.tpSize_pos hone hsize hfile temps with
    ⟨hend, rfl, hsend⟩
  refine ⟨_, hsend, fun node hnode repackOn memory => ?_⟩
  have hfound : ∀ f ∈ visited (net.weightLoader t.ppSize) file h.headerSize
      (netCalls h net.slices net.lastPpStage), Found h net.slices net.lastPpStage f :=
    fun f hf => found_of_mem hn hexperts hfits.shapes hend hf
  have hfst := @map_fst_visited (net.weightLoader t.ppSize) file h.headerSize
    (netCalls h net.slices net.lastPpStage)
  generalize visited (net.weightLoader t.ppSize) file h.headerSize
    (netCalls h net.slices net.lastPpStage) = found at hfound hfst
  have hrank : (t.placement node).tpRank = node % t.tpSize := by
    simp [NnParallelTopology.placement, hsp]
  have hkeys := opKeys_nodup_net hnet hnode
  -- the run of each op
  have hop (i : Nat) : ∃ w : OpWeight,
      (itemsOf (fun record => locateOp (net.nodeOps node) record.opName record.opIndex) i
        ((found.flatMap fun f => (f.1.nodes (net.weightLoader t.ppSize)).map
          (partRecord h t.tpSize f)).filter fun record => record.nodeIndex = node)).foldlM
        (OpWeight.load repackOn (opWeightSize (net.nodeOps node) i)) (freshWeights memory i)
          = .ok w ∧
      ∀ op, (net.nodeOps node)[i]? = some op →
        if op.hasWeight then
          ∃ weight, w = OpWeight.full repackOn op.weightSize weight ∧
            weight.slice 0 op.weightSize.nBytes
              = nodePart h t.tpSize (t.placement node).tpRank
                (found.map fun f => (f.1.load (net.weightLoader t.ppSize), f.2)) op.key
        else w = freshWeights memory i := by
    cases hi : (net.nodeOps node)[i]? with
    | none =>
        rw [itemsOf_none hi]
        exact ⟨_, rfl, fun op hop => absurd hop (Option.some_ne_none op).symm⟩
    | some op =>
        have hmem := List.mem_of_getElem? hi
        have hopSize : opWeightSize (net.nodeOps node) i = op.weightSize := by
          rw [opWeightSize, hi]
          rfl
        rw [itemsOf_locateOp hkeys hi, filter_records, hopSize]
        by_cases hkey : op.key ∈ modelKeys h
        · rcases loads_of_op hnet hsp horder hexperts hfits hfst hfound hnode hmem hkey repackOn
            (memory i) with ⟨weight, hok, hslice⟩
          refine ⟨_, hok, fun op' hop' => ?_⟩
          cases hop'
          rw [if_pos (weightKeys_of_mem_modelKeys hnet hnode hmem hkey)]
          exact ⟨weight, rfl, by rw [nodePart_eq, hrank, hslice]⟩
        · -- no call has the key of this op
          have hnone : (found.filter fun f => f.1.key = op.key) = [] := by
            refine List.filter_eq_nil_iff.2 fun f hf heq => hkey ?_
            rw [← of_decide_eq_true heq]
            exact key_mem_modelKeys hexperts (hfound f hf).call
          rw [hnone]
          refine ⟨_, rfl, fun op' hop' => ?_⟩
          cases hop'
          rw [if_neg fun hweight => hkey (mem_modelKeys_of_weightKeys hnet horder hnode
            (weightKeys_of_hasWeight hnet hnode hmem hweight).1)]
  choose devices hrun hdone using hop
  refine ⟨devices, ?_, hdone⟩
  rw [loadNode_eq]
  · exact foldlM_dispatch hrun
  · intro record hrecord hown hworker
    rcases List.mem_flatMap.1 hrecord with ⟨f, hf, hrecord⟩
    rcases List.mem_map.1 hrecord with ⟨nodeIndex, hmem, rfl⟩
    cases (show nodeIndex = node from hown)
    exact record_fits hn hexperts hfits hnodes (hfound f hf) hmem hworker

end Net

/-! ## Weights reach the nodes that use them -/

/-- Weights reach exactly the nodes that use them, and no load fails. -/
theorem weights_reach {h : LlmHeader} {t : NnParallelTopology} {o : BuildOptions} {net : LlmNet}
    (hnet : buildLlmNet h t o = .ok net) (hsp : t.spSize = 1)
    (hlayers : h.nLayers * 2 < 2 ^ 32) (hcounts : o.ppStageLayerCounts.sum * 2 < 2 ^ 32)
    (hexperts : ExpertsAgree h) (hfits : WeightsFit h t) {file : List UInt8}
    (hsize : h.fileSize = file.length) {tensors : List (WeightLoad × List UInt8)}
    (hfile : loadLlmNetWeight (net.weightLoader t.ppSize) file h net.slices net.lastPpStage
      = .ok tensors) (temps : Nat → Mem UInt8) :
    ∃ records,
      sendNetWeight (net.weightLoader t.ppSize) file h net.slices net.lastPpStage temps
        = .ok records ∧
      ∀ node < t.nNodes, ∀ (repackOn : Bool) (memory : Nat → Mem UInt8), ∃ devices,
        loadNode repackOn (net.nodeOps node) node records (freshWeights memory) = .ok devices ∧
        Loaded h t.tpSize (t.placement node).tpRank tensors repackOn (net.nodeOps node) memory
          devices :=
  loaded_of_file hnet hsp hlayers hcounts hexperts hfits hsize hfile temps

/-! ## A small cluster -/

/-- Two layers of a dense model and the file of their weights. -/
def smallModel : LlmHeader :=
  { tinyHeader 2 with fileSize := 1104 }

/-- The first of two stages has one sub-block, the second one three. -/
def unevenStages : BuildOptions := ⟨1, [1, 3], none, false, false⟩

theorem weightsFit_small : WeightsFit smallModel twoStages where
  shapes := by decide
  payload := by decide

/-- The file of the small model is read to its end. -/
theorem smallModel_loads :
    ∃ net tensors, buildLlmNet smallModel twoStages unevenStages = .ok net ∧
      loadLlmNetWeight (net.weightLoader 2) (List.replicate 1104 1) smallModel net.slices
        net.lastPpStage = .ok tensors :=
  ⟨_, _, rfl, rfl⟩

theorem weights_reach_small :
    ∃ net records, buildLlmNet smallModel twoStages unevenStages = .ok net ∧
      sendNetWeight (net.weightLoader 2) (List.replicate 1104 1) smallModel net.slices
        net.lastPpStage (fun _ _ => 0) = .ok records ∧
      ∃ devices,
        loadNode true (net.nodeOps 3) 3 records (freshWeights fun _ _ => 0) = .ok devices := by
  rcases smallModel_loads with ⟨net, tensors, hnet, hfile⟩
  rcases weights_reach hnet rfl (by decide) (by decide) (by unfold ExpertsAgree; decide)
    weightsFit_small (List.length_replicate ..).symm hfile fun _ _ => 0 with
    ⟨records, hsend, hnodes⟩
  rcases hnodes 3 (by decide) true fun _ _ => 0 with ⟨devices, hload, -⟩
  exact ⟨net, records, hnet, hsend, devices, hload⟩

section Converted

variable {α : Type} {codec : BlockCodec α} {c : Config} {model : TensorName → Option (Tensor α)}
  {file : List UInt8}

/-- From a checkpoint to the nodes: the program reads the header that the converter wrote, and on
every cluster that it builds a net for, every op ends with its part of the tensors that the
converter wrote for it. -/
theorem converted_weights_reach {config : HfConfig} {floatType : NnFloatType}
    (hconfig : loadConfig config floatType = .ok c) (hwrite : convert codec c model = .ok file)
    (hshapes : c.HasShapes model) (hdim : 0 < c.dim) (hvocab : 0 < c.vocabSize)
    (hheads : 0 < c.nHeads) (hhead : c.headDim ≠ some 0) (hffn : c.FfnAgrees)
    (htensors : c.TensorsFit) (hmoe : c.archType = .qwen3Moe ↔ 0 < c.nExperts)
    {maxSeqLen : Nat} (hcap : maxSeqLen = 0 ∨ c.maxSeqLen ≤ maxSeqLen) (syncType : NnFloatType) :
    ∃ lh h tensors, loadLlmHeader file maxSeqLen syncType = .ok lh ∧ lh.graphHeader = some h ∧
      c.write codec model = .ok tensors ∧
      ∀ (t : NnParallelTopology) (o : BuildOptions) (net : LlmNet), buildLlmNet h t o = .ok net →
        t.spSize = 1 → h.nLayers * 2 < 2 ^ 32 → o.ppStageLayerCounts.sum * 2 < 2 ^ 32 →
        WeightsFit h t → ∀ temps : Nat → Mem UInt8, ∃ records,
          sendNetWeight (net.weightLoader t.ppSize) file h net.slices net.lastPpStage temps
            = .ok records ∧
          ∀ node < t.nNodes, ∀ (repackOn : Bool) (memory : Nat → Mem UInt8), ∃ devices,
            loadNode repackOn (net.nodeOps node) node records (freshWeights memory)
              = .ok devices ∧
            Loaded h t.tpSize (t.placement node).tpRank ((c.plan.map c.plannedLoad).zip tensors)
              repackOn (net.nodeOps node) memory devices := by
  rcases loadLlmHeader_convert hwrite (epsilon_of_loadConfig hconfig) hshapes hdim hvocab hheads
    hcap syncType with ⟨header, tensors, hwritten, rfl, hload⟩
  refine ⟨_, _, tensors, hload, graphHeader_finished, hwritten, ?_⟩
  intro t o net hnet hsp hlayers hcounts hfits temps
  have hfile := loadLlmNetWeight_write hwritten hshapes hdim hhead hffn htensors
    (net.weightLoader t.ppSize) net.lastPpStage (buildLlmNet_eq_ok hnet).1
  exact loaded_of_file hnet hsp hlayers hcounts hmoe hfits rfl hfile temps

end Converted

private theorem twoHalves_nNodes : 2 = 2 * 1 * 1 := rfl

/-- One layer cut between its attention and its experts. -/
def twoHalves : NnParallelTopology :=
  ⟨2, 2, 1, 1, Nat.two_pos, Nat.one_pos, Nat.one_pos, twoHalves_nNodes⟩

/-- The small model with two experts as it is read. -/
def expertsHeader : LlmHeader :=
  (small .qwen3Moe 2 1000000).header 128 424 .q80

theorem weightsFit_experts : WeightsFit expertsHeader twoHalves where
  shapes := by decide +kernel
  payload := by decide +kernel

/-- The file of that model has 128 bytes of header and 296 of tensors. -/
theorem converted_experts :
    ∃ file, convert zeroCodec (small .qwen3Moe 2 1000000) (small .qwen3Moe 2 1000000).zeros
        = .ok file ∧
      ∀ header tensors, (small .qwen3Moe 2 1000000).write zeroCodec
          (small .qwen3Moe 2 1000000).zeros = .ok tensors → file = header ++ tensors.flatten →
        header.length = 128 ∧ file.length = 424 := by
  have hlength : (convert zeroCodec (small .qwen3Moe 2 1000000)
      (small .qwen3Moe 2 1000000).zeros).toOption.map List.length = some 424 := by decide +kernel
  rcases @convert_small .qwen3Moe 2 1000000 (by decide +kernel) with ⟨file, -, -, hconvert, -⟩
  rw [hconvert] at hlength
  refine ⟨file, hconvert, fun header tensors hwrite hfile => ?_⟩
  have htensors : tensors.flatten.length = 296 := by
    rw [List.length_flatten, write_lengths (hasShapes_zeros _) hwrite]
    decide +kernel
  have htotal : file.length = 424 := Option.some.inj hlength
  refine ⟨?_, htotal⟩
  rw [hfile, List.length_append, htensors] at htotal
  exact Nat.add_right_cancel (htotal : header.length + 296 = 128 + 296)

theorem converted_weights_reach_experts :
    ∃ c file lh tensors net records, loadConfig (smallConfig "qwen3_moe" (some 2) 1000000) .f32
        = .ok c ∧ convert zeroCodec c c.zeros = .ok file ∧ loadLlmHeader file 0 .q80 = .ok lh ∧
      lh.graphHeader = some expertsHeader ∧ c.write zeroCodec c.zeros = .ok tensors ∧
      buildLlmNet expertsHeader twoHalves ⟨1, [1, 1], none, false, false⟩ = .ok net ∧
      sendNetWeight (net.weightLoader 2) file expertsHeader net.slices net.lastPpStage
        (fun _ _ => 0) = .ok records ∧
      ∃ devices, loadNode true (net.nodeOps 1) 1 records (freshWeights fun _ _ => 0) = .ok devices ∧
        Loaded expertsHeader 1 0 ((c.plan.map c.plannedLoad).zip tensors) true (net.nodeOps 1)
          (fun _ _ => 0) devices := by
  have hconfig : loadConfig (smallConfig "qwen3_moe" (some 2) 1000000) .f32
      = .ok (small .qwen3Moe 2 1000000) := rfl
  rcases converted_experts with ⟨file, hconvert, hlengths⟩
  have hffn : (small .qwen3Moe 2 1000000).FfnAgrees := by
    unfold Config.FfnAgrees
    decide
  have hfits : (small .qwen3Moe 2 1000000).TensorsFit := by
    unfold Config.TensorsFit
    decide
  rcases converted_weights_reach hconfig hconvert (hasShapes_zeros _) Nat.two_pos Nat.two_pos
    Nat.one_pos (by decide) hffn hfits (by decide) (.inl rfl) .q80 with
    ⟨lh, h, tensors, hload, hgraph, hwrite, hnets⟩
  have hheader : h = expertsHeader := by
    rcases loadLlmHeader_convert hconvert (fun _ hvalue => nomatch hvalue) (hasShapes_zeros _)
      Nat.two_pos Nat.two_pos Nat.one_pos (.inl rfl) .q80 with
      ⟨header, tensors', hwrite', hfile, hload'⟩
    cases hload.symm.trans hload'
    cases hgraph.symm.trans graphHeader_finished
    rcases hlengths header tensors' hwrite' hfile with ⟨hheader, hfile⟩
    rw [hheader, hfile]
    rfl
  subst hheader
  have hnet : ∃ net, buildLlmNet expertsHeader twoHalves ⟨1, [1, 1], none, false, false⟩
      = .ok net := exists_of_isOk (by decide +kernel)
  rcases hnet with ⟨net, hnet⟩
  rcases hnets twoHalves _ net hnet rfl (by decide) (by decide) weightsFit_experts
    fun _ _ => 0 with ⟨records, hsend, hnodes⟩
  rcases hnodes 1 (by decide) true fun _ _ => 0 with ⟨devices, hrun, hloaded⟩
  exact ⟨_, file, lh, tensors, net, records, hconfig, hconvert, hload, hgraph, hwrite, hnet,
    hsend, devices, hrun, hloaded⟩

end ModelFile
end PrefillOpt
