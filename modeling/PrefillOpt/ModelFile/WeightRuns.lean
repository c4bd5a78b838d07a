import PrefillOpt.ModelFile.WeightSends

/-!
# ModelFile.WeightRuns — the loads of one op

Among the calls of a model those for one op are the ones for its experts, in order.  Their records
fill the weight of the op from its first byte to its last, and only the last one can repack it.
-/

namespace PrefillOpt
namespace ModelFile

open Lib (Mem)
open Network (NnRootWeightLoader)

/-! ## The calls for one op -/

/-- The ops that the loader has calls for. -/
def modelKeys (h : LlmHeader) : List (OpName × Nat) :=
  [(.embedding, 0)]
  ++ (List.range h.nLayers).flatMap (fun layerIndex =>
    (h.attWeights ++ h.ffWeights).map fun name => (name, layerIndex))
  ++ [(.finalNorm, 0), (.finalMatmulLogits, 0)]

/-- The experts of a header are those of its architecture. -/
def ExpertsAgree (h : LlmHeader) : Prop :=
  h.archType = .qwen3Moe ↔ 0 < h.nExperts

section Keys

variable {h : LlmHeader} {n : LlmSlices} {lastPpStage : Option Nat} {layerIndex : Nat}

theorem mem_modelKeys {key : OpName × Nat} : key ∈ modelKeys h ↔
    key = (.embedding, 0) ∨ (key.2 < h.nLayers ∧ key.1 ∈ h.attWeights ++ h.ffWeights) ∨
      key = (.finalNorm, 0) ∨ key = (.finalMatmulLogits, 0) := by
  rcases key with ⟨name, index⟩
  simp only [modelKeys, List.mem_append, List.mem_flatMap, List.mem_range, List.mem_map,
    List.mem_cons, List.not_mem_nil, or_false, Prod.mk.injEq]
  constructor
  · rintro ((hkey | ⟨l, hl, name', hname, rfl, rfl⟩) | hkey)
    · exact .inl hkey
    · exact .inr (.inl ⟨hl, hname⟩)
    · exact .inr (.inr hkey)
  · rintro (hkey | ⟨hl, hname⟩ | hkey)
    · exact .inl (.inl hkey)
    · exact .inl (.inr ⟨index, hl, name, hname, rfl, rfl⟩)
    · exact .inr hkey

theorem name_mem_of_mem_modelKeys {key : OpName × Nat} (hkey : key ∈ modelKeys h) :
    key.1 ∈ weightNames h := by
  simp only [weightNames, List.mem_append]
  rcases mem_modelKeys.1 hkey with rfl | ⟨-, hname⟩ | rfl | rfl
  · exact .inl (.inl (.inl List.mem_cons_self))
  · rcases List.mem_append.1 hname with hname | hname
    · exact .inl (.inl (.inr hname))
    · exact .inl (.inr hname)
  · exact .inr List.mem_cons_self
  · exact .inr (List.mem_cons_of_mem _ List.mem_cons_self)

/-- The names of the calls of a layer. -/
theorem mem_layerCallsOf (hexperts : ExpertsAgree h) {call : LoaderCall}
    (hcall : call ∈ layerCallsOf h n layerIndex) :
    call.opName ∈ h.attWeights ++ h.ffWeights ∧ call.opIndex = layerIndex := by
  have hff {expertIndex : Nat} (hcall : call ∈ ffCallsOf n layerIndex expertIndex) :
      call.opName ∈ h.attWeights ++ h.ffWeights ∧ call.opIndex = layerIndex := by
    simp only [ffCallsOf, List.mem_cons, List.not_mem_nil, or_false] at hcall
    rcases hcall with rfl | rfl | rfl <;> simp [LlmHeader.ffWeights]
  simp only [layerCallsOf, List.mem_append, List.mem_cons, List.not_mem_nil, or_false] at hcall
  rcases hcall with (((rfl | rfl | rfl | rfl) | hmlp) | hqk) | rfl | rfl
  · simp [LlmHeader.attWeights]
  · simp [LlmHeader.attWeights]
  · simp [LlmHeader.attWeights]
  · simp [LlmHeader.attWeights]
  · unfold mlpCallsOf at hmlp
    split_ifs at hmlp with hmoe
    · rcases List.mem_cons.1 hmlp with rfl | hmlp
      · simp [LlmHeader.ffWeights, hexperts.2 hmoe]
      · rcases List.mem_flatMap.1 hmlp with ⟨expertIndex, -, hcall⟩
        exact hff hcall
    · exact hff hmlp
  · unfold qkNormCallsOf at hqk
    split_ifs at hqk with hnorm
    · simp only [List.mem_cons, List.not_mem_nil, or_false] at hqk
      rcases hqk with rfl | rfl <;> simp [LlmHeader.attWeights, hnorm]
    · cases hqk
  · simp [LlmHeader.attWeights]
  · simp [LlmHeader.ffWeights]

theorem key_mem_modelKeys (hexperts : ExpertsAgree h) {call : LoaderCall}
    (hcall : call ∈ netCalls h n lastPpStage) : call.key ∈ modelKeys h := by
  rw [mem_modelKeys]
  simp only [netCalls, List.mem_append, List.mem_cons, List.not_mem_nil, or_false,
    List.mem_flatMap, List.mem_range] at hcall
  rcases hcall with (rfl | ⟨layerIndex, hlayer, hcall⟩) | rfl | rfl
  · exact .inl rfl
  · rcases mem_layerCallsOf hexperts hcall with ⟨hname, rfl⟩
    exact .inr (.inl ⟨hlayer, hname⟩)
  · exact .inr (.inr (.inl rfl))
  · exact .inr (.inr (.inr rfl))

/-- The calls of a layer for one of its ops. -/
theorem filter_layerCallsOf (hexperts : ExpertsAgree h) {name : OpName}
    (hname : name ∈ h.attWeights ++ h.ffWeights) :
    (layerCallsOf h n layerIndex).filter (fun call => call.key = (name, layerIndex))
      = (List.range (tensorShape h name).nExperts).map
          (callOf n lastPpStage (name, layerIndex)) := by
  have hexpert (name : OpName) (expertIndex : Nat)
      (hname : name = .blockMatmulW1 ∨ name = .blockMatmulW2 ∨ name = .blockMatmulW3) :
      (ffCallsOf n layerIndex expertIndex).filter (fun call => call.key = (name, layerIndex))
        = [callOf n lastPpStage (name, layerIndex) expertIndex] := by
    rcases hname with rfl | rfl | rfl <;>
      simp [ffCallsOf, LoaderCall.key, callOf, methodOf]
  have hother (name : OpName) (expertIndex : Nat)
      (hname : ¬(name = .blockMatmulW1 ∨ name = .blockMatmulW2 ∨ name = .blockMatmulW3)) :
      (ffCallsOf n layerIndex expertIndex).filter (fun call => call.key = (name, layerIndex))
        = [] := by
    simp only [not_or] at hname
    simp [ffCallsOf, LoaderCall.key, Ne.symm hname.1, Ne.symm hname.2.1, Ne.symm hname.2.2]
  -- the calls of the feed-forward network
  have hmlp : (mlpCallsOf h n layerIndex).filter (fun call => call.key = (name, layerIndex))
      = if name = .blockMatmulW1 ∨ name = .blockMatmulW2 ∨ name = .blockMatmulW3 then
          (List.range (tensorShape h name).nExperts).map (callOf n lastPpStage (name, layerIndex))
        else if name = .blockMoeGate then [callOf n lastPpStage (name, layerIndex) 0] else [] := by
    unfold mlpCallsOf
    split_ifs with hmoe hff hgate hff hgate
    · have hsplit : (tensorShape h name).nExperts = h.nExperts := by
        rcases hff with rfl | rfl | rfl <;> exact if_pos (hexperts.2 hmoe)
      have hskip : ¬(OpName.blockMoeGate, layerIndex) = (name, layerIndex) := by
        rcases hff with rfl | rfl | rfl <;> simp
      rw [List.filter_cons_of_neg (by simpa [LoaderCall.key] using hskip), List.filter_flatMap,
        funext fun e => hexpert name e hff, hsplit]
      exact List.flatMap_pure_eq_map _ _
    · subst hgate
      rw [List.filter_cons_of_pos (by simp [LoaderCall.key]), List.filter_flatMap,
        funext fun e => hother _ e hff, List.flatMap_eq_nil_iff.2 fun _ _ => rfl]
      rfl
    · have hskip : ¬(OpName.blockMoeGate, layerIndex) = (name, layerIndex) := by
        simpa using Ne.symm hgate
      rw [List.filter_cons_of_neg (by simpa [LoaderCall.key] using hskip), List.filter_flatMap,
        funext fun e => hother _ e hff, List.flatMap_eq_nil_iff.2 fun _ _ => rfl]
    · have hone : (tensorShape h name).nExperts = 1 := by
        rcases hff with rfl | rfl | rfl <;> exact if_neg fun harch => hmoe (hexperts.1 harch)
      rw [hexpert name 0 hff, hone]
      rfl
    · subst hgate
      -- a dense model has no such op
      have hdense : h.archType ≠ .qwen3Moe := fun harch => hmoe (hexperts.1 harch)
      simp [LlmHeader.attWeights, LlmHeader.ffWeights, hdense] at hname
    · exact hother name 0 hff
  have hqk : (qkNormCallsOf h n layerIndex).filter (fun call => call.key = (name, layerIndex))
      = if name = .blockNormQ ∨ name = .blockNormK then
          [callOf n lastPpStage (name, layerIndex) 0] else [] := by
    unfold qkNormCallsOf
    by_cases hnorm : h.hasQkNorm = true
    · rw [if_pos hnorm]
      by_cases hq : name = .blockNormQ
      · subst hq
        simp [LoaderCall.key, callOf, methodOf]
      · by_cases hk : name = .blockNormK
        · subst hk
          simp [LoaderCall.key, callOf, methodOf]
        · simp [LoaderCall.key, Ne.symm hq, Ne.symm hk, hq, hk]
    · rw [if_neg hnorm]
      split_ifs with hqk
      · rcases hqk with rfl | rfl <;>
          simp [LlmHeader.attWeights, LlmHeader.ffWeights, hnorm] at hname
      · rfl
  rw [layerCallsOf, List.filter_append, List.filter_append, List.filter_append, hmlp, hqk]
  cases name <;>
    simp [LlmHeader.attWeights, LlmHeader.ffWeights] at hname <;>
    simp [LoaderCall.key, callOf, methodOf, tensorShape]

/-- One call for every expert, in order. -/
theorem filter_netCalls (hexperts : ExpertsAgree h) {key : OpName × Nat}
    (hkey : key ∈ modelKeys h) :
    (netCalls h n lastPpStage).filter (fun call => call.key = key)
      = (List.range (tensorShape h key.1).nExperts).map (callOf n lastPpStage key) := by
  have hlayers : (List.range h.nLayers).flatMap (fun layerIndex =>
      (layerCallsOf h n layerIndex).filter fun call => call.key = key)
        = if key.1 ∈ h.attWeights ++ h.ffWeights then
            (List.range (tensorShape h key.1).nExperts).map (callOf n lastPpStage key)
          else [] := by
    have hskip {layerIndex : Nat} (hne : key.1 ∉ h.attWeights ++ h.ffWeights ∨
        layerIndex ≠ key.2) :
        (layerCallsOf h n layerIndex).filter (fun call => call.key = key) = [] := by
      refine List.filter_eq_nil_iff.2 fun call hcall => ?_
      rcases mem_layerCallsOf hexperts hcall with ⟨hname, hindex⟩
      rw [decide_eq_true_eq]
      rintro rfl
      rcases hne with hne | hne
      · exact hne hname
      · exact hne hindex.symm
    split_ifs with hname
    · have hlayer : key.2 < h.nLayers := by
        rcases mem_modelKeys.1 hkey with rfl | ⟨hlayer, -⟩ | rfl | rfl
        · exact absurd hname (by simp [LlmHeader.attWeights, LlmHeader.ffWeights])
        · exact hlayer
        · exact absurd hname (by simp [LlmHeader.attWeights, LlmHeader.ffWeights])
        · exact absurd hname (by simp [LlmHeader.attWeights, LlmHeader.ffWeights])
      have hown := @filter_layerCallsOf h n lastPpStage key.2 hexperts key.1 hname
      rw [Prod.mk.eta] at hown
      -- only the layer of the key has calls for it
      have hone : ∀ layerIndex ∈ List.range h.nLayers,
          (layerCallsOf h n layerIndex).filter (fun call => call.key = key)
            = if layerIndex = key.2 then
                (List.range (tensorShape h key.1).nExperts).map (callOf n lastPpStage key)
              else [] := by
        intro layerIndex _
        split_ifs with heq
        · rw [heq]
          exact hown
        · exact hskip (.inr heq)
      rw [List.flatMap_congr hone]
      exact Lib.flatMap_ite_eq List.nodup_range (List.mem_range.2 hlayer) fun _ => _
    · exact List.flatMap_eq_nil_iff.2 fun layerIndex _ => hskip (.inl hname)
  rw [netCalls, List.filter_append, List.filter_append, List.filter_flatMap, hlayers]
  rcases key with ⟨name, index⟩
  have hlist : (OpName.embedding ∉ h.attWeights ++ h.ffWeights) ∧
      (OpName.finalNorm ∉ h.attWeights ++ h.ffWeights) ∧
      (OpName.finalMatmulLogits ∉ h.attWeights ++ h.ffWeights) := by
    refine ⟨?_, ?_, ?_⟩ <;> simp [LlmHeader.attWeights, LlmHeader.ffWeights]
  rcases mem_modelKeys.1 hkey with heq | ⟨hlayer, hname⟩ | heq | heq
  · cases heq
    simp [hlist.1, LoaderCall.key, callOf, methodOf, tensorShape]
  · rw [if_pos hname]
    have hne : OpName.embedding ≠ name ∧ OpName.finalNorm ≠ name ∧
        OpName.finalMatmulLogits ≠ name :=
      ⟨fun heq => hlist.1 (heq ▸ hname), fun heq => hlist.2.1 (heq ▸ hname),
        fun heq => hlist.2.2 (heq ▸ hname)⟩
    simp [LoaderCall.key, hne.1, hne.2.1, hne.2.2]
  · cases heq
    simp [hlist.2.1, LoaderCall.key, callOf, methodOf, tensorShape]
  · cases heq
    simp [hlist.2.2, LoaderCall.key, callOf, methodOf, tensorShape]

end Keys

/-! ## The bytes of the calls -/

section Visit

variable {l : NnRootWeightLoader} {file : List UInt8}

/-- The calls with the bytes they find at the cursor. -/
def visited (l : NnRootWeightLoader) (file : List UInt8) (b : Nat) (calls : List LoaderCall) :
    List (LoaderCall × List UInt8) :=
  calls.zip ((visit file b (calls.map (LoaderCall.load l))).map Prod.snd)

theorem visited_cons (b : Nat) (call : LoaderCall) (calls : List LoaderCall) :
    visited l file b (call :: calls)
      = (call, (file.drop b).take (call.load l).nBytes)
        :: visited l file (b + (call.load l).nBytes) calls :=
  rfl

theorem map_fst_visited (b : Nat) (calls : List LoaderCall) :
    (visited l file b calls).map Prod.fst = calls := by
  induction calls generalizing b with
  | nil => rfl
  | cons call calls ih => rw [visited_cons, List.map_cons, ih]

/-- The loads with the same bytes. -/
theorem map_load_visited (b : Nat) (calls : List LoaderCall) :
    (visited l file b calls).map (fun found => (found.1.load l, found.2))
      = visit file b (calls.map (LoaderCall.load l)) := by
  induction calls generalizing b with
  | nil => rfl
  | cons call calls ih =>
      rw [visited_cons, List.map_cons, ih]
      rfl

theorem le_cursorEnd (b : Nat) (loads : List WeightLoad) : b ≤ cursorEnd b loads := by
  induction loads generalizing b with
  | nil => exact le_rfl
  | cons load loads ih => exact (Nat.le_add_right ..).trans (ih _)

/-- A cursor that ends in the file finds every byte it asks for. -/
theorem length_of_mem_visited {b : Nat} {calls : List LoaderCall}
    (hend : cursorEnd b (calls.map (LoaderCall.load l)) ≤ file.length)
    {found : LoaderCall × List UInt8} (hfound : found ∈ visited l file b calls) :
    found.2.length = (found.1.load l).nBytes := by
  induction calls generalizing b with
  | nil => cases hfound
  | cons call calls ih =>
      rw [visited_cons] at hfound
      rcases List.mem_cons.1 hfound with rfl | hfound
      · have hnext : b + (call.load l).nBytes ≤ file.length :=
          (le_cursorEnd _ (calls.map (LoaderCall.load l))).trans hend
        rw [List.length_take, List.length_drop]
        exact Nat.min_eq_left (by omega)
      · exact ih hend hfound

end Visit

/-! ## The loads of one op -/

/-- What a load leaves when the weight is full. -/
def OpWeight.full (repackOn : Bool) (size : NnSize3D) (weight : Mem UInt8) : OpWeight :=
  if repacks size then
    let (weight, isRepacked) := Kernels.nnRepackQ40InPlace repackOn weight size.x (size.y / 32)
    ⟨weight, size.nBytes, isRepacked⟩
  else ⟨weight, size.nBytes, false⟩

section Fill

variable {repackOn : Bool} {size : NnSize3D}

theorem slice_store_end (m : Mem UInt8) (off : Nat) (bytes : List UInt8) :
    (m.store off bytes).slice 0 (off + bytes.length) = m.slice 0 off ++ bytes := by
  rw [← Mem.slice_append, Nat.zero_add, Mem.slice_store]
  refine congrArg (· ++ bytes) (Mem.slice_congr fun i hi => ?_)
  rw [Nat.zero_add]
  exact Mem.store_apply_of_lt hi

/-- A load that does not repack. -/
theorem load_of_not_repacks (hsize : repacks size = false) {w : OpWeight} {record : WeightRecord}
    (hfits : record.offset + record.weight.length ≤ size.nBytes) :
    w.load repackOn size record
      = .ok ⟨w.weight.store record.offset record.weight,
          w.loadedBytes + record.weight.length, w.isRepacked⟩ := by
  simp only [OpWeight.load, assertThat, decide_eq_true hfits, if_true, hsize, Bool.and_false,
    Bool.false_eq_true, if_false]
  rfl

/-- The load of a whole weight. -/
theorem load_of_whole {m : Mem UInt8} {record : WeightRecord} (hoffset : record.offset = 0)
    (hlength : record.weight.length = size.nBytes) :
    (OpWeight.mk m 0 false).load repackOn size record
      = .ok (OpWeight.full repackOn size (m.store 0 record.weight)) := by
  have hfits : record.offset + record.weight.length ≤ size.nBytes := by omega
  have hdone : size.nBytes ≤ 0 + record.weight.length := by omega
  have hloaded : 0 + record.weight.length = size.nBytes := by omega
  simp only [OpWeight.load, assertThat, decide_eq_true hfits, if_true, Bool.not_false,
    decide_eq_true hdone, Bool.true_and, OpWeight.full]
  rw [hoffset, hloaded]
  cases repacks size <;> rfl

/-- The matrices of a weight, one behind the other, fill it. -/
theorem loads_fill {nExperts partBytes : Nat} {record : Nat → WeightRecord}
    (hrecord : ∀ e < nExperts, (record e).offset = e * partBytes ∧
      (record e).weight.length = partBytes)
    (hpos : 0 < nExperts) (hsize : size.nBytes = nExperts * partBytes)
    (hz : 1 < nExperts → 1 < size.z) (m : Mem UInt8) :
    ∃ weight, ((List.range nExperts).map record).foldlM (OpWeight.load repackOn size) ⟨m, 0, false⟩
        = .ok (OpWeight.full repackOn size weight) ∧
      weight.slice 0 size.nBytes = (List.range nExperts).flatMap fun e => (record e).weight := by
  by_cases hone : nExperts = 1
  · subst hone
    rcases hrecord 0 Nat.one_pos with ⟨hoffset, hlength⟩
    rw [Nat.zero_mul] at hoffset
    rw [Nat.one_mul] at hsize
    have hwhole := hlength.trans hsize.symm
    refine ⟨m.store 0 (record 0).weight, ?_, ?_⟩
    · show (OpWeight.mk m 0 false).load repackOn size (record 0) >>= _ = _
      rw [ok_bind_of_eq (load_of_whole hoffset hwhole)]
      rfl
    · have hend := slice_store_end m 0 (record 0).weight
      rw [Nat.zero_add, hwhole, Mem.slice_zero, List.nil_append] at hend
      rw [hend, List.range_one, List.flatMap_singleton]
  · -- the weights of several experts are not repacked
    have hmany := hz (by omega)
    have hnot : repacks size = false := by
      simp [repacks, Nat.not_le.2 hmany]
    have hrun : ∀ k ≤ nExperts, ∃ weight,
        ((List.range k).map record).foldlM (OpWeight.load repackOn size) ⟨m, 0, false⟩
          = .ok ⟨weight, k * partBytes, false⟩ ∧
        weight.slice 0 (k * partBytes) = (List.range k).flatMap fun e => (record e).weight := by
      intro k
      induction k with
      | zero =>
          intro _
          refine ⟨m, ?_, ?_⟩
          · rw [Nat.zero_mul]
            rfl
          · rw [Nat.zero_mul]
            rfl
      | succ k ih =>
          intro hk
          rcases ih (Nat.le_of_succ_le hk) with ⟨weight, hok, hslice⟩
          rcases hrecord k hk with ⟨hoffset, hlength⟩
          have hfits : (record k).offset + (record k).weight.length ≤ size.nBytes := by
            rw [hoffset, hlength, hsize, ← Nat.succ_mul]
            exact Nat.mul_le_mul_right _ hk
          refine ⟨weight.store (record k).offset (record k).weight, ?_, ?_⟩
          · rw [List.range_succ, List.map_append, List.foldlM_append, ok_bind_of_eq hok]
            show OpWeight.load repackOn size _ (record k) >>= _ = _
            rw [ok_bind_of_eq (load_of_not_repacks hnot hfits), hlength, Nat.succ_mul]
            rfl
          · have hend := slice_store_end weight (record k).offset (record k).weight
            rw [hlength, hoffset] at hend
            rw [Nat.succ_mul, hoffset, hend, hslice, List.range_succ, List.flatMap_append,
              List.flatMap_singleton]
    rcases hrun nExperts le_rfl with ⟨weight, hok, hslice⟩
    refine ⟨weight, ?_, ?_⟩
    · rw [hok, OpWeight.full, hnot, hsize]
      rfl
    · rw [hsize, hslice]

end Fill

end ModelFile
end PrefillOpt
