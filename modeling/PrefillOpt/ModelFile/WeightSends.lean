import PrefillOpt.ModelFile.WeightParts

/-!
# ModelFile.WeightSends — the calls of a model and what they send

Every weight of the model is loaded once for each of its experts, and the records of a load carry
the parts of one matrix to the nodes that the loader picks.
-/

namespace PrefillOpt
namespace ModelFile

open Lib (Mem)
open Network (NnRootWeightLoader)

/-! ## The calls for a weight -/

/-- The method that loads a weight. -/
def methodOf (n : LlmSlices) (lastPpStage : Option Nat) (expertIndex : Nat) : OpName → LoadMethod
  | .embedding => .loadRoot n.tokenEmbeddingSize
  | .blockMatmulQ => .loadRowMatmulSlices expertIndex n.qSlice
  | .blockMatmulK => .loadRowMatmulSlices expertIndex n.kSlice
  | .blockMatmulV => .loadRowMatmulSlices expertIndex n.vSlice
  | .blockMatmulWo => .loadColMatmulSlices expertIndex n.woSlice none
  | .blockMoeGate => .loadAll n.moeGateSize
  | .blockMatmulW1 => .loadRowMatmulSlices expertIndex n.w1Slice
  | .blockMatmulW2 => .loadColMatmulSlices expertIndex n.w2Slice none
  | .blockMatmulW3 => .loadRowMatmulSlices expertIndex n.w3Slice
  | .blockNormQ => .loadAll n.qkRmsNormSize
  | .blockNormK => .loadAll n.qkRmsNormSize
  | .finalMatmulLogits => .loadColMatmulSlices expertIndex n.wclsSlice lastPpStage
  | _ => .loadAll n.rmsNormSize

def callOf (n : LlmSlices) (lastPpStage : Option Nat) (key : OpName × Nat) (expertIndex : Nat) :
    LoaderCall :=
  ⟨key.1, key.2, methodOf n lastPpStage expertIndex key.1⟩

section Sends

variable {l : NnRootWeightLoader} {call : LoaderCall} {s : TensorShape} {tpSize expertIndex : Nat}
  {bytes : List UInt8}

theorem size2D_nBytes_of_lt {floatType : NnFloatType} {y x : Nat} (h : x * y < 2 ^ 32) :
    (size2D floatType y x).nBytes = getBytes floatType (x * y) := by
  rw [Nat.mul_comm] at h
  simp only [size2D, size3D, Nat.one_mul, u32_of_lt h, Nat.mul_comm x]

theorem offset_fits (hfits : s.Fits tpSize) (hexpert : expertIndex < s.nExperts) :
    u32 (expertIndex * s.partBytes tpSize) = expertIndex * s.partBytes tpSize :=
  u32_of_lt (lt_of_le_of_lt (Nat.mul_le_mul_right _ (by omega)) hfits.offset)

theorem part_length_fits (hfits : s.Fits tpSize) :
    s.partN tpSize * s.partD tpSize < 2 ^ 32 := by
  refine lt_of_le_of_lt (Nat.mul_le_mul ?_ ?_) hfits.tensor
  · unfold TensorShape.partN
    split_ifs
    · exact Nat.div_le_self ..
    · exact le_rfl
  · unfold TensorShape.partD
    split_ifs
    · exact Nat.div_le_self ..
    · exact le_rfl

/-- The nodes of a slice for the only node there is, and for all others. -/
theorem sends_slices (hfits : s.Fits tpSize) (heven : s.Even tpSize)
    (hexpert : expertIndex < s.nExperts) (hbytes : bytes.length = s.nBytes) (htp : 0 < tpSize)
    (hone : l.nNodes = 1 → tpSize = 1) {sliceSize : NnSize3D}
    (hsize : sliceSize.nBytes = s.partBytes tpSize) (ownerPpRank : Option Nat)
    {split : Nat → Mem UInt8 → Except String (Mem UInt8 × Nat)} (temp : Mem UInt8)
    (hsplit : ∀ rank < tpSize, ∀ temp, ∃ out copied, split rank temp = .ok (out, copied) ∧
      out.slice 0 (s.partBytes tpSize) = s.part tpSize rank bytes) :
    call.sendSlices l split (l.loadSlices ownerPpRank expertIndex tpSize sliceSize) (memOf bytes)
        temp
      = .ok ((LoaderCall.sliceNodes l ownerPpRank tpSize).map fun nodeIndex =>
          call.recordOf nodeIndex (expertIndex * s.partBytes tpSize)
            (s.part tpSize (nodeIndex % tpSize) bytes)) := by
  rw [LoaderCall.loadSlices_eq,
    @LoaderCall.sendSlices_ok l call split _ _ temp fun rank => s.part tpSize rank bytes,
    List.map_map]
  · rw [hsize, offset_fits hfits hexpert]
    rfl
  · intro hnodes load hload
    rcases List.mem_map.1 hload with ⟨nodeIndex, -, rfl⟩
    have htpOne := hone hnodes
    subst htpOne
    have hpart := part_of_one hfits heven hbytes
    simp only [Nat.mod_one, hsize, hpart.1, hpart.2, ← hbytes]
    exact memOf_slice_whole bytes
  · intro _ load hload
    rcases List.mem_map.1 hload with ⟨nodeIndex, -, rfl⟩
    simp only [hsize]
    exact hsplit _ (Nat.mod_lt _ htp)

theorem sends_row (hsplit : s.split = .rows) (hfits : s.Fits tpSize) (heven : s.Even tpSize)
    (hexpert : expertIndex < s.nExperts) (hbytes : bytes.length = s.nBytes) (htp : 0 < tpSize)
    (hone : l.nNodes = 1 → tpSize = 1) (temp : Mem UInt8)
    (hmethod : call.method
      = .loadRowMatmulSlices expertIndex (rowSlice s.floatType tpSize s.n s.d)) :
    call.send l (memOf bytes) temp
      = .ok ((call.nodes l).map fun nodeIndex =>
          call.recordOf nodeIndex (expertIndex * s.partBytes tpSize)
            (s.part tpSize (nodeIndex % tpSize) bytes)) := by
  have hlength := part_length_fits hfits
  have hd : s.partD tpSize = s.d / tpSize := if_pos hsplit
  have hn : s.partN tpSize = s.n := if_neg (by rw [hsplit]; decide)
  have hsize : (rowSlice s.floatType tpSize s.n s.d).sliceSize.nBytes = s.partBytes tpSize := by
    rw [TensorShape.partBytes, hd, hn]
    rw [hd, hn, Nat.mul_comm] at hlength
    exact (size2D_nBytes_of_lt hlength).trans (by rw [Nat.mul_comm])
  simp only [LoaderCall.send, LoaderCall.nodes, hmethod]
  exact sends_slices hfits heven hexpert hbytes htp hone hsize _ temp
    fun rank hrank => splitRow_part hsplit hfits heven hbytes hrank

theorem sends_col (hsplit : s.split = .columns) (hfits : s.Fits tpSize) (heven : s.Even tpSize)
    (hexpert : expertIndex < s.nExperts) (hbytes : bytes.length = s.nBytes) (htp : 0 < tpSize)
    (hone : l.nNodes = 1 → tpSize = 1) (temp : Mem UInt8) {overridePpRank : Option Nat}
    (hmethod : call.method
      = .loadColMatmulSlices expertIndex (colSlice s.floatType tpSize s.n s.d) overridePpRank) :
    call.send l (memOf bytes) temp
      = .ok ((call.nodes l).map fun nodeIndex =>
          call.recordOf nodeIndex (expertIndex * s.partBytes tpSize)
            (s.part tpSize (nodeIndex % tpSize) bytes)) := by
  have hlength := part_length_fits hfits
  have hn : s.partN tpSize = s.n / tpSize := if_pos hsplit
  have hd : s.partD tpSize = s.d := if_neg (by rw [hsplit]; decide)
  have hsize : (colSlice s.floatType tpSize s.n s.d).sliceSize.nBytes = s.partBytes tpSize := by
    rw [TensorShape.partBytes, hd, hn]
    rw [hd, hn, Nat.mul_comm] at hlength
    exact (size2D_nBytes_of_lt hlength).trans (by rw [Nat.mul_comm])
  simp only [LoaderCall.send, LoaderCall.nodes, hmethod]
  exact sends_slices hfits heven hexpert hbytes htp hone hsize _ temp
    fun rank hrank => splitCol_part hsplit hfits heven hbytes hrank

/-- A weight that is not split, for all nodes. -/
theorem sends_all {size : NnSize3D} (hsplit : s.split = .whole) (hexpert : expertIndex = 0)
    (hsize : size.nBytes = s.nBytes) (hbytes : bytes.length = s.nBytes) (temp : Mem UInt8)
    (hmethod : call.method = .loadAll size) :
    call.send l (memOf bytes) temp
      = .ok ((call.nodes l).map fun nodeIndex =>
          call.recordOf nodeIndex (expertIndex * s.partBytes tpSize)
            (s.part tpSize (nodeIndex % tpSize) bytes)) := by
  have hpart (rank : Nat) : s.part tpSize rank bytes = bytes := by
    rw [TensorShape.part, hsplit]
  simp only [LoaderCall.send, LoaderCall.nodes, hmethod, hpart, hexpert, Nat.zero_mul,
    LoaderCall.record, LoaderCall.recordOf, hsize, ← hbytes, memOf_slice_whole]

/-- For the root alone. -/
theorem sends_root {size : NnSize3D} (hsplit : s.split = .whole) (hexpert : expertIndex = 0)
    (hsize : size.nBytes = s.nBytes) (hbytes : bytes.length = s.nBytes) (temp : Mem UInt8)
    (hmethod : call.method = .loadRoot size) :
    call.send l (memOf bytes) temp
      = .ok ((call.nodes l).map fun nodeIndex =>
          call.recordOf nodeIndex (expertIndex * s.partBytes tpSize)
            (s.part tpSize (nodeIndex % tpSize) bytes)) := by
  have hpart (rank : Nat) : s.part tpSize rank bytes = bytes := by
    rw [TensorShape.part, hsplit]
  simp only [LoaderCall.send, LoaderCall.nodes, hmethod, hpart, hexpert, Nat.zero_mul,
    LoaderCall.record, LoaderCall.recordOf, hsize, ← hbytes, memOf_slice_whole,
    List.map_singleton]

end Sends

section Model

variable {h : LlmHeader} {n : LlmSlices} {tpSize : Nat} {l : NnRootWeightLoader}
  {lastPpStage : Option Nat} {key : OpName × Nat} {expertIndex : Nat}

/-- The cursor moves over one matrix. -/
theorem load_callOf (hn : SlicesOf h tpSize n)
    (hfits : (tensorShape h key.1).Fits tpSize) :
    ((callOf n lastPpStage key expertIndex).load l).nBytes = (tensorShape h key.1).nBytes := by
  rcases key with ⟨name, index⟩
  have hsize := @size2D_nBytes_of_lt (tensorShape h name).floatType _ _ hfits.tensor
  have hswap := @size2D_nBytes_of_lt (tensorShape h name).floatType _ _
    ((Nat.mul_comm ..).trans_lt hfits.tensor)
  rw [Nat.mul_comm] at hswap
  cases name with
  | embedding => exact (congrArg NnSize3D.nBytes hn.sizes.tokenEmbedding).trans hsize
  | blockMatmulQ => exact (congrArg NnSize3D.nBytes hn.sizes.q).trans hswap
  | blockMatmulK => exact (congrArg NnSize3D.nBytes hn.sizes.k).trans hswap
  | blockMatmulV => exact (congrArg NnSize3D.nBytes hn.sizes.v).trans hswap
  | blockMatmulWo => exact (congrArg NnSize3D.nBytes hn.sizes.wo).trans hswap
  | blockMoeGate => exact (congrArg NnSize3D.nBytes hn.sizes.moeGate).trans hswap
  | blockMatmulW1 => exact (congrArg NnSize3D.nBytes hn.sizes.w1).trans hswap
  | blockMatmulW2 => exact (congrArg NnSize3D.nBytes hn.sizes.w2).trans hswap
  | blockMatmulW3 => exact (congrArg NnSize3D.nBytes hn.sizes.w3).trans hswap
  | blockNormQ | blockNormK => exact (congrArg NnSize3D.nBytes hn.sizes.qkRmsNorm).trans hsize
  | finalMatmulLogits => exact (congrArg NnSize3D.nBytes hn.sizes.wcls).trans hswap
  | _ => exact (congrArg NnSize3D.nBytes hn.sizes.rmsNorm).trans hsize

/-- Every node that the loader picks gets the part of its rank. -/
theorem send_callOf (hn : SlicesOf h tpSize n) (hfits : (tensorShape h key.1).Fits tpSize)
    (htp : 0 < tpSize) (hone : l.nNodes = 1 → tpSize = 1)
    (hexpert : expertIndex < (tensorShape h key.1).nExperts) {bytes : List UInt8}
    (hbytes : bytes.length = (tensorShape h key.1).nBytes) (temp : Mem UInt8) :
    (callOf n lastPpStage key expertIndex).send l (memOf bytes) temp
      = .ok (((callOf n lastPpStage key expertIndex).nodes l).map fun nodeIndex =>
          (callOf n lastPpStage key expertIndex).recordOf nodeIndex
            (expertIndex * (tensorShape h key.1).partBytes tpSize)
            ((tensorShape h key.1).part tpSize (nodeIndex % tpSize) bytes)) := by
  have hload := @load_callOf h n tpSize l lastPpStage key expertIndex hn hfits
  have heven := hn.even key.1
  rcases key with ⟨name, index⟩
  have hzero (hexperts : (tensorShape h name).nExperts = 1) : expertIndex = 0 := by
    have hlt : expertIndex < (tensorShape h name).nExperts := hexpert
    omega
  cases name with
  | embedding => exact sends_root rfl (hzero rfl) hload hbytes temp rfl
  | blockMatmulQ =>
      exact sends_row rfl hfits heven hexpert hbytes htp hone temp (congrArg _ hn.q)
  | blockMatmulK =>
      exact sends_row rfl hfits heven hexpert hbytes htp hone temp (congrArg _ hn.k)
  | blockMatmulV =>
      exact sends_row rfl hfits heven hexpert hbytes htp hone temp (congrArg _ hn.v)
  | blockMatmulW1 =>
      exact sends_row rfl hfits heven hexpert hbytes htp hone temp (congrArg _ hn.w1)
  | blockMatmulW3 =>
      exact sends_row rfl hfits heven hexpert hbytes htp hone temp (congrArg _ hn.w3)
  | blockMatmulWo =>
      exact sends_col rfl hfits heven hexpert hbytes htp hone temp
        (congrArg (LoadMethod.loadColMatmulSlices _ · _) hn.wo)
  | blockMatmulW2 =>
      exact sends_col rfl hfits heven hexpert hbytes htp hone temp
        (congrArg (LoadMethod.loadColMatmulSlices _ · _) hn.w2)
  | finalMatmulLogits =>
      exact sends_col rfl hfits heven hexpert hbytes htp hone temp
        (congrArg (LoadMethod.loadColMatmulSlices _ · _) hn.wcls)
  | _ => exact sends_all rfl (hzero rfl) hload hbytes temp rfl

end Model

end ModelFile
end PrefillOpt
