import Mathlib.Data.BitVec
import PrefillOpt.Network.ConfigWire
import PrefillOpt.Pipeline.Activation

/-!
# Pipeline.WireBytes — messages in bytes

The header as it lies in memory, field by field.  A float is four bytes here, read as a number with
a fixed point, so that sums and differences are exact; its half is the upper two bytes.
-/

namespace PrefillOpt
namespace Pipeline

open Lib

/-! ## The header -/

abbrev HeaderWords : Type :=
  UInt32 × UInt32 × UInt32 × NnFloatType × UInt64 × UInt64 × UInt64 × UInt32 × UInt32

example : Raw.size HeaderWords = 48 := rfl

namespace NnPipelineActivationHeader

def words (h : NnPipelineActivationHeader) : HeaderWords :=
  (.ofNat h.seqPosition, .ofNat h.batchIndex, .ofNat h.sliceId, h.dtype, .ofNat h.payloadBytes,
    .ofNat h.totalPayloadBytes, .ofNat h.streamChunkBytes, .ofNat h.flags, .ofNat h.checksum)

def ofWords : HeaderWords → NnPipelineActivationHeader
  | (seqPosition, batchIndex, sliceId, dtype, payloadBytes, totalPayloadBytes, streamChunkBytes,
      flags, checksum) =>
    ⟨seqPosition.toNat, batchIndex.toNat, sliceId.toNat, dtype, payloadBytes.toNat,
      totalPayloadBytes.toNat, streamChunkBytes.toNat, flags.toNat, checksum.toNat⟩

theorem ofWords_words {h : NnPipelineActivationHeader} (hfits : h.Fits) : ofWords h.words = h := by
  simp only [words, ofWords, UInt32.toNat_ofNat_of_lt' hfits.seqPosition,
    UInt32.toNat_ofNat_of_lt' hfits.batchIndex, UInt32.toNat_ofNat_of_lt' hfits.sliceId,
    UInt64.toNat_ofNat_of_lt' hfits.payloadBytes, UInt64.toNat_ofNat_of_lt' hfits.totalPayloadBytes,
    UInt64.toNat_ofNat_of_lt' hfits.streamChunkBytes, UInt32.toNat_ofNat_of_lt' hfits.flags,
    UInt32.toNat_ofNat_of_lt' hfits.checksum]

end NnPipelineActivationHeader

/-! ## Floats -/

/-- A number with 26 bits behind the point. -/
abbrev Fixed : Type := BitVec 32

def fixed (num den : Nat) : Fixed := BitVec.ofNat 32 (2 ^ 26 * num / den)

namespace Fixed

def store (x : Fixed) : List UInt8 := leBytes 4 x.toNat

def load (w : List UInt8) : Fixed := BitVec.ofNat 32 (ofLeBytes w)

theorem store_length (x : Fixed) : x.store.length = 4 :=
  leBytes_length ..

theorem load_store (x : Fixed) : load x.store = x := by
  have hlt : x.toNat < 256 ^ 4 := x.isLt
  rw [load, store, ofLeBytes_leBytes_of_lt hlt, BitVec.ofNat_toNat, BitVec.setWidth_eq]

instance : Raw Fixed where
  size := 4
  store := store
  load := load
  store_length := store_length
  load_store := load_store

theorem store_load {w : List UInt8} (hw : w.length = 4) : (load w).store = w := by
  have hlt : ofLeBytes w < 2 ^ 32 := by
    have h := ofLeBytes_lt w
    rwa [hw] at h
  have h := leBytes_ofLeBytes w
  rwa [hw, ← Nat.mod_eq_of_lt hlt] at h

end Fixed

theorem loadU32_lt (w : List UInt8) : ofLeBytes (w.take 4) < 2 ^ 32 := by
  have h := ofLeBytes_lt (w.take 4)
  have hle : 256 ^ (w.take 4).length ≤ 256 ^ 4 :=
    Nat.pow_le_pow_right (by decide) (List.length_take_le 4 w)
  exact h.trans_le hle

/-- The blocks of Q80 and Q40 are zeros. -/
def fixedFormat : WireFormat UInt8 Fixed where
  headerSize := Raw.size HeaderWords
  storeHeader h := Raw.store h.words
  loadHeader bs := .ofWords (Raw.load bs)
  storeF32 := Fixed.store
  loadF32 := Fixed.load
  loadU32 w := ofLeBytes (w.take 4)
  CONVERT_F32_TO_F16 x := leBytes 2 (x.toNat / 2 ^ 16)
  CONVERT_F16_TO_F32 w := BitVec.ofNat 32 (ofLeBytes w * 2 ^ 16)
  quantizeF32toQ80 xs := List.replicate (xs.length / 32 * 34) 0
  dequantizeQ80toF32 ws := List.replicate (ws.length / 34 * 32) 0
  quantizeF32toQ40 xs := List.replicate (xs.length / 32 * 18) 0
  dequantizeQ40toF32 ws := List.replicate (ws.length / 18 * 32) 0
  storeHeader_length _ := Raw.store_length _
  loadHeader_store _ hfits := by
    rw [Raw.load_store]
    exact NnPipelineActivationHeader.ofWords_words hfits
  storeF32_length := Fixed.store_length
  loadF32_store := Fixed.load_store
  loadU32_lt := loadU32_lt
  f16_length _ := leBytes_length ..
  q80_length _ _ := List.length_replicate
  deq80_length _ _ := List.length_replicate
  q40_length _ _ := List.length_replicate
  deq40_length _ _ := List.length_replicate

end Pipeline
end PrefillOpt
