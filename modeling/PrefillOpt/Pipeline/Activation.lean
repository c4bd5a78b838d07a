import PrefillOpt.Core
import PrefillOpt.Lib.ByteStream
import PrefillOpt.Topology

/-!
# Pipeline.Activation — activations on the wire between two stages

`nn-pipeline.hpp`, `nn-pipeline.cpp`.  A message is one header and one payload, the payload in
one piece or in chunks.  In delta mode the payload is the difference to the base vector that
the sender keeps for the socket, and the receiver adds it to a base vector of its own.

`β` is a byte and `F` a float.  How floats, quantised blocks and the header lie in bytes is a
`WireFormat`.
-/

namespace PrefillOpt
namespace Pipeline

open Lib

/-! ## The header -/

structure NnPipelineActivationHeader where
  seqPosition : Nat
  batchIndex : Nat
  sliceId : Nat
  dtype : NnFloatType
  payloadBytes : Nat
  totalPayloadBytes : Nat
  streamChunkBytes : Nat
  flags : Nat
  checksum : Nat
  deriving DecidableEq, Repr

/-- The fields are `NnUint`, but for the three sizes, which are `NnSize`. -/
structure NnPipelineActivationHeader.Fits (h : NnPipelineActivationHeader) : Prop where
  seqPosition : h.seqPosition < 2 ^ 32
  batchIndex : h.batchIndex < 2 ^ 32
  sliceId : h.sliceId < 2 ^ 32
  payloadBytes : h.payloadBytes < 2 ^ 64
  totalPayloadBytes : h.totalPayloadBytes < 2 ^ 64
  streamChunkBytes : h.streamChunkBytes < 2 ^ 64
  flags : h.flags < 2 ^ 32
  checksum : h.checksum < 2 ^ 32

def PIPELINE_FLAG_CHUNKED : Nat := 1 <<< 0
def PIPELINE_FLAG_DELTA : Nat := 1 <<< 1
def PIPELINE_FLAG_STAGE_SKIP_BYPASS : Nat := 1 <<< 2

/-- `(flags & flag) != 0`. -/
def hasFlag (flags flag : Nat) : Bool :=
  flags &&& flag != 0

theorem hasFlag_or (a b flag : Nat) :
    hasFlag (a ||| b) flag = (hasFlag a flag || hasFlag b flag) := by
  rw [Bool.eq_iff_iff]
  simp only [hasFlag, Nat.and_or_distrib_right, bne_iff_ne, ne_eq, Nat.or_eq_zero_iff,
    Bool.or_eq_true]
  tauto

/-! ## Bytes -/

/-- The memory layout of what travels.  The quantisers of `nn-quants` are used through the number
of bytes they produce and consume. -/
structure WireFormat (β F : Type) where
  /-- `sizeof(NnPipelineActivationHeader)` -/
  headerSize : Nat
  storeHeader : NnPipelineActivationHeader → List β
  loadHeader : List β → NnPipelineActivationHeader
  storeF32 : F → List β
  loadF32 : List β → F
  /-- A 4-byte unsigned integer, read for the checksum. -/
  loadU32 : List β → Nat
  CONVERT_F32_TO_F16 : F → List β
  CONVERT_F16_TO_F32 : List β → F
  quantizeF32toQ80 : List F → List β
  dequantizeQ80toF32 : List β → List F
  quantizeF32toQ40 : List F → List β
  dequantizeQ40toF32 : List β → List F
  storeHeader_length : ∀ h, (storeHeader h).length = headerSize
  loadHeader_store : ∀ h, h.Fits → loadHeader (storeHeader h) = h
  storeF32_length : ∀ x, (storeF32 x).length = 4
  loadF32_store : ∀ x, loadF32 (storeF32 x) = x
  loadU32_lt : ∀ w, loadU32 w < 2 ^ 32
  f16_length : ∀ x, (CONVERT_F32_TO_F16 x).length = 2
  q80_length : ∀ xs, xs.length % 32 = 0 → (quantizeF32toQ80 xs).length = xs.length / 32 * 34
  deq80_length : ∀ ws, ws.length % 34 = 0 → (dequantizeQ80toF32 ws).length = ws.length / 34 * 32
  q40_length : ∀ xs, xs.length % 32 = 0 → (quantizeF32toQ40 xs).length = xs.length / 32 * 18
  deq40_length : ∀ ws, ws.length % 18 = 0 → (dequantizeQ40toF32 ws).length = ws.length / 18 * 32

variable {β F : Type}

namespace WireFormat

variable (fmt : WireFormat β F)

/-- The floats of a byte buffer; up to three bytes at the end are no float. -/
def loadFloats : List β → List F
  | a :: b :: c :: d :: rest => fmt.loadF32 [a, b, c, d] :: loadFloats rest
  | _ => []

def storeFloats (xs : List F) : List β :=
  xs.flatMap fmt.storeF32

/-- The half-precision floats of a byte buffer, widened. -/
def loadHalves : List β → List F
  | a :: b :: rest => fmt.CONVERT_F16_TO_F32 [a, b] :: loadHalves rest
  | _ => []

/-- XOR with the position: each of the four turns overwrites the value of the turn before. -/
def calculateChecksum (data : List β) (dtype : NnFloatType) : Nat :=
  if dtype = .f32 ∧ 16 ≤ data.length then
    (List.range 4).foldl (fun _ i => fmt.loadU32 ((data.drop (4 * i)).take 4) ^^^ (i + 1)) 0
  else fmt.loadU32 (data.take (min data.length 4))

theorem calculateChecksum_lt (data : List β) (dtype : NnFloatType) :
    fmt.calculateChecksum data dtype < 2 ^ 32 := by
  unfold calculateChecksum
  split_ifs
  · -- the last of the four turns
    exact Nat.xor_lt_two_pow (fmt.loadU32_lt _) (by decide)
  · exact fmt.loadU32_lt _

end WireFormat

/-- `memcpy` to the start of a buffer. -/
def overwrite (buffer bytes : List β) : List β :=
  bytes ++ buffer.drop bytes.length

/-- A quantised wire type needs whole blocks of floats; otherwise half precision is sent. -/
def selectWireDtype (requested : NnFloatType) (srcBytes : Nat) : NnFloatType :=
  if requested = .q40 ∨ requested = .q80 then
    if srcBytes % 4 ≠ 0 then .f16
    else if srcBytes / 4 % 32 ≠ 0 then .f16
    else requested
  else requested

/-- A quantised wire type is used for whole blocks only. -/
theorem selectWireDtype_blocks {requested : NnFloatType} {srcBytes : Nat}
    (h : selectWireDtype requested srcBytes = .q40 ∨ selectWireDtype requested srcBytes = .q80) :
    srcBytes / 4 % 32 = 0 := by
  unfold selectWireDtype at h
  split_ifs at h with hquantised hwords hblocks
  · simp at h
  · simp at h
  · exact not_not.mp hblocks
  · exact absurd h hquantised

/-- `src` is a byte buffer of `srcBytes` bytes; an exception is an error with its text. -/
def encodeFromF32 (fmt : WireFormat β F) (src : List β) (dtype : NnFloatType) :
    Except String (List β) :=
  if dtype = .f32 then .ok src
  else if src.length % 4 ≠ 0 then .error "Invalid source bytes for activation encoding"
  else match dtype with
    | .f16 => .ok ((fmt.loadFloats src).flatMap fmt.CONVERT_F32_TO_F16)
    | .q80 => .ok (fmt.quantizeF32toQ80 (fmt.loadFloats src))
    | .q40 => .ok (fmt.quantizeF32toQ40 (fmt.loadFloats src))
    | _ => .error "Unsupported activation transport dtype"

/-- The bytes written at the start of a destination of `dstBytes` bytes, and the number of floats
decoded; `none` where the source returns `false`. -/
def decodeToF32 (fmt : WireFormat β F) (wire : List β) (dtype : NnFloatType) (dstBytes : Nat) :
    Option (List β × Nat) :=
  if dtype = .f32 then
    if dstBytes < wire.length then none else some (wire, wire.length / 4)
  else if dstBytes % 4 ≠ 0 then none
  else match dtype with
    | .f16 =>
        if wire.length % 2 ≠ 0 then none
        else if dstBytes / 4 < wire.length / 2 then none
        else some (fmt.storeFloats (fmt.loadHalves wire), wire.length / 2)
    | .q80 =>
        if wire.length % 34 ≠ 0 then none
        else if dstBytes / 4 < wire.length / 34 * 32 then none
        else some (fmt.storeFloats (fmt.dequantizeQ80toF32 wire), wire.length / 34 * 32)
    | .q40 =>
        if wire.length % 18 ≠ 0 then none
        else if dstBytes / 4 < wire.length / 18 * 32 then none
        else some (fmt.storeFloats (fmt.dequantizeQ40toF32 wire), wire.length / 18 * 32)
    | _ => none

/-! ## The communicator -/

/-- The options and the two base vectors of every socket.  The two `bySocket` vectors have
`nSockets` entries. -/
structure NnPipelineCommunicator (F : Type) where
  topology : NnParallelTopology
  myNodeIndex : Nat
  nSockets : Nat
  deltaEnabled : Bool
  deltaMinBytes : Nat
  chunkBytes : Nat
  prevSendBySocket : Nat → List F
  prevRecvBySocket : Nat → List F

namespace NnPipelineCommunicator

/-- The constructor on the network of a node, which has one socket to every other node. -/
def create (topology : NnParallelTopology) (myNodeIndex : Nat) (deltaEnabled : Bool)
    (deltaMinBytes chunkBytes : Nat) : NnPipelineCommunicator F where
  topology
  myNodeIndex
  nSockets := topology.nNodes - 1
  deltaEnabled
  deltaMinBytes
  chunkBytes
  prevSendBySocket := fun _ => []
  prevRecvBySocket := fun _ => []

variable (c : NnPipelineCommunicator F)

def setTransportOptions (deltaEnabled : Bool) (deltaMinBytes chunkBytes : Nat) :
    NnPipelineCommunicator F :=
  { c with deltaEnabled, deltaMinBytes, chunkBytes }

def mySpRank : Nat := (c.topology.placement c.myNodeIndex).spRank

def myTpRank : Nat := (c.topology.placement c.myNodeIndex).tpRank

def getPipelineSocketIndex (targetPpRank targetTpRank : Nat) : Except String Nat := do
  let targetGlobalRank ← c.topology.getGlobalRank targetPpRank c.mySpRank targetTpRank
  if targetGlobalRank = c.myNodeIndex then
    throw "Pipeline socket target cannot be current node"
  if c.myNodeIndex = 0 then return targetGlobalRank - 1
  if targetGlobalRank = 0 then return 0
  if targetGlobalRank < c.myNodeIndex then return targetGlobalRank
  return targetGlobalRank - 1

/-- `canDelta`: delta mode applies to a payload of this size on this socket. -/
def canDelta (socket bytes : Nat) : Bool :=
  c.deltaEnabled && decide (c.deltaMinBytes ≤ bytes) && (bytes % 4 == 0) &&
    decide (socket < c.nSockets)

/-- `useDelta`: the base vector of the socket has the size of this payload. -/
def useDelta (socket bytes : Nat) : Bool :=
  bytes != 0 && c.canDelta socket bytes && ((c.prevSendBySocket socket).length == bytes / 4)

end NnPipelineCommunicator

/-! ## Sending -/

/-- What a caller hands to `sendActivation`; `data` has `bytes` bytes. -/
structure Activation (β : Type) where
  seqPosition : Nat
  batchIndex : Nat
  sliceId : Nat
  data : List β
  dtype : NnFloatType
  extraFlags : Nat

/-- The arguments are `NnUint`, and `bytes` is `NnSize`. -/
structure Activation.Fits (a : Activation β) : Prop where
  seqPosition : a.seqPosition < 2 ^ 32
  batchIndex : a.batchIndex < 2 ^ 32
  sliceId : a.sliceId < 2 ^ 32
  extraFlags : a.extraFlags < 2 ^ 32
  bytes : a.data.length < 2 ^ 64

namespace NnPipelineCommunicator

variable (fmt : WireFormat β F) (c : NnPipelineCommunicator F)

/-- `wirePayload`: nothing, the encoded difference to the base, or the encoded data. -/
def wirePayload [Sub F] (socket : Nat) (a : Activation β) : Except String (List β) :=
  let wireDtype := selectWireDtype a.dtype a.data.length
  if a.data.length = 0 then .ok []
  else if c.useDelta socket a.data.length then
    let delta := List.zipWith (· - ·) (fmt.loadFloats a.data) (c.prevSendBySocket socket)
    encodeFromF32 fmt (fmt.storeFloats delta) wireDtype
  else encodeFromF32 fmt a.data wireDtype

def writeChunkBytes (totalWireBytes : Nat) : Nat :=
  if 0 < c.chunkBytes ∧ c.chunkBytes < totalWireBytes then c.chunkBytes else 0

/-- The header of a message whose payload is `wire`. -/
def activationHeader (socket : Nat) (a : Activation β) (wire : List β) :
    NnPipelineActivationHeader where
  seqPosition := a.seqPosition
  batchIndex := a.batchIndex
  sliceId := a.sliceId
  dtype := selectWireDtype a.dtype a.data.length
  payloadBytes := wire.length
  totalPayloadBytes := wire.length
  streamChunkBytes := c.writeChunkBytes wire.length
  flags := (if 0 < c.writeChunkBytes wire.length then PIPELINE_FLAG_CHUNKED else 0)
    ||| (if c.useDelta socket a.data.length then PIPELINE_FLAG_DELTA else 0) ||| a.extraFlags
  checksum := fmt.calculateChecksum wire (selectWireDtype a.dtype a.data.length)

/-- The calls of `network->write`: the header, then the payload whole or in chunks. -/
def messageWrites (socket : Nat) (a : Activation β) (wire : List β) : List (List β) :=
  fmt.storeHeader (c.activationHeader fmt socket a wire) ::
    (if c.writeChunkBytes wire.length = 0 then [wire]
     else cut (c.writeChunkBytes wire.length) wire.length wire)

/-- The base becomes the activation itself; a marker leaves it. -/
def sent (socket : Nat) (a : Activation β) : NnPipelineCommunicator F :=
  if socket < c.nSockets ∧ 0 < a.data.length then
    { c with prevSendBySocket :=
        Function.update c.prevSendBySocket socket (fmt.loadFloats a.data) }
  else c

/-- The socket written to, the writes in order, and the communicator afterwards. -/
def sendActivation [Sub F] (targetPpRank : Nat) (a : Activation β) :
    Except String (Nat × List (List β) × NnPipelineCommunicator F) := do
  if c.topology.ppSize ≤ targetPpRank then
    throw "Invalid target PP rank for pipeline communication"
  let targetSocketIndex ← c.getPipelineSocketIndex targetPpRank c.myTpRank
  let wire ← c.wirePayload fmt targetSocketIndex a
  assertThat (decide (targetSocketIndex < c.nSockets)) "socketIndex < nSockets"
  return (targetSocketIndex, c.messageWrites fmt targetSocketIndex a wire,
    c.sent fmt targetSocketIndex a)

/-! ## Receiving -/

/-- The buffer and the base after the payload is decoded, or the text of the message with which
the call returns `false`. -/
def decodePayload [Add F] (socket : Nat) (header : NnPipelineActivationHeader)
    (wire buffer : List β) : Except String (List β × List F) :=
  if hasFlag header.flags PIPELINE_FLAG_DELTA then
    if buffer.length % 4 ≠ 0 then .error "delta requires float destination buffer"
    else match decodeToF32 fmt wire header.dtype buffer.length with
      | none => .error "delta decode failed"
      | some (bytes, decodedElems) =>
          if c.nSockets ≤ socket ∨ (c.prevRecvBySocket socket).length ≠ decodedElems then
            .error "delta base activation missing"
          else
            let dst := List.zipWith (· + ·) (c.prevRecvBySocket socket) (fmt.loadFloats bytes)
            .ok (overwrite buffer (fmt.storeFloats dst), dst)
  else match decodeToF32 fmt wire header.dtype buffer.length with
    | none => .error "decode failed"
    | some (bytes, decodedElems) =>
        let buffer := overwrite buffer bytes
        .ok (buffer, (fmt.loadFloats buffer).take decodedElems)

def received (socket : Nat) (base : List F) : NnPipelineCommunicator F :=
  if socket < c.nSockets then
    { c with prevRecvBySocket := Function.update c.prevRecvBySocket socket base }
  else c

end NnPipelineCommunicator

/-- The outcome of one `recvActivation`: `true` or the printed error, the header and the buffer,
the communicator, and what is left of the stream. -/
structure Received (β F : Type) where
  result : Except String Unit
  header : NnPipelineActivationHeader
  buffer : List β
  comm : NnPipelineCommunicator F
  stream : List β

namespace NnPipelineCommunicator

variable (fmt : WireFormat β F) (c : NnPipelineCommunicator F)

/-- The payload in one read, or in the chunks the header announces. -/
def readPayload (header : NnPipelineActivationHeader) (stream : List β) :
    Option (List β × List β) :=
  let streamChunkBytes :=
    if hasFlag header.flags PIPELINE_FLAG_CHUNKED then header.streamChunkBytes else 0
  if streamChunkBytes = 0 then readStream header.payloadBytes stream
  else readChunks streamChunkBytes header.payloadBytes header.payloadBytes stream

/-- The call once its socket is known; `none` while the stream has too few bytes.  A checksum
that differs is only reported. -/
def recvOn [Add F] (socket : Nat) (buffer stream : List β) : Option (Received β F) := do
  let (headerBytes, stream) ← readStream fmt.headerSize stream
  let header := fmt.loadHeader headerBytes
  if header.totalPayloadBytes ≠ 0 ∧ header.totalPayloadBytes ≠ header.payloadBytes then
    return ⟨.error "invalid payload sizing", header, buffer, c, stream⟩
  let (wire, stream) ← readPayload header stream
  if header.payloadBytes = 0 then
    return ⟨.ok (), header, buffer, c, stream⟩
  match c.decodePayload fmt socket header wire buffer with
  | .error text => return ⟨.error text, header, buffer, c, stream⟩
  | .ok (buffer, base) => return ⟨.ok (), header, buffer, c.received socket base, stream⟩

def recvActivation [Add F] (sourcePpRank : Nat) (buffer stream : List β) :
    Except String (Option (Received β F)) := do
  if c.topology.ppSize ≤ sourcePpRank then
    throw "Invalid source PP rank for pipeline communication"
  let sourceSocketIndex ← c.getPipelineSocketIndex sourcePpRank c.myTpRank
  return c.recvOn fmt sourceSocketIndex buffer stream

end NnPipelineCommunicator

/-! ## Floats in bytes -/

namespace WireFormat

variable (fmt : WireFormat β F)

theorem storeFloats_length (xs : List F) : (fmt.storeFloats xs).length = 4 * xs.length := by
  induction xs with
  | nil => rfl
  | cons x xs ih =>
      have hcons : fmt.storeFloats (x :: xs) = fmt.storeF32 x ++ fmt.storeFloats xs := rfl
      rw [hcons, List.length_append, ih, fmt.storeF32_length, List.length_cons]
      ring

theorem loadFloats_append {w : List β} (hw : w.length = 4) (rest : List β) :
    fmt.loadFloats (w ++ rest) = fmt.loadF32 w :: fmt.loadFloats rest := by
  match w, hw with
  | [_, _, _, _], _ => rfl

theorem loadFloats_store_append (xs : List F) (rest : List β) :
    fmt.loadFloats (fmt.storeFloats xs ++ rest) = xs ++ fmt.loadFloats rest := by
  induction xs with
  | nil => rfl
  | cons x xs ih =>
      have hcons : fmt.storeFloats (x :: xs) = fmt.storeF32 x ++ fmt.storeFloats xs := rfl
      rw [hcons, List.append_assoc, loadFloats_append fmt (fmt.storeF32_length x),
        fmt.loadF32_store, ih, List.cons_append]

/-- Floats written to memory are read back. -/
theorem loadFloats_store (xs : List F) : fmt.loadFloats (fmt.storeFloats xs) = xs := by
  have h := fmt.loadFloats_store_append xs []
  simpa [loadFloats] using h

theorem loadFloats_length (bs : List β) : (fmt.loadFloats bs).length = bs.length / 4 := by
  match bs with
  | [] => simp [loadFloats]
  | [_] => simp [loadFloats]
  | [_, _] => simp [loadFloats]
  | [_, _, _] => simp [loadFloats]
  | a :: b :: c :: d :: rest =>
      have ih := loadFloats_length rest
      simp only [loadFloats, List.length_cons, ih]
      omega

theorem loadHalves_length (bs : List β) : (fmt.loadHalves bs).length = bs.length / 2 := by
  match bs with
  | [] => simp [loadHalves]
  | [_] => simp [loadHalves]
  | a :: b :: rest =>
      have ih := loadHalves_length rest
      simp only [loadHalves, List.length_cons, ih]
      omega

/-- Whole words at the start of a buffer do not depend on what follows. -/
theorem loadFloats_take_append (bs rest : List β) :
    (fmt.loadFloats (bs ++ rest)).take (bs.length / 4) = fmt.loadFloats bs := by
  match bs with
  | [] => simp [loadFloats]
  | [_] => simp [loadFloats]
  | [_, _] => simp [loadFloats]
  | [_, _, _] => simp [loadFloats]
  | a :: b :: c :: d :: bs =>
      have ih := loadFloats_take_append bs rest
      have hdiv : (a :: b :: c :: d :: bs).length / 4 = bs.length / 4 + 1 := by
        simp only [List.length_cons]
        omega
      simp only [List.cons_append, loadFloats, hdiv, List.take_succ_cons, ih]

theorem halves_length (d : List F) :
    (d.flatMap fmt.CONVERT_F32_TO_F16).length = 2 * d.length := by
  induction d with
  | nil => rfl
  | cons x d ih =>
      rw [List.flatMap_cons, List.length_append, ih, fmt.f16_length, List.length_cons]
      ring

/-- No encoding takes more bytes than the floats themselves. -/
theorem encode_length_le {src wire : List β} {requested : NnFloatType}
    (h : encodeFromF32 fmt src (selectWireDtype requested src.length) = .ok wire) :
    wire.length ≤ src.length := by
  have hfloats := fmt.loadFloats_length src
  unfold encodeFromF32 at h
  split_ifs at h with hf32 hwords
  · cases h
    exact le_rfl
  · cases hdtype : selectWireDtype requested src.length with
    | unk =>
        rw [hdtype] at h
        cases h
    | f32 => exact absurd hdtype hf32
    | f16 =>
        rw [hdtype] at h
        cases h
        rw [fmt.halves_length]
        omega
    | q40 =>
        rw [hdtype] at h
        cases h
        rw [fmt.q40_length _ (hfloats ▸ selectWireDtype_blocks (.inl hdtype))]
        omega
    | q80 =>
        rw [hdtype] at h
        cases h
        rw [fmt.q80_length _ (hfloats ▸ selectWireDtype_blocks (.inr hdtype))]
        omega

end WireFormat

end Pipeline
end PrefillOpt
