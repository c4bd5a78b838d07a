import PrefillOpt.Graph.Config
import PrefillOpt.Network.Wire

/-!
# ConfigWire — the network configuration on its way to a worker

`NnRootConfigWriter` and `NnWorkerConfigReader`.  The structs of `nn-core.hpp` are taken here as
they lie in memory: every field has its width, and an array has the length its count field says.
-/

namespace PrefillOpt
namespace Network
namespace Wire

open Lib

/-! ## Enumerations -/

/-- An enumeration whose values are sent as the codes of a table. -/
@[reducible] def rawEnum {α : Type} (code : α → NnUint) (all : List α) (default : α)
    (h : ∀ x, ((all.find? fun y => code y = code x).getD default) = x) : Raw α :=
  Raw.via code (fun c => (all.find? fun y => code y = c).getD default) h

/-- `enum NnFloatType`, where `F_UNK` is `-1`. -/
def floatTypeCode : NnFloatType → NnUint
  | .unk => 0xffffffff
  | .f32 => 0
  | .f16 => 1
  | .q40 => 2
  | .q80 => 3

instance : Raw NnFloatType :=
  rawEnum floatTypeCode [.f32, .f16, .q40, .q80] .unk (by intro x; cases x <;> rfl)

inductive NnOpCode where
  | mergeAdd
  | mergeSum
  | embedding
  | invRms
  | rmsNorm
  | matmul
  | rope
  | multiheadAtt
  | gelu
  | silu
  | mul
  | scale
  | cast
  | repeatZ
  | shift
  | softmax
  | matmulArgmax
  | argmaxReduce
  | moeGate
  | pruneTokens
  deriving DecidableEq

def NnOpCode.all : List NnOpCode :=
  [.mergeAdd, .mergeSum, .embedding, .invRms, .rmsNorm, .matmul, .rope, .multiheadAtt, .gelu,
    .silu, .mul, .scale, .cast, .repeatZ, .shift, .softmax, .matmulArgmax, .argmaxReduce, .moeGate,
    .pruneTokens]

/-- The place of an op in `enum NnOpCode`. -/
def opCode (code : NnOpCode) : NnUint :=
  UInt32.ofNat (NnOpCode.all.idxOf code)

instance : Raw NnOpCode :=
  rawEnum opCode NnOpCode.all .mergeAdd (by intro x; cases x <;> rfl)

inductive NnPointerSource where
  | pipe
  | buffer
  deriving DecidableEq

def pointerSourceCode : NnPointerSource → NnUint
  | .pipe => 0
  | .buffer => 1

instance : Raw NnPointerSource :=
  rawEnum pointerSourceCode [.pipe, .buffer] .pipe (by intro x; cases x <;> rfl)

def pointerTypeCode : NnPointerType → NnUint
  | .raw => 0
  | .batch => 1
  | .batchedSlice => 2

instance : Raw NnPointerType :=
  rawEnum pointerTypeCode [.raw, .batch, .batchedSlice] .raw (by intro x; cases x <;> rfl)

def syncTypeCode : NnSyncType → NnUint
  | .withRoot => 0
  | .nodeSlices => 1
  | .nodeSlicesExceptRoot => 2
  | .spKv => 3
  | .cpLogits => 4

instance : Raw NnSyncType :=
  rawEnum syncTypeCode [.withRoot, .nodeSlices, .nodeSlicesExceptRoot, .spKv, .cpLogits] .withRoot
    (by intro x; cases x <;> rfl)

/-! ## Structs that are sent as one block -/

@[ext]
structure NnSize3D where
  floatType : NnFloatType
  z : NnUint
  y : NnUint
  x : NnUint
  length : NnSize
  nBytes : NnSize
  nBytesXY : NnSize
  deriving DecidableEq

/-- Four members of four bytes and three of eight leave no gap between them. -/
instance : Raw NnSize3D :=
  Raw.via (fun s => (s.floatType, s.z, s.y, s.x, s.length, s.nBytes, s.nBytesXY))
    (fun t => ⟨t.1, t.2.1, t.2.2.1, t.2.2.2.1, t.2.2.2.2.1, t.2.2.2.2.2.1, t.2.2.2.2.2.2⟩)
    (fun _ => rfl)

structure NnPointerConfig where
  source : NnPointerSource
  pointerIndex : NnUint
  type : NnPointerType
  deriving DecidableEq

instance : Raw NnPointerConfig :=
  Raw.via (fun p => (p.source, p.pointerIndex, p.type)) (fun t => ⟨t.1, t.2.1, t.2.2⟩)
    (fun _ => rfl)

/-! ## Configurations -/

structure NnPipeConfig where
  name : CString
  size : NnSize3D

structure NnBufferConfig where
  name : CString
  size : NnSize3D

structure NnOpConfig where
  code : NnOpCode
  name : CString
  index : NnUint
  input : NnPointerConfig
  output : NnPointerConfig
  weightSize : NnSize3D
  configSize : NnUint
  config : List.Vector NnByte configSize.toNat

structure NnPreSyncConfig where
  pipeIndex : NnUint

structure NnSyncConfig where
  pipeIndex : NnUint
  syncType : NnSyncType
  spKvKBufferIndex : NnUint
  spKvVBufferIndex : NnUint
  spKvLocalSeqStart : NnUint
  spKvLocalSeqLen : NnUint
  spKvDim0 : NnUint
  spKvPositionPipeIdx : NnUint

structure NnSegmentConfig where
  nOps : NnUint
  ops : List.Vector NnOpConfig nOps.toNat
  nSyncs : NnUint
  syncs : List.Vector NnSyncConfig nSyncs.toNat

structure NnNetConfig where
  nBatches : NnUint
  nNodes : NnUint
  nPipes : NnUint
  pipes : List.Vector NnPipeConfig nPipes.toNat
  nPreSyncs : NnUint
  preSyncs : List.Vector NnPreSyncConfig nPreSyncs.toNat

structure NnNodeConfig where
  nodeIndex : NnUint
  ppRank : NnUint
  tpRank : NnUint
  tpGroupStart : NnUint
  tpGroupEnd : NnUint
  spRank : NnUint
  spGroupStart : NnUint
  spGroupEnd : NnUint
  positionPipeIndex : NnUint
  tokenPipeIndex : NnUint
  xPipeIndex : NnUint
  logitsPipeIndex : NnUint
  nBuffers : NnUint
  buffers : List.Vector NnBufferConfig nBuffers.toNat
  nSegments : NnUint
  segments : List.Vector NnSegmentConfig nSegments.toNat

/-! ## The root's side -/

section Writer

variable (socket : Port)

def writePipe (config : NnPipeConfig) : NetIo Unit := do
  Io.writeRaw socket config.size
  writeString socket config.name

def writePreSync (config : NnPreSyncConfig) : NetIo Unit :=
  Io.writeRaw socket config.pipeIndex

def writeNet (config : NnNetConfig) : NetIo Unit := do
  writeAck socket
  Io.writeRaw socket config.nBatches
  Io.writeRaw socket config.nNodes
  Io.writeRaw socket config.nPipes
  Io.each (writePipe socket) config.pipes.toList
  Io.writeRaw socket config.nPreSyncs
  Io.each (writePreSync socket) config.preSyncs.toList
  readAck socket

def writeBuffer (config : NnBufferConfig) : NetIo Unit := do
  Io.writeRaw socket config.size
  writeString socket config.name

def writeSync (config : NnSyncConfig) : NetIo Unit := do
  Io.writeRaw socket config.pipeIndex
  Io.writeRaw socket config.syncType
  Io.writeRaw socket config.spKvKBufferIndex
  Io.writeRaw socket config.spKvVBufferIndex
  Io.writeRaw socket config.spKvLocalSeqStart
  Io.writeRaw socket config.spKvLocalSeqLen
  Io.writeRaw socket config.spKvDim0
  Io.writeRaw socket config.spKvPositionPipeIdx

def writeOp (config : NnOpConfig) : NetIo Unit := do
  Io.writeRaw socket config.code
  Io.writeRaw socket config.index
  Io.writeRaw socket config.weightSize
  Io.writeRaw socket config.configSize
  writeString socket config.name
  Io.writeRaw socket config.input
  Io.writeRaw socket config.output
  if config.configSize > 0 then
    Io.write socket config.config.toList

def writeSegment (config : NnSegmentConfig) : NetIo Unit := do
  Io.writeRaw socket config.nSyncs
  Io.writeRaw socket config.nOps
  Io.each (writeSync socket) config.syncs.toList
  Io.each (writeOp socket) config.ops.toList

def writeNode (config : NnNodeConfig) : NetIo Unit := do
  writeAck socket
  Io.writeRaw socket config.nodeIndex
  Io.writeRaw socket config.ppRank
  Io.writeRaw socket config.tpRank
  Io.writeRaw socket config.tpGroupStart
  Io.writeRaw socket config.tpGroupEnd
  Io.writeRaw socket config.spRank
  Io.writeRaw socket config.spGroupStart
  Io.writeRaw socket config.spGroupEnd
  Io.writeRaw socket config.positionPipeIndex
  Io.writeRaw socket config.tokenPipeIndex
  Io.writeRaw socket config.xPipeIndex
  Io.writeRaw socket config.logitsPipeIndex
  Io.writeRaw socket config.nBuffers
  Io.writeRaw socket config.nSegments
  Io.each (writeBuffer socket) config.buffers.toList
  Io.each (writeSegment socket) config.segments.toList
  readAck socket

end Writer

/-! ## The worker's side -/

section Reader

variable (socket : Port)

def readPipe : NetIo NnPipeConfig := do
  let size ← Io.readRaw NnSize3D socket
  let name ← readString socket
  return ⟨name, size⟩

def readPreSync : NetIo NnPreSyncConfig := do
  let pipeIndex ← Io.readRaw NnUint socket
  return ⟨pipeIndex⟩

def readNet : NetIo NnNetConfig := do
  readAck socket
  let nBatches ← Io.readRaw NnUint socket
  let nNodes ← Io.readRaw NnUint socket
  let nPipes ← Io.readRaw NnUint socket
  let pipes ← Io.times (readPipe socket) nPipes.toNat
  let nPreSyncs ← Io.readRaw NnUint socket
  let preSyncs ← Io.times (readPreSync socket) nPreSyncs.toNat
  writeAck socket
  return ⟨nBatches, nNodes, nPipes, pipes, nPreSyncs, preSyncs⟩

def readBuffer : NetIo NnBufferConfig := do
  let size ← Io.readRaw NnSize3D socket
  let name ← readString socket
  return ⟨name, size⟩

def readSync : NetIo NnSyncConfig := do
  let pipeIndex ← Io.readRaw NnUint socket
  let syncType ← Io.readRaw NnSyncType socket
  let spKvKBufferIndex ← Io.readRaw NnUint socket
  let spKvVBufferIndex ← Io.readRaw NnUint socket
  let spKvLocalSeqStart ← Io.readRaw NnUint socket
  let spKvLocalSeqLen ← Io.readRaw NnUint socket
  let spKvDim0 ← Io.readRaw NnUint socket
  let spKvPositionPipeIdx ← Io.readRaw NnUint socket
  return ⟨pipeIndex, syncType, spKvKBufferIndex, spKvVBufferIndex, spKvLocalSeqStart,
    spKvLocalSeqLen, spKvDim0, spKvPositionPipeIdx⟩

/-- The config of an op is there only where its size is not zero. -/
def readOpBytes (configSize : NnUint) : NetIo (List NnByte) :=
  if configSize > 0 then Io.read socket configSize.toNat else pure []

def readOp : NetIo NnOpConfig := do
  let code ← Io.readRaw NnOpCode socket
  let index ← Io.readRaw NnUint socket
  let weightSize ← Io.readRaw NnSize3D socket
  let configSize ← Io.readRaw NnUint socket
  let name ← readString socket
  let input ← Io.readRaw NnPointerConfig socket
  let output ← Io.readRaw NnPointerConfig socket
  let config ← readOpBytes socket configSize
  return ⟨code, name, index, input, output, weightSize, configSize,
    byteArray configSize.toNat config⟩

def readSegment : NetIo NnSegmentConfig := do
  let nSyncs ← Io.readRaw NnUint socket
  let nOps ← Io.readRaw NnUint socket
  let syncs ← Io.times (readSync socket) nSyncs.toNat
  let ops ← Io.times (readOp socket) nOps.toNat
  return ⟨nOps, ops, nSyncs, syncs⟩

def readNode : NetIo NnNodeConfig := do
  readAck socket
  let nodeIndex ← Io.readRaw NnUint socket
  let ppRank ← Io.readRaw NnUint socket
  let tpRank ← Io.readRaw NnUint socket
  let tpGroupStart ← Io.readRaw NnUint socket
  let tpGroupEnd ← Io.readRaw NnUint socket
  let spRank ← Io.readRaw NnUint socket
  let spGroupStart ← Io.readRaw NnUint socket
  let spGroupEnd ← Io.readRaw NnUint socket
  let positionPipeIndex ← Io.readRaw NnUint socket
  let tokenPipeIndex ← Io.readRaw NnUint socket
  let xPipeIndex ← Io.readRaw NnUint socket
  let logitsPipeIndex ← Io.readRaw NnUint socket
  let nBuffers ← Io.readRaw NnUint socket
  let nSegments ← Io.readRaw NnUint socket
  let buffers ← Io.times (readBuffer socket) nBuffers.toNat
  let segments ← Io.times (readSegment socket) nSegments.toNat
  writeAck socket
  return ⟨nodeIndex, ppRank, tpRank, tpGroupStart, tpGroupEnd, spRank, spGroupStart, spGroupEnd,
    positionPipeIndex, tokenPipeIndex, xPipeIndex, logitsPipeIndex, nBuffers, buffers, nSegments,
    segments⟩

end Reader

/-! ## What arrives -/

section Sent

/-- Only the names depend on a length that is computed while they are written. -/
def NnPipeConfig.sent (config : NnPipeConfig) : NnPipeConfig :=
  { config with name := config.name.sent }

def NnBufferConfig.sent (config : NnBufferConfig) : NnBufferConfig :=
  { config with name := config.name.sent }

def NnOpConfig.sent (config : NnOpConfig) : NnOpConfig :=
  { config with name := config.name.sent }

def NnSegmentConfig.sent (config : NnSegmentConfig) : NnSegmentConfig :=
  { config with ops := config.ops.map NnOpConfig.sent }

def NnNetConfig.sent (config : NnNetConfig) : NnNetConfig :=
  { config with pipes := config.pipes.map NnPipeConfig.sent }

def NnNodeConfig.sent (config : NnNodeConfig) : NnNodeConfig :=
  { config with
    buffers := config.buffers.map NnBufferConfig.sent
    segments := config.segments.map NnSegmentConfig.sent }

end Sent

section Talks

variable (a b : Port)

theorem talks_pipe (config : NnPipeConfig) :
    Talks a b (writePipe a config) (readPipe b) () config.sent := by
  refine (Talks.raw a b config.size).bind ?_
  exact (talks_string a b config.name).bind_pure (NnPipeConfig.mk · config.size)

theorem talks_preSync (config : NnPreSyncConfig) :
    Talks a b (writePreSync a config) (readPreSync b) () config :=
  (Talks.raw a b config.pipeIndex).bind_pure NnPreSyncConfig.mk

theorem talks_buffer (config : NnBufferConfig) :
    Talks a b (writeBuffer a config) (readBuffer b) () config.sent := by
  refine (Talks.raw a b config.size).bind ?_
  exact (talks_string a b config.name).bind_pure (NnBufferConfig.mk · config.size)

theorem talks_sync (config : NnSyncConfig) :
    Talks a b (writeSync a config) (readSync b) () config := by
  iterate 7 refine (Talks.raw a b _).bind ?_
  exact (Talks.raw a b config.spKvPositionPipeIdx).bind_pure _

theorem talks_opBytes (config : NnOpConfig) :
    Talks a b
      (if config.configSize > 0 then Io.write a config.config.toList else pure () : NetIo Unit)
      (readOpBytes b config.configSize) () config.config.toList := by
  unfold readOpBytes
  by_cases h : config.configSize > 0
  · rw [if_pos h, if_pos h]
    exact .toRight config.config.toList_length
  · have hsize : config.configSize.toNat = 0 := by
      have hle : config.configSize.toNat ≤ 0 := Nat.le_of_not_lt h
      exact Nat.le_zero.1 hle
    have hnil : config.config.toList = [] :=
      List.length_eq_zero_iff.1 (config.config.toList_length.trans hsize)
    rw [if_neg h, if_neg h, hnil]
    exact .pure () []

theorem talks_op (config : NnOpConfig) :
    Talks a b (writeOp a config) (readOp b) () config.sent := by
  iterate 4 refine (Talks.raw a b _).bind ?_
  refine (talks_string a b config.name).bind ?_
  iterate 2 refine (Talks.raw a b _).bind ?_
  have h := (talks_opBytes a b config).bind_pure fun bytes =>
    ({ config.sent with config := byteArray config.configSize.toNat bytes } : NnOpConfig)
  rwa [byteArray_toList] at h

theorem talks_segment (config : NnSegmentConfig) :
    Talks a b (writeSegment a config) (readSegment b) () config.sent := by
  iterate 2 refine (Talks.raw a b _).bind ?_
  have hsyncs := Talks.each_times id config.syncs fun sync _ => talks_sync a b sync
  rw [List.Vector.map_id] at hsyncs
  refine hsyncs.bind ?_
  exact (Talks.each_times NnOpConfig.sent config.ops fun op _ => talks_op a b op).bind_pure
    (NnSegmentConfig.mk config.nOps · config.nSyncs config.syncs)

theorem talks_net (config : NnNetConfig) :
    Talks a b (writeNet a config) (readNet b) () config.sent := by
  refine (talks_ack a b).bind ?_
  iterate 3 refine (Talks.raw a b _).bind ?_
  refine (Talks.each_times NnPipeConfig.sent config.pipes fun pipe _ => talks_pipe a b pipe).bind ?_
  refine (Talks.raw a b config.nPreSyncs).bind ?_
  have hsyncs := Talks.each_times id config.preSyncs fun sync _ => talks_preSync a b sync
  rw [List.Vector.map_id] at hsyncs
  refine hsyncs.bind ?_
  exact (talks_ack b a).swap.bind_pure fun _ => config.sent

theorem talks_node (config : NnNodeConfig) :
    Talks a b (writeNode a config) (readNode b) () config.sent := by
  refine (talks_ack a b).bind ?_
  iterate 14 refine (Talks.raw a b _).bind ?_
  refine (Talks.each_times NnBufferConfig.sent config.buffers fun buffer _ =>
    talks_buffer a b buffer).bind ?_
  refine (Talks.each_times NnSegmentConfig.sent config.segments fun segment _ =>
    talks_segment a b segment).bind ?_
  exact (talks_ack b a).swap.bind_pure fun _ => config.sent

end Talks

/-! ## Short names arrive whole -/

section Short

def NnSegmentConfig.ShortNames (config : NnSegmentConfig) : Prop :=
  ∀ op ∈ config.ops.toList, op.name.Short

def NnNetConfig.ShortNames (config : NnNetConfig) : Prop :=
  ∀ pipe ∈ config.pipes.toList, pipe.name.Short

structure NnNodeConfig.ShortNames (config : NnNodeConfig) : Prop where
  buffers : ∀ buffer ∈ config.buffers.toList, buffer.name.Short
  segments : ∀ segment ∈ config.segments.toList, segment.ShortNames

theorem map_eq_self {α : Type} {n : Nat} {f : α → α} {v : List.Vector α n}
    (h : ∀ x ∈ v.toList, f x = x) : v.map f = v := by
  apply List.Vector.toList_injective
  rw [List.Vector.toList_map]
  calc v.toList.map f
      = v.toList.map id := List.map_congr_left h
    _ = v.toList := List.map_id _

theorem NnSegmentConfig.sent_eq {config : NnSegmentConfig} (h : config.ShortNames) :
    config.sent = config := by
  have hops : config.ops.map NnOpConfig.sent = config.ops :=
    map_eq_self fun op hop => by rw [NnOpConfig.sent, CString.sent_eq (h op hop)]
  rw [NnSegmentConfig.sent, hops]

theorem NnNetConfig.sent_eq {config : NnNetConfig} (h : config.ShortNames) :
    config.sent = config := by
  have hpipes : config.pipes.map NnPipeConfig.sent = config.pipes :=
    map_eq_self fun pipe hpipe => by rw [NnPipeConfig.sent, CString.sent_eq (h pipe hpipe)]
  rw [NnNetConfig.sent, hpipes]

theorem NnNodeConfig.sent_eq {config : NnNodeConfig} (h : config.ShortNames) :
    config.sent = config := by
  have hbuffers : config.buffers.map NnBufferConfig.sent = config.buffers :=
    map_eq_self fun buffer hbuffer => by
      rw [NnBufferConfig.sent, CString.sent_eq (h.buffers buffer hbuffer)]
  have hsegments : config.segments.map NnSegmentConfig.sent = config.segments :=
    map_eq_self fun segment hsegment => NnSegmentConfig.sent_eq (h.segments segment hsegment)
  rw [NnNodeConfig.sent, hbuffers, hsegments]

end Short

/-! ## The whole exchange -/

/-- What a node returns from the exchange: a worker its configuration, the root nothing. -/
abbrev Configured := Option (NnNetConfig × NnNodeConfig)

/-- What `writeToWorkers` does for one worker. -/
def writeConfig (nodeIndex : Nat) (netConfig : NnNetConfig) (nodeConfig : NnNodeConfig) :
    NetIo Unit := do
  let socketIndex := nodeIndex - 1
  writeNet (0, socketIndex) netConfig
  writeNode (0, socketIndex) nodeConfig

def readConfig (node : Nat) : NetIo Configured := do
  let netConfig ← readNet (node, ROOT_SOCKET_INDEX)
  let nodeConfig ← readNode (node, ROOT_SOCKET_INDEX)
  return some (netConfig, nodeConfig)

theorem talks_config (w : Nat) (netConfig : NnNetConfig) (nodeConfig : NnNodeConfig) :
    Talks (0, w - 1) (w, ROOT_SOCKET_INDEX) (writeConfig w netConfig nodeConfig) (readConfig w)
      () (some (netConfig.sent, nodeConfig.sent)) := by
  refine (talks_net _ _ netConfig).bind ?_
  exact (talks_node _ _ nodeConfig).bind_pure fun node => some (netConfig.sent, node)

/-- The root runs `root`, the nodes of `ws` read their configuration, nobody else does anything. -/
def configStart (root : NetIo Unit) (ws : List Nat) :
    Lib.Config Party Port NnByte (Except String Configured) where
  proc p :=
    if p = (0, 0) then (root >>= fun _ => pure none : NetIo Configured).run
    else if p.2 = 0 ∧ p.1 ∈ ws then (readConfig p.1).run
    else .ret (.ok none)
  sent _ := []

/-- Every node of `ws` has the configuration `net`, `nodes w`. -/
def configEnd (ws : List Nat) (netConfig : NnNetConfig) (nodeConfigs : Nat → NnNodeConfig)
    (p : Party) : Except String Configured :=
  if p.2 = 0 ∧ p.1 ∈ ws then .ok (some (netConfig, nodeConfigs p.1)) else .ok none

theorem config_completes (cap : Port → Nat) (netConfig : NnNetConfig)
    (nodeConfigs : Nat → NnNodeConfig) {ws : List Nat} (hnodup : ws.Nodup)
    (hws : ∀ w ∈ ws, w ≠ 0) :
    Completes (mainNet cap)
      (configStart (Io.each (fun w => writeConfig w netConfig (nodeConfigs w)) ws) ws)
      (configEnd ws netConfig.sent fun w => (nodeConfigs w).sent) := by
  have hroot : (0 : Nat) ∉ ws := fun h => hws 0 h rfl
  have hend : configEnd ws netConfig.sent (fun w => (nodeConfigs w).sent) (0, 0) = .ok none := by
    simp [configEnd, hroot]
  have hstart : (configStart (Io.each (fun w => writeConfig w netConfig (nodeConfigs w)) ws)
      ws).proc (0, 0)
      = (Io.each (fun w => writeConfig w netConfig (nodeConfigs w)) ws >>= fun _ => pure none :
          NetIo Configured).run := by
    simp only [configStart, if_true]
  refine (rootHub cap hnodup hws).completes rfl hstart hend ?_ ?_
  · intro w hw
    have hw₀ : ((w, 0) : Party) ≠ (0, 0) := fun h => hws w hw (congrArg Prod.fst h)
    refine ⟨readConfig w, some (netConfig.sent, (nodeConfigs w).sent), ?_, ?_, talks_config ..⟩
    · simp [configStart, hw₀, hw]
    · simp [configEnd, hw]
  · intro p hp hps
    have hidle : ¬ (p.2 = 0 ∧ p.1 ∈ ws) := fun h => hps p.1 h.2 (Prod.ext rfl h.1)
    simp [configStart, configEnd, hp, hidle]

/-- One worker gets the configuration that the root writes for it, field by field; every byte that
is sent is read, and neither side is left waiting, whatever the links can hold. -/
theorem config_survives_wire (cap : Port → Nat) (w : Nat) (netConfig : NnNetConfig)
    (nodeConfig : NnNodeConfig) (hnet : netConfig.ShortNames) (hnode : nodeConfig.ShortNames) :
    Completes (mainNet cap)
      (configStart (writeConfig (w + 1) netConfig nodeConfig) [w + 1])
      (configEnd [w + 1] netConfig fun _ => nodeConfig) := by
  have h := config_completes cap netConfig (fun _ => nodeConfig) (List.nodup_singleton (w + 1))
    (by simp)
  rw [NnNetConfig.sent_eq hnet, NnNodeConfig.sent_eq hnode] at h
  simpa [Io.each] using h

section Runs

private theorem replicate_noNul (n : Nat) : (0 : NnByte) ∉ List.replicate n 88 := by
  simp

/-- A name of `n` letters `X`. -/
def nameOf (n : Nat) : CString :=
  ⟨List.replicate n 88, replicate_noNul n⟩

def noSize : NnSize3D :=
  ⟨.unk, 0, 0, 0, 0, 0, 0⟩

/-- A network of two nodes with one pipe. -/
def onePipe (name : CString) : NnNetConfig :=
  ⟨1, 2, 1, ⟨name, noSize⟩ ::ᵥ .nil, 0, .nil⟩

/-- A node with one segment, which has one op and no syncs. -/
def oneOp (name : CString) : NnNodeConfig :=
  ⟨1, 0, 0, 0, 1, 0, 0, 1, 0, 0, 0, 0, 0, .nil, 1,
    ⟨1, ⟨.cast, name, 0, ⟨.pipe, 0, .batch⟩, ⟨.pipe, 0, .batch⟩, noSize, 1, 7 ::ᵥ .nil⟩ ::ᵥ .nil,
      0, .nil⟩ ::ᵥ .nil⟩

theorem nameOf_short {n : Nat} (h : n + 1 < 2 ^ 32) : (nameOf n).Short := by
  rw [CString.Short, nameOf, List.length_replicate]
  exact h

theorem onePipe_short {name : CString} (h : name.Short) : (onePipe name).ShortNames := by
  intro pipe hpipe
  rw [List.mem_singleton.1 hpipe]
  exact h

theorem oneOp_short {name : CString} (h : name.Short) : (oneOp name).ShortNames where
  buffers _ hbuffer := absurd hbuffer List.not_mem_nil
  segments segment hsegment op hop := by
    rw [List.mem_singleton.1 hsegment] at hop
    rw [List.mem_singleton.1 hop]
    exact h

theorem config_survives_wire_onePipe :
    Completes (mainNet fun _ => 0)
      (configStart (writeConfig 1 (onePipe (nameOf 1)) (oneOp (nameOf 2))) [1])
      (configEnd [1] (onePipe (nameOf 1)) fun _ => oneOp (nameOf 2)) :=
  config_survives_wire (fun _ => 0) 0 _ _ (onePipe_short (nameOf_short (by decide)))
    (oneOp_short (nameOf_short (by decide)))

theorem nameOf_sent_ne {n : Nat} (hn : n + 1 = 2 ^ 32) : (nameOf n).sent ≠ nameOf n := by
  intro h
  have hlen : (nameOf n).sent.chars.length = n := by
    rw [h]
    exact List.length_replicate
  simp only [CString.sent, CString.take, stringBytes, nameOf, List.length_take,
    List.length_replicate, UInt32.toNat_ofNat'] at hlen
  omega

/-- A pipe whose name is cut short has another name at the worker. -/
theorem not_completes_of_sent_ne {name : CString} (hname : name.sent ≠ name)
    (node : NnNodeConfig) :
    ¬ Completes (mainNet fun _ => 0) (configStart (writeConfig 1 (onePipe name) node) [1])
      (configEnd [1] (onePipe name) fun _ => node) := by
  intro hclaim
  have hcode := config_completes (fun _ => 0) (onePipe name) (fun _ => node)
    (List.nodup_singleton 1) (by simp)
  simp only [Io.each, bind_pure_unit] at hcode
  have hdone := hclaim.eq_done hcode.reach_done (Completes.done_final _)
  have hworker := Prog.ret.inj (congrFun (congrArg Config.proc hdone) (1, 0))
  simp only [configEnd, List.mem_singleton, and_self, if_true, Except.ok.injEq, Option.some.injEq,
    Prod.mk.injEq] at hworker
  have hpipes := congrArg (fun config : NnNetConfig => config.pipes.toList.map NnPipeConfig.name)
    hworker.1
  exact hname (List.head_eq_of_cons_eq hpipes)

/-- A name whose length with the final zero is `2 ^ 32` is sent as an empty array. -/
theorem longName_lost :
    ¬ Completes (mainNet fun _ => 0)
      (configStart (writeConfig 1 (onePipe (nameOf (2 ^ 32 - 1))) (oneOp (nameOf 1))) [1])
      (configEnd [1] (onePipe (nameOf (2 ^ 32 - 1))) fun _ => oneOp (nameOf 1)) :=
  not_completes_of_sent_ne (nameOf_sent_ne (by decide)) (oneOp (nameOf 1))

end Runs

end Wire
end Network
end PrefillOpt
