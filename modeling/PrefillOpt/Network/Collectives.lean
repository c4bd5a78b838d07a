import PrefillOpt.Lib.Memory
import PrefillOpt.Network.Sockets
import PrefillOpt.Topology

/-!
# Collectives — the tensor-parallel synchronisations

`syncNodeSlicesBatched`, `syncNodeSlices_ringAllReduce`, `syncNodeSlices_starAllReduce`,
`syncNodeSlices`, `syncWithRoot` and the part of `NnNetworkNodeSynchronizer::sync` that chooses
between them.

A cell is what one element of the pipe is on the wire; sizes are counted in cells of `cellBytes`
bytes (4 for exact `F_32` numbers, 1 for raw bytes).  The threads of a node share its pipe, so a
thread returns the log of its stores, and the log of a node is that of its threads.
-/

namespace PrefillOpt
namespace Network

open Lib

variable {β : Type}

/-! ## The batched all-to-all -/

/-- The arguments of `syncNodeSlicesBatched` on one thread, but for the pipe itself. -/
structure BatchedCall where
  onlyFromWorkerToRoot : Bool
  /-- `network->nSockets` -/
  networkSockets : Nat
  nodeIndex : Nat
  tpGroupStart : Nat
  tpGroupEnd : Nat
  rowBytes : Nat
  batchSize : Nat
  nThreads : Nat
  threadIndex : Nat
  deriving DecidableEq, Repr

/-- `CHUNK`, 32 KiB, in cells. -/
def chunkCells (cellBytes : Nat) : Nat :=
  32 * 1024 / cellBytes

namespace BatchedCall

variable (c : BatchedCall)

def nNodes : Nat := c.tpGroupEnd - c.tpGroupStart

def isWorker : Bool := c.nodeIndex ≠ 0

def nSockets : Nat := if c.onlyFromWorkerToRoot && c.isWorker then 1 else c.networkSockets

def nSocketsPerThread : Nat :=
  c.nSockets / c.nThreads + if c.threadIndex < c.nSockets % c.nThreads then 1 else 0

def sliceBytes : Nat := c.rowBytes / c.nNodes

def localIndex : Nat := c.nodeIndex - c.tpGroupStart

def packBytes : Nat := c.batchSize * c.sliceBytes

def doSend : Bool := !c.onlyFromWorkerToRoot || c.isWorker

def doRecv : Bool := !c.onlyFromWorkerToRoot || !c.isWorker

def socketIndex (i : Nat) : Nat := c.threadIndex + i * c.nThreads

def sliceIndex (i : Nat) : Nat :=
  if c.localIndex ≤ c.socketIndex i then c.socketIndex i + 1 else c.socketIndex i

/-- The own slice of every row, packed. -/
def pack (pipe sendBuf : Mem β) : Mem β :=
  sendBuf.stores ((List.range c.batchSize).map fun b =>
    (b * c.sliceBytes, pipe.slice (b * c.rowBytes + c.localIndex * c.sliceBytes) c.sliceBytes))

/-- Turns of the loop `for (off = 0; off < packBytes; off += CHUNK)`. -/
def nChunks (chunk : Nat) : Nat := (c.packBytes + chunk - 1) / chunk

/-- `n`, the cells of turn `k`. -/
def chunkLen (chunk k : Nat) : Nat :=
  if c.packBytes - k * chunk < chunk then c.packBytes - k * chunk else chunk

/-- One turn: write the chunk to every socket of the thread, then read one from each. -/
def exchangeChunk (chunk : Nat) (sendBuf : Mem β) (k : Nat) (recvBuf : Mem β) :
    Prog Port β (Mem β) := do
  let off := k * chunk
  let n := c.chunkLen chunk k
  if c.doSend then
    Prog.writeMany ((List.range c.nSocketsPerThread).map fun i =>
      ((c.nodeIndex, c.socketIndex i), sendBuf.slice off n))
  if c.doRecv then
    let got ← Prog.readMany ((List.range c.nSocketsPerThread).map fun i =>
      ((c.nodeIndex, c.socketIndex i), n))
    pure (recvBuf.stores ((List.range c.nSocketsPerThread).map fun i =>
      (i * c.packBytes + off, got (c.nodeIndex, c.socketIndex i))))
  else pure recvBuf

/-- The received slices, row by row. -/
def unpack (recvBuf : Mem β) : Mem.Log β :=
  (List.range c.nSocketsPerThread).flatMap fun i => (List.range c.batchSize).map fun b =>
    (b * c.rowBytes + c.sliceIndex i * c.sliceBytes,
      recvBuf.slice (i * c.packBytes + b * c.sliceBytes) c.sliceBytes)

end BatchedCall

/-- `sendBuf` and `recvBuf` are thread-local vectors that keep their contents between calls. -/
def syncNodeSlicesBatched (cellBytes : Nat) (c : BatchedCall) (sendBuf recvBuf pipe : Mem β) :
    Prog Port β (Mem.Log β) :=
  if c.nNodes ≤ 1 then pure []
  else if c.nSocketsPerThread = 0 then pure []
  else do
    let sendBuf := if c.doSend then c.pack pipe sendBuf else sendBuf
    let chunk := chunkCells cellBytes
    let recvBuf ← Prog.loop (c.exchangeChunk chunk sendBuf) (c.nChunks chunk) recvBuf
    pure (if c.doRecv then c.unpack recvBuf else [])

/-! ## All-reduce of one row -/

section AllReduce

variable [Add β]

/-- Add a block to the block at an offset; the source goes through it 256 elements at a time. -/
def reduceSum (result : Mem β) (off : Nat) (input : List β) : Mem β :=
  result.store off (List.zipWith (· + ·) (result.slice off input.length) input)

/-- The arguments the row collectives share. -/
structure RowCall where
  onlyFromWorkerToRoot : Bool
  nodeIndex : Nat
  tpGroupStart : Nat
  tpGroupEnd : Nat
  nBytes : Nat
  threadIndex : Nat
  deriving DecidableEq, Repr

namespace RowCall

variable (c : RowCall)

def nNodes : Nat := c.tpGroupEnd - c.tpGroupStart

def localNodeIndex : Nat := c.nodeIndex - c.tpGroupStart

def sliceBytes : Nat := c.nBytes / c.nNodes

def sendToNode : Nat := c.tpGroupStart + (c.localNodeIndex + 1) % c.nNodes

def recvFromNode : Nat := c.tpGroupStart + (c.localNodeIndex + c.nNodes - 1) % c.nNodes

/-- `localNodeIndex - step + nNodes` does not wrap: `step < nNodes`. -/
def sendChunkIndex (step : Nat) : Nat := (c.localNodeIndex + c.nNodes - step) % c.nNodes

def recvChunkIndex (step : Nat) : Nat := (c.localNodeIndex + c.nNodes - step - 1) % c.nNodes

/-- Phase 1: send one chunk, receive one into a scratch buffer, add it. -/
def reduceScatterStep (step : Nat) (buffer : Mem β) : Prog Port β (Mem β) := do
  let sendSocket := port c.nodeIndex c.sendToNode
  let recvSocket := port c.nodeIndex c.recvFromNode
  let out := buffer.slice (c.sliceBytes * c.sendChunkIndex step) c.sliceBytes
  let temp ←
    if c.localNodeIndex % 2 = 0 then do
      Prog.write1 sendSocket out
      Prog.read1 recvSocket c.sliceBytes
    else do
      let temp ← Prog.read1 recvSocket c.sliceBytes
      Prog.write1 sendSocket out
      pure temp
  if c.sliceBytes * c.recvChunkIndex step + c.sliceBytes ≤ c.nBytes then
    pure (reduceSum buffer (c.sliceBytes * c.recvChunkIndex step) temp)
  else pure buffer

/-- Phase 2: send one chunk, receive one in place. -/
def allGatherStep (step : Nat) (buffer : Mem β) : Prog Port β (Mem β) :=
  let sendSocket := port c.nodeIndex c.sendToNode
  let recvSocket := port c.nodeIndex c.recvFromNode
  let sendOff := c.sliceBytes * c.sendChunkIndex step
  let recvOff := c.sliceBytes * c.recvChunkIndex step
  if c.localNodeIndex % 2 = 0 then do
    Prog.write1 sendSocket (buffer.slice sendOff c.sliceBytes)
    let xs ← Prog.read1 recvSocket c.sliceBytes
    pure (buffer.store recvOff xs)
  else do
    let xs ← Prog.read1 recvSocket c.sliceBytes
    let buffer := buffer.store recvOff xs
    Prog.write1 sendSocket (buffer.slice sendOff c.sliceBytes)
    pure buffer

end RowCall

def syncNodeSlices_ringAllReduce (c : RowCall) (buffer : Mem β) : Prog Port β (Mem.Log β) :=
  if c.threadIndex ≠ 0 then pure []
  else if c.nNodes ≤ 1 then pure []
  else do
    let buffer ← Prog.loop c.reduceScatterStep (c.nNodes - 1) buffer
    if c.onlyFromWorkerToRoot then pure [(0, buffer.slice 0 c.nBytes)]
    else do
      let buffer ← Prog.loop c.allGatherStep (c.nNodes - 1) buffer
      pure [(0, buffer.slice 0 c.nBytes)]

def syncNodeSlices_starAllReduce (c : RowCall) (buffer : Mem β) : Prog Port β (Mem.Log β) :=
  if c.threadIndex ≠ 0 then pure []
  else if c.nNodes ≤ 1 then pure []
  else
    let rootNode := c.tpGroupStart
    let workerSocket := fun w => port c.nodeIndex (c.tpGroupStart + 1 + w)
    let workers := List.range (c.nNodes - 1)
    if c.nodeIndex = rootNode then do
      let gathered ← Prog.readMany (workers.map fun w => (workerSocket w, c.nBytes))
      let buffer := workers.foldl (fun buf w => reduceSum buf 0 (gathered (workerSocket w))) buffer
      if c.onlyFromWorkerToRoot then pure [(0, buffer.slice 0 c.nBytes)]
      else do
        Prog.writeMany (workers.map fun w => (workerSocket w, buffer.slice 0 c.nBytes))
        pure [(0, buffer.slice 0 c.nBytes)]
    else do
      Prog.write1 (port c.nodeIndex rootNode) (buffer.slice 0 c.nBytes)
      if c.onlyFromWorkerToRoot then pure []
      else do
        let xs ← Prog.read1 (port c.nodeIndex rootNode) c.nBytes
        pure [(0, xs)]

inductive CollectiveType where
  | auto
  | star
  | ring
  deriving DecidableEq, Repr

/-- The collective that is used in the end: the ring needs a large enough group and an even
cut, and is never used towards the root only. -/
def effectiveCollective (cellBytes : Nat) (c : RowCall) (collectiveType : CollectiveType) :
    CollectiveType :=
  let ringTopologySupported := 8 ≤ c.nNodes ∧ c.nBytes * cellBytes % c.nNodes = 0
  let effective :=
    if collectiveType = .auto then
      if c.onlyFromWorkerToRoot = false ∧ ringTopologySupported then .ring else .star
    else collectiveType
  if effective = .ring ∧ (¬ ringTopologySupported ∨ c.onlyFromWorkerToRoot = true) then .star
  else effective

/-- The source first throws if the node is outside its group; `SliceSyncCall.group` only yields
groups of the node. -/
def syncNodeSlices (cellBytes : Nat) (collectiveType : CollectiveType) (c : RowCall)
    (buffer : Mem β) : Prog Port β (Mem.Log β) :=
  if c.nNodes ≤ 1 ∨ c.nBytes = 0 then pure []
  else if effectiveCollective cellBytes c collectiveType = .ring then
    syncNodeSlices_ringAllReduce c buffer
  else syncNodeSlices_starAllReduce c buffer

/-- The log with which a thread has returned. -/
def resultLog (d : Config Party Port β (Mem.Log β)) (p : Party) : Mem.Log β :=
  match d.proc p with
  | .ret log => log
  | _ => []

/-! ## The choice in `sync` -/

/-- The switches and the node that `sync` looks at for a slice synchronisation. -/
structure SliceSyncCall where
  /-- `DLLAMA_NO_BATCHED_SYNC` -/
  batchedSyncOff : Bool
  /-- `shouldSkipTp1NoopSyncs()` -/
  skipTp1NoopSyncs : Bool
  collectiveType : CollectiveType
  /-- `SYNC_NODE_SLICES_EXCEPT_ROOT` instead of `SYNC_NODE_SLICES` -/
  exceptRoot : Bool
  netNodes : Nat
  node : NnNodePlacement
  /-- `batchBytes`, the size of one pipe row -/
  rowBytes : Nat
  batchSize : Nat
  nThreads : Nat
  threadIndex : Nat

namespace SliceSyncCall

variable (c : SliceSyncCall)

def declaredTpSize : Nat := c.node.tpGroupEnd - c.node.tpGroupStart

/-- The declared group, or the whole network if it is not a group of this node. -/
def group : Nat × Nat :=
  if c.node.tpGroupEnd ≤ c.node.tpGroupStart ∨ c.netNodes < c.node.tpGroupEnd ∨
      c.node.globalRank < c.node.tpGroupStart ∨ c.node.tpGroupEnd ≤ c.node.globalRank then
    (0, c.netNodes)
  else (c.node.tpGroupStart, c.node.tpGroupEnd)

def batchedCall : BatchedCall where
  onlyFromWorkerToRoot := c.exceptRoot
  networkSockets := c.netNodes - 1
  nodeIndex := c.node.globalRank
  tpGroupStart := c.group.1
  tpGroupEnd := c.group.2
  rowBytes := c.rowBytes
  batchSize := c.batchSize
  nThreads := c.nThreads
  threadIndex := c.threadIndex

def rowCall : RowCall where
  onlyFromWorkerToRoot := c.exceptRoot
  nodeIndex := c.node.globalRank
  tpGroupStart := c.group.1
  tpGroupEnd := c.group.2
  nBytes := c.rowBytes
  threadIndex := c.threadIndex

/-- One turn of the row loop, on the row as the stores so far have left it. -/
def syncRow (cellBytes : Nat) (pipe : Mem β) (batchIndex : Nat) (log : Mem.Log β) :
    Prog Port β (Mem.Log β) := do
  let pipeBatch : Mem β := fun i => pipe.stores log (batchIndex * c.rowBytes + i)
  let stores ← syncNodeSlices cellBytes c.collectiveType c.rowCall pipeBatch
  pure (log ++ stores.map fun w => (batchIndex * c.rowBytes + w.1, w.2))

end SliceSyncCall

/-- `sync` for a `SYNC_NODE_SLICES` or `SYNC_NODE_SLICES_EXCEPT_ROOT`. -/
def syncSlices (cellBytes : Nat) (c : SliceSyncCall) (sendBuf recvBuf pipe : Mem β) :
    Prog Port β (Mem.Log β) :=
  if c.skipTp1NoopSyncs = true ∧ c.declaredTpSize ≤ 1 then pure []
  else if c.batchedSyncOff = false ∧ 1 < c.batchSize then
    syncNodeSlicesBatched cellBytes c.batchedCall sendBuf recvBuf pipe
  else Prog.loop (c.syncRow cellBytes pipe) c.batchSize []

end AllReduce

end Network
end PrefillOpt
