import PrefillOpt.Core
import PrefillOpt.Lib.Memory
import PrefillOpt.Network.Sockets
import PrefillOpt.Topology

/-!
# SpKv — the key/value exchange of a sequence-parallel group

The `SYNC_SP_KV` part of `NnNetworkNodeSynchronizer::sync`.  Thread 0 of every node walks the
other ranks of its group in increasing order; of each pair the lower rank sends first.  Keys and
values travel as two writes, and an empty range is not sent at all.
-/

namespace PrefillOpt
namespace Network

open Lib

/-- The fields of an `NnSyncConfig` that `SYNC_SP_KV` computes with. -/
structure NnSpKvSync where
  spKvLocalSeqStart : Nat
  spKvLocalSeqLen : Nat
  spKvDim0 : Nat
  deriving DecidableEq, Repr

/-- The key and value buffers of one layer on one node. -/
structure Kv (β : Type) where
  k : Mem β
  v : Mem β

/-- What a node knows when it reaches a `SYNC_SP_KV`. -/
structure SpKvCall where
  node : NnNodePlacement
  config : NnSpKvSync
  batchSize : Nat
  positions : Nat → Nat
  cpSplit : Bool

/-! ## The source -/

/-- The largest position of the batch. -/
def maxPosition (positions : Nat → Nat) (batchSize : Nat) : Nat :=
  (List.range batchSize).foldl (fun m b => if m < positions b then positions b else m) 0

theorem le_maxPosition {positions : Nat → Nat} {batchSize b : Nat} (hb : b < batchSize) :
    positions b ≤ maxPosition positions batchSize := by
  unfold maxPosition
  induction batchSize with
  | zero => omega
  | succ n ih =>
      rw [List.range_succ, List.foldl_append, List.foldl_cons, List.foldl_nil]
      rcases Nat.lt_or_ge b n with h | h
      · have := ih h
        split_ifs <;> omega
      · obtain rfl : b = n := by omega
        split_ifs <;> omega

/-- `b0` and `cnt` of the lambda `blockRange`: the even cut of the batch rows. -/
def blockRows (batchSize actualSpSize rank : Nat) : Nat × Nat :=
  let base := batchSize / actualSpSize
  let rem := batchSize % actualSpSize
  (rank * base + (if rank < rem then rank else rem), base + (if rank < rem then 1 else 0))

/-- `lo` and `hi` of the lambda `blockRange`: the positions of the first and last row. -/
def blockRange (positions : Nat → Nat) (batchSize actualSpSize rank : Nat) : Nat × Nat :=
  let (b0, cnt) := blockRows batchSize actualSpSize rank
  (positions b0, positions (b0 + cnt - 1) + 1)

namespace SpKvCall

variable (c : SpKvCall)

def tpSize : Nat := c.node.tpGroupEnd - c.node.tpGroupStart

def actualSpSize : Nat := (c.node.spGroupEnd - c.node.spGroupStart) / c.tpSize

def myTpRank : Nat := c.node.globalRank - c.node.tpGroupStart

def mySpRank : Nat := (c.node.globalRank - c.node.spGroupStart) / c.tpSize

def maxPos : Nat := maxPosition c.positions c.batchSize

def kvDim0Bytes : Nat := c.config.spKvDim0 * 4

def cpOn : Bool := c.cpSplit && decide (1 < c.batchSize)

/-- `myStart` and `myEnd`. -/
def myRange : Nat × Nat :=
  if c.cpOn then blockRange c.positions c.batchSize c.actualSpSize c.mySpRank
  else (c.config.spKvLocalSeqStart, c.config.spKvLocalSeqStart + c.config.spKvLocalSeqLen)

/-- `peerStart` and `peerEnd`. -/
def peerRange (spRankPeer : Nat) : Nat × Nat :=
  if c.cpOn then blockRange c.positions c.batchSize c.actualSpSize spRankPeer
  else (spRankPeer * c.config.spKvLocalSeqLen,
    spRankPeer * c.config.spKvLocalSeqLen + c.config.spKvLocalSeqLen)

/-- Bytes of the rows of a range that lie at or below `maxPos`. -/
def activeBytes (range : Nat × Nat) : Nat :=
  let active := if c.maxPos + 1 < range.2 then c.maxPos + 1 else range.2
  if range.1 < active then (active - range.1) * c.kvDim0Bytes else 0

def sendBytes : Nat := c.activeBytes c.myRange

def recvBytes (spRankPeer : Nat) : Nat := c.activeBytes (c.peerRange spRankPeer)

def peerNode (spRankPeer : Nat) : Nat :=
  c.node.spGroupStart + spRankPeer * c.tpSize + c.myTpRank

end SpKvCall

section Programs

variable {β : Type}

/-- Keys, then values, of one range. -/
def sendKv (socket : Port) (offset nBytes : Nat) (kv : Kv β) : Prog Port β Unit :=
  if 0 < nBytes then do
    Prog.write1 socket (kv.k.slice offset nBytes)
    Prog.write1 socket (kv.v.slice offset nBytes)
  else pure ()

def recvKv (socket : Port) (offset nBytes : Nat) (kv : Kv β) : Prog Port β (Kv β) :=
  if 0 < nBytes then do
    let k ← Prog.read1 socket nBytes
    let v ← Prog.read1 socket nBytes
    pure ⟨kv.k.store offset k, kv.v.store offset v⟩
  else pure kv

namespace SpKvCall

variable (c : SpKvCall)

/-- One turn of the loop over the peers. -/
def exchangeWith (spRankPeer : Nat) (kv : Kv β) : Prog Port β (Kv β) :=
  if spRankPeer = c.mySpRank then pure kv
  else
    let peerSocket := port c.node.globalRank (c.peerNode spRankPeer)
    let myOffset := c.myRange.1 * c.kvDim0Bytes
    let peerOffset := (c.peerRange spRankPeer).1 * c.kvDim0Bytes
    if c.mySpRank < spRankPeer then do
      sendKv peerSocket myOffset c.sendBytes kv
      recvKv peerSocket peerOffset (c.recvBytes spRankPeer) kv
    else do
      let kv ← recvKv peerSocket peerOffset (c.recvBytes spRankPeer) kv
      sendKv peerSocket myOffset c.sendBytes kv
      pure kv

def exchange (kv : Kv β) : Prog Port β (Kv β) :=
  if c.actualSpSize ≤ 1 then pure kv else Prog.loop c.exchangeWith c.actualSpSize kv

end SpKvCall

/-- The switches of the synchronizer that decide whether decode exchanges at all. -/
structure SpKvModes where
  spPrefillOnly : Bool
  strictKvAffinity : Bool
  allowKvMigration : Bool
  decodePhase : Bool
  deriving DecidableEq, Repr

/-- `SYNC_SP_KV` on one thread of one node. -/
def syncSpKv (modes : SpKvModes) (c : SpKvCall) (threadIndex : Nat) (kv : Kv β) :
    Except String (Prog Port β (Kv β)) :=
  if modes.spPrefillOnly && modes.decodePhase then .ok (pure kv)
  else if modes.decodePhase && modes.strictKvAffinity && !modes.allowKvMigration then
    .error ("KV_MIGRATION_VIOLATION: decode-path KV sync is disabled by " ++
      "--strict-kv-affinity=1")
  else if threadIndex ≠ 0 then .ok (pure kv)
  else .ok (c.exchange kv)

end Programs

/-! ## The call of each node of a topology -/

/-- The shape of one forward that all nodes share. -/
structure SpKvForward where
  kvDim : Nat
  seqLen : Nat
  batchSize : Nat
  positions : Nat → Nat
  cpSplit : Bool

/-- The config `buildLlmNet` gives the `SYNC_SP_KV` of a node. -/
def spKvSyncOf (s : NnKvCacheSlice) : NnSpKvSync :=
  ⟨s.localSeqStart, s.localSeqLen, s.kvDim0⟩

def spKvCall (t : NnParallelTopology) (f : SpKvForward) (node : Nat) : SpKvCall where
  node := t.placement node
  config := spKvSyncOf
    (kvCacheSlice f.kvDim f.seqLen t.tpSize t.spSize (t.placement node).spRank)
  batchSize := f.batchSize
  positions := f.positions
  cpSplit := f.cpSplit

end Network
end PrefillOpt
