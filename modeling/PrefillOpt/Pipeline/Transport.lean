import Mathlib.Algebra.Group.Defs
import PrefillOpt.Network.Sockets
import PrefillOpt.Pipeline.WireBytes

/-!
# Pipeline.Transport — a link between two stages delivers what was sent

The sender and the receiver decide on their own whether a payload is a difference, and each keeps
its own base vector.  Over one link the two stay in step: the invariant is that the base of the
sender's socket is the base of the receiver's socket, and every message keeps it, whatever its
size and whatever options either side sets in between.
-/

namespace PrefillOpt
namespace Pipeline

open Lib Network

/-! ## One lane between two stages -/

/-- Two stages and the lane (`spRank`, `tpRank`) whose nodes exchange activations. -/
structure StageLink (t : NnParallelTopology) where
  source : Nat
  target : Nat
  spRank : Nat
  tpRank : Nat
  source_lt : source < t.ppSize
  target_lt : target < t.ppSize
  spRank_lt : spRank < t.spSize
  tpRank_lt : tpRank < t.tpSize
  source_ne : source ≠ target

namespace StageLink

variable {t : NnParallelTopology} (l : StageLink t)

def sender : Nat := t.rankAt l.source l.spRank l.tpRank

def receiver : Nat := t.rankAt l.target l.spRank l.tpRank

/-- The same lane, seen from the other end. -/
def reverse : StageLink t where
  source := l.target
  target := l.source
  spRank := l.spRank
  tpRank := l.tpRank
  source_lt := l.target_lt
  target_lt := l.source_lt
  spRank_lt := l.spRank_lt
  tpRank_lt := l.tpRank_lt
  source_ne := l.source_ne.symm

theorem sender_lt : l.sender < t.nNodes :=
  t.rankAt_lt l.source_lt l.spRank_lt l.tpRank_lt

theorem receiver_ne_sender : l.receiver ≠ l.sender := by
  intro h
  have hpp : (t.placement l.receiver).ppRank = (t.placement l.sender).ppRank := by rw [h]
  simp only [receiver, sender, t.placement_rankAt _ l.spRank_lt l.tpRank_lt] at hpp
  exact l.source_ne hpp.symm

/-- The socket of the sender for this lane. -/
def socket : Nat := getSocketIndexForNode l.sender l.receiver

theorem socket_lt : l.socket < t.nNodes - 1 :=
  getSocketIndexForNode_lt l.sender_lt l.reverse.sender_lt l.receiver_ne_sender

end StageLink

variable {β F : Type}

namespace NnPipelineCommunicator

variable {t : NnParallelTopology}

/-- A communicator of the node that holds this end of the lane. -/
structure Serves (c : NnPipelineCommunicator F) (l : StageLink t) : Prop where
  topology : c.topology = t
  node : c.myNodeIndex = l.sender
  sockets : c.nSockets = t.nNodes - 1

theorem Serves.create (l : StageLink t) (on : Bool) (minBytes chunk : Nat) :
    (NnPipelineCommunicator.create t l.sender on minBytes chunk :
      NnPipelineCommunicator F).Serves l :=
  ⟨rfl, rfl, rfl⟩

/-- Both ends of the lane pick the socket that joins their nodes. -/
theorem getPipelineSocketIndex_eq {c : NnPipelineCommunicator F} {l : StageLink t}
    (h : c.Serves l) : c.getPipelineSocketIndex l.target c.myTpRank = .ok l.socket := by
  rcases t.placement_rankAt l.source l.spRank_lt l.tpRank_lt with ⟨-, hsp, htp⟩
  have hmine : c.mySpRank = l.spRank ∧ c.myTpRank = l.tpRank := by
    simp only [mySpRank, myTpRank, h.topology, h.node]
    exact ⟨hsp, htp⟩
  have hglobal : t.getGlobalRank l.target l.spRank l.tpRank = .ok l.receiver := by
    simp only [NnParallelTopology.getGlobalRank, Nat.not_le.mpr l.target_lt,
      Nat.not_le.mpr l.spRank_lt, Nat.not_le.mpr l.tpRank_lt, if_false]
    rfl
  have hne := l.receiver_ne_sender
  simp only [getPipelineSocketIndex, hmine, h.topology, h.node, hglobal, StageLink.socket,
    getSocketIndexForNode]
  split_ifs <;> simp_all [bind, Except.bind, pure, Except.pure]

theorem Serves.socket_lt {c : NnPipelineCommunicator F} {l : StageLink t} (h : c.Serves l) :
    l.socket < c.nSockets := by
  rw [h.sockets]
  exact l.socket_lt

end NnPipelineCommunicator

/-! ## Runs over one link -/

/-- The arguments of one `setTransportOptions`. -/
structure TransportOptions where
  deltaEnabled : Bool
  deltaMinBytes : Nat
  chunkBytes : Nat

/-- One send and the receive that matches it, each after any number of option changes. -/
structure Exchange (β : Type) where
  senderOptions : List TransportOptions
  receiverOptions : List TransportOptions
  activation : Activation β
  buffer : List β

namespace NnPipelineCommunicator

def setOptions (c : NnPipelineCommunicator F) (os : List TransportOptions) :
    NnPipelineCommunicator F :=
  os.foldl (fun c o => c.setTransportOptions o.deltaEnabled o.deltaMinBytes o.chunkBytes) c

/-- Options touch neither the base vectors nor the place of the node. -/
theorem setOptions_frame (c : NnPipelineCommunicator F) (os : List TransportOptions) :
    (c.setOptions os).prevSendBySocket = c.prevSendBySocket ∧
      (c.setOptions os).prevRecvBySocket = c.prevRecvBySocket ∧
      (c.setOptions os).topology = c.topology ∧
      (c.setOptions os).myNodeIndex = c.myNodeIndex ∧
      (c.setOptions os).nSockets = c.nSockets := by
  induction os generalizing c with
  | nil => exact ⟨rfl, rfl, rfl, rfl, rfl⟩
  | cons o os ih => exact ih (c.setTransportOptions _ _ _)

theorem Serves.setOptions {t : NnParallelTopology} {c : NnPipelineCommunicator F}
    {l : StageLink t} (h : c.Serves l) (os : List TransportOptions) :
    (c.setOptions os).Serves l := by
  rcases c.setOptions_frame os with ⟨-, -, htopo, hnode, hsockets⟩
  exact ⟨htopo.trans h.topology, hnode.trans h.node, hsockets.trans h.sockets⟩

theorem Serves.sent {t : NnParallelTopology} {c : NnPipelineCommunicator F}
    {l : StageLink t} (h : c.Serves l) (fmt : WireFormat β F) (s : Nat) (a : Activation β) :
    (c.sent fmt s a).Serves l := by
  unfold NnPipelineCommunicator.sent
  split_ifs
  · exact ⟨h.topology, h.node, h.sockets⟩
  · exact h

theorem Serves.received {t : NnParallelTopology} {c : NnPipelineCommunicator F}
    {l : StageLink t} (h : c.Serves l) (s : Nat) (base : List F) :
    (c.received s base).Serves l := by
  unfold NnPipelineCommunicator.received
  split_ifs
  · exact ⟨h.topology, h.node, h.sockets⟩
  · exact h

end NnPipelineCommunicator

/-- One message as it left the sender: the socket, and the writes in order. -/
structure Sent (β : Type) where
  socket : Nat
  writes : List (List β)

def Sent.bytes (m : Sent β) : List β := m.writes.flatten

/-- The sender's side of a run. -/
def sendAll [Sub F] (fmt : WireFormat β F) (target : Nat) :
    NnPipelineCommunicator F → List (Exchange β) →
      Except String (List (Sent β) × NnPipelineCommunicator F)
  | c, [] => .ok ([], c)
  | c, x :: xs => do
      let (socket, writes, c) ←
        (c.setOptions x.senderOptions).sendActivation fmt target x.activation
      let (sent, c) ← sendAll fmt target c xs
      return (⟨socket, writes⟩ :: sent, c)

/-- The receiver's side, on the stream of its socket; `none` while it blocks. -/
def recvAll [Add F] (fmt : WireFormat β F) (source : Nat) :
    NnPipelineCommunicator F → List (Exchange β) → List β →
      Except String (Option (List (Received β F)))
  | _, [], _ => .ok (some [])
  | d, x :: xs, stream => do
      match ← (d.setOptions x.receiverOptions).recvActivation fmt source x.buffer stream with
      | none => return none
      | some r =>
          match ← recvAll fmt source r.comm xs r.stream with
          | none => return none
          | some rs => return some (r :: rs)

/-! ## One message through the stream -/

namespace NnPipelineCommunicator

variable (fmt : WireFormat β F) (c : NnPipelineCommunicator F)

theorem messageWrites_flatten (s : Nat) (a : Activation β) (wire : List β) :
    (c.messageWrites fmt s a wire).flatten
      = fmt.storeHeader (c.activationHeader fmt s a wire) ++ wire := by
  unfold messageWrites
  split_ifs with h
  · simp
  · rw [List.flatten_cons, cut_flatten (Nat.pos_of_ne_zero h) _ _ (Nat.le_refl _)]

theorem hasFlag_delta (s : Nat) (a : Activation β) (wire : List β) :
    hasFlag (c.activationHeader fmt s a wire).flags PIPELINE_FLAG_DELTA
      = (c.useDelta s a.data.length || hasFlag a.extraFlags PIPELINE_FLAG_DELTA) := by
  have hchunked : ∀ p : Prop, [Decidable p] →
      hasFlag (if p then PIPELINE_FLAG_CHUNKED else 0) PIPELINE_FLAG_DELTA = false := by
    intro p _
    split_ifs <;> decide
  have hdelta : hasFlag (if c.useDelta s a.data.length then PIPELINE_FLAG_DELTA else 0)
      PIPELINE_FLAG_DELTA = c.useDelta s a.data.length := by
    cases c.useDelta s a.data.length <;> decide
  simp only [activationHeader, hasFlag_or, hchunked, hdelta, Bool.false_or]

theorem hasFlag_chunked (s : Nat) (a : Activation β) (wire : List β)
    (h : 0 < c.writeChunkBytes wire.length) :
    hasFlag (c.activationHeader fmt s a wire).flags PIPELINE_FLAG_CHUNKED = true := by
  have hchunked : hasFlag PIPELINE_FLAG_CHUNKED PIPELINE_FLAG_CHUNKED = true := by decide
  simp only [activationHeader, hasFlag_or, if_pos h, hchunked, Bool.true_or]

/-- The body is read as it was written, in one piece or in chunks. -/
theorem readPayload_message (s : Nat) (a : Activation β) (wire rest : List β) :
    readPayload (c.activationHeader fmt s a wire) (wire ++ rest) = some (wire, rest) := by
  rcases Nat.eq_zero_or_pos (c.writeChunkBytes wire.length) with hzero | hpos
  · have hstream : (c.activationHeader fmt s a wire).streamChunkBytes = 0 := hzero
    simp only [readPayload, hstream, ite_self, if_true]
    exact readStream_append rfl rest
  · have hstream : (c.activationHeader fmt s a wire).streamChunkBytes
        = c.writeChunkBytes wire.length := rfl
    simp only [readPayload, hstream, c.hasFlag_chunked fmt s a wire hpos, if_true,
      Nat.ne_of_gt hpos, if_false]
    exact readChunks_append hpos _ _ (Nat.le_refl _) rfl rest

/-- What a receive does with a message of the sender `c`, whatever follows it in the stream. -/
theorem recvOn_message [Add F] (d : NnPipelineCommunicator F) (s r : Nat) (a : Activation β)
    (wire : List β) (hfits : (c.activationHeader fmt s a wire).Fits) (buffer rest : List β) :
    d.recvOn fmt r buffer ((c.messageWrites fmt s a wire).flatten ++ rest)
      = some (if wire.length = 0 then
          ⟨.ok (), c.activationHeader fmt s a wire, buffer, d, rest⟩
        else match d.decodePayload fmt r (c.activationHeader fmt s a wire) wire buffer with
          | .error text => ⟨.error text, c.activationHeader fmt s a wire, buffer, d, rest⟩
          | .ok (buffer, base) =>
              ⟨.ok (), c.activationHeader fmt s a wire, buffer, d.received r base, rest⟩) := by
  have hsizes : (c.activationHeader fmt s a wire).totalPayloadBytes = wire.length ∧
      (c.activationHeader fmt s a wire).payloadBytes = wire.length := ⟨rfl, rfl⟩
  rw [messageWrites_flatten, List.append_assoc, recvOn,
    readStream_append (fmt.storeHeader_length _)]
  simp only [Option.bind_eq_bind, Option.bind_some, fmt.loadHeader_store _ hfits, hsizes,
    readPayload_message]
  simp only [ne_eq, not_true_eq_false, and_false, if_false]
  split_ifs with h
  · rfl
  · split <;> simp_all

end NnPipelineCommunicator

/-! ## The calls on a lane -/

namespace NnPipelineCommunicator

variable {t : NnParallelTopology} {l : StageLink t} (fmt : WireFormat β F)

theorem sendActivation_eq [Sub F] {c : NnPipelineCommunicator F} (h : c.Serves l)
    {a : Activation β} {wire : List β} (hwire : c.wirePayload fmt l.socket a = .ok wire) :
    c.sendActivation fmt l.target a
      = .ok (l.socket, c.messageWrites fmt l.socket a wire, c.sent fmt l.socket a) := by
  have hpp : ¬ t.ppSize ≤ l.target := Nat.not_le.mpr l.target_lt
  simp only [sendActivation, h.topology, if_neg hpp, getPipelineSocketIndex_eq h, bind,
    Except.bind, hwire, assertThat, h.socket_lt]
  rfl

theorem recvActivation_eq [Add F] {d : NnPipelineCommunicator F} (h : d.Serves l.reverse)
    (buffer stream : List β) :
    d.recvActivation fmt l.source buffer stream
      = .ok (d.recvOn fmt l.reverse.socket buffer stream) := by
  have hpp : ¬ t.ppSize ≤ l.source := Nat.not_le.mpr l.source_lt
  have hsocket : d.getPipelineSocketIndex l.source d.myTpRank = .ok l.reverse.socket :=
    getPipelineSocketIndex_eq h
  simp only [recvActivation, h.topology, if_neg hpp, hsocket]
  rfl

end NnPipelineCommunicator

/-! ## Unquantised payloads -/

/-- Every four bytes are a float: nothing is lost by loading and storing them. -/
def WireFormat.Exact (fmt : WireFormat β F) : Prop :=
  ∀ w : List β, w.length = 4 → fmt.storeF32 (fmt.loadF32 w) = w

theorem WireFormat.Exact.storeFloats_load {fmt : WireFormat β F} (h : fmt.Exact) (bs : List β)
    (hbs : bs.length % 4 = 0) : fmt.storeFloats (fmt.loadFloats bs) = bs := by
  match bs, hbs with
  | [], _ => rfl
  | [_], hbs => simp at hbs
  | [_, _], hbs => simp at hbs
  | [_, _, _], hbs => simp at hbs
  | a :: b :: c :: d :: rest, hbs =>
      have hrest : rest.length % 4 = 0 := by
        simp only [List.length_cons] at hbs
        omega
      have ih := storeFloats_load h rest hrest
      have hword := h [a, b, c, d] rfl
      simp only [WireFormat.loadFloats, WireFormat.storeFloats, List.flatMap_cons] at ih ⊢
      rw [hword, ih]
      rfl

/-- Adding a difference to what was subtracted gives the original back. -/
theorem zipWith_add_sub [AddCommGroup F] (xs ys : List F) (h : xs.length = ys.length) :
    List.zipWith (· + ·) ys (List.zipWith (· - ·) xs ys) = xs := by
  induction xs generalizing ys with
  | nil => simp
  | cons x xs ih =>
      match ys, h with
      | y :: ys, h =>
          simp only [List.zipWith_cons_cons, add_sub_cancel, ih ys (by simpa using h)]

namespace NnPipelineCommunicator

variable (fmt : WireFormat β F) (c : NnPipelineCommunicator F)

/-- When a payload goes as a difference, it is a vector of floats as long as the base. -/
theorem useDelta_iff (s bytes : Nat) : c.useDelta s bytes = true ↔
    bytes ≠ 0 ∧ c.deltaEnabled = true ∧ c.deltaMinBytes ≤ bytes ∧ bytes % 4 = 0 ∧
      s < c.nSockets ∧ (c.prevSendBySocket s).length = bytes / 4 := by
  simp only [useDelta, canDelta, Bool.and_eq_true, bne_iff_ne, ne_eq, beq_iff_eq,
    decide_eq_true_eq]
  tauto

theorem useDelta_zero (s : Nat) : c.useDelta s 0 = false := rfl

theorem wirePayload_f32 [Sub F] (s : Nat) (a : Activation β) (hf32 : a.dtype = .f32) :
    c.wirePayload fmt s a = .ok (if c.useDelta s a.data.length then
      fmt.storeFloats
        (List.zipWith (· - ·) (fmt.loadFloats a.data) (c.prevSendBySocket s))
      else a.data) := by
  have hselect : selectWireDtype a.dtype a.data.length = .f32 := by
    simp [selectWireDtype, hf32]
  unfold wirePayload
  simp only [hselect, encodeFromF32]
  rcases Nat.eq_zero_or_pos a.data.length with hzero | hpos
  · have hnil : a.data = [] := List.length_eq_zero_iff.mp hzero
    simp [hnil, useDelta_zero]
  · simp only [Nat.ne_of_gt hpos, if_false, if_true]
    split_ifs <;> rfl

/-- The bytes of the wire payload are as many as the bytes of the data. -/
theorem wire_f32_length [Sub F] (s : Nat) (a : Activation β) :
    (if c.useDelta s a.data.length then
      fmt.storeFloats
        (List.zipWith (· - ·) (fmt.loadFloats a.data) (c.prevSendBySocket s))
      else a.data).length = a.data.length := by
  split_ifs with h
  · rcases (c.useDelta_iff s _).mp h with ⟨-, -, -, hmod, -, hbase⟩
    rw [fmt.storeFloats_length, List.length_zipWith, fmt.loadFloats_length, hbase, min_self]
    omega
  · rfl

theorem wirePayload_length_le [Sub F] {s : Nat} {a : Activation β} {wire : List β}
    (h : c.wirePayload fmt s a = .ok wire) : wire.length ≤ a.data.length := by
  unfold wirePayload at h
  split_ifs at h with hzero hdelta
  · cases h
    exact Nat.zero_le _
  · -- the difference has the length of the data
    have hlen := c.wire_f32_length fmt s a
    rw [if_pos hdelta] at hlen
    rw [← hlen] at h ⊢
    exact fmt.encode_length_le h
  · exact fmt.encode_length_le h

/-- The header of an activation that fits its arguments fits its fields. -/
theorem activationHeader_fits [Sub F] {s : Nat} {a : Activation β} (ha : a.Fits) {wire : List β}
    (h : c.wirePayload fmt s a = .ok wire) : (c.activationHeader fmt s a wire).Fits := by
  have hwire : wire.length < 2 ^ 64 := (c.wirePayload_length_le fmt h).trans_lt ha.bytes
  have hchunk : c.writeChunkBytes wire.length < 2 ^ 64 := by
    unfold writeChunkBytes
    split_ifs <;> omega
  have hflag : ∀ (p : Prop) [Decidable p] (flag : Nat), flag < 2 ^ 32 →
      (if p then flag else 0) < 2 ^ 32 := by
    intro p _ flag hlt
    split_ifs <;> omega
  refine ⟨ha.seqPosition, ha.batchIndex, ha.sliceId, hwire, hwire, hchunk, ?_,
    fmt.calculateChecksum_lt wire _⟩
  exact Nat.or_lt_two_pow (Nat.or_lt_two_pow (hflag _ _ (by decide)) (hflag _ _ (by decide)))
    ha.extraFlags

/-- A payload decodes to the data that was sent, and the base becomes the data, when both ends
hold the same base. -/
theorem decodePayload_f32 [AddCommGroup F] (hexact : fmt.Exact) (d : NnPipelineCommunicator F)
    {s r : Nat} {a : Activation β} {buffer : List β} (hf32 : a.dtype = .f32)
    (hr : r < d.nSockets) (hbases : c.prevSendBySocket s = d.prevRecvBySocket r)
    (hsize : a.data.length ≤ buffer.length)
    (hwords : c.useDelta s a.data.length = true → buffer.length % 4 = 0)
    (hflag : hasFlag a.extraFlags PIPELINE_FLAG_DELTA = true → c.useDelta s a.data.length = true)
    {wire : List β} (hwire : c.wirePayload fmt s a = .ok wire) :
    d.decodePayload fmt r (c.activationHeader fmt s a wire) wire buffer
      = .ok (overwrite buffer a.data, fmt.loadFloats a.data) := by
  have hlen := c.wire_f32_length fmt s a
  rw [wirePayload_f32 fmt c s a hf32, Except.ok.injEq] at hwire
  rw [hwire] at hlen
  have hdtype : (c.activationHeader fmt s a wire).dtype = .f32 := by
    simp [activationHeader, selectWireDtype, hf32]
  have hdecode : decodeToF32 fmt wire (c.activationHeader fmt s a wire).dtype buffer.length
      = some (wire, wire.length / 4) := by
    simp only [decodeToF32, hdtype, if_true, Nat.not_lt.mpr (hlen.trans_le hsize), if_false]
  unfold decodePayload
  rw [hasFlag_delta, hdecode]
  by_cases hdelta : c.useDelta s a.data.length = true
  · -- both ends take the delta branch, on the same base
    rcases (c.useDelta_iff s _).mp hdelta with ⟨-, -, -, hmod, -, hbase⟩
    have hbase' : (d.prevRecvBySocket r).length = wire.length / 4 := by
      rw [← hbases, hbase, hlen]
    have hsum : List.zipWith (· + ·) (d.prevRecvBySocket r) (fmt.loadFloats wire)
        = fmt.loadFloats a.data := by
      rw [← hwire, if_pos hdelta, fmt.loadFloats_store, ← hbases]
      exact zipWith_add_sub _ _ (by rw [fmt.loadFloats_length, hbase])
    simp only [hdelta, Bool.true_or, if_true, hwords hdelta, ne_eq, not_true_eq_false, if_false,
      hbase', Nat.not_le.mpr hr, or_self, hsum, hexact.storeFloats_load _ hmod]
  · have hplain : wire = a.data := by
      rw [← hwire, if_neg hdelta]
    have hextra : hasFlag a.extraFlags PIPELINE_FLAG_DELTA = false := by
      cases hx : hasFlag a.extraFlags PIPELINE_FLAG_DELTA with
      | false => rfl
      | true => exact absurd (hflag hx) hdelta
    simp only [hdelta, hextra, Bool.false_or, Bool.false_eq_true, if_false, hplain, overwrite,
      fmt.loadFloats_take_append]

end NnPipelineCommunicator

/-! ## Every message arrives -/

/-- What the receiver accepts: room for the payload, a buffer of whole floats when the message
goes as a difference, and no delta bit on a payload that is none. -/
structure Exchange.Fits (x : Exchange β) (c : NnPipelineCommunicator F) (socket : Nat) :
    Prop where
  activation : x.activation.Fits
  room : x.activation.data.length ≤ x.buffer.length
  words : c.useDelta socket x.activation.data.length = true → x.buffer.length % 4 = 0
  flags : hasFlag x.activation.extraFlags PIPELINE_FLAG_DELTA = true →
    x.activation.data.length = 0 ∨ c.useDelta socket x.activation.data.length = true

/-- Every exchange fits, each in the state its sender has reached by then. -/
def AllFit (fmt : WireFormat β F) (socket : Nat) :
    NnPipelineCommunicator F → List (Exchange β) → Prop
  | _, [] => True
  | c, x :: xs =>
      x.Fits (c.setOptions x.senderOptions) socket ∧
      AllFit fmt socket ((c.setOptions x.senderOptions).sent fmt socket x.activation) xs

/-- The receive returned `true` with the header and the payload that were sent; the rest of the
buffer is as it was. -/
structure Delivered (fmt : WireFormat β F) (x : Exchange β) (m : Sent β) (r : Received β F) :
    Prop where
  result : r.result = .ok ()
  header : m.writes.head? = some (fmt.storeHeader r.header)
  seqPosition : r.header.seqPosition = x.activation.seqPosition
  batchIndex : r.header.batchIndex = x.activation.batchIndex
  sliceId : r.header.sliceId = x.activation.sliceId
  dtype : r.header.dtype = x.activation.dtype
  payloadBytes : r.header.payloadBytes = x.activation.data.length
  extraFlags : r.header.flags ||| x.activation.extraFlags = r.header.flags
  buffer : r.buffer = overwrite x.buffer x.activation.data

/-- Every message is delivered, and each receive leaves the bytes of the later messages. -/
def AllDelivered (fmt : WireFormat β F) (rest : List β) :
    List (Exchange β) → List (Sent β) → List (Received β F) → Prop
  | [], [], [] => True
  | x :: xs, m :: ms, r :: rs =>
      Delivered fmt x m r ∧ r.stream = ms.flatMap Sent.bytes ++ rest ∧
      AllDelivered fmt rest xs ms rs
  | _, _, _ => False

/-- The two ends of a lane in step. -/
structure InStep {t : NnParallelTopology} (l : StageLink t) (c d : NnPipelineCommunicator F) :
    Prop where
  source : c.Serves l
  target : d.Serves l.reverse
  bases : c.prevSendBySocket l.socket = d.prevRecvBySocket l.reverse.socket

namespace InStep

variable {t : NnParallelTopology} {l : StageLink t} {c d : NnPipelineCommunicator F}

theorem create (l : StageLink t) (on on' : Bool) (minBytes minBytes' chunk chunk' : Nat) :
    InStep l (NnPipelineCommunicator.create t l.sender on minBytes chunk :
        NnPipelineCommunicator F)
      (.create t l.receiver on' minBytes' chunk') :=
  ⟨.create l _ _ _, .create l.reverse _ _ _, rfl⟩

theorem setOptions (h : InStep l c d) (os os' : List TransportOptions) :
    InStep l (c.setOptions os) (d.setOptions os') := by
  refine ⟨h.source.setOptions os, h.target.setOptions os', ?_⟩
  rw [(c.setOptions_frame os).1, (d.setOptions_frame os').2.1]
  exact h.bases

/-- One exchange on ends in step: the message arrives, and the ends stay in step. -/
theorem exchange [AddCommGroup F] {fmt : WireFormat β F} (hexact : fmt.Exact) (h : InStep l c d)
    (x : Exchange β) (hf32 : x.activation.dtype = .f32) (hfits : x.Fits c l.socket) :
    ∃ writes, c.sendActivation fmt l.target x.activation
        = .ok (l.socket, writes, c.sent fmt l.socket x.activation) ∧
      ∀ rest, ∃ r, d.recvActivation fmt l.source x.buffer (writes.flatten ++ rest)
          = .ok (some r) ∧
        Delivered fmt x ⟨l.socket, writes⟩ r ∧ r.stream = rest ∧
        InStep l (c.sent fmt l.socket x.activation) r.comm := by
  have hwire := c.wirePayload_f32 fmt l.socket x.activation hf32
  have hlen := c.wire_f32_length fmt l.socket x.activation
  generalize hw : (if c.useDelta l.socket x.activation.data.length then _ else _) = wire
    at hwire hlen
  refine ⟨c.messageWrites fmt l.socket x.activation wire, ?_, fun rest => ?_⟩
  · exact NnPipelineCommunicator.sendActivation_eq fmt h.source hwire
  have hheader : (c.messageWrites fmt l.socket x.activation wire).head?
      = some (fmt.storeHeader (c.activationHeader fmt l.socket x.activation wire)) := rfl
  have hdtype : (c.activationHeader fmt l.socket x.activation wire).dtype
      = x.activation.dtype := by
    simp [NnPipelineCommunicator.activationHeader, selectWireDtype, hf32]
  have hextra : (c.activationHeader fmt l.socket x.activation wire).flags
      ||| x.activation.extraFlags
        = (c.activationHeader fmt l.socket x.activation wire).flags := by
    simp [NnPipelineCommunicator.activationHeader, Nat.or_assoc]
  simp only [NnPipelineCommunicator.recvActivation_eq fmt h.target,
    c.recvOn_message fmt d _ _ _ _ (c.activationHeader_fits fmt hfits.activation hwire)]
  rcases Nat.eq_zero_or_pos x.activation.data.length with hzero | hpos
  · -- a marker: neither base moves
    have hsent : c.sent fmt l.socket x.activation = c := by
      simp [NnPipelineCommunicator.sent, hzero]
    have hnil : x.activation.data = [] := List.length_eq_zero_iff.mp hzero
    rw [if_pos (hlen.trans hzero)]
    refine ⟨_, rfl, ⟨rfl, hheader, rfl, rfl, rfl, hdtype, hlen, hextra, ?_⟩, rfl, ?_⟩
    · simp [overwrite, hnil]
    · rw [hsent]
      exact h
  · have hdecode := c.decodePayload_f32 fmt hexact d (s := l.socket) (r := l.reverse.socket)
      hf32 h.target.socket_lt h.bases hfits.room hfits.words
      (fun hx => (hfits.flags hx).resolve_left (Nat.ne_of_gt hpos)) hwire
    rw [if_neg (Nat.ne_of_gt (hlen.symm ▸ hpos)), hdecode]
    refine ⟨_, rfl, ⟨rfl, hheader, rfl, rfl, rfl, hdtype, hlen, hextra, rfl⟩, rfl,
      h.source.sent fmt _ _, h.target.received _ _, ?_⟩
    -- both bases are the data now
    simp only [NnPipelineCommunicator.sent, NnPipelineCommunicator.received, h.source.socket_lt,
      h.target.socket_lt, hpos, and_self, if_true, Function.update_self]

/-- A whole run on ends in step. -/
theorem run [AddCommGroup F] {fmt : WireFormat β F} (hexact : fmt.Exact) (h : InStep l c d)
    (xs : List (Exchange β)) (hf32 : ∀ x ∈ xs, x.activation.dtype = .f32)
    (hfit : AllFit fmt l.socket c xs) :
    ∃ sent c', sendAll fmt l.target c xs = .ok (sent, c') ∧
      (∀ m ∈ sent, m.socket = l.socket) ∧
      ∀ rest, ∃ rs, recvAll fmt l.source d xs (sent.flatMap Sent.bytes ++ rest)
          = .ok (some rs) ∧ AllDelivered fmt rest xs sent rs := by
  induction xs generalizing c d with
  | nil =>
      exact ⟨[], c, rfl, by simp, fun rest => ⟨[], rfl, trivial⟩⟩
  | cons x xs ih =>
      rcases hfit with ⟨hx, hxs⟩
      rcases (h.setOptions x.senderOptions x.receiverOptions).exchange hexact x
        (hf32 x (List.mem_cons_self ..)) hx with ⟨writes, hsend, hrecv⟩
      have hf32' : ∀ y ∈ xs, y.activation.dtype = .f32 := fun y hy =>
        hf32 y (List.mem_cons_of_mem x hy)
      -- the sender's run does not depend on what the receiver does
      rcases hrecv [] with ⟨r₀, -, -, -, hstep₀⟩
      rcases ih hstep₀ hf32' hxs with ⟨sent, c', hsends, hsockets, -⟩
      refine ⟨⟨l.socket, writes⟩ :: sent, c', ?_, ?_, fun rest => ?_⟩
      · simp only [sendAll, hsend, hsends, bind, Except.bind, pure, Except.pure]
      · intro m hm
        rcases List.mem_cons.mp hm with rfl | hm
        · rfl
        · exact hsockets m hm
      · rcases hrecv (sent.flatMap Sent.bytes ++ rest) with ⟨r, hr, hdelivered, hstream, hstep⟩
        rcases ih hstep hf32' hxs with ⟨sent', c'', hsends', -, hrecvs⟩
        have hsame : sent' = sent := by
          rw [hsends, Except.ok.injEq, Prod.mk.injEq] at hsends'
          exact hsends'.1.symm
        rcases hrecvs rest with ⟨rs, hrs, hall⟩
        rw [hsame] at hrs hall
        refine ⟨r :: rs, ?_, hdelivered, hstream, hall⟩
        have hbytes : (⟨l.socket, writes⟩ :: sent : List (Sent β)).flatMap Sent.bytes ++ rest
            = writes.flatten ++ (sent.flatMap Sent.bytes ++ rest) := by
          simp [Sent.bytes]
        simp only [recvAll, hbytes, hr, hstream, hrs, bind, Except.bind, pure, Except.pure]

end InStep

/-- Every sequence of sends over one lane, with markers, changing sizes and options changed in any
way on either side, is received message by message, when every exchange fits. -/
theorem activation_transport_faithful [AddCommGroup F] {t : NnParallelTopology} (l : StageLink t)
    (fmt : WireFormat β F) (hexact : fmt.Exact) (on on' : Bool)
    (minBytes minBytes' chunk chunk' : Nat) (xs : List (Exchange β))
    (hf32 : ∀ x ∈ xs, x.activation.dtype = .f32)
    (hfit : AllFit fmt l.socket (.create t l.sender on minBytes chunk) xs) :
    ∃ sent c, sendAll fmt l.target (.create t l.sender on minBytes chunk) xs = .ok (sent, c) ∧
      (∀ m ∈ sent, m.socket = l.socket) ∧
      ∀ rest, ∃ rs, recvAll fmt l.source (.create t l.receiver on' minBytes' chunk') xs
          (sent.flatMap Sent.bytes ++ rest) = .ok (some rs) ∧
        AllDelivered fmt rest xs sent rs :=
  (InStep.create l on on' minBytes minBytes' chunk chunk').run hexact xs hf32 hfit

/-! ## Two stages -/

theorem fixedFormat_exact : fixedFormat.Exact :=
  fun _ hw => Fixed.store_load hw

/-- Two stages of one node each. -/
private theorem twoStages_nodes : 2 = 2 * 1 * 1 := rfl

def twoStages : NnParallelTopology where
  nNodes := 2
  ppSize := 2
  spSize := 1
  tpSize := 1
  ppSize_pos := Nat.two_pos
  spSize_pos := Nat.one_pos
  tpSize_pos := Nat.one_pos
  nNodes_eq := twoStages_nodes

def twoStagesLink : StageLink twoStages where
  source := 0
  target := 1
  spRank := 0
  tpRank := 0
  source_lt := by decide
  target_lt := by decide
  spRank_lt := by decide
  tpRank_lt := by decide
  source_ne := by decide

/-- One float, received into a buffer of `size` bytes. -/
def oneFloat (x : Fixed) (extraFlags size : Nat) : Exchange UInt8 where
  senderOptions := []
  receiverOptions := []
  activation := ⟨0, 0, 0, x.store, .f32, extraFlags⟩
  buffer := List.replicate size 0

/-- A payload, a marker with the bypass flag, and a payload that goes as a difference. -/
def markerRun : List (Exchange UInt8) :=
  [oneFloat 5 0 8, ⟨[], [], ⟨1, 0, 0, [], .f32, PIPELINE_FLAG_STAGE_SKIP_BYPASS⟩, []⟩,
    oneFloat 7 0 8]

theorem markerRun_fits : AllFit fixedFormat twoStagesLink.socket
    (.create twoStages twoStagesLink.sender true 0 3) markerRun := by
  have hfits : ∀ seqPosition < 2 ^ 32, ∀ data : List UInt8, data.length ≤ 4 → ∀ flags ≤ 7,
      (⟨seqPosition, 0, 0, data, .f32, flags⟩ : Activation UInt8).Fits := by
    intro seqPosition hseq data hdata flags hflags
    exact ⟨hseq, Nat.two_pow_pos 32, Nat.two_pow_pos 32, by simp only; omega, by simp only; omega⟩
  refine ⟨⟨hfits 0 (by decide) _ (by decide) _ (by decide), by decide, by decide, by decide⟩,
    ⟨hfits 1 (by decide) _ (by decide) _ (by decide), by decide, by decide, by decide⟩, ?_, trivial⟩
  exact ⟨hfits 0 (by decide) _ (by decide) _ (by decide), by decide, fun _ => by decide, by decide⟩

theorem activation_transport_faithful_markers :
    ∃ sent c, sendAll fixedFormat twoStagesLink.target
        (.create twoStages twoStagesLink.sender true 0 3) markerRun = .ok (sent, c) ∧
      (∀ m ∈ sent, m.socket = twoStagesLink.socket) ∧
      ∀ rest, ∃ rs, recvAll fixedFormat twoStagesLink.source
          (.create twoStages twoStagesLink.receiver false 9 0) markerRun
          (sent.flatMap Sent.bytes ++ rest) = .ok (some rs) ∧
        AllDelivered fixedFormat rest markerRun sent rs :=
  activation_transport_faithful twoStagesLink fixedFormat fixedFormat_exact true false 0 9 3 0
    markerRun (by decide) markerRun_fits

/-- What the receives of a run return when the stream holds exactly what was sent. -/
def results [Add F] [Sub F] (fmt : WireFormat β F) {t : NnParallelTopology} (l : StageLink t)
    (c d : NnPipelineCommunicator F) (xs : List (Exchange β)) :
    Except String (Option (List (Except String Unit))) := do
  let (sent, _) ← sendAll fmt l.target c xs
  let rs ← recvAll fmt l.source d xs (sent.flatMap Sent.bytes)
  return rs.map fun rs => rs.map Received.result

/-- With room for the payload alone, a difference into a buffer that is no whole number of floats
is refused, and so is a first payload that carries the delta bit. -/
theorem activation_transport_refused :
    results fixedFormat twoStagesLink (.create twoStages twoStagesLink.sender true 0 0)
        (.create twoStages twoStagesLink.receiver true 0 0) [oneFloat 5 0 5, oneFloat 7 0 5]
      = .ok (some [.ok (), .error "delta requires float destination buffer"]) ∧
    results fixedFormat twoStagesLink (.create twoStages twoStagesLink.sender true 0 0)
        (.create twoStages twoStagesLink.receiver true 0 0) [oneFloat 5 PIPELINE_FLAG_DELTA 4]
      = .ok (some [.error "delta base activation missing"]) :=
  ⟨rfl, rfl⟩

end Pipeline
end PrefillOpt
