import PrefillOpt.Lib.Dialogue
import PrefillOpt.Pipeline.DeltaBase

/-!
# Pipeline.ActivationIo — one activation as socket calls

`sendActivation` and `recvActivation` as programs over the sockets of a node: a write of the header
and the writes of the payload, and the reads that match them one for one.  Both ends of a lane need
only bases of one size for a message of any type to be accepted.
-/

namespace PrefillOpt
namespace Pipeline

open Lib Network

variable {β F : Type}

/-! ## The calls -/

/-- The reads of a payload in pieces of `k` cells.  The fuel is the number of cells. -/
def readPieces (a : Port) (k : Nat) : Nat → Nat → Io Port β String (List β)
  | 0, _ => pure []
  | fuel + 1, n =>
      if n = 0 then pure []
      else do
        let piece ← Io.read a (min k n)
        let more ← readPieces a k fuel (n - min k n)
        return piece ++ more

namespace NnPipelineCommunicator

variable (fmt : WireFormat β F) (c : NnPipelineCommunicator F)

/-- `sendActivation` with its calls of `network->write`. -/
def sendActivationIo [Sub F] (targetPpRank : Nat) (a : Activation β) :
    Io Port β String (NnPipelineCommunicator F) := do
  let (socket, writes, c') ← Io.ofExcept (c.sendActivation fmt targetPpRank a)
  Io.each (Io.write (c.myNodeIndex, socket)) writes
  return c'

/-- The payload that a header announces. -/
def readPayloadIo (a : Port) (header : NnPipelineActivationHeader) : Io Port β String (List β) :=
  let streamChunkBytes :=
    if hasFlag header.flags PIPELINE_FLAG_CHUNKED then header.streamChunkBytes else 0
  if streamChunkBytes = 0 then Io.read a header.payloadBytes
  else readPieces a streamChunkBytes header.payloadBytes header.payloadBytes

/-- What a receive makes of a header and the payload behind it. -/
def outcome [Add F] (socket : Nat) (header : NnPipelineActivationHeader) (wire buffer : List β) :
    Received β F :=
  if header.payloadBytes = 0 then ⟨.ok (), header, buffer, c, []⟩
  else match c.decodePayload fmt socket header wire buffer with
    | .error text => ⟨.error text, header, buffer, c, []⟩
    | .ok (buffer, base) => ⟨.ok (), header, buffer, c.received socket base, []⟩

/-- `recvActivation` with its calls of `network->read`. -/
def recvActivationIo [Add F] (sourcePpRank : Nat) (buffer : List β) :
    Io Port β String (Received β F) := do
  if c.topology.ppSize ≤ sourcePpRank then
    throw "Invalid source PP rank for pipeline communication"
  let socket ← Io.ofExcept (c.getPipelineSocketIndex sourcePpRank c.myTpRank)
  let headerBytes ← Io.read (c.myNodeIndex, socket) fmt.headerSize
  let header := fmt.loadHeader headerBytes
  if header.totalPayloadBytes ≠ 0 ∧ header.totalPayloadBytes ≠ header.payloadBytes then
    return ⟨.error "invalid payload sizing", header, buffer, c, []⟩
  let wire ← readPayloadIo (c.myNodeIndex, socket) header
  return c.outcome fmt socket header wire buffer

end NnPipelineCommunicator

/-! ## The calls of the two ends match -/

theorem readPieces_runs (a : Port) {k : Nat} (hk : 0 < k) (fuel n : Nat) (hfuel : n ≤ fuel)
    {xs : List β} (h : xs.length = n) :
    Runs (readPieces a k fuel n) ((cut k fuel xs).map (.inp a)) xs := by
  induction fuel generalizing n xs with
  | zero =>
      have hxs : xs = [] := List.length_eq_zero_iff.mp (by omega)
      subst hxs
      exact Runs.pure _
  | succ fuel ih =>
      unfold readPieces cut
      by_cases hn : n = 0
      · have hxs : xs = [] := List.length_eq_zero_iff.mp (h.trans hn)
        rw [if_pos hn, if_pos hxs, hxs]
        exact Runs.pure _
      · have hxs : xs ≠ [] := fun hnil => hn (h.symm.trans (by rw [hnil]; rfl))
        have hpiece : (xs.take k).length = min k n := by
          rw [List.length_take, h]
        have hrest : (xs.drop k).length = n - min k n := by
          rw [List.length_drop]
          omega
        rw [if_neg hn, if_neg hxs, List.map_cons]
        refine Runs.read_bind hpiece ?_
        have hmore := (ih (n - min k n) (by omega) hrest).bind_pure (xs.take k ++ ·)
        rwa [List.take_append_drop] at hmore

namespace NnPipelineCommunicator

variable (fmt : WireFormat β F) (c d : NnPipelineCommunicator F)

theorem readPayloadIo_runs (p : Port) (s : Nat) (a : Activation β) (wire : List β) :
    Runs (readPayloadIo p (c.activationHeader fmt s a wire))
      ((c.messageWrites fmt s a wire).tail.map (.inp p)) wire := by
  have hbytes : (c.activationHeader fmt s a wire).payloadBytes = wire.length := rfl
  have hstream : (c.activationHeader fmt s a wire).streamChunkBytes
      = c.writeChunkBytes wire.length := rfl
  unfold readPayloadIo messageWrites
  rcases Nat.eq_zero_or_pos (c.writeChunkBytes wire.length) with hzero | hpos
  · simp only [hstream, hzero, ite_self, if_true, hbytes, List.tail_cons]
    exact Runs.read rfl
  · simp only [hstream, c.hasFlag_chunked fmt s a wire hpos, if_true, Nat.ne_of_gt hpos, if_false,
      hbytes, List.tail_cons]
    exact readPieces_runs p hpos _ _ le_rfl rfl

end NnPipelineCommunicator

section Lane

variable {t : NnParallelTopology} {l : StageLink t} (fmt : WireFormat β F)

namespace NnPipelineCommunicator

theorem sendActivationIo_runs [Sub F] {c : NnPipelineCommunicator F} (h : c.Serves l)
    {a : Activation β} {wire : List β} (hwire : c.wirePayload fmt l.socket a = .ok wire) :
    Runs (c.sendActivationIo fmt l.target a)
      ((c.messageWrites fmt l.socket a wire).map (.out (port l.sender l.receiver)))
      (c.sent fmt l.socket a) := by
  have hport : (c.myNodeIndex, l.socket) = port l.sender l.receiver := by
    rw [h.node]
    rfl
  unfold sendActivationIo
  rw [sendActivation_eq fmt h hwire, Io.ofExcept_ok, pure_bind]
  simp only [hport]
  exact (Runs.writes _ _).bind_pure fun _ => c.sent fmt l.socket a

/-- The reads take the message of the sender, and the outcome is that of the stream. -/
theorem recvActivationIo_runs [Add F] {d : NnPipelineCommunicator F} (h : d.Serves l.reverse)
    (c : NnPipelineCommunicator F) (a : Activation β) (wire buffer : List β)
    (hfits : (c.activationHeader fmt l.socket a wire).Fits) :
    Runs (d.recvActivationIo fmt l.source buffer)
      ((c.messageWrites fmt l.socket a wire).map (.inp (port l.receiver l.sender)))
      (d.outcome fmt l.reverse.socket (c.activationHeader fmt l.socket a wire) wire buffer) := by
  have hpp : ¬ t.ppSize ≤ l.source := Nat.not_le.mpr l.source_lt
  have hsocket : d.getPipelineSocketIndex l.source d.myTpRank = .ok l.reverse.socket :=
    getPipelineSocketIndex_eq h
  have hport : (d.myNodeIndex, l.reverse.socket) = port l.receiver l.sender := by
    rw [h.node]
    rfl
  have hsizes : (c.activationHeader fmt l.socket a wire).totalPayloadBytes
      = (c.activationHeader fmt l.socket a wire).payloadBytes := rfl
  have hcons : c.messageWrites fmt l.socket a wire
      = fmt.storeHeader (c.activationHeader fmt l.socket a wire) ::
        (c.messageWrites fmt l.socket a wire).tail := rfl
  unfold recvActivationIo
  simp only [h.topology, if_neg hpp, hsocket, Io.ofExcept_ok, pure_bind]
  rw [hcons, List.map_cons, hport]
  refine Runs.read_bind (fmt.storeHeader_length _) ?_
  rw [fmt.loadHeader_store _ hfits, if_neg (fun hne => hne.2 hsizes)]
  exact (c.readPayloadIo_runs fmt _ l.socket a wire).bind_pure _

end NnPipelineCommunicator

end Lane

/-! ## What a message carries -/

namespace WireFormat

variable (fmt : WireFormat β F)

/-- The bytes of a payload once they are decoded. -/
def carry (dtype : NnFloatType) (data : List β) : List β :=
  if dtype = .f32 then data else fmt.storeFloats (fmt.roundTrip dtype (fmt.loadFloats data))

theorem encode_carry {dtype : NnFloatType} (hdtype : dtype ≠ .unk) {data : List β}
    (hdata : data.length % 4 = 0) {dstBytes : Nat} (hwords : dstBytes % 4 = 0)
    (hroom : data.length ≤ dstBytes) :
    ∃ wire, encodeFromF32 fmt data (selectWireDtype dtype data.length) = .ok wire ∧
      (0 < data.length → 0 < wire.length) ∧
      (fmt.carry dtype data).length = data.length ∧
      decodeToF32 fmt wire (selectWireDtype dtype data.length) dstBytes
        = some (fmt.carry dtype data, data.length / 4) := by
  by_cases hf32 : dtype = .f32
  · subst hf32
    have hselect : selectWireDtype .f32 data.length = .f32 := by simp [selectWireDtype]
    rw [hselect]
    exact ⟨data, if_pos rfl, id, by simp [carry],
      (if_pos rfl).trans (if_neg (Nat.not_lt.mpr hroom))⟩
  · have hlossy : Lossy dtype := by
      cases dtype <;> simp_all [Lossy]
    have hlen : 4 * (fmt.loadFloats data).length = data.length := by
      rw [fmt.loadFloats_length]
      omega
    have hstore : (fmt.storeFloats (fmt.loadFloats data)).length = data.length := by
      rw [fmt.storeFloats_length, hlen]
    rcases fmt.encode_decode hlossy (fmt.loadFloats data) hwords (hlen.symm ▸ hroom) with
      ⟨wire, hencode, hpos, hround, hdecode⟩
    rw [hlen] at hencode hdecode
    -- the encoder sees the data only through its floats
    have hsame : encodeFromF32 fmt data (selectWireDtype dtype data.length)
        = encodeFromF32 fmt (fmt.storeFloats (fmt.loadFloats data))
          (selectWireDtype dtype data.length) := by
      have hne : selectWireDtype dtype data.length ≠ .f32 := by
        rcases selectWireDtype_cases hlossy (fmt.loadFloats data).length with h | ⟨-, h | h⟩ <;>
          · rw [hlen] at h
            rw [h]
            decide
      simp only [encodeFromF32, if_neg hne, hstore, fmt.loadFloats_store]
    refine ⟨wire, hsame.trans hencode, fun h => hpos (by omega), ?_, ?_⟩
    · rw [carry, if_neg hf32, fmt.storeFloats_length, hround, hlen]
    · rw [hdecode, carry, if_neg hf32, fmt.loadFloats_length]

end WireFormat

/-! ## Two ends with bases of one size -/

/-- An activation as the stages send it: whole floats, and no flag of the caller's own. -/
structure Activation.Plain (a : Activation β) : Prop where
  fits : a.Fits
  dtype : a.dtype ≠ .unk
  words : a.data.length % 4 = 0
  flags : a.extraFlags = 0

/-- The sender's base and the receiver's base of a lane have one size; their contents may differ
once a difference has been quantised. -/
structure Linked {t : NnParallelTopology} (l : StageLink t) (c d : NnPipelineCommunicator F) :
    Prop where
  source : c.Serves l
  target : d.Serves l.reverse
  sizes : (c.prevSendBySocket l.socket).length = (d.prevRecvBySocket l.reverse.socket).length

namespace Linked

variable {t : NnParallelTopology} {l : StageLink t} {c d : NnPipelineCommunicator F}

theorem create (l : StageLink t) (on on' : Bool) (minBytes minBytes' chunk chunk' : Nat) :
    Linked l (.create t l.sender on minBytes chunk : NnPipelineCommunicator F)
      (.create t l.receiver on' minBytes' chunk') :=
  ⟨.create l _ _ _, .create l.reverse _ _ _, rfl⟩

/-- What is encoded: the difference to the base, or the data. -/
theorem encodes [Sub F] (fmt : WireFormat β F) (c : NnPipelineCommunicator F) {s : Nat}
    {a : Activation β} (ha : a.Plain) (hpos : 0 < a.data.length) {dstBytes : Nat}
    (hwords : dstBytes % 4 = 0) (hroom : a.data.length ≤ dstBytes) :
    ∃ wire payload, c.wirePayload fmt s a = .ok wire ∧ 0 < wire.length ∧
      (fmt.carry a.dtype payload).length = a.data.length ∧
      decodeToF32 fmt wire (selectWireDtype a.dtype a.data.length) dstBytes
        = some (fmt.carry a.dtype payload, a.data.length / 4) ∧
      (c.useDelta s a.data.length = false → payload = a.data) := by
  let payload := if c.useDelta s a.data.length then
    fmt.storeFloats (List.zipWith (· - ·) (fmt.loadFloats a.data) (c.prevSendBySocket s))
    else a.data
  have hpayload : payload.length = a.data.length := c.wire_f32_length fmt s a
  rcases fmt.encode_carry ha.dtype (hpayload ▸ ha.words) hwords (hpayload ▸ hroom) with
    ⟨wire, hencode, hwirepos, hcarry, hdecode⟩
  rw [hpayload] at hencode hwirepos hcarry hdecode
  refine ⟨wire, payload, ?_, hwirepos hpos, hcarry, hdecode, fun hoff => ?_⟩
  · simp only [NnPipelineCommunicator.wirePayload, Nat.ne_of_gt hpos, if_false]
    rw [← hencode]
    exact (apply_ite (fun p => encodeFromF32 fmt p (selectWireDtype a.dtype a.data.length)) ..).symm
  · exact if_neg (Bool.eq_false_iff.mp hoff)

/-- The receiver takes the branch of the sender and ends with a base of the size of the data. -/
theorem decodes [Add F] (fmt : WireFormat β F) (h : Linked l c d) {a : Activation β} (ha : a.Plain)
    {buffer wire payload : List β} (hroom : a.data.length ≤ buffer.length)
    (hwords : buffer.length % 4 = 0)
    (hcarry : (fmt.carry a.dtype payload).length = a.data.length)
    (hdecode : decodeToF32 fmt wire (selectWireDtype a.dtype a.data.length) buffer.length
      = some (fmt.carry a.dtype payload, a.data.length / 4)) :
    ∃ buffer' base,
      d.decodePayload fmt l.reverse.socket (c.activationHeader fmt l.socket a wire) wire buffer
        = .ok (buffer', base) ∧
      buffer'.length = buffer.length ∧ base.length = a.data.length / 4 ∧
      (c.useDelta l.socket a.data.length = false →
        buffer' = overwrite buffer (fmt.carry a.dtype payload)) := by
  have hextra : hasFlag a.extraFlags PIPELINE_FLAG_DELTA = false := by
    rw [ha.flags]
    rfl
  have hflag := c.hasFlag_delta fmt l.socket a wire
  rw [hextra, Bool.or_false] at hflag
  have hdtype : (c.activationHeader fmt l.socket a wire).dtype
      = selectWireDtype a.dtype a.data.length := rfl
  unfold NnPipelineCommunicator.decodePayload
  rw [hflag, hdtype, hdecode]
  cases hdelta : c.useDelta l.socket a.data.length with
  | true =>
      rcases (c.useDelta_iff l.socket _).mp hdelta with ⟨-, -, -, -, -, hbase⟩
      have hbase' : (d.prevRecvBySocket l.reverse.socket).length = a.data.length / 4 := by
        rw [← h.sizes, hbase]
      have hsum : (List.zipWith (· + ·) (d.prevRecvBySocket l.reverse.socket)
          (fmt.loadFloats (fmt.carry a.dtype payload))).length = a.data.length / 4 := by
        rw [List.length_zipWith, fmt.loadFloats_length, hcarry, hbase', min_self]
      simp only [if_true, hwords, ne_eq, not_true_eq_false, if_false, hbase',
        Nat.not_le.mpr h.target.socket_lt, or_self]
      refine ⟨_, _, rfl, ?_, hsum, by simp⟩
      rw [overwrite, List.length_append, List.length_drop, fmt.storeFloats_length, hsum]
      omega
  | false =>
      have hlen : (overwrite buffer (fmt.carry a.dtype payload)).length = buffer.length := by
        rw [overwrite, List.length_append, List.length_drop, hcarry]
        omega
      refine ⟨_, _, if_neg Bool.false_ne_true, hlen, ?_, fun _ => rfl⟩
      have hdiv : a.data.length / 4 ≤ buffer.length / 4 := Nat.div_le_div_right hroom
      rw [List.length_take, fmt.loadFloats_length, hlen, Nat.min_eq_left hdiv]

/-- A receiver accepts every plain message that fits its buffer, and the bases keep one size.  With
differences off the buffer holds what the message carries. -/
theorem accepts [Add F] [Sub F] (fmt : WireFormat β F) (h : Linked l c d) {a : Activation β}
    (ha : a.Plain) {buffer : List β} (hroom : a.data.length ≤ buffer.length)
    (hwords : buffer.length % 4 = 0) :
    ∃ wire buffer' bases, c.wirePayload fmt l.socket a = .ok wire ∧
      d.outcome fmt l.reverse.socket (c.activationHeader fmt l.socket a wire) wire buffer
        = ⟨.ok (), c.activationHeader fmt l.socket a wire, buffer',
            { d with prevRecvBySocket := bases }, []⟩ ∧
      buffer'.length = buffer.length ∧
      (c.deltaEnabled = false → buffer' = overwrite buffer (fmt.carry a.dtype a.data)) ∧
      ((c.sent fmt l.socket a).prevSendBySocket l.socket).length
        = (bases l.reverse.socket).length := by
  rcases Nat.eq_zero_or_pos a.data.length with hzero | hpos
  · -- a marker: neither base moves
    have hsent : c.sent fmt l.socket a = c := by simp [NnPipelineCommunicator.sent, hzero]
    refine ⟨[], buffer, d.prevRecvBySocket, if_pos hzero, if_pos rfl, rfl, fun _ => ?_, ?_⟩
    · rcases fmt.encode_carry ha.dtype ha.words hwords hroom with ⟨-, -, -, hcarry, -⟩
      rw [List.length_eq_zero_iff.mp (hcarry.trans hzero)]
      rfl
    · rw [hsent]
      exact h.sizes
  · rcases encodes fmt c (s := l.socket) ha hpos hwords hroom with
      ⟨wire, payload, hwire, hwirepos, hcarry, hdecode, hplain⟩
    rcases h.decodes fmt ha hroom hwords hcarry hdecode with
      ⟨buffer', base, hok, hlen, hbase, hoff⟩
    refine ⟨wire, buffer', Function.update d.prevRecvBySocket l.reverse.socket base, hwire, ?_,
      hlen, fun hdelta => ?_, ?_⟩
    · have hbody : ¬ (c.activationHeader fmt l.socket a wire).payloadBytes = 0 :=
        Nat.ne_of_gt hwirepos
      rw [NnPipelineCommunicator.outcome, if_neg hbody, hok]
      exact congrArg (Received.mk _ _ _ · _) (if_pos h.target.socket_lt)
    · have hno : c.useDelta l.socket a.data.length = false := by
        simp [NnPipelineCommunicator.useDelta, NnPipelineCommunicator.canDelta, hdelta]
      rw [hoff hno, hplain hno]
    · rw [NnPipelineCommunicator.sent, if_pos ⟨h.source.socket_lt, hpos⟩]
      simp only [Function.update_self, fmt.loadFloats_length, hbase]

end Linked

end Pipeline
end PrefillOpt
