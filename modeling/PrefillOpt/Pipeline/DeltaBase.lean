import PrefillOpt.Pipeline.Transport

/-!
# Pipeline.DeltaBase — quantised differences and the two bases

With a quantised wire type the sender keeps the activation it was given as its base, the receiver
the activation it reconstructed.  After each message the two bases are therefore the same exactly
when quantisation lost nothing, in that message and in every one before it.
-/

namespace PrefillOpt
namespace Pipeline

open Lib Network

variable {β F : Type}

/-! ## Encoding and decoding a vector -/

/-- The wire types that quantise. -/
def Lossy (dtype : NnFloatType) : Prop :=
  dtype = .f16 ∨ dtype = .q40 ∨ dtype = .q80

namespace WireFormat

variable (fmt : WireFormat β F)

/-- What a vector becomes on the wire of a quantised type. -/
def quantize (wireDtype : NnFloatType) (d : List F) : List β :=
  match wireDtype with
  | .q80 => fmt.quantizeF32toQ80 d
  | .q40 => fmt.quantizeF32toQ40 d
  | _ => d.flatMap fmt.CONVERT_F32_TO_F16

def dequantize (wireDtype : NnFloatType) (wire : List β) : List F :=
  match wireDtype with
  | .q80 => fmt.dequantizeQ80toF32 wire
  | .q40 => fmt.dequantizeQ40toF32 wire
  | _ => fmt.loadHalves wire

/-- The vector a receiver decodes when `d` is sent with the wire type `dtype`. -/
def roundTrip (dtype : NnFloatType) (d : List F) : List F :=
  let wireDtype := selectWireDtype dtype (4 * d.length)
  fmt.dequantize wireDtype (fmt.quantize wireDtype d)

/-- The wire type that is used for `n` floats, and what its block size divides. -/
theorem selectWireDtype_cases {dtype : NnFloatType} (hlossy : Lossy dtype) (n : Nat) :
    selectWireDtype dtype (4 * n) = .f16 ∨
      n % 32 = 0 ∧
        (selectWireDtype dtype (4 * n) = .q80 ∨ selectWireDtype dtype (4 * n) = .q40) := by
  have hfloats : 4 * n % 4 = 0 := Nat.mul_mod_right 4 n
  have hcount : 4 * n / 4 = n := Nat.mul_div_cancel_left n (by decide)
  rcases hlossy with rfl | rfl | rfl
  · exact .inl rfl
  all_goals
    by_cases hblocks : n % 32 = 0
    · right
      simp [selectWireDtype, hfloats, hcount, hblocks]
    · left
      simp [selectWireDtype, hfloats, hcount, hblocks]

/-- What is encoded has as many floats as what is decoded. -/
theorem encode_decode {dtype : NnFloatType} (hlossy : Lossy dtype) (d : List F) {dstBytes : Nat}
    (hwords : dstBytes % 4 = 0) (hroom : 4 * d.length ≤ dstBytes) :
    ∃ wire, encodeFromF32 fmt (fmt.storeFloats d) (selectWireDtype dtype (4 * d.length))
        = .ok wire ∧
      (0 < d.length → 0 < wire.length) ∧
      (fmt.roundTrip dtype d).length = d.length ∧
      decodeToF32 fmt wire (selectWireDtype dtype (4 * d.length)) dstBytes
        = some (fmt.storeFloats (fmt.roundTrip dtype d), d.length) := by
  have hfloats : 4 * d.length % 4 = 0 := Nat.mul_mod_right 4 _
  rcases selectWireDtype_cases hlossy d.length with hf16 | ⟨hblocks, hq80 | hq40⟩
  · have hlen := fmt.halves_length d
    refine ⟨d.flatMap fmt.CONVERT_F32_TO_F16, ?_, ?_, ?_, ?_⟩
    · simp [encodeFromF32, hf16, fmt.storeFloats_length, fmt.loadFloats_store]
    · omega
    · simp only [roundTrip, hf16, dequantize, quantize, fmt.loadHalves_length, hlen]
      omega
    · have hcount : 2 * d.length / 2 = d.length := by omega
      have hfit : ¬ dstBytes / 4 < d.length := by omega
      simp [decodeToF32, hf16, hwords, hlen, hcount, hfit, roundTrip, dequantize, quantize]
  · have hlen := fmt.q80_length d hblocks
    refine ⟨fmt.quantizeF32toQ80 d, ?_, ?_, ?_, ?_⟩
    · simp [encodeFromF32, hq80, fmt.storeFloats_length, fmt.loadFloats_store]
    · omega
    · simp only [roundTrip, hq80, dequantize, quantize]
      rw [fmt.deq80_length _ (by omega)]
      omega
    · have hmod : (fmt.quantizeF32toQ80 d).length % 34 = 0 := by omega
      have hcount : (fmt.quantizeF32toQ80 d).length / 34 * 32 = d.length := by omega
      have hfit : ¬ dstBytes / 4 < d.length := by omega
      simp [decodeToF32, hq80, hwords, hmod, hcount, hfit, roundTrip, dequantize, quantize]
  · have hlen := fmt.q40_length d hblocks
    refine ⟨fmt.quantizeF32toQ40 d, ?_, ?_, ?_, ?_⟩
    · simp [encodeFromF32, hq40, fmt.storeFloats_length, fmt.loadFloats_store]
    · omega
    · simp only [roundTrip, hq40, dequantize, quantize]
      rw [fmt.deq40_length _ (by omega)]
      omega
    · have hmod : (fmt.quantizeF32toQ40 d).length % 18 = 0 := by omega
      have hcount : (fmt.quantizeF32toQ40 d).length / 18 * 32 = d.length := by omega
      have hfit : ¬ dstBytes / 4 < d.length := by omega
      simp [decodeToF32, hq40, hwords, hmod, hcount, hfit, roundTrip, dequantize, quantize]

end WireFormat

/-! ## Matched pairs of calls -/

/-- One vector, the other arguments of its send, and the buffer it is received into. -/
structure VectorSend (β F : Type) where
  seqPosition : Nat
  batchIndex : Nat
  sliceId : Nat
  extraFlags : Nat
  values : List F
  buffer : List β

def VectorSend.activation (fmt : WireFormat β F) (dtype : NnFloatType) (x : VectorSend β F) :
    Activation β :=
  ⟨x.seqPosition, x.batchIndex, x.sliceId, fmt.storeFloats x.values, dtype, x.extraFlags⟩

/-- A vector of `n` floats, a buffer of floats with room for it, and no delta bit of the
caller's own; the other arguments are `NnUint`, and the bytes fit `NnSize`. -/
structure VectorSend.Sized (x : VectorSend β F) (n : Nat) : Prop where
  seqPosition : x.seqPosition < 2 ^ 32
  batchIndex : x.batchIndex < 2 ^ 32
  sliceId : x.sliceId < 2 ^ 32
  extraFlags : x.extraFlags < 2 ^ 32
  bytes : 4 * n < 2 ^ 64
  values : x.values.length = n
  room : 4 * n ≤ x.buffer.length
  words : x.buffer.length % 4 = 0
  flags : hasFlag x.extraFlags PIPELINE_FLAG_DELTA = false

theorem VectorSend.activation_length (fmt : WireFormat β F) (dtype : NnFloatType)
    (x : VectorSend β F) {n : Nat} (hx : x.Sized n) :
    (x.activation fmt dtype).data.length = 4 * n := by
  rw [← hx.values]
  exact fmt.storeFloats_length _

theorem VectorSend.activation_fits (fmt : WireFormat β F) (dtype : NnFloatType)
    (x : VectorSend β F) {n : Nat} (hx : x.Sized n) : (x.activation fmt dtype).Fits :=
  ⟨hx.seqPosition, hx.batchIndex, hx.sliceId, hx.extraFlags,
    (x.activation_length fmt dtype hx).trans_lt hx.bytes⟩

/-- Both ends after one matched pair. -/
structure Pair (β F : Type) where
  sender : NnPipelineCommunicator F
  received : Received β F

/-- Each message is received before the next one is sent. -/
def runPairs [Add F] [Sub F] (fmt : WireFormat β F) (dtype : NnFloatType) (source target : Nat) :
    NnPipelineCommunicator F → NnPipelineCommunicator F → List (VectorSend β F) →
      Except String (Option (List (Pair β F)))
  | _, _, [] => .ok (some [])
  | c, d, x :: xs => do
      let (_, writes, c) ← c.sendActivation fmt target (x.activation fmt dtype)
      match ← d.recvActivation fmt source x.buffer writes.flatten with
      | none => return none
      | some r =>
          match ← runPairs fmt dtype source target c r.comm xs with
          | none => return none
          | some ps => return some (⟨c, r⟩ :: ps)

/-- The vector that is encoded: the difference to the vector sent before, where delta mode
applies, else the vector itself. -/
def transmitted [Sub F] (minBytes : Nat) (prev v : List F) : List F :=
  if 0 < v.length ∧ minBytes ≤ 4 * v.length ∧ prev.length = v.length then
    List.zipWith (· - ·) v prev
  else v

theorem transmitted_length [Sub F] (minBytes : Nat) (prev v : List F) :
    (transmitted minBytes prev v).length = v.length := by
  unfold transmitted
  split_ifs with h
  · rw [List.length_zipWith, h.2.2, min_self]
  · rfl

/-- What the receiver makes of a decoded vector: it adds its base where the sender subtracted. -/
def reconstructed [Add F] (minBytes : Nat) (base decoded : List F) (n : Nat) : List F :=
  if 0 < n ∧ minBytes ≤ 4 * n ∧ base.length = n then List.zipWith (· + ·) base decoded
  else decoded

theorem reconstructed_length [Add F] (minBytes : Nat) (base decoded : List F) {n : Nat}
    (h : decoded.length = n) : (reconstructed minBytes base decoded n).length = n := by
  unfold reconstructed
  split_ifs with hdelta
  · rw [List.length_zipWith, hdelta.2.2, h, min_self]
  · exact h

/-- The two ends of a lane in delta mode, with base vectors of the same size. -/
structure DeltaMode {t : NnParallelTopology} (l : StageLink t) (minBytes n : Nat)
    (c d : NnPipelineCommunicator F) : Prop where
  source : c.Serves l
  target : d.Serves l.reverse
  enabled : c.deltaEnabled = true
  minBytes : c.deltaMinBytes = minBytes
  /-- Nothing was sent yet, or a vector of the common size. -/
  sent : c.prevSendBySocket l.socket = [] ∨ (c.prevSendBySocket l.socket).length = n
  sizes : (d.prevRecvBySocket l.reverse.socket).length = (c.prevSendBySocket l.socket).length

namespace DeltaMode

variable {t : NnParallelTopology} {l : StageLink t} {minBytes n : Nat}
variable {c d : NnPipelineCommunicator F}

theorem useDelta_eq (h : DeltaMode l minBytes n c d) : c.useDelta l.socket (4 * n) = true ↔
    0 < n ∧ minBytes ≤ 4 * n ∧ (c.prevSendBySocket l.socket).length = n := by
  have hcount : 4 * n / 4 = n := Nat.mul_div_cancel_left n (by decide)
  rw [c.useDelta_iff, h.enabled, h.minBytes, hcount]
  have hsocket := h.source.socket_lt
  constructor
  · rintro ⟨hn, -, hmin, -, -, hlen⟩
    exact ⟨by omega, hmin, hlen⟩
  · rintro ⟨hn, hmin, hlen⟩
    exact ⟨by omega, rfl, hmin, Nat.mul_mod_right 4 n, hsocket, hlen⟩

/-- The sender encodes the transmitted vector. -/
theorem wirePayload_eq [AddCommGroup F] (h : DeltaMode l minBytes n c d) (fmt : WireFormat β F)
    (dtype : NnFloatType) (x : VectorSend β F) (hx : x.Sized n) :
    c.wirePayload fmt l.socket (x.activation fmt dtype) = if n = 0 then .ok [] else
      encodeFromF32 fmt
        (fmt.storeFloats (transmitted minBytes (c.prevSendBySocket l.socket) x.values))
        (selectWireDtype dtype (4 * n)) := by
  have hbytes := x.activation_length fmt dtype hx
  have hload : fmt.loadFloats (x.activation fmt dtype).data = x.values := fmt.loadFloats_store _
  unfold NnPipelineCommunicator.wirePayload
  rw [hbytes, hload]
  by_cases hn : n = 0
  · simp [hn]
  have h4 : ¬ 4 * n = 0 := by omega
  simp only [if_neg h4, if_neg hn]
  by_cases hdelta : c.useDelta l.socket (4 * n) = true
  · have hcond := h.useDelta_eq.mp hdelta
    rw [if_pos hdelta, transmitted, if_pos (hx.values.symm ▸ hcond)]
    rfl
  · have hcond := mt h.useDelta_eq.mpr hdelta
    rw [if_neg hdelta, transmitted, if_neg (hx.values.symm ▸ hcond)]
    rfl

/-- The receiver takes the branch the sender took, since its base has the same size. -/
theorem decodePayload_eq [AddCommGroup F] (h : DeltaMode l minBytes n c d) (fmt : WireFormat β F)
    {dtype : NnFloatType} (x : VectorSend β F) (hx : x.Sized n) {wire : List β} {y : List F}
    (hy : y.length = n)
    (hdecode : decodeToF32 fmt wire (selectWireDtype dtype (4 * n)) x.buffer.length
      = some (fmt.storeFloats y, n)) :
    d.decodePayload fmt l.reverse.socket
        (c.activationHeader fmt l.socket (x.activation fmt dtype) wire) wire x.buffer
      = .ok (overwrite x.buffer (fmt.storeFloats
            (reconstructed minBytes (d.prevRecvBySocket l.reverse.socket) y n)),
          reconstructed minBytes (d.prevRecvBySocket l.reverse.socket) y n) := by
  have hbytes := x.activation_length fmt dtype hx
  have hdtype : (c.activationHeader fmt l.socket (x.activation fmt dtype) wire).dtype
      = selectWireDtype dtype (4 * n) := by
    simp only [NnPipelineCommunicator.activationHeader, hbytes]
    rfl
  have hextra : hasFlag (x.activation fmt dtype).extraFlags PIPELINE_FLAG_DELTA = false :=
    hx.flags
  unfold NnPipelineCommunicator.decodePayload
  rw [c.hasFlag_delta, hextra, Bool.or_false, hbytes, hdtype, hdecode]
  by_cases hdelta : c.useDelta l.socket (4 * n) = true
  · have hcond := h.useDelta_eq.mp hdelta
    rw [← h.sizes] at hcond
    simp only [hdelta, if_true, hx.words, ne_eq, not_true_eq_false, if_false, hcond.2.2,
      Nat.not_le.mpr h.target.socket_lt, or_self, fmt.loadFloats_store, reconstructed, hcond,
      and_self]
  · have hcond := mt h.useDelta_eq.mpr hdelta
    rw [← h.sizes] at hcond
    have htake : (fmt.loadFloats (overwrite x.buffer (fmt.storeFloats y))).take n = y := by
      rw [overwrite, fmt.loadFloats_store_append, ← hy, List.take_left]
    simp only [hdelta, Bool.false_eq_true, if_false, reconstructed, if_neg hcond, htake]

/-- One matched pair.  The receive succeeds; the new bases are the vector that was sent and the
vector that was reconstructed from the old base. -/
theorem pair [AddCommGroup F] (h : DeltaMode l minBytes n c d) (fmt : WireFormat β F)
    {dtype : NnFloatType} (hlossy : Lossy dtype) (x : VectorSend β F) (hx : x.Sized n) :
    ∃ writes c' r,
      c.sendActivation fmt l.target (x.activation fmt dtype) = .ok (l.socket, writes, c') ∧
      d.recvActivation fmt l.source x.buffer writes.flatten = .ok (some r) ∧
      r.result = .ok () ∧
      DeltaMode l minBytes n c' r.comm ∧
      c'.prevSendBySocket l.socket = x.values ∧
      r.comm.prevRecvBySocket l.reverse.socket = reconstructed minBytes
        (d.prevRecvBySocket l.reverse.socket)
        (fmt.roundTrip dtype (transmitted minBytes (c.prevSendBySocket l.socket) x.values)) n ∧
      r.buffer = overwrite x.buffer
        (fmt.storeFloats (r.comm.prevRecvBySocket l.reverse.socket)) := by
  have hbytes := x.activation_length fmt dtype hx
  have hwire := h.wirePayload_eq fmt dtype x hx
  have hδ : (transmitted minBytes (c.prevSendBySocket l.socket) x.values).length = n :=
    (transmitted_length ..).trans hx.values
  generalize transmitted minBytes (c.prevSendBySocket l.socket) x.values = δ at hδ hwire
  rcases fmt.encode_decode hlossy δ hx.words (hδ.symm ▸ hx.room) with
    ⟨wire, hencode, hwirepos, hround, hdecode⟩
  rw [hδ] at hencode hwirepos hround hdecode
  have hrecv := fun wire => NnPipelineCommunicator.recvActivation_eq fmt h.target x.buffer
    (c.messageWrites fmt l.socket (x.activation fmt dtype) wire).flatten
  have hmsg := fun wire hwire => c.recvOn_message fmt d l.socket l.reverse.socket
    (x.activation fmt dtype) wire
    (c.activationHeader_fits fmt (x.activation_fits fmt dtype hx) hwire) x.buffer []
  simp only [List.append_nil] at hmsg
  rcases Nat.eq_zero_or_pos n with hn | hn
  · -- no floats: a marker, and both bases are empty
    have hvalues : x.values = [] := List.length_eq_zero_iff.mp (hx.values.trans hn)
    have hp : c.prevSendBySocket l.socket = [] := by
      rcases h.sent with hnil | hlen
      · exact hnil
      · exact List.length_eq_zero_iff.mp (hlen.trans hn)
    have hq : d.prevRecvBySocket l.reverse.socket = [] :=
      List.length_eq_zero_iff.mp (h.sizes.trans (by rw [hp]; rfl))
    have hsent : c.sent fmt l.socket (x.activation fmt dtype) = c := by
      simp [NnPipelineCommunicator.sent, hbytes, hn]
    have hnil : fmt.roundTrip dtype δ = [] := List.length_eq_zero_iff.mp (hround.trans hn)
    rw [if_pos hn] at hwire
    refine ⟨_, _, _, NnPipelineCommunicator.sendActivation_eq fmt h.source hwire,
      by rw [hrecv, hmsg _ hwire], ?_⟩
    rw [hsent]
    simp only [hn, if_true, List.length_nil, hnil]
    refine ⟨trivial, hn ▸ h, by rw [hp, hvalues], ?_, ?_⟩
    · simp [hq, reconstructed]
    · simp [hq, overwrite, WireFormat.storeFloats]
  · have hbase : (c.sent fmt l.socket (x.activation fmt dtype)).prevSendBySocket l.socket
        = x.values := by
      have hpos : 0 < 4 * n := by omega
      have hload : fmt.loadFloats (x.activation fmt dtype).data = x.values :=
        fmt.loadFloats_store _
      simp only [NnPipelineCommunicator.sent, h.source.socket_lt, hbytes, hpos, and_self,
        if_true, Function.update_self, hload]
    rw [if_neg (Nat.ne_of_gt hn), hencode] at hwire
    refine ⟨_, _, _, NnPipelineCommunicator.sendActivation_eq fmt h.source hwire,
      by rw [hrecv, hmsg _ hwire], ?_⟩
    simp only [Nat.ne_of_gt (hwirepos hn), if_false, h.decodePayload_eq fmt x hx hround hdecode,
      NnPipelineCommunicator.received, h.target.socket_lt, if_true, Function.update_self]
    have htarget := h.target.received l.reverse.socket (reconstructed minBytes
      (d.prevRecvBySocket l.reverse.socket) (fmt.roundTrip dtype δ) n)
    rw [NnPipelineCommunicator.received, if_pos h.target.socket_lt] at htarget
    refine ⟨trivial, ⟨h.source.sent fmt _ _, htarget, ?_, ?_, ?_, ?_⟩, hbase, trivial, trivial⟩
    · unfold NnPipelineCommunicator.sent
      split_ifs <;> exact h.enabled
    · unfold NnPipelineCommunicator.sent
      split_ifs <;> exact h.minBytes
    · exact .inr (hbase.symm ▸ hx.values)
    · simp only [hbase, hx.values, Function.update_self, reconstructed_length _ _ _ hround]

end DeltaMode

/-! ## When the bases agree -/

/-- Every vector that is encoded decodes to itself: the first activation, then each difference. -/
def EncodesExactly [Sub F] (fmt : WireFormat β F) (dtype : NnFloatType) (minBytes : Nat) :
    List F → List (VectorSend β F) → Prop
  | _, [] => True
  | prev, x :: xs =>
      fmt.roundTrip dtype (transmitted minBytes prev x.values)
        = transmitted minBytes prev x.values ∧
      EncodesExactly fmt dtype minBytes x.values xs

/-- After every pair the two bases are equal, and what was received differs from what was sent by
the encoding error of the transmitted vector alone. -/
def BasesAgree [Sub F] (fmt : WireFormat β F) (dtype : NnFloatType) (minBytes : Nat)
    {t : NnParallelTopology} (l : StageLink t) :
    List F → List (VectorSend β F) → List (Pair β F) → Prop
  | _, [], [] => True
  | prev, x :: xs, p :: ps =>
      p.sender.prevSendBySocket l.socket
        = p.received.comm.prevRecvBySocket l.reverse.socket ∧
      List.zipWith (· - ·) ((fmt.loadFloats p.received.buffer).take x.values.length) x.values
        = List.zipWith (· - ·) (fmt.roundTrip dtype (transmitted minBytes prev x.values))
            (transmitted minBytes prev x.values) ∧
      BasesAgree fmt dtype minBytes l x.values xs ps
  | _, _, _ => False

theorem zipWith_add_left_cancel [AddCommGroup F] {n : Nat} {p d e : List F} (hp : p.length = n)
    (hd : d.length = n) (he : e.length = n)
    (h : List.zipWith (· + ·) p d = List.zipWith (· + ·) p e) : d = e := by
  induction p generalizing n d e with
  | nil =>
      rw [← hp] at hd he
      rw [List.length_eq_zero_iff.mp hd, List.length_eq_zero_iff.mp he]
  | cons a p ih =>
      rw [← hp] at hd he
      match d, e, hd, he with
      | b :: d, c :: e, hd, he =>
          simp only [List.zipWith_cons_cons, List.cons.injEq, add_right_inj] at h
          rw [h.1, ih rfl (by simpa using hd) (by simpa using he) h.2]

/-- On equal bases the receiver reconstructs what was sent just when nothing was lost. -/
theorem reconstructed_eq_iff [AddCommGroup F] (minBytes : Nat) {prev v decoded : List F} {n : Nat}
    (hv : v.length = n) (hd : decoded.length = n) :
    v = reconstructed minBytes prev decoded n ↔ decoded = transmitted minBytes prev v := by
  unfold reconstructed transmitted
  rw [hv]
  split_ifs with h
  · have hv' : List.zipWith (· + ·) prev (List.zipWith (· - ·) v prev) = v :=
      zipWith_add_sub v prev (hv.trans h.2.2.symm)
    have hlen : (List.zipWith (· - ·) v prev).length = n := by
      rw [List.length_zipWith, hv, h.2.2, min_self]
    constructor
    · intro heq
      exact zipWith_add_left_cancel h.2.2 hd hlen (heq.symm.trans hv'.symm)
    · intro heq
      rw [heq, hv']
  · exact eq_comm

theorem zipWith_sub_self [AddCommGroup F] (xs : List F) :
    List.zipWith (· - ·) xs xs = List.replicate xs.length 0 := by
  induction xs with
  | nil => rfl
  | cons x xs ih =>
      rw [List.zipWith_cons_cons, sub_self, ih]
      rfl

/-- A run of matched pairs from bases of one size.  From equal bases, the bases agree after every
pair just when every transmitted vector is encoded exactly. -/
theorem DeltaMode.run [AddCommGroup F] {t : NnParallelTopology} {l : StageLink t}
    {minBytes n : Nat} {c d : NnPipelineCommunicator F} (h : DeltaMode l minBytes n c d)
    (fmt : WireFormat β F) {dtype : NnFloatType} (hlossy : Lossy dtype)
    (xs : List (VectorSend β F)) (hxs : ∀ x ∈ xs, x.Sized n) :
    ∃ ps, runPairs fmt dtype l.source l.target c d xs = .ok (some ps) ∧
      (∀ p ∈ ps, p.received.result = .ok ()) ∧
      (c.prevSendBySocket l.socket = d.prevRecvBySocket l.reverse.socket →
        (BasesAgree fmt dtype minBytes l (c.prevSendBySocket l.socket) xs ps ↔
          EncodesExactly fmt dtype minBytes (c.prevSendBySocket l.socket) xs)) := by
  induction xs generalizing c d with
  | nil => exact ⟨[], rfl, by simp, fun _ => Iff.rfl⟩
  | cons x xs ih =>
      have hx := hxs x (List.mem_cons_self ..)
      rcases h.pair fmt hlossy x hx with
        ⟨writes, c', r, hsend, hrecv, hok, hmode, hsent, hreceived, hbuffer⟩
      rcases ih hmode fun y hy => hxs y (List.mem_cons_of_mem x hy) with
        ⟨ps, hrun, hresults, hrest⟩
      refine ⟨⟨c', r⟩ :: ps, ?_, ?_, fun hbases => ?_⟩
      · simp only [runPairs, hsend, hrecv, hrun, bind, Except.bind, pure, Except.pure]
      · intro p hp
        rcases List.mem_cons.mp hp with rfl | hp
        · exact hok
        · exact hresults p hp
      have hδ := (transmitted_length minBytes (c.prevSendBySocket l.socket) x.values).trans
        hx.values
      rcases fmt.encode_decode hlossy
        (transmitted minBytes (c.prevSendBySocket l.socket) x.values) hx.words
        (hδ.symm ▸ hx.room) with ⟨-, -, -, hround, -⟩
      rw [hδ] at hround
      rw [← hbases] at hreceived
      -- the bases agree after this pair just when this vector is encoded exactly
      have hpair : c'.prevSendBySocket l.socket = r.comm.prevRecvBySocket l.reverse.socket ↔
          fmt.roundTrip dtype (transmitted minBytes (c.prevSendBySocket l.socket) x.values)
            = transmitted minBytes (c.prevSendBySocket l.socket) x.values := by
        rw [hsent, hreceived]
        exact reconstructed_eq_iff minBytes hx.values hround
      have hpayload : (fmt.loadFloats r.buffer).take x.values.length
          = r.comm.prevRecvBySocket l.reverse.socket := by
        have hlen : (r.comm.prevRecvBySocket l.reverse.socket).length = x.values.length := by
          rw [hreceived, reconstructed_length _ _ _ hround, hx.values]
        rw [hbuffer, overwrite, fmt.loadFloats_store_append, ← hlen, List.take_left]
      unfold BasesAgree EncodesExactly
      simp only [hpayload, hpair]
      constructor
      · rintro ⟨hexact, -, hagree⟩
        have hnext := hpair.mpr hexact
        refine ⟨hexact, ?_⟩
        rw [← hsent] at hagree ⊢
        exact (hrest hnext).mp hagree
      · rintro ⟨hexact, hexacts⟩
        have hnext := hpair.mpr hexact
        refine ⟨hexact, ?_, ?_⟩
        · -- no encoding error, no error at the receiver
          rw [← hnext, hsent, hexact, zipWith_sub_self, zipWith_sub_self, hδ, hx.values]
        · rw [← hsent] at hexacts ⊢
          exact (hrest hnext).mpr hexacts

/-- In delta mode with a quantised wire type, the sender's base and the receiver's base agree after
every matched pair just when every transmitted vector survives its encoding. -/
theorem delta_bases_agree_iff [AddCommGroup F] {t : NnParallelTopology} (l : StageLink t)
    (fmt : WireFormat β F) {dtype : NnFloatType} (hlossy : Lossy dtype) (on' : Bool)
    (minBytes minBytes' chunk chunk' n : Nat) (xs : List (VectorSend β F))
    (hxs : ∀ x ∈ xs, x.Sized n) :
    ∃ ps, runPairs fmt dtype l.source l.target (.create t l.sender true minBytes chunk)
        (.create t l.receiver on' minBytes' chunk') xs = .ok (some ps) ∧
      (∀ p ∈ ps, p.received.result = .ok ()) ∧
      (BasesAgree fmt dtype minBytes l [] xs ps ↔ EncodesExactly fmt dtype minBytes [] xs) := by
  have hmode : DeltaMode l minBytes n
      (.create t l.sender true minBytes chunk : NnPipelineCommunicator F)
      (.create t l.receiver on' minBytes' chunk') :=
    ⟨.create l _ _ _, .create l.reverse _ _ _, rfl, rfl, .inl rfl, rfl⟩
  rcases hmode.run fmt hlossy xs hxs with ⟨ps, hrun, hresults, hiff⟩
  exact ⟨ps, hrun, hresults, hiff rfl⟩

/-! ## Half precision near one -/

/-- A vector of one float, received into a buffer of one float. -/
def oneValue (v : Fixed) : VectorSend UInt8 Fixed :=
  ⟨0, 0, 0, 0, [v], [0, 0, 0, 0]⟩

theorem oneValue_sized (v : Fixed) : (oneValue v).Sized 1 where
  seqPosition := Nat.two_pow_pos 32
  batchIndex := Nat.two_pow_pos 32
  sliceId := Nat.two_pow_pos 32
  extraFlags := Nat.two_pow_pos 32
  bytes := by decide
  values := rfl
  room := Nat.le_refl 4
  words := (by decide : 4 % 4 = 0)
  flags := (by decide : hasFlag 0 PIPELINE_FLAG_DELTA = false)

def oneThenHalves : List (VectorSend UInt8 Fixed) :=
  [oneValue (fixed 1 1), oneValue (fixed 3 2)]

/-- `1` and the step to `3/2` are half-precision numbers. -/
theorem delta_bases_agree_iff_halves :
    ∃ ps, runPairs fixedFormat .f16 twoStagesLink.source twoStagesLink.target
        (.create twoStages twoStagesLink.sender true 0 0)
        (.create twoStages twoStagesLink.receiver true 0 0) oneThenHalves = .ok (some ps) ∧
      (∀ p ∈ ps, p.received.result = .ok ()) ∧
      (BasesAgree fixedFormat .f16 0 twoStagesLink [] oneThenHalves ps ↔
        EncodesExactly fixedFormat .f16 0 [] oneThenHalves) :=
  delta_bases_agree_iff twoStagesLink fixedFormat (.inl rfl) true 0 0 0 0 1 _ (by
    intro x hx
    simp only [oneThenHalves, List.mem_cons, List.not_mem_nil, or_false] at hx
    rcases hx with rfl | rfl
    · exact oneValue_sized _
    · exact oneValue_sized _)

/-- Half precision loses the `1/4096` of the first activation: the bases differ after it. -/
theorem delta_bases_differ :
    ∃ ps, runPairs fixedFormat .f16 twoStagesLink.source twoStagesLink.target
        (.create twoStages twoStagesLink.sender true 0 0)
        (.create twoStages twoStagesLink.receiver true 0 0) [oneValue (fixed 4097 4096)]
          = .ok (some ps) ∧
      ¬ BasesAgree fixedFormat .f16 0 twoStagesLink [] [oneValue (fixed 4097 4096)] ps := by
  have hmode : DeltaMode twoStagesLink 0 1
      (.create twoStages twoStagesLink.sender true 0 0 : NnPipelineCommunicator Fixed)
      (.create twoStages twoStagesLink.receiver true 0 0) :=
    ⟨.create twoStagesLink _ _ _, .create twoStagesLink.reverse _ _ _, rfl, rfl, .inl rfl, rfl⟩
  rcases hmode.run fixedFormat (.inl rfl) [oneValue (fixed 4097 4096)] (by
    intro x hx
    rw [List.mem_singleton.mp hx]
    exact oneValue_sized _) with ⟨ps, hrun, -, hiff⟩
  refine ⟨ps, hrun, fun hagree => ?_⟩
  have hlost : fixedFormat.roundTrip .f16 [fixed 4097 4096] = [fixed 1 1] := by decide +kernel
  have hexact := ((hiff rfl).mp hagree).1
  have hsame : fixedFormat.roundTrip .f16 [fixed 4097 4096] = [fixed 4097 4096] := hexact
  rw [hlost] at hsame
  exact absurd (List.cons.inj hsame).1 (by decide +kernel)

end Pipeline
end PrefillOpt
