import PrefillOpt.Inference.ChunkSize
import PrefillOpt.Lib.Normal
import PrefillOpt.Tokenizer.Text

/-!
# Inference.ContinuousBatching — several prompts decoded in one batch

`inferenceContinuousBatching` of `dllama.cpp` at temperature 0.  The prompts are prefilled one after
the other, then each round picks up to `maxActive` of the unfinished requests, runs their tokens as
one batch and hands each request its next token.  The requests share the cache, whose rows have
positions and no owner, and the one `strBuffer` of the decoder.
-/

namespace PrefillOpt
namespace Inference

open Lib

/-! ## The requests -/

def MAX_CONTROL_BATCH_POS : Nat := 512

structure CbArgs where
  args : AppCliArgs
  seqLen : Nat
  steps : Nat
  decodeCbMaxActive : Nat
  decodeCbMaxNewTokens : Nat
deriving DecidableEq, Repr

structure CbRequestState where
  /-- The prompt. -/
  tokens : List Nat
  pos : Nat
  maxPos : Nat
  token : Nat
  finished : Bool
  generatedText : List UInt8
  /-- The source counts them: `generatedTokens`. -/
  generated : List Nat
deriving DecidableEq, Repr

namespace CbArgs

variable (a : CbArgs)

def maxActive : Except String Nat :=
  let maxActive := if 0 < a.decodeCbMaxActive then min a.decodeCbMaxActive a.args.nBatches
    else a.args.nBatches
  if maxActive < 1 then .error "decode-cb-max-active must be >= 1"
  else if MAX_CONTROL_BATCH_POS < maxActive then
    .error "decode-cb-max-active exceeds control packet batch position capacity"
  else .ok maxActive

/-- A request for the tokens that `encode` has given. -/
def newRequest (tokens : List Nat) : Except String CbRequestState :=
  if tokens.length < 1 then .error "Failed to encode prompt"
  else if a.seqLen < tokens.length then
    .error "Prompt tokens exceed sequence length in prompts-file"
  else if a.steps < tokens.length then .error "Prompt tokens exceed steps in prompts-file"
  else
    let maxPos := min a.seqLen a.steps
    let maxPos := if 0 < a.decodeCbMaxNewTokens then
      min maxPos (u32 (tokens.length + a.decodeCbMaxNewTokens)) else maxPos
    .ok ⟨tokens, 0, maxPos, tokens.getD 0 0, false, [], []⟩

/-- `none` of `resolvePrefillChunkBatchSize` is a crash, which the default stands for. -/
def prefillBatchCap (nPrefillTokens : Nat) : Nat :=
  (resolvePrefillChunkBatchSize a.args nPrefillTokens).getD 1

end CbArgs

/-- `!finished && pos < maxPos` -/
def CbRequestState.active (req : CbRequestState) : Bool :=
  !req.finished && decide (req.pos < req.maxPos)

/-! ## The run -/

/-- The model, the sampler at temperature 0 on a row of logits, the tokenizer, and what the cache
holds at first. -/
structure CbContext (H R : Type) where
  m : Transformer Nat H R
  sample : H → Nat
  tokenizer : Tokenizer
  a : CbArgs
  kv : Kv R
  /-- 0: the last stage sends all logits.  1 (the token) and 2 (the top k): a decode batch of one
  comes without them. -/
  decodeLogitsMode : Nat
  /-- The rows of the root's `logitsPipe` behind the prefill. -/
  logitsPipe : Nat → H

structure CbState (H R : Type) where
  reqs : List CbRequestState
  kv : Kv R
  logitsPipe : Nat → H
  strBuffer : List Cell
  activeCount : Nat
  rrCursor : Nat
  /-- The picked requests that have not got the token of this round yet, with that token. -/
  due : List (Nat × Nat)

namespace CbContext

variable {H R : Type} (ctx : CbContext H R)

/-- `forward` and `sampleToken`, which takes the greatest logit in each mode: the next tokens for a
batch of positions and tokens. -/
def forwardSample (kv : Kv R) (batch : List (Nat × Nat)) : Kv R × List Nat :=
  let out := ctx.m.forward kv batch
  (out.1, out.2.map ctx.sample)

/-- The chunks of a prompt; each takes a token at least, so `fuel` bounds them. -/
def prefillLoop (prefillBatchCap : Nat) : Nat → Kv R → CbRequestState → Kv R × CbRequestState
  | 0, kv, req => (kv, req)
  | fuel + 1, kv, req =>
      if req.pos + 1 < req.tokens.length then
        let remainingTokens := req.tokens.length - 1 - req.pos
        let batchSize :=
          if remainingTokens < prefillBatchCap then remainingTokens else prefillBatchCap
        let batch := (List.range' req.pos batchSize).map fun p => (p, req.tokens.getD p 0)
        let pos := req.pos + batchSize
        prefillLoop prefillBatchCap fuel (ctx.forwardSample kv batch).1
          { req with pos, token := req.tokens.getD pos 0 }
      else (kv, req)

def prefill (kv : Kv R) (req : CbRequestState) : Kv R × CbRequestState :=
  ctx.prefillLoop (ctx.a.prefillBatchCap (req.tokens.length - 1)) req.tokens.length kv req

/-- A request gets its next token. -/
def advance (strBuffer : List Cell) (req : CbRequestState) (nextToken : Nat) :
    CbRequestState × List Cell :=
  let (strBuffer, piece) := ctx.tokenizer.decode strBuffer nextToken none
  ({ req with
    generatedText := req.generatedText ++ (piece.getD []).map Cell.byte
    token := nextToken
    pos := req.pos + 1
    generated := req.generated ++ [nextToken]
    finished := ctx.tokenizer.isEos nextToken || decide (req.maxPos ≤ req.pos + 1) }, strBuffer)

/-! ### One request at a time -/

def decodeLoop : Nat → Kv R → List Cell → CbRequestState → Kv R × CbRequestState
  | 0, kv, _, req => (kv, req)
  | fuel + 1, kv, strBuffer, req =>
      if req.active then
        let (kv, next) := ctx.forwardSample kv [(req.pos, req.token)]
        let (req, strBuffer) := ctx.advance strBuffer req (next.getD 0 0)
        decodeLoop fuel kv strBuffer req
      else (kv, req)

def oneByOne (kv : Kv R) : List CbRequestState → List CbRequestState
  | [] => []
  | req :: reqs =>
      let (kv, req) := ctx.prefill kv req
      let (kv, req) := ctx.decodeLoop req.maxPos kv [] req
      req :: oneByOne kv reqs

/-! ### Rounds -/

def prefillAll (kv : Kv R) : List CbRequestState → Kv R × List CbRequestState
  | [] => (kv, [])
  | req :: reqs =>
      let (kv, req) := ctx.prefill kv req
      let (kv, reqs) := prefillAll kv reqs
      (kv, req :: reqs)

def start (reqs : List CbRequestState) : CbState H R :=
  let (kv, reqs) := ctx.prefillAll ctx.kv reqs
  ⟨reqs, kv, ctx.logitsPipe, [], reqs.length, 0, []⟩

end CbContext

namespace CbState

variable {H R : Type} (s : CbState H R)

def isActive (idx : Nat) : Bool :=
  (s.reqs[idx]?.map CbRequestState.active).getD false

/-- Round robin from `rrCursor` on. -/
def pick (maxActive : Nat) : List Nat :=
  (((List.range s.reqs.length).map fun i => (s.rrCursor + i) % s.reqs.length).filter
    s.isActive).take maxActive

/-- Position and token of a request in the batch. -/
def batchRow (idx : Nat) : Nat × Nat :=
  (s.reqs[idx]?.map fun req => (req.pos, req.token)).getD (0, 0)

end CbState

namespace CbContext

variable {H R : Type} (ctx : CbContext H R) (maxActive : Nat)

/-- What the pipe holds when the logits of a decode batch are in. -/
def recvLogits (logitsPipe : Nat → H) (logits : List H) : Nat → H :=
  if ctx.decodeLogitsMode ≠ 0 ∧ logits.length = 1 then logitsPipe
  else fun i => logits.getD i (logitsPipe i)

/-- `forward` and a `sampleTokenAtBatch` for each picked request; this one reads the pipe in each
mode. -/
def forwardRound (s : CbState H R) (picked : List Nat) : CbState H R :=
  let (kv, logits) := ctx.m.forward s.kv (picked.map s.batchRow)
  let logitsPipe := ctx.recvLogits s.logitsPipe logits
  { s with
    kv
    logitsPipe
    rrCursor := (picked.getLastD 0 + 1) % s.reqs.length
    due := picked.zipIdx.map fun (idx, i) => (idx, ctx.sample (logitsPipe i)) }

def turn (s : CbState H R) (idx nextToken : Nat) (due : List (Nat × Nat)) : CbState H R :=
  match s.reqs[idx]? with
  | none => { s with due }
  | some req =>
      let (req, strBuffer) := ctx.advance s.strBuffer req nextToken
      { s with
        reqs := s.reqs.set idx req
        strBuffer := if req.finished then [] else strBuffer
        activeCount := if req.finished then s.activeCount - 1 else s.activeCount
        due }

/-- A forward, or the turn of the next request of the round; `none` at the end. -/
def step (s : CbState H R) : Option (CbState H R) :=
  match s.due with
  | (idx, nextToken) :: due => some (ctx.turn s idx nextToken due)
  | [] =>
      if s.activeCount = 0 then none
      else
        let picked := s.pick maxActive
        if picked = [] then none else some (ctx.forwardRound s picked)

/-- What the loop has left to do: positions, and whether a forward comes before the next one. -/
def size (s : CbState H R) : Nat :=
  2 * (s.reqs.map fun req => if req.active then req.maxPos - req.pos else 0).sum
    + if s.due = [] then 1 else 0

/-- The state after `n` steps. -/
def after (reqs : List CbRequestState) (n : Nat) : CbState H R :=
  iterate (ctx.step maxActive) n (ctx.start reqs)

def batched (reqs : List CbRequestState) : List CbRequestState :=
  (ctx.after maxActive reqs (size (ctx.start reqs))).reqs

/-- The requests at the end, for the tokens of the prompts. -/
def inferenceContinuousBatching (prompts : List (List Nat)) :
    Except String (List CbRequestState) := do
  let maxActive ← ctx.a.maxActive
  let reqs ← prompts.mapM ctx.a.newRequest
  return if maxActive = 1 then ctx.oneByOne ctx.kv reqs else ctx.batched maxActive reqs

end CbContext

end Inference
end PrefillOpt
