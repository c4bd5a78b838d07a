import PrefillOpt.Inference.PromptSchedule
import PrefillOpt.Tokenizer.Text

/-!
# Api.ApiServer — chat completions and the prompt cache

`NaiveCache` and `ApiServer::complete` of `dllama-api.cpp`.  The cache of a conversation remembers
up to which position the rows of the model belong to it.  The model's answers are an argument of a
request, and so is the write on the socket that fails.
-/

namespace PrefillOpt
namespace Api

open Inference

structure ChatMessage where
  role : List UInt8
  content : List UInt8
deriving DecidableEq, Repr

structure NaiveCacheItem where
  endPos : Nat
  message : ChatMessage
deriving DecidableEq, Repr

/-- The cache afterwards, and on a hit the start position with the messages that are left. -/
def resolveDeltaPrompt (cache : List NaiveCacheItem) (messages : List ChatMessage) :
    List NaiveCacheItem × Option (Nat × List ChatMessage) :=
  match cache.getLast? with
  | none => (cache, none)
  | some item =>
      if cache.length < messages.length ∧
          cache.map NaiveCacheItem.message = messages.take cache.length then
        (cache, some (item.endPos, messages.drop cache.length))
      else ([], none)

/-- What `complete` works with. -/
structure ApiConfig where
  seqLen : Nat
  seqLen_lt : seqLen < 2 ^ 32
  tokenizer : Tokenizer
  stops : EosStops
  /-- `ChatTemplateGenerator::generate`: the prompt, and the part of it that is shown. -/
  template : List ChatMessage → List UInt8 × Option (List UInt8)
  /-- `Tokenizer::encode`: the array as the call leaves it, and how many tokens there are. -/
  encode : List UInt8 → Bool → (Nat → Nat) × Nat
  /-- `resolvePrefillChunkBatchSize`, which is at least 1. -/
  prefillBatchCap : Nat → Nat
  prefillBatchCap_pos : ∀ n, 0 < prefillBatchCap n

structure Request where
  messages : List ChatMessage
  /-- `-1` where the request has none. -/
  maxTokens : Int
  stream : Bool
  /-- The tokens that are sampled, one after the other. -/
  sampled : Nat → Nat
  /-- The write that fails, counted from 0. -/
  failWrite : Option Nat
  /-- `int token;` has no value at first. -/
  unset : Nat

/-- `due` is not in the source: the tokens that the cached messages stand for, those of the prompts
and the sampled ones whose text is in an answer. -/
structure ApiServer (R : Type) where
  kv : Kv R
  naiveCache : List NaiveCacheItem
  due : List Nat

/-! ## The text of an answer -/

/-- `type` is that of the last token, `deltas` counts the deltas that were given out. -/
structure Speech where
  strBuffer : List Cell
  eosDetector : EosDetector
  buffer : List Cell
  type : EosDetectorType
  deltas : Nat

variable (api : ApiConfig)

/-- Before the first token. -/
def Speech.start (publicPrompt : Option (List UInt8)) : Speech where
  strBuffer := []
  eosDetector := ⟨[], none⟩
  buffer := (publicPrompt.getD []).map fun byte => ⟨byte, none⟩
  type := .notEos
  deltas := 0

/-- The `k`-th sampled token. -/
def Speech.step (t : Speech) (k token : Nat) : Speech :=
  let (strBuffer, piece) := api.tokenizer.decode t.strBuffer token (some k)
  let (eosDetector, type) := api.stops.append t.eosDetector token piece
  if type = .notEos ∨ type = .eos then
    match eosDetector.getDelta with
    | some delta => ⟨strBuffer, eosDetector.reset, t.buffer ++ delta, type, t.deltas + 1⟩
    | none => ⟨strBuffer, eosDetector.reset, t.buffer, type, t.deltas⟩
  else ⟨strBuffer, eosDetector, t.buffer, type, t.deltas⟩

/-- The text after `k` sampled tokens. -/
def speech (publicPrompt : Option (List UInt8)) (sampled : Nat → Nat) : Nat → Speech
  | 0 => .start publicPrompt
  | k + 1 => (speech publicPrompt sampled k).step api k (sampled k)

/-- Some of the text comes from the `k`-th sampled token. -/
def Speech.Says (t : Speech) (k : Nat) : Prop :=
  some k ∈ t.buffer.map Cell.source

instance (t : Speech) (k : Nat) : Decidable (t.Says k) :=
  inferInstanceAs (Decidable (some k ∈ t.buffer.map Cell.source))

/-! ## A request -/

/-- The local variables of `complete` before the first write. -/
structure Prompt where
  startPos : Nat
  deltaPrompt : List ChatMessage
  publicPrompt : Option (List UInt8)
  promptTokens : Nat → Nat
  nPromptTokens : Nat
  promptEndPos : Nat
  maxPredPos : Nat

def prompt (cache : List NaiveCacheItem) (req : Request) : Prompt :=
  let hit := (resolveDeltaPrompt cache req.messages).2.getD (0, req.messages)
  let startPos := hit.1
  let inputPrompt := api.template hit.2
  let tokens := api.encode inputPrompt.1 (startPos == 0)
  let promptEndPos := min (u32 (startPos + tokens.2 + (2 ^ 32 - 1))) api.seqLen
  let maxPredPos :=
    if 0 < req.maxTokens then u32 (promptEndPos + req.maxTokens.toNat) else api.seqLen
  { startPos
    deltaPrompt := hit.2
    publicPrompt := inputPrompt.2
    promptTokens := tokens.1
    nPromptTokens := tokens.2
    promptEndPos
    maxPredPos := min maxPredPos api.seqLen }

/-- The writes before the first token: the start of a stream and the public part of the prompt. -/
def firstWrites (req : Request) (publicPrompt : Option (List UInt8)) : Nat :=
  if req.stream then (if publicPrompt.isSome then 2 else 1) else 0

variable {R H : Type} (m : Transformer Nat H R)

/-- The loop over the chunks of the prompt: the rows, the position and the next token. -/
def prefill (promptTokens : Nat → Nat) (promptEndPos cap : Nat) :
    Nat → Kv R → Nat → Nat → Nat → Kv R × Nat × Nat
  | 0, kv, _, pos, token => (kv, pos, token)
  | fuel + 1, kv, i, pos, token =>
      let remainingTokens := u32 (promptEndPos + (2 ^ 32 - pos))
      if remainingTokens = 0 then (kv, pos, token)
      else
        let batchSize := if remainingTokens < cap then remainingTokens else cap
        let batch := (List.range batchSize).map fun j => (pos + j, promptTokens (i + j))
        -- `i` is increased before it is used for the next token
        prefill promptTokens promptEndPos cap fuel (m.forward kv batch).1 (i + batchSize)
          (u32 (pos + batchSize)) (promptTokens (i + batchSize + 1))

inductive Generated (R : Type) where
  /-- The loop has ended after `steps` tokens. -/
  | ended (kv : Kv R) (steps : Nat) (t : Speech)
  | writeFailed (kv : Kv R)

/-- The loop over the sampled tokens, from position `pos + k` on. -/
def generate (req : Request) (first pos : Nat) : Nat → Nat → Kv R → Nat → Speech → Generated R
  | 0, k, kv, _, t => .ended kv k t
  | fuel + 1, k, kv, token, t =>
      let kv := (m.forward kv [(pos + k, token)]).1
      let t' := t.step api k (req.sampled k)
      if req.stream ∧ t.deltas < t'.deltas ∧ req.failWrite = some (first + t.deltas) then
        .writeFailed kv
      else if t'.type = .eos then .ended kv (k + 1) t'
      else generate req first pos fuel (k + 1) kv (req.sampled k) t'

/-- The sampled tokens whose text is in the answer. -/
def spoken (req : Request) (steps : Nat) (t : Speech) : List Nat :=
  ((List.range steps).filter fun k => t.Says k).map req.sampled

def assistant : List UInt8 :=
  [97, 115, 115, 105, 115, 116, 97, 110, 116]

/-- From the first push to the cache on; `cache` and `due` are what the look-up has left.  The
writes after the loop come after the last change of the state. -/
def answer (req : Request) (p : Prompt) (kv : Kv R) (cache : List NaiveCacheItem)
    (due : List Nat) : ApiServer R :=
  let cache := cache ++ p.deltaPrompt.map fun message => ⟨p.promptEndPos, message⟩
  let due := due ++ (List.range p.nPromptTokens).map p.promptTokens
  let first := firstWrites req p.publicPrompt
  if ∃ w < first, req.failWrite = some w then ⟨kv, cache, due⟩
  else
    let promptPrefillTokens :=
      if p.startPos < p.promptEndPos then p.promptEndPos - p.startPos else 0
    let fuel := u32 (p.promptEndPos + (2 ^ 32 - p.startPos))
    let (kv, pos, token) := prefill m p.promptTokens p.promptEndPos
      (api.prefillBatchCap promptPrefillTokens) fuel kv 0 p.startPos req.unset
    match generate api m req first pos (p.maxPredPos - pos) 0 kv token (.start p.publicPrompt) with
    | .writeFailed kv => ⟨kv, cache, due⟩
    | .ended kv steps t =>
        if pos + steps = api.seqLen then ⟨kv, [], []⟩
        else
          let chatMessage := ⟨assistant, t.buffer.map Cell.byte⟩
          ⟨kv, cache ++ [⟨pos + steps, chatMessage⟩], due ++ spoken req steps t⟩

def complete (s : ApiServer R) (req : Request) : ApiServer R :=
  let cache := (resolveDeltaPrompt s.naiveCache req.messages).1
  answer api m req (prompt api s.naiveCache req) s.kv cache (if cache = [] then [] else s.due)

end Api
end PrefillOpt
