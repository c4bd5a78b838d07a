import Mathlib.Data.Int.Lemmas
import Mathlib.Data.List.Nodup
import PrefillOpt.Core
import PrefillOpt.Inference.Transformer

/-!
# Inference.PromptSchedule — how the modes feed a prompt

`inference`, `chat` and `ApiServer::complete` feed a prompt in chunks and hand one token over to the
decode loop.  The three loops are one, with different ways to count the rest and to index the array
of tokens.
-/

namespace PrefillOpt
namespace Inference

/-! ## The chunk loop -/

structure Chunk where
  pos : Nat
  /-- The entries of the token array that the batch is filled with. -/
  sources : List Int
  /-- The entry that the variable `token` gets after the chunk. -/
  next : Int
deriving DecidableEq, Repr

structure PromptLoop where
  /-- `remainingTokens` at a position. -/
  remaining : Nat → Int
  prefillBatchCap : Nat
  /-- By the running index. -/
  source : Nat → Int
  /-- By the running index and the position after a chunk. -/
  handOver : Nat → Nat → Int

namespace PromptLoop

variable (c : PromptLoop)

/-- The chunks from the running index `i` and the position `pos` on. -/
def chunks : Nat → Nat → Nat → List Chunk
  | 0, _, _ => []
  | fuel + 1, i, pos =>
      if c.remaining pos ≤ 0 then []
      else
        let batchSize :=
          if c.remaining pos < c.prefillBatchCap then (c.remaining pos).toNat else c.prefillBatchCap
        let sources := (List.range batchSize).map fun j => c.source (i + j)
        let i := u32 (i + batchSize)
        let pos' := u32 (pos + batchSize)
        ⟨pos, sources, c.handOver i pos'⟩ :: chunks fuel i pos'

/-- The whole loop; every chunk takes one of the remaining tokens at least. -/
def run (startPos : Nat) : List Chunk :=
  c.chunks (c.remaining startPos).toNat 0 startPos

end PromptLoop

namespace Chunk

/-- What the chunk feeds: positions with entries of the array. -/
def fed (k : Chunk) : List (Nat × Int) :=
  (List.range' k.pos k.sources.length).zip k.sources

/-- The position behind the chunk. -/
def endPos (k : Chunk) : Nat :=
  k.pos + k.sources.length

theorem exists_fed {k : Chunk} {i : Int} (hi : i ∈ k.sources) : ∃ p, (p, i) ∈ k.fed := by
  have hsnd : k.fed.map Prod.snd = k.sources := by
    apply List.map_snd_zip
    rw [List.length_range']
  rw [← hsnd] at hi
  rcases List.mem_map.1 hi with ⟨f, hf, rfl⟩
  exact ⟨f.1, hf⟩

/-- Chunks one behind the other, from position `pos` to `endPos`. -/
def Consecutive : Nat → Nat → List Chunk → Prop
  | pos, endPos, [] => pos = endPos
  | pos, endPos, k :: ks => k.pos = pos ∧ Consecutive k.endPos endPos ks

theorem Consecutive.le {pos endPos : Nat} {ks : List Chunk} (h : Consecutive pos endPos ks) :
    pos ≤ endPos := by
  induction ks generalizing pos with
  | nil => exact Nat.le_of_eq h
  | cons k ks ih =>
      have hk := ih h.2
      rw [← h.1]
      exact Nat.le_trans (Nat.le_add_right k.pos _) hk

theorem Consecutive.endPos_le {pos endPos : Nat} {ks : List Chunk} (h : Consecutive pos endPos ks)
    {k : Chunk} (hk : k ∈ ks) : k.endPos ≤ endPos := by
  induction ks generalizing pos with
  | nil => cases hk
  | cons k' ks ih =>
      rcases List.mem_cons.1 hk with rfl | hk
      · exact h.2.le
      · exact ih h.2 hk

theorem Consecutive.getD_endPos {pos endPos : Nat} {ks : List Chunk}
    (h : Consecutive pos endPos ks) : (ks.getLast?.map Chunk.endPos).getD pos = endPos := by
  induction ks generalizing pos with
  | nil => exact h
  | cons k ks ih =>
      rw [List.getLast?_cons]
      have hks := ih h.2
      cases hlast : ks.getLast? with
      | none =>
          rw [hlast] at hks
          exact hks
      | some k' =>
          rw [hlast] at hks
          exact hks

/-- The last chunk of a non-empty schedule goes to its end. -/
theorem Consecutive.exists_endPos {pos endPos : Nat} {ks : List Chunk}
    (h : Consecutive pos endPos ks) (hlt : pos < endPos) : ∃ k ∈ ks, k.endPos = endPos := by
  induction ks generalizing pos with
  | nil => exact absurd h (Nat.ne_of_lt hlt)
  | cons k ks ih =>
      rcases Nat.lt_or_ge k.endPos endPos with hk | hk
      · rcases ih h.2 hk with ⟨k', hmem, hend⟩
        exact ⟨k', List.mem_cons_of_mem k hmem, hend⟩
      · exact ⟨k, List.mem_cons_self, Nat.le_antisymm h.2.le hk⟩

end Chunk

/-- What the chunks of a loop are, from `pos` to `endPos`. -/
structure Covers (c : PromptLoop) (i pos endPos : Nat) (ks : List Chunk) : Prop where
  consecutive : Chunk.Consecutive pos endPos ks
  sizes : ∀ k ∈ ks, 1 ≤ k.sources.length ∧ k.sources.length ≤ c.prefillBatchCap
  fed : ks.flatMap Chunk.fed = (List.range (endPos - pos)).map fun n => (pos + n, c.source (i + n))
  next : ∀ k ∈ ks, ∃ n, 0 < n ∧ pos + n ≤ endPos ∧ k.next = c.handOver (i + n) (pos + n)
  token : ks.getLast?.map Chunk.next
    = if pos < endPos then some (c.handOver (i + (endPos - pos)) endPos) else none

theorem Covers.nil (c : PromptLoop) (i pos : Nat) : Covers c i pos pos [] where
  consecutive := rfl
  sizes _ h := by cases h
  fed := by
    rw [Nat.sub_self]
    rfl
  next _ h := by cases h
  token := (if_neg (Nat.lt_irrefl pos)).symm

theorem Covers.cons {c : PromptLoop} {i pos endPos b : Nat} {ks : List Chunk} (hb : 1 ≤ b)
    (hcap : b ≤ c.prefillBatchCap) (h : Covers c (i + b) (pos + b) endPos ks) :
    Covers c i pos endPos
      (⟨pos, (List.range b).map fun j => c.source (i + j), c.handOver (i + b) (pos + b)⟩ :: ks) := by
  have hle := h.consecutive.le
  have hlen : ((List.range b).map fun j => c.source (i + j)).length = b := by
    rw [List.length_map, List.length_range]
  refine ⟨⟨rfl, ?_⟩, ?_, ?_, ?_, ?_⟩
  · rw [Chunk.endPos, hlen]
    exact h.consecutive
  · intro k hk
    rcases List.mem_cons.1 hk with rfl | hk
    · rw [hlen]
      exact ⟨hb, hcap⟩
    · exact h.sizes k hk
  · have hsplit : endPos - pos = b + (endPos - (pos + b)) := by omega
    rw [List.flatMap_cons, h.fed, hsplit, List.range_add, List.map_append, List.map_map]
    refine congrArg₂ _ ?_ ?_
    · rw [Chunk.fed, hlen, List.range'_eq_map_range, List.zip_map']
    · apply List.map_congr_left
      intro n _
      simp only [Function.comp_apply, Nat.add_assoc]
  · intro k hk
    rcases List.mem_cons.1 hk with rfl | hk
    · exact ⟨b, hb, hle, rfl⟩
    · rcases h.next k hk with ⟨n, hn, hend, hnext⟩
      refine ⟨b + n, Nat.add_pos_left hb n, ?_, ?_⟩
      · rw [← Nat.add_assoc]
        exact hend
      · rw [← Nat.add_assoc, ← Nat.add_assoc]
        exact hnext
  · have hlt : pos < endPos := by omega
    rw [if_pos hlt, List.getLast?_cons]
    by_cases hmore : pos + b < endPos
    · have htoken := h.token
      have hindex : i + b + (endPos - (pos + b)) = i + (endPos - pos) := by omega
      rw [if_pos hmore, hindex] at htoken
      cases hlast : ks.getLast? with
      | none =>
          rw [hlast] at htoken
          cases htoken
      | some k =>
          rw [hlast] at htoken
          exact htoken
    · have heq : endPos = pos + b := by omega
      have htoken := h.token
      rw [if_neg hmore] at htoken
      have hlast : ks.getLast? = none := Option.map_eq_none_iff.1 htoken
      rw [hlast, heq, Nat.add_sub_cancel_left]
      rfl

/-- One chunk, when `n` tokens are left. -/
theorem PromptLoop.chunks_succ {c : PromptLoop} {fuel i pos n : Nat}
    (h : c.remaining pos = (n : Nat)) :
    c.chunks (fuel + 1) i pos
      = if n = 0 then []
        else
          let b := if n < c.prefillBatchCap then n else c.prefillBatchCap
          ⟨pos, (List.range b).map fun j => c.source (i + j),
            c.handOver (u32 (i + b)) (u32 (pos + b))⟩ ::
            c.chunks fuel (u32 (i + b)) (u32 (pos + b)) := by
  rw [chunks]
  simp only [h, Int.toNat_natCast, Int.ofNat_lt]
  by_cases hzero : n = 0
  · have hle : (n : Int) ≤ 0 := by omega
    rw [if_pos hle, if_pos hzero]
  · have hlt : ¬(n : Int) ≤ 0 := by omega
    rw [if_neg hlt, if_neg hzero]

/-- The loop covers the positions up to `endPos` when it counts the rest up to there. -/
theorem PromptLoop.covers {c : PromptLoop} (hcap : 1 ≤ c.prefillBatchCap) {endPos : Nat}
    (hend : endPos < 2 ^ 32) {fuel i pos : Nat} (hpos : pos ≤ endPos) (hi : i ≤ pos)
    (hfuel : endPos - pos ≤ fuel)
    (hremaining : ∀ p, pos ≤ p → p ≤ endPos → c.remaining p = (endPos - p : Nat)) :
    Covers c i pos endPos (c.chunks fuel i pos) := by
  induction fuel generalizing i pos with
  | zero =>
      have heq : pos = endPos := by omega
      rw [chunks, heq]
      exact .nil c i endPos
  | succ fuel ih =>
      rw [chunks_succ (hremaining pos (Nat.le_refl pos) hpos)]
      by_cases hdone : pos = endPos
      · have hzero : endPos - pos = 0 := by omega
        rw [if_pos hzero, hdone]
        exact .nil c i endPos
      · have hrest : ¬endPos - pos = 0 := by omega
        rw [if_neg hrest]
        simp only
        generalize hb : (if endPos - pos < c.prefillBatchCap then endPos - pos
          else c.prefillBatchCap) = b
        have hsize : 1 ≤ b ∧ b ≤ c.prefillBatchCap ∧ pos + b ≤ endPos := by
          rw [← hb]
          split_ifs <;> omega
        rcases hsize with ⟨hbpos, hbcap, hble⟩
        rw [u32_of_lt (by omega : i + b < 2 ^ 32), u32_of_lt (by omega : pos + b < 2 ^ 32)]
        apply Covers.cons hbpos hbcap
        apply ih hble (by omega) (by omega)
        intro p hp
        exact hremaining p (Nat.le_trans (Nat.le_add_right pos b) hp)

theorem PromptLoop.run_covers {c : PromptLoop} (hcap : 1 ≤ c.prefillBatchCap) {pos endPos : Nat}
    (hend : endPos < 2 ^ 32) (hpos : pos ≤ endPos)
    (hremaining : ∀ p, pos ≤ p → p ≤ endPos → c.remaining p = (endPos - p : Nat)) :
    Covers c 0 pos endPos (c.run pos) := by
  have hfuel : endPos - pos ≤ (c.remaining pos).toNat := by
    rw [hremaining pos (Nat.le_refl pos) hpos, Int.toNat_natCast]
  exact covers hcap hend hpos (Nat.zero_le pos) hfuel hremaining

/-! ## The entries that are read -/

/-- Every entry of the token array that the chunks read. -/
def reads (ks : List Chunk) : List Int :=
  ks.flatMap fun k => k.next :: k.sources

/-- The variable `token` behind the loop. -/
def handedOver (tokens : Int → Nat) (token : Nat) (ks : List Chunk) : Nat :=
  match ks.getLast? with
  | some k => tokens k.next
  | none => token

/-! ## `chat` and `ApiServer::complete` -/

section PromptAndAnswer

variable (prefillBatchCap seqLen startPos nTokens : Nat)

/-- `userPromptEndPos`, `promptEndPos`. -/
def promptEndPos : Nat :=
  min seqLen (u32 (startPos + nTokens + (2 ^ 32 - 1)))

/-- `chat` counts the rest in an `int`. -/
def chatLoop : PromptLoop where
  remaining pos := i32 (u32 (promptEndPos seqLen startPos nTokens + (2 ^ 32 - pos)))
  prefillBatchCap
  source i := u32 i
  handOver i _ := u32 (i + 1)

/-- `ApiServer::complete` counts the rest in a `long`. -/
def apiLoop : PromptLoop where
  remaining pos := u32 (promptEndPos seqLen startPos nTokens + (2 ^ 32 - pos))
  prefillBatchCap
  source i := u32 i
  handOver i _ := u32 (i + 1)

def chatPrefill : List Chunk :=
  (chatLoop prefillBatchCap seqLen startPos nTokens).run startPos

def apiPrefill : List Chunk :=
  (apiLoop prefillBatchCap seqLen startPos nTokens).run startPos

end PromptAndAnswer

/-- A prompt of `nTokens` tokens is fed from `startPos` on, the last token first in the decode loop,
and nothing behind it is read.  `token` is what the variable holds before the chunks. -/
structure FeedsPrompt (tokens : Int → Nat) (token startPos nTokens : Nat) (ks : List Chunk) :
    Prop where
  fed : ks.flatMap Chunk.fed = (List.range (nTokens - 1)).map fun j => (startPos + j, (j : Int))
  decodePos : Chunk.Consecutive startPos (startPos + (nTokens - 1)) ks
  decodeToken : handedOver tokens token ks = tokens (nTokens - 1 : Nat)
  reads : ∀ i ∈ reads ks, 0 ≤ i ∧ i < nTokens

variable {tokens : Int → Nat} {token prefillBatchCap seqLen startPos nTokens : Nat}

theorem promptEndPos_eq (hn : 1 ≤ nTokens) (hseq : seqLen < 2 ^ 32)
    (hend : startPos + (nTokens - 1) < seqLen) :
    promptEndPos seqLen startPos nTokens = startPos + (nTokens - 1) := by
  rw [promptEndPos, u32]
  omega

/-- A loop that hands over the entry behind the next one is right for a single token at most. -/
theorem feedsPrompt_iff {c : PromptLoop} {ks : List Chunk} (hn : 1 ≤ nTokens)
    (hlt : nTokens < 2 ^ 32) (hhandOver : ∀ i p, c.handOver i p = u32 (i + 1))
    (h : Covers c 0 startPos (startPos + (nTokens - 1)) ks) :
    FeedsPrompt tokens token startPos nTokens ks ↔ nTokens = 1 ∧ token = tokens 0 := by
  constructor
  · intro hfeeds
    by_cases hone : nTokens = 1
    · subst hone
      have hempty : ks.getLast? = none := by
        have htoken := h.token
        rw [Nat.sub_self, Nat.add_zero, if_neg (Nat.lt_irrefl startPos)] at htoken
        exact Option.map_eq_none_iff.1 htoken
      have htoken := hfeeds.decodeToken
      rw [handedOver, hempty] at htoken
      exact ⟨rfl, htoken⟩
    · -- the last chunk reads the entry behind the prompt
      have hsome : startPos < startPos + (nTokens - 1) := by omega
      have htoken := h.token
      rw [if_pos hsome, hhandOver, u32_of_lt (by omega)] at htoken
      rcases Option.map_eq_some_iff.1 htoken with ⟨k, hlast, hnext⟩
      have hread : k.next ∈ reads ks :=
        List.mem_flatMap.2 ⟨k, List.mem_of_getLast? hlast, List.mem_cons_self⟩
      have hbound := (hfeeds.reads k.next hread).2
      rw [hnext] at hbound
      omega
  · rintro ⟨rfl, htoken⟩
    have hnil : ks = [] := by
      have hlast := h.token
      rw [Nat.sub_self, Nat.add_zero, if_neg (Nat.lt_irrefl startPos)] at hlast
      exact List.getLast?_eq_none_iff.1 (Option.map_eq_none_iff.1 hlast)
    subst hnil
    exact ⟨rfl, rfl, htoken, fun i hi => by cases hi⟩

/-- The prompt of a chat or of an API request is fed as it should be only if it is one token, and
this is what `token` already holds. -/
theorem prefill_feedsPrompt_iff (hn : 1 ≤ nTokens) (hint : nTokens < 2 ^ 31)
    (hseq : seqLen < 2 ^ 32) (hend : startPos + (nTokens - 1) < seqLen)
    (hcap : 1 ≤ prefillBatchCap) :
    (FeedsPrompt tokens token startPos nTokens
        (chatPrefill prefillBatchCap seqLen startPos nTokens) ↔ nTokens = 1 ∧ token = tokens 0) ∧
      (FeedsPrompt tokens token startPos nTokens
        (apiPrefill prefillBatchCap seqLen startPos nTokens) ↔ nTokens = 1 ∧ token = tokens 0) := by
  have hendlt : startPos + (nTokens - 1) < 2 ^ 32 := Nat.lt_trans hend hseq
  have hrest : ∀ p, startPos ≤ p → p ≤ startPos + (nTokens - 1) →
      u32 (promptEndPos seqLen startPos nTokens + (2 ^ 32 - p)) = startPos + (nTokens - 1) - p := by
    intro p _ hp
    rw [promptEndPos_eq hn hseq hend]
    exact u32_sub hp hendlt
  have hstart : startPos ≤ startPos + (nTokens - 1) := Nat.le_add_right _ _
  have hlt : nTokens < 2 ^ 32 := by omega
  have hchat : Covers (chatLoop prefillBatchCap seqLen startPos nTokens) 0 startPos
      (startPos + (nTokens - 1)) (chatPrefill prefillBatchCap seqLen startPos nTokens) := by
    apply PromptLoop.run_covers hcap hendlt hstart
    intro p hp hpe
    simp only [chatLoop]
    rw [hrest p hp hpe, i32_of_lt (by omega) (by omega)]
  have hapi : Covers (apiLoop prefillBatchCap seqLen startPos nTokens) 0 startPos
      (startPos + (nTokens - 1)) (apiPrefill prefillBatchCap seqLen startPos nTokens) := by
    apply PromptLoop.run_covers hcap hendlt hstart
    intro p hp hpe
    simp only [apiLoop]
    rw [hrest p hp hpe]
  exact ⟨feedsPrompt_iff hn hlt (fun _ _ => rfl) hchat,
    feedsPrompt_iff hn hlt (fun _ _ => rfl) hapi⟩

/-- A prompt of one token that `token` holds already. -/
theorem prefill_feedsPrompt_one :
    FeedsPrompt (fun _ => 7) 7 4 1 (chatPrefill 2 16 4 1) ∧
      FeedsPrompt (fun _ => 7) 7 4 1 (apiPrefill 2 16 4 1) := by
  have h := @prefill_feedsPrompt_iff (fun _ => 7) 7 2 16 4 1 (by decide) (by decide) (by decide)
    (by decide) (by decide)
  exact ⟨h.1.2 ⟨rfl, rfl⟩, h.2.2 ⟨rfl, rfl⟩⟩

/-- Two tokens at position 0: the entry at index 2 is read and handed over. -/
theorem not_feedsPrompt_two :
    ¬FeedsPrompt Int.toNat 0 0 2 (chatPrefill 2 16 0 2) ∧
      ¬FeedsPrompt Int.toNat 0 0 2 (apiPrefill 2 16 0 2) := by
  refine ⟨?_, ?_⟩
  · intro h
    exact absurd (h.reads 2 (by decide)).2 (by decide)
  · intro h
    exact absurd (h.reads 2 (by decide)).2 (by decide)

/-! ## The rows of the chunks -/

section Rows

variable {T H R : Type} (m : Transformer T H R)

/-- The forwards of the chunks. -/
def feed (tokens : Int → T) (kv : Kv R) (ks : List Chunk) : Kv R :=
  ks.foldl (fun kv k => (m.forward kv (k.fed.map fun f => (f.1, tokens f.2))).1) kv

variable {m}

theorem feed_holds {tokens : Int → T} {toks : Nat → T} {kv : Kv R} {pos endPos : Nat}
    {ks : List Chunk} (hks : Chunk.Consecutive pos endPos ks)
    (htoks : ∀ f ∈ ks.flatMap Chunk.fed, tokens f.2 = toks f.1) (hkv : m.Holds kv toks pos) :
    m.Holds (feed m tokens kv ks) toks endPos := by
  induction ks generalizing kv pos with
  | nil =>
      have heq : pos = endPos := hks
      exact heq ▸ hkv
  | cons k ks ih =>
      rcases hks with ⟨rfl, hks⟩
      rw [List.flatMap_cons] at htoks
      apply ih hks
      · intro f hf
        exact htoks f (List.mem_append_right _ hf)
      · have hbatch : k.fed.map (fun f => (f.1, tokens f.2))
            = (List.range' k.pos k.sources.length).map fun p => (p, toks p) := by
          have hfst : k.fed.map Prod.fst = List.range' k.pos k.sources.length := by
            apply List.map_fst_zip
            rw [List.length_range']
          rw [← hfst, List.map_map]
          apply List.map_congr_left
          intro f hf
          rw [htoks f (List.mem_append_left _ hf)]
          rfl
        simp only [hbatch]
        exact m.forward_chunk hkv k.sources.length

end Rows

/-! ## `inference` -/

section Inference

variable (nInputTokens : Nat) (tileAligned : Bool)

def realTotal : Int :=
  nInputTokens - 1

/-- `kGemmTileRows` is 4. -/
def schedTotal : Int :=
  if tileAligned then (realTotal nInputTokens + 4 - 1).tdiv 4 * 4 else realTotal nInputTokens

/-- `(NnUint)realTotal` -/
def realPos : Nat :=
  (realTotal nInputTokens % 2 ^ 32).toNat

/-- The running index is the position here, since the loop starts at position 0.  A padded position
repeats the last token that is fed. -/
def inferenceLoop (prefillBatchCap : Nat) : PromptLoop where
  remaining pos := schedTotal nInputTokens tileAligned - pos
  prefillBatchCap
  source p := if (p : Int) < realTotal nInputTokens then p else realTotal nInputTokens - 1
  handOver _ pos := if (pos : Int) < realTotal nInputTokens then pos else realPos nInputTokens

/-- One forward of the prefill.  In wave mode the root does not wait for the logits, which are sent
for the last chunk alone. -/
structure PrefillForward where
  chunk : Chunk
  noWait : Bool
  lastPrefillChunk : Bool

/-- The prefill, and the entry that decode starts with. -/
structure Schedule where
  forwards : List PrefillForward
  pos : Nat
  token : Int
  reads : List Int

def Schedule.chunks (s : Schedule) : List Chunk :=
  s.forwards.map PrefillForward.chunk

def inference (prefillBatchCap : Nat) (useWave : Bool) : Schedule :=
  let ks := (inferenceLoop nInputTokens tileAligned prefillBatchCap).run 0
  let forwards := ks.map fun k =>
    ⟨k, useWave, !useWave || decide (schedTotal nInputTokens tileAligned ≤ k.endPos)⟩
  let pos := (ks.getLast?.map Chunk.endPos).getD 0
  let token := (ks.getLast?.map Chunk.next).getD 0
  if realTotal nInputTokens < pos then
    let pos := realPos nInputTokens
    { forwards, pos, token := pos, reads := 0 :: reads ks ++ [(pos : Int)] }
  else { forwards, pos, token, reads := 0 :: reads ks }

end Inference

/-! ## The decode loop -/

section Decode

variable {T H R : Type} (m : Transformer T H R)

/-- What decode step `k` feeds: the token it starts with, then the sampled ones. -/
def decodeToken (first : T) (sampled : Nat → T) : Nat → T
  | 0 => first
  | k + 1 => sampled k

/-- The rows after `k` steps. -/
def decodeKv (kv : Kv R) (pos : Nat) (token : Nat → T) : Nat → Kv R
  | 0 => kv
  | k + 1 => (m.forward (decodeKv kv pos token k) [(pos + k, token k)]).1

/-- The tokens by position: the prompt and what is sampled behind it. -/
def sequence (nInputTokens : Nat) (tokens : Int → T) (sampled : Nat → T) (p : Nat) : T :=
  if p < nInputTokens then tokens p else sampled (p - nInputTokens)

/-- What is expected of the prefill of `inference`; `kv` are the rows before it. -/
structure ValidSchedule (nBatches seqLen steps nInputTokens : Nat) (tokens : Int → T)
    (sampled : Nat → T) (kv : Kv R) (s : Schedule) : Prop where
  consecutive : ∃ endPos, Chunk.Consecutive 0 endPos s.chunks
  sizes : ∀ k ∈ s.chunks, 1 ≤ k.sources.length ∧ k.sources.length ≤ nBatches
  /-- The assertion of `setPosition`. -/
  setPosition : ∀ k ∈ s.chunks, u32 (k.pos + k.sources.length + (2 ^ 32 - 1)) < seqLen
  fedOnce : ∀ j < nInputTokens - 1,
    (s.chunks.flatMap Chunk.fed).filter (fun f => f.1 = j) = [(j, (j : Int))]
  reads : ∀ i ∈ s.reads, 0 ≤ i ∧ i < nInputTokens
  decodePos : s.pos = nInputTokens - 1
  decodeToken : s.token = (nInputTokens - 1 : Nat)
  /-- At a decode step every row up to its position is that of the token at the position. -/
  rows : ∀ k, s.pos + k < min seqLen steps →
    m.Holds
      (decodeKv m (feed m tokens kv s.chunks) s.pos
        (Inference.decodeToken (tokens s.token) sampled) (k + 1))
      (sequence nInputTokens tokens sampled) (s.pos + k + 1)

variable {m}

theorem decodeKv_holds {kv : Kv R} {toks : Nat → T} {token : Nat → T} {pos : Nat}
    (hkv : m.Holds kv toks pos) (htoken : ∀ k, token k = toks (pos + k)) (k : Nat) :
    m.Holds (decodeKv m kv pos token k) toks (pos + k) := by
  induction k with
  | zero => exact hkv
  | succ k ih =>
      rw [decodeKv, htoken k]
      exact m.forward_chunk ih 1

variable {nInputTokens : Nat} {tileAligned : Bool} {prefillBatchCap : Nat} {useWave : Bool}

/-- How many positions are prefilled. -/
def prefilled (nInputTokens : Nat) (tileAligned : Bool) : Nat :=
  if tileAligned then (nInputTokens - 1 + 3) / 4 * 4 else nInputTokens - 1

theorem le_prefilled : nInputTokens - 1 ≤ prefilled nInputTokens tileAligned := by
  rw [prefilled]
  split_ifs <;> omega

theorem prefilled_le : prefilled nInputTokens tileAligned ≤ nInputTokens - 1 + 3 := by
  rw [prefilled]
  split_ifs <;> omega

theorem prefilled_pos_iff : 0 < prefilled nInputTokens tileAligned ↔ 0 < nInputTokens - 1 := by
  rw [prefilled]
  split_ifs <;> omega

theorem schedTotal_eq (hn : 1 ≤ nInputTokens) :
    schedTotal nInputTokens tileAligned = (prefilled nInputTokens tileAligned : Nat) := by
  rw [schedTotal, realTotal, prefilled]
  cases tileAligned with
  | false =>
      simp only [Bool.false_eq_true, if_false]
      omega
  | true =>
      simp only [if_true]
      rw [Int.tdiv_eq_ediv_of_nonneg (by omega)]
      omega

theorem inference_chunks : (inference nInputTokens tileAligned prefillBatchCap useWave).chunks
    = (inferenceLoop nInputTokens tileAligned prefillBatchCap).run 0 := by
  rw [inference, Schedule.chunks]
  simp only
  split_ifs <;> simp only [List.map_map, Function.comp_def, List.map_id']

/-- The chunks of `inference` go to the total of the schedule. -/
theorem inference_covers (hn : 1 ≤ nInputTokens) (hint : nInputTokens < 2 ^ 31)
    (hcap : 1 ≤ prefillBatchCap) :
    Covers (inferenceLoop nInputTokens tileAligned prefillBatchCap) 0 0
      (prefilled nInputTokens tileAligned)
      (inference nInputTokens tileAligned prefillBatchCap useWave).chunks := by
  have hle := @prefilled_le nInputTokens tileAligned
  rw [inference_chunks]
  apply PromptLoop.run_covers hcap (by omega) (Nat.zero_le _)
  intro p _ hp
  simp only [inferenceLoop, schedTotal_eq hn]
  omega

/-- An entry that is fed at position `p`. -/
theorem inferenceLoop_source (hn : 1 ≤ nInputTokens) (p : Nat) :
    (inferenceLoop nInputTokens tileAligned prefillBatchCap).source p
      = if p < nInputTokens - 1 then (p : Int) else (nInputTokens : Int) - 2 := by
  have hiff : (p : Int) < (nInputTokens : Int) - 1 ↔ p < nInputTokens - 1 := by omega
  simp only [inferenceLoop, realTotal, hiff]
  split_ifs <;> omega

theorem inferenceLoop_handOver (hn : 1 ≤ nInputTokens) (hint : nInputTokens < 2 ^ 31) (i p : Nat) :
    (inferenceLoop nInputTokens tileAligned prefillBatchCap).handOver i p
      = (min p (nInputTokens - 1) : Nat) := by
  simp only [inferenceLoop, realPos, realTotal]
  split_ifs <;> omega

theorem inference_reads (hn : 1 ≤ nInputTokens) (hint : nInputTokens < 2 ^ 31)
    (hcap : 1 ≤ prefillBatchCap) :
    ∀ i ∈ reads (inference nInputTokens tileAligned prefillBatchCap useWave).chunks,
      0 ≤ i ∧ i < nInputTokens := by
  have hcovers := @inference_covers _ tileAligned _ useWave hn hint hcap
  intro i hi
  rcases List.mem_flatMap.1 hi with ⟨k, hk, hi⟩
  rcases List.mem_cons.1 hi with rfl | hi
  · rcases hcovers.next k hk with ⟨n, -, -, hnext⟩
    rw [hnext, inferenceLoop_handOver hn hint]
    omega
  · rcases Chunk.exists_fed hi with ⟨p, hp⟩
    have hmem := List.mem_flatMap.2 ⟨k, hk, hp⟩
    rw [hcovers.fed] at hmem
    rcases List.mem_map.1 hmem with ⟨n, hn', heq⟩
    have hpos : 0 < nInputTokens - 1 :=
      prefilled_pos_iff.1 (Nat.lt_of_le_of_lt (Nat.zero_le n) (List.mem_range.1 hn'))
    have hsource := (Prod.mk.inj heq).2
    rw [inferenceLoop_source hn] at hsource
    rw [← hsource]
    split_ifs <;> omega

/-- Decode starts with the last token of the prompt. -/
theorem inference_start (hn : 1 ≤ nInputTokens) (hint : nInputTokens < 2 ^ 31)
    (hcap : 1 ≤ prefillBatchCap) :
    (inference nInputTokens tileAligned prefillBatchCap useWave).pos = nInputTokens - 1 ∧
      (inference nInputTokens tileAligned prefillBatchCap useWave).token
        = (nInputTokens - 1 : Nat) := by
  have hcovers := @inference_covers _ tileAligned _ useWave hn hint hcap
  have hpos := hcovers.consecutive.getD_endPos
  have htoken := hcovers.token
  have hle := @le_prefilled nInputTokens tileAligned
  rw [inference_chunks] at hpos htoken
  have hreal : realPos nInputTokens = nInputTokens - 1 := by
    rw [realPos, realTotal]
    omega
  have htoken' : (((inferenceLoop nInputTokens tileAligned prefillBatchCap).run 0).getLast?.map
      Chunk.next).getD 0 = (nInputTokens - 1 : Nat) := by
    rw [htoken, inferenceLoop_handOver hn hint, Nat.min_eq_right hle]
    by_cases hsome : 0 < prefilled nInputTokens tileAligned
    · rw [if_pos hsome]
      rfl
    · have hzero : nInputTokens - 1 = 0 := by omega
      rw [if_neg hsome, hzero]
      rfl
  rw [inference]
  simp only [hpos, htoken', hreal, realTotal]
  split_ifs with hpad
  · exact ⟨rfl, rfl⟩
  · refine ⟨?_, rfl⟩
    simp only
    omega

theorem filter_range_map {α : Type} (f : Nat → α) {n j : Nat} (hj : j < n) :
    ((List.range n).map fun p => (p, f p)).filter (fun x => x.1 = j) = [(j, f j)] := by
  have hfilter : (List.range n).filter (fun p => decide (p = j)) = [j] := by
    have hcount : (List.range n).count j = 1 :=
      List.count_eq_one_of_mem List.nodup_range (List.mem_range.2 hj)
    rw [List.filter_eq, hcount]
    rfl
  rw [List.filter_map]
  have hcomp : (fun x : Nat × α => decide (x.1 = j)) ∘ (fun p => (p, f p))
      = fun p => decide (p = j) := rfl
  rw [hcomp, hfilter]
  rfl

variable {nBatches seqLen steps : Nat} {tokens : Int → T} {sampled : Nat → T} {kv : Kv R}

/-- The rows that decode finds, and those that it writes. -/
theorem inference_rows (hn : 1 ≤ nInputTokens) (hint : nInputTokens < 2 ^ 31)
    (hcap : 1 ≤ prefillBatchCap) (k : Nat) :
    m.Holds
      (decodeKv m
        (feed m tokens kv (inference nInputTokens tileAligned prefillBatchCap useWave).chunks)
        (nInputTokens - 1) (decodeToken (tokens (nInputTokens - 1 : Nat)) sampled) k)
      (sequence nInputTokens tokens sampled) (nInputTokens - 1 + k) := by
  have hcovers := @inference_covers _ tileAligned _ useWave hn hint hcap
  -- behind the prompt the rows are those of the padding
  let padded : Nat → T := fun p =>
    tokens ((inferenceLoop nInputTokens tileAligned prefillBatchCap).source p)
  have hfed : ∀ f ∈ (inference nInputTokens tileAligned prefillBatchCap useWave).chunks.flatMap
      Chunk.fed, tokens f.2 = padded f.1 := by
    intro f hf
    rw [hcovers.fed] at hf
    rcases List.mem_map.1 hf with ⟨n, -, rfl⟩
    rfl
  have hempty : m.Holds kv padded 0 := fun _ _ p hp => absurd hp (Nat.not_lt_zero p)
  have hpadded := feed_holds hcovers.consecutive hfed hempty
  have hprompt : m.Holds
      (feed m tokens kv (inference nInputTokens tileAligned prefillBatchCap useWave).chunks)
      padded (nInputTokens - 1) :=
    fun l hl p hp => hpadded l hl p (Nat.lt_of_lt_of_le hp le_prefilled)
  apply decodeKv_holds
  · apply hprompt.congr
    intro p hp
    have hlt : p < nInputTokens := Nat.lt_of_lt_of_le hp (Nat.sub_le _ _)
    simp only [padded, inferenceLoop_source hn, if_pos hp, sequence, if_pos hlt]
  · intro k
    cases k with
    | zero =>
        have hlt : nInputTokens - 1 + 0 < nInputTokens := by omega
        rw [decodeToken, sequence, if_pos hlt, Nat.add_zero]
    | succ k =>
        have hge : ¬nInputTokens - 1 + (k + 1) < nInputTokens := by omega
        have hindex : nInputTokens - 1 + (k + 1) - nInputTokens = k := by omega
        rw [decodeToken, sequence, if_neg hge, hindex]

/-- The schedule is valid for a prompt with a token in it, as long as the padding stays inside the
context. -/
theorem inference_validSchedule_iff (hint : nInputTokens < 2 ^ 31) (hseq : nInputTokens ≤ seqLen)
    (hseqlt : seqLen < 2 ^ 32) (hcap : 1 ≤ prefillBatchCap) (hbatch : prefillBatchCap ≤ nBatches) :
    ValidSchedule m nBatches seqLen steps nInputTokens tokens sampled kv
        (inference nInputTokens tileAligned prefillBatchCap useWave)
      ↔ 1 ≤ nInputTokens ∧ (tileAligned → (nInputTokens - 1 + 3) / 4 * 4 ≤ seqLen) := by
  have hle := @prefilled_le nInputTokens tileAligned
  constructor
  · intro h
    have hn : 1 ≤ nInputTokens := by
      have hread : (0 : Int)
          ∈ (inference nInputTokens tileAligned prefillBatchCap useWave).reads := by
        rw [inference]
        simp only
        split_ifs
        · exact List.mem_cons_self
        · exact List.mem_cons_self
      have hbound := (h.reads 0 hread).2
      omega
    refine ⟨hn, ?_⟩
    rintro rfl
    by_contra hlong
    -- the last chunk goes over the end of the context
    have hprefilled : prefilled nInputTokens true = (nInputTokens - 1 + 3) / 4 * 4 := rfl
    have hcovers := @inference_covers _ true _ useWave hn hint hcap
    rcases hcovers.consecutive.exists_endPos (by omega) with ⟨k, hk, hend⟩
    have hassert := h.setPosition k hk
    rw [Chunk.endPos] at hend
    rw [hend, u32] at hassert
    omega
  · rintro ⟨hn, hpad⟩
    have hfits : prefilled nInputTokens tileAligned ≤ seqLen := by
      rw [prefilled]
      split_ifs with htile
      · exact hpad htile
      · omega
    have hcovers := @inference_covers _ tileAligned _ useWave hn hint hcap
    rcases @inference_start _ tileAligned _ useWave hn hint hcap with ⟨hpos, htoken⟩
    refine ⟨⟨_, hcovers.consecutive⟩, ?_, ?_, ?_, ?_, hpos, htoken, ?_⟩
    · intro k hk
      rcases hcovers.sizes k hk with ⟨hone, hsize⟩
      exact ⟨hone, Nat.le_trans hsize hbatch⟩
    · intro k hk
      have hend := hcovers.consecutive.endPos_le hk
      have hone := (hcovers.sizes k hk).1
      rw [Chunk.endPos] at hend
      rw [u32]
      omega
    · intro j hj
      have hsource := @inferenceLoop_source nInputTokens tileAligned prefillBatchCap hn j
      rw [if_pos hj] at hsource
      rw [hcovers.fed, Nat.sub_zero]
      simp only [Nat.zero_add]
      rw [filter_range_map _ (Nat.lt_of_lt_of_le hj le_prefilled), hsource]
    · have hreads := @inference_reads _ tileAligned _ useWave hn hint hcap
      rw [inference_chunks] at hreads
      have hreal : realPos nInputTokens < nInputTokens := by
        rw [realPos, realTotal]
        omega
      intro i hi
      rw [inference] at hi
      simp only at hi
      have hall : i = 0 ∨ i ∈ Inference.reads
          ((inferenceLoop nInputTokens tileAligned prefillBatchCap).run 0) ∨
          i = (realPos nInputTokens : Int) := by
        split_ifs at hi
        · rcases List.mem_cons.1 hi with hi | hi
          · exact .inl hi
          · rcases List.mem_append.1 hi with hi | hi
            · exact .inr (.inl hi)
            · exact .inr (.inr (List.mem_singleton.1 hi))
        · rcases List.mem_cons.1 hi with hi | hi
          · exact .inl hi
          · exact .inr (.inl hi)
      rcases hall with rfl | hi | rfl
      · omega
      · exact hreads i hi
      · omega
    · intro k _
      rw [hpos, htoken]
      exact inference_rows hn hint hcap (k + 1)

/-- Six tokens in a context of eight: the padded chunk goes to position 7. -/
theorem inference_validSchedule_six :
    ValidSchedule echoModel 4 8 8 6 Int.toNat (fun _ => 9) (fun _ _ => 0)
      (inference 6 true 4 true) :=
  (inference_validSchedule_iff (by decide) (by decide) (by decide) (by decide) (by decide)).2
    ⟨by decide, by decide⟩

/-- Six tokens in a context of six: the second chunk would go to position 7. -/
theorem not_validSchedule_padding :
    ¬ValidSchedule echoModel 4 6 6 6 Int.toNat (fun _ => 9) (fun _ _ => 0)
      (inference 6 true 4 false) := by
  intro h
  have hassert := h.setPosition ⟨4, [4, 4, 4, 4], 5⟩ (by decide)
  exact absurd hassert (by decide)

end Decode

end Inference
end PrefillOpt
