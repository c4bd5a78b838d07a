import Mathlib.Data.List.Infix
import PrefillOpt.Lib.Normal

/-!
# Tokenizer.Encode — from text to tokens

`Tokenizer::encode` of `tokenizer.cpp`.  Bytes are collected until they are a regular token; a
special token is taken where the text goes on with it.  Then neighbours are merged as long as their
texts together are a regular token.  A failed assertion is an error.
-/

namespace PrefillOpt

open Lib

/-! ## The vocabulary -/

/-- Tokens below `bosId` are regular, the others special.  The score `none` is a NaN. -/
structure Vocabulary (F : Type) where
  vocabSize : Nat
  piece : Nat → List UInt8
  vocabScores : Nat → Option F
  bosId : Nat
  addBos : Bool
  maxTokenLength : Nat
  bosId_lt : bosId < vocabSize
  piece_ne : ∀ id < vocabSize, piece id ≠ []
  piece_nul : ∀ id < vocabSize, 0 ∉ piece id
  piece_length : ∀ id < vocabSize, (piece id).length ≤ maxTokenLength

namespace Vocabulary

variable {F : Type} (v : Vocabulary F)

def strBufferSize : Nat :=
  (if v.maxTokenLength * 2 < 4 * 2 then 4 * 2 else v.maxTokenLength * 2) + (1 + 2)

/-- `strncmp` with the length of the token: the text begins with it. -/
def findSpecialTokenStartWith (text : List UInt8) : Option Nat :=
  (List.range' v.bosId (v.vocabSize - v.bosId)).find? fun id => (v.piece id).isPrefixOf text

/-- `bsearch` in the sorted regular tokens: one with the text, if there is any.  Which one of
several is not said. -/
structure IsLookup (findRegularToken : List UInt8 → Option Nat) : Prop where
  sound : ∀ str id, findRegularToken str = some id → id < v.bosId ∧ v.piece id = str
  complete : ∀ id < v.bosId, (findRegularToken (v.piece id)).isSome

/-- The text of a list of tokens. -/
def text (tokens : List Nat) : List UInt8 :=
  tokens.flatMap v.piece

/-- Tokens of the vocabulary. -/
def Valid (tokens : List Nat) : Prop :=
  ∀ id ∈ tokens, id < v.vocabSize

instance (tokens : List Nat) : Decidable (v.Valid tokens) :=
  inferInstanceAs (Decidable (∀ id ∈ tokens, id < v.vocabSize))

end Vocabulary

/-! ## Collecting bytes -/

/-- The text from `c` on, the first `strLen` bytes of `strBuffer`, and the tokens. -/
structure ScanState where
  rest : List UInt8
  pending : List UInt8
  tokens : List Nat
deriving DecidableEq, Repr

section Scan

variable {F : Type} (v : Vocabulary F) (findRegularToken : List UInt8 → Option Nat)

/-- The special token that is looked for where special tokens are asked for. -/
def specialAt (addSpecialTokens : Bool) (text : List UInt8) : Option Nat :=
  if addSpecialTokens then v.findSpecialTokenStartWith text else none

/-- A turn of the loop over the text.  There is none at its end, and none when the assertion on
`strLen` fails. -/
def scanStep (addSpecialTokens : Bool) (s : ScanState) : Option ScanState :=
  match s.rest with
  | [] => none
  | c :: cs =>
      match specialAt v addSpecialTokens (c :: cs) with
      | some id =>
          some { s with
            rest := (c :: cs).drop (v.piece id).length
            tokens := s.tokens ++ [id] }
      | none =>
          let strBuffer := s.pending ++ [c]
          if v.strBufferSize ≤ strBuffer.length then none
          else
            match findRegularToken strBuffer with
            | some id => some ⟨cs, [], s.tokens ++ [id]⟩
            | none => some ⟨cs, strBuffer, s.tokens⟩

/-- `BOS` at the start. -/
def scanStart (isStart : Bool) (text : List UInt8) : ScanState :=
  ⟨text, [], if isStart && v.addBos then [v.bosId] else []⟩

/-- The loop over the text ends after a turn for every byte at most. -/
def scan (addSpecialTokens isStart : Bool) (text : List UInt8) : Except String (List Nat) :=
  let s := iterate (scanStep v findRegularToken addSpecialTokens) text.length
    (scanStart v isStart text)
  if s.rest ≠ [] then .error "strLen < strBufferSize"
  else if s.pending ≠ [] then .error "strLen == 0"
  else .ok s.tokens

end Scan

/-! ## Merging neighbours -/

section Merge

variable {F : Type} (v : Vocabulary F) (findRegularToken : List UInt8 → Option Nat)

/-- `snprintf(strBuffer, strBufferSize, "%s%s", vocab[tokens[i]], vocab[tokens[i+1]])`. -/
def pairText (tokens : List Nat) (i : Nat) : List UInt8 :=
  (v.piece (tokens.getD i 0) ++ v.piece (tokens.getD (i + 1) 0)).take (v.strBufferSize - 1)

/-- `best_score`, `best_id` and `best_idx`; the last two are `-1` together. -/
structure BestPair (F : Type) where
  score : F
  best : Option (Nat × Nat)

variable [LT F] [DecidableLT F]

/-- A turn of the loop over the pairs. -/
def bestPairTurn (tokens : List Nat) (b : BestPair F) (i : Nat) : BestPair F :=
  match findRegularToken (pairText v tokens i) with
  | none => b
  | some id =>
      match v.vocabScores id with
      | none => b
      | some score => if b.score < score then ⟨score, some (i, id)⟩ else b

/-- `lowest` is `-1e10`. -/
def bestPair (lowest : F) (tokens : List Nat) : Option (Nat × Nat) :=
  ((List.range (tokens.length - 1)).foldl (bestPairTurn v findRegularToken tokens)
    ⟨lowest, none⟩).best

/-- A turn of the merge loop. -/
def mergeStep (lowest : F) (tokens : List Nat) : Option (List Nat) :=
  match bestPair v findRegularToken lowest tokens with
  | none => none
  | some (i, id) => some ((tokens.set i id).eraseIdx (i + 1))

/-- Every merge makes the list shorter. -/
def mergeLoop (lowest : F) (tokens : List Nat) : List Nat :=
  iterate (mergeStep v findRegularToken lowest) tokens.length tokens

def encode (lowest : F) (text : List UInt8) (isStart addSpecialTokens : Bool) :
    Except String (List Nat) := do
  let tokens ← scan v findRegularToken addSpecialTokens isStart text
  return mergeLoop v findRegularToken lowest tokens

end Merge

/-! ## What a turn does -/

section Turns

variable {F : Type} {v : Vocabulary F} {findRegularToken : List UInt8 → Option Nat}
  {addSpecialTokens : Bool} {s s' : ScanState}

theorem specialAt_some {text : List UInt8} {id : Nat}
    (h : specialAt v addSpecialTokens text = some id) :
    id < v.vocabSize ∧ v.piece id <+: text := by
  cases addSpecialTokens with
  | false => cases h
  | true =>
      have hmem := List.mem_range'_1.1 (List.mem_of_find?_eq_some h)
      have hpre := List.find?_some h
      exact ⟨by omega, List.isPrefixOf_iff_prefix.1 hpre⟩

/-- Where no special token is found, none begins that was found elsewhere. -/
theorem not_prefix_of_specialAt {text text' : List UInt8} {id : Nat}
    (hnone : specialAt v addSpecialTokens text = none)
    (hsome : specialAt v addSpecialTokens text' = some id) : ¬v.piece id <+: text := by
  cases addSpecialTokens with
  | false => cases hsome
  | true =>
      intro hpre
      have hall := List.find?_eq_none.1 hnone id (List.mem_of_find?_eq_some hsome)
      exact hall (List.isPrefixOf_iff_prefix.2 hpre)

/-- What a turn can do: take a special token, complete a regular one, or keep a byte. -/
inductive Turn (v : Vocabulary F) (findRegularToken : List UInt8 → Option Nat)
    (addSpecialTokens : Bool) (s : ScanState) : ScanState → Prop
  | special (id : Nat) (h : specialAt v addSpecialTokens s.rest = some id) :
      Turn v findRegularToken addSpecialTokens s
        ⟨s.rest.drop (v.piece id).length, s.pending, s.tokens ++ [id]⟩
  | regular (c : UInt8) (cs : List UInt8) (id : Nat) (hrest : s.rest = c :: cs)
      (hnone : specialAt v addSpecialTokens s.rest = none)
      (h : findRegularToken (s.pending ++ [c]) = some id) :
      Turn v findRegularToken addSpecialTokens s ⟨cs, [], s.tokens ++ [id]⟩
  | keep (c : UInt8) (cs : List UInt8) (hrest : s.rest = c :: cs)
      (hnone : specialAt v addSpecialTokens s.rest = none)
      (hroom : s.pending.length + 1 < v.strBufferSize) :
      Turn v findRegularToken addSpecialTokens s ⟨cs, s.pending ++ [c], s.tokens⟩

theorem scanStep_turn (h : scanStep v findRegularToken addSpecialTokens s = some s') :
    Turn v findRegularToken addSpecialTokens s s' := by
  rcases s with ⟨rest, pending, tokens⟩
  cases rest with
  | nil => cases h
  | cons c cs =>
      cases hspecial : specialAt v addSpecialTokens (c :: cs) with
      | some id =>
          simp only [scanStep, hspecial] at h
          cases h
          exact .special id hspecial
      | none =>
          simp only [scanStep, hspecial] at h
          split at h
          · cases h
          · next hroom =>
              rw [List.length_append, List.length_singleton] at hroom
              cases hfind : findRegularToken (pending ++ [c]) with
              | some id =>
                  rw [hfind] at h
                  cases h
                  exact .regular c cs id rfl hspecial hfind
              | none =>
                  rw [hfind] at h
                  cases h
                  exact .keep c cs rfl hspecial (Nat.not_le.1 hroom)

end Turns

end PrefillOpt
