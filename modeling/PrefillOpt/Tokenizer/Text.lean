import Mathlib.Data.List.Basic

/-!
# Tokenizer.Text — from sampled tokens to text

`Tokenizer::decode` and `EosDetector` of `tokenizer.cpp`.  A byte carries the number of the sampled
token it comes from; the code looks at the byte alone.  The sizes of the buffers, which the source
asserts, are left out.
-/

namespace PrefillOpt

structure Cell where
  byte : UInt8
  source : Option Nat
deriving DecidableEq, Repr

/-! ## The decoder -/

structure Tokenizer where
  vocab : Nat → List UInt8
  /-- `-1` in the source where there is none. -/
  bosId : Option Nat
  eosTokenIds : List Nat

/-- The local variables of `detokUtf8`. -/
structure Detok where
  src : List Cell
  dst : List Cell
  checkpoint : List Cell
  checkpointSrc : List Cell
  expectContinuation : Nat

namespace Detok

/-- A byte is copied; at the end of a character it is settled. -/
def accept (s : Detok) (c : Cell) (cs : List Cell) (expect : Nat) : Detok :=
  let dst := s.dst ++ [c]
  if expect = 0 then ⟨cs, dst, dst, cs, 0⟩
  else { s with src := cs, dst, expectContinuation := expect }

/-- Stream recovery: back to the last settled character, and U+FFFD in place of what follows. -/
def recover (s : Detok) (c : Cell) (cs : List Cell) : Detok :=
  { s with
    src := if 0 < s.expectContinuation then c :: cs else cs
    dst := s.checkpoint ++ [⟨0xef, none⟩, ⟨0xbf, none⟩, ⟨0xbd, none⟩]
    expectContinuation := 0 }

def step (s : Detok) (c : Cell) (cs : List Cell) : Detok :=
  if 0 < s.expectContinuation then
    if c.byte &&& 0xc0 = 0x80 then s.accept c cs (s.expectContinuation - 1) else s.recover c cs
  else if c.byte ≤ 0x7f then s.accept c cs 0
  else if 0xc0 ≤ c.byte ∧ c.byte ≤ 0xdf then s.accept c cs 1
  else if 0xe0 ≤ c.byte ∧ c.byte ≤ 0xef then s.accept c cs 2
  else if 0xf0 ≤ c.byte ∧ c.byte ≤ 0xf7 then s.accept c cs 3
  else s.recover c cs

/-- A byte takes two rounds at most: one that gives up the character before it, and its own. -/
def loop : Nat → Detok → Detok
  | 0, s => s
  | fuel + 1, s =>
      match s.src with
      | [] => s
      | c :: cs => loop fuel (s.step c cs)

end Detok

/-- What stays in `strBuffer`, and the text that is complete. -/
def detokUtf8 (strBuffer : List Cell) : List Cell × Option (List Cell) :=
  let src := strBuffer.takeWhile (·.byte ≠ 0)
  let s := Detok.loop (2 * src.length) ⟨src, [], [], src, 0⟩
  (s.checkpointSrc, if s.checkpoint = [] then none else some s.checkpoint)

namespace Tokenizer

variable (tokenizer : Tokenizer)

def isEos (token : Nat) : Bool :=
  tokenizer.eosTokenIds.contains token

/-- `source` is the number that the bytes of the token get. -/
def decode (strBuffer : List Cell) (token : Nat) (source : Option Nat) :
    List Cell × Option (List Cell) :=
  if tokenizer.bosId = some token then (strBuffer, none)
  else if tokenizer.isEos token then
    (strBuffer, if strBuffer = [] then none else some strBuffer)
  else detokUtf8 (strBuffer ++ (tokenizer.vocab token).map fun byte => ⟨byte, source⟩)

end Tokenizer

/-! ## The end of a generation -/

inductive EosDetectorType where
  | maybeEos
  | eos
  | notEos
deriving DecidableEq, Repr

/-- What an `EosDetector` is made for: the stop tokens, the stop texts, and how many bytes may stand
around a stop text. -/
structure EosStops where
  tokens : List Nat
  pieces : List (List UInt8)
  paddingLeft : Nat
  paddingRight : Nat

structure EosDetector where
  buffer : List Cell
  /-- `none` is `-1`. -/
  eosPos : Option Nat

namespace EosStops

variable (stops : EosStops)

/-- The inner loop, from `lo` on: a stop text that begins at `lo`, or the beginning of one. -/
def matchFrom (buffer : List Cell) (piece : List UInt8) : List Nat → EosDetectorType × Option Nat
  | [] => (.notEos, none)
  | lo :: los =>
      let n := buffer.length - lo
      if n = 0 ∨ piece.length + stops.paddingRight < n then matchFrom buffer piece los
      else
        let n := min n piece.length
        if ((buffer.drop lo).take n).map Cell.byte = piece.take n then
          if n = piece.length then (.eos, some lo) else (.maybeEos, none)
        else matchFrom buffer piece los

/-- The loop over the stop texts. -/
def detect (buffer : List Cell) : List (List UInt8) → EosDetectorType × Option Nat
  | [] => (.notEos, none)
  | piece :: pieces =>
      if piece.length + stops.paddingLeft + stops.paddingRight < buffer.length then
        detect buffer pieces
      else
        match stops.matchFrom buffer piece (List.range (stops.paddingLeft + 1)) with
        | (.notEos, _) => detect buffer pieces
        | found => found

/-- `append`; the text before `eosPos` is the delta. -/
def append (d : EosDetector) (tokenId : Nat) (piece : Option (List Cell)) :
    EosDetector × EosDetectorType :=
  let buffer := d.buffer ++ piece.getD []
  if stops.tokens.contains tokenId then (⟨buffer, some buffer.length⟩, .eos)
  else
    let found := stops.detect buffer stops.pieces
    (⟨buffer, found.2⟩, found.1)

end EosStops

namespace EosDetector

def reset (d : EosDetector) : EosDetector :=
  { d with buffer := [] }

def getDelta (d : EosDetector) : Option (List Cell) :=
  if d.buffer = [] then none
  else
    match d.eosPos with
    | none => some d.buffer
    | some 0 => none
    | some eosPos => some (d.buffer.take eosPos)

end EosDetector

end PrefillOpt
