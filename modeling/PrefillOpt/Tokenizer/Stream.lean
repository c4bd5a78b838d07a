import Mathlib.Data.List.TakeWhile
import PrefillOpt.Lib.Checkpoint
import PrefillOpt.Tokenizer.Text

/-!
# Tokenizer.Stream — decoding does not see where tokens end

`detokUtf8` settles the bytes of a character when the last of them is there.  Bytes that are not
settled stay in `strBuffer` and are read again in the next call, so that the text is a function of
the bytes alone.
-/

namespace PrefillOpt

open Lib

/-! ## The bytes of a character -/

/-- How many bytes follow the first byte of a character. -/
def continuations (b : UInt8) : Option Nat :=
  if b ≤ 0x7f then some 0
  else if 0xc0 ≤ b ∧ b ≤ 0xdf then some 1
  else if 0xe0 ≤ b ∧ b ≤ 0xef then some 2
  else if 0xf0 ≤ b ∧ b ≤ 0xf7 then some 3
  else none

/-- The bytes since the checkpoint as they are written, and how many more are expected. -/
structure Partial where
  tail : List Cell
  expect : Nat

/-- U+FFFD. -/
def replacement : List Cell :=
  [⟨0xef, none⟩, ⟨0xbf, none⟩, ⟨0xbd, none⟩]

/-- A byte is written; with the last one the character is complete. -/
def advance (tail : List Cell) (c : Cell) (expect : Nat) : Partial ⊕ List Cell :=
  if expect = 0 then .inr (tail ++ [c]) else .inl ⟨tail ++ [c], expect⟩

def leadByte (tail : List Cell) (c : Cell) : Partial ⊕ List Cell :=
  match continuations c.byte with
  | some expect => advance tail c expect
  | none => .inl ⟨replacement, 0⟩

def utf8Step (w : Partial) (c : Cell) : Partial ⊕ List Cell :=
  if 0 < w.expect then
    if c.byte &&& 0xc0 = 0x80 then advance w.tail c (w.expect - 1) else leadByte replacement c
  else leadByte w.tail c

/-- The bytes of a stream, from a checkpoint on. -/
def utf8 (cells : List Cell) : Progress Cell Cell Partial :=
  Progress.process utf8Step ⟨[], 0⟩ cells

/-! ## The loop of `detokUtf8` -/

namespace Detok

/-- The variables of the loop, with `src` still to be read. -/
def ofProgress (p : Progress Cell Cell Partial) (src : List Cell) : Detok :=
  ⟨src, p.settled ++ p.work.tail, p.settled, p.undecided ++ src, p.work.expect⟩

variable {p : Progress Cell Cell Partial} {c : Cell} {cs src : List Cell}

theorem accept_ofProgress (expect : Nat) :
    (ofProgress p (c :: cs)).accept c cs expect
      = ofProgress (Progress.resolve ⟨[], 0⟩ p c (advance p.work.tail c expect)) cs := by
  rw [accept, advance]
  split <;> simp [ofProgress, Progress.resolve]

/-- A byte that is not expected to go on a character. -/
theorem step_first (h : p.work.expect = 0) :
    (ofProgress p (c :: cs)).step c cs
      = ofProgress (Progress.resolve ⟨[], 0⟩ p c (leadByte p.work.tail c)) cs := by
  have hnot : ¬0 < (ofProgress p (c :: cs)).expectContinuation := Nat.not_lt.2 (Nat.le_of_eq h)
  rw [step, if_neg hnot, leadByte, continuations]
  split
  · exact accept_ofProgress 0
  · split
    · exact accept_ofProgress 1
    · split
      · exact accept_ofProgress 2
      · split
        · exact accept_ofProgress 3
        · simp [recover, ofProgress, Progress.resolve, replacement, h]

/-- A byte that goes on a character. -/
theorem step_continue (h : 0 < p.work.expect) (hcont : c.byte &&& 0xc0 = 0x80) :
    (ofProgress p (c :: cs)).step c cs
      = ofProgress
          (Progress.resolve ⟨[], 0⟩ p c (advance p.work.tail c (p.work.expect - 1))) cs := by
  have hpos : 0 < (ofProgress p (c :: cs)).expectContinuation := h
  rw [step, if_pos hpos, if_pos hcont]
  exact accept_ofProgress (p.work.expect - 1)

/-- A round either reads the byte, or it gives up the character before it. -/
theorem step_ofProgress (p : Progress Cell Cell Partial) (c : Cell) (cs : List Cell) :
    (ofProgress p (c :: cs)).step c cs = ofProgress (Progress.feed utf8Step ⟨[], 0⟩ p c) cs ∨
      ∃ p', (ofProgress p (c :: cs)).step c cs = ofProgress p' (c :: cs) ∧
        (ofProgress p' (c :: cs)).step c cs
          = ofProgress (Progress.feed utf8Step ⟨[], 0⟩ p c) cs := by
  by_cases hexpect : 0 < p.work.expect
  · by_cases hcont : c.byte &&& 0xc0 = 0x80
    · left
      rw [step_continue hexpect hcont, Progress.feed, utf8Step, if_pos hexpect, if_pos hcont]
    · right
      have hpos : 0 < (ofProgress p (c :: cs)).expectContinuation := hexpect
      refine ⟨{ p with work := ⟨replacement, 0⟩ }, ?_, ?_⟩
      · rw [step, if_pos hpos, if_neg hcont, recover, if_pos hpos]
        rfl
      · rw [step_first rfl, Progress.feed, utf8Step, if_pos hexpect, if_neg hcont]
        rfl
  · left
    rw [step_first (Nat.eq_zero_of_not_pos hexpect), Progress.feed, utf8Step, if_neg hexpect]

/-- The rounds of the loop read the bytes one after the other. -/
theorem loop_ofProgress (k : Nat) :
    loop (2 * cs.length + k) (ofProgress p cs)
      = ofProgress (cs.foldl (Progress.feed utf8Step ⟨[], 0⟩) p) [] := by
  induction cs generalizing p k with
  | nil =>
      cases 2 * ([] : List Cell).length + k with
      | zero => rfl
      | succ n => rfl
  | cons c cs ih =>
      rw [show 2 * (c :: cs).length + k = 2 * cs.length + (k + 1) + 1 by
        rw [List.length_cons]
        omega]
      rw [loop]
      change loop _ ((ofProgress p (c :: cs)).step c cs) = _
      rcases step_ofProgress p c cs with hread | ⟨p', hgive, hread⟩
      · rw [hread, ih (k + 1)]
        rfl
      · rw [hgive, ← Nat.add_assoc, loop]
        change loop _ ((ofProgress p' (c :: cs)).step c cs) = _
        rw [hread, ih k]
        rfl

end Detok

/-- The text that is complete, and the bytes that are read again. -/
theorem detokUtf8_eq {strBuffer : List Cell} (hnul : ∀ c ∈ strBuffer, c.byte ≠ 0) :
    detokUtf8 strBuffer
      = ((utf8 strBuffer).undecided,
        if (utf8 strBuffer).settled = [] then none else some (utf8 strBuffer).settled) := by
  have hsrc : strBuffer.takeWhile (·.byte ≠ 0) = strBuffer := by
    apply List.takeWhile_eq_self_iff.2
    intro c hc
    exact decide_eq_true (hnul c hc)
  have hloop : Detok.loop (2 * strBuffer.length) ⟨strBuffer, [], [], strBuffer, 0⟩
      = Detok.ofProgress (utf8 strBuffer) [] :=
    Detok.loop_ofProgress (p := Progress.fresh ⟨[], 0⟩) 0
  simp only [detokUtf8, hsrc, hloop, Detok.ofProgress, List.append_nil]

/-! ## A sequence of tokens -/

namespace Tokenizer

variable (t : Tokenizer)

/-- A call of `decode` that appends what it returns. -/
def decodeTurn (s : List Cell × List Cell) (token : Nat) : List Cell × List Cell :=
  let (strBuffer, piece) := t.decode s.1 token none
  (strBuffer, s.2 ++ piece.getD [])

/-- From `resetDecoder` on: what stays in `strBuffer`, and the strings one after the other. -/
def decodeTokens (tokens : List Nat) : List Cell × List Cell :=
  tokens.foldl t.decodeTurn ([], [])

def bytes (tokens : List Nat) : List UInt8 :=
  tokens.flatMap t.vocab

/-- A token that is decoded to its piece. -/
structure Plain (token : Nat) : Prop where
  bos : t.bosId ≠ some token
  eos : ¬t.isEos token
  nul : 0 ∉ t.vocab token

end Tokenizer

/-- Bytes without their source. -/
def cells (bytes : List UInt8) : List Cell :=
  bytes.map fun byte => ⟨byte, none⟩

namespace Tokenizer

variable {t : Tokenizer} {tokens : List Nat}

theorem decode_plain {token : Nat} (h : t.Plain token) (strBuffer : List Cell) :
    t.decode strBuffer token none = detokUtf8 (strBuffer ++ cells (t.vocab token)) := by
  rw [decode, if_neg h.bos, if_neg h.eos]
  rfl

theorem cells_ne_nul (hplain : ∀ token ∈ tokens, t.Plain token) :
    ∀ c ∈ cells (t.bytes tokens), c.byte ≠ 0 := by
  intro c hc hzero
  rcases List.mem_map.1 hc with ⟨b, hb, rfl⟩
  rcases List.mem_flatMap.1 hb with ⟨token, htoken, hmem⟩
  have hb0 : b = 0 := hzero
  exact (hplain token htoken).nul (hb0 ▸ hmem)

theorem bytes_append (more : List Nat) :
    t.bytes (tokens ++ more) = t.bytes tokens ++ t.bytes more :=
  List.flatMap_append

/-- The calls of `decode` read the bytes of the tokens as one stream. -/
theorem decodeTokens_eq (hplain : ∀ token ∈ tokens, t.Plain token) :
    t.decodeTokens tokens
      = ((utf8 (cells (t.bytes tokens))).undecided, (utf8 (cells (t.bytes tokens))).settled) := by
  induction tokens using List.reverseRecOn with
  | nil => rfl
  | append_singleton tokens token ih =>
      have hbefore := ih fun t ht => hplain t (List.mem_append_left _ ht)
      have hnul : ∀ c ∈ (utf8 (cells (t.bytes tokens))).undecided ++ cells (t.vocab token),
          c.byte ≠ 0 := by
        intro c hc
        apply cells_ne_nul hplain c
        rw [bytes_append, cells, List.map_append, List.mem_append]
        rcases List.mem_append.1 hc with hold | hnew
        · exact Or.inl (Progress.undecided_suffix.subset hold)
        · exact Or.inr (by simpa [bytes, cells] using hnew)
      have hstream : utf8 (cells (t.bytes (tokens ++ [token])))
          = Progress.after (utf8 (cells (t.bytes tokens))).settled
              (utf8 ((utf8 (cells (t.bytes tokens))).undecided ++ cells (t.vocab token))) := by
        rw [bytes_append, cells, List.map_append, utf8, Progress.process_append]
        simp [bytes, utf8, cells]
      rw [decodeTokens, List.foldl_append, ← decodeTokens, hbefore, hstream]
      simp only [List.foldl_cons, List.foldl_nil, decodeTurn,
        decode_plain (hplain token (by simp)), detokUtf8_eq hnul, Progress.after_undecided,
        Progress.after_settled]
      split <;> simp_all

end Tokenizer

/-! ## Valid text -/

/-- A first byte and bytes that go on with it: the character is settled with the last one. -/
theorem utf8_char {b : Cell} {n : Nat} (hb : continuations b.byte = some n) {conts : List Cell}
    (hconts : ∀ c ∈ conts, c.byte &&& 0xc0 = 0x80) (hle : conts.length ≤ n) :
    utf8 (b :: conts)
      = if conts.length = n then ⟨b :: conts, [], ⟨[], 0⟩⟩
        else ⟨[], b :: conts, ⟨b :: conts, n - conts.length⟩⟩ := by
  induction conts using List.reverseRecOn with
  | nil =>
      have hfirst : utf8 [b]
          = Progress.resolve ⟨[], 0⟩ (Progress.fresh ⟨[], 0⟩) b (leadByte [] b) := rfl
      rw [hfirst, leadByte, hb]
      simp only [advance]
      cases n with
      | zero => rfl
      | succ n => rfl
  | append_singleton conts c ih =>
      rw [List.length_append, List.length_singleton] at hle
      have hbefore := ih (fun x hx => hconts x (List.mem_append_left _ hx)) (by omega)
      rw [if_neg (by omega)] at hbefore
      have hfeed : utf8 (b :: conts ++ [c])
          = Progress.feed utf8Step ⟨[], 0⟩ (utf8 (b :: conts)) c :=
        Progress.process_append_singleton c
      have hstep : utf8Step ⟨b :: conts, n - conts.length⟩ c
          = advance (b :: conts) c (n - conts.length - 1) := by
        rw [utf8Step, if_pos (Nat.sub_pos_of_lt hle), if_pos (hconts c (by simp))]
      rw [← List.cons_append, hfeed, hbefore, Progress.feed, hstep, advance, List.length_append,
        List.length_singleton, Nat.sub_sub]
      by_cases hlast : conts.length + 1 = n
      · rw [if_pos hlast, if_pos (by omega)]
        rfl
      · rw [if_neg hlast, if_neg (by omega)]
        rfl

theorem continuation_ofNat {x : Nat} (hx : x < 0x40) : UInt8.ofNat (x + 0x80) &&& 0xc0 = 0x80 := by
  revert x
  decide

theorem continuations_one {x : Nat} (hx : x ≤ 0x7f) : continuations (UInt8.ofNat x) = some 0 := by
  revert x
  decide

theorem continuations_two {x : Nat} (hx : x < 0x20) :
    continuations (UInt8.ofNat (x + 0xc0)) = some 1 := by
  revert x
  decide

theorem continuations_three {x : Nat} (hx : x < 0x10) :
    continuations (UInt8.ofNat (x + 0xe0)) = some 2 := by
  revert x
  decide

theorem continuations_four {x : Nat} (hx : x < 0x08) :
    continuations (UInt8.ofNat (x + 0xf0)) = some 3 := by
  revert x
  decide

/-- The encoding of a character is a first byte and as many bytes as it asks for. -/
theorem exists_utf8EncodeChar (c : Char) :
    ∃ b conts, String.utf8EncodeChar c = b :: conts ∧ continuations b = some conts.length ∧
      ∀ x ∈ conts, x &&& 0xc0 = 0x80 := by
  have hcont : ∀ x, UInt8.ofNat (x % 0x40 + 0x80) &&& 0xc0 = 0x80 := fun x =>
    continuation_ofNat (Nat.mod_lt x (by decide))
  rw [String.utf8EncodeChar]
  split
  · next h => exact ⟨_, [], rfl, continuations_one h, List.forall_mem_nil _⟩
  · split
    · exact ⟨_, [_], rfl, continuations_two (Nat.mod_lt _ (by decide)),
        List.forall_mem_cons.2 ⟨hcont _, List.forall_mem_nil _⟩⟩
    · split
      · exact ⟨_, [_, _], rfl, continuations_three (Nat.mod_lt _ (by decide)),
          List.forall_mem_cons.2 ⟨hcont _, List.forall_mem_cons.2 ⟨hcont _, List.forall_mem_nil _⟩⟩⟩
      · exact ⟨_, [_, _, _], rfl, continuations_four (Nat.mod_lt _ (by decide)),
          List.forall_mem_cons.2 ⟨hcont _, List.forall_mem_cons.2
            ⟨hcont _, List.forall_mem_cons.2 ⟨hcont _, List.forall_mem_nil _⟩⟩⟩⟩

/-- The bytes of a text. -/
def encoded (chars : List Char) : List UInt8 :=
  chars.flatMap String.utf8EncodeChar

/-- A character is settled with its last byte and not before. -/
theorem utf8_prefix {c : Char} {q : List UInt8} (hq : q <+: String.utf8EncodeChar c) :
    if q = String.utf8EncodeChar c then utf8 (cells q) = ⟨cells q, [], ⟨[], 0⟩⟩
    else (utf8 (cells q)).settled = [] := by
  rcases exists_utf8EncodeChar c with ⟨b, conts, hbytes, hb, hconts⟩
  rw [hbytes] at hq ⊢
  cases q with
  | nil => rfl
  | cons b' q =>
      rcases List.cons_prefix_cons.1 hq with ⟨rfl, hpre⟩
      have hmem : ∀ x ∈ cells q, x.byte &&& 0xc0 = 0x80 := by
        intro x hx
        rcases List.mem_map.1 hx with ⟨y, hy, rfl⟩
        exact hconts y (hpre.subset hy)
      have hlen : (cells q).length = q.length := List.length_map _
      have hchar := utf8_char (b := ⟨b', none⟩) hb hmem (hlen ▸ hpre.length_le)
      change utf8 (cells (b' :: q)) = _ at hchar
      rw [hlen] at hchar
      by_cases hall : q.length = conts.length
      · rw [if_pos (by rw [hpre.eq_of_length hall])]
        rwa [if_pos hall] at hchar
      · have hne : b' :: q ≠ b' :: conts := fun h => hall (congrArg List.length (List.cons.inj h).2)
        rw [if_neg hne]
        rw [if_neg hall] at hchar
        rw [hchar]

theorem cells_append (u v : List UInt8) : cells (u ++ v) = cells u ++ cells v :=
  List.map_append

/-- Whole characters are settled. -/
theorem utf8_encoded (chars : List Char) :
    utf8 (cells (encoded chars)) = ⟨cells (encoded chars), [], ⟨[], 0⟩⟩ := by
  induction chars with
  | nil => rfl
  | cons c chars ih =>
      have hc := utf8_prefix (List.prefix_refl (String.utf8EncodeChar c))
      rw [if_pos rfl] at hc
      have hcons : encoded (c :: chars) = String.utf8EncodeChar c ++ encoded chars := rfl
      have happend : utf8 (cells (String.utf8EncodeChar c) ++ cells (encoded chars))
          = Progress.after (utf8 (cells (String.utf8EncodeChar c))).settled
              (utf8 (cells (encoded chars))) :=
        Progress.process_append_of_undecided_nil (congrArg Progress.undecided hc)
      rw [hcons, cells_append, happend, hc, ih]
      rfl

/-- The beginning of a text is whole characters and bytes of which nothing is settled. -/
theorem exists_whole {chars : List Char} {bytes : List UInt8} (h : bytes <+: encoded chars) :
    ∃ n q, bytes = encoded (chars.take n) ++ q ∧ (utf8 (cells q)).settled = [] := by
  induction chars generalizing bytes with
  | nil => exact ⟨0, [], List.prefix_nil.1 h, rfl⟩
  | cons c chars ih =>
      have hc : String.utf8EncodeChar c <+: encoded (c :: chars) := List.prefix_append _ _
      by_cases hwhole : String.utf8EncodeChar c <+: bytes
      · rcases hwhole with ⟨rest, rfl⟩
        have hrest : rest <+: encoded chars := (List.prefix_append_right_inj _).1 h
        rcases ih hrest with ⟨n, q, rfl, hq⟩
        exact ⟨n + 1, q, (List.append_assoc _ _ _).symm, hq⟩
      · have hshort : bytes <+: String.utf8EncodeChar c :=
          (List.prefix_or_prefix_of_prefix h hc).resolve_right hwhole
        have hq := utf8_prefix hshort
        have hne : bytes ≠ String.utf8EncodeChar c := fun heq => hwhole (heq ▸ List.prefix_refl _)
        rw [if_neg hne] at hq
        exact ⟨0, bytes, rfl, hq⟩

/-- The settled part of whole characters and bytes of which nothing is settled. -/
theorem utf8_whole_settled {chars : List Char} {q : List UInt8}
    (hq : (utf8 (cells q)).settled = []) :
    (utf8 (cells (encoded chars ++ q))).settled = cells (encoded chars) := by
  have happend : utf8 (cells (encoded chars) ++ cells q)
      = Progress.after (utf8 (cells (encoded chars))).settled (utf8 (cells q)) :=
    Progress.process_append_of_undecided_nil (congrArg Progress.undecided (utf8_encoded chars))
  rw [cells_append, happend, Progress.after_settled, hq, List.append_nil, utf8_encoded]

@[simp] theorem map_byte_cells (bytes : List UInt8) : (cells bytes).map Cell.byte = bytes := by
  rw [cells, List.map_map]
  exact List.map_id bytes

namespace Tokenizer

/-- The text does not depend on where tokens end.  Of a text in UTF-8, which the last token may cut
inside a character, it is the longest beginning of whole characters. -/
theorem decode_stream (t : Tokenizer) {tokens : List Nat}
    (hplain : ∀ token ∈ tokens, t.Plain token) :
    (∀ tokens', (∀ token ∈ tokens', t.Plain token) → t.bytes tokens' = t.bytes tokens →
      ∀ more, t.decodeTokens (tokens' ++ more) = t.decodeTokens (tokens ++ more)) ∧
    ∀ chars, t.bytes tokens <+: encoded chars →
      let text := (t.decodeTokens tokens).2.map Cell.byte
      (∃ n, text = encoded (chars.take n)) ∧ text <+: t.bytes tokens ∧
        ∀ n, encoded (chars.take n) <+: t.bytes tokens → encoded (chars.take n) <+: text := by
  constructor
  · intro tokens' hplain' hbytes more
    have hsame : t.decodeTokens tokens' = t.decodeTokens tokens := by
      rw [decodeTokens_eq hplain', decodeTokens_eq hplain, hbytes]
    rw [decodeTokens, List.foldl_append, ← decodeTokens, hsame, decodeTokens, decodeTokens,
      List.foldl_append]
  · intro chars hvalid text
    rcases exists_whole hvalid with ⟨n, q, hbytes, hq⟩
    have hsettled : text = (utf8 (cells (t.bytes tokens))).settled.map Cell.byte := by
      simp only [text, decodeTokens_eq hplain]
    have htext : text = encoded (chars.take n) := by
      rw [hsettled, hbytes, utf8_whole_settled hq, map_byte_cells]
    refine ⟨⟨n, htext⟩, ?_, fun m hm => ?_⟩
    · rw [htext, hbytes]
      exact List.prefix_append _ _
    · -- what the first characters settle is not taken back
      rcases hm with ⟨rest, hrest⟩
      have hpre : (utf8 (cells (encoded (chars.take m)))).settled
          <+: (utf8 (cells (encoded (chars.take m)) ++ cells rest)).settled :=
        Progress.settled_prefix
      rw [← cells_append, hrest, utf8_encoded] at hpre
      have hmap := hpre.map Cell.byte
      rw [map_byte_cells] at hmap
      rwa [hsettled]

/-- The four bytes of one character, in two ways cut into two tokens. -/
def split : Tokenizer where
  vocab token := [[0xf0, 0x9f, 0x98], [0x83], [0xf0], [0x9f, 0x98, 0x83]].getD token []
  bosId := some 4
  eosTokenIds := [5]

theorem decode_stream_split :
    split.decodeTokens [0, 1] = split.decodeTokens [2, 3] ∧
      ∃ n, (split.decodeTokens [2, 3]).2.map Cell.byte = encoded (['😃'].take n) := by
  have hplain : ∀ token ∈ [2, 3], split.Plain token := by
    intro token htoken
    rcases List.mem_cons.1 htoken with rfl | hlast
    · exact ⟨by decide, by decide, by decide⟩
    · rw [List.mem_singleton.1 hlast]
      exact ⟨by decide, by decide, by decide⟩
  have hplain' : ∀ token ∈ [0, 1], split.Plain token := by
    intro token htoken
    rcases List.mem_cons.1 htoken with rfl | hlast
    · exact ⟨by decide, by decide, by decide⟩
    · rw [List.mem_singleton.1 hlast]
      exact ⟨by decide, by decide, by decide⟩
  have hstream := decode_stream split hplain
  exact ⟨hstream.1 [0, 1] hplain' (by decide) [], (hstream.2 ['😃'] (by decide)).1⟩

end Tokenizer

end PrefillOpt
