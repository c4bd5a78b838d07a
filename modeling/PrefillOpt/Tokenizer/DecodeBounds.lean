import PrefillOpt.Tokenizer.Encode
import PrefillOpt.Tokenizer.Stream

/-!
# Tokenizer.DecodeBounds — the buffers of the decoder

Both buffers have room for two of the longest tokens, or two characters, and three bytes more.  A
call fits in them if what is undecided before it is the beginning of one character.  Undecided bytes
that are not UTF-8 have no bound: they are kept until a character is complete.
-/

namespace PrefillOpt

open Lib

/-- The beginning of one character, or nothing. -/
def Incomplete : List Cell → Prop
  | [] => True
  | b :: conts =>
      match continuations b.byte with
      | none => False
      | some n => conts.length < n ∧ ∀ c ∈ conts, c.byte &&& 0xc0 = 0x80

instance : DecidablePred Incomplete
  | [] => isTrue trivial
  | b :: conts =>
      match h : continuations b.byte with
      | none => isFalse (by simp [Incomplete, h])
      | some n => decidable_of_iff
          (conts.length < n ∧ ∀ c ∈ conts, c.byte &&& 0xc0 = 0x80) (by simp [Incomplete, h])

namespace Detok

/-- The variables before the first round. -/
def start (strBuffer : List Cell) : Detok :=
  let src := strBuffer.takeWhile (·.byte ≠ 0)
  ⟨src, [], [], src, 0⟩

theorem loop_nil (n : Nat) {s : Detok} (h : s.src = []) : loop n s = s := by
  cases n with
  | zero => rfl
  | succ n => rw [loop, h]

theorem loop_cons (n : Nat) {s : Detok} {c : Cell} {cs : List Cell} (h : s.src = c :: cs) :
    loop (n + 1) s = loop n (s.step c cs) := by
  rw [loop, h]

theorem loop_add (m n : Nat) (s : Detok) : loop (m + n) s = loop n (loop m s) := by
  induction m generalizing s with
  | zero => rw [Nat.zero_add, loop]
  | succ m ih =>
      rw [Nat.succ_add]
      cases h : s.src with
      | nil => simp only [loop_nil _ h]
      | cons c cs => rw [loop_cons _ h, loop_cons _ h, ih]

/-- What a round keeps, the loop keeps. -/
theorem loop_keeps {P : Detok → Prop} (h : ∀ s c cs, s.src = c :: cs → P s → P (s.step c cs))
    (n : Nat) {s : Detok} (hs : P s) : P (loop n s) := by
  induction n generalizing s with
  | zero => exact hs
  | succ n ih =>
      cases hsrc : s.src with
      | nil => rwa [loop_nil _ hsrc]
      | cons c cs =>
          rw [loop_cons _ hsrc]
          exact ih (h s c cs hsrc hs)

/-! ## The growth of the output -/

/-- A byte that is read makes room for two. -/
structure Extent (room : Nat) (s : Detok) : Prop where
  dst : s.dst.length + 2 * s.src.length ≤ room + 3
  checkpoint : s.checkpoint.length + 2 * s.src.length ≤ room + 2
  expected : 0 < s.expectContinuation → s.checkpoint.length + 2 * s.src.length ≤ room

variable {room : Nat} {s : Detok} {c : Cell} {cs : List Cell}

theorem Extent.accept (h : Extent room s) (hsrc : s.src = c :: cs) (expect : Nat) :
    Extent room (s.accept c cs expect) := by
  have hdst := h.dst
  have hcheckpoint := h.checkpoint
  rw [hsrc, List.length_cons] at hdst hcheckpoint
  rw [Detok.accept]
  split
  · constructor
    · simp only [List.length_append, List.length_singleton]
      omega
    · simp only [List.length_append, List.length_singleton]
      omega
    · exact fun hpos => absurd hpos (Nat.lt_irrefl 0)
  · constructor
    · simp only [List.length_append, List.length_singleton]
      omega
    · simp only
      omega
    · intro _
      simp only
      omega

theorem Extent.recover (h : Extent room s) (hsrc : s.src = c :: cs) :
    Extent room (s.recover c cs) := by
  have hcheckpoint := h.checkpoint
  have hexpected := h.expected
  rw [hsrc, List.length_cons] at hcheckpoint hexpected
  rw [Detok.recover]
  split
  · next hpos =>
      have := hexpected hpos
      constructor
      · simp only [List.length_append, List.length_cons, List.length_nil]
        omega
      · simp only [List.length_cons]
        omega
      · exact fun hpos => absurd hpos (Nat.lt_irrefl 0)
  · constructor
    · simp only [List.length_append, List.length_cons, List.length_nil]
      omega
    · simp only
      omega
    · exact fun hpos => absurd hpos (Nat.lt_irrefl 0)

theorem Extent.step (h : Extent room s) (hsrc : s.src = c :: cs) : Extent room (s.step c cs) := by
  rw [Detok.step]
  split
  · split
    · exact h.accept hsrc _
    · exact h.recover hsrc
  · repeat' split
    all_goals first
      | exact h.accept hsrc _
      | exact h.recover hsrc

/-! ## The bytes that were undecided -/

/-- Bytes that go on a character without completing it take a round each. -/
theorem loop_continue {p : Progress Cell Cell Partial} {conts src : List Cell}
    (hconts : ∀ c ∈ conts, c.byte &&& 0xc0 = 0x80) (hlt : conts.length < p.work.expect) {n : Nat}
    (hn : n ≤ conts.length) :
    loop n (ofProgress p (conts ++ src))
      = ofProgress ⟨p.settled, p.undecided ++ conts.take n,
          ⟨p.work.tail ++ conts.take n, p.work.expect - n⟩⟩ (conts.drop n ++ src) := by
  induction n generalizing p conts with
  | zero => simp [loop]
  | succ n ih =>
      cases conts with
      | nil => cases hn
      | cons c conts =>
          rw [List.length_cons] at hlt hn
          have hc := hconts c List.mem_cons_self
          have hadvance : advance p.work.tail c (p.work.expect - 1)
              = .inl ⟨p.work.tail ++ [c], p.work.expect - 1⟩ := by
            rw [advance, if_neg (by omega)]
          have hsrc : (ofProgress p (c :: (conts ++ src))).src = c :: (conts ++ src) := rfl
          have hlt' : conts.length < p.work.expect - 1 := by omega
          have hpos : 0 < p.work.expect := by omega
          rw [List.cons_append, loop_cons n hsrc, step_continue hpos hc, hadvance, Progress.resolve,
            ih (fun x hx => hconts x (List.mem_cons_of_mem c hx)) hlt' (Nat.le_of_succ_le_succ hn)]
          simp [Nat.sub_sub, Nat.add_comm]

/-- While the beginning of a character is read again, it is all that is written. -/
theorem loop_incomplete {strBuffer : List Cell} (h : Incomplete strBuffer) (src : List Cell)
    {n : Nat} (hn : n ≤ strBuffer.length) :
    ∃ work undecided, loop n (ofProgress (Progress.fresh ⟨[], 0⟩) (strBuffer ++ src))
      = ofProgress ⟨[], undecided, work⟩ (strBuffer.drop n ++ src) ∧ work.tail.length = n := by
  cases strBuffer with
  | nil =>
      have hzero : n = 0 := Nat.le_zero.1 hn
      exact ⟨⟨[], 0⟩, [], by rw [hzero]; rfl, by rw [hzero]; rfl⟩
  | cons b conts =>
      cases n with
      | zero => exact ⟨⟨[], 0⟩, [], rfl, rfl⟩
      | succ n =>
          rw [Incomplete] at h
          split at h
          · exact h.elim
          · next expect hb =>
              rcases h with ⟨hlt, hconts⟩
              have hne : expect ≠ 0 := by omega
              have hfirst : leadByte [] b = .inl ⟨[b], expect⟩ := by
                rw [leadByte, hb]
                simp only [advance, if_neg hne, List.nil_append]
              have hsrc : (ofProgress (Progress.fresh ⟨[], 0⟩) (b :: (conts ++ src))).src
                = b :: (conts ++ src) := rfl
              have hn' : n ≤ conts.length := Nat.le_of_succ_le_succ hn
              rw [List.cons_append, loop_cons n hsrc, step_first rfl, Progress.fresh, hfirst,
                Progress.resolve, loop_continue hconts hlt hn']
              refine ⟨_, _, rfl, ?_⟩
              simp [Nat.min_eq_left hn']

end Detok

/-! ## One call -/

theorem continuations_le {b : UInt8} {n : Nat} (h : continuations b = some n) : n ≤ 3 := by
  revert h
  rw [continuations]
  repeat' split
  all_goals simp
  all_goals omega

theorem Incomplete.length_le {strBuffer : List Cell} (h : Incomplete strBuffer) :
    strBuffer.length ≤ 3 := by
  cases strBuffer with
  | nil => exact Nat.zero_le 3
  | cons b conts =>
      rw [Incomplete] at h
      split at h
      · exact h.elim
      · next n hb =>
          have hn := continuations_le hb
          have hlt := h.1
          rw [List.length_cons]
          omega

theorem Incomplete.ne_nul {strBuffer : List Cell} (h : Incomplete strBuffer) :
    ∀ c ∈ strBuffer, c.byte ≠ 0 := by
  cases strBuffer with
  | nil => exact List.forall_mem_nil _
  | cons b conts =>
      rw [Incomplete] at h
      split at h
      · exact h.elim
      · next n hb =>
          rcases h with ⟨hlt, hconts⟩
          intro c hmem hzero
          rcases List.mem_cons.1 hmem with rfl | hc
          · rw [hzero] at hb
            cases hb
            exact Nat.not_lt_zero _ hlt
          · have hcont := hconts c hc
            rw [hzero] at hcont
            cases hcont

/-- `utf8Buffer` holds what a call writes: two bytes for each of the piece, and three. -/
theorem loop_extent {strBuffer : List Cell} (h : Incomplete strBuffer) (src : List Cell) (n : Nat) :
    let s := Detok.loop n (Detok.ofProgress (Progress.fresh ⟨[], 0⟩) (strBuffer ++ src))
    s.dst.length ≤ 2 * src.length + 3 ∧ s.checkpoint.length ≤ 2 * src.length + 2 := by
  intro s
  have hlen := h.length_le
  rcases Nat.le_total n strBuffer.length with hn | hn
  · -- the undecided bytes are read again
    rcases Detok.loop_incomplete h src hn with ⟨work, undecided, hloop, htail⟩
    have hs : s = Detok.ofProgress ⟨[], undecided, work⟩ (strBuffer.drop n ++ src) := hloop
    simp only [hs, Detok.ofProgress, List.nil_append, List.length_nil, htail]
    omega
  · -- the piece is read
    rcases Detok.loop_incomplete h src (Nat.le_refl _) with
      ⟨work, undecided, hloop, htail⟩
    have hstart : Detok.Extent (2 * src.length)
        (Detok.ofProgress ⟨[], undecided, work⟩ (strBuffer.drop strBuffer.length ++ src)) := by
      rw [List.drop_length, List.nil_append]
      constructor
      · simp only [Detok.ofProgress, List.nil_append, htail]
        omega
      · simp only [Detok.ofProgress, List.length_nil]
        omega
      · simp only [Detok.ofProgress, List.length_nil]
        omega
    have hend := Detok.loop_keeps (fun s c cs hsrc hs => Detok.Extent.step hs hsrc)
      (n - strBuffer.length) hstart
    rw [← hloop, ← Detok.loop_add, Nat.add_sub_cancel' hn] at hend
    exact ⟨(Nat.le_add_right _ _).trans hend.dst, (Nat.le_add_right _ _).trans hend.checkpoint⟩

/-- A call of `decode` whose assertion holds and that writes inside `utf8Buffer`, the final zero
included. -/
structure CallFits (strBufferSize : Nat) (strBuffer : List Cell) (piece : List UInt8) : Prop where
  asserted : strBuffer.length + piece.length + 1 < strBufferSize
  written : ∀ n, (Detok.loop n (Detok.start (strBuffer ++ cells piece))).dst.length ≤ strBufferSize
  terminated : ∀ n,
    (Detok.loop n (Detok.start (strBuffer ++ cells piece))).checkpoint.length < strBufferSize

namespace Vocabulary

variable {F : Type} (v : Vocabulary F)

def tokenizer (eosTokenIds : List Nat) : Tokenizer :=
  ⟨v.piece, some v.bosId, eosTokenIds⟩

theorem callFits {strBuffer : List Cell} (h : Incomplete strBuffer) {token : Nat}
    (htoken : token < v.vocabSize) : CallFits v.strBufferSize strBuffer (v.piece token) := by
  have hlen := h.length_le
  have hpiece := v.piece_length token htoken
  have hcells : (cells (v.piece token)).length = (v.piece token).length := List.length_map _
  have hsize : 2 * v.maxTokenLength + 3 ≤ v.strBufferSize ∧ 11 ≤ v.strBufferSize := by
    rw [strBufferSize]
    split <;> omega
  have hstart : Detok.start (strBuffer ++ cells (v.piece token))
      = Detok.ofProgress (Progress.fresh ⟨[], 0⟩) (strBuffer ++ cells (v.piece token)) := by
    have hsrc : (strBuffer ++ cells (v.piece token)).takeWhile (·.byte ≠ 0)
        = strBuffer ++ cells (v.piece token) := by
      apply List.takeWhile_eq_self_iff.2
      intro c hc
      apply decide_eq_true
      rcases List.mem_append.1 hc with hold | hnew
      · exact h.ne_nul c hold
      · rcases List.mem_map.1 hnew with ⟨b, hb, rfl⟩
        intro hzero
        have hb0 : b = 0 := hzero
        exact v.piece_nul token htoken (hb0 ▸ hb)
    rw [Detok.start, hsrc]
    rfl
  constructor
  · omega
  · intro n
    have hextent := (loop_extent h (cells (v.piece token)) n).1
    rw [hstart]
    omega
  · intro n
    have hextent := (loop_extent h (cells (v.piece token)) n).2
    rw [hstart]
    omega

/-! ## A sequence of tokens -/

/-- All calls fit in the buffers where `strBuffer` holds the beginning of one character before each
of them.  `BOS` and the stop tokens, for which `decode` writes nothing, would fit as well. -/
theorem decode_fits (eosTokenIds : List Nat) {tokens : List Nat} (hvalid : v.Valid tokens)
    (hincomplete : ∀ k < tokens.length,
      Incomplete ((v.tokenizer eosTokenIds).decodeTokens (tokens.take k)).1) :
    ∀ before token after, tokens = before ++ token :: after →
      CallFits v.strBufferSize ((v.tokenizer eosTokenIds).decodeTokens before).1
        (v.piece token) := by
  intro before token after hsplit
  have hk : before.length < tokens.length := by
    rw [hsplit, List.length_append, List.length_cons]
    omega
  have hbefore := hincomplete before.length hk
  rw [hsplit, List.take_left] at hbefore
  exact v.callFits hbefore (hvalid token (hsplit ▸ by simp))

end Vocabulary

/-- `80 f0 80 80`, `80 80 41 80` and `80`. -/
def malformed : Vocabulary Int where
  vocabSize := 4
  piece id := [[0x80, 0xf0, 0x80, 0x80], [0x80, 0x80, 0x41, 0x80], [0x80], [0x3c]].getD id [0x3c]
  vocabScores _ := some 0
  bosId := 3
  addBos := false
  maxTokenLength := 4
  bosId_lt := by decide
  piece_ne := by decide
  piece_nul := by decide
  piece_length := by decide

theorem decode_fits_malformed : CallFits malformed.strBufferSize [] (malformed.piece 2) :=
  malformed.decode_fits [] (show malformed.Valid [2] by decide) (by decide) [] 2 [] rfl

/-- The tenth token `80` fails the assertion; after `80 f0 80 80` the call with `80 80 41 80` passes
it and writes three bytes behind `utf8Buffer`. -/
theorem malformed_overflows :
    let strBuffer := fun tokens => ((malformed.tokenizer []).decodeTokens tokens).1
    ¬CallFits malformed.strBufferSize (strBuffer (List.replicate 9 2)) (malformed.piece 2) ∧
      (strBuffer [0]).length + (malformed.piece 1).length + 1 < malformed.strBufferSize ∧
      (Detok.loop 9 (Detok.start (strBuffer [0] ++ cells (malformed.piece 1)))).dst.length
        = malformed.strBufferSize + 3 := by
  refine ⟨fun h => ?_, by decide +kernel, by decide +kernel⟩
  have hasserted := h.asserted
  revert hasserted
  decide +kernel

end PrefillOpt
