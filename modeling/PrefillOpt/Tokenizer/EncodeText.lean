import PrefillOpt.Core
import PrefillOpt.Tokenizer.Merge

/-!
# Tokenizer.EncodeText — the text of the encoded tokens

A turn of the loop over the text keeps the text written, pending and still to come, as long as no
special token is taken while bytes are pending.  Such a token is put before the pending bytes, and
nothing that follows mends this.
-/

namespace PrefillOpt

open Lib

variable {F : Type} {v : Vocabulary F} {findRegularToken : List UInt8 → Option Nat}
  {addSpecialTokens isStart : Bool} {s s' : ScanState} {text whole : List UInt8}

/-- The state after `n` turns at most. -/
def scanAt (v : Vocabulary F) (findRegularToken : List UInt8 → Option Nat)
    (addSpecialTokens isStart : Bool) (text : List UInt8) (n : Nat) : ScanState :=
  iterate (scanStep v findRegularToken addSpecialTokens) n (scanStart v isStart text)

/-- No special token is found while bytes are pending. -/
def NoSpecialWhilePending (v : Vocabulary F) (findRegularToken : List UInt8 → Option Nat)
    (addSpecialTokens isStart : Bool) (text : List UInt8) : Prop :=
  ∀ n, let s := scanAt v findRegularToken addSpecialTokens isStart text n
    s.pending ≠ [] → specialAt v addSpecialTokens s.rest = none

/-! ## The text of a state -/

/-- Nothing is lost, and no special token begins where the pending bytes begin. -/
structure Faithful (v : Vocabulary F) (addSpecialTokens : Bool) (whole : List UInt8)
    (s : ScanState) : Prop where
  text : v.text s.tokens ++ (s.pending ++ s.rest) = whole
  plain : s.pending ≠ [] → specialAt v addSpecialTokens (s.pending ++ s.rest) = none

/-- A token that does not belong here follows the tokens `front`. -/
def Misplaced (v : Vocabulary F) (whole : List UInt8) (s : ScanState) : Prop :=
  ∃ front id more tail, s.tokens = front ++ id :: more ∧ v.text front ++ tail = whole ∧
    ¬v.piece id <+: tail

theorem Misplaced.text_ne (h : Misplaced v whole s) : v.text s.tokens ≠ whole := by
  rcases h with ⟨front, id, more, tail, htokens, hwhole, hnot⟩
  intro heq
  apply hnot
  rw [htokens, ← hwhole, Vocabulary.text_append, Vocabulary.text_cons] at heq
  exact ⟨v.text more, List.append_cancel_left heq⟩

/-- Tokens are only appended, so a misplaced one stays. -/
theorem Misplaced.turn (h : Misplaced v whole s)
    (hturn : Turn v findRegularToken addSpecialTokens s s') : Misplaced v whole s' := by
  rcases h with ⟨front, id, more, tail, htokens, hwhole, hnot⟩
  have happend : ∀ new, s.tokens ++ new = front ++ id :: (more ++ new) := by
    intro new
    rw [htokens, List.append_assoc, List.cons_append]
  cases hturn with
  | special id' _ => exact ⟨front, id, more ++ [id'], tail, happend [id'], hwhole, hnot⟩
  | regular c cs id' _ _ _ => exact ⟨front, id, more ++ [id'], tail, happend [id'], hwhole, hnot⟩
  | keep c cs _ _ _ => exact ⟨front, id, more, tail, htokens, hwhole, hnot⟩

/-- A special token while bytes are pending is misplaced: it does not begin where they begin. -/
theorem Faithful.misplaced (h : Faithful v addSpecialTokens whole s) (hpending : s.pending ≠ [])
    {id : Nat} (hspecial : specialAt v addSpecialTokens s.rest = some id) {rest : List UInt8} :
    Misplaced v whole ⟨rest, s.pending, s.tokens ++ [id]⟩ :=
  ⟨s.tokens, id, [], s.pending ++ s.rest, rfl, h.text,
    not_prefix_of_specialAt (h.plain hpending) hspecial⟩

/-- Every other turn is faithful. -/
theorem Faithful.turn (hlookup : v.IsLookup findRegularToken)
    (h : Faithful v addSpecialTokens whole s)
    (hnone : s.pending ≠ [] → specialAt v addSpecialTokens s.rest = none)
    (hturn : Turn v findRegularToken addSpecialTokens s s') :
    Faithful v addSpecialTokens whole s' := by
  have htext := h.text
  cases hturn with
  | special id hspecial =>
      have hempty : s.pending = [] := by
        by_contra hpending
        rw [hnone hpending] at hspecial
        cases hspecial
      rcases (specialAt_some hspecial).2 with ⟨tail, htail⟩
      rw [hempty, ← htail] at htext
      refine ⟨?_, fun hpending => absurd hempty hpending⟩
      simpa [hempty, ← htail] using htext
  | regular c cs id hrest _ hfind =>
      have hpiece := (hlookup.sound _ _ hfind).2
      refine ⟨?_, fun hpending => absurd rfl hpending⟩
      simpa [hpiece, hrest] using htext
  | keep c cs hrest hplain _ =>
      have hsame : s.pending ++ [c] ++ cs = s.pending ++ s.rest := by
        rw [hrest, List.append_assoc, List.singleton_append]
      refine ⟨hsame ▸ htext, fun _ => hsame ▸ ?_⟩
      by_cases hpending : s.pending = []
      · rwa [hpending, List.nil_append]
      · exact h.plain hpending

/-! ## The whole loop -/

theorem scanAt_succ (n : Nat) :
    scanAt v findRegularToken addSpecialTokens isStart text (n + 1)
      = (scanStep v findRegularToken addSpecialTokens
          (scanAt v findRegularToken addSpecialTokens isStart text n)).getD
        (scanAt v findRegularToken addSpecialTokens isStart text n) :=
  iterate_succ n _

/-- What the loop writes is the tokens of the start and the text. -/
theorem faithful_scanAt (hlookup : v.IsLookup findRegularToken) {n : Nat}
    (hnone : ∀ m < n, let s := scanAt v findRegularToken addSpecialTokens isStart text m
      s.pending ≠ [] → specialAt v addSpecialTokens s.rest = none) :
    Faithful v addSpecialTokens (v.text (scanStart v isStart text).tokens ++ text)
      (scanAt v findRegularToken addSpecialTokens isStart text n) := by
  induction n with
  | zero => exact ⟨rfl, fun h => absurd rfl h⟩
  | succ n ih =>
      have hfaithful := ih fun m hm => hnone m (Nat.lt_succ_of_lt hm)
      rw [scanAt_succ]
      cases hstep : scanStep v findRegularToken addSpecialTokens
          (scanAt v findRegularToken addSpecialTokens isStart text n) with
      | none => exact hfaithful
      | some s' => exact hfaithful.turn hlookup (hnone n (Nat.lt_succ_self n)) (scanStep_turn hstep)

/-- What the scan returns is a state without rest and pending bytes. -/
theorem scan_ok {tokens : List Nat}
    (h : scan v findRegularToken addSpecialTokens isStart text = .ok tokens) :
    scanAt v findRegularToken addSpecialTokens isStart text text.length = ⟨[], [], tokens⟩ := by
  simp only [scan] at h
  rw [scanAt]
  generalize iterate _ _ _ = s at *
  rcases s with ⟨rest, pending, written⟩
  split at h
  · cases h
  · next hrest =>
      split at h
      · cases h
      · next hpending =>
          have hr : rest = [] := not_not.1 hrest
          have hp : pending = [] := not_not.1 hpending
          cases h
          rw [hr, hp]

theorem scanStep_special {id : Nat} (h : specialAt v addSpecialTokens s.rest = some id) :
    scanStep v findRegularToken addSpecialTokens s
      = some ⟨s.rest.drop (v.piece id).length, s.pending, s.tokens ++ [id]⟩ := by
  rcases s with ⟨rest, pending, tokens⟩
  cases rest with
  | nil =>
      rcases specialAt_some h with ⟨hid, hpre⟩
      exact absurd (List.prefix_nil.1 hpre) (v.piece_ne id hid)
  | cons c cs => simp only [scanStep, h]

/-- After the first special token among pending bytes a token is misplaced. -/
theorem misplaced_scanAt (hlookup : v.IsLookup findRegularToken)
    (hnot : ¬NoSpecialWhilePending v findRegularToken addSpecialTokens isStart text) :
    ∃ n, ∀ m, Misplaced v (v.text (scanStart v isStart text).tokens ++ text)
      (scanAt v findRegularToken addSpecialTokens isStart text (n + 1 + m)) := by
  classical
  have hexists := not_forall.1 hnot
  have hfirst := Nat.find_spec hexists
  have hbefore := fun m hm => not_not.1 (Nat.find_min (m := m) hexists hm)
  generalize Nat.find hexists = n at hfirst hbefore
  refine ⟨n, fun m => ?_⟩
  rcases Classical.not_imp.1 hfirst with ⟨hpending, hspecial⟩
  rcases Option.ne_none_iff_exists'.1 hspecial with ⟨id, hid⟩
  have hfaithful := faithful_scanAt (n := n) hlookup hbefore
  rw [scanAt, iterate_add, ← scanAt]
  refine iterate_keeps (fun s s' hs hstep => hs.turn (scanStep_turn hstep)) m ?_
  rw [scanAt_succ, scanStep_special hid]
  exact hfaithful.misplaced hpending hid

/-- The text is kept by the loop exactly when no special token comes while bytes are pending. -/
theorem scan_text_iff (hlookup : v.IsLookup findRegularToken) {tokens : List Nat}
    (h : scan v findRegularToken addSpecialTokens isStart text = .ok tokens) :
    v.text tokens = v.text (scanStart v isStart text).tokens ++ text ↔
      NoSpecialWhilePending v findRegularToken addSpecialTokens isStart text := by
  have hend := scan_ok h
  constructor
  · intro htext
    by_contra hnot
    rcases misplaced_scanAt hlookup hnot with ⟨n, hmisplaced⟩
    -- turns after the end of the text do nothing
    have hlast : scanAt v findRegularToken addSpecialTokens isStart text (text.length + (n + 1))
        = ⟨[], [], tokens⟩ := by
      rw [scanAt, iterate_add, ← scanAt, hend]
      exact iterate_of_none rfl (n + 1)
    have hwrong := hmisplaced text.length
    rw [Nat.add_comm, hlast] at hwrong
    exact hwrong.text_ne htext
  · intro hnone
    have hfaithful := faithful_scanAt (n := text.length) hlookup fun m _ => hnone m
    rw [hend] at hfaithful
    simpa using hfaithful.text

/-! ## The number of tokens -/

/-- Every token written takes a byte of the text at least. -/
structure Counted (v : Vocabulary F) (length : Nat) (s : ScanState) : Prop where
  valid : v.Valid s.tokens
  count : s.tokens.length + s.rest.length ≤ length

theorem Vocabulary.Valid.append_singleton {tokens : List Nat} {id : Nat} (h : v.Valid tokens)
    (hid : id < v.vocabSize) : v.Valid (tokens ++ [id]) := by
  intro t ht
  rcases List.mem_append.1 ht with hl | hr
  · exact h t hl
  · rwa [List.mem_singleton.1 hr]

theorem Counted.turn (hlookup : v.IsLookup findRegularToken) {length : Nat}
    (h : Counted v length s) (hturn : Turn v findRegularToken addSpecialTokens s s') :
    Counted v length s' := by
  have hcount := h.count
  cases hturn with
  | special id hspecial =>
      rcases specialAt_some hspecial with ⟨hid, hpre⟩
      have hpos := List.length_pos_iff.2 (v.piece_ne id hid)
      have hle := hpre.length_le
      refine ⟨Vocabulary.Valid.append_singleton h.valid hid, ?_⟩
      simp only [List.length_append, List.length_singleton, List.length_drop]
      omega
  | regular c cs id hrest _ hfind =>
      have hid := (hlookup.sound _ _ hfind).1
      have hlt := v.bosId_lt
      rw [hrest, List.length_cons] at hcount
      refine ⟨Vocabulary.Valid.append_singleton h.valid (by omega), ?_⟩
      simp only [List.length_append, List.length_singleton]
      omega
  | keep c cs hrest _ _ =>
      rw [hrest, List.length_cons] at hcount
      exact ⟨h.valid, by simp only; omega⟩

theorem counted_scanAt (hlookup : v.IsLookup findRegularToken) (n : Nat) :
    Counted v (text.length + 1)
      (scanAt v findRegularToken addSpecialTokens isStart text n) := by
  refine iterate_keeps (fun s s' hs hstep => hs.turn hlookup (scanStep_turn hstep)) n ⟨?_, ?_⟩
  · intro id hid
    rw [scanStart] at hid
    split at hid
    · rw [List.mem_singleton.1 hid]
      exact v.bosId_lt
    · cases hid
  · simp only [scanStart]
    split
    · simp only [List.length_singleton]
      omega
    · simp only [List.length_nil]
      omega

/-! ## The encoder -/

section Encode

variable [LinearOrder F] {lowest : F}

/-- The tokens have the text, after `BOS` where it is added, exactly when no special token is taken
while bytes are pending.  There are never more tokens than bytes and one. -/
theorem encode_text_iff (hlookup : v.IsLookup findRegularToken) {tokens : List Nat}
    (h : encode v findRegularToken lowest text isStart addSpecialTokens = .ok tokens) :
    (v.text tokens = (if isStart && v.addBos then v.piece v.bosId else []) ++ text ∧
      (∀ n, (scanAt v findRegularToken addSpecialTokens isStart text n).tokens.length
        ≤ text.length + 1) ∧
      ∃ scanned, scan v findRegularToken addSpecialTokens isStart text = .ok scanned ∧
        ∀ n, (iterate (mergeStep v findRegularToken lowest) n scanned).length ≤ text.length + 1) ↔
      NoSpecialWhilePending v findRegularToken addSpecialTokens isStart text := by
  rcases bind_eq_ok h with ⟨scanned, hscan, hmerge⟩
  cases hmerge
  have hcounted : ∀ n, Counted v (text.length + 1)
      (scanAt v findRegularToken addSpecialTokens isStart text n) := counted_scanAt hlookup
  have hend := hcounted text.length
  rw [scan_ok hscan] at hend
  have hstart : v.text (scanStart v isStart text).tokens
      = if isStart && v.addBos then v.piece v.bosId else [] := by
    rw [scanStart]
    split <;> simp
  rw [← scan_text_iff hlookup hscan, (mergeLoop_keeps hlookup hend.valid).2, hstart]
  constructor
  · rintro ⟨htext, -, -⟩
    exact htext
  · intro htext
    refine ⟨htext, fun n => ?_, scanned, hscan, fun n => ?_⟩
    · have := (hcounted n).count
      omega
    · apply (mergeLoop_length hlookup hend.valid n).trans
      exact (Nat.le_add_right _ _).trans hend.count

end Encode

/-! ## A special token inside a regular one -/

/-- `ab` is regular; `<b>` and `<s>` are special. -/
def interrupted : Vocabulary Int where
  vocabSize := 3
  piece id := [[97, 98], [60, 98, 62], [60, 115, 62]].getD id [97]
  vocabScores _ := some 0
  bosId := 1
  addBos := false
  maxTokenLength := 3
  bosId_lt := by decide
  piece_ne := by decide
  piece_nul := by decide
  piece_length := by decide

/-- `a<s>b`: the token `<s>` comes while `a` is pending. -/
theorem encode_text_iff_interrupted :
    ¬NoSpecialWhilePending interrupted (interrupted.findAmong [0]) true true
      [97, 60, 115, 62, 98] := by
  have hlookup : interrupted.IsLookup (interrupted.findAmong [0]) :=
    Vocabulary.findAmong_lookup (by decide) (by decide)
  have htokens : encode interrupted (interrupted.findAmong [0]) (-10000000000)
      [97, 60, 115, 62, 98] true true = .ok [2, 0] := by decide +kernel
  intro hnone
  have htext := ((encode_text_iff hlookup htokens).2 hnone).1
  revert htext
  decide

/-- `a<s>b` is encoded as `<s>` and `ab`. -/
theorem encode_interrupted :
    interrupted.IsLookup (interrupted.findAmong [0]) ∧
      encode interrupted (interrupted.findAmong [0]) (-10000000000) [97, 60, 115, 62, 98] true true
        = .ok [2, 0] ∧
      interrupted.text [2, 0] = [60, 115, 62, 97, 98] ∧
      interrupted.text [2, 0] ≠ [97, 60, 115, 62, 98] :=
  ⟨Vocabulary.findAmong_lookup (by decide) (by decide), by decide +kernel, by decide, by decide⟩

end PrefillOpt
