import Mathlib.Data.List.GetD
import Mathlib.Order.Lattice
import PrefillOpt.Lib.Loops
import PrefillOpt.Tokenizer.Encode

/-!
# Tokenizer.Merge — the merge loop of the encoder

A turn looks at all neighbours whose texts together are found among the regular tokens and merges
the first pair of the largest score.  The text of the list stays; the list gets shorter, so that
the loop ends, and at its end there is nothing to merge.
-/

namespace PrefillOpt

open Lib

namespace Vocabulary

variable {F : Type} (v : Vocabulary F)

@[simp] theorem text_nil : v.text [] = [] := rfl

@[simp] theorem text_append (l r : List Nat) : v.text (l ++ r) = v.text l ++ v.text r :=
  List.flatMap_append

@[simp] theorem text_cons (id : Nat) (l : List Nat) : v.text (id :: l) = v.piece id ++ v.text l :=
  List.flatMap_cons

theorem two_mul_maxTokenLength_lt : v.maxTokenLength * 2 + 1 < v.strBufferSize := by
  rw [strBufferSize]
  split <;> omega

end Vocabulary

variable {F : Type} {v : Vocabulary F} {findRegularToken : List UInt8 → Option Nat}
  {tokens tokens' : List Nat} {i id : Nat}

/-- A search in a table of regular tokens. -/
def Vocabulary.findAmong (v : Vocabulary F) (table : List Nat) (str : List UInt8) : Option Nat :=
  table.find? fun id => v.piece id = str

theorem Vocabulary.findAmong_lookup {table : List Nat} (hregular : ∀ id ∈ table, id < v.bosId)
    (hall : ∀ id < v.bosId, (v.findAmong table (v.piece id)).isSome) :
    v.IsLookup (v.findAmong table) where
  sound str id h := by
    have h' : table.find? (fun id => v.piece id = str) = some id := h
    have hpiece : decide (v.piece id = str) = true := by
      simpa using List.find?_some h'
    exact ⟨hregular id (List.mem_of_find?_eq_some h'), of_decide_eq_true hpiece⟩
  complete := hall

/-! ## One pair -/

/-- A pair of neighbours splits the list; putting a token in its place keeps the rest. -/
theorem exists_pair (hi : i + 1 < tokens.length) :
    ∃ l a b r, tokens = l ++ a :: b :: r ∧ l.length = i ∧
      ∀ id, (tokens.set i id).eraseIdx (i + 1) = l ++ id :: r := by
  have hsplit : tokens
      = tokens.take i ++ tokens[i] :: tokens[i + 1] :: tokens.drop (i + 2) := by
    rw [List.getElem_cons_drop, List.getElem_cons_drop, List.take_append_drop]
  have hlen : (tokens.take i).length = i := by
    rw [List.length_take]
    omega
  refine ⟨tokens.take i, tokens[i], tokens[i + 1], tokens.drop (i + 2), hsplit, hlen, fun id => ?_⟩
  generalize tokens.take i = l at *
  generalize tokens.drop (i + 2) = r at *
  generalize tokens[i] = a at *
  generalize tokens[i + 1] = b at *
  subst hsplit hlen
  simp [List.eraseIdx_append]

/-- The buffer has room for the texts of two tokens. -/
theorem pairText_eq (hv : v.Valid tokens) (hi : i + 1 < tokens.length) :
    pairText v tokens i = v.piece (tokens.getD i 0) ++ v.piece (tokens.getD (i + 1) 0) := by
  have hlen : ∀ j, j < tokens.length → (v.piece (tokens.getD j 0)).length ≤ v.maxTokenLength := by
    intro j hj
    rw [List.getD_eq_getElem _ _ hj]
    exact v.piece_length _ (hv _ (List.getElem_mem hj))
  have hroom := v.two_mul_maxTokenLength_lt
  have hleft := hlen i (by omega)
  have hright := hlen (i + 1) hi
  rw [pairText, List.take_of_length_le]
  rw [List.length_append]
  omega

/-- What the loop finds for pair `i`: a regular token and its score. -/
def candidate (v : Vocabulary F) (findRegularToken : List UInt8 → Option Nat) (tokens : List Nat)
    (i : Nat) : Option (Nat × F) :=
  (findRegularToken (pairText v tokens i)).bind fun id =>
    (v.vocabScores id).map fun score => (id, score)

/-- What the loop finds for two neighbours, whose texts are not cut off. -/
theorem candidate_split {l r : List Nat} {a b : Nat} (hv : v.Valid (l ++ a :: b :: r)) {score : F} :
    candidate v findRegularToken (l ++ a :: b :: r) l.length = some (id, score) ↔
      findRegularToken (v.piece a ++ v.piece b) = some id ∧ v.vocabScores id = some score := by
  have hpair : pairText v (l ++ a :: b :: r) l.length = v.piece a ++ v.piece b := by
    rw [pairText_eq hv (by simp)]
    simp
  rw [candidate, hpair, Option.bind_eq_some_iff]
  constructor
  · rintro ⟨id', hfind, hscore⟩
    rcases Option.map_eq_some_iff.1 hscore with ⟨score', hs, heq⟩
    cases heq
    exact ⟨hfind, hs⟩
  · rintro ⟨hfind, hs⟩
    exact ⟨id, hfind, by rw [hs]; rfl⟩

/-! ## The best pair -/

section Best

variable [LinearOrder F] {lowest : F}

/-- The first of the pairs with the largest score, among the pairs below `n`. -/
structure IsBest (v : Vocabulary F) (findRegularToken : List UInt8 → Option Nat) (lowest : F)
    (tokens : List Nat) (n i id : Nat) (score : F) : Prop where
  lt : i < n
  found : candidate v findRegularToken tokens i = some (id, score)
  above : lowest < score
  max : ∀ j < n, ∀ id' score', candidate v findRegularToken tokens j = some (id', score') →
    score' ≤ score
  first : ∀ j < i, ∀ id' score', candidate v findRegularToken tokens j = some (id', score') →
    score' < score

/-- What is known after `n` turns. -/
def BestAmong (v : Vocabulary F) (findRegularToken : List UInt8 → Option Nat) (lowest : F)
    (tokens : List Nat) (n : Nat) (b : BestPair F) : Prop :=
  match b.best with
  | none => b.score = lowest ∧ ∀ j < n, ∀ id score,
      candidate v findRegularToken tokens j = some (id, score) → score ≤ lowest
  | some (i, id) => IsBest v findRegularToken lowest tokens n i id b.score

theorem bestPairTurn_eq (b : BestPair F) :
    bestPairTurn v findRegularToken tokens b i
      = match candidate v findRegularToken tokens i with
        | none => b
        | some (id, score) => if b.score < score then ⟨score, some (i, id)⟩ else b := by
  rw [bestPairTurn, candidate]
  cases findRegularToken (pairText v tokens i) with
  | none => rfl
  | some id =>
      simp only [Option.bind_some]
      cases v.vocabScores id <;> rfl

/-- A pair that is not above the best score changes nothing. -/
theorem BestAmong.skip {n : Nat} {b : BestPair F}
    (h : BestAmong v findRegularToken lowest tokens n b)
    (hle : ∀ id score, candidate v findRegularToken tokens n = some (id, score) →
      score ≤ b.score) : BestAmong v findRegularToken lowest tokens (n + 1) b := by
  rcases b with ⟨best, _ | ⟨i, id⟩⟩
  · rcases h with ⟨hscore, hall⟩
    refine ⟨hscore, fun j hj id score hc => ?_⟩
    rcases Nat.lt_succ_iff_lt_or_eq.1 hj with hlt | rfl
    · exact hall j hlt id score hc
    · exact hscore ▸ hle id score hc
  · refine { h with lt := Nat.lt_succ_of_lt h.lt, max := fun j hj id' score' hc => ?_ }
    rcases Nat.lt_succ_iff_lt_or_eq.1 hj with hlt | rfl
    · exact h.max j hlt id' score' hc
    · exact hle id' score' hc

/-- A pair above the best score takes its place. -/
theorem BestAmong.replace {n : Nat} {b : BestPair F} {score : F}
    (h : BestAmong v findRegularToken lowest tokens n b)
    (hfound : candidate v findRegularToken tokens n = some (id, score)) (hlt : b.score < score) :
    BestAmong v findRegularToken lowest tokens (n + 1) ⟨score, some (n, id)⟩ := by
  have hall : lowest < score ∧ ∀ j < n, ∀ id' score',
      candidate v findRegularToken tokens j = some (id', score') → score' < score := by
    rcases b with ⟨best, _ | ⟨i, id'⟩⟩
    · rcases h with ⟨hscore, hle⟩
      have habove : lowest < score := hscore ▸ hlt
      exact ⟨habove, fun j hj id' score' hc => lt_of_le_of_lt (hle j hj id' score' hc) habove⟩
    · exact ⟨lt_trans h.above hlt,
        fun j hj id' score' hc => lt_of_le_of_lt (h.max j hj id' score' hc) hlt⟩
  refine ⟨Nat.lt_succ_self n, hfound, hall.1, fun j hj id' score' hc => ?_, hall.2⟩
  rcases Nat.lt_succ_iff_lt_or_eq.1 hj with hj' | rfl
  · exact (hall.2 j hj' id' score' hc).le
  · rw [hfound] at hc
    cases hc
    exact le_refl score

theorem bestAmong_foldl (v : Vocabulary F) (findRegularToken : List UInt8 → Option Nat) (lowest : F)
    (tokens : List Nat) (n : Nat) :
    BestAmong v findRegularToken lowest tokens n
      ((List.range n).foldl (bestPairTurn v findRegularToken tokens) ⟨lowest, none⟩) := by
  refine foldl_range (P := fun n b => BestAmong v findRegularToken lowest tokens n b)
    (fun n _ b hb => ?_) ⟨rfl, fun j hj => absurd hj (Nat.not_lt_zero j)⟩
  rw [bestPairTurn_eq]
  cases hc : candidate v findRegularToken tokens n with
  | none => exact hb.skip fun id score h => by rw [hc] at h; cases h
  | some found =>
      rcases found with ⟨id, score⟩
      simp only
      split
      · next hlt => exact hb.replace hc hlt
      · next hnot =>
          refine hb.skip fun id' score' h => ?_
          rw [hc] at h
          cases h
          exact not_lt.1 hnot

/-- The pair that is merged, by its index and its token. -/
theorem bestPair_some (h : bestPair v findRegularToken lowest tokens = some (i, id)) :
    ∃ score, IsBest v findRegularToken lowest tokens (tokens.length - 1) i id score := by
  have hbest := bestAmong_foldl v findRegularToken lowest tokens (tokens.length - 1)
  rw [BestAmong, ← bestPair, h] at hbest
  exact ⟨_, hbest⟩

/-- Without a pair to merge no pair has a score above the lowest. -/
theorem bestPair_none (h : bestPair v findRegularToken lowest tokens = none) {j : Nat}
    (hj : j + 1 < tokens.length) {score : F}
    (hc : candidate v findRegularToken tokens j = some (id, score)) : score ≤ lowest := by
  have hbest := bestAmong_foldl v findRegularToken lowest tokens (tokens.length - 1)
  rw [BestAmong, ← bestPair, h] at hbest
  exact hbest.2 j (by omega) id score hc

end Best

/-! ## One merge -/

section Step

variable [LinearOrder F] {lowest : F}

/-- The merge of a turn: `id` takes the place of the neighbours `a` and `b` between `l` and `r`.
No other pair has a larger score, and none before it the same one. -/
structure IsMerge (v : Vocabulary F) (findRegularToken : List UInt8 → Option Nat) (lowest : F)
    (l : List Nat) (a b : Nat) (r : List Nat) (id : Nat) (score : F) : Prop where
  found : findRegularToken (v.piece a ++ v.piece b) = some id
  scored : v.vocabScores id = some score
  above : lowest < score
  best : ∀ l' a' b' r' id' score', l ++ a :: b :: r = l' ++ a' :: b' :: r' →
    findRegularToken (v.piece a' ++ v.piece b') = some id' → v.vocabScores id' = some score' →
    score' ≤ score ∧ (l'.length < l.length → score' < score)

theorem mergeStep_some (hv : v.Valid tokens)
    (h : mergeStep v findRegularToken lowest tokens = some tokens') :
    ∃ l a b r id score, tokens = l ++ a :: b :: r ∧ tokens' = l ++ id :: r ∧
      IsMerge v findRegularToken lowest l a b r id score := by
  rw [mergeStep] at h
  split at h
  · cases h
  · next i id hbest =>
      cases h
      rcases bestPair_some hbest with ⟨score, hscore⟩
      have hi : i + 1 < tokens.length := by
        have := hscore.lt
        omega
      rcases exists_pair hi with ⟨l, a, b, r, rfl, rfl, hmerged⟩
      refine ⟨l, a, b, r, id, score, rfl, hmerged id, ?_⟩
      rcases (candidate_split hv).1 hscore.found with ⟨hfind, hs⟩
      refine ⟨hfind, hs, hscore.above, fun l' a' b' r' id' score' heq hfind' hs' => ?_⟩
      have hlen := congrArg List.length heq
      simp only [List.length_append, List.length_cons] at hlen
      rw [heq] at hv hscore
      have hc := (candidate_split hv).2 ⟨hfind', hs'⟩
      refine ⟨hscore.max _ ?_ _ _ hc, fun hlt => hscore.first _ hlt _ _ hc⟩
      rw [List.length_append, List.length_cons, List.length_cons]
      omega

theorem mergeStep_none (hv : v.Valid tokens)
    (h : mergeStep v findRegularToken lowest tokens = none) {l r : List Nat} {a b : Nat} {score : F}
    (hsplit : tokens = l ++ a :: b :: r)
    (hfind : findRegularToken (v.piece a ++ v.piece b) = some id)
    (hs : v.vocabScores id = some score) : score ≤ lowest := by
  rw [mergeStep] at h
  split at h
  · next hbest =>
      subst hsplit
      exact bestPair_none hbest (by simp) ((candidate_split hv).2 ⟨hfind, hs⟩)
  · cases h

variable (hlookup : v.IsLookup findRegularToken)
include hlookup

/-- A merge keeps the text and shortens the list. -/
theorem mergeStep_keeps (hv : v.Valid tokens)
    (h : mergeStep v findRegularToken lowest tokens = some tokens') :
    v.Valid tokens' ∧ v.text tokens' = v.text tokens ∧ tokens'.length < tokens.length := by
  rcases mergeStep_some hv h with ⟨l, a, b, r, id, score, rfl, rfl, hmerge⟩
  rcases hlookup.sound _ _ hmerge.found with ⟨hid, hpiece⟩
  have hlt := v.bosId_lt
  refine ⟨fun t ht => ?_, ?_, ?_⟩
  · rcases List.mem_append.1 ht with hl | hr
    · exact hv t (List.mem_append_left _ hl)
    · rcases List.mem_cons.1 hr with rfl | hr
      · omega
      · exact hv t (List.mem_append_right l (List.mem_cons_of_mem a (List.mem_cons_of_mem b hr)))
  · simp [hpiece]
  · simp

/-! ## The loop -/

theorem mergeLoop_keeps (hv : v.Valid tokens) :
    v.Valid (mergeLoop v findRegularToken lowest tokens) ∧
      v.text (mergeLoop v findRegularToken lowest tokens) = v.text tokens := by
  refine iterate_keeps (P := fun t => v.Valid t ∧ v.text t = v.text tokens)
    (fun t t' ht hstep => ?_) _ ⟨hv, rfl⟩
  rcases mergeStep_keeps hlookup ht.1 hstep with ⟨hv', htext, -⟩
  exact ⟨hv', htext.trans ht.2⟩

theorem mergeLoop_length (hv : v.Valid tokens) (n : Nat) :
    (iterate (mergeStep v findRegularToken lowest) n tokens).length ≤ tokens.length := by
  refine (iterate_keeps (P := fun t => v.Valid t ∧ t.length ≤ tokens.length)
    (fun t t' ht hstep => ?_) n ⟨hv, Nat.le_refl _⟩).2
  rcases mergeStep_keeps hlookup ht.1 hstep with ⟨hv', -, hless⟩
  exact ⟨hv', by omega⟩

/-- The loop ends: more turns change nothing, and there is nothing to merge. -/
theorem mergeLoop_ends (hv : v.Valid tokens) {n : Nat} (hn : tokens.length ≤ n) :
    iterate (mergeStep v findRegularToken lowest) n tokens
        = mergeLoop v findRegularToken lowest tokens ∧
      mergeStep v findRegularToken lowest (mergeLoop v findRegularToken lowest tokens) = none := by
  have hkeep : ∀ t t', v.Valid t → mergeStep v findRegularToken lowest t = some t' → v.Valid t' :=
    fun t t' ht h => (mergeStep_keeps hlookup ht h).1
  have hless : ∀ t t', v.Valid t → mergeStep v findRegularToken lowest t = some t' →
      t'.length < t.length := fun t t' ht h => (mergeStep_keeps hlookup ht h).2.2
  exact ⟨iterate_of_le hkeep hless hv hn,
    iterate_normal hkeep hless hv (Nat.le_refl _)⟩

/-- The merge loop ends in a list that has nothing to merge.  Every turn merges the first of the
pairs with the largest score, keeps the text, and sees the texts of all pairs whole. -/
theorem mergeLoop_fixpoint (lowest : F) (hv : v.Valid tokens) :
    let turns := fun n => iterate (mergeStep v findRegularToken lowest) n tokens
    let merged := mergeLoop v findRegularToken lowest tokens
    (∀ n, tokens.length ≤ n → turns n = merged) ∧
      (∀ n t, mergeStep v findRegularToken lowest (turns n) = some t →
        turns (n + 1) = t ∧
        ∃ l a b r id score, turns n = l ++ a :: b :: r ∧ t = l ++ id :: r ∧
          IsMerge v findRegularToken lowest l a b r id score ∧
          id < v.bosId ∧ v.piece id = v.piece a ++ v.piece b) ∧
      (∀ n, v.text (turns n) = v.text tokens) ∧
      (∀ n i, i + 1 < (turns n).length → pairText v (turns n) i
        = v.piece ((turns n).getD i 0) ++ v.piece ((turns n).getD (i + 1) 0)) ∧
      ∀ l a b r id score, merged = l ++ a :: b :: r →
        findRegularToken (v.piece a ++ v.piece b) = some id → v.vocabScores id = some score →
        score ≤ lowest := by
  intro turns merged
  have hturns : ∀ n, v.Valid (turns n) ∧ v.text (turns n) = v.text tokens := by
    intro n
    refine iterate_keeps (P := fun t => v.Valid t ∧ v.text t = v.text tokens)
      (fun t t' ht hstep => ?_) n ⟨hv, rfl⟩
    rcases mergeStep_keeps hlookup ht.1 hstep with ⟨hv', htext, -⟩
    exact ⟨hv', htext.trans ht.2⟩
  refine ⟨fun n hn => (mergeLoop_ends hlookup hv hn).1, fun n t hstep => ⟨?_, ?_⟩,
    fun n => (hturns n).2, fun n i hi => pairText_eq (hturns n).1 hi,
    fun l a b r id score hsplit hfind hs => ?_⟩
  · simp only [turns, iterate_succ]
    rw [hstep]
    rfl
  · rcases mergeStep_some (hturns n).1 hstep with ⟨l, a, b, r, id, score, hl, hr, hmerge⟩
    rcases hlookup.sound _ _ hmerge.found with ⟨hid, hpiece⟩
    exact ⟨l, a, b, r, id, score, hl, hr, hmerge, hid, hpiece⟩
  · exact mergeStep_none (hturns tokens.length).1 (mergeLoop_ends hlookup hv (Nat.le_refl _)).2
      hsplit hfind hs

end Step

/-! ## Two tokens with one text -/

/-- `a`, `b`, and `ab` twice, with scores 0 and -2e10. -/
def doubled : Vocabulary Int where
  vocabSize := 5
  piece id := [[97], [98], [97, 98], [97, 98], [60, 115, 62]].getD id [97]
  vocabScores id := some ([0, 0, 0, -20000000000, 0].getD id 0)
  bosId := 4
  addBos := false
  maxTokenLength := 3
  bosId_lt := by decide
  piece_ne := by decide
  piece_nul := by decide
  piece_length := by decide

theorem mergeLoop_fixpoint_doubled :
    ∃ l a b r id score, [0, 1] = l ++ a :: b :: r ∧ [2] = l ++ id :: r ∧
      IsMerge doubled (doubled.findAmong [0, 1, 2]) (-10000000000) l a b r id score ∧
      id < doubled.bosId ∧ doubled.piece id = doubled.piece a ++ doubled.piece b :=
  ((mergeLoop_fixpoint (Vocabulary.findAmong_lookup (by decide) (by decide)) (-10000000000)
    (show doubled.Valid [0, 1] by decide)).2.1 0 [2] (by decide +kernel)).2

/-- `a b` stays where the search finds the second `ab`, though the first has score 0. -/
theorem doubled_not_merged :
    doubled.IsLookup (doubled.findAmong [0, 1, 3]) ∧
      mergeLoop doubled (doubled.findAmong [0, 1, 3]) (-10000000000) [0, 1] = [0, 1] ∧
      2 < doubled.bosId ∧ doubled.piece 2 = doubled.piece 0 ++ doubled.piece 1 ∧
      doubled.vocabScores 2 = some 0 :=
  ⟨Vocabulary.findAmong_lookup (by decide) (by decide), by decide +kernel, by decide, by decide,
    by decide⟩

end PrefillOpt
