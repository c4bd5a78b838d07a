import PrefillOpt.Lib.Binary32
import PrefillOpt.Lib.Selection

/-!
# Inference.TopKLogits — greedy sampling from all logits and from the best ones

`sampleArgmaxToken`, `packTopKLogits` and the unpacking of `app.cpp`, `sample_argmax` and
`Sampler::sampleTopK` of `tokenizer.cpp`.  Logits are finite floats.
-/

namespace PrefillOpt
namespace Inference

open Lib (Binary32 Beats IsFirst HoldsFirst)

/-! ## The largest logit -/

section Greedy

variable {V : Type} [LT V] [DecidableLT V]

/-- The loop over the indices from 1 on, with the best index and its value. -/
def scan (probabilities : Nat → V) (n : Nat) : Nat × V :=
  (List.range' 1 (n - 1)).foldl
    (fun best i => if best.2 < probabilities i then (i, probabilities i) else best)
    (0, probabilities 0)

def sample_argmax (probabilities : Nat → V) (n : Nat) : Nat :=
  (scan probabilities n).1

def sampleArgmaxToken (logits : Nat → V) (logitsDim : Nat) : Nat :=
  if logitsDim = 0 then 0 else (scan logits logitsDim).1

end Greedy

/-- `Sampler::sampleTopK` with temperature 0. -/
def sampleTopK (indices : Nat → Int) (logits : Nat → Binary32) (k : Int) : Except String Int :=
  if k ≤ 0 then .error "Invalid top-k logits payload"
  else .ok (indices (scan logits k.toNat).1)

theorem scan_succ (p : Nat → Binary32) (n : Nat) :
    scan p (n + 1)
      = (Lib.argmax (fun i => (p i).units) n, p (Lib.argmax (fun i => (p i).units) n)) := by
  induction n with
  | zero => rfl
  | succ n ih =>
      have hstep : scan p (n + 1 + 1)
          = if (scan p (n + 1)).2 < p (n + 1) then (n + 1, p (n + 1)) else scan p (n + 1) := by
        rw [scan, scan, Nat.add_sub_cancel, Nat.add_sub_cancel, List.range'_concat,
          List.foldl_append, List.foldl_cons, List.foldl_nil, Nat.one_mul, Nat.add_comm 1 n]
      rw [hstep, ih, Lib.argmax]
      by_cases hnew : (p (Lib.argmax (fun i => (p i).units) n)).units < (p (n + 1)).units
      · have hlt : p (Lib.argmax (fun i => (p i).units) n) < p (n + 1) := hnew
        rw [if_pos hlt, if_pos hnew]
      · have hge : ¬p (Lib.argmax (fun i => (p i).units) n) < p (n + 1) := hnew
        rw [if_neg hge, if_neg hnew]

theorem scan_isFirst (p : Nat → Binary32) {n : Nat} (hn : 1 ≤ n) :
    IsFirst (fun i => (p i).units) n (scan p n).1 := by
  rcases Nat.exists_eq_add_of_le' hn with ⟨n, rfl⟩
  rw [scan_succ]
  exact Lib.argmax_isFirst _ n

/-! ## The best `k` logits -/

structure TopKEntry where
  idx : Nat
  val : Binary32

/-- The loop that moves the smaller entries back; the list has its last entry first. -/
def shiftIn (v : Binary32) (i : Nat) : List TopKEntry → List TopKEntry
  | [] => [⟨i, v⟩]
  | e :: es => if e.val < v then e :: shiftIn v i es else ⟨i, v⟩ :: e :: es

/-- Logit `i`; when all `k` places are taken, the last entry makes room for it. -/
def topKStep (k : Nat) (logits : Nat → Binary32) (top : List TopKEntry) (i : Nat) :
    List TopKEntry :=
  let v := logits i
  if top.length < k then shiftIn v i top
  else
    match top with
    | [] => []
    | last :: rest => if v ≤ last.val then top else shiftIn v i rest

/-- The entries in the order of the arrays `topIdx` and `topVal`. -/
def topK (logits : Nat → Binary32) (logitsDim k : Nat) : List TopKEntry :=
  ((List.range logitsDim).foldl (topKStep k logits) []).reverse

/-- Each entry is its index, as a float, and its value. -/
def packEntries (entries : List TopKEntry) : List Binary32 :=
  entries.flatMap fun e => [.ofUInt e.idx, e.val]

def packTopKLogits (logits : Nat → Binary32) (logitsDim k : Nat) : List Binary32 :=
  if k = 0 ∨ logitsDim = 0 then []
  else packEntries (topK logits logitsDim (min k logitsDim))

def topKIndices (topKPacked : List Binary32) (i : Nat) : Int :=
  (topKPacked.getD (i * 2) (.ofUInt 0)).toInt

def topKLogits (topKPacked : List Binary32) (i : Nat) : Binary32 :=
  topKPacked.getD (i * 2 + 1) (.ofUInt 0)

/-! ## The entries -/

/-- The list holds the best `k` of `n` logits in their order. -/
structure IsTopK (logits : Nat → Binary32) (n k : Nat) (entries : List TopKEntry) : Prop where
  length : entries.length = k
  nodup : (entries.map TopKEntry.idx).Nodup
  values : ∀ e ∈ entries, e.idx < n ∧ e.val = logits e.idx
  /-- Descending, ties by increasing index. -/
  sorted : entries.Pairwise fun a b => b.val < a.val ∨ (b.val ≤ a.val ∧ a.idx < b.idx)
  /-- A logit that is left out is smaller, or equal with a larger index. -/
  best : ∀ j < n, j ∉ entries.map TopKEntry.idx → ∀ e ∈ entries,
    logits j < e.val ∨ (logits j ≤ e.val ∧ e.idx < j)

variable {logits : Nat → Binary32}

theorem shiftIn_map {i : Nat} {es : List TopKEntry} (hes : ∀ e ∈ es, e.val = logits e.idx) :
    (shiftIn (logits i) i es).map TopKEntry.idx
        = Lib.insertLast (fun i => (logits i).units) i (es.map TopKEntry.idx) ∧
      ∀ e ∈ shiftIn (logits i) i es, e.val = logits e.idx := by
  induction es with
  | nil =>
      refine ⟨rfl, ?_⟩
      intro e he
      rw [List.mem_singleton.1 he]
  | cons e es ih =>
      have hval := hes e List.mem_cons_self
      rcases ih fun x hx => hes x (List.mem_cons_of_mem e hx) with ⟨hmap, hvals⟩
      rw [shiftIn, List.map_cons, Lib.insertLast, hval]
      by_cases hnew : (logits e.idx).units < (logits i).units
      · have hlt : logits e.idx < logits i := hnew
        rw [if_pos hlt, if_pos hnew, List.map_cons, hmap]
        refine ⟨rfl, ?_⟩
        intro x hx
        rcases List.mem_cons.1 hx with rfl | hx
        · exact hval
        · exact hvals x hx
      · have hge : ¬logits e.idx < logits i := hnew
        rw [if_neg hge, if_neg hnew]
        refine ⟨rfl, ?_⟩
        intro x hx
        rcases List.mem_cons.1 hx with rfl | hx
        · rfl
        · exact hes x hx

/-- What the loop keeps after `n` logits: the first `k` indices and their values. -/
theorem foldl_topKStep {k : Nat} (hk : 1 ≤ k) (n : Nat) :
    HoldsFirst (fun i => (logits i).units) k n
        (((List.range n).foldl (topKStep k logits) []).map TopKEntry.idx) ∧
      ∀ e ∈ (List.range n).foldl (topKStep k logits) [], e.val = logits e.idx := by
  induction n with
  | zero => exact ⟨.nil _ k, fun e he => by cases he⟩
  | succ n ih =>
      rw [List.range_succ, List.foldl_append, List.foldl_cons, List.foldl_nil]
      generalize (List.range n).foldl (topKStep k logits) [] = top at ih ⊢
      rcases ih with ⟨hfirst, hvals⟩
      have hlen := hfirst.length
      rw [List.length_map] at hlen
      simp only [topKStep]
      by_cases hroom : top.length < k
      · rw [if_pos hroom]
        rcases shiftIn_map (i := n) hvals with ⟨hmap, hvals'⟩
        refine ⟨?_, hvals'⟩
        rw [hmap]
        apply hfirst.insert
        rw [List.length_map]
        exact hroom
      · rw [if_neg hroom]
        cases top with
        | nil => exact absurd hk (by simpa using hroom)
        | cons last rest =>
            have hfull : (last.idx :: rest.map TopKEntry.idx).length = k := by
              rw [List.length_cons, List.length_map]
              rw [List.length_cons] at hlen hroom
              omega
            have hval := hvals last List.mem_cons_self
            rw [List.map_cons] at hfirst
            simp only [hval]
            by_cases hskip : logits n ≤ logits last.idx
            · rw [if_pos hskip]
              exact ⟨hfirst.skip hfull hskip, hvals⟩
            · rw [if_neg hskip]
              have hnew : (logits last.idx).units < (logits n).units := not_le.1 hskip
              have hrest := fun x hx => hvals x (List.mem_cons_of_mem last hx)
              rcases shiftIn_map (i := n) hrest with ⟨hmap, hvals'⟩
              refine ⟨?_, hvals'⟩
              rw [hmap]
              exact hfirst.replace hfull hnew

theorem topK_isTopK {n k : Nat} (hk : 1 ≤ k) (hkn : k ≤ n) :
    IsTopK logits n k (topK logits n k) := by
  rcases @foldl_topKStep logits k hk n with ⟨hfirst, hvals⟩
  rw [topK]
  generalize (List.range n).foldl (topKStep k logits) [] = top at hfirst hvals
  have hsorted := List.pairwise_map.1 hfirst.sorted
  refine ⟨?_, ?_, ?_, ?_, ?_⟩
  · have hlen := hfirst.length
    rw [List.length_map] at hlen
    rw [List.length_reverse, hlen, Nat.min_eq_left hkn]
  · rw [List.map_reverse]
    apply List.Pairwise.reverse
    apply hfirst.sorted.imp
    rintro a b hab rfl
    exact hab.asymm hab
  · intro e he
    have hmem := List.mem_reverse.1 he
    exact ⟨hfirst.lt e.idx (List.mem_map_of_mem hmem), hvals e hmem⟩
  · rw [List.pairwise_reverse]
    apply hsorted.imp_of_mem
    intro a b ha hb hab
    rw [hvals a ha, hvals b hb]
    exact hab
  · intro j hj hout e he
    have hmem := List.mem_reverse.1 he
    rw [List.map_reverse, List.mem_reverse] at hout
    rw [hvals e hmem]
    exact hfirst.best j hj hout e.idx (List.mem_map_of_mem hmem)

/-- The first entry has the largest logit. -/
theorem topK_head {n k : Nat} (hk : 1 ≤ k) (hkn : k ≤ n) :
    ∃ e rest, topK logits n k = e :: rest ∧ IsFirst (fun i => (logits i).units) n e.idx := by
  have htop := @topK_isTopK logits n k hk hkn
  rcases @foldl_topKStep logits k hk n with ⟨hfirst, -⟩
  cases hcases : topK logits n k with
  | nil =>
      have hlen := htop.length
      rw [hcases] at hlen
      exact absurd hlen.symm (Nat.ne_of_gt hk)
  | cons e rest =>
      refine ⟨e, rest, rfl, hfirst.isFirst ?_⟩
      rw [topK] at hcases
      have hlast := congrArg List.head? hcases
      rw [List.head?_reverse, List.head?_cons] at hlast
      rw [List.getLast?_map, hlast]
      rfl

/-! ## The message -/

theorem packEntries_getD {entries : List TopKEntry} {i : Nat} (hi : i < entries.length)
    (d : Binary32) :
    (packEntries entries).getD (i * 2) d = .ofUInt (entries.get ⟨i, hi⟩).idx ∧
      (packEntries entries).getD (i * 2 + 1) d = (entries.get ⟨i, hi⟩).val := by
  induction entries generalizing i with
  | nil => exact absurd hi (Nat.not_lt_zero i)
  | cons e entries ih =>
      cases i with
      | zero => exact ⟨rfl, rfl⟩
      | succ i =>
          rw [packEntries, List.flatMap_cons, Nat.succ_mul]
          exact ih (Nat.lt_of_succ_lt_succ hi)

/-- The root gets the best `k` logits with their indices, and samples the token that it would sample
from all logits. -/
theorem packTopKLogits_isTopK {vocabSize k : Nat} (hk : 1 ≤ k) (hkn : k ≤ vocabSize)
    (hvocab : vocabSize < 2 ^ 24) :
    ∃ entries, IsTopK logits vocabSize k entries ∧
      packTopKLogits logits vocabSize k = packEntries entries ∧
      (∀ i (hi : i < entries.length),
        topKIndices (packTopKLogits logits vocabSize k) i = (entries.get ⟨i, hi⟩).idx ∧
        topKLogits (packTopKLogits logits vocabSize k) i = (entries.get ⟨i, hi⟩).val) ∧
      sampleTopK (topKIndices (packTopKLogits logits vocabSize k))
          (topKLogits (packTopKLogits logits vocabSize k)) k
        = .ok (sample_argmax logits vocabSize : Nat) := by
  have hpacked : packTopKLogits logits vocabSize k = packEntries (topK logits vocabSize k) := by
    have hsome : ¬(k = 0 ∨ vocabSize = 0) := by omega
    rw [packTopKLogits, if_neg hsome, Nat.min_eq_left hkn]
  have htop := @topK_isTopK logits vocabSize k hk hkn
  have hunpack : ∀ i (hi : i < (topK logits vocabSize k).length),
      topKIndices (packTopKLogits logits vocabSize k) i
          = ((topK logits vocabSize k).get ⟨i, hi⟩).idx ∧
        topKLogits (packTopKLogits logits vocabSize k) i
          = ((topK logits vocabSize k).get ⟨i, hi⟩).val := by
    intro i hi
    rcases packEntries_getD hi (.ofUInt 0) with ⟨hidx, hval⟩
    have hlt := (htop.values _ ((topK logits vocabSize k).get_mem ⟨i, hi⟩)).1
    rw [topKIndices, topKLogits, hpacked, hidx, hval]
    exact ⟨Binary32.toInt_ofUInt (Nat.lt_trans hlt hvocab), rfl⟩
  refine ⟨topK logits vocabSize k, htop, hpacked, hunpack, ?_⟩
  -- the scan of the entries stays at the first one
  have hzero : (scan (topKLogits (packTopKLogits logits vocabSize k)) k).1 = 0 := by
    have hscan := scan_isFirst (topKLogits (packTopKLogits logits vocabSize k)) hk
    apply hscan.unique
    refine ⟨hk, ?_⟩
    intro j hj hne
    have hjlen : j < (topK logits vocabSize k).length := htop.length.symm ▸ hj
    have hpos : 0 < (topK logits vocabSize k).length := Nat.lt_of_le_of_lt (Nat.zero_le j) hjlen
    have hsorted := List.pairwise_iff_get.1 htop.sorted ⟨0, hpos⟩ ⟨j, hjlen⟩ (Nat.pos_of_ne_zero hne)
    simp only [Beats, (hunpack j hjlen).2, (hunpack 0 hpos).2]
    rcases hsorted with h | ⟨h, -⟩
    · exact .inl h
    · exact .inr ⟨h, Nat.pos_of_ne_zero hne⟩
  have hpositive : ¬(k : Int) ≤ 0 := by omega
  rw [sampleTopK, if_neg hpositive, Int.toNat_natCast, hzero]
  rcases @topK_head logits vocabSize k hk hkn with ⟨e, rest, hcons, hfirst⟩
  have hpos : 0 < (topK logits vocabSize k).length := by
    rw [hcons]
    exact Nat.succ_pos _
  have hhead : ((topK logits vocabSize k).get ⟨0, hpos⟩).idx = e.idx := by
    have hget : (topK logits vocabSize k).get ⟨0, hpos⟩ = e := by
      rw [List.get_eq_getElem, List.getElem_of_eq hcons]
      rfl
    rw [hget]
  rw [(hunpack 0 hpos).1, hhead, sample_argmax]
  have hsame := hfirst.unique (scan_isFirst logits (Nat.le_trans hk hkn))
  rw [hsame]

/-- Four logits with a tie. -/
theorem packTopKLogits_isTopK_tie :
    ∃ entries, IsTopK (fun i => .ofUInt ([3, 7, 7, 5].getD i 0)) 4 2 entries ∧
      packTopKLogits (fun i => .ofUInt ([3, 7, 7, 5].getD i 0)) 4 2 = packEntries entries := by
  rcases @packTopKLogits_isTopK (fun i => .ofUInt ([3, 7, 7, 5].getD i 0)) 4 2 (by decide)
    (by decide) (by decide) with ⟨entries, htop, hpacked, -⟩
  exact ⟨entries, htop, hpacked⟩

end Inference
end PrefillOpt
