import Mathlib.Data.List.Induction
import Mathlib.Logic.Function.Basic

/-!
# Transformer — a decoder with a cache of rows by position

One forward takes a batch of (position, token) pairs through the layers.  A layer first writes a row
for each element of the batch, at its position, and then lets each element look at the rows up to
its position.  Nothing else says whose rows these are.
-/

namespace PrefillOpt
namespace Inference

/-- The parts of a model: `kvRow` is what a layer stores, `attend` is the rest of the layer, with
the rows it looks at. -/
structure Transformer (T H R : Type) where
  nLayers : Nat
  embed : T → H
  kvRow : Nat → Nat → H → R
  attend : Nat → Nat → H → List R → H

/-- The rows by layer and position. -/
abbrev Kv (R : Type) := Nat → Nat → R

namespace Transformer

variable {T H R : Type} (m : Transformer T H R)

/-! ## The forward -/

/-- Rows written in the order of the batch. -/
def writeRows (kv : Nat → R) (rows : List (Nat × R)) : Nat → R :=
  rows.foldl (fun kv r => Function.update kv r.1 r.2) kv

def layer (l : Nat) (s : Kv R × List (Nat × H)) : Kv R × List (Nat × H) :=
  let rows := writeRows (s.1 l) (s.2.map fun x => (x.1, m.kvRow l x.1 x.2))
  (Function.update s.1 l rows,
    s.2.map fun x => (x.1, m.attend l x.1 x.2 ((List.range (x.1 + 1)).map rows)))

/-- The first `n` layers. -/
def layers (s : Kv R × List (Nat × H)) : Nat → Kv R × List (Nat × H)
  | 0 => s
  | n + 1 => m.layer n (layers s n)

/-- The cache afterwards, and the last hidden state of each element of the batch. -/
def forward (kv : Kv R) (batch : List (Nat × T)) : Kv R × List H :=
  let s := m.layers (kv, batch.map fun b => (b.1, m.embed b.2)) m.nLayers
  (s.1, s.2.map Prod.snd)

/-! ## What a sequence of tokens gives -/

/-- The hidden state before layer `l` at position `p` of a sequence that is alone. -/
def hidden (toks : Nat → T) : Nat → Nat → H
  | 0, p => m.embed (toks p)
  | l + 1, p =>
      m.attend l p (hidden toks l p)
        ((List.range (p + 1)).map fun q => m.kvRow l q (hidden toks l q))

def row (toks : Nat → T) (l p : Nat) : R :=
  m.kvRow l p (m.hidden toks l p)

theorem hidden_congr {toks toks' : Nat → T} {p : Nat} (h : ∀ q ≤ p, toks q = toks' q) (l : Nat) :
    m.hidden toks l p = m.hidden toks' l p := by
  induction l generalizing p with
  | zero => exact congrArg m.embed (h p (Nat.le_refl p))
  | succ l ih =>
      have hrows : ((List.range (p + 1)).map fun q => m.kvRow l q (m.hidden toks l q))
          = (List.range (p + 1)).map fun q => m.kvRow l q (m.hidden toks' l q) := by
        apply List.map_congr_left
        intro q hq
        have hqp : q ≤ p := Nat.le_of_lt_succ (List.mem_range.1 hq)
        rw [ih fun q' hq' => h q' (Nat.le_trans hq' hqp)]
      rw [hidden, hidden, ih h, hrows]

theorem row_congr {toks toks' : Nat → T} {p : Nat} (h : ∀ q ≤ p, toks q = toks' q) (l : Nat) :
    m.row toks l p = m.row toks' l p :=
  congrArg (m.kvRow l p) (m.hidden_congr h l)

/-- The first `n` positions have the rows of `toks`. -/
def Holds (kv : Kv R) (toks : Nat → T) (n : Nat) : Prop :=
  ∀ l < m.nLayers, ∀ p < n, kv l p = m.row toks l p

theorem Holds.congr {m : Transformer T H R} {kv : Kv R} {toks toks' : Nat → T} {n : Nat}
    (h : m.Holds kv toks n) (heq : ∀ q < n, toks q = toks' q) : m.Holds kv toks' n := by
  intro l hl p hp
  rw [h l hl p hp]
  exact m.row_congr (fun q hq => heq q (Nat.lt_of_le_of_lt hq hp)) l

/-! ## A batch of sequences -/

/-- The last element of the batch at position `q`. -/
def lastAt (fs : List (Nat × (Nat → T))) (q : Nat) : Option (Nat × (Nat → T)) :=
  fs.reverse.find? fun f => f.1 == q

/-- The row at position `q` after the writes of a batch whose elements belong to the sequences
`fs`. -/
def settled (kv : Kv R) (fs : List (Nat × (Nat → T))) (l q : Nat) : R :=
  match lastAt fs q with
  | some f => m.row f.2 l q
  | none => kv l q

/-- Each element of the batch finds the rows of its own sequence. -/
def Fits (kv : Kv R) (fs : List (Nat × (Nat → T))) : Prop :=
  ∀ f ∈ fs, ∀ q ≤ f.1, ∀ l < m.nLayers, m.settled kv fs l q = m.row f.2 l q

/-- A sequence finds its row where nobody has written, and where those who have agree with it. -/
theorem settled_eq {kv : Kv R} {fs : List (Nat × (Nat → T))} {toks : Nat → T} {n l q : Nat}
    (hholds : m.Holds kv toks n) (hq : q < n ∨ ∃ f ∈ fs, f.1 = q)
    (hagree : ∀ f ∈ fs, f.1 = q → ∀ p ≤ q, f.2 p = toks p) (hl : l < m.nLayers) :
    m.settled kv fs l q = m.row toks l q := by
  rw [settled]
  cases hlast : lastAt fs q with
  | some f =>
      have hmem : f ∈ fs := List.mem_reverse.1 (List.mem_of_find?_eq_some hlast)
      have hfq : f.1 = q := beq_iff_eq.1 (List.find?_some hlast :)
      exact m.row_congr (hagree f hmem hfq) l
  | none =>
      rcases hq with hq | ⟨f, hf, hfq⟩
      · exact hholds l hl q hq
      · have hnone := List.find?_eq_none.1 hlast f (List.mem_reverse.2 hf)
        exact absurd (beq_iff_eq.2 hfq) hnone

theorem writeRows_apply (kv : Nat → R) (fs : List (Nat × (Nat → T))) (g : Nat × (Nat → T) → R)
    (q : Nat) :
    writeRows kv (fs.map fun f => (f.1, g f)) q
      = match lastAt fs q with
        | some f => g f
        | none => kv q := by
  induction fs using List.reverseRecOn with
  | nil => rfl
  | append_singleton fs f ih =>
      rw [writeRows, List.map_append, List.foldl_append, lastAt, List.reverse_append]
      simp only [List.map_cons, List.map_nil, List.foldl_cons, List.foldl_nil,
        List.reverse_singleton, List.singleton_append, List.find?_cons]
      by_cases hq : f.1 = q
      · subst hq
        rw [Function.update_self, beq_self_eq_true]
      · rw [Function.update_of_ne (Ne.symm hq), beq_false_of_ne hq]
        exact ih

/-- The layers of a batch are those of the sequences. -/
theorem layers_eq {kv : Kv R} {fs : List (Nat × (Nat → T))} (hfits : m.Fits kv fs) {n : Nat}
    (hn : n ≤ m.nLayers) :
    m.layers (kv, fs.map fun f => (f.1, m.embed (f.2 f.1))) n
      = (fun l q => if l < n then m.settled kv fs l q else kv l q,
          fs.map fun f => (f.1, m.hidden f.2 n f.1)) := by
  induction n with
  | zero => rfl
  | succ n ih =>
      rw [layers, ih (Nat.le_of_succ_le hn), layer]
      simp only [List.map_map, Function.comp_def, Nat.lt_irrefl, if_false]
      have hrows : writeRows (kv n) (fs.map fun f => (f.1, m.kvRow n f.1 (m.hidden f.2 n f.1)))
          = m.settled kv fs n := by
        funext q
        rw [writeRows_apply (kv n) fs fun f => m.kvRow n f.1 (m.hidden f.2 n f.1), settled]
        cases hlast : lastAt fs q with
        | none => rfl
        | some f =>
            have hq : f.1 = q := beq_iff_eq.1 (List.find?_some hlast :)
            subst hq
            rfl
      rw [hrows]
      refine Prod.ext ?_ ?_
      · funext l q
        simp only
        by_cases hl : l = n
        · subst hl
          rw [Function.update_self, if_pos (Nat.lt_succ_self l)]
        · rw [Function.update_of_ne hl]
          have hiff : l < n + 1 ↔ l < n := by omega
          simp only [hiff]
      · simp only
        apply List.map_congr_left
        intro f hf
        have hseen : (List.range (f.1 + 1)).map (m.settled kv fs n)
            = (List.range (f.1 + 1)).map fun q => m.kvRow n q (m.hidden f.2 n q) := by
          apply List.map_congr_left
          intro q hq
          exact hfits f hf q (Nat.le_of_lt_succ (List.mem_range.1 hq)) n hn
        rw [hidden, hseen]

theorem forward_eq {kv : Kv R} {fs : List (Nat × (Nat → T))} (hfits : m.Fits kv fs) :
    m.forward kv (fs.map fun f => (f.1, f.2 f.1))
      = (fun l q => if l < m.nLayers then m.settled kv fs l q else kv l q,
          fs.map fun f => m.hidden f.2 m.nLayers f.1) := by
  have hlayers := m.layers_eq hfits (Nat.le_refl m.nLayers)
  simp only [forward, List.map_map, Function.comp_def]
  rw [hlayers]
  simp only [List.map_map, Function.comp_def]

/-! ## One sequence -/

theorem lastAt_chunk (toks : Nat → T) (pos b q : Nat) :
    lastAt ((List.range' pos b).map fun p => (p, toks)) q
      = if pos ≤ q ∧ q < pos + b then some (q, toks) else none := by
  induction b with
  | zero =>
      have hnot : ¬(pos ≤ q ∧ q < pos + 0) := by omega
      rw [if_neg hnot]
      rfl
  | succ b ih =>
      rw [List.range'_concat, List.map_append, lastAt, List.reverse_append]
      simp only [List.map_cons, List.map_nil, List.reverse_singleton, List.singleton_append,
        List.find?_cons, Nat.one_mul]
      by_cases hq : pos + b = q
      · have hin : pos ≤ q ∧ q < pos + (b + 1) := by omega
        rw [hq, beq_self_eq_true, if_pos hin]
      · rw [beq_false_of_ne hq]
        have hiff : (pos ≤ q ∧ q < pos + (b + 1)) ↔ pos ≤ q ∧ q < pos + b := by omega
        simp only [hiff]
        exact ih

/-- A chunk of a sequence writes the sequence's rows and nothing else. -/
theorem forward_chunk_eq {kv : Kv R} {toks : Nat → T} {pos : Nat} (h : m.Holds kv toks pos)
    (b : Nat) :
    m.forward kv ((List.range' pos b).map fun p => (p, toks p))
      = (fun l q => if l < m.nLayers ∧ pos ≤ q ∧ q < pos + b then m.row toks l q else kv l q,
          (List.range' pos b).map fun p => m.hidden toks m.nLayers p) := by
  have hsettled : ∀ l q, m.settled kv ((List.range' pos b).map fun p => (p, toks)) l q
      = if pos ≤ q ∧ q < pos + b then m.row toks l q else kv l q := by
    intro l q
    rw [settled, lastAt_chunk]
    by_cases hin : pos ≤ q ∧ q < pos + b
    · rw [if_pos hin, if_pos hin]
    · rw [if_neg hin, if_neg hin]
  have hfits : m.Fits kv ((List.range' pos b).map fun p => (p, toks)) := by
    intro f hf q hq l hl
    rcases List.mem_map.1 hf with ⟨p, hp, rfl⟩
    have hpb := (List.mem_range'_1.1 hp).2
    rw [hsettled]
    split_ifs with hin
    · rfl
    · exact h l hl q (by simp only at hq; omega)
  have hforward := m.forward_eq hfits
  rw [List.map_map, List.map_map] at hforward
  refine hforward.trans (Prod.ext ?_ rfl)
  funext l q
  simp only [hsettled]
  by_cases hl : l < m.nLayers
  · simp only [hl, if_true, true_and]
  · simp only [hl, if_false, false_and]

/-- A chunk of a sequence continues its rows. -/
theorem forward_chunk {kv : Kv R} {toks : Nat → T} {pos : Nat} (h : m.Holds kv toks pos) (b : Nat) :
    m.Holds (m.forward kv ((List.range' pos b).map fun p => (p, toks p))).1 toks (pos + b) := by
  rw [m.forward_chunk_eq h b]
  intro l hl q hq
  simp only
  split_ifs with hin
  · rfl
  · exact h l hl q (by omega)

end Transformer

/-- A model that stores its tokens. -/
def echoModel : Transformer Nat Nat Nat :=
  ⟨1, id, fun _ _ h => h, fun _ _ h _ => h⟩

end Inference
end PrefillOpt
