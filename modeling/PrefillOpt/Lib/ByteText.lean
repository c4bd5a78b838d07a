import Mathlib.Data.List.Basic
import Mathlib.Data.List.Infix
import Mathlib.Data.List.TakeWhile
import Mathlib.Tactic.Ring

/-!
# ByteText — byte strings as C and C++ programs read them

Searching, lines, numbers, and a socket that gives its bytes in pieces.  A string of bytes is a
list; a socket is the list of the pieces that its `recv` calls find.
-/

namespace PrefillOpt
namespace Lib

def ascii (s : String) : List UInt8 :=
  s.toList.map fun c => c.toNat.toUInt8

/-! ## Searching -/

/-- `std::string::find`: where `pat` occurs first. -/
def find (pat : List UInt8) : List UInt8 → Option Nat
  | [] => if pat = [] then some 0 else none
  | c :: cs => if pat.isPrefixOf (c :: cs) then some 0 else (find pat cs).map (· + 1)

variable {pat : List UInt8}

theorem find_eq_none_of_length_lt {l : List UInt8} (h : l.length < pat.length) :
    find pat l = none := by
  induction l with
  | nil =>
      have hne : pat ≠ [] := List.ne_nil_of_length_pos h
      exact if_neg hne
  | cons c cs ih =>
      have hpre : ¬pat.isPrefixOf (c :: cs) = true := by
        rw [List.isPrefixOf_iff_prefix]
        exact fun hpre => Nat.not_le.2 h hpre.length_le
      rw [find, if_neg hpre, ih (Nat.lt_of_succ_lt h), Option.map_none]

theorem find_le {l : List UInt8} {i : Nat} (h : find pat l = some i) :
    i + pat.length ≤ l.length := by
  induction l generalizing i with
  | nil =>
      rw [find] at h
      split_ifs at h with hnil
      cases h
      rw [hnil]
      exact Nat.le_refl 0
  | cons c cs ih =>
      rw [find] at h
      split_ifs at h with hpre
      · cases h
        rw [Nat.zero_add]
        exact (List.isPrefixOf_iff_prefix.1 hpre).length_le
      · rcases Option.map_eq_some_iff.1 h with ⟨j, hj, rfl⟩
        rw [Nat.add_right_comm]
        exact Nat.succ_le_succ (ih hj)

/-- A prefix has the first occurrence as soon as it is long enough. -/
theorem find_take {l : List UInt8} {i : Nat} (hpat : pat ≠ []) (h : find pat l = some i) (n : Nat) :
    find pat (l.take n) = if i + pat.length ≤ n then some i else none := by
  induction l generalizing i n with
  | nil => exact absurd h (by rw [find, if_neg hpat]; exact Option.some_ne_none i ∘ Eq.symm)
  | cons c cs ih =>
      cases n with
      | zero =>
          have hnot : ¬i + pat.length ≤ 0 := by
            have := List.length_pos_iff.2 hpat
            omega
          rw [if_neg hnot, List.take_zero, find, if_neg hpat]
      | succ n =>
          rw [List.take_succ_cons, find]
          rw [find] at h
          split_ifs at h with hpre
          · cases h
            have hpre := List.isPrefixOf_iff_prefix.1 hpre
            by_cases hn : 0 + pat.length ≤ n + 1
            · have htake : pat.isPrefixOf (c :: cs.take n) = true := by
                rw [List.isPrefixOf_iff_prefix, ← List.take_succ_cons]
                exact List.prefix_take_iff.2 ⟨hpre, by omega⟩
              rw [if_pos htake, if_pos hn]
            · have hlen : (c :: cs.take n).length < pat.length := by
                rw [List.length_cons, List.length_take]
                omega
              have hnone := find_eq_none_of_length_lt hlen
              rw [find] at hnone
              rw [hnone, if_neg hn]
          · rcases Option.map_eq_some_iff.1 h with ⟨j, hj, rfl⟩
            have htake : ¬pat.isPrefixOf (c :: cs.take n) = true := by
              rw [List.isPrefixOf_iff_prefix, ← List.take_succ_cons]
              intro htake
              exact hpre (List.isPrefixOf_iff_prefix.2 (htake.trans (List.take_prefix _ _)))
            rw [if_neg htake, ih hj n]
            split_ifs with hjn hjn' hjn' <;> first | rfl | (exfalso; omega)

/-- What comes after the first occurrence does not matter. -/
theorem find_append {l : List UInt8} {i : Nat} (hpat : pat ≠ []) (h : find pat l = some i)
    (l' : List UInt8) : find pat (l ++ l') = some i := by
  induction l generalizing i with
  | nil => exact absurd h (by rw [find, if_neg hpat]; exact Option.some_ne_none i ∘ Eq.symm)
  | cons c cs ih =>
      rw [List.cons_append, find]
      rw [find] at h
      split_ifs at h with hpre
      · cases h
        have hpre := (List.isPrefixOf_iff_prefix.1 hpre).trans (List.prefix_append (c :: cs) l')
        exact if_pos (List.isPrefixOf_iff_prefix.2 hpre)
      · rcases Option.map_eq_some_iff.1 h with ⟨j, hj, rfl⟩
        have hlen := find_le hj
        have hpre' : ¬pat.isPrefixOf (c :: (cs ++ l')) = true := by
          rw [List.isPrefixOf_iff_prefix]
          intro hpre'
          apply hpre
          rw [List.isPrefixOf_iff_prefix]
          apply List.prefix_of_prefix_length_le hpre' (List.prefix_append (c :: cs) l')
          rw [List.length_cons]
          omega
        rw [if_neg hpre', ih hj, Option.map_some]

theorem find_spec {l : List UInt8} {i : Nat} (h : find pat l = some i) :
    l = l.take i ++ (pat ++ l.drop (i + pat.length)) := by
  induction l generalizing i with
  | nil =>
      rw [find] at h
      split_ifs at h with hnil
      cases h
      rw [hnil]
      rfl
  | cons c cs ih =>
      rw [find] at h
      split_ifs at h with hpre
      · cases h
        rcases List.isPrefixOf_iff_prefix.1 hpre with ⟨t, ht⟩
        rw [List.take_zero, List.nil_append, Nat.zero_add, ← ht, List.drop_left]
      · rcases Option.map_eq_some_iff.1 h with ⟨j, hj, rfl⟩
        rw [List.take_succ_cons, Nat.add_right_comm, List.drop_succ_cons, List.cons_append]
        exact congrArg (c :: ·) (ih hj)

/-- Where a character occurs first. -/
theorem idxOf?_eq_some_iff {c : UInt8} {l : List UInt8} {i : Nat} :
    l.idxOf? c = some i ↔ ∃ key rest, l = key ++ c :: rest ∧ c ∉ key ∧ key.length = i := by
  induction l generalizing i with
  | nil =>
      constructor
      · intro h
        cases h
      · rintro ⟨key, rest, h, -⟩
        exact absurd h.symm (List.append_ne_nil_of_right_ne_nil key (List.cons_ne_nil c rest))
  | cons x l ih =>
      rw [List.idxOf?_cons]
      by_cases hx : x = c
      · subst hx
        rw [beq_self_eq_true, if_pos rfl]
        constructor
        · intro h
          cases h
          exact ⟨[], l, rfl, List.not_mem_nil, rfl⟩
        · rintro ⟨key, rest, h, hkey, rfl⟩
          cases key with
          | nil => rfl
          | cons y key =>
              cases h
              exact absurd List.mem_cons_self hkey
      · rw [beq_false_of_ne hx, if_neg Bool.false_ne_true, Option.map_eq_some_iff]
        constructor
        · rintro ⟨j, hj, rfl⟩
          rcases ih.1 hj with ⟨key, rest, rfl, hkey, rfl⟩
          exact ⟨x :: key, rest, rfl, List.not_mem_cons_of_ne_of_not_mem (Ne.symm hx) hkey, rfl⟩
        · rintro ⟨key, rest, h, hkey, rfl⟩
          cases key with
          | nil =>
              cases h
              exact absurd rfl hx
          | cons y key =>
              cases h
              have hkey' : c ∉ key := fun h => hkey (List.mem_cons_of_mem _ h)
              exact ⟨key.length, ih.2 ⟨key, rest, rfl, hkey', rfl⟩, rfl⟩

/-! ## Lines -/

/-- What `std::getline` gives, call by call. -/
def getlines : List UInt8 → List (List UInt8)
  | [] => []
  | c :: cs =>
      if c = 10 then [] :: getlines cs
      else
        match getlines cs with
        | [] => [[c]]
        | l :: ls => (c :: l) :: ls

/-- The lines that end with a carriage return and a line feed. -/
def crlfLines : List UInt8 → List (List UInt8)
  | [] => []
  | [_] => []
  | c :: c' :: cs =>
      if c = 13 ∧ c' = 10 then [] :: crlfLines cs
      else
        match crlfLines (c' :: cs) with
        | [] => []
        | l :: ls => (c :: l) :: ls

theorem getlines_append_cons (a b : List UInt8) :
    ∃ l ls, getlines (a ++ [10]) = l :: ls ∧ getlines (a ++ 10 :: b) = l :: (ls ++ getlines b) := by
  induction a with
  | nil => exact ⟨[], [], rfl, rfl⟩
  | cons c a ih =>
      rcases ih with ⟨l, ls, h, h'⟩
      by_cases hc : c = 10
      · refine ⟨[], l :: ls, ?_, ?_⟩
        · rw [List.cons_append, getlines, if_pos hc, h]
        · rw [List.cons_append, getlines, if_pos hc, h', List.cons_append]
      · refine ⟨c :: l, ls, ?_, ?_⟩
        · rw [List.cons_append, getlines, if_neg hc, h]
        · rw [List.cons_append, getlines, if_neg hc, h']

theorem getlines_append (a b : List UInt8) :
    getlines (a ++ 10 :: b) = getlines (a ++ [10]) ++ getlines b := by
  rcases getlines_append_cons a b with ⟨l, ls, h, h'⟩
  rw [h, h', List.cons_append]

theorem crlfLines_append_cons (a b : List UInt8) :
    ∃ l ls, crlfLines (a ++ [13, 10]) = l :: ls ∧
      crlfLines (a ++ 13 :: 10 :: b) = l :: (ls ++ crlfLines b) := by
  induction a using crlfLines.induct with
  | case1 => exact ⟨[], [], rfl, rfl⟩
  | case2 c =>
      refine ⟨[c], [], ?_, ?_⟩
      all_goals
        rw [List.singleton_append, crlfLines, if_neg (by simp)]
        rfl
  | case3 c c' cs hc ih =>
      rcases ih with ⟨l, ls, h, h'⟩
      refine ⟨[], l :: ls, ?_, ?_⟩
      · rw [List.cons_append, List.cons_append, crlfLines, if_pos hc, h]
      · rw [List.cons_append, List.cons_append, crlfLines, if_pos hc, h', List.cons_append]
  | case4 c c' cs hc _ ih =>
      rcases ih with ⟨l, ls, h, h'⟩
      rw [List.cons_append] at h h'
      refine ⟨c :: l, ls, ?_, ?_⟩
      · rw [List.cons_append, List.cons_append, crlfLines, if_neg hc, h]
      · rw [List.cons_append, List.cons_append, crlfLines, if_neg hc, h']
  | case5 c c' cs hc _ _ _ ih =>
      rcases ih with ⟨l, ls, h, h'⟩
      rw [List.cons_append] at h h'
      refine ⟨c :: l, ls, ?_, ?_⟩
      · rw [List.cons_append, List.cons_append, crlfLines, if_neg hc, h]
      · rw [List.cons_append, List.cons_append, crlfLines, if_neg hc, h']

theorem crlfLines_append (a b : List UInt8) :
    crlfLines (a ++ 13 :: 10 :: b) = crlfLines (a ++ [13, 10]) ++ crlfLines b := by
  rcases crlfLines_append_cons a b with ⟨l, ls, h, h'⟩
  rw [h, h', List.cons_append]

/-- What comes after the first element that fails does not matter. -/
theorem takeWhile_append_cons {α : Type} {p : α → Bool} {x : α} (hx : p x = false)
    (l l' : List α) : (l ++ x :: l').takeWhile p = l.takeWhile p := by
  induction l with
  | nil => rw [List.nil_append, List.takeWhile_cons, hx, List.takeWhile_nil]; rfl
  | cons y l ih => rw [List.cons_append, List.takeWhile_cons, List.takeWhile_cons, ih]

/-! ## Numbers -/

/-- In the "C" locale. -/
def isSpace (c : UInt8) : Bool :=
  c == 32 || (9 ≤ c && c ≤ 13)

def toLower (c : UInt8) : UInt8 :=
  if 65 ≤ c && c ≤ 90 then c + 32 else c

def isDigit (c : UInt8) : Bool :=
  48 ≤ c && c ≤ 57

def decimal (digits : List UInt8) : Nat :=
  digits.foldl (fun v c => 10 * v + (c.toNat - 48)) 0

/-- The number that `strtol` and its like find at the front, after spaces and a sign: whether it is
negative, and its size.  `none` when there is no digit. -/
def leadingNumber (s : List UInt8) : Option (Bool × Nat) :=
  let s := s.dropWhile isSpace
  let neg := s.head? == some 45
  let s := if s.head? == some 45 || s.head? == some 43 then s.tail else s
  let digits := s.takeWhile isDigit
  if digits = [] then none else some (neg, decimal digits)

/-- `strtoull`, base 10. -/
def strtoull (s : List UInt8) : Nat :=
  match leadingNumber s with
  | none => 0
  | some (neg, v) =>
      if 2 ^ 64 ≤ v then 2 ^ 64 - 1
      else if neg then (2 ^ 64 - v) % 2 ^ 64
      else v

theorem strtoull_lt (s : List UInt8) : strtoull s < 2 ^ 64 := by
  rw [strtoull]
  split
  · decide
  · split_ifs with hbig hneg
    · decide
    · exact Nat.mod_lt _ (by decide)
    · exact Nat.not_le.1 hbig

inductive StoiError where
  | invalidArgument
  | outOfRange
deriving DecidableEq, Repr

/-- `std::stoi`. -/
def stoi (s : List UInt8) : Except StoiError Int :=
  match leadingNumber s with
  | none => .error .invalidArgument
  | some (neg, v) =>
      let v : Int := if neg then -v else v
      if -2 ^ 31 ≤ v ∧ v < 2 ^ 31 then .ok v else .error .outOfRange

/-! ## Sockets -/

/-- `recv` with room for `limit` bytes: what it finds and what is left. -/
def recv (limit : Nat) : List (List UInt8) → List UInt8 × List (List UInt8)
  | [] => ([], [])
  | p :: ps => if p.length ≤ limit then (p, ps) else (p.take limit, p.drop limit :: ps)

theorem recv_append (limit : Nat) (ps : List (List UInt8)) :
    (recv limit ps).1 ++ (recv limit ps).2.flatten = ps.flatten := by
  cases ps with
  | nil => rfl
  | cons p ps =>
      rw [recv]
      split_ifs
      · rfl
      · rw [List.flatten_cons, ← List.append_assoc, List.take_append_drop, List.flatten_cons]

theorem recv_length_le (limit : Nat) (ps : List (List UInt8)) :
    (recv limit ps).1.length ≤ limit := by
  cases ps with
  | nil => exact Nat.zero_le _
  | cons p ps =>
      rw [recv]
      split_ifs with hle
      · exact hle
      · exact List.length_take_le limit p

theorem recv_ne_nil {limit : Nat} (hlimit : 0 < limit) {p : List UInt8} {ps : List (List UInt8)}
    (hp : p ≠ []) : (recv limit (p :: ps)).1 ≠ [] := by
  rw [recv]
  split_ifs
  · exact hp
  · intro hnil
    rcases List.take_eq_nil_iff.1 hnil with h | h
    · exact Nat.ne_of_gt hlimit h
    · exact hp h

theorem recv_left_ne_nil {limit : Nat} {ps : List (List UInt8)} (h : ∀ p ∈ ps, p ≠ []) :
    ∀ p ∈ (recv limit ps).2, p ≠ [] := by
  cases ps with
  | nil => exact h
  | cons p ps =>
      rw [recv]
      split_ifs with hle
      · exact fun q hq => h q (List.mem_cons_of_mem _ hq)
      · intro q hq
        rcases List.mem_cons.1 hq with rfl | hq
        · exact List.ne_nil_of_length_pos (by rw [List.length_drop]; omega)
        · exact h q (List.mem_cons_of_mem _ hq)

/-- What the calls find until at least `n` bytes have come, and what is left; `fuel` calls at
most. -/
def recvUntil (limit : Nat) : Nat → Nat → List (List UInt8) → List (List UInt8) × List (List UInt8)
  | 0, _, ps => ([], ps)
  | fuel + 1, n, ps =>
      if n = 0 then ([], ps)
      else
        let r := recv limit ps
        let rs := recvUntil limit fuel (n - r.1.length) r.2
        (r.1 :: rs.1, rs.2)

theorem recvUntil_zero (limit fuel : Nat) (ps : List (List UInt8)) :
    recvUntil limit fuel 0 ps = ([], ps) := by
  cases fuel with
  | zero => rfl
  | succ fuel => exact if_pos rfl

theorem recvUntil_append (limit fuel n : Nat) (ps : List (List UInt8)) :
    (recvUntil limit fuel n ps).1.flatten ++ (recvUntil limit fuel n ps).2.flatten
      = ps.flatten := by
  induction fuel generalizing n ps with
  | zero => rfl
  | succ fuel ih =>
      rw [recvUntil]
      split_ifs
      · rfl
      · rw [List.flatten_cons, List.append_assoc, ih, recv_append]

theorem recvUntil_left_ne_nil {limit fuel n : Nat} {ps : List (List UInt8)}
    (h : ∀ p ∈ ps, p ≠ []) : ∀ p ∈ (recvUntil limit fuel n ps).2, p ≠ [] := by
  induction fuel generalizing n ps with
  | zero => exact h
  | succ fuel ih =>
      rw [recvUntil]
      split_ifs
      · exact h
      · exact ih (recv_left_ne_nil h)

/-- Calls find something as long as there is something. -/
theorem recv_length_pos {limit : Nat} (hlimit : 0 < limit) {ps : List (List UInt8)}
    (h : ∀ p ∈ ps, p ≠ []) (hpos : 0 < ps.flatten.length) : 0 < (recv limit ps).1.length := by
  cases ps with
  | nil => exact absurd hpos (Nat.lt_irrefl 0)
  | cons p ps => exact List.length_pos_iff.2 (recv_ne_nil hlimit (h p List.mem_cons_self))

end Lib
end PrefillOpt
