import Mathlib.Data.List.Basic
import Mathlib.Data.List.Induction
import Mathlib.Logic.Function.Basic
import Mathlib.Tactic.Ring

/-!
# Memory — flat buffers with block reads and block stores

A buffer is a total function from offsets to cells, as a C pointer is: nothing says where it
ends.  `slice` reads a block, `store` copies one in, `stores` plays a log of them.  The
accesses a program makes are data, so bounds are statements about the log.
-/

namespace PrefillOpt
namespace Lib

/-- A flat buffer. -/
abbrev Mem (β : Type) := Nat → β

namespace Mem

variable {β : Type}

/-- The `n` cells from offset `off` on. -/
def slice (m : Mem β) (off n : Nat) : List β :=
  (List.range n).map fun i => m (off + i)

/-- Copy the block `xs` to offset `off`. -/
def store (m : Mem β) (off : Nat) (xs : List β) : Mem β :=
  fun i => if off ≤ i then (xs[i - off]?).getD (m i) else m i

/-- A log of block stores, oldest first. -/
abbrev Log (β : Type) := List (Nat × List β)

/-- Play a log of stores. -/
def stores (m : Mem β) (ws : Log β) : Mem β :=
  ws.foldl (fun m w => m.store w.1 w.2) m

/-! ## Reading -/

@[simp] theorem slice_length (m : Mem β) (off n : Nat) : (m.slice off n).length = n := by
  simp [slice]

@[simp] theorem slice_zero (m : Mem β) (off : Nat) : m.slice off 0 = [] := rfl

@[simp] theorem slice_getElem (m : Mem β) (off n i : Nat) (h : i < (m.slice off n).length) :
    (m.slice off n)[i] = m (off + i) := by
  simp [slice]

theorem slice_congr {m m' : Mem β} {off off' n : Nat}
    (h : ∀ i, i < n → m (off + i) = m' (off' + i)) : m.slice off n = m'.slice off' n := by
  unfold slice
  exact List.map_congr_left fun i hi => h i (List.mem_range.1 hi)

theorem slice_append (m : Mem β) (off n n' : Nat) :
    m.slice off n ++ m.slice (off + n) n' = m.slice off (n + n') := by
  simp [slice, List.range_add, Nat.add_assoc]

/-! ## Storing -/

theorem store_apply_of_lt {m : Mem β} {off : Nat} {xs : List β} {i : Nat} (h : i < off) :
    m.store off xs i = m i := by
  simp [store, Nat.not_le.2 h]

theorem store_apply_of_ge {m : Mem β} {off : Nat} {xs : List β} {i : Nat}
    (h : off + xs.length ≤ i) : m.store off xs i = m i := by
  have hi : xs[i - off]? = none := List.getElem?_eq_none (by omega)
  simp [store, hi]

theorem store_slice_apply (m m' : Mem β) (off off' n i : Nat) :
    m.store off (m'.slice off' n) i
      = if off ≤ i ∧ i < off + n then m' (off' + (i - off)) else m i := by
  by_cases h : off ≤ i
  · by_cases h' : i < off + n
    · have : i - off < n := by omega
      simp [store, h, h', this]
    · have : ¬ i - off < n := by omega
      simp [store, h, h', this]
  · simp [store, h]

@[simp] theorem store_nil (m : Mem β) (off : Nat) : m.store off [] = m := by
  funext i
  simp [store]

/-- A block is read back as it was stored. -/
theorem slice_store (m : Mem β) (off : Nat) (xs : List β) :
    (m.store off xs).slice off xs.length = xs := by
  apply List.ext_getElem (slice_length ..)
  intro i h h'
  simp [store, List.getElem?_eq_getElem h']

/-! ## Logs -/

@[simp] theorem stores_nil (m : Mem β) : m.stores [] = m := rfl

@[simp] theorem stores_cons (m : Mem β) (w : Nat × List β) (ws : Log β) :
    m.stores (w :: ws) = (m.store w.1 w.2).stores ws := rfl

/-- A cell that no store of the log covers keeps its value. -/
theorem stores_apply_of_forall {m : Mem β} {ws : Log β} {i : Nat}
    (h : ∀ w ∈ ws, i < w.1 ∨ w.1 + w.2.length ≤ i) : m.stores ws i = m i := by
  induction ws generalizing m with
  | nil => rfl
  | cons w ws ih =>
      rw [stores_cons, ih fun w' hw' => h w' (by simp [hw'])]
      rcases h w (by simp) with h | h
      · exact store_apply_of_lt h
      · exact store_apply_of_ge h

/-- If every store that covers a cell gives it the same value `x`, and one of them does cover
it, the cell ends with `x`, whatever the order of the log. -/
theorem stores_apply_eq {m : Mem β} {ws : Log β} {i : Nat} {x : β}
    (h : ∀ w ∈ ws, w.1 ≤ i → i < w.1 + w.2.length → w.2[i - w.1]? = some x)
    (hx : m i = x ∨ ∃ w ∈ ws, w.1 ≤ i ∧ i < w.1 + w.2.length) : m.stores ws i = x := by
  induction ws generalizing m with
  | nil => simpa using hx
  | cons w ws ih =>
      rw [stores_cons]
      refine ih (fun w' hw' => h w' (by simp [hw'])) ?_
      by_cases hw : w.1 ≤ i ∧ i < w.1 + w.2.length
      · left
        simp [store, hw.1, h w (by simp) hw.1 hw.2]
      · have hm : m.store w.1 w.2 i = m i := by
          rcases Nat.lt_or_ge i w.1 with hlt | hge
          · exact store_apply_of_lt hlt
          · exact store_apply_of_ge (by omega)
        rcases hx with hx | ⟨w', hw', hle, hlt⟩
        · exact .inl (hm.trans hx)
        · rcases List.mem_cons.1 hw' with rfl | hmem
          · exact absurd ⟨hle, hlt⟩ hw
          · exact .inr ⟨w', hmem, hle, hlt⟩

/-! ## All-gather of disjoint blocks -/

/-- A block: its offset and its length. -/
abbrev Block := Nat × Nat

def Block.Has (b : Block) (i : Nat) : Prop :=
  b.1 ≤ i ∧ i < b.1 + b.2

/-- The buffer of participant `me` after it has copied in the block of each participant below
`n` but itself, in this order. -/
def gather (blk : Nat → Block) (init : Nat → Mem β) (me : Nat) : Nat → Mem β
  | 0 => init me
  | n + 1 =>
      if n = me then gather blk init me n
      else (gather blk init me n).store (blk n).1 ((init n).slice (blk n).1 (blk n).2)

theorem gather_apply_of_not_mem {blk : Nat → Block} {init : Nat → Mem β} {me n i : Nat}
    (h : ∀ r, r < n → r ≠ me → ¬ (blk r).Has i) : gather blk init me n i = init me i := by
  induction n with
  | zero => rfl
  | succ n ih =>
      have ih := ih fun r hr => h r (by omega)
      rw [gather]
      split_ifs with hn
      · exact ih
      · exact (store_slice_apply ..).trans ((if_neg (h n (by omega) hn)).trans ih)

/-- A cell of one block only is the one its owner had. -/
theorem gather_apply_of_mem {blk : Nat → Block} {init : Nat → Mem β} {me n i r : Nat}
    (hr : r < n) (hi : (blk r).Has i) (h : ∀ r', r' < n → (blk r').Has i → r' = r) :
    gather blk init me n i = init r i := by
  induction n with
  | zero => omega
  | succ n ih =>
      by_cases hme : r = me
      · subst hme
        exact gather_apply_of_not_mem fun r' hr' hne hi' => hne (h r' hr' hi')
      · rw [gather]
        by_cases hrn : r = n
        · subst hrn
          rw [if_neg hme]
          refine (store_slice_apply ..).trans ((if_pos hi).trans ?_)
          rw [Nat.add_sub_cancel' hi.1]
        · have ih := ih (by omega) fun r' hr' => h r' (by omega)
          split_ifs with hn
          · exact ih
          · have hni : ¬ (blk n).Has i := fun hi' => hrn (h n (by omega) hi').symm
            exact (store_slice_apply ..).trans ((if_neg hni).trans ih)

/-! ## Loops that write one cell in each turn -/

section Update

variable {ι : Type} (key : ι → Nat) (val : ι → β) {l : List ι}

/-- A cell holds what the loop writes there, when turns for one cell agree. -/
theorem foldl_update_of_mem {a : ι} (ha : a ∈ l)
    (h : ∀ b ∈ l, key b = key a → val b = val a) (m : Mem β) :
    l.foldl (fun m a => Function.update m (key a) (val a)) m (key a) = val a := by
  induction l using List.reverseRecOn with
  | nil => cases ha
  | append_singleton l b ih =>
      rw [List.foldl_append, List.foldl_cons, List.foldl_nil]
      by_cases hb : key b = key a
      · rw [← hb, Function.update_self]
        exact h b (by simp) hb
      · rw [Function.update_of_ne (Ne.symm hb)]
        have hmem : a ∈ l := by
          rcases List.mem_append.1 ha with hl | hl
          · exact hl
          · rw [List.mem_singleton.1 hl] at hb
            exact absurd rfl hb
        exact ih hmem fun c hc => h c (List.mem_append_left _ hc)

end Update

end Mem
end Lib
end PrefillOpt
