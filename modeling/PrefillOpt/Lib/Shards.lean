import Mathlib.Algebra.BigOperators.Fin
import Mathlib.Algebra.BigOperators.Ring.Finset
import PrefillOpt.Lib.BlockSplit
import PrefillOpt.Lib.Memory

/-!
# Shards — vectors that several ranks hold together

A vector of a group of ranks is there in full on every rank, cut into pieces of one width, or
the sum of what the ranks hold.  A product with a matrix that is cut by rows turns copies into
pieces, a product with one that is cut by columns turns pieces into summands, and an all-reduce
turns summands into copies.
-/

namespace PrefillOpt
namespace Lib

/-- How the vectors of the ranks make up one vector. -/
inductive Sharding where
  /-- the same everywhere -/
  | equal
  /-- the same in the first `w` places -/
  | copies (w : Nat)
  /-- rank 0 has the first `w` places -/
  | root (w : Nat)
  /-- rank `r` has the `w` places from `r * w` on, as a vector of its own -/
  | cut (w : Nat)
  /-- rank `r` has the `w` places from `r * w` on, where they are -/
  | own (w : Nat)
  /-- the first `w` places are the sums over the ranks -/
  | parts (w : Nat)
  deriving DecidableEq, Repr

section

variable {F : Type} {n : Nat}

def Sharding.Holds [AddCommMonoid F] (k : Sharding) (v : Fin n → Nat → F) (u : Nat → F) : Prop :=
  match k with
  | .equal => ∀ r, v r = u
  | .copies w => ∀ r, ∀ x < w, v r x = u x
  | .root w => ∀ r : Fin n, r.val = 0 → ∀ x < w, v r x = u x
  | .cut w => ∀ r : Fin n, ∀ x < w, v r x = u (r.val * w + x)
  | .own w => ∀ r : Fin n, ∀ x < w, v r (r.val * w + x) = u (r.val * w + x)
  | .parts w => ∀ x < w, ∑ r, v r x = u x

/-- A vector in blocks of `k`, each replaced by a block that it alone determines. -/
def mapBlocks [Zero F] (k : Nat) (f : List F → List F) (v : Mem F) : Mem F :=
  fun x => (f (Mem.slice v (x / k * k) k)).getD (x % k) 0

/-! ## Blocks -/

theorem slice_copies {v u : Mem F} {w k c : Nat} (h : ∀ x < w, v x = u x)
    (hc : c * k + k ≤ w) : Mem.slice v (c * k) k = Mem.slice u (c * k) k :=
  Mem.slice_congr fun i hi => h _ (by omega)

/-- The blocks of a piece are blocks of the whole vector. -/
theorem slice_cut {v u : Mem F} {m k r c : Nat} (h : ∀ x < m * k, v x = u (r * (m * k) + x))
    (hc : c < m) : Mem.slice v (c * k) k = Mem.slice u ((r * m + c) * k) k := by
  refine Mem.slice_congr fun i hi => ?_
  rw [h _ (add_mul_lt hc hi), Nat.add_mul, Nat.mul_assoc, Nat.add_assoc]

/-- Where a place of a piece lies in the blocks of the whole vector. -/
theorem div_mod_cut {m k r x : Nat} (hk : 0 < k) :
    (r * (m * k) + x) / k = r * m + x / k ∧ (r * (m * k) + x) % k = x % k := by
  rw [← Nat.mul_assoc, Nat.mul_comm (r * m) k]
  exact ⟨Nat.mul_add_div hk .., Nat.mul_add_mod ..⟩

theorem div_lt_of_lt_blocks {m k x : Nat} (h : x < m * k) : x / k < m :=
  Nat.div_lt_of_lt_mul (by rwa [Nat.mul_comm])

section Map

variable [AddCommMonoid F] {v : Fin n → Nat → F} {u : Nat → F} {w k : Nat}

theorem copies_mapBlocks (f : List F → List F) (hdvd : k ∣ w)
    (h : (Sharding.copies w).Holds v u) :
    (Sharding.copies w).Holds (fun r => mapBlocks k f (v r)) (mapBlocks k f u) := by
  rcases hdvd with ⟨m, rfl⟩
  intro r x hx
  rw [Nat.mul_comm] at hx
  have hblock : x / k * k + k ≤ m * k := by
    rw [← Nat.succ_mul]
    exact Nat.mul_le_mul_right k (div_lt_of_lt_blocks hx)
  simp only [mapBlocks]
  rw [slice_copies (h r) (by rwa [Nat.mul_comm k m])]

theorem cut_mapBlocks (f : List F → List F) (hk : 0 < k) (hdvd : k ∣ w)
    (h : (Sharding.cut w).Holds v u) :
    (Sharding.cut w).Holds (fun r => mapBlocks k f (v r)) (mapBlocks k f u) := by
  rcases hdvd with ⟨m, rfl⟩
  rw [Nat.mul_comm k m] at h ⊢
  intro r x hx
  rcases div_mod_cut (m := m) (r := r.val) (x := x) hk with ⟨hdiv, hmod⟩
  simp only [mapBlocks, hdiv, hmod]
  rw [slice_cut (h r) (div_lt_of_lt_blocks hx)]

/-- A piece that is seen in its place. -/
theorem cut_of_own (h : (Sharding.own w).Holds v u) :
    (Sharding.cut w).Holds (fun r x => v r (r.val * w + x)) u := h

/-- A piece of copies. -/
theorem cut_of_copies (h : (Sharding.copies (n * w)).Holds v u) :
    (Sharding.cut w).Holds (fun r x => v r (r.val * w + x)) u :=
  fun r _ hx => h r _ (add_mul_lt r.isLt hx)

/-- What every rank adds up from all summands. -/
theorem copies_of_parts {v' : Fin n → Nat → F} (h : (Sharding.parts w).Holds v u)
    (hsum : ∀ r, ∀ x < w, v' r x = ∑ i, v i x) : (Sharding.copies w).Holds v' u :=
  fun r x hx => (hsum r x hx).trans (h x hx)

theorem copies_of_root {v' : Fin n → Nat → F} (h : (Sharding.root w).Holds v u)
    (hroot : ∀ r, ∀ x < w, ∃ q : Fin n, q.val = 0 ∧ v' r x = v q x) :
    (Sharding.copies w).Holds v' u := by
  intro r x hx
  rcases hroot r x hx with ⟨q, hq, heq⟩
  exact heq.trans (h q hq x hx)

/-- A sum of vectors of summands. -/
theorem parts_sum {ι : Type} (S : Finset ι) {v : ι → Fin n → Nat → F} {u : ι → Nat → F}
    (h : ∀ z ∈ S, (Sharding.parts w).Holds (v z) (u z)) :
    (Sharding.parts w).Holds (fun r x => ∑ z ∈ S, v z r x) fun x => ∑ z ∈ S, u z x := by
  intro x hx
  rw [Finset.sum_comm]
  exact Finset.sum_congr rfl fun z hz => h z hz x hx

end Map

/-! ## Products -/

section Products

variable [NonUnitalNonAssocSemiring F] {v : Fin n → Nat → F} {u : Nat → F}

/-- Row `i` of a matrix of `m` columns, times a vector. -/
def dotRow (m : Nat) (W : Nat → Nat → F) (x : Nat → F) (i : Nat) : F :=
  ∑ j ∈ Finset.range m, W i j * x j

theorem dotRow_congr {m i i' : Nat} {W W' : Nat → Nat → F} {x x' : Nat → F}
    (hW : ∀ j < m, W i j = W' i' j) (hx : ∀ j < m, x j = x' j) :
    dotRow m W x i = dotRow m W' x' i' :=
  Finset.sum_congr rfl fun j hj => by
    rw [hW j (Finset.mem_range.1 hj), hx j (Finset.mem_range.1 hj)]

/-- Every rank multiplies with the whole matrix. -/
theorem equal_dotRow {m : Nat} (W : Nat → Nat → F) (h : (Sharding.copies m).Holds v u) :
    Sharding.equal.Holds (fun r => dotRow m W (v r)) (dotRow m W u) :=
  fun r => funext fun _ => dotRow_congr (fun _ _ => rfl) (h r)

/-- Every rank multiplies with the rows of its piece. -/
theorem cut_dotRow {m w : Nat} {V : Fin n → Nat → Nat → F} {W : Nat → Nat → F}
    (hV : ∀ r : Fin n, ∀ i < w, ∀ j < m, V r i j = W (r.val * w + i) j)
    (h : (Sharding.copies m).Holds v u) :
    (Sharding.cut w).Holds (fun r => dotRow m (V r) (v r)) (dotRow m W u) :=
  fun r i hi => dotRow_congr (hV r i hi) (h r)

/-- Every rank multiplies its piece with the columns of the piece. -/
theorem parts_dotRow {m d : Nat} {V : Fin n → Nat → Nat → F} {W : Nat → Nat → F}
    (hV : ∀ r : Fin n, ∀ i < d, ∀ j < m, V r i j = W i (r.val * m + j))
    (h : (Sharding.cut m).Holds v u) :
    (Sharding.parts d).Holds (fun r => dotRow m (V r) (v r)) (dotRow (n * m) W u) := by
  intro i hi
  rw [dotRow, ← sum_blocks, Finset.sum_range]
  refine Finset.sum_congr rfl fun r _ => Finset.sum_congr rfl fun j hj => ?_
  have hj := Finset.mem_range.1 hj
  rw [hV r i hi j hj, h r j hj]

/-- Summands times a number that all ranks have. -/
theorem parts_mul_right {w : Nat} {c : Fin n → F} {a : F} (hc : ∀ r, c r = a)
    (h : (Sharding.parts w).Holds v u) :
    (Sharding.parts w).Holds (fun r x => v r x * c r) fun x => u x * a := by
  intro x hx
  simp only [hc, ← Finset.sum_mul]
  rw [h x hx]

end Products

end

end Lib
end PrefillOpt
