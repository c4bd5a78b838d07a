import PrefillOpt.Kernels.MatmulQ80Q40
import PrefillOpt.Lib.Memory

/-!
# Kernels.Repack — weights and inputs in the layout of the repacked kernels

`nn-repack.hpp`, `nn-repack.cpp`.  Four rows of weights become one row of blocks that hold an
entry of each, in place; four rows of inputs become one row of such blocks in a scratch buffer.
The vendored kernels are known by the products their layout documents.
-/

namespace PrefillOpt
namespace Kernels

open Lib (Mem Lanes)

/-! ## Blocks in memory -/

/-- `block_q4_0x4`, the quants as bytes. -/
structure BlockQ40x4 where
  d : Fin 4 → UInt16
  qs : Fin 64 → UInt8

/-- `block_q8_0x4`. -/
structure BlockQ80x4 where
  d : Fin 4 → UInt16
  qs : Fin 128 → Int8

/-- `d[i]` of a block. -/
def BlockQ40x4.scale (b : BlockQ40x4) (i : Nat) : UInt16 := b.d (Fin.ofNat 4 i)

def BlockQ80x4.scale (b : BlockQ80x4) (i : Nat) : UInt16 := b.d (Fin.ofNat 4 i)

/-- A little-endian number of two bytes, and its bytes. -/
def ofBytes (lo hi : UInt8) : UInt16 := UInt16.ofNat (lo.toNat + 256 * hi.toNat)

def lowByte (d : UInt16) : UInt8 := UInt8.ofNat d.toNat

def highByte (d : UInt16) : UInt8 := UInt8.ofNat (d.toNat / 256)

/-- The block of 18 bytes at an offset. -/
def loadQ40 (m : Mem UInt8) (off : Nat) : NnBlockQ40 :=
  ⟨ofBytes (m off) (m (off + 1)), fun k => m (off + 2 + k)⟩

/-- The block of 72 bytes at an offset. -/
def loadQ40x4 (m : Mem UInt8) (off : Nat) : BlockQ40x4 :=
  ⟨fun i => ofBytes (m (off + 2 * i)) (m (off + 2 * i + 1)), fun k => m (off + 8 + k)⟩

def BlockQ40x4.byte (b : BlockQ40x4) (i : Nat) : UInt8 :=
  let d := b.scale (i / 2)
  if i < 8 then (if i % 2 = 0 then lowByte d else highByte d) else b.qs (Fin.ofNat 64 (i - 8))

def storeQ40x4 (m : Mem UInt8) (off : Nat) (b : BlockQ40x4) : Mem UInt8 :=
  fun i => if off ≤ i ∧ i < off + 72 then b.byte (i - off) else m i

/-! ## Repacking -/

/-- `repackOn` stands for `NN_REPACK_AVAILABLE` and `DLLAMA_REPACK`. -/
def nnRepackSupported (repackOn : Bool) (d kBlocks : Nat) : Bool :=
  repackOn && d % 4 == 0 && decide (0 < kBlocks)

/-- The turns of the loops over the words and their bytes. -/
def wordTurns : List (Nat × Nat) :=
  (List.range 16).flatMap fun i => (List.range 4).map fun l => (i, l)

/-- Word `i` of the quants comes from row `i % 4`; the exclusive or is bytewise. -/
def makeBlockQ40x4 (rows : Nat → NnBlockQ40) : BlockQ40x4 where
  d i := (rows i).d
  qs k := wordTurns.foldl
    (fun (qs : Mem UInt8) il => Function.update qs (il.1 * 4 + il.2)
      ((rows (il.1 % 4)).quant (il.1 / 4 * 4 + il.2) ^^^ 0x88))
    (fun _ => 0) k

/-- One turn over the row groups. -/
def repackGroup (kBlocks : Nat) (weight : Mem UInt8) (g : Nat) : Mem UInt8 :=
  let groupBytes := kBlocks * 4 * 18
  let base := g * groupBytes
  -- the copy holds the bytes of the group and no others
  let tmp : Mem UInt8 := fun i => if i < groupBytes then weight (base + i) else 0
  (List.range kBlocks).foldl
    (fun weight b => storeQ40x4 weight (base + b * 72)
      (makeBlockQ40x4 fun t => loadQ40 tmp ((t * kBlocks + b) * 18))) weight

def nnRepackQ40InPlace (repackOn : Bool) (weight : Mem UInt8) (d kBlocks : Nat) :
    Mem UInt8 × Bool :=
  if nnRepackSupported repackOn d kBlocks then
    ((List.range (d / 4)).foldl (repackGroup kBlocks) weight, true)
  else (weight, false)

/-- The turns of the loops over `r`, `j` and `l`. -/
def packTurns : List (Nat × Nat × Nat) :=
  (List.range 4).flatMap fun r => (List.range 8).flatMap fun j =>
    (List.range 4).map fun l => (r, j, l)

/-- One output block of `nnPackQ80To4x4`. -/
def packQ80Block (rows : Nat → NnBlockQ80) : BlockQ80x4 where
  d r := (rows r).d
  qs k := packTurns.foldl
    (fun (qs : Mem Int8) rjl => Function.update qs (16 * rjl.2.1 + 4 * rjl.1 + rjl.2.2)
      ((rows rjl.1).quant (4 * rjl.2.1 + rjl.2.2)))
    (fun _ => 0) k

def nnPackQ80To4x4 (inp : Nat → NnBlockQ80) (kBlocks : Nat) : Nat → BlockQ80x4 :=
  fun b => packQ80Block fun r => inp (r * kBlocks + b)

/-! ## What the layouts document -/

/-- Entry `k` of row `r`: the nibbles are signed. -/
def BlockQ40x4.entry (b : BlockQ40x4) (r : Nat) : Lanes := fun k =>
  let byte := (b.qs (Fin.ofNat 64 (k % 16 / 4 * 16 + r * 4 + k % 4))).toNat
  let nibble := if k < 16 then byte % 16 else byte / 16
  if nibble < 8 then nibble else (nibble : Int) - 16

def BlockQ80x4.entry (b : BlockQ80x4) (r : Nat) : Lanes := fun k =>
  (b.qs (Fin.ofNat 128 (k / 4 * 16 + r * 4 + k % 4))).toInt

/-- Entry `k` of a block of weights. -/
def NnBlockQ40.entry (w : NnBlockQ40) : Lanes := fun k =>
  if k < 16 then lowNibble w k else highNibble w (k - 16)

/-! ## One block -/

theorem ofBytes_bytes (d : UInt16) : ofBytes (lowByte d) (highByte d) = d := by
  have hd := d.toNat_lt
  apply UInt16.toNat_inj.1
  simp only [ofBytes, lowByte, highByte, UInt16.toNat_ofNat', UInt8.toNat_ofNat']
  omega

theorem mem_wordTurns {il : Nat × Nat} : il ∈ wordTurns ↔ il.1 < 16 ∧ il.2 < 4 := by
  rcases il with ⟨i, l⟩
  simp [wordTurns]

theorem mem_packTurns {rjl : Nat × Nat × Nat} :
    rjl ∈ packTurns ↔ rjl.1 < 4 ∧ rjl.2.1 < 8 ∧ rjl.2.2 < 4 := by
  rcases rjl with ⟨r, j, l⟩
  simp [packTurns]

theorem makeBlockQ40x4_qs (rows : Nat → NnBlockQ40) {i l : Nat} (hi : i < 16) (hl : l < 4) :
    (makeBlockQ40x4 rows).qs (Fin.ofNat 64 (i * 4 + l))
      = (rows (i % 4)).quant (i / 4 * 4 + l) ^^^ 0x88 := by
  have hagree : ∀ b ∈ wordTurns, b.1 * 4 + b.2 = i * 4 + l → b = (i, l) := by
    intro b hb hkey
    have hlt := mem_wordTurns.1 hb
    exact Prod.ext (by omega) (by omega)
  have hloop := Mem.foldl_update_of_mem (a := (i, l)) (fun il : Nat × Nat => il.1 * 4 + il.2)
    (fun il => (rows (il.1 % 4)).quant (il.1 / 4 * 4 + il.2) ^^^ 0x88)
    (mem_wordTurns.2 ⟨hi, hl⟩) (fun b hb hkey => by rw [hagree b hb hkey]) fun _ => 0
  have hval : (Fin.ofNat 64 (i * 4 + l)).val = i * 4 + l := Nat.mod_eq_of_lt (by omega)
  dsimp only [makeBlockQ40x4] at hloop ⊢
  rw [hval]
  exact hloop

theorem packQ80Block_qs (rows : Nat → NnBlockQ80) {r j l : Nat} (hr : r < 4) (hj : j < 8)
    (hl : l < 4) :
    (packQ80Block rows).qs (Fin.ofNat 128 (16 * j + 4 * r + l))
      = (rows r).quant (4 * j + l) := by
  have hagree : ∀ b ∈ packTurns, 16 * b.2.1 + 4 * b.1 + b.2.2 = 16 * j + 4 * r + l →
      b = (r, j, l) := by
    rintro ⟨r', j', l'⟩ hb hkey
    have hlt := mem_packTurns.1 hb
    dsimp only at hlt hkey
    have heq : r' = r ∧ j' = j ∧ l' = l := by omega
    rw [heq.1, heq.2.1, heq.2.2]
  have hloop := Mem.foldl_update_of_mem (a := (r, j, l))
    (fun rjl : Nat × Nat × Nat => 16 * rjl.2.1 + 4 * rjl.1 + rjl.2.2)
    (fun rjl => (rows rjl.1).quant (4 * rjl.2.1 + rjl.2.2))
    (mem_packTurns.2 ⟨hr, hj, hl⟩) (fun b hb hkey => by rw [hagree b hb hkey]) fun _ => 0
  have hval : (Fin.ofNat 128 (16 * j + 4 * r + l)).val = 16 * j + 4 * r + l :=
    Nat.mod_eq_of_lt (by omega)
  dsimp only [packQ80Block] at hloop ⊢
  rw [hval]
  exact hloop

/-- A nibble with its highest bit flipped is, as a signed number, the nibble minus 8. -/
theorem signed_flip {n : Nat} (hn : n < 16) :
    (if (n + 8) % 16 < 8 then (((n + 8) % 16 : Nat) : Int) else (((n + 8) % 16 : Nat) : Int) - 16)
      = (n : Int) - 8 := by
  split_ifs <;> omega

theorem xor_nibbles (b : UInt8) :
    (b ^^^ 0x88).toNat % 16 = (b.toNat % 16 + 8) % 16 ∧
      (b ^^^ 0x88).toNat / 16 = (b.toNat / 16 + 8) % 16 := by
  revert b
  suffices h : ∀ b : Fin 256, (UInt8.ofFin b ^^^ 0x88).toNat % 16 = (b.val % 16 + 8) % 16 ∧
      (UInt8.ofFin b ^^^ 0x88).toNat / 16 = (b.val / 16 + 8) % 16 by
    exact fun b => h b.toFin
  decide +kernel

/-- Every entry of the four rows is in the block, with its value. -/
theorem makeBlockQ40x4_entry (rows : Nat → NnBlockQ40) {r k : Nat} (hr : r < 4) (hk : k < 32) :
    (makeBlockQ40x4 rows).entry r k = (rows r).entry k := by
  have hword := makeBlockQ40x4_qs rows (i := k % 16 / 4 * 4 + r) (l := k % 4) (by omega) (by omega)
  have hindex : (k % 16 / 4 * 4 + r) * 4 + k % 4 = k % 16 / 4 * 16 + r * 4 + k % 4 := by omega
  have hrow : (k % 16 / 4 * 4 + r) % 4 = r := by omega
  have hbyte : (k % 16 / 4 * 4 + r) / 4 * 4 + k % 4 = k % 16 := by omega
  rw [hindex, hrow, hbyte] at hword
  have hnibbles := xor_nibbles ((rows r).quant (k % 16))
  have hlt := ((rows r).quant (k % 16)).toNat_lt
  simp only [BlockQ40x4.entry, NnBlockQ40.entry, hword, hnibbles.1, hnibbles.2]
  by_cases hlow : k < 16
  · rw [if_pos hlow, if_pos hlow, signed_flip (by omega), Nat.mod_eq_of_lt hlow]
    rfl
  · have hsub : k % 16 = k - 16 := by omega
    rw [if_neg hlow, if_neg hlow, signed_flip (by omega), hsub]
    rfl

theorem packQ80Block_entry (rows : Nat → NnBlockQ80) {r k : Nat} (hr : r < 4) (hk : k < 32) :
    (packQ80Block rows).entry r k = vld1q_s8 (rows r).qs 0 k := by
  have hword := packQ80Block_qs rows hr (j := k / 4) (l := k % 4) (by omega) (by omega)
  have hindex : 16 * (k / 4) + 4 * r + k % 4 = k / 4 * 16 + r * 4 + k % 4 := by omega
  rw [hindex, Nat.div_add_mod k 4] at hword
  simp only [BlockQ80x4.entry, hword]
  rfl

theorem sum_entry (w : NnBlockQ40) (x : NnBlockQ80) :
    ∑ k ∈ Finset.range 32, w.entry k * vld1q_s8 x.qs 0 k = dotBlock w x := by
  rw [dotBlock, ← Lib.sum_halves 16 fun k => w.entry k * vld1q_s8 x.qs 0 k]
  refine Finset.sum_congr rfl fun k hk => ?_
  have hlow : k < 16 := Finset.mem_range.1 hk
  have hhigh : ¬k + 16 < 16 := by omega
  simp only [NnBlockQ40.entry, if_pos hlow, if_neg hhigh, Nat.add_sub_cancel]
  rfl

/-! ## In place -/

theorem loadQ40x4_storeQ40x4 (m : Mem UInt8) (off : Nat) (b : BlockQ40x4) :
    loadQ40x4 (storeQ40x4 m off b) off = b := by
  have hread : ∀ i < 72, storeQ40x4 m off b (off + i) = b.byte i := by
    intro i hi
    rw [storeQ40x4, if_pos (by omega), Nat.add_sub_cancel_left]
  have hd : (loadQ40x4 (storeQ40x4 m off b) off).d = b.d := by
    funext i
    have hlow : b.scale (2 * i.val / 2) = b.d i := by
      apply congrArg b.d
      ext
      simp
    have hhigh : b.scale ((2 * i.val + 1) / 2) = b.d i := by
      apply congrArg b.d
      ext
      simp
      omega
    have heven : 2 * i.val % 2 = 0 := by omega
    have hodd : ¬(2 * i.val + 1) % 2 = 0 := by omega
    have hi := i.isLt
    simp only [loadQ40x4]
    rw [hread _ (by omega), Nat.add_assoc, hread _ (by omega)]
    simp only [BlockQ40x4.byte, hlow, hhigh, if_pos heven, if_neg hodd]
    rw [if_pos (by omega), if_pos (by omega), ofBytes_bytes]
  have hqs : (loadQ40x4 (storeQ40x4 m off b) off).qs = b.qs := by
    funext k
    have hk := k.isLt
    have hindex : Fin.ofNat 64 (8 + k.val - 8) = k := by ext; simp
    simp only [loadQ40x4]
    rw [Nat.add_assoc, hread _ (by omega)]
    simp only [BlockQ40x4.byte, hindex]
    exact if_neg (by omega)
  cases b
  rw [BlockQ40x4.mk.injEq]
  exact ⟨hd, hqs⟩

theorem loadQ40x4_congr {m m' : Mem UInt8} {off : Nat}
    (h : ∀ i, off ≤ i → i < off + 72 → m i = m' i) : loadQ40x4 m off = loadQ40x4 m' off := by
  simp only [loadQ40x4, BlockQ40x4.mk.injEq]
  constructor
  · funext i
    have hi := i.isLt
    rw [h _ (by omega) (by omega), h _ (by omega) (by omega)]
  · funext k
    have hk := k.isLt
    exact h _ (by omega) (by omega)

theorem loadQ40_congr {m m' : Mem UInt8} {off off' : Nat}
    (h : ∀ i < 18, m (off + i) = m' (off' + i)) : loadQ40 m off = loadQ40 m' off' := by
  simp only [loadQ40, NnBlockQ40.mk.injEq]
  constructor
  · rw [h 1 (by omega), show m off = m' off' from h 0 (by omega)]
  · funext k
    have hk := k.isLt
    rw [Nat.add_assoc, Nat.add_assoc]
    exact h _ (by omega)

theorem makeBlockQ40x4_congr {rows rows' : Nat → NnBlockQ40} (h : ∀ t < 4, rows t = rows' t) :
    makeBlockQ40x4 rows = makeBlockQ40x4 rows' := by
  simp only [makeBlockQ40x4, BlockQ40x4.mk.injEq]
  constructor
  · funext i
    rw [h i i.isLt]
  · have hturn : ∀ il : Nat × Nat, rows (il.1 % 4) = rows' (il.1 % 4) :=
      fun il => h _ (Nat.mod_lt _ (by omega))
    simp only [hturn]

/-- The stores of one group follow each other. -/
theorem storeLoop (v : Nat → BlockQ40x4) (base n : Nat) (m : Mem UInt8) :
    (∀ b < n, loadQ40x4
        ((List.range n).foldl (fun m b => storeQ40x4 m (base + b * 72) (v b)) m) (base + b * 72)
          = v b) ∧
      ∀ i, (i < base ∨ base + n * 72 ≤ i) →
        (List.range n).foldl (fun m b => storeQ40x4 m (base + b * 72) (v b)) m i = m i := by
  induction n with
  | zero => exact ⟨fun b hb => absurd hb (Nat.not_lt_zero b), fun i _ => rfl⟩
  | succ n ih =>
      rcases ih with ⟨hblocks, hrest⟩
      simp only [List.range_succ, List.foldl_append, List.foldl_cons, List.foldl_nil]
      constructor
      · intro b hb
        rcases Nat.lt_succ_iff_lt_or_eq.1 hb with hlt | rfl
        · rw [← hblocks b hlt]
          refine loadQ40x4_congr fun i hle hi => ?_
          rw [storeQ40x4, if_neg (by omega)]
        · exact loadQ40x4_storeQ40x4 _ _ _
      · intro i hi
        rw [storeQ40x4, if_neg (by omega)]
        exact hrest i (by omega)

/-- A group reads its own rows from the copy, before it overwrites them. -/
theorem repackGroup_ok (kBlocks : Nat) (weight : Mem UInt8) (g : Nat) :
    (∀ b < kBlocks, loadQ40x4 (repackGroup kBlocks weight g) (g * (kBlocks * 72) + b * 72)
        = makeBlockQ40x4 fun t => loadQ40 weight (((4 * g + t) * kBlocks + b) * 18)) ∧
      ∀ i, (i < g * (kBlocks * 72) ∨ (g + 1) * (kBlocks * 72) ≤ i) →
        repackGroup kBlocks weight g i = weight i := by
  have hbytes : kBlocks * 4 * 18 = kBlocks * 72 := by ring
  have hloop := storeLoop (fun b => makeBlockQ40x4 fun t => loadQ40
    (fun i => if i < kBlocks * 72 then weight (g * (kBlocks * 72) + i) else 0)
    ((t * kBlocks + b) * 18)) (g * (kBlocks * 72)) kBlocks weight
  rw [repackGroup, hbytes]
  constructor
  · intro b hb
    rw [hloop.1 b hb]
    refine makeBlockQ40x4_congr fun t ht => loadQ40_congr fun i hi => ?_
    have hle : (t + 1) * kBlocks ≤ 4 * kBlocks := Nat.mul_le_mul_right kBlocks ht
    rw [Nat.succ_mul] at hle
    rw [if_pos (by omega)]
    refine congrArg weight ?_
    ring
  · intro i hi
    refine hloop.2 i ?_
    rw [Nat.succ_mul] at hi
    exact hi

theorem repackGroups_ok (kBlocks : Nat) (weight : Mem UInt8) (n : Nat) :
    (∀ g < n, ∀ b < kBlocks,
        loadQ40x4 ((List.range n).foldl (repackGroup kBlocks) weight)
            (g * (kBlocks * 72) + b * 72)
          = makeBlockQ40x4 fun t => loadQ40 weight (((4 * g + t) * kBlocks + b) * 18)) ∧
      ∀ i, n * (kBlocks * 72) ≤ i →
        (List.range n).foldl (repackGroup kBlocks) weight i = weight i := by
  induction n with
  | zero => exact ⟨fun g hg => absurd hg (Nat.not_lt_zero g), fun i _ => rfl⟩
  | succ n ih =>
      rcases ih with ⟨hgroups, hrest⟩
      simp only [List.range_succ, List.foldl_append, List.foldl_cons, List.foldl_nil]
      generalize (List.range n).foldl (repackGroup kBlocks) weight = m at hgroups hrest ⊢
      rcases repackGroup_ok kBlocks m n with ⟨hnew, hold⟩
      constructor
      · intro g hg b hb
        rcases Nat.lt_succ_iff_lt_or_eq.1 hg with hlt | rfl
        · rw [← hgroups g hlt b hb]
          refine loadQ40x4_congr fun i _ hi => hold i (.inl ?_)
          have hend : (g + 1) * (kBlocks * 72) ≤ n * (kBlocks * 72) := Nat.mul_le_mul_right _ hlt
          rw [Nat.succ_mul] at hend
          omega
        · rw [hnew b hb]
          -- its rows are still those of the original weight
          refine makeBlockQ40x4_congr fun t _ => loadQ40_congr fun i _ => hrest _ ?_
          calc g * (kBlocks * 72) = 4 * g * kBlocks * 18 := by ring
            _ ≤ ((4 * g + t) * kBlocks + b) * 18 + i := by
              rw [Nat.add_mul (4 * g) t]
              omega
      · intro i hi
        have hle : n * (kBlocks * 72) ≤ (n + 1) * (kBlocks * 72) :=
          Nat.mul_le_mul_right _ (Nat.le_succ n)
        rw [hold i (.inr hi), hrest i (hle.trans hi)]

theorem nnRepackQ40InPlace_ok {repackOn : Bool} {d kBlocks : Nat} (weight : Mem UInt8)
    (hs : nnRepackSupported repackOn d kBlocks = true) {g b : Nat} (hg : g < d / 4)
    (hb : b < kBlocks) :
    loadQ40x4 (nnRepackQ40InPlace repackOn weight d kBlocks).1 ((g * kBlocks + b) * 72)
      = makeBlockQ40x4 fun t => loadQ40 weight (((4 * g + t) * kBlocks + b) * 18) := by
  have haddr : (g * kBlocks + b) * 72 = g * (kBlocks * 72) + b * 72 := by ring
  rw [nnRepackQ40InPlace, if_pos hs, haddr]
  exact (repackGroups_ok kBlocks weight (d / 4)).1 g hg b hb

end Kernels
end PrefillOpt
