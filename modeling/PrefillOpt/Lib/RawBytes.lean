import Mathlib.Data.Nat.Digits.Defs
import Mathlib.Data.Vector.Defs
import Mathlib.Tactic.Ring

/-!
# RawBytes — values as they lie in memory

A `Raw` type has values of one size; `load` reads back what `store` wrote.  Integers are stored
with the least significant byte first, a structure is stored field by field.
-/

namespace PrefillOpt
namespace Lib

/-- The `n` low bytes of a number, the least significant first. -/
def leBytes : Nat → Nat → List UInt8
  | 0, _ => []
  | n + 1, v => UInt8.ofNat (v % 256) :: leBytes n (v / 256)

def ofLeBytes : List UInt8 → Nat
  | [] => 0
  | b :: bs => b.toNat + 256 * ofLeBytes bs

@[simp] theorem leBytes_length (n v : Nat) : (leBytes n v).length = n := by
  induction n generalizing v with
  | zero => rfl
  | succ n ih => simp [leBytes, ih]

theorem ofLeBytes_leBytes (n v : Nat) : ofLeBytes (leBytes n v) = v % 256 ^ n := by
  induction n generalizing v with
  | zero => simp [leBytes, ofLeBytes, Nat.mod_one]
  | succ n ih =>
      have hbyte : (UInt8.ofNat (v % 256)).toNat = v % 256 :=
        UInt8.toNat_ofNat_of_lt (Nat.mod_lt _ (by decide))
      rw [leBytes, ofLeBytes, ih, hbyte, Nat.pow_succ, Nat.mul_comm (256 ^ n), Nat.mod_mul]

theorem ofLeBytes_leBytes_of_lt {n v : Nat} (h : v < 256 ^ n) : ofLeBytes (leBytes n v) = v := by
  rw [ofLeBytes_leBytes, Nat.mod_eq_of_lt h]

theorem ofLeBytes_lt (bs : List UInt8) : ofLeBytes bs < 256 ^ bs.length := by
  induction bs with
  | nil => exact Nat.one_pos
  | cons b bs ih =>
      have hb : b.toNat < 256 := b.toNat_lt
      rw [ofLeBytes, List.length_cons, Nat.pow_succ]
      omega

theorem leBytes_ofLeBytes (bs : List UInt8) : leBytes bs.length (ofLeBytes bs) = bs := by
  induction bs with
  | nil => rfl
  | cons b bs ih =>
      have hb : b.toNat < 256 := b.toNat_lt
      have hlow : (b.toNat + 256 * ofLeBytes bs) % 256 = b.toNat := by omega
      have hhigh : (b.toNat + 256 * ofLeBytes bs) / 256 = ofLeBytes bs := by omega
      rw [ofLeBytes, List.length_cons, leBytes, hlow, hhigh, ih, UInt8.ofNat_toNat]

/-- A type whose values take `size` bytes. -/
class Raw (α : Type) where
  size : Nat
  store : α → List UInt8
  load : List UInt8 → α
  store_length : ∀ x, (store x).length = size
  load_store : ∀ x, load (store x) = x

namespace Raw

instance : Raw UInt32 where
  size := 4
  store x := leBytes 4 x.toNat
  load bs := UInt32.ofNat (ofLeBytes bs)
  store_length _ := leBytes_length ..
  load_store x := by
    have hmod : x.toNat % 256 ^ 4 = x.toNat := Nat.mod_eq_of_lt x.toNat_lt
    rw [ofLeBytes_leBytes, hmod, UInt32.ofNat_toNat]

instance : Raw UInt64 where
  size := 8
  store x := leBytes 8 x.toNat
  load bs := UInt64.ofNat (ofLeBytes bs)
  store_length _ := leBytes_length ..
  load_store x := by
    have hmod : x.toNat % 256 ^ 8 = x.toNat := Nat.mod_eq_of_lt x.toNat_lt
    rw [ofLeBytes_leBytes, hmod, UInt64.ofNat_toNat]

variable {α γ : Type}

/-- The members of a structure lie one behind the other. -/
instance [Raw α] [Raw γ] : Raw (α × γ) where
  size := size α + size γ
  store x := store x.1 ++ store x.2
  load bs := (load (bs.take (size α)), load (bs.drop (size α)))
  store_length x := by
    rw [List.length_append, store_length, store_length]
  load_store x := by
    rw [List.take_left' (store_length x.1), List.drop_left' (store_length x.1), load_store,
      load_store]

/-- The elements of an array, one behind the other. -/
def loadMany [Raw α] : Nat → List UInt8 → List α
  | 0, _ => []
  | n + 1, bs => load (bs.take (size α)) :: loadMany n (bs.drop (size α))

theorem loadMany_length [Raw α] (n : Nat) (bs : List UInt8) :
    (loadMany n bs : List α).length = n := by
  induction n generalizing bs with
  | zero => rfl
  | succ n ih => rw [loadMany, List.length_cons, ih]

theorem storeMany_length [Raw α] (xs : List α) :
    (xs.flatMap store).length = xs.length * size α := by
  induction xs with
  | nil => rw [List.flatMap_nil, List.length_nil, List.length_nil, Nat.zero_mul]
  | cons x xs ih =>
      rw [List.flatMap_cons, List.length_append, store_length, ih, List.length_cons, Nat.succ_mul,
        Nat.add_comm]

theorem loadMany_store [Raw α] (xs : List α) : loadMany xs.length (xs.flatMap store) = xs := by
  induction xs with
  | nil => rfl
  | cons x xs ih =>
      rw [List.length_cons, loadMany, List.flatMap_cons, List.take_left' (store_length x),
        List.drop_left' (store_length x), load_store, ih]

instance [Raw α] {n : Nat} : Raw (List.Vector α n) where
  size := n * size α
  store xs := xs.toList.flatMap store
  load bs := ⟨loadMany n bs, loadMany_length n bs⟩
  store_length xs := by
    rw [storeMany_length, xs.toList_length]
  load_store xs := by
    have h := loadMany_store xs.toList
    rw [xs.toList_length] at h
    exact Subtype.ext h

/-- A type that lies in memory as another one. -/
@[reducible] def via [Raw γ] (f : α → γ) (g : γ → α) (h : ∀ x, g (f x) = x) : Raw α where
  size := size γ
  store x := store (f x)
  load bs := g (load bs)
  store_length x := store_length (f x)
  load_store x := by
    rw [load_store, h]

end Raw

end Lib
end PrefillOpt
