import PrefillOpt.Lib.Calls
import PrefillOpt.Lib.Memory

/-!
# Exec — one program against fixed incoming data

What a program does on its own is a function of what its ports deliver: which cells it hands to
each port, how many it takes from each, and what it returns.
-/

namespace PrefillOpt
namespace Lib

open Function

variable {π β ρ : Type}

/-- What one run of a program amounts to. -/
@[ext]
structure Outcome (π β ρ : Type) where
  sent : π → List β
  taken : π → Nat
  result : ρ

/-- Run a program whose port `a` delivers the cells of `inc a`, one after the other. -/
def Prog.exec : Prog π β ρ → (π → Mem β) → Outcome π β ρ
  | .ret r, _ => ⟨fun _ => [], fun _ => 0, r⟩
  | .write d k, inc =>
      let o := k.exec inc
      ⟨fun a => d a ++ o.sent a, o.taken, o.result⟩
  | .read n k, inc =>
      let o := (k fun a => (inc a).slice 0 (n a)).exec fun a i => inc a (n a + i)
      ⟨o.sent, fun a => n a + o.taken a, o.result⟩

variable [DecidableEq π]

/-- The cells that leave through port `a`. -/
def outs (a : π) (es : List (LEv π β)) : List β :=
  es.flatMap fun
    | .out b xs => if b = a then xs else []
    | .inp _ _ => []

/-- The cells that arrive at port `a`. -/
def ins (a : π) (es : List (LEv π β)) : List β :=
  es.flatMap fun
    | .out _ _ => []
    | .inp b xs => if b = a then xs else []

@[simp] theorem outs_out (a b : π) (xs : List β) (es : List (LEv π β)) :
    outs a (.out b xs :: es) = (if b = a then xs else []) ++ outs a es := rfl

@[simp] theorem outs_inp (a b : π) (xs : List β) (es : List (LEv π β)) :
    outs a (.inp b xs :: es) = outs a es := rfl

@[simp] theorem ins_out (a b : π) (xs : List β) (es : List (LEv π β)) :
    ins a (.out b xs :: es) = ins a es := rfl

@[simp] theorem ins_inp (a b : π) (xs : List β) (es : List (LEv π β)) :
    ins a (.inp b xs :: es) = (if b = a then xs else []) ++ ins a es := rfl

theorem outs_append (a : π) (es es' : List (LEv π β)) :
    outs a (es ++ es') = outs a es ++ outs a es' := List.flatMap_append

theorem ins_append (a : π) (es es' : List (LEv π β)) :
    ins a (es ++ es') = ins a es ++ ins a es' := List.flatMap_append

theorem outs_flatMap {ι : Type} (a : π) (l : List ι) (f : ι → List (LEv π β)) :
    outs a (l.flatMap f) = l.flatMap fun i => outs a (f i) := List.flatMap_assoc

theorem ins_flatMap {ι : Type} (a : π) (l : List ι) (f : ι → List (LEv π β)) :
    ins a (l.flatMap f) = l.flatMap fun i => ins a (f i) := List.flatMap_assoc

/-- A block and what comes after it are consecutive cells. -/
theorem append_eq_slice_iff {inc : Mem β} {xs ys : List β} :
    xs ++ ys = inc.slice 0 (xs ++ ys).length ↔
      xs = inc.slice 0 xs.length ∧ ys = Mem.slice (fun i => inc (xs.length + i)) 0 ys.length := by
  have hsplit : inc.slice 0 (xs ++ ys).length
      = inc.slice 0 xs.length ++ Mem.slice (fun i => inc (xs.length + i)) 0 ys.length := by
    rw [List.length_append, ← Mem.slice_append, Nat.zero_add]
    congr 1
    exact Mem.slice_congr fun i _ => by rw [Nat.zero_add]
  rw [hsplit]
  constructor
  · intro h
    exact List.append_inj' h (Mem.slice_length ..).symm
  · rintro ⟨h₁, h₂⟩
    rw [← h₁, ← h₂]

/-- A trace whose incoming messages are what the ports deliver is the run of the program. -/
theorem Trace.exec_eq {p : Prog π β ρ} {es : List (LEv π β)} {r : ρ} (h : Trace p es r)
    {inc : π → Mem β} (hin : ∀ a, ins a es = (inc a).slice 0 (ins a es).length) :
    p.exec inc = ⟨fun a => outs a es, fun a => (ins a es).length, r⟩ := by
  induction h generalizing inc with
  | ret r => rfl
  | wrote h _ ih =>
      simp only [Prog.exec, ih hin, h, List.nil_append]
  | @readAll n k es r h _ ih =>
      have hnone : (fun a => (inc a).slice 0 (n a)) = fun _ => [] :=
        funext fun a => by rw [h, Mem.slice_zero]
      have hinc : (fun a i => inc a (n a + i)) = inc :=
        funext fun a => funext fun i => by rw [h, Nat.zero_add]
      rw [Prog.exec, hnone, hinc, ih hin]
      simp only [h, Nat.zero_add]
  | @out d k es r b _ ih =>
      have hk := ih hin
      simp only [Prog.exec, Outcome.mk.injEq] at hk ⊢
      refine ⟨funext fun a => ?_, hk.2.1, hk.2.2⟩
      have ha := congrFun hk.1 a
      by_cases hab : b = a
      · subst hab
        simpa using ha
      · rw [update_of_ne (Ne.symm hab)] at ha
        simpa [hab] using ha
  | @inp n k es r b xs hn _ ih =>
      -- the rest of the trace reads on behind the message
      have hinrest : ∀ a, ins a es
          = (update inc b (fun i => inc b (xs.length + i)) a).slice 0 (ins a es).length := by
        intro a
        have ha := hin a
        by_cases hab : b = a
        · subst hab
          rw [ins_inp, if_pos rfl, append_eq_slice_iff] at ha
          rw [update_self]
          exact ha.2
        · rw [update_of_ne (Ne.symm hab)]
          simpa [hab] using ha
      have hrest := ih hinrest
      have hmsg : xs = (inc b).slice 0 xs.length := by
        have hb := hin b
        rw [ins_inp, if_pos rfl, append_eq_slice_iff] at hb
        exact hb.1
      have hgot : update (fun a => (update inc b (fun i => inc b (xs.length + i)) a).slice 0
            (update n b 0 a)) b
            (xs ++ (update inc b (fun i => inc b (xs.length + i)) b).slice 0 (update n b 0 b))
          = fun a => (inc a).slice 0 (n a) := by
        funext a
        by_cases hab : a = b
        · subst hab
          rw [update_self, update_self, update_self, Mem.slice_zero, List.append_nil, hn]
          exact hmsg
        · rw [update_of_ne hab, update_of_ne hab, update_of_ne hab]
      have hinc : (fun a i => update inc b (fun i => inc b (xs.length + i)) a (update n b 0 a + i))
          = fun a i => inc a (n a + i) := by
        funext a i
        by_cases hab : a = b
        · subst hab
          rw [update_self, update_self, Nat.zero_add, hn]
        · rw [update_of_ne hab, update_of_ne hab]
      simp only [Prog.exec, hgot, hinc, Outcome.mk.injEq] at hrest ⊢
      refine ⟨hrest.1, funext fun a => ?_, hrest.2.2⟩
      have ha := congrFun hrest.2.1 a
      by_cases hab : a = b
      · subst hab
        rw [update_self, Nat.zero_add] at ha
        simp [ha, hn]
      · rw [update_of_ne hab] at ha
        simp [ha, Ne.symm hab]

end Lib
end PrefillOpt
