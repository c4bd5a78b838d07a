import PrefillOpt.Lib.Schedule

/-!
# Calls — the socket calls and loops that programs are written with

`writeMany` and `readMany` serve a list of ports concurrently; `loop` is a counting loop whose
body passes a state on.  Each comes with its `Trace` rule, so that a program is checked against
a schedule by following its text.
-/

namespace PrefillOpt
namespace Lib

open Function

variable {P π β ρ σ : Type} [DecidableEq P] [DecidableEq π]

namespace Prog

/-- Hand each block to its port, all ports concurrently. -/
def writeMany (ios : List (π × List β)) : Prog π β Unit :=
  .write (fun a => (ios.lookup a).getD []) (.ret ())

/-- Take that many cells from each port, all ports concurrently. -/
def readMany (ios : List (π × Nat)) : Prog π β (π → List β) :=
  .read (fun a => (ios.lookup a).getD 0) .ret

/-- Hand one block to one port. -/
def write1 (a : π) (xs : List β) : Prog π β Unit :=
  writeMany [(a, xs)]

/-- Take `n` cells from one port. -/
def read1 (a : π) (n : Nat) : Prog π β (List β) :=
  readMany [(a, n)] >>= fun g => .ret (g a)

/-- `for i in 0..n` over a state. -/
def loop (f : Nat → σ → Prog π β σ) : Nat → σ → Prog π β σ
  | 0, s => .ret s
  | n + 1, s => loop f n s >>= f n

end Prog

/-! ## Trace rules -/

omit [DecidableEq P] in
private theorem lookup_eq_none {τ : Type} {ios : List (π × τ)} {a : π}
    (h : a ∉ ios.map Prod.fst) : ios.lookup a = none := by
  induction ios with
  | nil => rfl
  | cons io ios ih =>
      obtain ⟨b, t⟩ := io
      simp only [List.map_cons, List.mem_cons, not_or] at h
      have hb : (a == b) = false := by simpa using h.1
      rw [List.lookup_cons, hb]
      exact ih h.2

omit [DecidableEq P] in
private theorem lookup_eq_some {τ : Type} {ios : List (π × τ)} {io : π × τ}
    (hn : (ios.map Prod.fst).Nodup) (h : io ∈ ios) : ios.lookup io.1 = some io.2 := by
  induction ios with
  | nil => cases h
  | cons jo ios ih =>
      obtain ⟨b, t⟩ := jo
      simp only [List.map_cons, List.nodup_cons] at hn
      rcases List.mem_cons.1 h with rfl | h
      · simp
      · have hb : (io.1 == b) = false := by
          have : io.1 ∈ ios.map Prod.fst := List.mem_map_of_mem h
          simpa using ne_of_mem_of_not_mem this hn.1
        rw [List.lookup_cons, hb]
        exact ih hn.2 h

namespace Trace

omit [DecidableEq P] in
theorem writeMany (ios : List (π × List β)) (hn : (ios.map Prod.fst).Nodup) :
    Trace (Prog.writeMany ios) (ios.map fun io => .out io.1 io.2) () := by
  have h := Trace.writes (d := fun a => (ios.lookup a).getD []) (k := .ret ()) _ hn
    (fun a ha => by simp [lookup_eq_none ha]) (.ret ())
  have hmap : ios.map (fun io => LEv.out io.1 io.2)
      = ios.map (fun io => LEv.out io.1 ((ios.lookup io.1).getD [])) := by
    refine List.map_congr_left fun io hio => ?_
    rw [lookup_eq_some hn hio]
    rfl
  rw [hmap]
  simpa [Prog.writeMany, List.map_map, comp_def] using h

omit [DecidableEq P] in
theorem readMany (ios : List (π × Nat)) (hn : (ios.map Prod.fst).Nodup) (g : π → List β)
    (hg : ∀ io ∈ ios, (g io.1).length = io.2) (hg' : ∀ a, a ∉ ios.map Prod.fst → g a = []) :
    Trace (Prog.readMany ios) (ios.map fun io => .inp io.1 (g io.1)) g := by
  have h := Trace.reads (n := fun a => (ios.lookup a).getD 0) (k := Prog.ret) _ hn g
    (fun a ha => by
      obtain ⟨io, hio, rfl⟩ := List.mem_map.1 ha
      simp [lookup_eq_some hn hio, hg io hio])
    (fun a ha => by simp [lookup_eq_none ha]) hg' (.ret g)
  simpa [Prog.readMany, List.map_map, comp_def] using h

omit [DecidableEq P] in
/-- A write whose blocks are given by an index. -/
theorem writeMany_map {ι : Type} {l : List ι} {port : ι → π} (hn : (l.map port).Nodup)
    (data : ι → List β) :
    Trace (Prog.writeMany (l.map fun i => (port i, data i))) (l.map fun i => .out (port i) (data i))
      () := by
  have h := writeMany (l.map fun i => (port i, data i)) (by simpa [comp_def] using hn)
  rwa [List.map_map] at h

omit [DecidableEq P] in
/-- A read that finds the block `data i` on port `port i`. -/
theorem readMany_map {ι : Type} {l : List ι} {port : ι → π} (hn : (l.map port).Nodup)
    (n : ι → Nat) (data : ι → List β) (hlen : ∀ i ∈ l, (data i).length = n i) :
    ∃ g, (∀ i ∈ l, g (port i) = data i) ∧
      Trace (Prog.readMany (l.map fun i => (port i, n i)))
        (l.map fun i => .inp (port i) (data i)) g := by
  let ios := l.map fun i => (port i, data i)
  have hios : (ios.map Prod.fst).Nodup := by simpa [ios, comp_def] using hn
  let g : π → List β := fun a => (ios.lookup a).getD []
  have hg : ∀ i ∈ l, g (port i) = data i := by
    intro i hi
    have := lookup_eq_some hios (List.mem_map_of_mem hi)
    simp [g, this]
  have hread := readMany (l.map fun i => (port i, n i)) (by simpa [comp_def] using hn) g
    (by
      intro io hio
      obtain ⟨i, hi, rfl⟩ := List.mem_map.1 hio
      rw [hg i hi, hlen i hi])
    (by
      intro a ha
      have ha : a ∉ ios.map Prod.fst := by simpa [ios, comp_def] using ha
      simp [g, lookup_eq_none ha])
  have hevents : (l.map fun i => (port i, n i)).map (fun io => LEv.inp io.1 (g io.1))
      = l.map fun i => LEv.inp (port i) (data i) := by
    rw [List.map_map]
    refine List.map_congr_left fun i hi => ?_
    simp only [comp_apply, hg i hi]
  exact ⟨g, hg, hevents ▸ hread⟩

omit [DecidableEq P] in
theorem write1 (a : π) (xs : List β) : Trace (Prog.write1 a xs) [.out a xs] () :=
  writeMany [(a, xs)] (by simp)

omit [DecidableEq P] in
theorem read1 {a : π} {n : Nat} {xs : List β} (h : xs.length = n) :
    Trace (Prog.read1 a n) [.inp a xs] xs := by
  have hr : Trace (Prog.readMany [(a, n)]) [.inp a xs] (update (fun _ => []) a xs) := by
    have := readMany [(a, n)] (by simp) (update (fun _ => []) a xs)
      (by simpa using h) (fun b hb => by simpa using update_of_ne (by simpa using hb) _ _)
    simpa using this
  have := hr.bind (f := fun g => Prog.ret (g a)) (.ret _)
  simpa [Prog.read1] using this

omit [DecidableEq P] in
/-- A counting loop that passes through the states `S 0, S 1, …`. -/
theorem loop {f : Nat → σ → Prog π β σ} {n : Nat} (S : Nat → σ) (es : Nat → List (LEv π β))
    (h : ∀ i, i < n → Trace (f i (S i)) (es i) (S (i + 1))) :
    Trace (Prog.loop f n (S 0)) ((List.range n).flatMap es) (S n) := by
  induction n with
  | zero => exact .ret _
  | succ n ih =>
      rw [List.range_succ, List.flatMap_append, Prog.loop]
      refine (ih fun i hi => h i (by omega)).bind ?_
      simpa using h n (by omega)

end Trace

/-! ## Schedules made of parts -/

section Lists

variable {ι τ : Type}

theorem flatMap_ite_eq [DecidableEq ι] {l : List ι} (hl : l.Nodup) {a : ι} (ha : a ∈ l)
    (F : ι → List τ) : (l.flatMap fun b => if b = a then F b else []) = F a := by
  induction l with
  | nil => cases ha
  | cons b l ih =>
      obtain ⟨hb, hl⟩ := List.nodup_cons.1 hl
      rw [List.flatMap_cons]
      by_cases hba : b = a
      · subst hba
        have hnil : (l.flatMap fun c => if c = b then F c else []) = [] := by
          refine List.flatMap_eq_nil_iff.2 fun c hc => ?_
          rw [if_neg (ne_of_mem_of_not_mem hc hb)]
        rw [hnil, if_pos rfl, List.append_nil]
      · rw [if_neg hba, List.nil_append]
        exact ih hl ((List.mem_cons.1 ha).resolve_left (Ne.symm hba))

/-- The pairs of a lexicographic walk that participant `r` is part of: first those with the
participants before it, then those with the participants after it, both in order. -/
theorem flatMap_pairs {n r : Nat} (hr : r < n) {E : Nat → Nat → List τ} {F H : Nat → List τ}
    (hH : ∀ a, a < r → E a r = H a) (hF : ∀ b, r < b → b < n → E r b = F b)
    (hE : ∀ a b, a < b → b < n → a ≠ r → b ≠ r → E a b = []) :
    ((List.range n).flatMap fun a => (List.range n).flatMap fun b => if a < b then E a b else [])
      = (List.range n).flatMap fun k => if k < r then H k else if r < k then F k else [] := by
  have hlow : ∀ a, a < r →
      ((List.range n).flatMap fun b => if a < b then E a b else []) = H a := by
    intro a ha
    have : ∀ b ∈ List.range n, (if a < b then E a b else []) = if b = r then H a else [] := by
      intro b hbn
      by_cases hb : b = r
      · subst hb
        simp [ha, hH a ha]
      · rw [if_neg hb]
        split_ifs with hab
        · exact hE a b hab (List.mem_range.1 hbn) (by omega) hb
        · rfl
    rw [List.flatMap_congr this, flatMap_ite_eq List.nodup_range (List.mem_range.2 hr)]
  have hhigh : ∀ a, r < a →
      ((List.range n).flatMap fun b => if a < b then E a b else []) = [] := by
    intro a ha
    refine List.flatMap_eq_nil_iff.2 fun b hbn => ?_
    split_ifs with hab
    · exact hE a b hab (List.mem_range.1 hbn) (by omega) (by omega)
    · rfl
  have hself : ((List.range n).flatMap fun b => if r < b then E r b else [])
      = (List.range n).flatMap fun b => if r < b then F b else [] := by
    refine List.flatMap_congr fun b hbn => ?_
    split_ifs with hb
    · exact hF b hb (List.mem_range.1 hbn)
    · rfl
  obtain ⟨m, rfl⟩ : ∃ m, n = r + 1 + m := ⟨n - (r + 1), by omega⟩
  have hsplit : ∀ Q : Nat → List τ, (List.range (r + 1 + m)).flatMap Q
      = (List.range r).flatMap Q ++ (Q r ++ (List.range m).flatMap fun i => Q (r + 1 + i)) := by
    intro Q
    simp [List.range_add, List.range_succ, List.flatMap_map]
  have hbelow : ((List.range r).flatMap fun b => if r < b then F b else []) = [] := by
    refine List.flatMap_eq_nil_iff.2 fun b hb => ?_
    rw [if_neg (by have := List.mem_range.1 hb; omega)]
  rw [hsplit, hself, hsplit, hsplit, hbelow]
  have h₁ : ((List.range r).flatMap fun a =>
      (List.range (r + 1 + m)).flatMap fun b => if a < b then E a b else [])
      = (List.range r).flatMap fun k => if k < r then H k else if r < k then F k else [] := by
    refine List.flatMap_congr fun a ha => ?_
    rw [hlow a (List.mem_range.1 ha), if_pos (List.mem_range.1 ha)]
  have h₂ : ((List.range m).flatMap fun i =>
      (List.range (r + 1 + m)).flatMap fun b => if r + 1 + i < b then E (r + 1 + i) b else [])
      = [] :=
    List.flatMap_eq_nil_iff.2 fun i _ => hhigh _ (by omega)
  have h₃ : ((List.range m).flatMap fun i => if r < r + 1 + i then F (r + 1 + i) else [])
      = (List.range m).flatMap fun i => if r + 1 + i < r then H (r + 1 + i)
        else if r < r + 1 + i then F (r + 1 + i) else [] := by
    refine List.flatMap_congr fun i _ => ?_
    rw [if_pos (by omega), if_neg (by omega)]
  simp [h₁, h₂, h₃]

end Lists

omit [DecidableEq π] in
theorem view_flatMap {ι : Type} (N : Net P π) (p : P) (l : List ι) (G : ι → List (GEv π β)) :
    view N p (l.flatMap G) = l.flatMap fun i => view N p (G i) := by
  simp [view, List.flatMap_assoc]

namespace Sched

variable {N : Net P π} {G : List (GEv π β)}

omit [DecidableEq P] in
/-- Messages between different parties can be handed over in any order. -/
theorem of_msgs (h : ∀ e ∈ G, ∃ a xs, e = .msg a xs ∧ N.owner a ≠ N.owner (N.peer a)) :
    Sched N (fun _ => []) G := by
  induction G with
  | nil => rfl
  | cons e G ih =>
      obtain ⟨a, xs, rfl, hne⟩ := h e (by simp)
      exact ⟨rfl, hne, ih fun e' he' => h e' (by simp [he'])⟩

omit [DecidableEq P] in
private theorem snds {d : π → List β} (as : List π) (has : as.Nodup)
    (hcap : ∀ a ∈ as, (d a).length ≤ N.cap a) {q : π → List β} (hq : ∀ a ∈ as, q a = [])
    (hG : Sched N (fun a => if a ∈ as then d a else q a) G) :
    Sched N q (as.map (fun a => .snd a (d a)) ++ G) := by
  induction as generalizing q with
  | nil => simpa using hG
  | cons a as ih =>
      obtain ⟨ha, has⟩ := List.nodup_cons.1 has
      refine ⟨hq a (by simp), hcap a (by simp), ih has (fun b hb => hcap b (by simp [hb])) ?_ ?_⟩
      · intro b hb
        rw [update_of_ne (ne_of_mem_of_not_mem hb ha)]
        exact hq b (by simp [hb])
      · convert hG using 2 with b
        by_cases hba : b = a
        · simp [hba, ha]
        · simp [hba]

omit [DecidableEq P] in
private theorem rcvs {d : π → List β} (as : List π) (has : as.Nodup) {q : π → List β}
    (hq : ∀ a ∈ as, q a = d a) (hG : Sched N (fun a => if a ∈ as then [] else q a) G) :
    Sched N q (as.map (fun a => .rcv a (d a)) ++ G) := by
  induction as generalizing q with
  | nil => simpa using hG
  | cons a as ih =>
      obtain ⟨ha, has⟩ := List.nodup_cons.1 has
      refine ⟨hq a (by simp), ih has ?_ ?_⟩
      · intro b hb
        rw [update_of_ne (ne_of_mem_of_not_mem hb ha)]
        exact hq b (by simp [hb])
      · convert hG using 2 with b
        by_cases hba : b = a
        · simp [hba, ha]
        · simp [hba]

omit [DecidableEq P] in
/-- Blocks that fit in their links are all sent, then all received, each in some order. -/
theorem bulk {d : π → List β} (as bs : List π) (has : as.Nodup) (hbs : bs.Nodup)
    (hmem : ∀ a, a ∈ as ↔ a ∈ bs) (hcap : ∀ a ∈ as, (d a).length ≤ N.cap a)
    (hG : Sched N (fun _ => []) G) :
    Sched N (fun _ => [])
      (as.map (fun a => .snd a (d a)) ++ (bs.map (fun a => .rcv a (d a)) ++ G)) := by
  refine snds as has hcap (fun _ _ => rfl)
    (rcvs bs hbs (fun a ha => by simp [(hmem a).2 ha]) ?_)
  convert hG using 2 with a
  by_cases ha : a ∈ bs <;> simp [ha, hmem a]

end Sched

end Lib
end PrefillOpt
