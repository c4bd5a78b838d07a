import PrefillOpt.Lib.Calls

/-!
# History — the calls a program has made

`Prog.logged` is the program that keeps every call it makes with the blocks it handed over or
took.  It makes the same moves (`Config.logged`, `Reach.logged_iff`), so what holds of the
histories holds of the runs of the program itself.

If the parties can play a schedule, the blocks taken from a port are, one by one, the blocks
written to the port at the other end (`Sched.completes_logged`).
-/

namespace PrefillOpt
namespace Lib

open Function

variable {P π β ρ τ : Type} [DecidableEq P] [DecidableEq π]

/-! ## The result of a program -/

namespace Prog

/-- Apply a function to the result. -/
def map (f : ρ → τ) : Prog π β ρ → Prog π β τ
  | ret r => ret (f r)
  | write d k => write d (k.map f)
  | read n k => read n fun g => (k g).map f

omit [DecidableEq π] in
theorem map_map {υ : Type} (f : ρ → τ) (g : τ → υ) (p : Prog π β ρ) :
    (p.map f).map g = p.map (g ∘ f) := by
  induction p with
  | ret r => rfl
  | write d k ih => simp only [map, ih]
  | read n k ih => simp only [map, ih]

end Prog

theorem Local.map {p q : Prog π β ρ} {e : Ev π β} (h : Local p e q) (f : ρ → τ) :
    Local (p.map f) e (q.map f) := by
  cases h with
  | wrote h => exact .wrote h
  | readAll h => exact .readAll h
  | out h => exact .out h
  | inp x h => exact .inp x h

theorem Local.map_inv {p : Prog π β ρ} {f : ρ → τ} {e : Ev π β} {q' : Prog π β τ}
    (h : Local (p.map f) e q') : ∃ q, q' = q.map f ∧ Local p e q := by
  cases p with
  | ret r => cases h
  | write d k =>
      cases h with
      | wrote h => exact ⟨k, rfl, .wrote h⟩
      | out h => exact ⟨_, rfl, .out h⟩
  | read n k =>
      cases h with
      | readAll h => exact ⟨_, rfl, .readAll h⟩
      | inp x h => exact ⟨_, rfl, .inp x h⟩

/-! ## The result of a system -/

namespace Config

def map (f : ρ → τ) (c : Config P π β ρ) : Config P π β τ where
  proc := Prog.map f ∘ c.proc
  sent := c.sent

end Config

section Map

variable {N : Net P π} {f : ρ → τ} {c d : Config P π β ρ}

theorem Step.map (f : ρ → τ) (h : Step N c d) : Step N (c.map f) (d.map f) := by
  cases h with
  | tau p h =>
      simp only [Config.map, comp_update]
      exact .tau p (h.map f)
  | push a h hcap =>
      simp only [Config.map, comp_update]
      exact .push a (h.map f) hcap
  | pop a h hq =>
      simp only [Config.map, comp_update]
      exact .pop a (h.map f) hq
  | meet a hs hr hcap hq =>
      simp only [Config.map, comp_update]
      exact .meet a (hs.map f) (hr.map f) hcap hq

theorem Step.map_inv {d' : Config P π β τ} (h : Step N (c.map f) d') :
    ∃ d, d' = d.map f ∧ Step N c d := by
  cases h with
  | tau p h =>
      rcases Local.map_inv h with ⟨q, rfl, hq⟩
      refine ⟨_, ?_, .tau p hq⟩
      simp only [Config.map, comp_update]
  | push a h hcap =>
      rcases Local.map_inv h with ⟨q, rfl, hq⟩
      refine ⟨_, ?_, .push a hq hcap⟩
      simp only [Config.map, comp_update]
  | pop a h hsent =>
      rcases Local.map_inv h with ⟨q, rfl, hq⟩
      refine ⟨_, ?_, .pop a hq hsent⟩
      simp only [Config.map, comp_update]
  | meet a hs hr hcap hsent =>
      rcases Local.map_inv hs with ⟨q, rfl, hq⟩
      rcases Local.map_inv hr with ⟨r, rfl, hr'⟩
      refine ⟨_, ?_, .meet a hq hr' hcap hsent⟩
      simp only [Config.map, comp_update]

theorem Reach.map (f : ρ → τ) (h : Reach N c d) : Reach N (c.map f) (d.map f) := by
  induction h with
  | refl => exact .refl
  | tail _ hstep ih => exact ih.tail (hstep.map f)

theorem Reach.map_inv {d' : Config P π β τ} (h : Reach N (c.map f) d') :
    ∃ d, d' = d.map f ∧ Reach N c d := by
  induction h with
  | refl => exact ⟨c, rfl, .refl⟩
  | tail _ hstep ih =>
      rcases ih with ⟨d, rfl, hreach⟩
      rcases hstep.map_inv with ⟨e, rfl, hlast⟩
      exact ⟨e, rfl, hreach.tail hlast⟩

end Map

/-! ## Keeping the calls -/

/-- A call that has returned, with what it handed to or took from each port. -/
inductive Call (π β : Type) where
  | wrote (d : π → List β)
  | got (g : π → List β)

/-- The program with the calls it has made. -/
def Prog.logged : Prog π β ρ → Prog π β (ρ × List (Call π β))
  | .ret r => .ret (r, [])
  | .write d k => .write d (k.logged.map fun s => (s.1, .wrote d :: s.2))
  | .read n k => .read n fun g => (k g).logged.map fun s => (s.1, .got g :: s.2)

omit [DecidableEq π] in
theorem Prog.logged_map_fst (p : Prog π β ρ) : p.logged.map Prod.fst = p := by
  induction p with
  | ret r => rfl
  | write d k ih =>
      have hfst : (Prod.fst ∘ fun s : ρ × List (Call π β) => (s.1, Call.wrote d :: s.2))
          = Prod.fst := rfl
      simp only [Prog.logged, Prog.map, Prog.map_map, hfst, ih]
  | read n k ih =>
      have hfst : ∀ g, (Prod.fst ∘ fun s : ρ × List (Call π β) => (s.1, Call.got g :: s.2))
          = Prod.fst := fun _ => rfl
      simp only [Prog.logged, Prog.map, Prog.map_map, hfst, ih]

namespace Config

/-- The system whose parties keep their calls. -/
def logged (c : Config P π β ρ) : Config P π β (ρ × List (Call π β)) where
  proc p := (c.proc p).logged
  sent := c.sent

omit [DecidableEq P] [DecidableEq π] in
theorem logged_map_fst (c : Config P π β ρ) : c.logged.map Prod.fst = c := by
  ext1
  · funext p
    exact (c.proc p).logged_map_fst
  · rfl

/-- The calls with which a party has returned. -/
def history (d : Config P π β (ρ × List (Call π β))) (p : P) : List (Call π β) :=
  match d.proc p with
  | .ret s => s.2
  | _ => []

end Config

/-! ## Blocks -/

/-- A block, unless it is empty. -/
def blocks : List β → List (List β)
  | [] => []
  | x :: xs => [x :: xs]

@[simp] theorem blocks_flatten (xs : List β) : (blocks xs).flatten = xs := by
  cases xs with
  | nil => rfl
  | cons x xs => simp [blocks]

theorem blocks_length (xs : List β) : (blocks xs).length = if xs.length = 0 then 0 else 1 := by
  cases xs with
  | nil => rfl
  | cons x xs => rfl

theorem eq_of_mem_blocks {xs ys : List β} (h : ys ∈ blocks xs) : ys = xs := by
  cases xs with
  | nil => cases h
  | cons x xs => exact List.mem_singleton.mp h

namespace Call

/-- The blocks written to a port, call by call. -/
def written (a : π) (h : List (Call π β)) : List (List β) :=
  h.flatMap fun
    | .wrote d => blocks (d a)
    | .got _ => []

/-- The blocks taken from a port, call by call. -/
def taken (a : π) (h : List (Call π β)) : List (List β) :=
  h.flatMap fun
    | .wrote _ => []
    | .got g => blocks (g a)

end Call

namespace LEv

/-- The blocks of the moves of one party that leave through a port. -/
def outs (a : π) (es : List (LEv π β)) : List (List β) :=
  es.flatMap fun
    | .out b xs => if b = a then blocks xs else []
    | .inp _ _ => []

def inps (a : π) (es : List (LEv π β)) : List (List β) :=
  es.flatMap fun
    | .out _ _ => []
    | .inp b xs => if b = a then blocks xs else []

theorem outs_append (a : π) (es es' : List (LEv π β)) :
    outs a (es ++ es') = outs a es ++ outs a es' :=
  List.flatMap_append

theorem outs_flatMap {ι : Type} (a : π) (l : List ι) (es : ι → List (LEv π β)) :
    outs a (l.flatMap es) = l.flatMap fun i => outs a (es i) :=
  List.flatMap_assoc

theorem outs_map_out (a b : π) (ms : List (List β)) :
    outs a (ms.map (.out b)) = if b = a then ms.flatMap blocks else [] := by
  rw [outs, List.flatMap_map]
  split_ifs with h
  · simp only [h, if_true]
  · simp only [h, if_false, List.flatMap_eq_nil_iff, implies_true]

theorem outs_map_inp (a b : π) (ms : List (List β)) : outs a (ms.map (.inp b)) = [] := by
  rw [outs, List.flatMap_map, List.flatMap_eq_nil_iff]
  exact fun _ _ => rfl

end LEv

/-! ## One party -/

section Trace

variable {d : π → List β} {k : Prog π β ρ} {es : List (LEv π β)} {r : ρ}

theorem Trace.map (h : Trace k es r) (f : ρ → τ) : Trace (k.map f) es (f r) := by
  induction h with
  | ret r => exact .ret _
  | wrote h _ ih => exact .wrote h ih
  | readAll h _ ih => exact .readAll h ih
  | out a _ ih => exact .out a ih
  | inp a xs hn _ ih => exact .inp a xs hn ih

/-- The moves that serve a write are its blocks, and any program may go on after them. -/
theorem Trace.write_inv (h : Trace (.write d k) es r) :
    ∃ es₁ es₂, es = es₁ ++ es₂ ∧ Trace k es₂ r ∧
      (∀ a, LEv.outs a es₁ = blocks (d a) ∧ LEv.inps a es₁ = []) ∧
      ∀ {τ : Type} (k' : Prog π β τ) (t : τ), Trace k' es₂ t → Trace (.write d k') es t := by
  generalize hp : Prog.write d k = p at h
  induction h generalizing d with
  | ret r => cases hp
  | @wrote d' _ es r h ht _ =>
      cases hp
      refine ⟨[], es, rfl, ht, fun a => ?_, fun k' t ht' => .wrote h ht'⟩
      simp [LEv.outs, LEv.inps, h a, blocks]
  | readAll _ _ _ => cases hp
  | @out d' _ es r a ht ih =>
      cases hp
      rcases ih rfl with ⟨es₁, es₂, rfl, hk, hserved, hany⟩
      refine ⟨.out a (d' a) :: es₁, es₂, rfl, hk, fun b => ?_, fun k' t ht' =>
        .out a (hany k' t ht')⟩
      rcases eq_or_ne a b with rfl | hne
      · have hrest := (hserved a).1
        rw [update_self] at hrest
        simp only [LEv.outs, LEv.inps, List.flatMap_cons, if_true] at hrest ⊢
        rw [hrest]
        exact ⟨by simp [blocks], (hserved a).2⟩
      · have hrest := (hserved b).1
        rw [update_of_ne hne.symm] at hrest
        simp only [LEv.outs, LEv.inps, List.flatMap_cons, if_neg hne] at hrest ⊢
        exact ⟨hrest, (hserved b).2⟩
  | inp _ _ _ _ _ => cases hp

/-- The moves that serve a read are the blocks it returns. -/
theorem Trace.read_inv {n : π → Nat} {k : (π → List β) → Prog π β ρ}
    (h : Trace (.read n k) es r) :
    ∃ g es₁ es₂, es = es₁ ++ es₂ ∧ Trace (k g) es₂ r ∧
      (∀ a, LEv.inps a es₁ = blocks (g a) ∧ LEv.outs a es₁ = [] ∧ (g a).length = n a) ∧
      ∀ {τ : Type} (k' : (π → List β) → Prog π β τ) (t : τ), Trace (k' g) es₂ t →
        Trace (.read n k') es t := by
  generalize hp : Prog.read n k = p at h
  induction h generalizing n k with
  | ret r => cases hp
  | wrote _ _ _ => cases hp
  | @readAll n' _ es r h ht _ =>
      cases hp
      refine ⟨_, [], es, rfl, ht, fun a => ?_, fun k' t ht' => .readAll h ht'⟩
      simp [LEv.outs, LEv.inps, h a, blocks]
  | out _ _ _ => cases hp
  | @inp n' _ es r a xs hn ht ih =>
      cases hp
      rcases ih rfl with ⟨g, es₁, es₂, rfl, hk, hserved, hany⟩
      -- the port has been served, so nothing more is read from it
      have hnil : g a = [] := by
        have hlen := (hserved a).2.2
        rw [update_self] at hlen
        exact List.length_eq_zero_iff.mp hlen
      refine ⟨update g a (xs ++ g a), .inp a xs :: es₁, es₂, rfl, hk, fun b => ?_, fun k' t ht' =>
        .inp a xs hn (hany (fun g => k' (update g a (xs ++ g a))) t ht')⟩
      rcases eq_or_ne a b with rfl | hne
      · have hrest := (hserved a).1
        simp only [LEv.outs, LEv.inps, List.flatMap_cons, if_true, update_self, hnil,
          List.append_nil] at hrest ⊢
        rw [hrest]
        exact ⟨by simp [blocks], (hserved a).2.1, hn.symm⟩
      · have hrest := hserved b
        rw [update_of_ne hne.symm] at hrest
        simp only [LEv.outs, LEv.inps, List.flatMap_cons, if_neg hne, update_of_ne hne.symm]
          at hrest ⊢
        exact hrest

/-- A party that makes the moves of a schedule has made the calls these moves serve. -/
theorem Trace.logged {p : Prog π β ρ} (h : Trace p es r) :
    ∃ calls, Trace p.logged es (r, calls) ∧
      ∀ a, Call.written a calls = LEv.outs a es ∧ Call.taken a calls = LEv.inps a es := by
  induction p generalizing es with
  | ret r' =>
      rcases Trace.ret_iff.mp h with ⟨rfl, rfl⟩
      exact ⟨[], .ret _, fun a => ⟨rfl, rfl⟩⟩
  | write d k ih =>
      rcases h.write_inv with ⟨es₁, es₂, rfl, hk, hserved, hany⟩
      rcases ih hk with ⟨calls, htrace, hcalls⟩
      refine ⟨.wrote d :: calls, hany _ _ (htrace.map _), fun a => ?_⟩
      rcases hserved a with ⟨hout, hinp⟩
      rcases hcalls a with ⟨hw, ht⟩
      simp only [LEv.outs, LEv.inps, Call.written, Call.taken, List.flatMap_cons,
        List.flatMap_append] at hout hinp hw ht ⊢
      rw [hout, hinp, hw, ht]
      exact ⟨rfl, rfl⟩
  | read n k ih =>
      rcases h.read_inv with ⟨g, es₁, es₂, rfl, hk, hserved, hany⟩
      rcases ih g hk with ⟨calls, htrace, hcalls⟩
      refine ⟨.got g :: calls, hany _ _ (htrace.map _), fun a => ?_⟩
      rcases hserved a with ⟨hinp, hout, -⟩
      rcases hcalls a with ⟨hw, ht⟩
      simp only [LEv.outs, LEv.inps, Call.written, Call.taken, List.flatMap_cons,
        List.flatMap_append] at hout hinp hw ht ⊢
      rw [hout, hinp, hw, ht]
      exact ⟨rfl, rfl⟩

end Trace

/-! ## What arrives is what was sent -/

section Schedules

variable {N : Net P π}

/-- In a schedule the links carry as they do, the blocks that arrive at a port are those already
under way and those that leave the port at the other end. -/
theorem Sched.inps_eq {q : π → List β} {G : List (GEv π β)} (hG : Sched N q G) (a : π) :
    LEv.inps (N.peer a) (view N (N.owner (N.peer a)) G)
      = blocks (q a) ++ LEv.outs a (view N (N.owner a) G) := by
  have hpeer : ∀ {b : π}, N.peer b = N.peer a → b = a := fun {b} h => by
    rw [← N.peer_peer b, h, N.peer_peer]
  induction G generalizing q with
  | nil =>
      obtain rfl : q = fun _ => [] := hG
      rfl
  | cons e G ih =>
      simp only [view_cons, LEv.inps, LEv.outs, List.flatMap_append] at ih ⊢
      cases e with
      | msg b xs =>
          rcases hG with ⟨hq, hne, hrest⟩
          rw [ih hrest]
          rcases eq_or_ne b a with rfl | hba
          · simp [GEv.view, hne, hq, blocks]
          · have hpba : N.peer b ≠ N.peer a := fun h => hba (hpeer h)
            simp only [GEv.view]
            split_ifs <;> simp [hba, hpba]
      | snd b xs =>
          rcases hG with ⟨hq, -, hrest⟩
          rw [ih hrest]
          rcases eq_or_ne b a with rfl | hba
          · simp only [GEv.view]
            split_ifs <;> simp [hq, blocks]
          · simp only [GEv.view, update_of_ne hba.symm]
            split_ifs <;> simp [hba]
      | rcv b xs =>
          rcases hG with ⟨rfl, hrest⟩
          rw [ih hrest]
          rcases eq_or_ne b a with rfl | hba
          · simp only [GEv.view]
            split_ifs <;> simp [blocks]
          · have hpba : N.peer b ≠ N.peer a := fun h => hba (hpeer h)
            simp only [GEv.view, update_of_ne hba.symm]
            split_ifs <;> simp [hpba]

/-- With one schedule that every party can play, every run ends with histories in which each port
has taken, block by block, what was written to the port at the other end. -/
theorem Plays.completes_logged {c : Config P π β ρ} {G : List (GEv π β)} {ps : List P}
    {r : P → ρ} (h : Plays N c G ps r) (hempty : ∀ a, c.sent a = []) :
    ∃ calls : P → List (Call π β), Completes N c.logged (fun p => (r p, calls p)) ∧
      ∀ a, Call.written a (calls (N.owner a)) = LEv.outs a (view N (N.owner a) G) ∧
        Call.taken (N.peer a) (calls (N.owner (N.peer a)))
          = Call.written a (calls (N.owner a)) := by
  choose calls hcalls using fun p => (h.trace p).logged
  refine ⟨calls, Sched.completes h.sched ps (fun p hp => ?_) fun p => (hcalls p).1, fun a => ?_⟩
  · have hlog := (hcalls p).1
    simp only [Config.logged, h.idle p hp, Prog.logged] at hlog ⊢
    have hnil := (Trace.ret_iff.mp hlog).2
    rw [← hnil]
  · refine ⟨((hcalls _).2 a).1, ?_⟩
    rw [((hcalls _).2 _).2, ((hcalls _).2 a).1, h.sched.inps_eq a, hempty a]
    rfl

/-- The calls with which a party has returned. -/
theorem Completes.history_eq {c d : Config P π β (ρ × List (Call π β))} {r : P → ρ}
    {calls : P → List (Call π β)} (h : Completes N c fun p => (r p, calls p)) (hd : Reach N c d)
    (hfin : d.Final) (p : P) : d.history p = calls p := by
  rw [h.eq_done hd hfin]
  rfl

end Schedules

end Lib
end PrefillOpt
