import PrefillOpt.Lib.Confluence

/-!
# Schedule — completing a system from a list of whole messages

To show that a system completes it is enough to write down *one* order of its messages.
A schedule is a list of global events over whole messages:

- `msg a xs` : the owner of `a` hands `xs` over while the other end is reading;
- `snd a xs` : the owner of `a` leaves `xs` in the link, which must have room for it;
- `rcv a xs` : the other end takes `xs` out of the link.

Each party is checked on its own (`Trace`): its program, fed with the messages the schedule
gives it, makes exactly the moves the schedule says and returns.  `Sched.reach` puts the
parties together, and with `Reach.to_final` the outcome is that of every interleaving.
-/

namespace PrefillOpt
namespace Lib

open Function

variable {P π β ρ τ : Type} [DecidableEq P] [DecidableEq π]

/-! ## One party -/

/-- A whole message as one party sees it. -/
inductive LEv (π β : Type) where
  | out (a : π) (xs : List β)
  | inp (a : π) (xs : List β)

/-- `Trace p es r` : the program `p` makes the moves `es` and returns `r`. -/
inductive Trace : Prog π β ρ → List (LEv π β) → ρ → Prop where
  | ret (r : ρ) : Trace (.ret r) [] r
  | wrote {d : π → List β} {k : Prog π β ρ} {es : List (LEv π β)} {r : ρ}
      (h : ∀ a, d a = []) (ht : Trace k es r) : Trace (.write d k) es r
  | readAll {n : π → Nat} {k : (π → List β) → Prog π β ρ} {es : List (LEv π β)} {r : ρ}
      (h : ∀ a, n a = 0) (ht : Trace (k fun _ => []) es r) : Trace (.read n k) es r
  | out {d : π → List β} {k : Prog π β ρ} {es : List (LEv π β)} {r : ρ} (a : π)
      (ht : Trace (.write (update d a []) k) es r) :
      Trace (.write d k) (.out a (d a) :: es) r
  | inp {n : π → Nat} {k : (π → List β) → Prog π β ρ} {es : List (LEv π β)} {r : ρ} (a : π)
      (xs : List β) (hn : n a = xs.length)
      (ht : Trace (.read (update n a 0) fun g => k (update g a (xs ++ g a))) es r) :
      Trace (.read n k) (.inp a xs :: es) r

namespace Trace

theorem bind {p : Prog π β ρ} {es : List (LEv π β)} {r : ρ} (hp : Trace p es r)
    {f : ρ → Prog π β τ} {l : List (LEv π β)} {t : τ} (hf : Trace (f r) l t) :
    Trace (p >>= f) (es ++ l) t := by
  induction hp with
  | ret r => exact hf
  | wrote h _ ih => exact .wrote h (ih hf)
  | readAll h _ ih => exact .readAll h (ih hf)
  | out a _ ih => exact .out a (ih hf)
  | inp a xs hn _ ih => exact .inp a xs hn (ih hf)

theorem ret_iff {r r' : ρ} {es : List (LEv π β)} :
    Trace (.ret r : Prog π β ρ) es r' ↔ es = [] ∧ r' = r := by
  constructor
  · intro h
    cases h
    exact ⟨rfl, rfl⟩
  · rintro ⟨rfl, rfl⟩
    exact .ret _

/-- A write on the ports `as`, served in the order of the list. -/
theorem writes {d : π → List β} {k : Prog π β ρ} {es : List (LEv π β)} {r : ρ} (as : List π)
    (has : as.Nodup) (hd : ∀ a, a ∉ as → d a = []) (ht : Trace k es r) :
    Trace (.write d k) (as.map (fun a => .out a (d a)) ++ es) r := by
  induction as generalizing d with
  | nil => exact .wrote (fun a => hd a (by simp)) ht
  | cons a as ih =>
      obtain ⟨ha, has⟩ := List.nodup_cons.1 has
      have htail : as.map (fun b => LEv.out b (d b))
          = as.map (fun b => LEv.out b (update d a [] b)) := by
        refine List.map_congr_left fun b hb => ?_
        rw [update_of_ne (ne_of_mem_of_not_mem hb ha)]
      rw [List.map_cons, List.cons_append, htail]
      refine .out a (ih has fun b hb => ?_)
      by_cases hba : b = a
      · simp [hba]
      · rw [update_of_ne hba]
        exact hd b (by simp [hba, hb])

/-- A read on the ports `as`, served in the order of the list with the data `g`. -/
theorem reads {n : π → Nat} {k : (π → List β) → Prog π β ρ} {es : List (LEv π β)} {r : ρ}
    (as : List π) (has : as.Nodup) (g : π → List β) (hg : ∀ a, a ∈ as → n a = (g a).length)
    (hn : ∀ a, a ∉ as → n a = 0) (hg' : ∀ a, a ∉ as → g a = []) (ht : Trace (k g) es r) :
    Trace (.read n k) (as.map (fun a => .inp a (g a)) ++ es) r := by
  induction as generalizing n k g with
  | nil =>
      have : g = fun _ => [] := funext fun a => hg' a (by simp)
      exact .readAll (fun a => hn a (by simp)) (this ▸ ht)
  | cons a as ih =>
      obtain ⟨ha, has⟩ := List.nodup_cons.1 has
      have htail : as.map (fun b => LEv.inp b (g b))
          = as.map (fun b => LEv.inp b (update g a [] b)) := by
        refine List.map_congr_left fun b hb => ?_
        rw [update_of_ne (ne_of_mem_of_not_mem hb ha)]
      rw [List.map_cons, List.cons_append, htail]
      refine .inp a (g a) (hg a (by simp)) (ih has (update g a []) ?_ ?_ ?_ ?_)
      · intro b hb
        rw [update_of_ne (ne_of_mem_of_not_mem hb ha), update_of_ne (ne_of_mem_of_not_mem hb ha)]
        exact hg b (by simp [hb])
      · intro b hb
        by_cases hba : b = a
        · simp [hba]
        · rw [update_of_ne hba]
          exact hn b (by simp [hba, hb])
      · intro b hb
        by_cases hba : b = a
        · simp [hba]
        · rw [update_of_ne hba]
          exact hg' b (by simp [hba, hb])
      · simpa using ht

/-- Returning from served calls. -/
abbrev Taus : Prog π β ρ → Prog π β ρ → Prop :=
  Relation.ReflTransGen fun p q => Local p .tau q

theorem nil_inv {p : Prog π β ρ} {r : ρ} (h : Trace p [] r) : Taus p (.ret r) := by
  generalize hes : ([] : List (LEv π β)) = es at h
  induction h with
  | ret r => exact .refl
  | wrote h _ ih => exact .head (.wrote h) (ih hes)
  | readAll h _ ih => exact .head (.readAll h) (ih hes)
  | out a _ _ => cases hes
  | inp a xs _ _ _ => cases hes

theorem out_inv {p : Prog π β ρ} {a : π} {xs : List β} {es : List (LEv π β)} {r : ρ}
    (h : Trace p (.out a xs :: es) r) :
    ∃ d k, Taus p (.write d k) ∧ d a = xs ∧ Trace (.write (update d a []) k) es r := by
  generalize hes : LEv.out a xs :: es = es' at h
  induction h with
  | ret r => cases hes
  | wrote h _ ih =>
      obtain ⟨d, k, hp, hd⟩ := ih hes
      exact ⟨d, k, .head (.wrote h) hp, hd⟩
  | readAll h _ ih =>
      obtain ⟨d, k, hp, hd⟩ := ih hes
      exact ⟨d, k, .head (.readAll h) hp, hd⟩
  | out b ht _ =>
      cases hes
      exact ⟨_, _, .refl, rfl, ht⟩
  | inp b ys _ _ _ => cases hes

theorem inp_inv {p : Prog π β ρ} {a : π} {xs : List β} {es : List (LEv π β)} {r : ρ}
    (h : Trace p (.inp a xs :: es) r) :
    ∃ n k, Taus p (.read n k) ∧ n a = xs.length ∧
      Trace (.read (update n a 0) fun g => k (update g a (xs ++ g a))) es r := by
  generalize hes : LEv.inp a xs :: es = es' at h
  induction h with
  | ret r => cases hes
  | wrote h _ ih =>
      obtain ⟨n, k, hp, hn⟩ := ih hes
      exact ⟨n, k, .head (.wrote h) hp, hn⟩
  | readAll h _ ih =>
      obtain ⟨n, k, hp, hn⟩ := ih hes
      exact ⟨n, k, .head (.readAll h) hp, hn⟩
  | out b _ _ => cases hes
  | inp b ys hn ht _ =>
      cases hes
      exact ⟨_, _, .refl, hn, ht⟩

end Trace

/-! ## Moving whole messages -/

section Moves

variable {N : Net P π} {c : Config P π β ρ}

theorem reach_taus {p : P} {q : Prog π β ρ} (h : Trace.Taus (c.proc p) q) :
    Reach N c ⟨update c.proc p q, c.sent⟩ := by
  induction h with
  | refl => simpa using (Relation.ReflTransGen.refl : Reach N c c)
  | tail _ hq ih =>
      refine ih.tail ?_
      simpa using Step.tau (N := N) (c := ⟨update c.proc p _, c.sent⟩) p (by simpa using hq)

theorem reach_push {a : π} {d : π → List β} {k : Prog π β ρ}
    (hp : c.proc (N.owner a) = .write d k)
    (hcap : (c.sent a).length + (d a).length ≤ N.cap a) :
    Reach N c ⟨update c.proc (N.owner a) (.write (update d a []) k),
      update c.sent a (c.sent a ++ d a)⟩ := by
  generalize hxs : d a = xs at hcap ⊢
  induction xs generalizing c d with
  | nil =>
      have hself : c = ⟨update c.proc (N.owner a) (.write (update d a []) k),
          update c.sent a (c.sent a ++ [])⟩ := by
        ext1
        · rw [← hxs, update_eq_self, ← hp, update_eq_self]
        · simp
      rw [← hself]
  | cons x xs ih =>
      have hstep : Step N c ⟨update c.proc (N.owner a) (.write (update d a xs) k),
          update c.sent a (c.sent a ++ [x])⟩ :=
        .push a (hp ▸ .out hxs) (by simp at hcap; omega)
      refine .head hstep ?_
      have hrest := ih (c := ⟨update c.proc (N.owner a) (.write (update d a xs) k),
        update c.sent a (c.sent a ++ [x])⟩) (d := update d a xs) (by simp) (by simp)
        (by simp at hcap ⊢; omega)
      simpa using hrest

theorem reach_pop {a : π} {n : π → Nat} {k : (π → List β) → Prog π β ρ} {xs : List β}
    (ys : List β)
    (hp : c.proc (N.owner (N.peer a)) = .read n k) (hn : n (N.peer a) = xs.length)
    (hq : c.sent a = xs ++ ys) :
    Reach N c ⟨update c.proc (N.owner (N.peer a)) (.read (update n (N.peer a) 0)
      fun g => k (update g (N.peer a) (xs ++ g (N.peer a)))), update c.sent a ys⟩ := by
  induction xs generalizing c n k with
  | nil =>
      have hself : c = ⟨update c.proc (N.owner (N.peer a)) (.read (update n (N.peer a) 0)
          fun g => k (update g (N.peer a) ([] ++ g (N.peer a)))), update c.sent a ys⟩ := by
        have hn0 : update n (N.peer a) 0 = n := by
          rw [← show n (N.peer a) = 0 from hn, update_eq_self]
        ext1
        · simp [hn0, ← hp]
        · simp [show ys = c.sent a from hq.symm]
      rw [← hself]
  | cons x xs ih =>
      have hstep : Step N c ⟨update c.proc (N.owner (N.peer a))
          (.read (update n (N.peer a) xs.length)
            fun g => k (update g (N.peer a) (x :: g (N.peer a)))),
          update c.sent a (xs ++ ys)⟩ :=
        .pop a (hp ▸ .inp x hn) hq
      refine .head hstep ?_
      have hrest := ih (c := ⟨update c.proc (N.owner (N.peer a))
        (.read (update n (N.peer a) xs.length)
          fun g => k (update g (N.peer a) (x :: g (N.peer a)))),
        update c.sent a (xs ++ ys)⟩) (update_self ..) (by simp) (by simp)
      simpa using hrest

theorem reach_msg {a : π} {d : π → List β} {k : Prog π β ρ} {n : π → Nat}
    {f : (π → List β) → Prog π β ρ} (hne : N.owner a ≠ N.owner (N.peer a))
    (hp : c.proc (N.owner a) = .write d k)
    (hr : c.proc (N.owner (N.peer a)) = .read n f)
    (hn : n (N.peer a) = (d a).length) (hq : c.sent a = []) :
    Reach N c ⟨update (update c.proc (N.owner a) (.write (update d a []) k))
      (N.owner (N.peer a)) (.read (update n (N.peer a) 0)
        fun g => f (update g (N.peer a) (d a ++ g (N.peer a)))), c.sent⟩ := by
  generalize hxs : d a = xs at hn ⊢
  induction xs generalizing c d n f with
  | nil =>
      have hself : c = ⟨update (update c.proc (N.owner a) (.write (update d a []) k))
          (N.owner (N.peer a)) (.read (update n (N.peer a) 0)
            fun g => f (update g (N.peer a) ([] ++ g (N.peer a)))), c.sent⟩ := by
        have hn0 : update n (N.peer a) 0 = n := by
          rw [← show n (N.peer a) = 0 from hn, update_eq_self]
        have hd0 : update d a [] = d := by
          rw [← hxs, update_eq_self]
        ext1
        · rw [hd0, ← hp, update_eq_self]
          simp [hn0, ← hr]
        · rfl
      rw [← hself]
  | cons x xs ih =>
      -- one cell crosses the link: through the buffer if there is one, else hand to hand
      have hcell : Reach N c ⟨update (update c.proc (N.owner a) (.write (update d a xs) k))
          (N.owner (N.peer a)) (.read (update n (N.peer a) xs.length)
            fun g => f (update g (N.peer a) (x :: g (N.peer a)))), c.sent⟩ := by
        have hout : Local (c.proc (N.owner a)) (.out a x) (.write (update d a xs) k) :=
          hp ▸ .out hxs
        have hinp : Local (c.proc (N.owner (N.peer a))) (.inp (N.peer a) x)
            (.read (update n (N.peer a) xs.length)
              fun g => f (update g (N.peer a) (x :: g (N.peer a)))) :=
          hr ▸ .inp x hn
        by_cases hcap : N.cap a = 0
        · exact .single (.meet a hout hinp hcap hq)
        · have h₁ : Step N c _ := .push a hout (by simp [hq]; omega)
          have h₂ := Step.pop (N := N) (c := ⟨update c.proc (N.owner a)
            (.write (update d a xs) k), update c.sent a (c.sent a ++ [x])⟩) a
            (hinp.of_update hne.symm)
            (show update c.sent a (c.sent a ++ [x]) a = x :: [] by simp [hq])
          refine (Relation.ReflTransGen.single h₁).tail ?_
          simpa [← hq] using h₂
      refine hcell.trans ?_
      have hrest := ih (c := ⟨update (update c.proc (N.owner a) (.write (update d a xs) k))
        (N.owner (N.peer a)) (.read (update n (N.peer a) xs.length)
          fun g => f (update g (N.peer a) (x :: g (N.peer a)))), c.sent⟩)
        (d := update d a xs) (by simp [hne]) (update_self ..) hq (by simp) (by simp)
      simpa [update_comm hne] using hrest

end Moves

/-! ## Schedules -/

/-- Party `p` has returned `r p`, and no cell is left in a link. -/
def Config.done (r : P → ρ) : Config P π β ρ where
  proc p := .ret (r p)
  sent _ := []

/-- Every run from `c` is finite, and wherever it stands it can be continued until party `p` has
returned `r p` and every link is empty. -/
structure Completes (N : Net P π) (c : Config P π β ρ) (r : P → ρ) : Prop where
  reach : ∀ d, Reach N c d → Reach N d (.done r)
  finite : Acc (fun x y => Step N y x) c

namespace Completes

variable {N : Net P π} {c d : Config P π β ρ} {r : P → ρ}

omit [DecidableEq P] [DecidableEq π] in
theorem done_final (r : P → ρ) : (Config.done r : Config P π β ρ).Final :=
  fun p => ⟨r p, rfl⟩

theorem of_reach (h : Reach N c (.done r)) : Completes N c r :=
  ⟨fun _ hd => h.to_final (done_final r) hd, h.acc_of_final (done_final r)⟩

theorem reach_done (h : Completes N c r) : Reach N c (.done r) :=
  h.reach c .refl

/-- Whatever the interleaving, a run that has ended has ended in `Config.done r`. -/
theorem eq_done (h : Completes N c r) (hd : Reach N c d) (hfin : d.Final) : d = .done r :=
  h.reach_done.final_unique (done_final r) hd hfin

/-- Whatever the interleaving, a run that cannot go on has ended. -/
theorem final_of_stuck (h : Completes N c r) (hd : Reach N c d) (hs : Stuck N d) : d.Final :=
  h.reach_done.final_of_stuck (done_final r) hd hs

end Completes

/-- A whole message as the system sees it, named by the port it leaves from. -/
inductive GEv (π β : Type) where
  | msg (a : π) (xs : List β)
  | snd (a : π) (xs : List β)
  | rcv (a : π) (xs : List β)

/-- The part of one global event that the party `p` takes. -/
def GEv.view (N : Net P π) (p : P) : GEv π β → List (LEv π β)
  | .msg a xs =>
      if N.owner a = p then [.out a xs]
      else if N.owner (N.peer a) = p then [.inp (N.peer a) xs] else []
  | .snd a xs => if N.owner a = p then [.out a xs] else []
  | .rcv a xs => if N.owner (N.peer a) = p then [.inp (N.peer a) xs] else []

/-- The moves of the party `p` in a schedule. -/
def view (N : Net P π) (p : P) (G : List (GEv π β)) : List (LEv π β) :=
  G.flatMap (GEv.view N p)

section View

omit [DecidableEq π]

@[simp] theorem view_nil (N : Net P π) (p : P) : view N p ([] : List (GEv π β)) = [] := rfl

@[simp] theorem view_cons (N : Net P π) (p : P) (e : GEv π β) (G : List (GEv π β)) :
    view N p (e :: G) = e.view N p ++ view N p G := by
  simp [view]

@[simp] theorem view_append (N : Net P π) (p : P) (G G' : List (GEv π β)) :
    view N p (G ++ G') = view N p G ++ view N p G' := by
  simp [view]

end View

/-- `Sched N q G` : starting with the cells `q` in flight, the links can carry the messages of
`G` in this order, and are empty afterwards. -/
def Sched (N : Net P π) : (π → List β) → List (GEv π β) → Prop
  | q, [] => q = fun _ => []
  | q, .msg a _ :: G => q a = [] ∧ N.owner a ≠ N.owner (N.peer a) ∧ Sched N q G
  | q, .snd a xs :: G => q a = [] ∧ xs.length ≤ N.cap a ∧ Sched N (update q a xs) G
  | q, .rcv a xs :: G => q a = xs ∧ Sched N (update q a []) G

theorem reach_rets {N : Net P π} {r : P → ρ} (ps : List P) {c : Config P π β ρ}
    (hps : ∀ p, p ∉ ps → c.proc p = .ret (r p)) (ht : ∀ p, Trace.Taus (c.proc p) (.ret (r p))) :
    Reach N c ⟨fun p => .ret (r p), c.sent⟩ := by
  induction ps generalizing c with
  | nil =>
      have hproc : c.proc = fun p => .ret (r p) := funext fun p => hps p (by simp)
      rw [← hproc]
  | cons p ps ih =>
      refine (reach_taus (ht p)).trans (ih (c := ⟨update c.proc p (.ret (r p)), c.sent⟩) ?_ ?_)
      · intro p' hp'
        by_cases h : p' = p
        · simp [h]
        · simpa [h] using hps p' (by simp [h, hp'])
      · intro p'
        by_cases h : p' = p
        · subst h
          simpa using Relation.ReflTransGen.refl
        · simpa [h] using ht p'

/-- A party whose program has returned takes no part in the rest of a schedule. -/
private theorem mem_of_view {c : Config P π β ρ} {r : P → ρ} {ps : List P}
    (hps : ∀ p, p ∉ ps → c.proc p = .ret (r p)) {p : P} {e : LEv π β} {es : List (LEv π β)}
    (h : Trace (c.proc p) (e :: es) (r p)) : p ∈ ps := by
  by_contra hp
  rw [hps p hp, Trace.ret_iff] at h
  exact absurd h.1 (by simp)

/-- If every party can play its part of a schedule, the system runs to the end of it. -/
theorem Sched.reach {N : Net P π} {G : List (GEv π β)} {c : Config P π β ρ} {r : P → ρ}
    (hG : Sched N c.sent G) (ps : List P) (hps : ∀ p, p ∉ ps → c.proc p = .ret (r p))
    (ht : ∀ p, Trace (c.proc p) (view N p G) (r p)) : Reach N c (.done r) := by
  induction G generalizing c with
  | nil =>
      have hq : c.sent = fun _ => [] := hG
      rw [Config.done, ← hq]
      exact reach_rets ps hps fun p => (ht p).nil_inv
  | cons e G ih =>
      cases e with
      | msg a xs =>
          obtain ⟨hq, hne, hG⟩ := hG
          have hs := ht (N.owner a)
          have hr := ht (N.owner (N.peer a))
          simp only [view_cons, GEv.view, if_true, if_neg hne, List.singleton_append] at hs hr
          obtain ⟨d, k, hd, rfl, hk⟩ := hs.out_inv
          obtain ⟨n, k', hn, hlen, hk'⟩ := hr.inp_inv
          refine (reach_taus hd).trans
            ((reach_taus (p := N.owner (N.peer a)) (q := .read n k') ?_).trans
            ((reach_msg (a := a) (d := d) (k := k) (n := n) (f := k') hne ?_ ?_ hlen ?_).trans
              (ih ?_ ?_ ?_)))
          · simpa [hne.symm] using hn
          · simp [hne]
          · simp
          · exact hq
          · exact hG
          · intro p hp
            have h₁ : p ≠ N.owner a := fun h => hp (h ▸ mem_of_view hps hs)
            have h₂ : p ≠ N.owner (N.peer a) := fun h => hp (h ▸ mem_of_view hps hr)
            simpa [h₁, h₂] using hps p hp
          · intro p
            have hp := ht p
            by_cases h₂ : p = N.owner (N.peer a)
            · subst h₂
              simpa using hk'
            · by_cases h₁ : p = N.owner a
              · subst h₁
                simpa [h₂] using hk
              · simpa [view_cons, GEv.view, h₁, h₂, Ne.symm h₁, Ne.symm h₂] using hp
      | snd a xs =>
          obtain ⟨hq, hcap, hG⟩ := hG
          have hs := ht (N.owner a)
          simp only [view_cons, GEv.view, if_true, List.singleton_append] at hs
          obtain ⟨d, k, hd, rfl, hk⟩ := hs.out_inv
          refine (reach_taus hd).trans
            ((reach_push (a := a) (d := d) (k := k) ?_ ?_).trans (ih ?_ ?_ ?_))
          · simp
          · simpa [hq] using hcap
          · simpa [hq] using hG
          · intro p hp
            have h₁ : p ≠ N.owner a := fun h => hp (h ▸ mem_of_view hps hs)
            simpa [h₁] using hps p hp
          · intro p
            have hp := ht p
            by_cases h₁ : p = N.owner a
            · subst h₁
              simpa using hk
            · simpa [view_cons, GEv.view, h₁, Ne.symm h₁] using hp
      | rcv a xs =>
          obtain ⟨hq, hG⟩ := hG
          have hr := ht (N.owner (N.peer a))
          simp only [view_cons, GEv.view, if_true, List.singleton_append] at hr
          obtain ⟨n, k', hn, hlen, hk'⟩ := hr.inp_inv
          refine (reach_taus hn).trans
            ((reach_pop (a := a) (n := n) (k := k') [] ?_ hlen ?_).trans
              (ih ?_ ?_ ?_))
          · simp
          · simpa using hq
          · exact hG
          · intro p hp
            have h₁ : p ≠ N.owner (N.peer a) := fun h => hp (h ▸ mem_of_view hps hr)
            simpa [h₁] using hps p hp
          · intro p
            have hp := ht p
            by_cases h₁ : p = N.owner (N.peer a)
            · subst h₁
              simpa using hk'
            · simpa [view_cons, GEv.view, h₁, Ne.symm h₁] using hp

/-- One schedule that every party can play settles every interleaving. -/
theorem Sched.completes {N : Net P π} {G : List (GEv π β)} {c : Config P π β ρ} {r : P → ρ}
    (hG : Sched N c.sent G) (ps : List P) (hps : ∀ p, p ∉ ps → c.proc p = .ret (r p))
    (ht : ∀ p, Trace (c.proc p) (view N p G) (r p)) : Completes N c r :=
  .of_reach (hG.reach ps hps ht)

/-- From `c` every party can play its part of the schedule `G` and returns `r p`; those not in
`ps` have nothing to do. -/
structure Plays (N : Net P π) (c : Config P π β ρ) (G : List (GEv π β)) (ps : List P) (r : P → ρ) :
    Prop where
  sched : Sched N c.sent G
  idle : ∀ p, p ∉ ps → c.proc p = .ret (r p)
  trace : ∀ p, Trace (c.proc p) (view N p G) (r p)

theorem Plays.completes {N : Net P π} {c : Config P π β ρ} {G : List (GEv π β)} {ps : List P}
    {r : P → ρ} (h : Plays N c G ps r) : Completes N c r :=
  h.sched.completes ps h.idle h.trace

end Lib
end PrefillOpt
