import Mathlib.Algebra.Order.BigOperators.Group.Finset
import Mathlib.Data.Fintype.BigOperators
import PrefillOpt.Lib.Transition

/-!
# Rendezvous — processes that meet

Every process acts on a state of its own, and from time to time all of them meet; a meeting may
change the states of all.  Where the programs agree on their meetings, every run goes through the
meetings in their order, and between two meetings every process does what it does alone.
-/

namespace PrefillOpt
namespace Lib

open Function Relation

/-- One entry of a program. -/
inductive Phase (α μ : Type) where
  | act (a : α)
  | meet (m : μ)

/-- What the actions do to the state of a process, and how a meeting can end. -/
structure Rendezvous (P α μ σ : Type) where
  act : P → α → σ → σ
  Meets : μ → (P → σ) → (P → σ) → Prop

namespace Rendezvous

variable {P α μ σ : Type}

/-- The programs that are left and the states. -/
structure Config (P α μ σ : Type) where
  prog : P → List (Phase α μ)
  mem : P → σ

def Config.Finished (c : Config P α μ σ) : Prop := ∀ p, c.prog p = []

/-- The actions of one process, in their order. -/
def acts (R : Rendezvous P α μ σ) (p : P) (l : List α) (s : σ) : σ :=
  l.foldl (fun s a => R.act p a s) s

/-- What the processes do up to a meeting, and the meeting. -/
structure Round (P α μ : Type) where
  acts : P → List α
  meeting : μ

/-- The programs of some rounds and the actions after them. -/
def programs : List (Round P α μ) → (P → List α) → P → List (Phase α μ)
  | [], last, p => (last p).map .act
  | x :: rounds, last, p => (x.acts p).map .act ++ .meet x.meeting :: programs rounds last p

/-- The rounds one after the other. -/
inductive RoundsRun (R : Rendezvous P α μ σ) (last : P → List α) :
    List (Round P α μ) → (P → σ) → (P → σ) → Prop where
  | nil (s : P → σ) : RoundsRun R last [] s fun p => R.acts p (last p) (s p)
  | cons {x : Round P α μ} {rounds : List (Round P α μ)} {s s₁ s' : P → σ}
      (hmeet : R.Meets x.meeting (fun p => R.acts p (x.acts p) (s p)) s₁)
      (hrest : RoundsRun R last rounds s₁ s') : RoundsRun R last (x :: rounds) s s'

/-- The programs of some rounds with nothing behind them. -/
theorem programs_eq_flatMap (rounds : List (Round P α μ)) (p : P) :
    programs rounds (fun _ => []) p
      = rounds.flatMap fun x => (x.acts p).map .act ++ [.meet x.meeting] := by
  induction rounds with
  | nil => rfl
  | cons x rounds ih =>
      rw [programs, ih, List.flatMap_cons, List.append_assoc, List.singleton_append]

variable [DecidableEq P]

/-- One process acts, or all of them meet. -/
inductive Step (R : Rendezvous P α μ σ) : Config P α μ σ → Config P α μ σ → Prop where
  | act {c : Config P α μ σ} {p : P} {a : α} {l : List (Phase α μ)} (h : c.prog p = .act a :: l) :
      Step R c ⟨update c.prog p l, update c.mem p (R.act p a (c.mem p))⟩
  | meet {c : Config P α μ σ} {m : μ} {l : P → List (Phase α μ)} {mem : P → σ}
      (h : ∀ p, c.prog p = .meet m :: l p) (hmeet : R.Meets m c.mem mem) : Step R c ⟨l, mem⟩

def Reach (R : Rendezvous P α μ σ) : Config P α μ σ → Config P α μ σ → Prop :=
  ReflTransGen (Step R)

section Rounds

variable {R : Rendezvous P α μ σ}

/-- Doing the first action of a process before the others changes nothing. -/
theorem acts_update {f : P → List α} {s : P → σ} {p : P} {a : α} {l : List α}
    (h : f p = a :: l) :
    (fun q => R.acts q (update f p l q) (update s p (R.act p a (s p)) q))
      = fun q => R.acts q (f q) (s q) := by
  funext q
  rcases eq_or_ne q p with rfl | hne
  · rw [update_self, update_self, h]
    rfl
  · rw [update_of_ne hne, update_of_ne hne]

theorem programs_update_nil {last : P → List α} {p : P} {l : List α} :
    update (programs ([] : List (Round P α μ)) last) p (l.map .act)
      = programs [] (update last p l) := by
  funext q
  rcases eq_or_ne q p with rfl | hne
  · simp only [programs, update_self]
  · simp only [programs, update_of_ne hne]

theorem programs_update_cons {x : Round P α μ} {rounds : List (Round P α μ)} {last : P → List α}
    {p : P} {l : List α} :
    update (programs (x :: rounds) last) p
        (l.map .act ++ .meet x.meeting :: programs rounds last p)
      = programs (⟨update x.acts p l, x.meeting⟩ :: rounds) last := by
  funext q
  rcases eq_or_ne q p with rfl | hne
  · simp only [programs, update_self]
  · simp only [programs, update_of_ne hne]

/-- An action at the head of a program is the first of its round. -/
theorem act_of_append {f : List α} {l l' : List (Phase α μ)} {a : α} {m : μ}
    (h : f.map .act ++ .meet m :: l' = .act a :: l) :
    ∃ f', f = a :: f' ∧ l = f'.map .act ++ .meet m :: l' := by
  cases f with
  | nil => cases h
  | cons b f' =>
      cases h
      exact ⟨f', rfl, rfl⟩

theorem act_of_map {f : List α} {l : List (Phase α μ)} {a : α} (h : f.map .act = .act a :: l) :
    ∃ f', f = a :: f' ∧ l = f'.map .act := by
  cases f with
  | nil => cases h
  | cons b f' =>
      cases h
      exact ⟨f', rfl, rfl⟩

/-- A meeting at the head of a program ends its round. -/
theorem meet_of_append {f : List α} {l l' : List (Phase α μ)} {m m' : μ}
    (h : f.map .act ++ .meet m :: l' = .meet m' :: l) : f = [] ∧ m = m' ∧ l' = l := by
  cases f with
  | nil =>
      cases h
      exact ⟨rfl, rfl, rfl⟩
  | cons b f' => cases h

theorem not_meet_of_map {f : List α} {l : List (Phase α μ)} {m : μ} :
    f.map .act ≠ .meet m :: l := by
  cases f <;> simp

/-- What is left of a run: the programs of some rounds, which end where the whole run ends. -/
def Underway (R : Rendezvous P α μ σ) (rounds : List (Round P α μ)) (last : P → List α)
    (s : P → σ) (c : Config P α μ σ) : Prop :=
  ∃ left lastLeft, c.prog = programs left lastLeft ∧
    (∀ x ∈ left, ∃ y ∈ rounds, y.meeting = x.meeting) ∧
    ∀ s', RoundsRun R lastLeft left c.mem s' → RoundsRun R last rounds s s'

variable {rounds : List (Round P α μ)} {last : P → List α} {s : P → σ}

theorem Underway.act {c : Config P α μ σ} (hc : Underway R rounds last s c) {p : P} {a : α}
    {l : List (Phase α μ)} (h : c.prog p = .act a :: l) :
    Underway R rounds last s ⟨update c.prog p l, update c.mem p (R.act p a (c.mem p))⟩ := by
  rcases hc with ⟨left, lastLeft, hprog, hmeetings, hends⟩
  rw [hprog] at h
  cases left with
  -- behind the last meeting, and in front of the next one
  | nil =>
      rcases act_of_map h with ⟨l', hlast, rfl⟩
      refine ⟨[], update lastLeft p l', ?_, hmeetings, fun s' hrun => hends s' ?_⟩
      · simp only [hprog, programs_update_nil]
      · cases hrun
        rw [acts_update hlast]
        exact .nil _
  | cons x left =>
      rcases act_of_append h with ⟨l', hacts, rfl⟩
      refine ⟨⟨update x.acts p l', x.meeting⟩ :: left, lastLeft, ?_, ?_, fun s' hrun => hends s' ?_⟩
      · simp only [hprog, programs_update_cons]
      · rw [List.forall_mem_cons] at hmeetings ⊢
        exact hmeetings
      · cases hrun with
        | cons hmeet hrest =>
            rw [acts_update hacts] at hmeet
            exact .cons hmeet hrest

omit [DecidableEq P] in
theorem Underway.meet [Nonempty P] {c : Config P α μ σ} (hc : Underway R rounds last s c) {m : μ}
    {l : P → List (Phase α μ)} {mem : P → σ} (h : ∀ p, c.prog p = .meet m :: l p)
    (hmeet : R.Meets m c.mem mem) : Underway R rounds last s ⟨l, mem⟩ := by
  rcases hc with ⟨left, lastLeft, hprog, hmeetings, hends⟩
  rw [hprog] at h
  cases left with
  | nil => exact absurd (h (Classical.arbitrary P)) not_meet_of_map
  | cons x left =>
      have hx := fun p => meet_of_append (h p)
      refine ⟨left, lastLeft, funext fun p => (hx p).2.2.symm,
        fun y hy => hmeetings y (List.mem_cons_of_mem x hy), fun s' hrun => hends s' ?_⟩
      refine .cons ?_ hrun
      -- everybody is at the meeting, so nobody has an action of the round left
      have hsame : (fun p => R.acts p (x.acts p) (c.mem p)) = c.mem := by
        funext p
        rw [(hx p).1]
        rfl
      rw [hsame, (hx (Classical.arbitrary P)).2.1]
      exact hmeet

theorem Underway.of_reach [Nonempty P] {c : Config P α μ σ}
    (h : Reach R ⟨programs rounds last, s⟩ c) : Underway R rounds last s c := by
  refine invariant_of_reach (fun c c' hc hstep => ?_) ?_ h
  · cases hstep with
    | act h => exact hc.act h
    | meet h hmeet => exact hc.meet h hmeet
  · exact ⟨rounds, last, rfl, fun x hx => ⟨x, hx, rfl⟩, fun _ hrun => hrun⟩

/-- However the processes take their turns, the rounds come one after the other. -/
theorem roundsRun_of_reach [Nonempty P] {c : Config P α μ σ}
    (h : Reach R ⟨programs rounds last, s⟩ c) (hfin : c.Finished) :
    RoundsRun R last rounds s c.mem := by
  rcases Underway.of_reach h with ⟨left, lastLeft, hprog, -, hends⟩
  have hnil : ∀ p, programs left lastLeft p = [] := fun p => hprog ▸ hfin p
  -- finished programs leave no round, since a round ends with a meeting
  cases left with
  | nil =>
      refine hends c.mem ?_
      have hsame : (fun p => R.acts p (lastLeft p) (c.mem p)) = c.mem := by
        funext p
        rw [List.map_eq_nil_iff.1 (hnil p)]
        rfl
      have hrun : RoundsRun R lastLeft [] c.mem fun p => R.acts p (lastLeft p) (c.mem p) :=
        .nil c.mem
      rwa [hsame] at hrun
  | cons x left =>
      have hne := hnil (Classical.arbitrary P)
      rw [programs, List.append_eq_nil_iff] at hne
      cases hne.2

/-! ## Progress -/

variable [Fintype P]

/-- The entries left in all programs. -/
def Config.size (c : Config P α μ σ) : Nat := ∑ p, (c.prog p).length

theorem size_update_lt {prog : P → List (Phase α μ)} {mem mem' : P → σ} {p : P} {x : Phase α μ}
    {l : List (Phase α μ)} (h : prog p = x :: l) :
    Config.size ⟨update prog p l, mem'⟩ < Config.size ⟨prog, mem⟩ := by
  refine Finset.sum_lt_sum (fun q _ => ?_) ⟨p, Finset.mem_univ p, ?_⟩
  · rcases eq_or_ne q p with rfl | hne
    · simp [h]
    · simp [update_of_ne hne]
  · simp [h]

/-- Every step uses up an entry, so that there is no endless run. -/
theorem Step.size_lt [Nonempty P] {c c' : Config P α μ σ} (h : Step R c c') :
    c'.size < c.size := by
  cases h with
  | act h => exact size_update_lt h
  | meet h _ =>
      refine Finset.sum_lt_sum_of_nonempty Finset.univ_nonempty fun p _ => ?_
      simp [h p]

/-- Nobody waits for ever: as long as meetings can take place, something is left to do for
somebody until all programs are finished. -/
theorem Underway.exists_step [Nonempty P]
    (hmeets : ∀ x ∈ rounds, ∀ s, ∃ s', R.Meets x.meeting s s') {c : Config P α μ σ}
    (hc : Underway R rounds last s c) (hfin : ¬ c.Finished) : ∃ c', Step R c c' := by
  rcases hc with ⟨left, lastLeft, hprog, hmeetings, -⟩
  by_cases hact : ∃ p a l, c.prog p = .act a :: l
  · rcases hact with ⟨p, a, l, h⟩
    exact ⟨_, .act h⟩
  -- everybody waits, and as rounds go together they wait for the same meeting
  · push Not at hact
    cases left with
    | nil =>
        refine absurd (fun p => ?_) hfin
        rcases hl : lastLeft p with _ | ⟨a, l⟩
        · rw [hprog, programs, hl]
          rfl
        · exact absurd (by rw [hprog, programs, hl]; rfl) (hact p a (l.map .act))
    | cons x left =>
        have hempty : ∀ p, x.acts p = [] := by
          intro p
          rcases hl : x.acts p with _ | ⟨a, l⟩
          · rfl
          · exact absurd (by rw [hprog, programs, hl]; rfl)
              (hact p a (l.map .act ++ .meet x.meeting :: programs left lastLeft p))
        rcases hmeetings x List.mem_cons_self with ⟨y, hy, heq⟩
        rcases hmeets y hy c.mem with ⟨mem, hmeet⟩
        rw [heq] at hmeet
        refine ⟨_, .meet (l := programs left lastLeft) (fun p => ?_) hmeet⟩
        rw [hprog, programs, hempty p]
        rfl

/-- Every run can be carried to its end. -/
theorem exists_finished [Nonempty P] (hmeets : ∀ x ∈ rounds, ∀ s, ∃ s', R.Meets x.meeting s s')
    {c : Config P α μ σ} (h : Reach R ⟨programs rounds last, s⟩ c) :
    ∃ f, Reach R c f ∧ f.Finished := by
  have hprogress : ∀ c, Underway R rounds last s c → ¬ c.Finished →
      ∃ c', Step R c c' ∧ Underway R rounds last s c' ∧ c'.size < c.size := by
    intro c hc hfin
    rcases hc.exists_step hmeets hfin with ⟨c', hstep⟩
    refine ⟨c', hstep, ?_, hstep.size_lt⟩
    cases hstep with
    | act h => exact hc.act h
    | meet h hmeet => exact hc.meet h hmeet
  rcases exists_reach_final Config.Finished Config.size hprogress (Underway.of_reach h) with
    ⟨f, hreach, -, hfin⟩
  exact ⟨f, hreach, hfin⟩

end Rounds

end Rendezvous

end Lib
end PrefillOpt
