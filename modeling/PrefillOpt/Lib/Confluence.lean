import PrefillOpt.Lib.BlockingIo

/-!
# Confluence — one complete schedule decides every schedule

Parties are deterministic and every port has one owner, so two steps that are possible in the
same configuration never disable each other (`Step.diamond`).  Hence, once a single run from
`c₀` ends with every party returned, *every* run from `c₀` can be continued to that same end
(`Reach.to_final`): no reachable configuration is stuck early, and there is only one outcome.
-/

namespace PrefillOpt
namespace Lib

open Function

variable {P π β ρ : Type} [DecidableEq P] [DecidableEq π]

/-! ## Moves of one party -/

namespace Local

variable {p q r : Prog π β ρ} {a b : π} {x y : β}

theorem tau_det (h₁ : Local p .tau q) (h₂ : Local p .tau r) : q = r := by
  cases h₁ <;> cases h₂ <;> rfl

theorem not_tau_out (h₁ : Local p .tau q) (h₂ : Local p (.out a x) r) : False := by
  cases h₁ with
  | wrote h =>
      cases h₂ with
      | out h' => simp [h] at h'
  | readAll h => cases h₂

theorem not_tau_inp (h₁ : Local p .tau q) (h₂ : Local p (.inp a x) r) : False := by
  cases h₁ with
  | wrote h => cases h₂
  | readAll h =>
      cases h₂ with
      | inp _ h' => simp [h] at h'

theorem not_out_inp (h₁ : Local p (.out a x) q) (h₂ : Local p (.inp b y) r) : False := by
  cases h₁
  cases h₂

theorem out_det (h₁ : Local p (.out a x) q) (h₂ : Local p (.out a y) r) : x = y ∧ q = r := by
  cases h₁ with
  | out h =>
      cases h₂ with
      | out h' =>
          rw [h] at h'
          cases h'
          exact ⟨rfl, rfl⟩

theorem inp_det (h₁ : Local p (.inp a x) q) (h₂ : Local p (.inp a x) r) : q = r := by
  cases h₁ with
  | inp _ h =>
      cases h₂ with
      | inp _ h' =>
          rw [h] at h'
          cases h'
          rfl

theorem out_join (h₁ : Local p (.out a x) q) (h₂ : Local p (.out b y) r) (hab : a ≠ b) :
    ∃ s, Local q (.out b y) s ∧ Local r (.out a x) s := by
  cases h₁ with
  | @out d k _ _ xs h =>
      cases h₂ with
      | @out _ _ _ _ ys h' =>
          refine ⟨_, .out (by simpa [hab.symm] using h'), ?_⟩
          rw [update_comm hab]
          exact .out (by simpa [hab] using h)

theorem inp_join (h₁ : Local p (.inp a x) q) (h₂ : Local p (.inp b y) r) (hab : a ≠ b) :
    ∃ s, Local q (.inp b y) s ∧ Local r (.inp a x) s := by
  cases h₁ with
  | @inp n k _ m _ h =>
      cases h₂ with
      | @inp _ _ _ l _ h' =>
          refine ⟨_, .inp (m := l) y (by simpa [hab.symm] using h'), ?_⟩
          have hk : (fun g => k (update (update g b (y :: g b)) a (x :: update g b (y :: g b) a)))
              = fun g => k (update (update g a (x :: g a)) b (y :: update g a (x :: g a) b)) := by
            funext g
            rw [update_comm hab, update_of_ne hab, update_of_ne hab.symm]
          rw [hk, update_comm hab]
          exact .inp x (by simpa [hab] using h)

end Local

/-! ## Two steps of the system commute -/

/-- Both configurations are one step away from a common one, or equal. -/
def Joins (N : Net P π) (c d : Config P π β ρ) : Prop :=
  c = d ∨ ∃ e, Step N c e ∧ Step N d e

theorem Joins.symm {N : Net P π} {c d : Config P π β ρ} (h : Joins N c d) : Joins N d c := by
  rcases h with h | ⟨e, h₁, h₂⟩
  · exact .inl h.symm
  · exact .inr ⟨e, h₂, h₁⟩

section Diamond

variable {N : Net P π} {c : Config P π β ρ}

/-- A move of a party is still possible after another party has moved. -/
theorem Local.of_update {f : P → Prog π β ρ} {p p' : P} {q r : Prog π β ρ} {e : Ev π β}
    (h : Local (f p) e q) (hne : p ≠ p') : Local (update f p' r p) e q := by
  rwa [update_of_ne hne]

/-- Moves of two parties commute, and so do two moves of one party that join. -/
theorem Local.commute {f : P → Prog π β ρ} {p p' : P} {q r : Prog π β ρ} {e e' : Ev π β}
    (h : Local (f p) e q) (h' : Local (f p') e' r)
    (hj : p = p' → ∃ s, Local q e' s ∧ Local r e s) :
    ∃ q' r', Local (update f p q p') e' r' ∧ Local (update f p' r p) e q' ∧
      update (update f p q) p' r' = update (update f p' r) p q' := by
  by_cases hp : p = p'
  · subst hp
    obtain ⟨s, hs, hs'⟩ := hj rfl
    exact ⟨s, s, by simpa using hs, by simpa using hs', by simp⟩
  · exact ⟨q, r, h'.of_update (Ne.symm hp), h.of_update hp, update_comm hp _ _ _⟩

private theorem joins_tau {p : P} {q : Prog π β ρ} (h : Local (c.proc p) .tau q)
    {d : Config P π β ρ} (hd : Step N c d) : Joins N ⟨update c.proc p q, c.sent⟩ d := by
  cases hd with
  | tau p' h' =>
      by_cases hp : p = p'
      · subst hp
        exact .inl (by rw [h.tau_det h'])
      · refine .inr ⟨_, .tau p' (h'.of_update (Ne.symm hp)), ?_⟩
        rw [update_comm hp]
        exact .tau p (h.of_update hp)
  | push a h' hcap =>
      have hp : p ≠ N.owner a := by
        rintro rfl
        exact h.not_tau_out h'
      refine .inr ⟨_, .push a (h'.of_update hp.symm) hcap, ?_⟩
      rw [update_comm hp]
      exact .tau p (h.of_update hp)
  | pop a h' hq =>
      have hp : p ≠ N.owner (N.peer a) := by
        rintro rfl
        exact h.not_tau_inp h'
      refine .inr ⟨_, .pop a (h'.of_update hp.symm) hq, ?_⟩
      rw [update_comm hp]
      exact .tau p (h.of_update hp)
  | meet a hs hr hcap hq =>
      have hp : p ≠ N.owner a := by
        rintro rfl
        exact h.not_tau_out hs
      have hp' : p ≠ N.owner (N.peer a) := by
        rintro rfl
        exact h.not_tau_inp hr
      refine .inr ⟨_, .meet a (hs.of_update hp.symm) (hr.of_update hp'.symm) hcap hq, ?_⟩
      rw [update_comm hp, update_comm hp']
      exact .tau p ((h.of_update hp).of_update hp')

private theorem joins_push_push {a b : π} {x y : β} {q r : Prog π β ρ}
    (h : Local (c.proc (N.owner a)) (.out a x) q) (hcap : (c.sent a).length < N.cap a)
    (h' : Local (c.proc (N.owner b)) (.out b y) r) (hcap' : (c.sent b).length < N.cap b) :
    Joins N ⟨update c.proc (N.owner a) q, update c.sent a (c.sent a ++ [x])⟩
      ⟨update c.proc (N.owner b) r, update c.sent b (c.sent b ++ [y])⟩ := by
  by_cases hab : a = b
  · subst hab
    obtain ⟨rfl, rfl⟩ := h.out_det h'
    exact .inl rfl
  obtain ⟨q', r', hr', hq', heq⟩ := h.commute h' fun hp => h.out_join (hp ▸ h') hab
  have ha := Step.push (N := N) (c := ⟨update c.proc (N.owner b) r,
    update c.sent b (c.sent b ++ [y])⟩) a hq' (by simpa [hab] using hcap)
  have hb := Step.push (N := N) (c := ⟨update c.proc (N.owner a) q,
    update c.sent a (c.sent a ++ [x])⟩) b hr' (by simpa [Ne.symm hab] using hcap')
  simp only [update_of_ne hab, update_of_ne (Ne.symm hab)] at ha hb
  rw [← heq, update_comm (Ne.symm hab)] at ha
  exact .inr ⟨_, hb, ha⟩

private theorem joins_push_pop {a b : π} {x y : β} {ys : List β} {q r : Prog π β ρ}
    (h : Local (c.proc (N.owner a)) (.out a x) q) (hcap : (c.sent a).length < N.cap a)
    (h' : Local (c.proc (N.owner (N.peer b))) (.inp (N.peer b) y) r)
    (hq : c.sent b = y :: ys) :
    Joins N ⟨update c.proc (N.owner a) q, update c.sent a (c.sent a ++ [x])⟩
      ⟨update c.proc (N.owner (N.peer b)) r, update c.sent b ys⟩ := by
  have hp : N.owner a ≠ N.owner (N.peer b) := fun hp => h.not_out_inp (hp ▸ h')
  by_cases hab : a = b
  · -- both ends of one direction: the tail and the head of the queue are touched
    subst hab
    have ha := Step.push (N := N) (c := ⟨update c.proc (N.owner (N.peer a)) r,
      update c.sent a ys⟩) a (h.of_update hp) (by simp [hq] at hcap ⊢; omega)
    have hb := Step.pop (N := N) (c := ⟨update c.proc (N.owner a) q,
      update c.sent a (c.sent a ++ [x])⟩) a (h'.of_update hp.symm)
      (show update c.sent a (c.sent a ++ [x]) a = _ :: (ys ++ [x]) by simp [hq])
    simp only [update_self, update_idem] at ha hb
    rw [update_comm hp.symm] at ha
    exact .inr ⟨_, hb, ha⟩
  · have ha := Step.push (N := N) (c := ⟨update c.proc (N.owner (N.peer b)) r,
      update c.sent b ys⟩) a (h.of_update hp) (by simpa [hab] using hcap)
    have hb := Step.pop (N := N) (c := ⟨update c.proc (N.owner a) q,
      update c.sent a (c.sent a ++ [x])⟩) b (h'.of_update hp.symm)
      (by simpa [Ne.symm hab] using hq)
    simp only [update_of_ne hab] at ha
    rw [update_comm hp.symm, update_comm (Ne.symm hab)] at ha
    exact .inr ⟨_, hb, ha⟩

private theorem joins_push_meet {a b : π} {x y : β} {q r s : Prog π β ρ}
    (h : Local (c.proc (N.owner a)) (.out a x) q) (hcap : (c.sent a).length < N.cap a)
    (hs : Local (c.proc (N.owner b)) (.out b y) r)
    (hr : Local (c.proc (N.owner (N.peer b))) (.inp (N.peer b) y) s)
    (hcap' : N.cap b = 0) (hq : c.sent b = []) :
    Joins N ⟨update c.proc (N.owner a) q, update c.sent a (c.sent a ++ [x])⟩
      ⟨update (update c.proc (N.owner b) r) (N.owner (N.peer b)) s, c.sent⟩ := by
  have hab : a ≠ b := by
    rintro rfl
    omega
  have hp : N.owner a ≠ N.owner (N.peer b) := fun hp => h.not_out_inp (hp ▸ hr)
  obtain ⟨q', r', hr', hq', heq⟩ := h.commute hs fun ho => h.out_join (ho ▸ hs) hab
  have ha := Step.push (N := N)
    (c := ⟨update (update c.proc (N.owner b) r) (N.owner (N.peer b)) s, c.sent⟩) a
    (hq'.of_update hp) hcap
  have hb := Step.meet (N := N) (c := ⟨update c.proc (N.owner a) q,
    update c.sent a (c.sent a ++ [x])⟩) b hr' (hr.of_update hp.symm) hcap'
    (by simpa [Ne.symm hab] using hq)
  rw [update_comm hp.symm, ← heq] at ha
  exact .inr ⟨_, hb, ha⟩

private theorem joins_pop_pop {a b : π} {x y : β} {xs ys : List β} {q r : Prog π β ρ}
    (h : Local (c.proc (N.owner (N.peer a))) (.inp (N.peer a) x) q) (hq : c.sent a = x :: xs)
    (h' : Local (c.proc (N.owner (N.peer b))) (.inp (N.peer b) y) r)
    (hq' : c.sent b = y :: ys) :
    Joins N ⟨update c.proc (N.owner (N.peer a)) q, update c.sent a xs⟩
      ⟨update c.proc (N.owner (N.peer b)) r, update c.sent b ys⟩ := by
  by_cases hab : a = b
  · subst hab
    rw [hq] at hq'
    cases hq'
    exact .inl (by rw [h.inp_det h'])
  have hpeer : N.peer a ≠ N.peer b := fun hp => hab (by rw [← N.peer_peer a, hp, N.peer_peer])
  obtain ⟨q', r', hr', hq₂, heq⟩ := h.commute h' fun ho => h.inp_join (ho ▸ h') hpeer
  have ha := Step.pop (N := N) (c := ⟨update c.proc (N.owner (N.peer b)) r,
    update c.sent b ys⟩) a hq₂ (by simpa [hab] using hq)
  have hb := Step.pop (N := N) (c := ⟨update c.proc (N.owner (N.peer a)) q,
    update c.sent a xs⟩) b hr' (by simpa [Ne.symm hab] using hq')
  rw [← heq, update_comm (Ne.symm hab)] at ha
  exact .inr ⟨_, hb, ha⟩

private theorem joins_pop_meet {a b : π} {x y : β} {xs : List β} {q r s : Prog π β ρ}
    (h : Local (c.proc (N.owner (N.peer a))) (.inp (N.peer a) x) q) (hq : c.sent a = x :: xs)
    (hs : Local (c.proc (N.owner b)) (.out b y) r)
    (hr : Local (c.proc (N.owner (N.peer b))) (.inp (N.peer b) y) s)
    (hcap : N.cap b = 0) (hq' : c.sent b = []) :
    Joins N ⟨update c.proc (N.owner (N.peer a)) q, update c.sent a xs⟩
      ⟨update (update c.proc (N.owner b) r) (N.owner (N.peer b)) s, c.sent⟩ := by
  have hab : a ≠ b := by
    rintro rfl
    simp [hq] at hq'
  have hpeer : N.peer a ≠ N.peer b := fun hp => hab (by rw [← N.peer_peer a, hp, N.peer_peer])
  have hp : N.owner (N.peer a) ≠ N.owner b := fun hp => hs.not_out_inp (hp ▸ h)
  have hp' : N.owner b ≠ N.owner (N.peer b) := fun hp => hs.not_out_inp (hp ▸ hr)
  obtain ⟨q', s', hs', hq₂, heq⟩ :=
    Local.commute (f := update c.proc (N.owner b) r) (h.of_update hp) (hr.of_update hp'.symm)
      fun ho => h.inp_join (ho ▸ hr) hpeer
  have ha := Step.pop (N := N)
    (c := ⟨update (update c.proc (N.owner b) r) (N.owner (N.peer b)) s, c.sent⟩) a hq₂ hq
  have hb := Step.meet (N := N) (c := ⟨update c.proc (N.owner (N.peer a)) q,
    update c.sent a xs⟩) b (hs.of_update hp.symm)
    (by rw [update_comm hp.symm, update_of_ne hp'.symm] at hs'; exact hs') hcap
    (by simpa [Ne.symm hab] using hq')
  rw [← heq, update_comm hp.symm] at ha
  exact .inr ⟨_, hb, ha⟩

private theorem joins_meet_meet {a b : π} {x y : β} {q r q' r' : Prog π β ρ}
    (hs : Local (c.proc (N.owner a)) (.out a x) q)
    (hr : Local (c.proc (N.owner (N.peer a))) (.inp (N.peer a) x) r)
    (hcap : N.cap a = 0) (hq : c.sent a = [])
    (hs' : Local (c.proc (N.owner b)) (.out b y) q')
    (hr' : Local (c.proc (N.owner (N.peer b))) (.inp (N.peer b) y) r')
    (hcap' : N.cap b = 0) (hq' : c.sent b = []) :
    Joins N ⟨update (update c.proc (N.owner a) q) (N.owner (N.peer a)) r, c.sent⟩
      ⟨update (update c.proc (N.owner b) q') (N.owner (N.peer b)) r', c.sent⟩ := by
  by_cases hab : a = b
  · subst hab
    obtain ⟨rfl, rfl⟩ := hs.out_det hs'
    exact .inl (by rw [hr.inp_det hr'])
  have hpeer : N.peer a ≠ N.peer b := fun hp => hab (by rw [← N.peer_peer a, hp, N.peer_peer])
  have hab' : N.owner a ≠ N.owner (N.peer b) := fun hp => hs.not_out_inp (hp ▸ hr')
  have hba' : N.owner b ≠ N.owner (N.peer a) := fun hp => hs'.not_out_inp (hp ▸ hr)
  have haa' : N.owner a ≠ N.owner (N.peer a) := fun hp => hs.not_out_inp (hp ▸ hr)
  have hbb' : N.owner b ≠ N.owner (N.peer b) := fun hp => hs'.not_out_inp (hp ▸ hr')
  obtain ⟨s₁, s₂, hs₂, hs₁, heq⟩ := hs.commute hs' fun ho => hs.out_join (ho ▸ hs') hab
  -- the two receivers, after both senders have moved
  obtain ⟨t₁, t₂, ht₂, ht₁, heq'⟩ :=
    Local.commute (f := update (update c.proc (N.owner a) q) (N.owner b) s₂)
      ((hr.of_update haa'.symm).of_update hba'.symm)
      ((hr'.of_update hab'.symm).of_update hbb'.symm)
      fun ho => hr.inp_join (ho ▸ hr') hpeer
  rw [update_comm hba'] at heq' ht₂
  rw [update_of_ne hbb'.symm] at ht₂
  rw [heq, update_comm hab', update_of_ne haa'.symm] at ht₁
  have ha := Step.meet (N := N)
    (c := ⟨update (update c.proc (N.owner b) q') (N.owner (N.peer b)) r', c.sent⟩) a
    (hs₁.of_update hab') ht₁ hcap hq
  have hb := Step.meet (N := N)
    (c := ⟨update (update c.proc (N.owner a) q) (N.owner (N.peer a)) r, c.sent⟩) b
    (hs₂.of_update hba') ht₂ hcap' hq'
  rw [heq', heq, update_comm hab'] at hb
  exact .inr ⟨_, hb, ha⟩

theorem Step.diamond {d e : Config P π β ρ} (hd : Step N c d) (he : Step N c e) :
    Joins N d e := by
  cases hd with
  | tau p h => exact joins_tau h he
  | push a h hcap =>
      cases he with
      | tau p h' => exact (joins_tau h' (.push a h hcap)).symm
      | push b h' hcap' => exact joins_push_push h hcap h' hcap'
      | pop b h' hq => exact joins_push_pop h hcap h' hq
      | meet b hs hr hcap' hq => exact joins_push_meet h hcap hs hr hcap' hq
  | pop a h hq =>
      cases he with
      | tau p h' => exact (joins_tau h' (.pop a h hq)).symm
      | push b h' hcap' => exact (joins_push_pop h' hcap' h hq).symm
      | pop b h' hq' => exact joins_pop_pop h hq h' hq'
      | meet b hs hr hcap' hq' => exact joins_pop_meet h hq hs hr hcap' hq'
  | meet a hs hr hcap hq =>
      cases he with
      | tau p h' => exact (joins_tau h' (.meet a hs hr hcap hq)).symm
      | push b h' hcap' => exact (joins_push_meet h' hcap' hs hr hcap hq).symm
      | pop b h' hq' => exact (joins_pop_meet h' hq' hs hr hcap hq).symm
      | meet b hs' hr' hcap' hq' =>
          exact joins_meet_meet hs hr hcap hq hs' hr' hcap' hq'

end Diamond

/-! ## Runs -/

section Runs

variable {N : Net P π} {c d f : Config P π β ρ}

theorem Config.Final.stuck (h : c.Final) : Stuck N c := by
  have hno : ∀ (p : P) (e : Ev π β) (q : Prog π β ρ), ¬ Local (c.proc p) e q := by
    intro p e q hl
    obtain ⟨r, hr⟩ := h p
    rw [hr] at hl
    cases hl
  intro c' hstep
  cases hstep with
  | tau p h' => exact hno _ _ _ h'
  | push a h' _ => exact hno _ _ _ h'
  | pop a h' _ => exact hno _ _ _ h'
  | meet a hs _ _ _ => exact hno _ _ _ hs

/-- A stuck configuration has no run but the empty one. -/
theorem Stuck.eq_of_reach (h : Stuck N c) (hr : Reach N c d) : d = c := by
  rcases hr.cases_head with rfl | ⟨e, he, -⟩
  · rfl
  · exact absurd he (h e)

/-- If one run ends with every party returned, every other run can be continued to that end. -/
theorem Reach.to_final (hf : Reach N c f) (hfin : f.Final) (hd : Reach N c d) :
    Reach N d f := by
  have hcr : Relation.Join (Reach N) d f := by
    refine Relation.church_rosser ?_ hd hf
    intro x y z hy hz
    rcases hy.diamond hz with rfl | ⟨e, he, he'⟩
    · exact ⟨y, .refl, .refl⟩
    · exact ⟨e, .single he, .single he'⟩
  obtain ⟨e, hde, hfe⟩ := hcr
  rwa [hfin.stuck.eq_of_reach hfe] at hde

/-- There is one outcome. -/
theorem Reach.final_unique (hf : Reach N c f) (hfin : f.Final) (hd : Reach N c d)
    (hdfin : d.Final) : d = f :=
  (hdfin.stuck.eq_of_reach (hf.to_final hfin hd)).symm

/-- No reachable configuration is stuck before every party has returned. -/
theorem Reach.final_of_stuck (hf : Reach N c f) (hfin : f.Final) (hd : Reach N c d)
    (hs : Stuck N d) : d.Final := by
  have : f = d := hs.eq_of_reach (hf.to_final hfin hd)
  exact this ▸ hfin

/-- `f` is reached from the configuration in exactly that many steps. -/
private def StepsTo (N : Net P π) (f : Config P π β ρ) : Nat → Config P π β ρ → Prop
  | 0, c => c = f
  | n + 1, c => ∃ d, Step N c d ∧ StepsTo N f n d

private theorem Reach.stepsTo (hf : Reach N c f) : ∃ n, StepsTo N f n c := by
  induction hf using Relation.ReflTransGen.head_induction_on with
  | refl => exact ⟨0, rfl⟩
  | head hstep _ ih =>
      obtain ⟨n, hn⟩ := ih
      exact ⟨n + 1, _, hstep, hn⟩

/-- Whichever step is taken first, the rest is one step shorter. -/
private theorem StepsTo.descent (hs : Stuck N f) {n : Nat} (hn : StepsTo N f (n + 1) c)
    (hd : Step N c d) : StepsTo N f n d := by
  induction n generalizing c d with
  | zero =>
      obtain ⟨e, he, rfl⟩ := hn
      rcases hd.diamond he with rfl | ⟨x, -, hx⟩
      · rfl
      · exact absurd hx (hs x)
  | succ n ih =>
      obtain ⟨e, he, hn⟩ := hn
      rcases hd.diamond he with rfl | ⟨x, hdx, hex⟩
      · exact hn
      · exact ⟨x, hdx, ih hn hex⟩

/-- If one run ends with every party returned, no run goes on forever. -/
theorem Reach.acc_of_final (hf : Reach N c f) (hfin : f.Final) :
    Acc (fun x y => Step N y x) c := by
  obtain ⟨n, hn⟩ := hf.stepsTo
  induction n generalizing c with
  | zero =>
      refine ⟨_, fun d hd => ?_⟩
      rw [show c = f from hn] at hd
      exact absurd hd (hfin.stuck d)
  | succ n ih =>
      refine ⟨_, fun d hd => ?_⟩
      have hdn : StepsTo N f n d := hn.descent hfin.stuck hd
      exact ih (hf.to_final hfin (.single hd)) hdn

/-! ## More room -/

theorem Local.out_ne_inp {p q r : Prog π β ρ} {a b : π} {x y : β} (ho : Local p (.out a x) q)
    (hi : Local p (.inp b y) r) : False := by
  cases ho
  cases hi

/-- With more room a hand-over becomes a send and a receive. -/
theorem Step.mono_cap {N' : Net P π} (howner : N'.owner = N.owner) (hpeer : N'.peer = N.peer)
    (hcap : ∀ a, N.cap a ≤ N'.cap a) (h : Step N c d) : Reach N' c d := by
  obtain ⟨owner, peer, cap', peer_peer⟩ := N'
  obtain rfl : owner = N.owner := howner
  obtain rfl : peer = N.peer := hpeer
  cases h with
  | tau p h => exact .single (.tau p h)
  | push a h hlt => exact .single (.push a h (Nat.lt_of_lt_of_le hlt (hcap a)))
  | pop a h hq => exact .single (.pop a h hq)
  | @meet a x q r hs hr h0 hq =>
      by_cases h0' : cap' a = 0
      · exact .single (.meet a hs hr h0' hq)
      · have hne : N.owner a ≠ N.owner (N.peer a) := fun heq =>
          Local.out_ne_inp hs (heq ▸ hr)
        have h₁ : Step ⟨N.owner, N.peer, cap', peer_peer⟩ c _ :=
          .push a hs (by rw [hq]; exact Nat.pos_of_ne_zero h0')
        have h₂ := Step.pop (N := ⟨N.owner, N.peer, cap', peer_peer⟩)
          (c := ⟨update c.proc (N.owner a) q, update c.sent a (c.sent a ++ [x])⟩) a
          (hr.of_update hne.symm)
          (show update c.sent a (c.sent a ++ [x]) a = x :: [] by simp [hq])
        refine (Relation.ReflTransGen.single h₁).tail ?_
        simpa [← hq] using h₂

/-- A run stays a run when links get more room. -/
theorem Reach.mono_cap {N' : Net P π} (howner : N'.owner = N.owner) (hpeer : N'.peer = N.peer)
    (hcap : ∀ a, N.cap a ≤ N'.cap a) (h : Reach N c d) : Reach N' c d := by
  induction h with
  | refl => exact .refl
  | tail _ hstep ih => exact ih.trans (hstep.mono_cap howner hpeer hcap)

end Runs

end Lib
end PrefillOpt
