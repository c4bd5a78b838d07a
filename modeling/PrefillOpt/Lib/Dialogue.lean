import Mathlib.Data.Vector.Basic
import PrefillOpt.Lib.Calls
import PrefillOpt.Lib.Exec
import PrefillOpt.Lib.RawBytes

/-!
# Dialogue — two programs at the two ends of one link

A program that may throw is an `Io`.  `Talks a b p q r s` says that `p`, which speaks through port
`a`, and `q`, which speaks through port `b`, take turns without a mismatch and return `r` and `s`.
A writer and a reader are checked against each other by following both texts at once: one rule
for each call, `bind` for what comes next, `each_times` for a loop on either side.
-/

namespace PrefillOpt
namespace Lib

variable {π β ρ σ ρ' σ' ε τ : Type} [DecidableEq π]

/-- A program that returns a value or throws. -/
abbrev Io (π β ε ρ : Type) := ExceptT ε (Prog π β) ρ

instance : LawfulMonad (Prog π β) :=
  LawfulMonad.mk' _ Prog.bind_ret (fun _ _ => rfl) Prog.bind_assoc

namespace Io

def write (a : π) (xs : List β) : Io π β ε Unit :=
  ExceptT.mk (Prog.write1 a xs >>= fun _ => .ret (.ok ()))

def read (a : π) (n : Nat) : Io π β ε (List β) :=
  ExceptT.mk (Prog.read1 a n >>= fun xs => .ret (.ok xs))

/-- A computation without calls. -/
def ofExcept (e : Except ε ρ) : Io π β ε ρ :=
  ExceptT.mk (.ret e)

omit [DecidableEq π] in
@[simp] theorem ofExcept_ok (r : ρ) : (ofExcept (.ok r) : Io π β ε ρ) = pure r := rfl

/-- A loop over the elements of a list. -/
def each (f : τ → Io π β ε Unit) : List τ → Io π β ε Unit
  | [] => pure ()
  | x :: xs => do
      f x
      each f xs

/-- A loop that collects `n` values. -/
def times (p : Io π β ε τ) : (n : Nat) → Io π β ε (List.Vector τ n)
  | 0 => pure .nil
  | n + 1 => do
      let x ← p
      let xs ← times p n
      pure (x ::ᵥ xs)

def writeRaw [Raw τ] (a : π) (x : τ) : Io π UInt8 ε Unit :=
  write a (Raw.store x)

def readRaw (τ : Type) [Raw τ] (a : π) : Io π UInt8 ε τ := do
  let bs ← read a (Raw.size τ)
  return Raw.load bs

end Io

/-! ## Traces of programs that may throw -/

/-- The program makes the moves `es` and returns `r`. -/
def Runs (p : Io π β ε ρ) (es : List (LEv π β)) (r : ρ) : Prop :=
  Trace p.run es (.ok r)

namespace Runs

theorem pure (r : ρ) : Runs (Pure.pure r : Io π β ε ρ) [] r :=
  Trace.ret _

theorem bind {p : Io π β ε ρ} {es : List (LEv π β)} {r : ρ} (hp : Runs p es r)
    {f : ρ → Io π β ε τ} {l : List (LEv π β)} {t : τ} (hf : Runs (f r) l t) :
    Runs (p >>= f) (es ++ l) t := by
  unfold Runs at *
  rw [ExceptT.run_bind]
  exact Trace.bind hp hf

theorem write (a : π) (xs : List β) : Runs (Io.write a xs : Io π β ε Unit) [.out a xs] () :=
  (Trace.write1 a xs).bind (l := []) (.ret _)

theorem read {a : π} {n : Nat} {xs : List β} (h : xs.length = n) :
    Runs (Io.read a n : Io π β ε (List β)) [.inp a xs] xs :=
  (Trace.read1 h).bind (l := []) (.ret _)

theorem writeRaw [Raw τ] (a : π) (x : τ) :
    Runs (Io.writeRaw a x : Io π UInt8 ε Unit) [.out a (Raw.store x)] () :=
  write a (Raw.store x)

theorem readRaw [Raw τ] (a : π) (x : τ) :
    Runs (Io.readRaw τ a : Io π UInt8 ε τ) [.inp a (Raw.store x)] x := by
  have h := (read (ε := ε) (a := a) (Raw.store_length x)).bind
    (f := fun bs => Pure.pure (Raw.load (α := τ) bs)) (Runs.pure _)
  rwa [Raw.load_store, List.append_nil] at h

theorem each {f : τ → Io π β ε Unit} {es : τ → List (LEv π β)} (ws : List τ)
    (h : ∀ w ∈ ws, Runs (f w) (es w) ()) : Runs (Io.each f ws) (ws.flatMap es) () := by
  induction ws with
  | nil => exact Runs.pure ()
  | cons w ws ih =>
      rw [List.flatMap_cons]
      refine (h w (List.mem_cons_self ..)).bind ?_
      exact ih fun w' hw' => h w' (List.mem_cons_of_mem _ hw')

theorem write_bind {a : π} {xs : List β} {f : Unit → Io π β ε ρ} {es : List (LEv π β)} {r : ρ}
    (h : Runs (f ()) es r) : Runs (Io.write a xs >>= f) (.out a xs :: es) r :=
  (write a xs).bind h

theorem read_bind {a : π} {n : Nat} {xs : List β} (hlen : xs.length = n)
    {f : List β → Io π β ε ρ} {es : List (LEv π β)} {r : ρ} (h : Runs (f xs) es r) :
    Runs (Io.read a n >>= f) (.inp a xs :: es) r :=
  (read hlen).bind h

theorem bind_pure {p : Io π β ε ρ} {es : List (LEv π β)} {r : ρ} (h : Runs p es r) (f : ρ → τ) :
    Runs (p >>= fun x => Pure.pure (f x)) es (f r) := by
  have hall := h.bind (f := fun x => Pure.pure (f x)) (pure (f r))
  rwa [List.append_nil] at hall

theorem map {p : Io π β ε ρ} {es : List (LEv π β)} {r : ρ} (h : Runs p es r) (f : ρ → τ) :
    Runs (f <$> p) es (f r) := by
  rw [← bind_pure_comp]
  exact h.bind_pure f

theorem writes (a : π) (ws : List (List β)) :
    Runs (Io.each (Io.write a) ws : Io π β ε Unit) (ws.map (.out a)) () := by
  rw [List.map_eq_flatMap]
  exact each ws fun w _ => write a w

end Runs

/-! ## Two programs face to face -/

/-- What one side says to the other. -/
inductive Say (β : Type) where
  | left (xs : List β)
  | right (xs : List β)

def Say.atLeft (a : π) : Say β → LEv π β
  | .left xs => .out a xs
  | .right xs => .inp a xs

def Say.atRight (b : π) : Say β → LEv π β
  | .left xs => .inp b xs
  | .right xs => .out b xs

/-- The same words with the two sides exchanged. -/
def Say.swap : Say β → Say β
  | .left xs => .right xs
  | .right xs => .left xs

/-- Both programs follow one dialogue. -/
def Talks (a b : π) (p : Io π β ε ρ) (q : Io π β ε σ) (r : ρ) (s : σ) : Prop :=
  ∃ D : List (Say β), Runs p (D.map (Say.atLeft a)) r ∧ Runs q (D.map (Say.atRight b)) s

namespace Talks

variable {a b : π} {p : Io π β ε ρ} {q : Io π β ε σ} {r : ρ} {s : σ}

theorem pure (r : ρ) (s : σ) :
    Talks a b (Pure.pure r : Io π β ε ρ) (Pure.pure s : Io π β ε σ) r s :=
  ⟨[], Runs.pure r, Runs.pure s⟩

theorem bind (h : Talks a b p q r s) {f : ρ → Io π β ε ρ'} {g : σ → Io π β ε σ'} {r' : ρ'}
    {s' : σ'} (h' : Talks a b (f r) (g s) r' s') : Talks a b (p >>= f) (q >>= g) r' s' := by
  rcases h with ⟨D, hp, hq⟩
  rcases h' with ⟨D', hf, hg⟩
  refine ⟨D ++ D', ?_, ?_⟩
  · rw [List.map_append]
    exact hp.bind hf
  · rw [List.map_append]
    exact hq.bind hg

/-- The other side goes on without a word. -/
theorem bind_right (h : Talks a b p q r s) {g : σ → Io π β ε σ'} {s' : σ'}
    (hg : g s = Pure.pure s') : Talks a b p (q >>= g) r s' := by
  rcases h with ⟨D, hp, hq⟩
  have hq' := hq.bind (f := g) (hg ▸ Runs.pure s')
  rw [List.append_nil] at hq'
  exact ⟨D, hp, hq'⟩

theorem bind_pure (h : Talks a b p q r s) (g : σ → σ') :
    Talks a b p (q >>= fun x => Pure.pure (g x)) r (g s) :=
  h.bind_right rfl

theorem swap (h : Talks a b p q r s) : Talks b a q p s r := by
  rcases h with ⟨D, hp, hq⟩
  have hleft : (D.map Say.swap).map (Say.atLeft b) = D.map (Say.atRight b) := by
    rw [List.map_map]
    exact List.map_congr_left fun e _ => by cases e <;> rfl
  have hright : (D.map Say.swap).map (Say.atRight a) = D.map (Say.atLeft a) := by
    rw [List.map_map]
    exact List.map_congr_left fun e _ => by cases e <;> rfl
  exact ⟨D.map Say.swap, hleft ▸ hq, hright ▸ hp⟩

/-- The left side writes what the right side reads. -/
theorem toRight {xs : List β} {n : Nat} (h : xs.length = n) :
    Talks a b (Io.write a xs : Io π β ε Unit) (Io.read b n) () xs :=
  ⟨[.left xs], Runs.write a xs, Runs.read h⟩

/-- A loop that writes against a loop that reads. -/
theorem each_times {α : Type} {f : α → Io π β ε Unit} {q : Io π β ε τ} (g : α → τ) {n : Nat}
    (xs : List.Vector α n) (h : ∀ x ∈ xs.toList, Talks a b (f x) q () (g x)) :
    Talks a b (Io.each f xs.toList) (Io.times q n) () (xs.map g) := by
  induction n with
  | zero =>
      rw [xs.eq_nil]
      exact .pure () _
  | succ n ih =>
      have hcons : xs.head ::ᵥ xs.tail = xs := xs.cons_head_tail
      rw [← hcons, List.Vector.toList_cons] at h ⊢
      rw [List.Vector.map_cons]
      refine (h _ (List.mem_cons_self ..)).bind ?_
      exact (ih _ fun x hx => h x (List.mem_cons_of_mem _ hx)).bind_pure (g xs.head ::ᵥ ·)

end Talks

/-- A raw value arrives as it was. -/
theorem Talks.raw [Raw τ] (a b : π) (x : τ) :
    Talks a b (Io.writeRaw a x : Io π UInt8 ε Unit) (Io.readRaw τ b) () x := by
  have h := (Talks.toRight (ε := ε) (a := a) (b := b) (Raw.store_length x)).bind_pure
    (Raw.load (α := τ))
  rwa [Raw.load_store] at h

/-! ## The bytes of a dialogue -/

def Say.fromLeft : Say β → List β
  | .left xs => xs
  | .right _ => []

def Say.fromRight : Say β → List β
  | .left _ => []
  | .right xs => xs

theorem ins_atRight (a b : π) (D : List (Say β)) :
    ins a (D.map (Say.atRight b)) = if b = a then D.flatMap Say.fromLeft else [] := by
  induction D with
  | nil => simp [ins]
  | cons e D ih =>
      cases e <;> by_cases h : b = a <;> simp_all [Say.atRight, Say.fromLeft]

theorem outs_atRight (a b : π) (D : List (Say β)) :
    outs a (D.map (Say.atRight b)) = if b = a then D.flatMap Say.fromRight else [] := by
  induction D with
  | nil => simp [outs]
  | cons e D ih =>
      cases e <;> by_cases h : b = a <;> simp_all [Say.atRight, Say.fromRight]

/-! ## One party that talks with several others in turn -/

/-- The message that a word of a dialogue is. -/
def Say.msg (a b : π) : Say β → GEv π β
  | .left xs => .msg a xs
  | .right xs => .msg b xs

section View

variable {P : Type} [DecidableEq P] {N : Net P π} {a b : π}

omit [DecidableEq π] in
theorem view_say (hpeer : N.peer a = b) (hne : N.owner a ≠ N.owner b) (D : List (Say β)) (p : P) :
    view N p (D.map (Say.msg a b))
      = if N.owner a = p then D.map (Say.atLeft a)
        else if N.owner b = p then D.map (Say.atRight b) else [] := by
  have hback : N.peer b = a := hpeer ▸ N.peer_peer a
  have hboth : ¬ (N.owner a = p ∧ N.owner b = p) := fun h => hne (h.1.trans h.2.symm)
  induction D with
  | nil => simp
  | cons e D ih =>
      rw [List.map_cons, view_cons, ih]
      cases e <;> by_cases ha : N.owner a = p <;> by_cases hb : N.owner b = p <;>
        simp_all [Say.msg, GEv.view, Say.atLeft, Say.atRight]

omit [DecidableEq π] [DecidableEq P] in
theorem sched_say (hpeer : N.peer a = b) (hne : N.owner a ≠ N.owner b) {D : List (Say β)}
    {e : GEv π β} (he : e ∈ D.map (Say.msg a b)) :
    ∃ c xs, e = .msg c xs ∧ N.owner c ≠ N.owner (N.peer c) := by
  have hback : N.peer b = a := hpeer ▸ N.peer_peer a
  rcases List.mem_map.1 he with ⟨say, _, rfl⟩
  cases say with
  | left xs => exact ⟨a, xs, rfl, hpeer ▸ hne⟩
  | right xs => exact ⟨b, xs, rfl, hback ▸ hne.symm⟩

end View

section Hub

variable {P ι : Type} [DecidableEq P] [DecidableEq ι]

/-- The hub drives the near end `a w` of every link, another party `party w` the far end `b w`. -/
structure Hub (N : Net P π) (hub : P) (party : ι → P) (a b : ι → π) (ws : List ι) : Prop where
  nodup : ws.Nodup
  party_inj : ∀ w ∈ ws, ∀ w' ∈ ws, party w = party w' → w = w'
  near : ∀ w ∈ ws, N.owner (a w) = hub
  far : ∀ w ∈ ws, N.owner (b w) = party w
  joined : ∀ w ∈ ws, N.peer (a w) = b w
  away : ∀ w ∈ ws, party w ≠ hub

namespace Hub

variable {N : Net P π} {hub : P} {party : ι → P} {a b : ι → π} {ws : List ι}

omit [DecidableEq π] [DecidableEq P] [DecidableEq ι] in
theorem away' (H : Hub N hub party a b ws) {w : ι} (hw : w ∈ ws) :
    N.owner (a w) ≠ N.owner (b w) := by
  rw [H.near w hw, H.far w hw]
  exact (H.away w hw).symm

section Tasks

/-! The hub has a list of tasks; task `t` is a dialogue `D t` with the party of `dest t`. -/

variable {ts : List τ} {dest : τ → ι}

omit [DecidableEq π] [DecidableEq ι] in
theorem view_hub (H : Hub N hub party a b ws) (hdest : ∀ t ∈ ts, dest t ∈ ws)
    (D : τ → List (Say β)) :
    view N hub (ts.flatMap fun t => (D t).map (Say.msg (a (dest t)) (b (dest t))))
      = ts.flatMap fun t => (D t).map (Say.atLeft (a (dest t))) := by
  rw [view_flatMap]
  refine List.flatMap_congr fun t ht => ?_
  have hw := hdest t ht
  rw [view_say (H.joined _ hw) (H.away' hw), if_pos (H.near _ hw)]

omit [DecidableEq π] in
theorem view_party (H : Hub N hub party a b ws) (hdest : ∀ t ∈ ts, dest t ∈ ws)
    (D : τ → List (Say β)) {w : ι} (hw : w ∈ ws) :
    view N (party w) (ts.flatMap fun t => (D t).map (Say.msg (a (dest t)) (b (dest t))))
      = ((ts.filter fun t => dest t = w).flatMap D).map (Say.atRight (b w)) := by
  have hpart : ∀ t ∈ ts, view N (party w) ((D t).map (Say.msg (a (dest t)) (b (dest t))))
      = if dest t = w then (D t).map (Say.atRight (b w)) else [] := by
    intro t ht
    have hw' := hdest t ht
    rw [view_say (H.joined _ hw') (H.away' hw'), H.near _ hw', H.far _ hw',
      if_neg (H.away w hw).symm]
    by_cases h : dest t = w
    · rw [h, if_pos rfl, if_pos rfl]
    · have hparty : party (dest t) ≠ party w := fun heq => h (H.party_inj _ hw' w hw heq)
      rw [if_neg h, if_neg hparty]
  rw [view_flatMap, List.flatMap_congr hpart, List.map_flatMap]
  clear hpart hdest
  induction ts with
  | nil => rfl
  | cons t ts ih =>
      by_cases h : dest t = w <;> simp [h, ih]

omit [DecidableEq π] [DecidableEq ι] in
theorem view_other (H : Hub N hub party a b ws) (hdest : ∀ t ∈ ts, dest t ∈ ws)
    (D : τ → List (Say β)) {p : P} (hp : p ≠ hub) (hps : ∀ w ∈ ws, p ≠ party w) :
    view N p (ts.flatMap fun t => (D t).map (Say.msg (a (dest t)) (b (dest t)))) = [] := by
  rw [view_flatMap]
  refine List.flatMap_eq_nil_iff.2 fun t ht => ?_
  have hw := hdest t ht
  rw [view_say (H.joined _ hw) (H.away' hw), H.near _ hw, H.far _ hw, if_neg hp.symm,
    if_neg (hps _ hw).symm]

/-- The hub does its tasks one after the other.  Whatever the links can hold and however the
parties are interleaved, everybody gets to the end of what it has to say and to hear. -/
theorem completes_tasks (H : Hub N hub party a b ws) (ts : List τ) (dest : τ → ι)
    (hdest : ∀ t ∈ ts, dest t ∈ ws) (D : τ → List (Say β)) {c : Config P π β (Except ε ρ)}
    {r : P → Except ε ρ}
    (hsent : c.sent = fun _ => [])
    (hhub : Trace (c.proc hub) (ts.flatMap fun t => (D t).map (Say.atLeft (a (dest t)))) (r hub))
    (hparty : ∀ w ∈ ws, Trace (c.proc (party w))
      (((ts.filter fun t => dest t = w).flatMap D).map (Say.atRight (b w))) (r (party w)))
    (hother : ∀ p, p ≠ hub → (∀ w ∈ ws, p ≠ party w) → c.proc p = .ret (r p)) :
    Completes N c r := by
  let G := ts.flatMap fun t => (D t).map (Say.msg (a (dest t)) (b (dest t)))
  have hsched : Sched N c.sent G := by
    rw [hsent]
    refine Sched.of_msgs fun e he => ?_
    rcases List.mem_flatMap.1 he with ⟨t, ht, he⟩
    have hw := hdest t ht
    exact sched_say (H.joined _ hw) (H.away' hw) he
  have htrace : ∀ p, Trace (c.proc p) (view N p G) (r p) := by
    intro p
    by_cases hp : p = hub
    · subst hp
      rw [H.view_hub hdest]
      exact hhub
    · by_cases hps : ∀ w ∈ ws, p ≠ party w
      · rw [H.view_other hdest D hp hps, hother p hp hps]
        exact .ret _
      · push Not at hps
        rcases hps with ⟨w, hw, rfl⟩
        rw [H.view_party hdest D hw]
        exact hparty w hw
  refine hsched.completes (hub :: ws.map party) (fun p hp => ?_) htrace
  simp only [List.mem_cons, List.mem_map, not_or, not_exists, not_and] at hp
  exact hother p hp.1 fun w hw h => hp.2 w hw h.symm

end Tasks

/-- The hub serves the others one by one. -/
theorem completes (H : Hub N hub party a b ws) {c : Config P π β (Except ε ρ)}
    {r : P → Except ε ρ} (hsent : c.sent = fun _ => []) {f : ι → Io π β ε Unit} {r₀ : ρ}
    (hhub : c.proc hub = (Io.each f ws >>= fun _ => Pure.pure r₀ : Io π β ε ρ).run)
    (hr₀ : r hub = .ok r₀)
    (hparty : ∀ w ∈ ws, ∃ (q : Io π β ε ρ) (s : ρ), c.proc (party w) = q.run ∧
      r (party w) = .ok s ∧ Talks (a w) (b w) (f w) q () s)
    (hother : ∀ p, p ≠ hub → (∀ w ∈ ws, p ≠ party w) → c.proc p = .ret (r p)) :
    Completes N c r := by
  choose! q s hproc hr htalk using hparty
  choose! D hleft hright using htalk
  refine H.completes_tasks ws id (fun _ hw => hw) D hsent ?_ ?_ hother
  · rw [hhub, hr₀]
    have hrun := (Runs.each _ hleft).bind (f := fun _ => Pure.pure r₀) (Runs.pure r₀)
    rwa [List.append_nil] at hrun
  · intro w hw
    have honly : (ws.filter fun w' => id w' = w) = [w] := by
      have h := List.filter_eq (l := ws) w
      rwa [List.count_eq_one_of_mem H.nodup hw] at h
    rw [honly, List.flatMap_singleton, hproc w hw, hr w hw]
    exact hright w hw

end Hub

end Hub

end Lib
end PrefillOpt
