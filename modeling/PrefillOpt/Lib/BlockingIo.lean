import Mathlib.Data.List.Basic
import Mathlib.Logic.Function.Basic
import Mathlib.Logic.Relation

/-!
# BlockingIo — sequential programs that block on full-duplex FIFO links

A *party* runs a sequential program whose only effects are

- `write d k` : hand the cells `d a` to every port `a`, then go on with `k`;
- `read n k`  : take `n a` cells from every port `a`, then go on with what was read.

Both drive all their ports concurrently and return only when every port is served.
A link joins a port to its `peer`; each direction is a FIFO queue of bounded capacity.
Capacity `0` is a rendezvous: a cell moves only while the other end is reading.

Cells move one at a time, so every way of cutting a transfer into partial sends and
receives is a run of `Step`.
-/

namespace PrefillOpt
namespace Lib

/-! ## Programs -/

/-- A sequential program over ports `π` and cells `β` that returns a `ρ`. -/
inductive Prog (π β ρ : Type) where
  | ret (r : ρ)
  | write (d : π → List β) (k : Prog π β ρ)
  | read (n : π → Nat) (k : (π → List β) → Prog π β ρ)

namespace Prog

variable {π β ρ τ υ : Type}

/-- Run one program, then the program chosen by its result. -/
protected def bind : Prog π β ρ → (ρ → Prog π β τ) → Prog π β τ
  | ret r, f => f r
  | write d k, f => write d (k.bind f)
  | read n k, f => read n fun g => (k g).bind f

instance : Monad (Prog π β) where
  pure := ret
  bind := Prog.bind

@[simp] theorem pure_eq (r : ρ) : (pure r : Prog π β ρ) = ret r := rfl

@[simp] theorem ret_bind (r : ρ) (f : ρ → Prog π β τ) : (ret r >>= f) = f r := rfl

@[simp] theorem write_bind (d : π → List β) (k : Prog π β ρ) (f : ρ → Prog π β τ) :
    (write d k >>= f) = write d (k >>= f) := rfl

@[simp] theorem read_bind (n : π → Nat) (k : (π → List β) → Prog π β ρ)
    (f : ρ → Prog π β τ) : (read n k >>= f) = read n fun g => k g >>= f := rfl

theorem bind_ret (p : Prog π β ρ) : (p >>= ret) = p := by
  induction p with
  | ret r => rfl
  | write d k ih =>
      rw [write_bind, ih]
  | read n k ih =>
      rw [read_bind]
      exact congrArg (read n) (funext ih)

theorem bind_assoc (p : Prog π β ρ) (f : ρ → Prog π β τ) (g : τ → Prog π β υ) :
    (p >>= f >>= g) = (p >>= fun r => f r >>= g) := by
  induction p with
  | ret r => rfl
  | write d k ih =>
      simp only [write_bind, ih]
  | read n k ih =>
      simp only [read_bind, ih]

end Prog

/-! ## What one party can do next -/

/-- One move of a party: `tau` returns from a served call, `out a x` gives the cell `x` to
port `a`, `inp a x` takes the cell `x` from port `a`. -/
inductive Ev (π β : Type) where
  | tau
  | out (a : π) (x : β)
  | inp (a : π) (x : β)

variable {P π β ρ : Type} [DecidableEq P] [DecidableEq π]

inductive Local : Prog π β ρ → Ev π β → Prog π β ρ → Prop where
  | wrote {d : π → List β} {k : Prog π β ρ} (h : ∀ a, d a = []) :
      Local (.write d k) .tau k
  | readAll {n : π → Nat} {k : (π → List β) → Prog π β ρ} (h : ∀ a, n a = 0) :
      Local (.read n k) .tau (k fun _ => [])
  | out {d : π → List β} {k : Prog π β ρ} {a : π} {x : β} {xs : List β} (h : d a = x :: xs) :
      Local (.write d k) (.out a x) (.write (Function.update d a xs) k)
  | inp {n : π → Nat} {k : (π → List β) → Prog π β ρ} {a : π} {m : Nat} (x : β)
      (h : n a = m + 1) :
      Local (.read n k) (.inp a x)
        (.read (Function.update n a m) fun g => k (Function.update g a (x :: g a)))

/-! ## Links and configurations -/

/-- The wiring: who drives a port, which port is at the other end, and how many cells the
direction that leaves a port can hold. -/
structure Net (P π : Type) where
  owner : π → P
  peer : π → π
  cap : π → Nat
  peer_peer : ∀ a, peer (peer a) = a

/-- The programs of all parties, and the cells in flight out of each port. -/
@[ext]
structure Config (P π β ρ : Type) where
  proc : P → Prog π β ρ
  sent : π → List β

namespace Config

/-- Every party has returned. -/
def Final (c : Config P π β ρ) : Prop :=
  ∀ p, ∃ r, c.proc p = .ret r

end Config

/-- One step of the whole system. -/
inductive Step (N : Net P π) : Config P π β ρ → Config P π β ρ → Prop where
  | tau {c : Config P π β ρ} (p : P) {q : Prog π β ρ} (h : Local (c.proc p) .tau q) :
      Step N c ⟨Function.update c.proc p q, c.sent⟩
  | push {c : Config P π β ρ} (a : π) {x : β} {q : Prog π β ρ}
      (h : Local (c.proc (N.owner a)) (.out a x) q) (hcap : (c.sent a).length < N.cap a) :
      Step N c ⟨Function.update c.proc (N.owner a) q,
        Function.update c.sent a (c.sent a ++ [x])⟩
  | pop {c : Config P π β ρ} (a : π) {x : β} {xs : List β} {q : Prog π β ρ}
      (h : Local (c.proc (N.owner (N.peer a))) (.inp (N.peer a) x) q)
      (hq : c.sent a = x :: xs) :
      Step N c ⟨Function.update c.proc (N.owner (N.peer a)) q, Function.update c.sent a xs⟩
  | meet {c : Config P π β ρ} (a : π) {x : β} {q r : Prog π β ρ}
      (hs : Local (c.proc (N.owner a)) (.out a x) q)
      (hr : Local (c.proc (N.owner (N.peer a))) (.inp (N.peer a) x) r)
      (hcap : N.cap a = 0) (hq : c.sent a = []) :
      Step N c ⟨Function.update (Function.update c.proc (N.owner a) q)
        (N.owner (N.peer a)) r, c.sent⟩

/-- Any number of steps, in any order. -/
abbrev Reach (N : Net P π) : Config P π β ρ → Config P π β ρ → Prop :=
  Relation.ReflTransGen (Step N)

/-- No step is possible. -/
def Stuck (N : Net P π) (c : Config P π β ρ) : Prop :=
  ∀ c', ¬ Step N c c'

end Lib
end PrefillOpt
