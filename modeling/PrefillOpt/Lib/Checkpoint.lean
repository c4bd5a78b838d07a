import Mathlib.Data.List.Induction

/-!
# Checkpoint — a stream that is taken up again where its output was settled

A machine reads a stream.  A step either goes on with its work or settles it: the output of the
work is given out and the work starts anew.  The input since then is undecided.  When the stream
comes in pieces, only the undecided input is kept from one piece to the next, and the work on it is
done again.
-/

namespace PrefillOpt
namespace Lib

/-- How far a stream is read. -/
structure Progress (α β σ : Type) where
  settled : List β
  undecided : List α
  work : σ

namespace Progress

variable {α β σ : Type} (step : σ → α → σ ⊕ List β) (start : σ)

def fresh : Progress α β σ :=
  ⟨[], [], start⟩

/-- What a step on `a` makes of it. -/
def resolve (p : Progress α β σ) (a : α) : σ ⊕ List β → Progress α β σ
  | .inl work => ⟨p.settled, p.undecided ++ [a], work⟩
  | .inr output => ⟨p.settled ++ output, [], start⟩

def feed (p : Progress α β σ) (a : α) : Progress α β σ :=
  resolve start p a (step p.work a)

/-- A stream from its beginning. -/
def process (input : List α) : Progress α β σ :=
  input.foldl (feed step start) (fresh start)

/-- What was given out before. -/
def after (output : List β) (p : Progress α β σ) : Progress α β σ :=
  { p with settled := output ++ p.settled }

/-- A piece of the stream: the undecided input is read again, with the piece behind it. -/
def piece (s : List α × List β) (input : List α) : List α × List β :=
  let p := process step start (s.1 ++ input)
  (p.undecided, s.2 ++ p.settled)

variable {step start} {p : Progress α β σ} {input more : List α} {output : List β}

@[simp] theorem process_nil : process step start [] = fresh start := rfl

@[simp] theorem after_nil : after [] p = p := rfl

@[simp] theorem after_undecided : (after output p).undecided = p.undecided := rfl

@[simp] theorem after_settled : (after output p).settled = output ++ p.settled := rfl

/-- The machine does not look at what was given out. -/
theorem foldl_after :
    input.foldl (feed step start) (after output p)
      = after output (input.foldl (feed step start) p) := by
  induction input generalizing p with
  | nil => rfl
  | cons a input ih =>
      have hfeed : feed step start (after output p) a = after output (feed step start p a) := by
        simp only [feed, after]
        cases step p.work a with
        | inl work => rfl
        | inr given => simp only [resolve, List.append_assoc]
      rw [List.foldl_cons, hfeed, ih, List.foldl_cons]

/-- Reading on from where the machine is. -/
theorem process_append_foldl :
    process step start (input ++ more)
      = more.foldl (feed step start) (process step start input) :=
  List.foldl_append

theorem process_append_singleton (a : α) :
    process step start (input ++ [a]) = feed step start (process step start input) a :=
  process_append_foldl

/-- The work on the undecided input, done again. -/
theorem process_undecided :
    process step start (process step start input).undecided
      = { process step start input with settled := [] } := by
  induction input using List.reverseRecOn with
  | nil => rfl
  | append_singleton input a ih =>
      rw [process_append_singleton, feed]
      cases hstep : step (process step start input).work a with
      | inl work => simp only [resolve, process_append_singleton, ih, feed, hstep]
      | inr given => rfl

/-- Reading on is the same as reading the undecided input again. -/
theorem process_append :
    process step start (input ++ more)
      = after (process step start input).settled
          (process step start ((process step start input).undecided ++ more)) := by
  have hbefore : process step start input
      = after (process step start input).settled
          (process step start (process step start input).undecided) := by
    rw [process_undecided]
    simp only [after, List.append_nil]
  calc
    process step start (input ++ more)
        = more.foldl (feed step start) (process step start input) := process_append_foldl
    _ = after (process step start input).settled
          (more.foldl (feed step start)
            (process step start (process step start input).undecided)) := by
          rw [← foldl_after, ← hbefore]
    _ = after (process step start input).settled
          (process step start ((process step start input).undecided ++ more)) := by
          rw [← process_append_foldl]

theorem process_append_of_undecided_nil (h : (process step start input).undecided = []) :
    process step start (input ++ more)
      = after (process step start input).settled (process step start more) := by
  rw [process_append, h, List.nil_append]

/-- The undecided input is the end of the input. -/
theorem undecided_suffix : (process step start input).undecided <:+ input := by
  induction input using List.reverseRecOn with
  | nil => exact List.suffix_refl []
  | append_singleton input a ih =>
      rw [process_append_singleton, feed]
      cases step (process step start input).work a with
      | inl work =>
          rcases ih with ⟨before, hbefore⟩
          exact ⟨before, by rw [resolve, ← List.append_assoc, hbefore]⟩
      | inr given => exact List.nil_suffix

/-- What is given out is not taken back. -/
theorem settled_prefix :
    (process step start input).settled <+: (process step start (input ++ more)).settled := by
  rw [process_append]
  exact List.prefix_append _ _

end Progress

end Lib
end PrefillOpt
