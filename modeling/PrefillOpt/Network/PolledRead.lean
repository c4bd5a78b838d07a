import Mathlib.Order.Monotone.Basic

/-!
# Network.PolledRead — reads that may come back without data

`nn-network.cpp`: `tryReadSocket`, `readSocket`, `NnNetwork::read` and
`NnNetwork::tryReadWithMaxAttempts` on one socket.  Every `recv` and every look at the clock is a
moment; what a `recv` finds there is up to the network.
-/

namespace PrefillOpt
namespace Network
namespace PolledRead

/-! ## The socket -/

/-- What a `recv` finds. -/
inductive Recv where
  -- one byte and up to `more` that came with it
  | bytes (more : Nat)
  | wouldBlock
  | closed
  | error

/-- The other end of a socket, with a steady clock in milliseconds. -/
structure Peer where
  stream : Nat → UInt8
  recv : Nat → Recv
  clock : Nat → Nat
  clock_mono : Monotone clock
  clock_unbounded : ∀ t, ∃ i, t ≤ clock i

/-- The settings from the environment. -/
structure NetEnv where
  netIoChunkBytes : Option Nat
  hardTimeoutMs : Nat

/-- `getNetIoChunkSize`; `none` is an unset or malformed variable, or a zero. -/
def NetEnv.ioChunkSize (env : NetEnv) : Nat :=
  match env.netIoChunkBytes with
  | none => 65536
  | some parsed => min (max parsed 4096) (1024 * 1024)

theorem NetEnv.ioChunkSize_pos (env : NetEnv) : 0 < env.ioChunkSize := by
  rw [ioChunkSize]
  split <;> omega

/-- How many bytes have been taken from the stream, and the next moment. -/
structure Conn where
  taken : Nat
  moment : Nat
deriving DecidableEq

/-- The bytes of the stream from a place on. -/
def Peer.bytes (peer : Peer) (place n : Nat) : List UInt8 :=
  (List.range n).map fun i => peer.stream (place + i)

/-- How a call ends: with its data, without data, or by an exception after some data. -/
inductive Outcome where
  | done (data : List UInt8)
  | notYet
  | thrown (data : List UInt8)
deriving DecidableEq

/-! ## The loop -/

/-- The variables of `tryReadSocket`; `s` is `size` less the length of `data`. -/
structure Pending where
  data : List UInt8
  maxAttempts : Nat
  lastProgressTime : Nat

/-- What an iteration leads to. -/
inductive Iteration where
  | again (c : Conn) (p : Pending)
  | ends (c : Conn) (o : Outcome)

section Calls

variable (peer : Peer) (env : NetEnv)

/-- The body of the loop. -/
def iteration (size : Nat) (c : Conn) (p : Pending) : Iteration :=
  let s := size - p.data.length
  let now := peer.clock c.moment
  match peer.recv c.moment with
  | .wouldBlock =>
      let counts := s = size ∧ 0 < p.maxAttempts
      let maxAttempts := if counts then p.maxAttempts - 1 else p.maxAttempts
      if counts ∧ maxAttempts = 0 then .ends ⟨c.taken, c.moment + 1⟩ .notYet
      else if env.hardTimeoutMs ≤ now - p.lastProgressTime then
        .ends ⟨c.taken, c.moment + 1⟩ (.thrown p.data)
      else .again ⟨c.taken, c.moment + 1⟩ { p with maxAttempts := maxAttempts }
  | .error => .ends ⟨c.taken, c.moment + 1⟩ (.thrown p.data)
  | .closed => .ends ⟨c.taken, c.moment + 1⟩ (.thrown p.data)
  | .bytes more =>
      let r := min (more + 1) s
      .again ⟨c.taken + r, c.moment + 1⟩
        { p with data := p.data ++ peer.bytes c.taken r, lastProgressTime := now }

/-- `while (s > 0)`; without fuel the call is still waiting. -/
def tryReadLoop (size : Nat) : Nat → Conn → Pending → Option (Outcome × Conn)
  | 0, c, p => if p.data.length = size then some (.done p.data, c) else none
  | fuel + 1, c, p =>
      if p.data.length = size then some (.done p.data, c)
      else
        match iteration peer env size c p with
        | .again c p => tryReadLoop size fuel c p
        | .ends c o => some (o, c)

def tryReadSocket (fuel : Nat) (c : Conn) (size maxAttempts : Nat) : Option (Outcome × Conn) :=
  tryReadLoop peer env size fuel ⟨c.taken, c.moment + 1⟩ ⟨[], maxAttempts, peer.clock c.moment⟩

def readSocket (fuel : Nat) (c : Conn) (size : Nat) : Option (Outcome × Conn) := do
  match ← tryReadSocket peer env fuel c size 0 with
  | (.notYet, c) => return (.thrown [], c)
  | (o, c) => return (o, c)

/-- The loop of `NnNetwork::read`, from `chunk` on. -/
def readChunks (size : Nat) : Nat → Nat → Conn → List UInt8 → Option (Outcome × Conn)
  | 0, chunk, c, current => if size ≤ chunk then some (.done current, c) else none
  | fuel + 1, chunk, c, current => do
      if size ≤ chunk then return (.done current, c)
      let chunkSize := if chunk + env.ioChunkSize < size then env.ioChunkSize else size - chunk
      match ← readSocket peer env fuel c chunkSize with
      | (.done data, c) => readChunks size fuel (chunk + env.ioChunkSize) c (current ++ data)
      | (.thrown data, c) => return (.thrown (current ++ data), c)
      | (.notYet, c) => return (.notYet, c)

inductive NetCall where
  | tryReadWithMaxAttempts (size maxAttempts : Nat)
  | read (size : Nat)

def NetCall.size : NetCall → Nat
  | tryReadWithMaxAttempts size _ => size
  | read size => size

def NetCall.run (fuel : Nat) (c : Conn) : NetCall → Option (Outcome × Conn)
  | tryReadWithMaxAttempts size maxAttempts => tryReadSocket peer env fuel c size maxAttempts
  | read size => readChunks peer env size fuel 0 c []

/-- Calls on one socket, one after the other. -/
def runCalls (fuel : Nat) : List NetCall → Conn → Option (List Outcome × Conn)
  | [], c => some ([], c)
  | call :: calls, c => do
      let (o, c) ← call.run peer env fuel c
      let (os, c) ← runCalls fuel calls c
      return (o :: os, c)

end Calls

/-! ## Bytes of the stream -/

@[simp] theorem Peer.bytes_length (peer : Peer) (place n : Nat) :
    (peer.bytes place n).length = n := by
  rw [bytes, List.length_map, List.length_range]

@[simp] theorem Peer.bytes_zero (peer : Peer) (place : Nat) : peer.bytes place 0 = [] := rfl

theorem Peer.bytes_append (peer : Peer) (place n k : Nat) :
    peer.bytes place n ++ peer.bytes (place + n) k = peer.bytes place (n + k) := by
  rw [bytes, bytes, bytes, List.range_add, List.map_append, List.map_map]
  congr 1
  apply List.map_congr_left
  intro i _
  rw [Function.comp_apply, Nat.add_assoc]

/-! ## All or nothing -/

/-- What a call has taken from the stream. -/
def Outcome.data : Outcome → List UInt8
  | done data => data
  | notYet => []
  | thrown data => data

/-- A call takes what it returns, in order, and returns all or nothing unless it throws. -/
structure AllOrNothing (peer : Peer) (c : Conn) (size : Nat) (o : Outcome) (c' : Conn) : Prop where
  taken : c'.taken = c.taken + o.data.length
  in_order : o.data = peer.bytes c.taken o.data.length
  whole : ∀ data, o = .done data → data.length = size
  short : ∀ data, o = .thrown data → data.length < size

/-- Between two iterations. -/
structure Reading (peer : Peer) (start : Conn) (size : Nat) (c : Conn) (data : List UInt8) :
    Prop where
  taken : c.taken = start.taken + data.length
  in_order : data = peer.bytes start.taken data.length
  le_size : data.length ≤ size

def Iteration.Keeps (peer : Peer) (start : Conn) (size : Nat) : Iteration → Prop
  | again c p => Reading peer start size c p.data
  | ends c o => AllOrNothing peer start size o c

section Spec

variable {peer : Peer} {env : NetEnv} {start c : Conn} {size : Nat} {p : Pending}
  {data : List UInt8}

theorem AllOrNothing.thrown (h : Reading peer start size c data) (hmore : data.length ≠ size)
    (moment : Nat) : AllOrNothing peer start size (.thrown data) ⟨c.taken, moment⟩ where
  taken := h.taken
  in_order := h.in_order
  whole _ heq := Outcome.noConfusion heq
  short _ heq := by
    cases heq
    exact Nat.lt_of_le_of_ne h.le_size hmore

theorem AllOrNothing.done (h : Reading peer start size c data) (hfull : data.length = size) :
    AllOrNothing peer start size (.done data) c where
  taken := h.taken
  in_order := h.in_order
  whole _ heq := by
    cases heq
    exact hfull
  short _ heq := Outcome.noConfusion heq

/-- Attempts run out only before the first byte. -/
theorem AllOrNothing.notYet (h : Reading peer start size c data)
    (hnone : size - data.length = size) (hmore : data.length ≠ size) (moment : Nat) :
    AllOrNothing peer start size .notYet ⟨c.taken, moment⟩ where
  taken := by
    have := h.taken
    have := h.le_size
    simp only [Outcome.data, List.length_nil]
    omega
  in_order := rfl
  whole _ heq := Outcome.noConfusion heq
  short _ heq := Outcome.noConfusion heq

/-- One `recv` adds the next bytes of the stream, or ends the call. -/
theorem iteration_keeps (h : Reading peer start size c p.data) (hmore : p.data.length ≠ size) :
    (iteration peer env size c p).Keeps peer start size := by
  rw [iteration]
  cases peer.recv c.moment with
  | bytes more =>
      have hr : min (more + 1) (size - p.data.length) ≤ size - p.data.length := min_le_right _ _
      generalize min (more + 1) (size - p.data.length) = r at hr
      have hin := h.in_order
      have hle := h.le_size
      constructor
      · simp only [List.length_append, Peer.bytes_length]
        rw [h.taken, Nat.add_assoc]
      · simp only [List.length_append, Peer.bytes_length]
        rw [← Peer.bytes_append, ← hin, h.taken]
      · simp only [List.length_append, Peer.bytes_length]
        omega
  | wouldBlock =>
      dsimp only
      by_cases hout : (size - p.data.length = size ∧ 0 < p.maxAttempts) ∧
          (if size - p.data.length = size ∧ 0 < p.maxAttempts then p.maxAttempts - 1
            else p.maxAttempts) = 0
      · rw [if_pos hout]
        exact .notYet h hout.1.1 hmore _
      · rw [if_neg hout]
        split
        · exact .thrown h hmore _
        · exact ⟨h.taken, h.in_order, h.le_size⟩
  | closed => exact .thrown h hmore _
  | error => exact .thrown h hmore _

theorem tryReadLoop_spec (fuel : Nat) (h : Reading peer start size c p.data) {o : Outcome}
    {c' : Conn} (hrun : tryReadLoop peer env size fuel c p = some (o, c')) :
    AllOrNothing peer start size o c' := by
  induction fuel generalizing c p with
  | zero =>
      rw [tryReadLoop] at hrun
      split_ifs at hrun with hfull
      cases hrun
      exact .done h hfull
  | succ fuel ih =>
      rw [tryReadLoop] at hrun
      split_ifs at hrun with hfull
      · cases hrun
        exact .done h hfull
      · have hkeeps : (iteration peer env size c p).Keeps peer start size :=
          iteration_keeps h hfull
        cases hnext : iteration peer env size c p with
        | again c₁ p₁ =>
            rw [hnext] at hrun hkeeps
            exact ih hkeeps hrun
        | ends c₁ o₁ =>
            rw [hnext] at hrun hkeeps
            cases hrun
            exact hkeeps

theorem tryReadSocket_spec {fuel maxAttempts : Nat} {o : Outcome} {c' : Conn}
    (hrun : tryReadSocket peer env fuel c size maxAttempts = some (o, c')) :
    AllOrNothing peer c size o c' :=
  tryReadLoop_spec fuel ⟨rfl, rfl, Nat.zero_le _⟩ hrun

/-! ## Calls return -/

/-- With enough fuel there is a result, always the same. -/
def Returns {α : Type} (f : Nat → Option α) : Prop :=
  ∃ r n, ∀ fuel ≥ n, f fuel = some r

theorem Returns.pure {α : Type} (r : α) : Returns fun _ => some r :=
  ⟨r, 0, fun _ _ => rfl⟩

theorem Returns.succ {α : Type} {f g : Nat → Option α} (hf : Returns f)
    (h : ∀ fuel, g (fuel + 1) = f fuel) : Returns g := by
  rcases hf with ⟨r, n, hr⟩
  refine ⟨r, n + 1, fun fuel hfuel => ?_⟩
  obtain ⟨fuel, rfl⟩ : ∃ k, fuel = k + 1 := ⟨fuel - 1, by omega⟩
  rw [h]
  exact hr fuel (by omega)

theorem Returns.bind {α β : Type} {f : Nat → Option α} {g : Nat → α → Option β}
    (hf : Returns f) (hg : ∀ a, Returns fun fuel => g fuel a) :
    Returns fun fuel => f fuel >>= g fuel := by
  rcases hf with ⟨a, n, ha⟩
  rcases hg a with ⟨b, m, hb⟩
  refine ⟨b, max n m, fun fuel hfuel => ?_⟩
  have hn : n ≤ fuel := (Nat.le_max_left n m).trans hfuel
  have hm : m ≤ fuel := (Nat.le_max_right n m).trans hfuel
  have heq : f fuel = some a := ha fuel hn
  change (f fuel >>= g fuel) = some b
  rw [heq]
  exact hb fuel hm

/-- An iteration that goes on has stored something, or is within the timeout. -/
theorem iteration_again {c' : Conn} {p' : Pending} (hle : p.data.length ≤ size)
    (hmore : p.data.length ≠ size) (hnext : iteration peer env size c p = .again c' p') :
    p'.data.length ≤ size ∧ (p.data.length < p'.data.length ∨
      p'.data = p.data ∧ p'.lastProgressTime = p.lastProgressTime ∧ c'.moment = c.moment + 1 ∧
        peer.clock c.moment < p.lastProgressTime + env.hardTimeoutMs) := by
  rw [iteration] at hnext
  cases hrecv : peer.recv c.moment with
  | bytes more =>
      rw [hrecv] at hnext
      cases hnext
      simp only [List.length_append, Peer.bytes_length]
      omega
  | wouldBlock =>
      rw [hrecv] at hnext
      dsimp only at hnext
      split_ifs at hnext <;> cases hnext <;> exact ⟨hle, .inr ⟨rfl, rfl, rfl, by omega⟩⟩
  | closed =>
      rw [hrecv] at hnext
      cases hnext
  | error =>
      rw [hrecv] at hnext
      cases hnext

theorem returns_done (hfull : p.data.length = size) :
    Returns fun fuel => tryReadLoop peer env size fuel c p := by
  refine ⟨(.done p.data, c), 0, fun fuel _ => ?_⟩
  cases fuel with
  | zero => exact if_pos hfull
  | succ fuel => exact if_pos hfull

theorem returns_of_next (hmore : p.data.length ≠ size)
    (hnext : ∀ c' p', iteration peer env size c p = .again c' p' →
      Returns fun fuel => tryReadLoop peer env size fuel c' p') :
    Returns fun fuel => tryReadLoop peer env size fuel c p := by
  cases hiter : iteration peer env size c p with
  | again c' p' =>
      apply Returns.succ (hnext c' p' hiter)
      intro fuel
      rw [tryReadLoop, if_neg hmore, hiter]
  | ends c' o =>
      apply Returns.succ (Returns.pure (o, c'))
      intro fuel
      rw [tryReadLoop, if_neg hmore, hiter]

/-- Each byte brings the end nearer, and without bytes the clock passes the timeout. -/
theorem tryReadLoop_returns (peer : Peer) (env : NetEnv) {size : Nat} (s : Nat) {c : Conn}
    {p : Pending} (hs : size - p.data.length ≤ s) (hle : p.data.length ≤ size) :
    Returns fun fuel => tryReadLoop peer env size fuel c p := by
  induction s generalizing c p with
  | zero => exact returns_done (by omega)
  | succ s ih =>
      rcases peer.clock_unbounded (p.lastProgressTime + env.hardTimeoutMs) with ⟨i, hi⟩
      obtain ⟨k, hk⟩ : ∃ k, i ≤ c.moment + k := ⟨i, Nat.le_add_left _ _⟩
      -- the moments that are left before the timeout
      induction k generalizing c p with
      | zero =>
          by_cases hmore : p.data.length = size
          · exact returns_done hmore
          · apply returns_of_next hmore
            intro c' p' hnext
            rcases iteration_again hle hmore hnext with ⟨hle', hstored | ⟨-, -, -, hwithin⟩⟩
            · exact ih (by omega) hle'
            · have hpast : peer.clock i ≤ peer.clock c.moment := peer.clock_mono hk
              omega
      | succ k ihk =>
          by_cases hmore : p.data.length = size
          · exact returns_done hmore
          · apply returns_of_next hmore
            intro c' p' hnext
            rcases iteration_again hle hmore hnext with
              ⟨hle', hstored | ⟨hdata, htime, hmoment, -⟩⟩
            · exact ih (by omega) hle'
            · exact ihk (by rw [hdata]; exact hs) hle' (by rw [htime]; exact hi) (by omega)

theorem tryReadSocket_returns (peer : Peer) (env : NetEnv) (c : Conn) (size maxAttempts : Nat) :
    Returns fun fuel => tryReadSocket peer env fuel c size maxAttempts :=
  tryReadLoop_returns peer env size (Nat.sub_le _ _) (Nat.zero_le _)

/-! ## Reads that wait -/

theorem iteration_waits (peer : Peer) (env : NetEnv) (size : Nat) (c : Conn)
    (hattempts : p.maxAttempts = 0) :
    (∀ c' p', iteration peer env size c p = .again c' p' → p'.maxAttempts = 0) ∧
      ∀ c', iteration peer env size c p ≠ .ends c' .notYet := by
  rw [iteration]
  cases peer.recv c.moment with
  | bytes more =>
      refine ⟨fun c' p' hnext => ?_, fun c' => Iteration.noConfusion⟩
      cases hnext
      exact hattempts
  | wouldBlock =>
      have hcounts : ¬(size - p.data.length = size ∧ 0 < p.maxAttempts) := by omega
      dsimp only
      rw [if_neg hcounts, if_neg fun h => hcounts h.1]
      by_cases htime : env.hardTimeoutMs ≤ peer.clock c.moment - p.lastProgressTime
      · rw [if_pos htime]
        exact ⟨fun _ _ => Iteration.noConfusion, fun _ heq => by cases heq⟩
      · rw [if_neg htime]
        refine ⟨fun c' p' hnext => ?_, fun c' => Iteration.noConfusion⟩
        cases hnext
        exact hattempts
  | closed => exact ⟨fun _ _ => Iteration.noConfusion, fun _ heq => by cases heq⟩
  | error => exact ⟨fun _ _ => Iteration.noConfusion, fun _ heq => by cases heq⟩

/-- Without a bound on the attempts a call does not come back without data. -/
theorem tryReadLoop_ne_notYet (fuel : Nat) (hattempts : p.maxAttempts = 0) {o : Outcome}
    {c' : Conn} (hrun : tryReadLoop peer env size fuel c p = some (o, c')) : o ≠ .notYet := by
  induction fuel generalizing c p with
  | zero =>
      rw [tryReadLoop] at hrun
      split_ifs at hrun with hfull
      cases hrun
      exact Outcome.noConfusion
  | succ fuel ih =>
      rw [tryReadLoop] at hrun
      split_ifs at hrun with hfull
      · cases hrun
        exact Outcome.noConfusion
      · rcases iteration_waits peer env size c hattempts with
          ⟨hagain, hends⟩
        cases hnext : iteration peer env size c p with
        | again c₁ p₁ =>
            rw [hnext] at hrun
            exact ih (hagain c₁ p₁ hnext) hrun
        | ends c₁ o₁ =>
            rw [hnext] at hrun
            cases hrun
            rintro rfl
            exact hends c' hnext

/-- The exception of `readSocket` for a call without data is never reached. -/
theorem readSocket_eq (peer : Peer) (env : NetEnv) (fuel : Nat) (c : Conn) (size : Nat) :
    readSocket peer env fuel c size = tryReadSocket peer env fuel c size 0 := by
  rw [readSocket]
  cases hrun : tryReadSocket peer env fuel c size 0 with
  | none => rfl
  | some r =>
      rcases r with ⟨o, c'⟩
      cases o with
      | done data => rfl
      | notYet => exact absurd rfl (tryReadLoop_ne_notYet fuel rfl hrun)
      | thrown data => rfl

/-- A read of a part of what is still missing. -/
theorem Reading.append (h : Reading peer start size c data) {k : Nat} {o : Outcome} {c' : Conn}
    (hpart : AllOrNothing peer c k o c') (hle : data.length + o.data.length ≤ size) :
    Reading peer start size c' (data ++ o.data) where
  taken := by rw [hpart.taken, h.taken, List.length_append, Nat.add_assoc]
  in_order := by
    rw [List.length_append, ← Peer.bytes_append, ← h.in_order, ← h.taken, ← hpart.in_order]
  le_size := by rwa [List.length_append]

theorem readChunks_succ (peer : Peer) (env : NetEnv) {chunk : Nat} (hmore : ¬size ≤ chunk)
    (fuel : Nat) (c : Conn) (data : List UInt8) :
    readChunks peer env size (fuel + 1) chunk c data =
      tryReadSocket peer env fuel c (min env.ioChunkSize (size - chunk)) 0 >>= fun r =>
        match r with
        | (.done part, c) =>
            readChunks peer env size fuel (chunk + env.ioChunkSize) c (data ++ part)
        | (.thrown part, c) => some (.thrown (data ++ part), c)
        | (.notYet, c) => some (.notYet, c) := by
  have hchunk : (if chunk + env.ioChunkSize < size then env.ioChunkSize else size - chunk) =
      min env.ioChunkSize (size - chunk) := by
    split_ifs <;> omega
  rw [readChunks, if_neg hmore]
  simp only [hchunk, readSocket_eq]
  rfl

/-- `NnNetwork::read` goes on where the last chunk has ended. -/
theorem readChunks_spec (fuel : Nat) {chunk : Nat} (h : Reading peer start size c data)
    (hchunk : data.length = min chunk size) {o : Outcome} {c' : Conn}
    (hrun : readChunks peer env size fuel chunk c data = some (o, c')) :
    AllOrNothing peer start size o c' := by
  induction fuel generalizing chunk c data with
  | zero =>
      rw [readChunks] at hrun
      split_ifs at hrun with hend
      cases hrun
      exact .done h (by omega)
  | succ fuel ih =>
      by_cases hend : size ≤ chunk
      · rw [readChunks, if_pos hend] at hrun
        cases hrun
        exact .done h (by omega)
      · rw [readChunks_succ peer env hend] at hrun
        have hpos := env.ioChunkSize_pos
        cases hread : tryReadSocket peer env fuel c (min env.ioChunkSize (size - chunk)) 0 with
        | none =>
            rw [hread] at hrun
            cases hrun
        | some r =>
            rcases r with ⟨o₁, c₁⟩
            have hpart := tryReadSocket_spec hread
            rw [hread] at hrun
            cases o₁ with
            | done part =>
                have hlen := hpart.whole part rfl
                have hnext := h.append hpart (by simp only [Outcome.data]; omega)
                exact ih hnext (by simp only [Outcome.data, List.length_append]; omega) hrun
            | notYet => exact absurd rfl (tryReadLoop_ne_notYet fuel rfl hread)
            | thrown part =>
                have hlen := hpart.short part rfl
                have hnext := h.append hpart (by simp only [Outcome.data]; omega)
                cases hrun
                exact .thrown hnext
                  (by simp only [Outcome.data, List.length_append]; omega) _

theorem readChunks_returns (peer : Peer) (env : NetEnv) {size : Nat} (n : Nat) {chunk : Nat}
    (hn : size - chunk ≤ n) (c : Conn) (data : List UInt8) :
    Returns fun fuel => readChunks peer env size fuel chunk c data := by
  induction n generalizing chunk c data with
  | zero =>
      have hend : size ≤ chunk := by omega
      refine ⟨(.done data, c), 0, fun fuel _ => ?_⟩
      cases fuel with
      | zero => exact if_pos hend
      | succ fuel => exact if_pos hend
  | succ n ih =>
      by_cases hend : size ≤ chunk
      · exact ih (by omega) c data
      · have hpos := env.ioChunkSize_pos
        have hread := tryReadSocket_returns peer env c (min env.ioChunkSize (size - chunk)) 0
        apply Returns.succ (hread.bind ?_) fun fuel => readChunks_succ peer env hend fuel c data
        rintro ⟨o, c'⟩
        cases o with
        | done part => exact ih (by omega) c' (data ++ part)
        | notYet => exact .pure _
        | thrown part => exact .pure _

/-! ## Sequences of calls -/

theorem NetCall.run_spec {fuel : Nat} {call : NetCall} {o : Outcome} {c' : Conn}
    (hrun : call.run peer env fuel c = some (o, c')) : AllOrNothing peer c call.size o c' := by
  cases call with
  | tryReadWithMaxAttempts size maxAttempts => exact tryReadSocket_spec hrun
  | read size =>
      have hnone : ([] : List UInt8).length = min 0 size := (Nat.zero_min size).symm
      exact readChunks_spec fuel ⟨rfl, rfl, Nat.zero_le _⟩ hnone hrun

theorem NetCall.run_returns (peer : Peer) (env : NetEnv) (call : NetCall) (c : Conn) :
    Returns fun fuel => call.run peer env fuel c := by
  cases call with
  | tryReadWithMaxAttempts size maxAttempts =>
      exact tryReadSocket_returns peer env c size maxAttempts
  | read size => exact readChunks_returns peer env size (Nat.sub_le _ _) c []

theorem runCalls_returns (peer : Peer) (env : NetEnv) (calls : List NetCall) (c : Conn) :
    Returns fun fuel => runCalls peer env fuel calls c := by
  induction calls generalizing c with
  | nil => exact .pure _
  | cons call calls ih =>
      apply Returns.bind (call.run_returns peer env c)
      rintro ⟨o, c'⟩
      apply Returns.bind (ih c')
      exact fun r => .pure _

/-- An exception in the middle of a message. -/
def Outcome.torn : Outcome → Bool
  | thrown data => data ≠ []
  | _ => false

/-- The bytes of the successful calls. -/
def delivered (os : List Outcome) : List UInt8 :=
  os.flatMap fun
    | .done data => data
    | _ => []

/-- A call that does not break a message takes from the stream what it delivers. -/
theorem AllOrNothing.delivered_eq {o : Outcome} {c' : Conn} (h : AllOrNothing peer c size o c')
    (hwhole : o.torn = false) : delivered [o] = o.data := by
  cases o with
  | done data => exact List.append_nil data
  | notYet => rfl
  | thrown data =>
      have hnil : data = [] := by simpa [Outcome.torn] using hwhole
      rw [hnil]
      rfl

theorem runCalls_spec {fuel : Nat} {calls : List NetCall} {os : List Outcome} {c' : Conn}
    (hrun : runCalls peer env fuel calls c = some (os, c')) :
    delivered (os.takeWhile fun o => !o.torn) =
      peer.bytes c.taken (delivered (os.takeWhile fun o => !o.torn)).length := by
  induction calls generalizing c os with
  | nil =>
      cases hrun
      rfl
  | cons call calls ih =>
      cases hcall : call.run peer env fuel c with
      | none =>
          rw [runCalls, hcall] at hrun
          cases hrun
      | some r =>
          rcases r with ⟨o, c₁⟩
          cases hrest : runCalls peer env fuel calls c₁ with
          | none =>
              rw [runCalls, hcall, Option.bind_eq_bind, Option.bind_some] at hrun
              simp only [hrest] at hrun
              cases hrun
          | some rest =>
              rcases rest with ⟨os', c₂⟩
              rw [runCalls, hcall, Option.bind_eq_bind, Option.bind_some] at hrun
              simp only [hrest] at hrun
              cases hrun
              have hone := NetCall.run_spec hcall
              cases htorn : o.torn with
              | true =>
                  rw [List.takeWhile_cons_of_neg (by simp [htorn])]
                  rfl
              | false =>
                  have hsplit : delivered (o :: os'.takeWhile fun o => !o.torn) =
                      o.data ++ delivered (os'.takeWhile fun o => !o.torn) := by
                    rw [← hone.delivered_eq htorn]
                    simp only [delivered, List.flatMap_cons, List.flatMap_nil, List.append_nil]
                  rw [List.takeWhile_cons_of_pos (by simp [htorn]), hsplit, List.length_append,
                    ← Peer.bytes_append, ← hone.in_order, ← hone.taken, ← ih hrest]

end Spec

/-- A single call is all or nothing, and the successful calls up to the first exception in the
middle of a message deliver the stream from its beginning. -/
theorem polled_reads (peer : Peer) (env : NetEnv) :
    (∀ size maxAttempts c,
      Returns (fun fuel => tryReadSocket peer env fuel c size maxAttempts) ∧
        ∀ fuel o c', tryReadSocket peer env fuel c size maxAttempts = some (o, c') →
          AllOrNothing peer c size o c') ∧
      ∀ calls c, Returns (fun fuel => runCalls peer env fuel calls c) ∧
        ∀ fuel os c', runCalls peer env fuel calls c = some (os, c') →
          delivered (os.takeWhile fun o => !o.torn) =
            peer.bytes c.taken (delivered (os.takeWhile fun o => !o.torn)).length :=
  ⟨fun size maxAttempts c =>
      ⟨tryReadSocket_returns peer env c size maxAttempts, fun _ _ _ => tryReadSocket_spec⟩,
    fun calls c => ⟨runCalls_returns peer env calls c, fun _ _ _ => runCalls_spec⟩⟩

/-- A byte comes each minute, with nothing in between. -/
def slowPeer : Peer where
  stream i := UInt8.ofNat i
  recv i := if i % 3 = 1 then .bytes 0 else .wouldBlock
  clock i := 60000 * i
  clock_mono _ _ h := Nat.mul_le_mul_left _ h
  clock_unbounded t := ⟨t, Nat.le_mul_of_pos_left t (by decide)⟩

/-- A read of two bytes fails after the first one; the next read gets the second one. -/
theorem delivers_after_timeout : ¬∀ (peer : Peer) (env : NetEnv) (calls : List NetCall) (c : Conn)
    (fuel : Nat) (os : List Outcome) (c' : Conn), runCalls peer env fuel calls c = some (os, c') →
      delivered os = peer.bytes c.taken (delivered os).length := by
  intro hall
  have hbytes := hall slowPeer ⟨none, 60000⟩ [.read 2, .read 1] ⟨0, 0⟩ 5 [.thrown [0], .done [1]]
    ⟨2, 5⟩ (by decide)
  revert hbytes
  decide

end PolledRead
end Network
end PrefillOpt
