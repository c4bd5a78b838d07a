import PrefillOpt.Lib.Transition
import PrefillOpt.Network.Sockets

/-!
# Handshake — how the mesh of sockets is built

`NnNetwork::connect` runs on the root, `NnNetwork::serve` on every worker.  The root connects to
the workers one by one, tells each its index and the addresses of the others, and then lets all of
them go.  A worker then walks over the other workers in the order of their indices: it accepts
from the ones below it and connects to the ones above it.

A worker's address is its node index.  A connect completes when it is queued at the listener; an
accept takes the connection queued first.  A connection carries no identity: an accepting worker
files it under the index its loop has come to.
-/

namespace PrefillOpt
namespace Network

open Lib Relation

/-! ## The state -/

/-- One end of the connection that `client` made to the listener of `server`. -/
structure SocketEnd where
  client : Nat
  server : Nat
  atClient : Bool
  deriving DecidableEq, Repr

def SocketEnd.other (e : SocketEnd) : SocketEnd :=
  { e with atClient := !e.atClient }

/-- What the root sends a worker first. -/
structure PeerConfig where
  nNodes : Nat
  nodeIndex : Nat
  hosts : List Nat
  deriving DecidableEq, Repr

/-- The messages on the connection from the root to a worker. -/
inductive RootMessage where
  | config (c : PeerConfig)
  | rootReady
  deriving DecidableEq, Repr

/-- `connect`: the turn of either loop the root is in; in the first, before or after connecting. -/
inductive RootPc where
  | connecting (i : Nat)
  | waitingAck (i : Nat)
  | broadcasting (i : Nat)
  deriving DecidableEq, Repr

/-- `serve`: before the root's connection, before its config, before the root-ready packet, or in
turn `i` of the loop over the other workers. -/
inductive WorkerPc where
  | listening
  | accepted
  | waitingReady (c : PeerConfig)
  | looping (c : PeerConfig) (i : Nat)
  deriving DecidableEq, Repr

structure HandshakeState where
  root : RootPc
  worker : Nat → WorkerPc
  /-- The clients of the connections queued at the listener of a worker. -/
  queue : Nat → List Nat
  /-- `sockets[socketIndex]` of a node. -/
  sockets : Nat → Nat → Option SocketEnd
  /-- What the root wrote on its connection to a worker and the worker has not read. -/
  toWorker : Nat → List RootMessage
  /-- Acknowledgements of a worker the root has not read. -/
  acks : Nat → Nat

def HandshakeState.setSocket (s : HandshakeState) (node socketIndex : Nat) (e : SocketEnd) :
    Nat → Nat → Option SocketEnd :=
  Function.update s.sockets node (Function.update (s.sockets node) socketIndex (some e))

/-! ## The steps -/

/-- The loop over `j` that leaves out `i`: the addresses of the workers but worker `i + 1`. -/
def peerHosts (nSockets i : Nat) : List Nat :=
  ((List.range nSockets).filter fun j => j ≠ i).map (· + 1)

/-- `nNodes`, `i + 1` and the other workers, as the root writes them to `sockets[i]`. -/
def peerConfig (n i : Nat) : PeerConfig :=
  ⟨n, i + 1, peerHosts (n - 1) i⟩

/-- `otherWorkerIndex` in turn `i`. -/
def PeerConfig.otherWorkerIndex (c : PeerConfig) (i : Nat) : Nat :=
  if i < c.nodeIndex - 1 then i + 1 else i + 2

def PeerConfig.socketIndex (c : PeerConfig) (i : Nat) : Nat :=
  if c.otherWorkerIndex i < c.nodeIndex then c.otherWorkerIndex i else c.otherWorkerIndex i - 1

/-- `nOtherWorkers` -/
def PeerConfig.nOtherWorkers (c : PeerConfig) : Nat := c.nNodes - 1 - 1

variable (n : Nat)

/-- The steps before the loops of the workers. -/
inductive GreetStep : HandshakeState → HandshakeState → Prop where
  | rootConnect {s : HandshakeState} {i : Nat} (hpc : s.root = .connecting i) (hi : i < n - 1) :
      GreetStep s { s with
        root := .waitingAck i
        queue := Function.update s.queue (i + 1) (s.queue (i + 1) ++ [0])
        sockets := s.setSocket 0 i ⟨0, i + 1, true⟩
        toWorker := Function.update s.toWorker (i + 1)
          (s.toWorker (i + 1) ++ [.config (peerConfig n i)]) }
  | rootAck {s : HandshakeState} {i k : Nat} (hpc : s.root = .waitingAck i)
      (hack : s.acks (i + 1) = k + 1) :
      GreetStep s { s with
        root := if i + 1 < n - 1 then .connecting (i + 1) else .broadcasting 0
        acks := Function.update s.acks (i + 1) k }
  | rootReady {s : HandshakeState} {i : Nat} (hpc : s.root = .broadcasting i) (hi : i < n - 1) :
      GreetStep s { s with
        root := .broadcasting (i + 1)
        toWorker := Function.update s.toWorker (i + 1) (s.toWorker (i + 1) ++ [.rootReady]) }
  | acceptRoot {s : HandshakeState} {w c : Nat} {rest : List Nat} (hw : 1 ≤ w ∧ w < n)
      (hpc : s.worker w = .listening) (hqueue : s.queue w = c :: rest) :
      GreetStep s { s with
        worker := Function.update s.worker w .accepted
        queue := Function.update s.queue w rest
        sockets := s.setSocket w 0 ⟨c, w, false⟩ }
  | readConfig {s : HandshakeState} {w : Nat} {c : PeerConfig} {rest : List RootMessage}
      (hw : 1 ≤ w ∧ w < n) (hpc : s.worker w = .accepted)
      (hroot : s.sockets w 0 = some ⟨0, w, false⟩) (hmsg : s.toWorker w = .config c :: rest) :
      GreetStep s { s with
        worker := Function.update s.worker w (.waitingReady c)
        toWorker := Function.update s.toWorker w rest
        acks := Function.update s.acks w (s.acks w + 1) }
  | readReady {s : HandshakeState} {w : Nat} {c : PeerConfig} {rest : List RootMessage}
      (hw : 1 ≤ w ∧ w < n) (hpc : s.worker w = .waitingReady c)
      (hroot : s.sockets w 0 = some ⟨0, w, false⟩) (hmsg : s.toWorker w = .rootReady :: rest) :
      GreetStep s { s with
        worker := Function.update s.worker w (.looping c 0)
        toWorker := Function.update s.toWorker w rest }

/-- One turn of the loop of a worker. -/
inductive PeerStep : HandshakeState → HandshakeState → Prop where
  | accept {s : HandshakeState} {w i client : Nat} {c : PeerConfig} {rest : List Nat}
      (hw : 1 ≤ w ∧ w < n) (hpc : s.worker w = .looping c i) (hi : i < c.nOtherWorkers)
      (hbelow : c.otherWorkerIndex i < c.nodeIndex) (hqueue : s.queue w = client :: rest) :
      PeerStep s { s with
        worker := Function.update s.worker w (.looping c (i + 1))
        queue := Function.update s.queue w rest
        sockets := s.setSocket w (c.socketIndex i) ⟨client, w, false⟩ }
  | connect {s : HandshakeState} {w i : Nat} {c : PeerConfig}
      (hw : 1 ≤ w ∧ w < n) (hpc : s.worker w = .looping c i) (hi : i < c.nOtherWorkers)
      (habove : ¬ c.otherWorkerIndex i < c.nodeIndex) :
      PeerStep s { s with
        worker := Function.update s.worker w (.looping c (i + 1))
        queue := Function.update s.queue (c.hosts.getD i 0) (s.queue (c.hosts.getD i 0) ++ [w])
        sockets := s.setSocket w (c.socketIndex i) ⟨w, c.hosts.getD i 0, true⟩ }

/-- Any process that can go on does. -/
inductive HandshakeStep (s s' : HandshakeState) : Prop where
  | greet (h : GreetStep n s s')
  | peer (h : PeerStep n s s')

namespace HandshakeState

/-- Every listener is open; nothing was sent. -/
def start : HandshakeState where
  root := .connecting 0
  worker := fun _ => .listening
  queue := fun _ => []
  sockets := fun _ _ => none
  toWorker := fun _ => []
  acks := fun _ => 0

/-- `connect` and every `serve` have returned. -/
def Returned (s : HandshakeState) : Prop :=
  s.root = .broadcasting (n - 1) ∧
    ∀ w, 1 ≤ w → w < n → ∃ c, s.worker w = .looping c c.nOtherWorkers

/-- Every slot holds the other end of the slot it is used with. -/
def Matched (s : HandshakeState) : Prop :=
  ∀ a b, a < n → b < n → a ≠ b → ∃ e, s.sockets a (getSocketIndexForNode a b) = some e ∧
    s.sockets b (getSocketIndexForNode b a) = some e.other

end HandshakeState

/-! ## The loop of a worker -/

theorem peerHosts_getD {m i k : Nat} (hi : i < m) (hk : k < m - 1) :
    (peerHosts m i).getD k 0 = if k < i then k + 1 else k + 2 := by
  rcases Nat.exists_eq_add_of_lt hi with ⟨d, rfl⟩
  have hleft : (List.range i).filter (fun j => j ≠ i) = List.range i := by
    refine List.filter_eq_self.mpr fun j hj => ?_
    simpa using Nat.ne_of_lt (List.mem_range.mp hj)
  have hright : ((List.range d).map (i + 1 + ·)).filter (fun j => j ≠ i)
      = (List.range d).map (i + 1 + ·) := by
    refine List.filter_eq_self.mpr fun j hj => ?_
    rcases List.mem_map.mp hj with ⟨x, -, rfl⟩
    simp only [ne_eq, decide_not, Bool.not_eq_true', decide_eq_false_iff_not]
    omega
  have hsplit : (List.range (i + d + 1)).filter (fun j => j ≠ i)
      = List.range i ++ (List.range d).map (i + 1 + ·) := by
    rw [show i + d + 1 = i + 1 + d by omega, List.range_add, List.range_succ, List.filter_append,
      List.filter_append, hleft, hright]
    simp
  rw [peerHosts, hsplit]
  by_cases hki : k < i
  · simp [hki, List.getElem?_append_left]
  · have hk' : k - i < d := by omega
    simp only [List.map_append, List.map_map, if_neg hki]
    rw [List.getD_eq_getElem?_getD, List.getElem?_append_right (by simpa using Nat.not_lt.mp hki)]
    simp only [List.length_map, List.length_range, List.getElem?_map, List.getElem?_range hk',
      Option.map_some, Function.comp_apply, Option.getD_some]
    omega

/-- In turn `i` worker `w` deals with worker `i + 1` or `i + 2`, and files it under `i + 1`. -/
theorem peerConfig_turn {w i : Nat} (hw : 1 ≤ w ∧ w < n) (hi : i < n - 2) :
    (peerConfig n (w - 1)).nodeIndex = w ∧
      (peerConfig n (w - 1)).socketIndex i = i + 1 ∧
      ((peerConfig n (w - 1)).otherWorkerIndex i < (peerConfig n (w - 1)).nodeIndex ↔ i < w - 1) ∧
      (w - 1 ≤ i → (peerConfig n (w - 1)).hosts.getD i 0 = i + 2) := by
  have hindex : (peerConfig n (w - 1)).nodeIndex = w := by
    simp only [peerConfig]
    omega
  have hother : (peerConfig n (w - 1)).otherWorkerIndex i = if i < w - 1 then i + 1 else i + 2 := by
    simp only [PeerConfig.otherWorkerIndex, hindex]
  refine ⟨hindex, ?_, ?_, fun hge => ?_⟩
  · simp only [PeerConfig.socketIndex, hother, hindex]
    split_ifs <;> omega
  · rw [hother, hindex]
    split_ifs <;> omega
  · exact (peerHosts_getD (by omega) (by omega)).trans (if_neg (by omega))

/-! ## How far a worker has been greeted -/

/-- The steps the root has done. -/
def RootPc.rank : RootPc → Nat
  | .connecting i => 2 * i
  | .waitingAck i => 2 * i + 1
  | .broadcasting i => 2 * (n - 1) + i

/-- The turn of a worker's loop; zero before it. -/
def WorkerPc.turn : WorkerPc → Nat
  | .looping _ i => i
  | _ => 0

/-- The stages of worker `w`, by the rank `r` of the root. -/
inductive Greeting (r w : Nat) :
    WorkerPc → List Nat → List RootMessage → Nat → Option SocketEnd → Prop where
  | unreached {e : Option SocketEnd} (hr : r ≤ 2 * (w - 1)) :
      Greeting r w .listening [] [] 0 e
  | queued {e : Option SocketEnd} (hr : r = 2 * (w - 1) + 1) :
      Greeting r w .listening [0] [.config (peerConfig n (w - 1))] 0 e
  | accepted (hr : r = 2 * (w - 1) + 1) :
      Greeting r w .accepted [] [.config (peerConfig n (w - 1))] 0 (some ⟨0, w, false⟩)
  | acked (hr : r = 2 * (w - 1) + 1) :
      Greeting r w (.waitingReady (peerConfig n (w - 1))) [] [] 1 (some ⟨0, w, false⟩)
  | waiting {q : List Nat} (hr : 2 * (w - 1) + 1 < r) (hr' : r ≤ 2 * (n - 1) + (w - 1))
      (hq : 0 ∉ q) :
      Greeting r w (.waitingReady (peerConfig n (w - 1))) q [] 0 (some ⟨0, w, false⟩)
  | ready {q : List Nat} (hr : 2 * (n - 1) + (w - 1) < r) (hq : 0 ∉ q) :
      Greeting r w (.waitingReady (peerConfig n (w - 1))) q [.rootReady] 0
        (some ⟨0, w, false⟩)
  | looping {q : List Nat} {i : Nat} (hr : 2 * (n - 1) + (w - 1) < r) (hq : 0 ∉ q)
      (hi : i ≤ n - 2) :
      Greeting r w (.looping (peerConfig n (w - 1)) i) q [] 0 (some ⟨0, w, false⟩)

namespace Greeting

variable {n} {r w : Nat} {pc : WorkerPc} {q : List Nat} {ms : List RootMessage} {k : Nat}
variable {e : Option SocketEnd}

/-- A step of the root with another worker. -/
theorem tick (h : Greeting n r w pc q ms k e) (hw : 1 ≤ w ∧ w < n) (h₀ : r ≠ 2 * (w - 1))
    (h₁ : r ≠ 2 * (w - 1) + 1) (h₂ : r ≠ 2 * (n - 1) + (w - 1)) :
    Greeting n (r + 1) w pc q ms k e := by
  cases h with
  | unreached hr => exact .unreached (by omega)
  | queued hr => exact absurd hr h₁
  | accepted hr => exact absurd hr h₁
  | acked hr => exact absurd hr h₁
  | waiting hr hr' hq => exact .waiting (by omega) (by omega) hq
  | ready hr hq => exact .ready (by omega) hq
  | looping hr hq hi => exact .looping (by omega) hq hi

/-- A connection of another worker, when all workers have been let go. -/
theorem enqueue (h : Greeting n r w pc q ms k e) (hw : 1 ≤ w ∧ w < n) (hr : 2 * (n - 1) < r)
    {c : Nat} (hc : 1 ≤ c) : Greeting n r w pc (q ++ [c]) ms k e := by
  have hno : ∀ q : List Nat, 0 ∉ q → 0 ∉ q ++ [c] := by
    intro q hq hmem
    rcases List.mem_append.mp hmem with hmem | hmem
    · exact hq hmem
    · have := List.mem_singleton.mp hmem
      omega
  cases h with
  | unreached hr' => omega
  | queued hr' => omega
  | accepted hr' => omega
  | acked hr' => omega
  | waiting hr' hr'' hq => exact .waiting hr' hr'' (hno _ hq)
  | ready hr' hq => exact .ready hr' (hno _ hq)
  | looping hr' hq hi => exact .looping hr' (hno _ hq) hi

/-- The root has come to the worker. -/
theorem reached_inv (h : Greeting n r w pc q ms k e) (hw : 1 ≤ w ∧ w < n) (hr : r = 2 * (w - 1)) :
    pc = .listening ∧ q = [] ∧ ms = [] ∧ k = 0 := by
  cases h with
  | unreached hr' => exact ⟨rfl, rfl, rfl, rfl⟩
  | _ => omega

/-- The worker has acknowledged. -/
theorem acked_inv {k' : Nat} (h : Greeting n r w pc q ms (k' + 1) e) :
    r = 2 * (w - 1) + 1 ∧ pc = .waitingReady (peerConfig n (w - 1)) ∧ q = [] ∧ ms = [] ∧
      k' = 0 ∧ e = some ⟨0, w, false⟩ := by
  cases h with
  | acked hr => exact ⟨hr, rfl, rfl, rfl, rfl, rfl⟩

/-- The root lets the worker go. -/
theorem waiting_inv (h : Greeting n r w pc q ms k e) (hw : 1 ≤ w ∧ w < n)
    (hr : r = 2 * (n - 1) + (w - 1)) :
    pc = .waitingReady (peerConfig n (w - 1)) ∧ 0 ∉ q ∧ ms = [] ∧ k = 0 ∧
      e = some ⟨0, w, false⟩ := by
  cases h with
  | waiting hr' hr'' hq => exact ⟨rfl, hq, rfl, rfl, rfl⟩
  | _ => omega

/-- The first connection a worker accepts is the root's. -/
theorem queued_inv {c : Nat} {rest : List Nat} (h : Greeting n r w .listening (c :: rest) ms k e) :
    r = 2 * (w - 1) + 1 ∧ c = 0 ∧ rest = [] ∧ ms = [.config (peerConfig n (w - 1))] ∧ k = 0 := by
  cases h with
  | queued hr => exact ⟨hr, rfl, rfl, rfl, rfl⟩

theorem accepted_inv (h : Greeting n r w .accepted q ms k e) :
    r = 2 * (w - 1) + 1 ∧ q = [] ∧ ms = [.config (peerConfig n (w - 1))] ∧ k = 0 ∧
      e = some ⟨0, w, false⟩ := by
  cases h with
  | accepted hr => exact ⟨hr, rfl, rfl, rfl, rfl⟩

theorem ready_inv {c : PeerConfig} {m : RootMessage} {rest : List RootMessage}
    (h : Greeting n r w (.waitingReady c) q (m :: rest) k e) :
    2 * (n - 1) + (w - 1) < r ∧ c = peerConfig n (w - 1) ∧ m = .rootReady ∧ rest = [] ∧ k = 0 ∧
      0 ∉ q ∧ e = some ⟨0, w, false⟩ := by
  cases h with
  | ready hr hq => exact ⟨hr, rfl, rfl, rfl, rfl, hq, rfl⟩

/-- What is known of a worker in its loop. -/
theorem looping_inv {c : PeerConfig} {i : Nat} (h : Greeting n r w (.looping c i) q ms k e) :
    c = peerConfig n (w - 1) ∧ 2 * (n - 1) + (w - 1) < r ∧ i ≤ n - 2 ∧ 0 ∉ q ∧
      e = some ⟨0, w, false⟩ := by
  cases h with
  | looping hr hq hi => exact ⟨rfl, hr, hi, hq, rfl⟩

/-- A worker the root waits for can step, or has acknowledged. -/
theorem greeted (h : Greeting n r w pc q ms k e) (hw : 1 ≤ w ∧ w < n)
    (hr : r = 2 * (w - 1) + 1) :
    (pc = .listening ∧ q = [0]) ∨
      (pc = .accepted ∧ ms = [.config (peerConfig n (w - 1))] ∧ e = some ⟨0, w, false⟩) ∨
      k = 1 := by
  cases h with
  | queued _ => exact .inl ⟨rfl, rfl⟩
  | accepted _ => exact .inr (.inl ⟨rfl, rfl, rfl⟩)
  | acked _ => exact .inr (.inr rfl)
  | _ => omega

/-- A worker the root has let go can step, or is in its loop. -/
theorem released (h : Greeting n r w pc q ms k e) (hw : 1 ≤ w ∧ w < n)
    (hr : 2 * (n - 1) + (w - 1) < r) :
    (∃ c, pc = .waitingReady c ∧ ms = [.rootReady] ∧ e = some ⟨0, w, false⟩) ∨
      ∃ c i, pc = .looping c i := by
  cases h with
  | ready _ _ => exact .inl ⟨_, rfl, rfl, rfl⟩
  | looping _ _ _ => exact .inr ⟨_, _, rfl⟩
  | _ => omega

theorem advance {c : PeerConfig} {i j : Nat} {q' : List Nat}
    (h : Greeting n r w (.looping c i) q ms k e) (hj : j ≤ n - 2) (hq : 0 ∉ q') :
    Greeting n r w (.looping c j) q' ms k e := by
  cases h with
  | looping hr _ _ => exact .looping hr hq hj

end Greeting

/-! ## What a worker has accepted and connected -/

/-- Worker `c` has connected to worker `w`. -/
def ConnectedTo (s : HandshakeState) (c w : Nat) : Prop :=
  1 ≤ c ∧ c < w ∧ w - 1 ≤ (s.worker c).turn

/-- The connections a worker has accepted and those queued for it are those of the lower workers
that have connected, each once, in some order; the ones it made lead where they should. -/
structure Peers (s : HandshakeState) (w : Nat) : Prop where
  arrived : ∃ acc : List Nat, acc.length = min (s.worker w).turn (w - 1) ∧
    (∀ (k : Nat) (hk : k < acc.length),
      s.sockets w (k + 1) = some ⟨acc.get ⟨k, hk⟩, w, false⟩) ∧
    (acc ++ (s.queue w).filter (· ≠ 0)).Nodup ∧
    ∀ c, c ∈ acc ++ (s.queue w).filter (· ≠ 0) ↔ ConnectedTo s c w
  connected : ∀ k, w - 1 ≤ k → k < (s.worker w).turn →
    s.sockets w (k + 1) = some ⟨w, k + 2, true⟩

theorem Peers.congr {s s' : HandshakeState} {w : Nat} (h : Peers s w)
    (hturn : (s'.worker w).turn = (s.worker w).turn)
    (hconnected : ∀ c, ConnectedTo s' c w ↔ ConnectedTo s c w)
    (hqueue : (s'.queue w).filter (· ≠ 0) = (s.queue w).filter (· ≠ 0))
    (hsockets : ∀ k, s'.sockets w (k + 1) = s.sockets w (k + 1)) : Peers s' w := by
  rcases h with ⟨⟨acc, hlen, hacc, hnodup, hmem⟩, hconn⟩
  refine ⟨⟨acc, by rw [hturn, hlen], fun k hk => by rw [hsockets, hacc k hk], ?_, ?_⟩, ?_⟩
  · rwa [hqueue]
  · intro c
    rw [hqueue, hmem, hconnected]
  · intro k hle hlt
    rw [hturn] at hlt
    rw [hsockets, hconn k hle hlt]

/-! ## The invariant -/

/-- The connections the root has made. -/
def RootPc.connected : RootPc → Nat
  | .connecting i => i
  | .waitingAck i => i + 1
  | .broadcasting _ => n - 1

structure HandshakeInv (s : HandshakeState) : Prop where
  root : s.root.rank n ≤ 3 * (n - 1) ∧ (∀ i, s.root = .connecting i → i < n - 1) ∧
    ∀ i, s.root = .waitingAck i → i < n - 1
  rootSockets : ∀ j < s.root.connected n, s.sockets 0 j = some ⟨0, j + 1, true⟩
  greeting : ∀ w, 1 ≤ w ∧ w < n → Greeting n (s.root.rank n) w (s.worker w) (s.queue w)
    (s.toWorker w) (s.acks w) (s.sockets w 0)
  peers : ∀ w, 1 ≤ w ∧ w < n → Peers s w
  /-- Nothing happens at indices that are no worker's. -/
  outside : ∀ w, ¬ (1 ≤ w ∧ w < n) → s.worker w = .listening

theorem HandshakeInv.start (hn : 2 ≤ n) : HandshakeInv n .start where
  root := by
    refine ⟨Nat.zero_le _, fun i hi => ?_, fun i hi => ?_⟩
    · cases hi
      omega
    · cases hi
  rootSockets j hj := absurd hj (Nat.not_lt_zero j)
  greeting w _ := .unreached (Nat.zero_le _)
  peers w hw := by
    refine ⟨⟨[], ?_, ?_, ?_, ?_⟩, ?_⟩
    · simp [HandshakeState.start, WorkerPc.turn]
    · intro k hk
      exact absurd hk (Nat.not_lt_zero k)
    · simp [HandshakeState.start]
    · intro c
      simp only [HandshakeState.start, ConnectedTo, WorkerPc.turn, List.filter_nil,
        List.append_nil, List.not_mem_nil, false_iff]
      omega
    · intro k _ hk
      exact absurd hk (Nat.not_lt_zero k)
  outside _ _ := rfl

/-! ## Every step keeps the invariant -/

namespace HandshakeState

variable (s : HandshakeState)

@[simp] theorem setSocket_self (a i : Nat) (e : SocketEnd) : s.setSocket a i e a i = some e := by
  simp [setSocket]

theorem setSocket_of_node_ne {a b : Nat} (h : b ≠ a) (i : Nat) (e : SocketEnd) :
    s.setSocket a i e b = s.sockets b := by
  simp [setSocket, Function.update_of_ne h]

theorem setSocket_of_index_ne {i j : Nat} (h : j ≠ i) (a : Nat) (e : SocketEnd) :
    s.setSocket a i e a j = s.sockets a j := by
  simp [setSocket, Function.update_of_ne h]

end HandshakeState

namespace HandshakeInv

variable {n} {s s' : HandshakeState}

/-- Workers enter their loops only when the root lets them go. -/
theorem broadcasting_of_looping (h : HandshakeInv n s) {w i : Nat} {c : PeerConfig}
    (hpc : s.worker w = .looping c i) :
    (1 ≤ w ∧ w < n) ∧ c = peerConfig n (w - 1) ∧ 2 * (n - 1) + (w - 1) < s.root.rank n ∧
      i ≤ n - 2 := by
  by_cases hw : 1 ≤ w ∧ w < n
  · have hg := h.greeting w hw
    rw [hpc] at hg
    rcases hg.looping_inv with ⟨hc, hr, hi, -, -⟩
    exact ⟨hw, hc, hr, hi⟩
  · have hout := h.outside w hw
    rw [hpc] at hout
    cases hout

theorem rootConnect (h : HandshakeInv n s) {i : Nat} (hpc : s.root = .connecting i)
    (hi : i < n - 1) : HandshakeInv n { s with
      root := .waitingAck i
      queue := Function.update s.queue (i + 1) (s.queue (i + 1) ++ [0])
      sockets := s.setSocket 0 i ⟨0, i + 1, true⟩
      toWorker := Function.update s.toWorker (i + 1)
        (s.toWorker (i + 1) ++ [.config (peerConfig n i)]) } where
  root := by
    refine ⟨?_, fun j hj => ?_, fun j hj => ?_⟩
    · simp only [RootPc.rank]
      omega
    · cases hj
    · cases hj
      exact hi
  rootSockets j hj := by
    have hj' : j < i + 1 := hj
    by_cases hji : j = i
    · simp only [hji, s.setSocket_self]
    · simp only [s.setSocket_of_index_ne hji]
      refine h.rootSockets j ?_
      rw [hpc]
      exact Nat.lt_of_le_of_ne (Nat.le_of_lt_succ hj') hji
  greeting w hw := by
    have hg := h.greeting w hw
    have hr : s.root.rank n = 2 * i := by rw [hpc]; rfl
    rw [hr] at hg
    have hnode : w ≠ 0 := by omega
    simp only [RootPc.rank, s.setSocket_of_node_ne hnode]
    by_cases hwi : w = i + 1
    · subst hwi
      rcases hg.reached_inv hw rfl with ⟨hworker, hqueue, hmsgs, hacks⟩
      rw [Function.update_self, Function.update_self, hworker, hqueue, hmsgs, hacks]
      exact .queued rfl
    · rw [Function.update_of_ne hwi, Function.update_of_ne hwi]
      exact hg.tick hw (by omega) (by omega) (by omega)
  peers w hw := by
    refine (h.peers w hw).congr rfl (fun _ => Iff.rfl) ?_ fun k => ?_
    · by_cases hwi : w = i + 1
      · subst hwi
        simp [List.filter_append]
      · simp only [Function.update_of_ne hwi]
    · simp only [s.setSocket_of_node_ne (show w ≠ 0 by omega)]
  outside := h.outside

theorem rootAck (h : HandshakeInv n s) {i k : Nat} (hpc : s.root = .waitingAck i)
    (hack : s.acks (i + 1) = k + 1) : HandshakeInv n { s with
      root := if i + 1 < n - 1 then .connecting (i + 1) else .broadcasting 0
      acks := Function.update s.acks (i + 1) k } := by
  have hi : i < n - 1 := h.root.2.2 i hpc
  have hrank : (if i + 1 < n - 1 then RootPc.connecting (i + 1) else .broadcasting 0).rank n
      = 2 * i + 2 := by
    split_ifs with hlast
    · rfl
    · simp only [RootPc.rank]
      omega
  refine ⟨⟨?_, fun j hj => ?_, fun j hj => ?_⟩, fun j hj => ?_, fun w hw => ?_, fun w hw => ?_,
    h.outside⟩
  · simp only [hrank]
    omega
  · split_ifs at hj with hlast
    cases hj
    exact hlast
  · split_ifs at hj
  · refine h.rootSockets j ?_
    rw [hpc]
    simp only [RootPc.connected]
    split_ifs at hj with hlast
    · exact hj
    · have hj' : j < n - 1 := hj
      omega
  · have hg := h.greeting w hw
    have hr : s.root.rank n = 2 * i + 1 := by rw [hpc]; rfl
    rw [hr] at hg
    simp only [hrank]
    by_cases hwi : w = i + 1
    · subst hwi
      rw [hack] at hg
      rcases hg.acked_inv with ⟨-, hworker, hqueue, hmsgs, rfl, hsock⟩
      rw [Function.update_self, hworker, hqueue, hmsgs, hsock]
      exact .waiting (by omega) (by omega) (by simp)
    · rw [Function.update_of_ne hwi]
      exact hg.tick hw (by omega) (by omega) (by omega)
  · exact (h.peers w hw).congr rfl (fun _ => Iff.rfl) rfl fun _ => rfl

theorem rootReady (hn : 2 ≤ n) (h : HandshakeInv n s) {i : Nat} (hpc : s.root = .broadcasting i)
    (hi : i < n - 1) : HandshakeInv n { s with
      root := .broadcasting (i + 1)
      toWorker := Function.update s.toWorker (i + 1)
        (s.toWorker (i + 1) ++ [.rootReady]) } where
  root := by
    refine ⟨?_, fun j hj => ?_, fun j hj => ?_⟩
    · simp only [RootPc.rank]
      omega
    · cases hj
    · cases hj
  rootSockets j hj := h.rootSockets j (by rw [hpc]; exact hj)
  greeting w hw := by
    have hg := h.greeting w hw
    have hr : s.root.rank n = 2 * (n - 1) + i := by rw [hpc]; rfl
    rw [hr] at hg
    simp only [RootPc.rank]
    by_cases hwi : w = i + 1
    · subst hwi
      rcases hg.waiting_inv hw rfl with ⟨hworker, hqueue, hmsgs, hacks, hsock⟩
      rw [Function.update_self, hworker, hmsgs, hacks, hsock]
      exact .ready (by omega) hqueue
    · rw [Function.update_of_ne hwi]
      exact hg.tick hw (by omega) (by omega) (by omega)
  peers w hw := (h.peers w hw).congr rfl (fun _ => Iff.rfl) rfl fun _ => rfl
  outside := h.outside

/-- A step of one worker that is not in its loop, on its own messages. -/
theorem greetWorker (h : HandshakeInv n s) {w : Nat} (hw : 1 ≤ w ∧ w < n) (pc : WorkerPc)
    (q : List Nat) (ms : List RootMessage) (k : Nat) (f : Nat → Option SocketEnd)
    (hturn : pc.turn = (s.worker w).turn)
    (hqueue : q.filter (· ≠ 0) = (s.queue w).filter (· ≠ 0))
    (hf : ∀ j, f (j + 1) = s.sockets w (j + 1))
    (hg : Greeting n (s.root.rank n) w pc q ms k (f 0)) :
    HandshakeInv n { s with
      worker := Function.update s.worker w pc
      queue := Function.update s.queue w q
      sockets := Function.update s.sockets w f
      toWorker := Function.update s.toWorker w ms
      acks := Function.update s.acks w k } where
  root := h.root
  rootSockets j hj := by
    simp only [Function.update_of_ne (show (0 : Nat) ≠ w by omega)]
    exact h.rootSockets j hj
  greeting w' hw' := by
    by_cases hww : w' = w
    · subst hww
      simpa using hg
    · simp only [Function.update_of_ne hww]
      exact h.greeting w' hw'
  peers w' hw' := by
    have hturns : ∀ c, (Function.update s.worker w pc c).turn = (s.worker c).turn := by
      intro c
      by_cases hc : c = w
      · subst hc
        simpa using hturn
      · simp only [Function.update_of_ne hc]
    refine (h.peers w' hw').congr (hturns w') (fun c => ?_) ?_ fun j => ?_
    · simp only [ConnectedTo, hturns]
    · by_cases hww : w' = w
      · subst hww
        simpa using hqueue
      · simp only [Function.update_of_ne hww]
    · by_cases hww : w' = w
      · subst hww
        simpa using hf j
      · simp only [Function.update_of_ne hww]
  outside w' hw' := by
    have hww : w' ≠ w := fun heq => hw' (heq ▸ hw)
    simp only [Function.update_of_ne hww]
    exact h.outside w' hw'

theorem greetStep (hn : 2 ≤ n) (h : HandshakeInv n s) (hstep : GreetStep n s s') :
    HandshakeInv n s' := by
  cases hstep with
  | rootConnect hpc hi => exact h.rootConnect hpc hi
  | rootAck hpc hack => exact h.rootAck hpc hack
  | rootReady hpc hi => exact h.rootReady hn hpc hi
  | @acceptRoot w c rest hw hpc hqueue =>
      have hg := h.greeting w hw
      rw [hpc, hqueue] at hg
      rcases hg.queued_inv with ⟨hr, rfl, rfl, hmsgs, hacks⟩
      have hnext := h.greetWorker hw .accepted [] (s.toWorker w) (s.acks w)
        (Function.update (s.sockets w) 0 (some ⟨0, w, false⟩))
        (by rw [hpc]; rfl) (by rw [hqueue]; rfl) (fun j => by simp)
        (by rw [hmsgs, hacks, Function.update_self]; exact .accepted hr)
      simpa [HandshakeState.setSocket] using hnext
  | @readConfig w c rest hw hpc hroot hmsg =>
      have hg := h.greeting w hw
      rw [hpc] at hg
      rcases hg.accepted_inv with ⟨hr, hqueue, hmsgs, hacks, -⟩
      rw [hmsg, List.cons.injEq, RootMessage.config.injEq] at hmsgs
      rcases hmsgs with ⟨rfl, rfl⟩
      have hnext := h.greetWorker hw (.waitingReady (peerConfig n (w - 1))) (s.queue w) []
        (s.acks w + 1) (s.sockets w)
        (by rw [hpc]; rfl) rfl (fun j => rfl)
        (by rw [hqueue, hacks, hroot]; exact .acked hr)
      simpa using hnext
  | @readReady w c rest hw hpc hroot hmsg =>
      have hg := h.greeting w hw
      rw [hpc, hmsg] at hg
      rcases hg.ready_inv with ⟨hr, rfl, -, rfl, hacks, hqueue, -⟩
      have hnext := h.greetWorker hw (.looping (peerConfig n (w - 1)) 0) (s.queue w) []
        (s.acks w) (s.sockets w)
        (by rw [hpc]; rfl) rfl (fun j => rfl)
        (by rw [hacks, hroot]; exact .looping hr hqueue (Nat.zero_le _))
      simpa using hnext

theorem accept (h : HandshakeInv n s) {w i client : Nat} {c : PeerConfig} {rest : List Nat}
    (hw : 1 ≤ w ∧ w < n) (hpc : s.worker w = .looping c i) (hi : i < c.nOtherWorkers)
    (hbelow : c.otherWorkerIndex i < c.nodeIndex) (hqueue : s.queue w = client :: rest) :
    HandshakeInv n { s with
      worker := Function.update s.worker w (.looping c (i + 1))
      queue := Function.update s.queue w rest
      sockets := s.setSocket w (c.socketIndex i) ⟨client, w, false⟩ } := by
  rcases h.broadcasting_of_looping hpc with ⟨-, rfl, hr, -⟩
  have hi' : i < n - 2 := hi
  rcases peerConfig_turn n hw hi' with ⟨-, hsocket, hside, -⟩
  have hiw : i < w - 1 := hside.mp hbelow
  have hg := h.greeting w hw
  rw [hpc, hqueue] at hg
  rcases hg.looping_inv with ⟨-, -, -, hno, -⟩
  have hclient : client ≠ 0 := fun h0 => hno (h0 ▸ List.mem_cons_self ..)
  rw [hsocket]
  refine ⟨h.root, fun j hj => ?_, fun w' hw' => ?_, fun w' hw' => ?_, fun w' hw' => ?_⟩
  · simp only [s.setSocket_of_node_ne (show (0 : Nat) ≠ w by omega)]
    exact h.rootSockets j hj
  · by_cases hww : w' = w
    · subst hww
      simp only [Function.update_self, s.setSocket_of_index_ne (show 0 ≠ i + 1 by omega)]
      exact hg.advance (by omega) fun hmem => hno (List.mem_cons_of_mem _ hmem)
    · simp only [Function.update_of_ne hww, s.setSocket_of_node_ne hww]
      exact h.greeting w' hw'
  · by_cases hww : w' = w
    · subst hww
      rcases h.peers w' hw with ⟨⟨acc, hlen, hacc, hnodup, hmem⟩, -⟩
      have hlen' : acc.length = i := by
        rw [hlen, hpc]
        exact Nat.min_eq_left hiw.le
      have hlist : (acc ++ [client]) ++ rest.filter (· ≠ 0)
          = acc ++ (s.queue w').filter (· ≠ 0) := by
        rw [hqueue, List.append_assoc, List.filter_cons_of_pos (by simpa using hclient)]
        rfl
      refine ⟨⟨acc ++ [client], ?_, fun k hk => ?_, ?_, fun d => ?_⟩, fun k hle hlt => ?_⟩
      · simp only [List.length_append, hlen', List.length_singleton, Function.update_self,
          WorkerPc.turn]
        omega
      · rw [List.length_append, hlen', List.length_singleton] at hk
        by_cases hki : k = i
        · subst hki
          simp [hlen']
        · have hold := hacc k (by omega)
          simp only [s.setSocket_of_index_ne (show k + 1 ≠ i + 1 by omega), hold]
          simp [List.getElem_append_left (show k < acc.length by omega)]
      · simp only [Function.update_self, hlist]
        exact hnodup
      · simp only [Function.update_self, hlist, hmem, ConnectedTo]
        refine and_congr_right fun _ => and_congr_right fun hlt => ?_
        rw [Function.update_of_ne (show d ≠ w' by omega)]
      · simp only [Function.update_self, WorkerPc.turn] at hlt
        omega
    · refine (h.peers w' hw').congr ?_ (fun d => ?_) ?_ fun k => ?_
      · simp only [Function.update_of_ne hww]
      · simp only [ConnectedTo]
        by_cases hdw : d = w
        · -- turn `i + 1` of `w` is still one of the lower workers
          subst hdw
          simp only [Function.update_self, hpc, WorkerPc.turn]
          constructor
          · rintro ⟨-, hlt, hle⟩
            omega
          · rintro ⟨-, hlt, hle⟩
            omega
        · rw [Function.update_of_ne hdw]
      · simp only [Function.update_of_ne hww]
      · simp only [s.setSocket_of_node_ne hww]
  · have hww : w' ≠ w := fun heq => hw' (heq ▸ hw)
    simp only [Function.update_of_ne hww]
    exact h.outside w' hw'

theorem connect (h : HandshakeInv n s) {w i : Nat} {c : PeerConfig}
    (hw : 1 ≤ w ∧ w < n) (hpc : s.worker w = .looping c i) (hi : i < c.nOtherWorkers)
    (habove : ¬ c.otherWorkerIndex i < c.nodeIndex) :
    HandshakeInv n { s with
      worker := Function.update s.worker w (.looping c (i + 1))
      queue := Function.update s.queue (c.hosts.getD i 0) (s.queue (c.hosts.getD i 0) ++ [w])
      sockets := s.setSocket w (c.socketIndex i) ⟨w, c.hosts.getD i 0, true⟩ } := by
  rcases h.broadcasting_of_looping hpc with ⟨-, rfl, hr, -⟩
  have hi' : i < n - 2 := hi
  rcases peerConfig_turn n hw hi' with ⟨-, hsocket, hside, hhost⟩
  have hiw : w - 1 ≤ i := Nat.not_lt.mp (mt hside.mpr habove)
  rw [hsocket, hhost hiw]
  have hconnected : ∀ d w', w' ≠ i + 2 →
      (1 ≤ d ∧ d < w' ∧ w' - 1
          ≤ (Function.update s.worker w (.looping (peerConfig n (w - 1)) (i + 1)) d).turn ↔
        ConnectedTo s d w') := by
    intro d w' hne
    simp only [ConnectedTo]
    by_cases hdw : d = w
    · subst hdw
      simp only [Function.update_self, hpc, WorkerPc.turn]
      constructor
      · rintro ⟨h₁, h₂, h₃⟩
        exact ⟨h₁, h₂, by omega⟩
      · rintro ⟨h₁, h₂, h₃⟩
        exact ⟨h₁, h₂, by omega⟩
    · rw [Function.update_of_ne hdw]
  refine ⟨h.root, fun j hj => ?_, fun w' hw' => ?_, fun w' hw' => ?_, fun w' hw' => ?_⟩
  · simp only [s.setSocket_of_node_ne (show (0 : Nat) ≠ w by omega)]
    exact h.rootSockets j hj
  · have hg := h.greeting w' hw'
    by_cases hww : w' = w
    · subst hww
      rw [hpc] at hg
      simp only [Function.update_self, Function.update_of_ne (show w' ≠ i + 2 by omega),
        s.setSocket_of_index_ne (show 0 ≠ i + 1 by omega)]
      exact hg.advance (by omega) hg.looping_inv.2.2.2.1
    · simp only [Function.update_of_ne hww, s.setSocket_of_node_ne hww]
      by_cases htarget : w' = i + 2
      · subst htarget
        rw [Function.update_self]
        exact hg.enqueue hw' (by omega) hw.1
      · rw [Function.update_of_ne htarget]
        exact hg
  · by_cases hww : w' = w
    · subst hww
      rcases h.peers w' hw with ⟨⟨acc, hlen, hacc, hnodup, hmem⟩, hconn⟩
      have hlen' : acc.length = w' - 1 := by
        rw [hlen, hpc]
        exact Nat.min_eq_right hiw
      refine ⟨⟨acc, ?_, fun k hk => ?_, ?_, fun d => ?_⟩, fun k hle hlt => ?_⟩
      · simp only [Function.update_self, WorkerPc.turn]
        omega
      · simp only [s.setSocket_of_index_ne (show k + 1 ≠ i + 1 by omega), hacc k hk]
      · simp only [Function.update_of_ne (show w' ≠ i + 2 by omega)]
        exact hnodup
      · simp only [Function.update_of_ne (show w' ≠ i + 2 by omega), hmem]
        exact (hconnected d w' (by omega)).symm
      · simp only [Function.update_self, WorkerPc.turn] at hlt
        by_cases hki : k = i
        · simp only [hki, s.setSocket_self]
        · simp only [s.setSocket_of_index_ne (show k + 1 ≠ i + 1 by omega)]
          exact hconn k hle (by rw [hpc]; simp only [WorkerPc.turn]; omega)
    · by_cases htarget : w' = i + 2
      · subst htarget
        rcases h.peers (i + 2) hw' with ⟨⟨acc, hlen, hacc, hnodup, hmem⟩, hconn⟩
        -- the new connection is not among the old ones
        have hnew : ¬ ConnectedTo s w (i + 2) := by
          simp only [ConnectedTo, hpc, WorkerPc.turn]
          omega
        have hlist : acc ++ (s.queue (i + 2) ++ [w]).filter (· ≠ 0)
            = (acc ++ (s.queue (i + 2)).filter (· ≠ 0)) ++ [w] := by
          rw [List.filter_append, List.append_assoc]
          have hw0 : w ≠ 0 := by omega
          simp [hw0]
        refine ⟨⟨acc, ?_, fun k hk => ?_, ?_, fun d => ?_⟩, fun k hle hlt => ?_⟩
        · simp only [Function.update_of_ne hww]
          exact hlen
        · simp only [s.setSocket_of_node_ne hww, hacc k hk]
        · simp only [Function.update_self, hlist]
          refine List.Nodup.append hnodup (List.nodup_singleton w) ?_
          intro d hd hdw
          rw [List.mem_singleton.mp hdw, hmem] at hd
          exact hnew hd
        · simp only [Function.update_self, hlist]
          rw [List.mem_append, hmem, List.mem_singleton]
          simp only [ConnectedTo]
          by_cases hdw : d = w
          · subst hdw
            simp only [or_true, Function.update_self, WorkerPc.turn, true_iff]
            omega
          · simp only [hdw, or_false, Function.update_of_ne hdw]
        · simp only [Function.update_of_ne hww] at hlt
          simp only [s.setSocket_of_node_ne hww, hconn k hle hlt]
      · refine (h.peers w' hw').congr ?_ (fun d => hconnected d w' htarget) ?_ fun k => ?_
        · simp only [Function.update_of_ne hww]
        · simp only [Function.update_of_ne htarget]
        · simp only [s.setSocket_of_node_ne hww]
  · have hww : w' ≠ w := fun heq => hw' (heq ▸ hw)
    simp only [Function.update_of_ne hww]
    exact h.outside w' hw'

theorem peerStep (h : HandshakeInv n s) (hstep : PeerStep n s s') : HandshakeInv n s' := by
  cases hstep with
  | accept hw hpc hi hbelow hqueue => exact h.accept hw hpc hi hbelow hqueue
  | connect hw hpc hi habove => exact h.connect hw hpc hi habove

theorem step (hn : 2 ≤ n) (h : HandshakeInv n s) (hstep : HandshakeStep n s s') :
    HandshakeInv n s' := by
  cases hstep with
  | greet hgreet => exact h.greetStep hn hgreet
  | peer hpeer => exact h.peerStep hpeer

end HandshakeInv

end Network
end PrefillOpt
