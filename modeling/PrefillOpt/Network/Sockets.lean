import PrefillOpt.Lib.Calls

/-!
# Sockets — the full mesh between the nodes

Every node keeps one socket to every other node, in the order of the node indices with itself
left out.  A port is a node together with one of its socket indices; a party is one executor
thread of one node.
-/

namespace PrefillOpt
namespace Network

open Lib

/-- A node and one of its socket indices. -/
abbrev Port := Nat × Nat

/-- A node and one of its executor threads. -/
abbrev Party := Nat × Nat

def getSocketIndexForNode (myNodeIndex peerNode : Nat) : Nat :=
  if myNodeIndex = 0 then peerNode - 1
  else if peerNode = 0 then 0
  else if peerNode < myNodeIndex then peerNode
  else peerNode - 1

/-- The node that socket `s` of node `a` leads to. -/
def socketPeer (a s : Nat) : Nat :=
  if s < a then s else s + 1

/-- The port of `a` that leads to `b`. -/
def port (a b : Nat) : Port :=
  (a, getSocketIndexForNode a b)

/-- The port at the other end of a link. -/
def farEnd (p : Port) : Port :=
  port (socketPeer p.1 p.2) p.1

/-! ## The socket order is one bijection -/

theorem getSocketIndexForNode_eq (a b : Nat) :
    getSocketIndexForNode a b = if b < a then b else b - 1 := by
  unfold getSocketIndexForNode
  split_ifs <;> omega

theorem socketPeer_ne (a s : Nat) : socketPeer a s ≠ a := by
  unfold socketPeer
  split_ifs <;> omega

theorem socketPeer_getSocketIndexForNode {a b : Nat} (h : b ≠ a) :
    socketPeer a (getSocketIndexForNode a b) = b := by
  rw [getSocketIndexForNode_eq, socketPeer]
  split_ifs <;> omega

@[simp] theorem getSocketIndexForNode_socketPeer (a s : Nat) :
    getSocketIndexForNode a (socketPeer a s) = s := by
  rw [getSocketIndexForNode_eq, socketPeer]
  split_ifs <;> omega

theorem socketPeer_lt {n a s : Nat} (hs : s < n - 1) : socketPeer a s < n := by
  unfold socketPeer
  split_ifs <;> omega

theorem getSocketIndexForNode_lt {n a b : Nat} (ha : a < n) (hb : b < n) (h : b ≠ a) :
    getSocketIndexForNode a b < n - 1 := by
  rw [getSocketIndexForNode_eq]
  split_ifs <;> omega

@[simp] theorem port_socketPeer (a s : Nat) : port a (socketPeer a s) = (a, s) := by
  simp [port]

@[simp] theorem port_fst (a b : Nat) : (port a b).1 = a := rfl

theorem port_inj {a b c : Nat} (hb : b ≠ a) (hc : c ≠ a) (h : port a b = port a c) : b = c := by
  have hs : getSocketIndexForNode a b = getSocketIndexForNode a c := congrArg Prod.snd h
  rw [← socketPeer_getSocketIndexForNode hb, hs, socketPeer_getSocketIndexForNode hc]

theorem farEnd_port {a b : Nat} (h : b ≠ a) : farEnd (port a b) = port b a := by
  simp only [farEnd, port, socketPeer_getSocketIndexForNode h]

theorem farEnd_farEnd (p : Port) : farEnd (farEnd p) = p := by
  conv_lhs => rw [show farEnd p = port (socketPeer p.1 p.2) p.1 from rfl]
  rw [farEnd_port (socketPeer_ne _ _).symm, port_socketPeer]

/-! ## The network -/

/-- The mesh, with the thread that drives each port and the room in each direction. -/
def socketNet (thread : Port → Nat) (cap : Port → Nat) : Net Party Port where
  owner p := (p.1, thread p)
  peer := farEnd
  cap := cap
  peer_peer := farEnd_farEnd

section

variable (thread cap : Port → Nat)

@[simp] theorem socketNet_owner (p : Port) : (socketNet thread cap).owner p = (p.1, thread p) := rfl

@[simp] theorem socketNet_peer (p : Port) : (socketNet thread cap).peer p = farEnd p := rfl

@[simp] theorem socketNet_cap (p : Port) : (socketNet thread cap).cap p = cap p := rfl

theorem owner_ne_owner_peer (p : Port) :
    (socketNet thread cap).owner p
      ≠ (socketNet thread cap).owner ((socketNet thread cap).peer p) := by
  intro h
  exact (socketPeer_ne p.1 p.2).symm (congrArg Prod.fst h)

end

/-! ## Messages between threads 0 -/

/-- The mesh as the collectives that run on thread 0 alone use it. -/
def mainNet (cap : Port → Nat) : Net Party Port :=
  socketNet (fun _ => 0) cap

variable {β : Type}

/-- A message from node `a` to node `b`. -/
def send (a b : Nat) (xs : List β) : GEv Port β :=
  .msg (port a b) xs

/-- What thread 0 of node `c` sees of a message from `a` to `b`. -/
theorem view_send (cap : Port → Nat) {a b : Nat} (h : b ≠ a) (c : Nat) (xs : List β) :
    (send a b xs).view (mainNet cap) (c, 0)
      = if a = c then [.out (port c b) xs]
        else if b = c then [.inp (port c a) xs] else [] := by
  by_cases hac : a = c
  · subst hac
    simp [send, GEv.view, mainNet]
  · by_cases hbc : b = c
    · subst hbc
      simp [send, GEv.view, mainNet, farEnd_port h, hac]
    · simp [send, GEv.view, mainNet, farEnd_port h, hac, hbc]

theorem view_send_thread (cap : Port → Nat) {a b : Nat} (h : b ≠ a) {p : Party} (hp : p.2 ≠ 0)
    (xs : List β) : (send a b xs).view (mainNet cap) p = [] := by
  obtain ⟨c, t⟩ := p
  have ht : (0 : Nat) ≠ t := fun h => hp h.symm
  simp [send, GEv.view, mainNet, farEnd_port h, ht]

end Network
end PrefillOpt
