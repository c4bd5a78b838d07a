import PrefillOpt.Network.Handshake
import PrefillOpt.Pipeline.Activation
import PrefillOpt.TopologyWords

/-!
# Pipeline.SocketMaps — one numbering of the sockets

`getSocketIndexForNode`, `NnPipelineCommunicator::getPipelineSocketIndex`, `NnNetwork::serve` and
`NnNetwork::connect` number the other nodes each in its own way.  Here the slots are those under
which a loop files its sockets; which connection comes into a slot is the subject of `Handshake`.
-/

namespace PrefillOpt
namespace Pipeline

open Network

variable {F : Type}

/-- The slots that `connect` fills on the root and `serve` on a worker, with the node of each. -/
def slotAssignment (nNodes nodeIndex : Nat) : List (Nat × Nat) :=
  if nodeIndex = 0 then (List.range (nNodes - 1)).map fun i => (i, i + 1)
  else
    let c := peerConfig nNodes (nodeIndex - 1)
    (0, 0) :: (List.range c.nOtherWorkers).map fun i => (c.socketIndex i, c.otherWorkerIndex i)

/-- The numbering of node `a`: the sockets are the other nodes, whichever function is asked. -/
structure SocketMapsAgree (nNodes a : Nat) : Prop where
  bijective : Set.BijOn (getSocketIndexForNode a) {b | b < nNodes ∧ b ≠ a} {s | s < nNodes - 1}
  slots : ∀ s b, (s, b) ∈ slotAssignment nNodes a ↔
    b < nNodes ∧ b ≠ a ∧ s = getSocketIndexForNode a b
  slotsOnce : ((slotAssignment nNodes a).map Prod.fst).Nodup
  pipeline : ∀ (c : NnPipelineCommunicator F) (pp tp b : Nat), c.myNodeIndex = a →
    c.topology.getGlobalRank pp c.mySpRank tp = .ok b → b ≠ a →
      c.getPipelineSocketIndex pp tp = .ok (getSocketIndexForNode a b)

variable {nNodes a : Nat}

theorem getSocketIndexForNode_bijOn (ha : a < nNodes) :
    Set.BijOn (getSocketIndexForNode a) {b | b < nNodes ∧ b ≠ a} {s | s < nNodes - 1} := by
  refine ⟨fun b hb => getSocketIndexForNode_lt ha hb.1 hb.2, ?_, ?_⟩
  · intro b hb b' hb' h
    rw [← socketPeer_getSocketIndexForNode hb.2, h, socketPeer_getSocketIndexForNode hb'.2]
  · intro s hs
    exact ⟨socketPeer a s, ⟨socketPeer_lt hs, socketPeer_ne a s⟩,
      getSocketIndexForNode_socketPeer a s⟩

/-- Slot `s` is filled once, with the node that socket `s` leads to. -/
theorem slotAssignment_eq (hn : 2 ≤ nNodes) (ha : a < nNodes) :
    slotAssignment nNodes a = (List.range (nNodes - 1)).map fun s => (s, socketPeer a s) := by
  rw [slotAssignment]
  by_cases hroot : a = 0
  · subst hroot
    rfl
  · rw [if_neg hroot]
    have hslots : nNodes - 1 = nNodes - 2 + 1 := by omega
    have hothers : (peerConfig nNodes (a - 1)).nOtherWorkers = nNodes - 2 := rfl
    have hfirst : socketPeer a 0 = 0 := if_pos (Nat.pos_of_ne_zero hroot)
    simp only [hothers]
    rw [hslots, List.range_succ_eq_map, List.map_cons, List.map_map, hfirst]
    refine congrArg (List.cons _) (List.map_congr_left fun i hi => ?_)
    rcases peerConfig_turn nNodes ⟨Nat.pos_of_ne_zero hroot, ha⟩ (List.mem_range.1 hi) with
      ⟨hindex, hsocket, -⟩
    rw [hsocket, PeerConfig.otherWorkerIndex, hindex, Function.comp_apply, socketPeer]
    refine congrArg (Prod.mk _) ?_
    split_ifs <;> omega

theorem mem_slotAssignment_iff (hn : 2 ≤ nNodes) (ha : a < nNodes) {s b : Nat} :
    (s, b) ∈ slotAssignment nNodes a ↔ b < nNodes ∧ b ≠ a ∧ s = getSocketIndexForNode a b := by
  rw [slotAssignment_eq hn ha, List.mem_map]
  constructor
  · rintro ⟨s', hs', heq⟩
    cases heq
    exact ⟨socketPeer_lt (List.mem_range.1 hs'), socketPeer_ne a s,
      (getSocketIndexForNode_socketPeer a s).symm⟩
  · rintro ⟨hb, hne, rfl⟩
    refine ⟨_, List.mem_range.2 (getSocketIndexForNode_lt ha hb hne), ?_⟩
    rw [socketPeer_getSocketIndexForNode hne]

theorem getPipelineSocketIndex_eq {c : NnPipelineCommunicator F} {pp tp b : Nat}
    (hrank : c.topology.getGlobalRank pp c.mySpRank tp = .ok b) (hb : b ≠ c.myNodeIndex) :
    c.getPipelineSocketIndex pp tp = .ok (getSocketIndexForNode c.myNodeIndex b) := by
  simp only [NnPipelineCommunicator.getPipelineSocketIndex, hrank, getSocketIndexForNode, bind,
    Except.bind, pure, Except.pure, if_neg hb]
  split_ifs <;> rfl

theorem socketMapsAgree (hn : 2 ≤ nNodes) (ha : a < nNodes) :
    SocketMapsAgree (F := F) nNodes a where
  bijective := getSocketIndexForNode_bijOn ha
  slots _ _ := mem_slotAssignment_iff hn ha
  slotsOnce := by
    rw [slotAssignment_eq hn ha, List.map_map]
    have hfst : (Prod.fst ∘ fun s => (s, socketPeer a s)) = id := rfl
    rw [hfst, List.map_id]
    exact List.nodup_range
  pipeline c pp tp b hc hrank hb := by
    subst hc
    exact getPipelineSocketIndex_eq hrank hb

/-- The numberings agree for every node, and an accepted topology is exact unless
`ppSize * spSize` overflows. -/
theorem maps_exact :
    (∀ nNodes a, 2 ≤ nNodes → a < nNodes → SocketMapsAgree (F := F) nNodes a) ∧
      ∀ nNodes ppSize spSize f, nNodes < 2 ^ 32 →
        TopologyFields.create nNodes ppSize spSize = .ok f →
          (f.PlacementExact ↔ ppSize * spSize < 2 ^ 32) :=
  ⟨fun _ _ => socketMapsAgree, fun _ _ _ _ => TopologyFields.placementExact_iff⟩

theorem maps_exact_four :
    SocketMapsAgree (F := Nat) 4 2 ∧
      ((TopologyFields.mk 4 2 1 2).PlacementExact ↔ 2 * 1 < 2 ^ 32) :=
  ⟨maps_exact.1 4 2 (by decide) (by decide),
    (maps_exact (F := Nat)).2 4 2 1 ⟨4, 2, 1, 2⟩ (by decide) rfl⟩

/-- `3 * 2863311531` is 1 in 32 bits, so two nodes are taken for three stages of them. -/
theorem accepted_without_nodes :
    ∃ f, TopologyFields.create 2 3 2863311531 = .ok f ∧ ¬f.PlacementExact := by
  refine ⟨⟨2, 3, 2863311531, 2⟩, by decide, fun h => ?_⟩
  have hcard := h.card_le
  exact absurd hcard (by decide)

end Pipeline
end PrefillOpt
