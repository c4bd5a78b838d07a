import PrefillOpt.Graph.StageSplit

/-!
# PipelineSplit — a pipeline computes what one node computes

Every net of stages of one node each, against the net of a single node.
-/

namespace PrefillOpt

/-! ## Forwards of a net -/

section Forwards

variable {R : Type} (net : LlmNet) (t : NnParallelTopology) (I : NnInterpretation R)

/-- The node in front of a node, one stage earlier. -/
def NnParallelTopology.predecessor (node : Nat) : Nat :=
  t.rankAt ((t.placement node).ppRank - 1) (t.placement node).spRank (t.placement node).tpRank

/-- One forward of all nodes, in order; a node starts from the `X` pipe its predecessor ends
with. -/
def PipelineForward (f : NnForward R) (s s' : Nat → NnMemory R) : Prop :=
  ∀ node < t.nNodes, StepsRun (net.nodeModel t I node) f.batchSize (net.steps node)
    (stageStart (t.placement node) f (s' (t.predecessor node)) (s node)) (s' node)

/-- The memories of the nodes after some forwards. -/
inductive PipelineRun : List (NnForward R) → (Nat → NnMemory R) → (Nat → NnMemory R) → Prop where
  | nil (s : Nat → NnMemory R) : PipelineRun [] s s
  | cons {f : NnForward R} {fs : List (NnForward R)} {s s₁ s' : Nat → NnMemory R}
      (hforward : PipelineForward net t I f s s₁) (hrest : PipelineRun fs s₁ s') :
      PipelineRun (f :: fs) s s'

end Forwards

/-! ## Stages of one node -/

/-- A topology of one node. -/
def singleNode : NnParallelTopology :=
  ⟨1, 1, 1, 1, Nat.one_pos, Nat.one_pos, Nat.one_pos, Nat.one_mul 1 |>.symm⟩

/-- A topology without sequence or tensor parallelism. -/
structure NnParallelTopology.Plain (t : NnParallelTopology) : Prop where
  spSize_eq : t.spSize = 1
  tpSize_eq : t.tpSize = 1

namespace NnParallelTopology

variable {t : NnParallelTopology}

theorem Plain.nNodes (ht : t.Plain) : t.nNodes = t.ppSize := by
  rw [t.nNodes_eq, ht.spSize_eq, ht.tpSize_eq, Nat.mul_one, Nat.mul_one]

theorem Plain.placement (ht : t.Plain) (node : Nat) :
    (t.placement node).globalRank = node ∧ (t.placement node).ppRank = node ∧
    (t.placement node).spRank = 0 ∧ (t.placement node).tpRank = 0 := by
  simp [NnParallelTopology.placement, ht.spSize_eq, ht.tpSize_eq, Nat.mod_one]

theorem Plain.predecessor (ht : t.Plain) (node : Nat) : t.predecessor node = node - 1 := by
  rcases ht.placement node with ⟨-, hpp, hsp, htp⟩
  rw [NnParallelTopology.predecessor, hpp, hsp, htp, rankAt, ht.spSize_eq, ht.tpSize_eq]
  simp

end NnParallelTopology

/-- The context of every stage, and of the single node. -/
def laneContext (h : LlmHeader) (o : BuildOptions) (n : LlmSlices) (ropeSlice : NnRopeSlice) :
    BlockContext :=
  ⟨h, n, 1, o.spNoShard, o.pruneLayer, kvCacheSlice h.kvDim h.seqLen 1 1 0, ropeSlice⟩

section Net

variable {R : Type} {I : NnInterpretation R} {h : LlmHeader} {t : NnParallelTopology}
  {o : BuildOptions} {net : LlmNet} {f : NnForward R} {s s' : Nat → NnMemory R}

theorem blockContext_eq (ht : t.Plain) (n : LlmSlices) (ropeSlice : NnRopeSlice) :
    blockContext h t o n ropeSlice 0 = laneContext h o n ropeSlice := by
  simp only [blockContext, laneContext, ht.spSize_eq, ht.tpSize_eq, ite_self]

/-- The split of an accepted net. -/
def stageSplit (t : NnParallelTopology) (net : LlmNet) (hzero : net.subStart 0 = 0)
    (hlt : ∀ p < t.ppSize, net.subStart p < net.subEnd p) : BlockContext.StageSplit :=
  ⟨t.ppSize, net.subStart, t.ppSize_pos, hzero, hlt⟩

theorem subStart_zero (hnet : buildLlmNet h t o = .ok net) : net.subStart 0 = 0 :=
  (spansSubBlocks_of_ok t.ppSize_pos (buildLlmNet_eq_ok hnet).2.1).head

theorem subStart_ppSize (hnet : buildLlmNet h t o = .ok net) :
    net.subStart t.ppSize = u32 (h.nLayers * 2) :=
  (spansSubBlocks_of_ok t.ppSize_pos (buildLlmNet_eq_ok hnet).2.1).last

/-- Every end of a stage fits in `NnUint` with one to spare. -/
theorem subEnd_lt (hnet : buildLlmNet h t o = .ok net)
    (hlt : ∀ p < t.ppSize, net.subStart p < net.subEnd p) {p : Nat} (hp : p < t.ppSize) :
    net.subEnd p + 1 < 2 ^ 32 := by
  have hle := (stageSplit t net (subStart_zero hnet) hlt).offset_le (show p + 1 ≤ t.ppSize from hp)
    le_rfl
  have hlast : net.subEnd p ≤ u32 (h.nLayers * 2) := (subStart_ppSize hnet) ▸ hle
  have heven : u32 (h.nLayers * 2) % 2 = 0 := by
    simp only [u32]
    omega
  have hword : u32 (h.nLayers * 2) < 2 ^ 32 := Nat.mod_lt _ (by decide)
  omega

/-- The steps of a stage of one node. -/
theorem steps_eq_of_plain (hnet : buildLlmNet h t o = .ok net) (ht : t.Plain)
    {ropeSlice : NnRopeSlice}
    (hrope : sliceRope h.ropeType h.qDim h.kvDim h.nKvHeads 1 h.seqLen h.headDim h.ropeTheta 0
      = .ok ropeSlice) {p : Nat} (hp : p < t.ppSize) :
    net.steps p = executorSteps t.nNodes
      ((laneContext h o net.slices ropeSlice).nodeSegments t.ppSize p p (net.subStart p)
        (net.subEnd p) o.fusedLmHeadArgmax) := by
  rcases buildLlmNet_eq_ok hnet with ⟨-, -, -, hnodes, hcfgs⟩
  rcases hcfgs p (by rwa [ht.nNodes]) with ⟨cfg, hcfg, hbuild⟩
  rcases buildNode_eq_ok hbuild with ⟨ropeSlice', hrope', -, rfl⟩
  rcases ht.placement p with ⟨-, hpp, hsp, htp⟩
  rw [ht.tpSize_eq, htp, hrope] at hrope'
  cases hrope'
  rw [LlmNet.steps, hcfg, hnodes, hpp, hsp, blockContext_eq ht]
  rfl

theorem stagesForward_of_net (hnet : buildLlmNet h t o = .ok net) (ht : t.Plain)
    {ropeSlice : NnRopeSlice}
    (hrope : sliceRope h.ropeType h.qDim h.kvDim h.nKvHeads 1 h.seqLen h.headDim h.ropeTheta 0
      = .ok ropeSlice)
    (hlt : ∀ p < t.ppSize, net.subStart p < net.subEnd p)
    (hforward : PipelineForward net t I f s s') :
    (laneContext h o net.slices ropeSlice).StagesForward I h.syncType o.fusedLmHeadArgmax
      (stageSplit t net (subStart_zero hnet) hlt) f t.placement s s' := by
  intro p hp
  have hsteps := steps_eq_of_plain hnet ht hrope hp
  have hrun := hforward p (by rwa [ht.nNodes])
  rw [ht.predecessor] at hrun
  have halone : (t.placement p).tpGroupEnd - (t.placement p).tpGroupStart ≤ 1 := by
    rw [t.tpGroupEnd_eq, ht.tpSize_eq]
    omega
  rw [hrun.eq_runOps (fun syncs hsyncs sync hsync => by
      rw [hsteps] at hsyncs
      exact BlockContext.skipped_of_mem_steps rfl halone hsyncs hsync), hsteps,
    BlockContext.stepOps_executorSteps _ (hlt p hp).le (subEnd_lt hnet hlt hp)]
  rw [LlmNet.nodeModel, (buildLlmNet_eq_ok hnet).2.2.1]
  rfl

/-! ## Nets that exist -/

/-- The counts that split the layers concern nothing but the split. -/
def BuildOptions.withCounts (o : BuildOptions) (counts : List Nat) : BuildOptions :=
  { o with ppStageLayerCounts := counts }

/-- What one accepted stage of one node asserts about the rotations. -/
theorem exists_ropeSlice (hnet : buildLlmNet h t o = .ok net) (ht : t.Plain) :
    ∃ ropeSlice, sliceRope h.ropeType h.qDim h.kvDim h.nKvHeads 1 h.seqLen h.headDim h.ropeTheta 0
      = .ok ropeSlice := by
  rcases (buildLlmNet_eq_ok hnet).2.2.2.2 0 t.nNodes_pos with ⟨cfg, -, hbuild⟩
  rcases buildNode_eq_ok hbuild with ⟨ropeSlice, hrope, -, -⟩
  rw [ht.tpSize_eq, (ht.placement 0).2.2.2] at hrope
  exact ⟨ropeSlice, hrope⟩

theorem exists_kvCacheSlice (hnet : buildLlmNet h t o = .ok net) (ht : t.Plain) :
    ∃ kv, sliceKvCache h.kvDim h.seqLen 1 1 0 = .ok kv := by
  rcases (buildLlmNet_eq_ok hnet).2.2.2.2 0 t.nNodes_pos with ⟨cfg, -, hbuild⟩
  rcases bind_eq_ok hbuild with ⟨placement, hplacement, hbuild⟩
  rcases bind_eq_ok hbuild with ⟨kv, hkv, -⟩
  have hplace : placement = t.placement 0 := by
    unfold NnParallelTopology.getPlacement at hplacement
    split_ifs at hplacement
    cases hplacement
    rfl
  rw [hplace, (ht.placement 0).2.2.1, ht.spSize_eq, ht.tpSize_eq, ite_self] at hkv
  exact ⟨kv, hkv⟩

/-- A header that a pipeline takes is taken by a single node. -/
theorem exists_singleNode_net (hnet : buildLlmNet h t o = .ok net) (ht : t.Plain) :
    ∃ net₁, buildLlmNet h singleNode (o.withCounts []) = .ok net₁ := by
  rcases exists_ropeSlice hnet ht with ⟨ropeSlice, hrope⟩
  rcases exists_kvCacheSlice hnet ht with ⟨kv, hkv⟩
  have hslices := (buildLlmNet_eq_ok hnet).1
  rw [ht.tpSize_eq] at hslices
  have hoffsets : ∃ offsets, stageOffsets h.nLayers 1 [] = .ok offsets := ⟨_, rfl⟩
  rcases hoffsets with ⟨offsets, hoffsets⟩
  have hnode : ∃ cfg, buildNode h singleNode (o.withCounts []) net.slices offsets 0 = .ok cfg := by
    have hplace : singleNode.getPlacement 0 = .ok (singleNode.placement 0) := rfl
    rw [buildNode, ok_bind_of_eq hplace]
    exact ⟨_, (ok_bind_of_eq ((ite_self _).trans hkv)).trans (ok_bind_of_eq hrope)⟩
  rcases hnode with ⟨cfg, hnode⟩
  have hnodes : (List.range singleNode.nNodes).mapM
      (buildNode h singleNode (o.withCounts []) net.slices offsets) = .ok [cfg] := by
    show [0].mapM (buildNode h singleNode (o.withCounts []) net.slices offsets) = _
    rw [List.mapM_cons, ok_bind_of_eq hnode]
    rfl
  rw [buildLlmNet]
  exact ⟨_, (ok_bind_of_eq hslices).trans ((ok_bind_of_eq hoffsets).trans (ok_bind_of_eq hnodes))⟩

/-! ## Runs -/

theorem exists_pipelineForward (ht : t.Plain) (net : LlmNet) (I : NnInterpretation R)
    (f : NnForward R) (s : Nat → NnMemory R) : ∃ s', PipelineForward net t I f s s' := by
  suffices hprefix : ∀ n, ∃ s' : Nat → NnMemory R, ∀ node < n,
      StepsRun (net.nodeModel t I node) f.batchSize (net.steps node)
        (stageStart (t.placement node) f (s' (t.predecessor node)) (s node)) (s' node) from
    hprefix t.nNodes
  intro n
  induction n with
  | zero => exact ⟨s, fun node hnode => absurd hnode (Nat.not_lt_zero node)⟩
  | succ n ih =>
      rcases ih with ⟨s', hs'⟩
      rcases exists_stepsRun (net.nodeModel t I n) f.batchSize (net.steps n)
        (stageStart (t.placement n) f (s' (n - 1)) (s n)) with ⟨m, hm⟩
      have hbefore {node : Nat} (hnode : node ≠ n) : Function.update s' n m node = s' node :=
        Function.update_of_ne hnode m s'
      refine ⟨Function.update s' n m, fun node hnode => ?_⟩
      rw [ht.predecessor]
      rcases Nat.lt_succ_iff_lt_or_eq.1 hnode with hlt | rfl
      · have hrun := hs' node hlt
        rw [ht.predecessor] at hrun
        rw [hbefore hlt.ne, hbefore (by omega)]
        exact hrun
      · rw [Function.update_self]
        rcases Nat.eq_zero_or_pos node with rfl | hpos
        · -- the first stage takes nothing from another one
          simpa only [stageStart, (ht.placement 0).2.1, if_true] using hm
        · rw [hbefore (by omega)]
          exact hm

theorem exists_pipelineRun (ht : t.Plain) (net : LlmNet) (I : NnInterpretation R)
    (fs : List (NnForward R)) (s : Nat → NnMemory R) : ∃ s', PipelineRun net t I fs s s' := by
  induction fs generalizing s with
  | nil => exact ⟨s, .nil s⟩
  | cons f fs ih =>
      rcases exists_pipelineForward ht net I f s with ⟨s₁, hforward⟩
      rcases ih s₁ with ⟨s', hrest⟩
      exact ⟨s', .cons hforward hrest⟩

end Net

/-! ## A pipeline and a single node -/

/-- The key and value rows of each layer, on the stage that has its attention. -/
def SameKvRows (t : NnParallelTopology) (net : LlmNet) {R : Type} (s : Nat → NnMemory R)
    (whole : NnMemory R) : Prop :=
  ∀ p < t.ppSize, ∀ layerIndex ∈ net.attLayers p, ∀ position,
    s p (.buffer (.k layerIndex), position) = whole (.buffer (.k layerIndex), position) ∧
    s p (.buffer (.v layerIndex), position) = whole (.buffer (.v layerIndex), position)

/-- Every layer of the net of one node has its attention on one stage. -/
def LayersSplit (t : NnParallelTopology) (net net₁ : LlmNet) : Prop :=
  ∀ layerIndex ∈ net₁.attLayers 0, ∃! p, p < t.ppSize ∧ layerIndex ∈ net.attLayers p

/-- From the same key and value rows, every forward of every run gives the logits and the key and
value rows that the net of one node gives, whatever the ops compute. -/
def ComputesLike (t : NnParallelTopology) (net net₁ : LlmNet) : Prop :=
  ∀ (R : Type) (I : NnInterpretation R) fs f (s s' s'' m m' m'' : Nat → NnMemory R),
    SameKvRows t net s (m 0) →
    PipelineRun net t I fs s s' → PipelineForward net t I f s' s'' →
    PipelineRun net₁ singleNode I fs m m' → PipelineForward net₁ singleNode I f m' m'' →
    (∀ b < f.batchSize, s'' (t.ppSize - 1) (.pipe .lg, b) = m'' 0 (.pipe .lg, b)) ∧
    SameKvRows t net s'' (m'' 0)

section Refinement

variable {R : Type} {I : NnInterpretation R} {h : LlmHeader} {t : NnParallelTopology}
  {o : BuildOptions} {counts₁ : List Nat} {net net₁ : LlmNet} {f : NnForward R}
  {fs : List (NnForward R)} {s s' m m' : Nat → NnMemory R}

theorem singleNode_plain : singleNode.Plain := ⟨rfl, rfl⟩

theorem mem_attLayers (hnet : buildLlmNet h t o = .ok net)
    (hlt : ∀ p < t.ppSize, net.subStart p < net.subEnd p) {p : Nat} (hp : p < t.ppSize)
    {layerIndex : Nat} : layerIndex ∈ net.attLayers p ↔
      net.subStart p ≤ layerIndex * 2 ∧ layerIndex * 2 < net.subEnd p := by
  have hfits := subEnd_lt hnet hlt hp
  rw [LlmNet.attLayers, BlockContext.mem_ownedAtts, and_iff_right_iff_imp,
    BlockContext.layerRange, u32_of_lt hfits, List.mem_range'_1]
  omega

theorem sameCaches_iff (hnet : buildLlmNet h t o = .ok net)
    (hlt : ∀ p < t.ppSize, net.subStart p < net.subEnd p) {whole : NnMemory R} :
    BlockContext.SameCaches (stageSplit t net (subStart_zero hnet) hlt) s whole
      ↔ SameKvRows t net s whole := by
  refine forall₂_congr fun p hp => forall_congr' fun layerIndex => ?_
  rw [mem_attLayers hnet hlt hp, and_imp]
  rfl

/-- The sub-blocks of the single node are those of all stages together. -/
theorem subEnd_singleNode (hnet : buildLlmNet h t o = .ok net)
    (hnet₁ : buildLlmNet h singleNode (o.withCounts counts₁) = .ok net₁) :
    net₁.subEnd 0 = net.subStart t.ppSize :=
  (subStart_ppSize hnet₁).trans (subStart_ppSize hnet).symm

theorem subStart_lt_singleNode (hnet : buildLlmNet h t o = .ok net)
    (hlt : ∀ p < t.ppSize, net.subStart p < net.subEnd p)
    (hnet₁ : buildLlmNet h singleNode (o.withCounts counts₁) = .ok net₁) :
    ∀ p < singleNode.ppSize, net₁.subStart p < net₁.subEnd p := by
  intro p hp
  have hzero : p = 0 := Nat.lt_one_iff.1 hp
  rw [hzero, subStart_zero hnet₁, subEnd_singleNode hnet hnet₁]
  exact (stageSplit t net (subStart_zero hnet) hlt).offset_pos t.ppSize_pos le_rfl

theorem layersSplit (hnet : buildLlmNet h t o = .ok net)
    (hlt : ∀ p < t.ppSize, net.subStart p < net.subEnd p)
    (hnet₁ : buildLlmNet h singleNode (o.withCounts counts₁) = .ok net₁) :
    LayersSplit t net net₁ := by
  intro layerIndex hlayer
  let d := stageSplit t net (subStart_zero hnet) hlt
  have hend : layerIndex * 2 < d.offset t.ppSize := by
    rw [mem_attLayers hnet₁ (subStart_lt_singleNode hnet hlt hnet₁) Nat.one_pos,
      subEnd_singleNode hnet hnet₁] at hlayer
    exact hlayer.2
  -- the stage before the first one that starts behind the layer
  have hex : ∃ p, layerIndex * 2 < d.offset p := ⟨_, hend⟩
  have hfind := Nat.find_spec hex
  have hle : Nat.find hex ≤ t.ppSize := Nat.find_min' hex hend
  rcases hstage : Nat.find hex with _ | p
  · rw [hstage, d.offset_zero] at hfind
    exact absurd hfind (Nat.not_lt_zero _)
  · rw [hstage] at hfind hle
    have hstart : d.offset p ≤ layerIndex * 2 :=
      Nat.not_lt.1 (Nat.find_min hex (by rw [hstage]; exact p.lt_succ_self))
    refine ⟨p, ⟨hle, (mem_attLayers hnet hlt hle).2 ⟨hstart, hfind⟩⟩, ?_⟩
    rintro q ⟨hq, hmem⟩
    rw [mem_attLayers hnet hlt hq] at hmem
    rcases lt_trichotomy q p with hqp | rfl | hpq
    · have := d.offset_le hqp (Nat.le_of_lt hle)
      exact absurd (hmem.2.trans_le (this.trans hstart)) (lt_irrefl _)
    · rfl
    · have := d.offset_le hpq hq.le
      exact absurd (hfind.trans_le (this.trans hmem.1)) (lt_irrefl _)

/-- One forward of the pipeline and of the single node. -/
theorem forward_agrees (hnet : buildLlmNet h t o = .ok net) (ht : t.Plain)
    (hprune : o.pruneLayer = none) (hlt : ∀ p < t.ppSize, net.subStart p < net.subEnd p)
    (hnet₁ : buildLlmNet h singleNode (o.withCounts counts₁) = .ok net₁)
    (hsame : SameKvRows t net s (m 0)) (hforward : PipelineForward net t I f s s')
    (hwhole : PipelineForward net₁ singleNode I f m m') :
    (∀ b < f.batchSize, s' (t.ppSize - 1) (.pipe .lg, b) = m' 0 (.pipe .lg, b)) ∧
    SameKvRows t net s' (m' 0) := by
  rcases exists_ropeSlice hnet ht with ⟨ropeSlice, hrope⟩
  have hlt₁ := subStart_lt_singleNode hnet hlt hnet₁
  have hslices : net₁.slices = net.slices := by
    have h₁ := (buildLlmNet_eq_ok hnet₁).1
    have h₂ := (buildLlmNet_eq_ok hnet).1
    rw [ht.tpSize_eq] at h₂
    exact Except.ok.inj (h₁.symm.trans h₂)
  have hstages := stagesForward_of_net hnet ht hrope hlt hforward
  have hsingle := stagesForward_of_net hnet₁ singleNode_plain hrope hlt₁ hwhole
  rw [hslices] at hsingle
  have hplaces {u : NnParallelTopology} {net' : LlmNet} (hu : u.Plain)
      (h₀ : net'.subStart 0 = 0) (hlt' : ∀ p < u.ppSize, net'.subStart p < net'.subEnd p) :
      BlockContext.StagePlaces (stageSplit u net' h₀ hlt') u.placement :=
    fun p _ => ⟨(hu.placement p).1, (hu.placement p).2.1⟩
  have hcaches := (sameCaches_iff hnet hlt).2 hsame
  have hlast := subEnd_singleNode hnet hnet₁
  exact ⟨fun b hb => BlockContext.logits_forward hprune (hplaces ht _ _)
      (hplaces singleNode_plain _ _) hcaches hstages hsingle rfl hlast hb,
    (sameCaches_iff hnet hlt).1 (BlockContext.sameCaches_forward hprune (hplaces ht _ _)
      (hplaces singleNode_plain _ _) hcaches hstages hsingle rfl hlast)⟩

theorem run_agrees (hnet : buildLlmNet h t o = .ok net) (ht : t.Plain)
    (hprune : o.pruneLayer = none) (hlt : ∀ p < t.ppSize, net.subStart p < net.subEnd p)
    (hnet₁ : buildLlmNet h singleNode (o.withCounts counts₁) = .ok net₁)
    (hsame : SameKvRows t net s (m 0)) (hrun : PipelineRun net t I fs s s')
    (hwhole : PipelineRun net₁ singleNode I fs m m') : SameKvRows t net s' (m' 0) := by
  induction hrun generalizing m with
  | nil =>
      cases hwhole
      exact hsame
  | cons hforward _ ih =>
      cases hwhole with
      | cons hforward₁ hrest₁ =>
          exact ih (forward_agrees hnet ht hprune hlt hnet₁ hsame hforward hforward₁).2 hrest₁

end Refinement

/-- Whatever the split over stages of one node, as long as none is empty: the pipeline runs, a
single node takes the model too, and the two compute the same. -/
theorem pipeline_computesLike_singleNode (h : LlmHeader) (t : NnParallelTopology)
    (o : BuildOptions) (net : LlmNet) (hnet : buildLlmNet h t o = .ok net) (ht : t.Plain)
    (hprune : o.pruneLayer = none) (hlt : ∀ p < t.ppSize, net.subStart p < net.subEnd p) :
    (∀ (R : Type) (I : NnInterpretation R) fs s, ∃ s', PipelineRun net t I fs s s') ∧
    (∃ net₁, buildLlmNet h singleNode (o.withCounts []) = .ok net₁) ∧
    ∀ counts₁ net₁, buildLlmNet h singleNode (o.withCounts counts₁) = .ok net₁ →
      LayersSplit t net net₁ ∧ ComputesLike t net net₁ := by
  refine ⟨fun R I => exists_pipelineRun ht net I, exists_singleNode_net hnet ht,
    fun counts₁ net₁ hnet₁ => ⟨layersSplit hnet hlt hnet₁, ?_⟩⟩
  intro R I fs f s s' s'' m m' m'' hsame hrun hforward hrun₁ hforward₁
  have hbefore := run_agrees hnet ht hprune hlt hnet₁ hsame hrun hrun₁
  exact forward_agrees hnet ht hprune hlt hnet₁ hbefore hforward hforward₁

private theorem threeStages_nNodes : 3 = 3 * 1 * 1 := rfl

/-- Three stages that cut both layers of a model between attention and feed-forward part. -/
def threeStages : NnParallelTopology :=
  ⟨3, 3, 1, 1, Nat.succ_pos 2, Nat.one_pos, Nat.one_pos, threeStages_nNodes⟩

def cutLayers : BuildOptions := ⟨1, [1, 2, 1], none, false, false⟩

theorem pipeline_computesLike_singleNode_three_stages :
    ∃ net, buildLlmNet (tinyHeader 2) threeStages cutLayers = .ok net ∧
      ∃ net₁, buildLlmNet (tinyHeader 2) singleNode (cutLayers.withCounts []) = .ok net₁ ∧
        LayersSplit threeStages net net₁ ∧ ComputesLike threeStages net net₁ := by
  have hnet : ∃ net, buildLlmNet (tinyHeader 2) threeStages cutLayers = .ok net := ⟨_, rfl⟩
  rcases hnet with ⟨net, hnet⟩
  have hoffsets : net.ppLayerOffsets = [0, 1, 3, 4] := by
    have hok := (buildLlmNet_eq_ok hnet).2.1
    exact (Except.ok.inj hok).symm
  have hlt : ∀ p < threeStages.ppSize, net.subStart p < net.subEnd p := by
    simp only [LlmNet.subStart, LlmNet.subEnd, hoffsets]
    decide
  rcases pipeline_computesLike_singleNode (tinyHeader 2) threeStages cutLayers net hnet ⟨rfl, rfl⟩
    rfl hlt with ⟨-, ⟨net₁, hnet₁⟩, hall⟩
  exact ⟨net, hnet, net₁, hnet₁, hall [] net₁ hnet₁⟩

end PrefillOpt
