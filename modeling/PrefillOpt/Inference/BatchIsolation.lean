import PrefillOpt.Inference.BatchSchedule

/-!
# Inference.BatchIsolation — when a request in a batch is as good as alone

A request that is alone makes its tokens from its own rows and its text from its own bytes.  In a
batch this stays so as long as nobody writes over a row that it counts on and nobody leaves bytes
in the decoder when its turn comes.
-/

namespace PrefillOpt
namespace Inference

open Lib

/-! ## One request -/

namespace CbRequestState

variable (req : CbRequestState)

/-- The tokens of the request by position. -/
def own (q : Nat) : Nat :=
  (req.tokens ++ req.generated).getD q 0

/-- The request is where its tokens end, and has the last of them at hand. -/
structure Grown : Prop where
  pos_succ : req.pos + 1 = req.tokens.length + req.generated.length
  token : req.token = req.own req.pos

/-- The request behind its prefill. -/
def prefilled : CbRequestState :=
  { req with pos := req.tokens.length - 1, token := req.tokens.getD (req.tokens.length - 1) 0 }

/-- As `newRequest` makes it. -/
structure Fresh : Prop where
  pos : req.pos = 0
  token : req.token = req.tokens.getD 0 0
  finished : req.finished = false
  generated : req.generated = []
  length_pos : 0 < req.tokens.length

theorem Fresh.grown {req : CbRequestState} (h : req.Fresh) : req.prefilled.Grown := by
  have hpos := h.length_pos
  refine ⟨?_, ?_⟩
  · simp only [prefilled, h.generated, List.length_nil, Nat.add_zero]
    omega
  · simp only [prefilled, own, h.generated, List.append_nil]

theorem Fresh.own_eq {req : CbRequestState} (h : req.Fresh) (q : Nat) :
    req.prefilled.own q = req.tokens.getD q 0 := by
  simp only [prefilled, own, h.generated, List.append_nil]

end CbRequestState

theorem CbArgs.newRequest_fresh {a : CbArgs} {tokens : List Nat} {req : CbRequestState}
    (h : a.newRequest tokens = .ok req) : req.Fresh ∧ req.tokens = tokens := by
  simp only [newRequest] at h
  split_ifs at h with hlen hseq hsteps hnew
  · cases h
    exact ⟨⟨rfl, rfl, rfl, rfl, Nat.lt_of_not_le fun h => hlen (Nat.lt_succ_of_le h)⟩, rfl⟩
  · cases h
    exact ⟨⟨rfl, rfl, rfl, rfl, Nat.lt_of_not_le fun h => hlen (Nat.lt_succ_of_le h)⟩, rfl⟩

theorem CbArgs.maxActive_pos {a : CbArgs} {maxActive : Nat} (h : a.maxActive = .ok maxActive) :
    0 < maxActive ∧ 0 < a.args.nBatches := by
  simp only [CbArgs.maxActive] at h
  split_ifs at h <;> cases h <;> omega

theorem CbArgs.prefillBatchCap_pos {a : CbArgs} (h : 0 < a.args.nBatches) (n : Nat) :
    0 < a.prefillBatchCap n := by
  have hsched := (@scheduledChunk_feasible a.args n h).1
  have hpressure := (@pressureChunk_feasible a.args n h).1
  simp only [prefillBatchCap, resolvePrefillChunkBatchSize]
  split_ifs <;> simp only [Option.getD_some, Option.getD_none] <;> omega

namespace CbContext

variable {H R : Type} (ctx : CbContext H R)

/-- The token that the request's own tokens give. -/
def nextToken (req : CbRequestState) : Nat :=
  ctx.sample (ctx.m.hidden req.own ctx.m.nLayers req.pos)

/-- A step of a request with a cache and a decoder of its own. -/
def soloStep (x : CbRequestState × List Cell) : CbRequestState × List Cell :=
  if x.1.active then ctx.advance x.2 x.1 (ctx.nextToken x.1) else x

/-- The request after `k` tokens of its own, and what they leave in its decoder. -/
def alone (req : CbRequestState) (k : Nat) : CbRequestState × List Cell :=
  ctx.soloStep^[k] (req.prefilled, [])

variable {ctx} {req : CbRequestState} {strBuffer : List Cell} {nextToken : Nat}

section Advance

theorem own_advance (h : req.Grown) {q : Nat} (hq : q ≤ req.pos) :
    (ctx.advance strBuffer req nextToken).1.own q = req.own q := by
  have hlen := h.pos_succ
  simp only [CbRequestState.own, advance]
  rw [← List.append_assoc, List.getD_append]
  rw [List.length_append]
  omega

theorem own_advance_next (h : req.Grown) :
    (ctx.advance strBuffer req nextToken).1.own (req.pos + 1) = nextToken := by
  have hlen := h.pos_succ
  simp only [CbRequestState.own, advance]
  rw [← List.append_assoc, List.getD_append_right, List.length_append, hlen, Nat.sub_self]
  · rfl
  · rw [List.length_append, hlen]

theorem grown_advance (h : req.Grown) : (ctx.advance strBuffer req nextToken).1.Grown := by
  refine ⟨?_, (own_advance_next h).symm⟩
  have hlen := h.pos_succ
  simp only [advance, List.length_append, List.length_singleton]
  omega

end Advance

/-! ### The request that is alone -/

theorem alone_succ (req : CbRequestState) (k : Nat) :
    ctx.alone req (k + 1) = ctx.soloStep (ctx.alone req k) :=
  Function.iterate_succ_apply' _ _ _

theorem alone_of_inactive {k : Nat} (h : (ctx.alone req k).1.active = false) (n : Nat) :
    ctx.alone req (k + n) = ctx.alone req k := by
  induction n with
  | zero => rfl
  | succ n ih => rw [← Nat.add_assoc, alone_succ, ih, soloStep, h, if_neg Bool.false_ne_true]

/-- A request ends in one state only. -/
theorem alone_final {k k' : Nat} (h : (ctx.alone req k).1.active = false)
    (h' : (ctx.alone req k').1.active = false) : ctx.alone req k = ctx.alone req k' := by
  rcases Nat.le_total k k' with hle | hle
  · obtain ⟨n, rfl⟩ := Nat.exists_eq_add_of_le hle
    exact (alone_of_inactive h n).symm
  · obtain ⟨n, rfl⟩ := Nat.exists_eq_add_of_le hle
    exact alone_of_inactive h' n

/-- What a request gets alone. -/
def EndsAs (ctx : CbContext H R) (req result : CbRequestState) : Prop :=
  ∃ k, result = (ctx.alone req k).1 ∧ (ctx.alone req k).1.active = false

theorem endsAs_rightUnique : Relator.RightUnique ctx.EndsAs := by
  rintro req result result' ⟨k, rfl, hk⟩ ⟨k', rfl, hk'⟩
  rw [alone_final hk hk']

/-- What a request that is alone has written stays. -/
theorem alone_prefix (req : CbRequestState) (k n : Nat) :
    (ctx.alone req k).1.generated <+: (ctx.alone req (k + n)).1.generated ∧
      (ctx.alone req k).1.generatedText <+: (ctx.alone req (k + n)).1.generatedText := by
  induction n with
  | zero => exact ⟨List.prefix_rfl, List.prefix_rfl⟩
  | succ n ih =>
      rw [← Nat.add_assoc, alone_succ, soloStep]
      split_ifs
      · exact ⟨ih.1.trans (List.prefix_append _ _), ih.2.trans (List.prefix_append _ _)⟩
      · exact ih

theorem alone_prefix_final {k' : Nat} (h : (ctx.alone req k').1.active = false) (k : Nat) :
    (ctx.alone req k).1.generated <+: (ctx.alone req k').1.generated ∧
      (ctx.alone req k).1.generatedText <+: (ctx.alone req k').1.generatedText := by
  rcases Nat.le_total k k' with hle | hle
  · obtain ⟨n, rfl⟩ := Nat.exists_eq_add_of_le hle
    exact alone_prefix req k n
  · obtain ⟨n, rfl⟩ := Nat.exists_eq_add_of_le hle
    rw [alone_of_inactive h n]
    exact ⟨List.prefix_rfl, List.prefix_rfl⟩

theorem grown_alone (h : req.Fresh) (k : Nat) : (ctx.alone req k).1.Grown := by
  induction k with
  | zero => exact h.grown
  | succ k ih =>
      rw [alone_succ, soloStep]
      split_ifs
      · exact grown_advance ih
      · exact ih

/-! ## The prefill -/

section Prefill

/-- The rows that a prefill writes are those of its prompt. -/
theorem prefillLoop_eq {cap : Nat} (hcap : 0 < cap) {fuel : Nat} {kv : Kv R}
    (hpos : req.pos < req.tokens.length) (hfuel : req.tokens.length ≤ req.pos + fuel + 1)
    (htoken : req.token = req.tokens.getD req.pos 0)
    (hholds : ctx.m.Holds kv (fun q => req.tokens.getD q 0) req.pos) :
    ctx.prefillLoop cap fuel kv req
      = (fun l q => if l < ctx.m.nLayers ∧ req.pos ≤ q ∧ q < req.tokens.length - 1 then
            ctx.m.row (fun q => req.tokens.getD q 0) l q else kv l q,
          req.prefilled) := by
  induction fuel generalizing kv req with
  | zero =>
      have hlast : req.tokens.length - 1 = req.pos := by omega
      rw [prefillLoop, CbRequestState.prefilled, hlast, ← htoken]
      refine Prod.ext ?_ rfl
      funext l q
      simp only
      rw [if_neg]
      omega
  | succ fuel ih =>
      rw [prefillLoop]
      by_cases hmore : req.pos + 1 < req.tokens.length
      · rw [if_pos hmore]
        generalize hb : (if req.tokens.length - 1 - req.pos < cap then
          req.tokens.length - 1 - req.pos else cap) = b
        have hb' : 1 ≤ b ∧ req.pos + b ≤ req.tokens.length - 1 := by
          rw [← hb]
          split_ifs <;> omega
        simp only [hb, forwardSample]
        have hnext := ctx.m.forward_chunk hholds b
        rw [@ih { req with pos := req.pos + b, token := req.tokens.getD (req.pos + b) 0 } _
          (show req.pos + b < req.tokens.length by omega)
          (show req.tokens.length ≤ req.pos + b + fuel + 1 by omega) rfl hnext]
        refine Prod.ext ?_ rfl
        funext l q
        rw [ctx.m.forward_chunk_eq hholds b]
        simp only
        by_cases hold : l < ctx.m.nLayers ∧ req.pos ≤ q ∧ q < req.tokens.length - 1
        · rw [if_pos hold]
          split_ifs with hlate hchunk
          · rfl
          · rfl
          · omega
        · rw [if_neg hold, if_neg (by omega), if_neg (by omega)]
      · have hlast : req.tokens.length - 1 = req.pos := by omega
        rw [if_neg hmore, CbRequestState.prefilled, hlast, ← htoken]
        refine Prod.ext ?_ rfl
        funext l q
        simp only
        rw [if_neg]
        omega

theorem prefill_eq (hbatches : 0 < ctx.a.args.nBatches) (h : req.Fresh) (kv : Kv R) :
    ctx.prefill kv req
      = (fun l q => if l < ctx.m.nLayers ∧ q + 1 < req.tokens.length then
            ctx.m.row req.prefilled.own l q else kv l q,
          req.prefilled) := by
  have hown : (fun q => req.tokens.getD q 0) = req.prefilled.own := by
    funext q
    exact (h.own_eq q).symm
  have hpos := h.length_pos
  rw [prefill, prefillLoop_eq (CbArgs.prefillBatchCap_pos hbatches _)
    (by rw [h.pos]; exact hpos) (by omega) (by rw [h.token, h.pos])
    (fun l _ p hp => absurd hp (by rw [h.pos]; exact Nat.not_lt_zero p)), hown]
  refine Prod.ext ?_ rfl
  funext l q
  have hiff : (l < ctx.m.nLayers ∧ req.pos ≤ q ∧ q < req.tokens.length - 1)
      ↔ l < ctx.m.nLayers ∧ q + 1 < req.tokens.length := by
    rw [h.pos]
    omega
  simp only [hiff]

/-- Another prompt may be prefilled behind one that begins with the same tokens. -/
theorem prefill_holds (hbatches : 0 < ctx.a.args.nBatches) (h : req.Fresh) {kv : Kv R}
    {toks : Nat → Nat} {n : Nat} (hholds : ctx.m.Holds kv toks n)
    (hagree : ∀ q, q < n → q + 1 < req.tokens.length → req.tokens.getD q 0 = toks q) :
    ctx.m.Holds (ctx.prefill kv req).1 toks n := by
  rw [prefill_eq hbatches h]
  intro l hl p hp
  simp only
  split_ifs with hin
  · apply ctx.m.row_congr
    intro q hq
    rw [h.own_eq]
    exact hagree q (Nat.lt_of_le_of_lt hq hp) (by omega)
  · exact hholds l hl p hp

/-- Prompts that are to be continued agree with the prompts behind them, up to the last token of
the shorter one. -/
def PromptsAgree (reqs : List CbRequestState) : Prop :=
  reqs.Pairwise fun req req' => req.tokens.length ≤ req.maxPos →
    ∀ q, q + 1 < req.tokens.length → q + 1 < req'.tokens.length →
      req'.tokens.getD q 0 = req.tokens.getD q 0

theorem prefillAll_snd (hbatches : 0 < ctx.a.args.nBatches) {reqs : List CbRequestState}
    (hfresh : ∀ req ∈ reqs, req.Fresh) (kv : Kv R) :
    (ctx.prefillAll kv reqs).2 = reqs.map CbRequestState.prefilled := by
  induction reqs generalizing kv with
  | nil => rfl
  | cons req reqs ih =>
      rw [prefillAll, prefill_eq hbatches (hfresh req List.mem_cons_self)]
      simp only
      rw [ih fun req' hreq' => hfresh req' (List.mem_cons_of_mem req hreq')]
      rfl

theorem prefillAll_holds (hbatches : 0 < ctx.a.args.nBatches) {reqs : List CbRequestState}
    (hfresh : ∀ req ∈ reqs, req.Fresh) {kv : Kv R} {toks : Nat → Nat} {n : Nat}
    (hholds : ctx.m.Holds kv toks n)
    (hagree : ∀ req ∈ reqs, ∀ q, q < n → q + 1 < req.tokens.length →
      req.tokens.getD q 0 = toks q) :
    ctx.m.Holds (ctx.prefillAll kv reqs).1 toks n := by
  induction reqs generalizing kv with
  | nil => exact hholds
  | cons req reqs ih =>
      rw [prefillAll]
      exact ih (fun req' hreq' => hfresh req' (List.mem_cons_of_mem req hreq'))
        (prefill_holds hbatches (hfresh req List.mem_cons_self) hholds
          (hagree req List.mem_cons_self))
        fun req' hreq' => hagree req' (List.mem_cons_of_mem req hreq')

/-- Behind the prefills the cache has the rows of each prompt that is to be continued. -/
theorem prefillAll_own (hbatches : 0 < ctx.a.args.nBatches) {reqs : List CbRequestState}
    (hfresh : ∀ req ∈ reqs, req.Fresh) (hagree : PromptsAgree reqs) (kv : Kv R) (hreq : req ∈ reqs)
    (hmore : req.tokens.length ≤ req.maxPos) :
    ctx.m.Holds (ctx.prefillAll kv reqs).1 req.prefilled.own req.prefilled.pos := by
  induction reqs generalizing kv with
  | nil => cases hreq
  | cons head reqs ih =>
      have hrest := fun req' hreq' => hfresh req' (List.mem_cons_of_mem head hreq')
      rcases List.pairwise_cons.1 hagree with ⟨hhead, htail⟩
      rw [prefillAll]
      rcases List.mem_cons.1 hreq with rfl | hreq
      · have hown := hfresh req List.mem_cons_self
        apply prefillAll_holds hbatches hrest
        · rw [prefill_eq hbatches hown]
          intro l hl p hp
          have hp' : p + 1 < req.tokens.length := by
            simp only [CbRequestState.prefilled] at hp
            omega
          simp only [hl, hp', and_self, if_true]
        · intro req' hreq' q hq hlen
          rw [hown.own_eq]
          refine hhead req' hreq' hmore q ?_ hlen
          simp only [CbRequestState.prefilled] at hq
          omega
      · exact ih hrest htail _ hreq

end Prefill

end CbContext

/-! ## The batch -/

namespace CbState

variable {H R : Type} (s : CbState H R)

/-- Position and tokens of a request. -/
def sequence (idx : Nat) : Nat × (Nat → Nat) :=
  (s.reqs[idx]?.map fun req => (req.pos, req.own)).getD (0, fun _ => 0)

/-- No picked request writes a row that another unfinished one counts on, unless both have the
same tokens up to there. -/
def RowsAgree (picked : List Nat) : Prop :=
  ∀ i ∈ picked, ∀ j < s.reqs.length, s.isActive j = true →
    (s.sequence i).1 < (s.sequence j).1 ∨ (s.sequence i).1 = (s.sequence j).1 ∧ j ∈ picked →
    ∀ q ≤ (s.sequence i).1, (s.sequence i).2 q = (s.sequence j).2 q

/-- The decoder is empty, or serves the only unfinished request. -/
def Clean : Prop :=
  s.strBuffer = [] ∨ ∀ i < s.reqs.length, ∀ j < s.reqs.length,
    s.isActive i = true → s.isActive j = true → i = j

/-- What a forward needs, and what a turn needs. -/
def Undisturbed (maxActive : Nat) : Prop :=
  (s.due = [] → s.RowsAgree (s.pick maxActive)) ∧ (s.due ≠ [] → s.Clean)

instance (picked : List Nat) : Decidable (s.RowsAgree picked) :=
  inferInstanceAs (Decidable (∀ i ∈ picked, ∀ j < s.reqs.length, s.isActive j = true →
    (_ ∨ _) → ∀ q ≤ (s.sequence i).1, (s.sequence i).2 q = (s.sequence j).2 q))

instance : Decidable s.Clean :=
  inferInstanceAs (Decidable (_ ∨ ∀ i < s.reqs.length, ∀ j < s.reqs.length, _ → _ → i = j))

instance (maxActive : Nat) : Decidable (s.Undisturbed maxActive) :=
  inferInstanceAs (Decidable ((_ → _) ∧ (_ → _)))

variable {s} {idx : Nat} {req : CbRequestState}

theorem sequence_of_some (h : s.reqs[idx]? = some req) : s.sequence idx = (req.pos, req.own) := by
  rw [sequence, h]
  rfl

theorem isActive_of_some (h : s.reqs[idx]? = some req) : s.isActive idx = req.active := by
  rw [isActive, h]
  rfl

theorem lt_of_isActive (h : s.isActive idx = true) : idx < s.reqs.length := by
  obtain ⟨req, hreq, -⟩ := isActive_iff.1 h
  exact (List.getElem?_eq_some_iff.1 hreq).1

theorem Clean.eq_of_isActive (h : s.Clean) (hne : s.strBuffer ≠ []) {i j : Nat}
    (hi : s.isActive i = true) (hj : s.isActive j = true) : i = j :=
  (h.resolve_left hne) i (lt_of_isActive hi) j (lt_of_isActive hj) hi hj

theorem batchRow_eq (h : ∀ req, s.reqs[idx]? = some req → req.Grown) :
    s.batchRow idx = ((s.sequence idx).1, (s.sequence idx).2 (s.sequence idx).1) := by
  rw [batchRow, sequence]
  cases hreq : s.reqs[idx]? with
  | none => rfl
  | some req => exact Prod.ext rfl (h req hreq).token

end CbState

namespace CbContext

variable {H R : Type} {ctx : CbContext H R} {maxActive : Nat} {s s' : CbState H R}
  {reqs : List CbRequestState}

/-- Each request is in a state of its own run.  An unfinished one has its rows, and its bytes are
those in the decoder if the decoder can be its own. -/
structure Separate (ctx : CbContext H R) (reqs : List CbRequestState) (s : CbState H R) : Prop where
  length : s.reqs.length = reqs.length
  solo : ∀ (i : Nat) req, s.reqs[i]? = some req →
    ∃ req₀ k, reqs[i]? = some req₀ ∧ (ctx.alone req₀ k).1 = req
  text : s.Clean → ∀ (i : Nat) req, s.reqs[i]? = some req → req.active = true →
    ∃ req₀ k, reqs[i]? = some req₀ ∧ ctx.alone req₀ k = (req, s.strBuffer)
  rows : ∀ (i : Nat) req, s.reqs[i]? = some req → req.active = true →
    ctx.m.Holds s.kv req.own (req.pos + if i ∈ s.due.map Prod.fst then 1 else 0)
  due : ∀ d ∈ s.due, ∀ req, s.reqs[d.1]? = some req → d.2 = ctx.nextToken req

theorem Separate.grown (hfresh : ∀ req ∈ reqs, req.Fresh) (h : Separate ctx reqs s) {i : Nat}
    {req : CbRequestState} (hreq : s.reqs[i]? = some req) : req.Grown := by
  obtain ⟨req₀, k, hreq₀, rfl⟩ := h.solo i req hreq
  exact grown_alone (hfresh req₀ (List.mem_of_getElem? hreq₀)) k

theorem start_eq (hbatches : 0 < ctx.a.args.nBatches) (hfresh : ∀ req ∈ reqs, req.Fresh) :
    ctx.start reqs = ⟨reqs.map CbRequestState.prefilled, (ctx.prefillAll ctx.kv reqs).1,
      ctx.logitsPipe, [], reqs.length, 0, []⟩ := by
  simp only [start, prefillAll_snd hbatches hfresh, List.length_map]

theorem scheduled_start (hbatches : 0 < ctx.a.args.nBatches) (hfresh : ∀ req ∈ reqs, req.Fresh) :
    (ctx.start reqs).Scheduled := by
  rw [start_eq hbatches hfresh]
  refine ⟨List.nodup_nil, fun d hd => absurd hd List.not_mem_nil, ?_⟩
  have hall : ∀ req ∈ reqs.map CbRequestState.prefilled, (!req.finished) = true := by
    intro req hreq
    obtain ⟨req₀, hreq₀, rfl⟩ := List.mem_map.1 hreq
    simp only [CbRequestState.prefilled, (hfresh req₀ hreq₀).finished, Bool.not_false]
  simp only
  rw [List.countP_eq_length.2 hall, List.length_map]

theorem separate_start (hbatches : 0 < ctx.a.args.nBatches) (hfresh : ∀ req ∈ reqs, req.Fresh)
    (hagree : PromptsAgree reqs) : Separate ctx reqs (ctx.start reqs) := by
  have hprefilled : ∀ (i : Nat) req, (reqs.map CbRequestState.prefilled)[i]? = some req →
      ∃ req₀, reqs[i]? = some req₀ ∧ req₀.prefilled = req := by
    intro i req hreq
    rw [List.getElem?_map] at hreq
    exact Option.map_eq_some_iff.1 hreq
  rw [start_eq hbatches hfresh]
  refine ⟨List.length_map _, ?_, ?_, ?_, fun d hd => absurd hd List.not_mem_nil⟩
  · intro i req hreq
    obtain ⟨req₀, hreq₀, rfl⟩ := hprefilled i req hreq
    exact ⟨req₀, 0, hreq₀, rfl⟩
  · intro _ i req hreq _
    obtain ⟨req₀, hreq₀, rfl⟩ := hprefilled i req hreq
    exact ⟨req₀, 0, hreq₀, rfl⟩
  · intro i req hreq hactive
    obtain ⟨req₀, hreq₀, rfl⟩ := hprefilled i req hreq
    have hmem := List.mem_of_getElem? hreq₀
    have hlength := (hfresh req₀ hmem).length_pos
    have hleft := CbRequestState.left_pos hactive
    rw [CbRequestState.left, if_pos hactive] at hleft
    apply prefillAll_own hbatches hfresh hagree _ hmem
    simp only [CbRequestState.prefilled] at hleft
    omega

/-! ### A forward -/

/-- In full-logits mode each picked request finds its own row in the pipe. -/
theorem recvLogits_row (hmode : ctx.decodeLogitsMode = 0) {logitsPipe : Nat → H}
    {picked : List Nat} {logits : Nat → H} {x : Nat × Nat} (hx : x ∈ picked.zipIdx) :
    ctx.recvLogits logitsPipe (picked.map logits) x.2 = logits x.1 := by
  have hrow := List.mem_zipIdx_iff_getElem?.1 hx
  have hfull : ¬(ctx.decodeLogitsMode ≠ 0 ∧ (picked.map logits).length = 1) :=
    fun h => h.1 hmode
  rw [recvLogits, if_neg hfull, List.getD_eq_getElem?_getD, List.getElem?_map, hrow]
  rfl

/-- A forward of undisturbed rows is one forward for each sequence. -/
theorem forwardRound_eq (hmode : ctx.decodeLogitsMode = 0) (hfresh : ∀ req ∈ reqs, req.Fresh)
    (hdue : s.due = []) (h : Separate ctx reqs s) {picked : List Nat}
    (hactive : ∀ i ∈ picked, s.isActive i = true)
    (hrows : s.RowsAgree picked) :
    (∀ j req, s.reqs[j]? = some req → req.active = true →
        ctx.m.Holds (ctx.forwardRound s picked).kv req.own
          (req.pos + if j ∈ picked then 1 else 0)) ∧
      (ctx.forwardRound s picked).due = picked.map fun i =>
        (i, ctx.sample (ctx.m.hidden (s.sequence i).2 ctx.m.nLayers (s.sequence i).1)) := by
  have hfinds : ∀ j req, s.reqs[j]? = some req → req.active = true → ∀ q,
      (q < req.pos + if j ∈ picked then 1 else 0) → ∀ l < ctx.m.nLayers,
      ctx.m.settled s.kv (picked.map s.sequence) l q = ctx.m.row req.own l q := by
    intro j req hreq hreqActive q hq l hl
    have hholds := h.rows j req hreq hreqActive
    rw [hdue, List.map_nil, if_neg List.not_mem_nil, Nat.add_zero] at hholds
    have hj := CbState.sequence_of_some hreq
    refine ctx.m.settled_eq hholds ?_ ?_ hl
    · by_cases hlt : q < req.pos
      · exact .inl hlt
      · have hpicked : j ∈ picked := by
          by_contra hnot
          rw [if_neg hnot] at hq
          exact hlt hq
        rw [if_pos hpicked] at hq
        refine .inr ⟨s.sequence j, List.mem_map_of_mem hpicked, ?_⟩
        rw [hj]
        simp only
        omega
    · intro f hf hfq p hp
      obtain ⟨i, hi, rfl⟩ := List.mem_map.1 hf
      have hwrites : (s.sequence i).1 < (s.sequence j).1
          ∨ (s.sequence i).1 = (s.sequence j).1 ∧ j ∈ picked := by
        rw [hfq, hj]
        split_ifs at hq with hpicked
        · rcases Nat.lt_or_eq_of_le (Nat.le_of_lt_succ hq) with hlt | heq
          · exact .inl hlt
          · exact .inr ⟨heq, hpicked⟩
        · exact .inl hq
      have hjActive := (CbState.isActive_of_some hreq).trans hreqActive
      have hagree := hrows i hi j (CbState.lt_of_isActive hjActive) hjActive hwrites p (hfq ▸ hp)
      rw [hagree, hj]
  have hfits : ctx.m.Fits s.kv (picked.map s.sequence) := by
    intro f hf q hq l hl
    obtain ⟨i, hi, rfl⟩ := List.mem_map.1 hf
    obtain ⟨req, hreq, hreqActive⟩ := CbState.isActive_iff.1 (hactive i hi)
    rw [CbState.sequence_of_some hreq] at hq ⊢
    apply hfinds i req hreq hreqActive q _ l hl
    rw [if_pos hi]
    exact Nat.lt_succ_of_le hq
  have hbatch : picked.map s.batchRow = (picked.map s.sequence).map fun f => (f.1, f.2 f.1) := by
    rw [List.map_map]
    apply List.map_congr_left
    intro i _
    exact CbState.batchRow_eq fun req hreq => h.grown hfresh hreq
  have hforward := ctx.m.forward_eq hfits
  rw [← hbatch] at hforward
  refine ⟨?_, ?_⟩
  · intro j req hreq hreqActive l hl q hq
    simp only [forwardRound, hforward, if_pos hl]
    exact hfinds j req hreq hreqActive q hq l hl
  · simp only [forwardRound, hforward, List.map_map]
    calc picked.zipIdx.map _
        = picked.zipIdx.map ((fun i => (i, ctx.sample
            (ctx.m.hidden (s.sequence i).2 ctx.m.nLayers (s.sequence i).1))) ∘ Prod.fst) := by
          apply List.map_congr_left
          intro x hx
          rw [recvLogits_row hmode hx]
          rfl
      _ = _ := by rw [← List.map_map, List.zipIdx_map_fst]

theorem separate_forwardRound (hmode : ctx.decodeLogitsMode = 0)
    (hfresh : ∀ req ∈ reqs, req.Fresh) (hdue : s.due = []) (h : Separate ctx reqs s)
    (hrows : s.RowsAgree (s.pick maxActive)) :
    Separate ctx reqs (ctx.forwardRound s (s.pick maxActive)) := by
  obtain ⟨hholds, hnext⟩ := forwardRound_eq hmode hfresh hdue h
    (fun i hi => CbState.isActive_of_mem_pick hi) hrows
  refine ⟨h.length, h.solo, h.text, ?_, ?_⟩
  · rw [forwardRound_due]
    exact hholds
  · intro d hd req hreq
    rw [hnext] at hd
    obtain ⟨i, _, rfl⟩ := List.mem_map.1 hd
    have hi := CbState.sequence_of_some (s := s) hreq
    simp only [hi]
    rfl

/-! ### A turn -/

theorem alone_advance {req₀ req : CbRequestState} {strBuffer : List Cell} {k : Nat}
    (h : ctx.alone req₀ k = (req, strBuffer)) (hactive : req.active = true) :
    ctx.alone req₀ (k + 1) = ctx.advance strBuffer req (ctx.nextToken req) := by
  rw [alone_succ, h, soloStep, if_pos hactive]

theorem separate_turn (hfresh : ∀ req ∈ reqs, req.Fresh) {idx token : Nat} {due : List (Nat × Nat)}
    (hdue : s.due = (idx, token) :: due) (hsched : s.Scheduled) (h : Separate ctx reqs s)
    (hclean : s.Clean) : Separate ctx reqs (ctx.turn s idx token due) := by
  have hnodup := hsched.nodup
  rw [hdue] at hnodup
  obtain ⟨hnot, -⟩ := List.nodup_cons.1 hnodup
  obtain ⟨req, (hreq : s.reqs[idx]? = some req), hactive⟩ :=
    CbState.isActive_iff.1 (hsched.active (idx, token) (hdue ▸ List.mem_cons_self))
  have hidx := (List.getElem?_eq_some_iff.1 hreq).1
  have htoken : token = ctx.nextToken req := h.due (idx, token) (hdue ▸ List.mem_cons_self) req hreq
  have hgrown := h.grown hfresh hreq
  obtain ⟨req₀, k, hreq₀, halone⟩ := h.text hclean idx req hreq hactive
  have hnext := alone_advance halone hactive
  rw [← htoken] at hnext
  have hturn := @turn_of_some H R ctx s idx token due req hreq
  generalize hnew : ctx.advance s.strBuffer req token = new at hnext hturn
  have hget : ∀ i req', (ctx.turn s idx token due).reqs[i]? = some req' →
      (i = idx ∧ req' = new.1) ∨ (i ≠ idx ∧ s.reqs[i]? = some req') :=
    fun i req' hreq' => hnew ▸ turn_cases hreq hreq'
  refine ⟨?_, ?_, ?_, ?_, ?_⟩
  · rw [hturn, List.length_set]
    exact h.length
  · intro i req' hreq'
    rcases hget i req' hreq' with ⟨rfl, rfl⟩ | ⟨-, hold⟩
    · exact ⟨req₀, k + 1, hreq₀, congrArg Prod.fst hnext⟩
    · exact h.solo i req' hold
  · intro hclean' i req' hreq' hactive'
    rcases hget i req' hreq' with ⟨rfl, rfl⟩ | ⟨hi, hold⟩
    · refine ⟨req₀, k + 1, hreq₀, ?_⟩
      have hunfinished := CbRequestState.not_finished hactive'
      rw [hnext, hturn, if_neg (by rw [hunfinished]; exact Bool.false_ne_true)]
    · -- somebody else is unfinished, so the decoder was empty before the turn
      have hempty : s.strBuffer = [] := by
        by_contra hbytes
        exact hi (hclean.eq_of_isActive hbytes ((CbState.isActive_of_some hold).trans hactive')
          ((CbState.isActive_of_some hreq).trans hactive))
      obtain ⟨req₁, k₁, hreq₁, halone₁⟩ := h.text hclean i req' hold hactive'
      refine ⟨req₁, k₁, hreq₁, ?_⟩
      have hempty' : (ctx.turn s idx token due).strBuffer = [] := by
        by_contra hbytes
        cases hend : new.1.finished with
        | true =>
            rw [hturn, if_pos hend] at hbytes
            exact hbytes rfl
        | false =>
            have hnewActive : new.1.active = true := by
              rw [← hnew] at hend ⊢
              rw [active_advance, hend]
              rfl
            have hself : (ctx.turn s idx token due).reqs[idx]? = some new.1 := by
              rw [hturn]
              exact List.getElem?_set_self hidx
            exact hi (hclean'.eq_of_isActive hbytes
              ((CbState.isActive_of_some hreq').trans hactive')
              ((CbState.isActive_of_some hself).trans hnewActive))
      rw [halone₁, hempty, hempty']
  · intro i req' hreq' hactive'
    have hkv : (ctx.turn s idx token due).kv = s.kv := by rw [hturn]
    have hdue' : (ctx.turn s idx token due).due = due := by rw [hturn]
    rw [hkv, hdue']
    rcases hget i req' hreq' with ⟨rfl, rfl⟩ | ⟨hi, hold⟩
    · have hholds := h.rows i req hreq hactive
      rw [hdue, List.map_cons, if_pos List.mem_cons_self] at hholds
      rw [if_neg hnot, Nat.add_zero, ← hnew]
      exact hholds.congr fun q hq => (own_advance hgrown (Nat.le_of_lt_succ hq)).symm
    · have hholds := h.rows i req' hold hactive'
      have hiff : i ∈ s.due.map Prod.fst ↔ i ∈ due.map Prod.fst := by
        rw [hdue, List.map_cons, List.mem_cons, or_iff_right hi]
      simpa only [hiff] using hholds
  · intro d hd req' hreq'
    have hdue' : (ctx.turn s idx token due).due = due := by rw [hturn]
    rw [hdue'] at hd
    rcases hget d.1 req' hreq' with ⟨heq, -⟩ | ⟨-, hold⟩
    · have hmem := List.mem_map_of_mem (f := Prod.fst) hd
      rw [heq] at hmem
      exact absurd hmem hnot
    · exact h.due d (hdue ▸ List.mem_cons_of_mem _ hd) req' hold

theorem separate_step (hmode : ctx.decodeLogitsMode = 0) (hfresh : ∀ req ∈ reqs, req.Fresh)
    (hstep : ctx.step maxActive s = some s') (hsched : s.Scheduled) (h : Separate ctx reqs s)
    (hundisturbed : s.Undisturbed maxActive) : Separate ctx reqs s' := by
  rcases step_cases hstep with ⟨hdue, -, rfl⟩ | ⟨idx, token, due, hdue, rfl⟩
  · exact separate_forwardRound hmode hfresh hdue h (hundisturbed.1 hdue)
  · have hsome : s.due ≠ [] := by simp [hdue]
    exact separate_turn hfresh hdue hsched h (hundisturbed.2 hsome)

/-! ### The run -/

section Runs

variable (hmode : ctx.decodeLogitsMode = 0) (hbatches : 0 < ctx.a.args.nBatches)
  (hfresh : ∀ req ∈ reqs, req.Fresh) (hagree : PromptsAgree reqs)
  (hundisturbed : ∀ n, (ctx.after maxActive reqs n).Undisturbed maxActive)
include hmode hbatches hfresh hagree hundisturbed

theorem separate_after (n : Nat) : Separate ctx reqs (ctx.after maxActive reqs n) :=
  after_induction (separate_start hbatches hfresh hagree)
    (fun n _ h hstep => separate_step hmode hfresh hstep
      (scheduled_after (scheduled_start hbatches hfresh) n) h (hundisturbed n)) n

/-- The requests of an undisturbed run end as they do alone. -/
theorem batched_endsAs (hmax : 0 < maxActive) :
    List.Forall₂ ctx.EndsAs reqs (ctx.batched maxActive reqs) := by
  have hlength := (separate_after hmode hbatches hfresh hagree hundisturbed
    (size (ctx.start reqs))).length
  refine List.forall₂_iff_get.2 ⟨hlength.symm, fun i hi hi' => ?_⟩
  have hresult := List.getElem?_eq_getElem hi'
  obtain ⟨req₀, k, hreq₀, halone⟩ := (separate_after hmode hbatches hfresh hagree hundisturbed
    (size (ctx.start reqs))).solo i _ hresult
  rw [List.getElem?_eq_getElem hi] at hreq₀
  cases hreq₀
  refine ⟨k, halone.symm, ?_⟩
  rw [List.get_eq_getElem, halone]
  exact batched_inactive hmax (scheduled_start hbatches hfresh) (List.mem_of_getElem? hresult)

end Runs

/-! ### A run of one request -/

theorem length_after (hbatches : 0 < ctx.a.args.nBatches) (hfresh : ∀ req ∈ reqs, req.Fresh)
    (n : Nat) : (ctx.after maxActive reqs n).reqs.length = reqs.length := by
  refine @after_induction H R ctx maxActive reqs (fun s => s.reqs.length = reqs.length) ?_ ?_ n
  · rw [start_eq hbatches hfresh, List.length_map]
  · intro n s' h hstep
    rcases step_cases hstep with ⟨-, -, rfl⟩ | ⟨idx, token, due, -, rfl⟩
    · exact h
    · cases hreq : (ctx.after maxActive reqs n).reqs[idx]? with
      | none => simpa only [turn, hreq] using h
      | some req => rw [turn_of_some hreq, List.length_set, h]

theorem undisturbed_of_length_one (h : s.reqs.length = 1) : s.Undisturbed maxActive := by
  have hzero : ∀ i, s.isActive i = true → i = 0 := by
    intro i hi
    have hlt := CbState.lt_of_isActive hi
    omega
  refine ⟨?_, ?_⟩
  · intro _ i hi j _ hj _ q _
    rw [hzero i (CbState.isActive_of_mem_pick hi), hzero j hj]
  · intro _
    exact .inr fun i _ j _ hi hj => (hzero i hi).trans (hzero j hj).symm

theorem batched_single (hmode : ctx.decodeLogitsMode = 0) (hbatches : 0 < ctx.a.args.nBatches)
    (hmax : 0 < maxActive) {req : CbRequestState} (hfresh : req.Fresh) :
    List.Forall₂ ctx.EndsAs [req] (ctx.batched maxActive [req]) := by
  have hall : ∀ req' ∈ [req], req'.Fresh := fun req' h => List.mem_singleton.1 h ▸ hfresh
  exact batched_endsAs hmode hbatches hall (List.pairwise_singleton _ req)
    (fun n => undisturbed_of_length_one (length_after hbatches hall n)) hmax

/-! ### One request after the other -/

theorem decodeLoop_alone {req₀ : CbRequestState} (hfresh : req₀.Fresh) {fuel : Nat} {kv : Kv R}
    {strBuffer : List Cell} {req : CbRequestState} {k : Nat}
    (halone : ctx.alone req₀ k = (req, strBuffer)) (hholds : ctx.m.Holds kv req.own req.pos)
    (hfuel : req.left ≤ fuel) :
    ctx.EndsAs req₀ (ctx.decodeLoop fuel kv strBuffer req).2 := by
  induction fuel generalizing kv strBuffer req k with
  | zero =>
      refine ⟨k, ?_, ?_⟩
      · rw [halone]
        rfl
      · by_contra hactive
        rw [halone] at hactive
        have hleft := @CbRequestState.left_pos req (by simpa using hactive)
        omega
  | succ fuel ih =>
      rw [decodeLoop]
      split_ifs with hactive
      · have hgrown : req.Grown := by
          have h := @grown_alone H R ctx req₀ hfresh k
          rwa [halone] at h
        have hforward := ctx.m.forward_chunk_eq hholds 1
        have hchunk := ctx.m.forward_chunk hholds 1
        simp only [List.range'_one, List.map_cons, List.map_nil, ← hgrown.token]
          at hforward hchunk
        have hnext : (ctx.forwardSample kv [(req.pos, req.token)]).2.getD 0 0
            = ctx.nextToken req := by
          rw [forwardSample, hforward]
          rfl
        have hleft := @left_advance H R ctx req strBuffer (ctx.nextToken req) hactive
        simp only [hnext]
        refine ih (alone_advance halone hactive) ?_ (by omega)
        exact hchunk.congr fun q hq => (own_advance hgrown (Nat.le_of_lt_succ hq)).symm
      · refine ⟨k, ?_, ?_⟩
        · rw [halone]
        · rw [halone]
          simpa using hactive

theorem oneByOne_endsAs (hbatches : 0 < ctx.a.args.nBatches) (hfresh : ∀ req ∈ reqs, req.Fresh)
    (kv : Kv R) : List.Forall₂ ctx.EndsAs reqs (ctx.oneByOne kv reqs) := by
  induction reqs generalizing kv with
  | nil => exact .nil
  | cons req reqs ih =>
      rw [oneByOne]
      have hown := hfresh req List.mem_cons_self
      have hholds : ctx.m.Holds (ctx.prefill kv req).1 req.prefilled.own req.prefilled.pos := by
        rw [prefill_eq hbatches hown]
        intro l hl p hp
        have hp' : p + 1 < req.tokens.length := by
          simp only [CbRequestState.prefilled] at hp
          omega
        simp only [hl, hp', and_self, if_true]
      have hprefilled : (ctx.prefill kv req).2 = req.prefilled := by
        rw [prefill_eq hbatches hown]
      have hleft : req.prefilled.left ≤ req.prefilled.maxPos := by
        rw [CbRequestState.left]
        split_ifs <;> omega
      have hdecode := @decodeLoop_alone H R ctx req hown _ _ [] _ 0 rfl hholds hleft
      simp only [hprefilled]
      exact .cons hdecode (ih (fun req' h => hfresh req' (List.mem_cons_of_mem req h)) _)

/-! ### The results -/

theorem newRequests_fresh {prompts : List (List Nat)}
    (hreqs : prompts.mapM ctx.a.newRequest = .ok reqs) : ∀ req ∈ reqs, req.Fresh := by
  intro req hreq
  obtain ⟨i, hi⟩ := List.mem_iff_getElem?.1 hreq
  have hlt := (List.getElem?_eq_some_iff.1 hi).1
  rw [length_of_mapM_ok hreqs] at hlt
  obtain ⟨req', hreq', hnew⟩ := getElem?_of_mapM_ok hreqs i (List.getElem?_eq_getElem hlt)
  rw [hi] at hreq'
  cases hreq'
  exact (CbArgs.newRequest_fresh hnew).1

theorem inference_eq {prompts : List (List Nat)} (hmax : ctx.a.maxActive = .ok maxActive)
    (hreqs : prompts.mapM ctx.a.newRequest = .ok reqs) :
    ctx.inferenceContinuousBatching prompts
      = .ok (if maxActive = 1 then ctx.oneByOne ctx.kv reqs else ctx.batched maxActive reqs) := by
  rw [inferenceContinuousBatching, hmax, hreqs]
  rfl

/-- In full-logits mode, where no row is written over and the decoder is free at each turn, a
request has in every state of the run a part of what it writes alone, and all of it at the end. -/
theorem isolated_of_undisturbed (ctx : CbContext H R) {prompts : List (List Nat)} {maxActive : Nat}
    {reqs : List CbRequestState} (hmode : ctx.decodeLogitsMode = 0)
    (hmax : ctx.a.maxActive = .ok maxActive) (htwo : 2 ≤ maxActive)
    (hreqs : prompts.mapM ctx.a.newRequest = .ok reqs) (hagree : PromptsAgree reqs)
    (hundisturbed : ∀ n, (ctx.after maxActive reqs n).Undisturbed maxActive) :
    ∃ results, ctx.inferenceContinuousBatching prompts = .ok results ∧
      CbContext.inferenceContinuousBatching { ctx with a := { ctx.a with decodeCbMaxActive := 1 } }
        prompts = .ok results ∧
      ∀ (i : Nat) prompt, prompts[i]? = some prompt → ∃ result, results[i]? = some result ∧
        ctx.inferenceContinuousBatching [prompt] = .ok [result] ∧
        ∀ n req, (ctx.after maxActive reqs n).reqs[i]? = some req →
          req.generated <+: result.generated ∧ req.generatedText <+: result.generatedText := by
  obtain ⟨hpos, hbatches⟩ := CbArgs.maxActive_pos hmax
  have hone : ¬maxActive = 1 := by omega
  have hfresh := newRequests_fresh hreqs
  have hends := batched_endsAs hmode hbatches hfresh hagree hundisturbed hpos
  refine ⟨ctx.batched maxActive reqs, ?_, ?_, ?_⟩
  · rw [inference_eq hmax hreqs, if_neg hone]
  · have hmaxOne : CbArgs.maxActive { ctx.a with decodeCbMaxActive := 1 } = .ok 1 := by
      have hmin : min 1 ctx.a.args.nBatches = 1 := Nat.min_eq_left hbatches
      simp only [CbArgs.maxActive, Nat.one_pos, if_true, hmin]
      rfl
    refine (@inference_eq H R { ctx with a := { ctx.a with decodeCbMaxActive := 1 } } _ _ _
      hmaxOne hreqs).trans ?_
    rw [if_pos rfl]
    have hends' := @oneByOne_endsAs H R { ctx with a := { ctx.a with decodeCbMaxActive := 1 } } reqs
      hbatches hfresh ctx.kv
    rw [List.right_unique_forall₂' endsAs_rightUnique hends hends']
  · intro i prompt hprompt
    obtain ⟨req, hreq, hnew⟩ := getElem?_of_mapM_ok hreqs i hprompt
    obtain ⟨hi, rfl⟩ := List.getElem?_eq_some_iff.1 hreq
    have hi' : i < (ctx.batched maxActive reqs).length := hends.length_eq ▸ hi
    have hown := (List.forall₂_iff_get.1 hends).2 i hi hi'
    refine ⟨(ctx.batched maxActive reqs)[i], List.getElem?_eq_getElem hi', ?_, ?_⟩
    · have hsingle : [prompt].mapM ctx.a.newRequest = .ok [reqs[i]] := by
        rw [List.mapM_cons, hnew]
        rfl
      have halone := batched_single hmode hbatches hpos (hfresh _ (List.getElem_mem hi))
      rw [inference_eq hmax hsingle, if_neg hone,
        List.right_unique_forall₂' endsAs_rightUnique halone (.cons hown .nil)]
      rfl
    · intro n req hreqn
      obtain ⟨req₀, k, hreq₀, rfl⟩ :=
        (separate_after hmode hbatches hfresh hagree hundisturbed n).solo i req hreqn
      rw [hreq] at hreq₀
      cases hreq₀
      obtain ⟨k', hresult, hinactive⟩ := hown
      simp only [List.get_eq_getElem] at hresult hinactive
      rw [hresult]
      exact alone_prefix_final hinactive k

/-- Behind the end every state is as the last one. -/
theorem undisturbed_of_ended {n : Nat}
    (h : ∀ k ≤ n, (ctx.after maxActive reqs k).Undisturbed maxActive)
    (hend : ctx.step maxActive (ctx.after maxActive reqs n) = none) (k : Nat) :
    (ctx.after maxActive reqs k).Undisturbed maxActive := by
  rcases Nat.le_total k n with hle | hle
  · exact h k hle
  · obtain ⟨m, rfl⟩ := Nat.exists_eq_add_of_le hle
    have hstays : ctx.after maxActive reqs (n + m) = ctx.after maxActive reqs n := by
      rw [after, iterate_add]
      exact iterate_of_none hend m
    rw [hstays]
    exact h n (Nat.le_refl n)

/-- A model that adds up the tokens up to a position. -/
def sumContext (steps : Nat) : CbContext Nat Nat where
  m := ⟨1, id, fun _ _ h => h, fun _ _ _ rows => rows.sum⟩
  sample := id
  tokenizer := ⟨fun t => [UInt8.ofNat (65 + t)], none, []⟩
  a := ⟨⟨8, 1, 0, 0, false, 0⟩, 16, steps, 2, 0⟩
  kv := fun _ _ => 0
  decodeLogitsMode := 0
  logitsPipe := fun _ => 0

theorem isolated_of_undisturbed_shared_head :
    ∃ results, (sumContext 2).inferenceContinuousBatching [[5], [5, 7]] = .ok results ∧
      CbContext.inferenceContinuousBatching
        { sumContext 2 with a := { (sumContext 2).a with decodeCbMaxActive := 1 } }
        [[5], [5, 7]] = .ok results ∧
      ∀ (i : Nat) prompt, [[5], [5, 7]][i]? = some prompt → ∃ result, results[i]? = some result ∧
        (sumContext 2).inferenceContinuousBatching [prompt] = .ok [result] ∧
        ∀ n req, ((sumContext 2).after 2
            [⟨[5], 0, 2, 5, false, [], []⟩, ⟨[5, 7], 0, 2, 5, false, [], []⟩] n).reqs[i]?
              = some req →
          req.generated <+: result.generated ∧ req.generatedText <+: result.generatedText :=
  isolated_of_undisturbed (sumContext 2) rfl rfl (Nat.le_refl 2) rfl
    (by
      refine List.pairwise_pair.2 ?_
      intro _ q hq
      exact absurd (Nat.lt_of_succ_lt_succ hq) (Nat.not_lt_zero q))
    (undisturbed_of_ended (n := 5) (by decide +kernel) rfl)

/-- Two prompts of one token each write the same row: the first goes on with the second's. -/
theorem not_isolated_same_row :
    (sumContext 3).a.maxActive = .ok 2 ∧
      ((sumContext 3).inferenceContinuousBatching [[1], [2]]).map
        (fun results => results.map fun req => (req.generated, req.generatedText))
          = .ok [([2, 4, 8], [67, 69, 73]), ([2, 4, 8], [67, 69, 73])] ∧
      ((sumContext 3).inferenceContinuousBatching [[1]]).map
        (fun results => results.map fun req => (req.generated, req.generatedText))
          = .ok [([1, 2, 4], [66, 67, 69])] := by
  refine ⟨rfl, rfl, rfl⟩

end CbContext

end Inference
end PrefillOpt
