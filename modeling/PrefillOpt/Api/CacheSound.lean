import Mathlib.Data.List.GetD
import PrefillOpt.Api.ApiServer

/-!
# Api.CacheSound — when a hit of the prompt cache is right

A hit at `startPos` is right when the rows before `startPos` are those of the tokens that the cached
messages stand for.  The code lets go of this in several ways: the messages of a prompt are cached
before its rows are written, the last sampled token of an answer is never fed, and the token after
the prompt is read one place too far.
-/

namespace PrefillOpt
namespace Api

open Inference

variable {R H : Type} (api : ApiConfig) (m : Transformer Nat H R)

/-! ## The property -/

/-- A sequence of tokens by position. -/
def tokenAt (tokens : List Nat) (p : Nat) : Nat :=
  tokens.getD p 0

/-- On a hit the rows are those of the tokens that are due, one position for each. -/
def HitSound (s : ApiServer R) : Prop :=
  ∀ messages startPos rest,
    (resolveDeltaPrompt s.naiveCache messages).2 = some (startPos, rest) →
      startPos = s.due.length ∧ m.Holds s.kv (tokenAt s.due) startPos

def start (kv : Kv R) : ApiServer R :=
  ⟨kv, [], []⟩

/-! ## The condition -/

/-- No write fails before the answer is complete, which takes `steps` tokens. -/
def WritesPass (req : Request) (p : Prompt) (steps : Nat) : Prop :=
  req.stream = true → ∀ w, req.failWrite = some w →
    firstWrites req p.publicPrompt + (speech api p.publicPrompt req.sampled steps).deltas ≤ w

/-- The answer ends with the `k`-th sampled token: it is the first that ends an answer, there was
room for it, and it alone has no part in the text.  The prompt has at least two tokens, and behind
its last token the array has that token once more. -/
structure EndsWith (req : Request) (p : Prompt) (k : Nat) : Prop where
  room : p.startPos + p.nPromptTokens ≤ api.seqLen
  two : 2 ≤ p.nPromptTokens
  again : p.promptTokens p.nPromptTokens = p.promptTokens (p.nPromptTokens - 1)
  time : p.promptEndPos + k < p.maxPredPos
  ends : (speech api p.publicPrompt req.sampled (k + 1)).type = .eos
  first : ∀ j < k, (speech api p.publicPrompt req.sampled (j + 1)).type ≠ .eos
  parts : ∀ j ≤ k, (speech api p.publicPrompt req.sampled (k + 1)).Says j ↔ j < k
  passes : WritesPass api req p (k + 1)

/-- The answer goes on to the end of the context. -/
structure Fills (req : Request) (p : Prompt) : Prop where
  some_token : 1 ≤ p.nPromptTokens
  short : p.startPos + p.nPromptTokens < 2 ^ 32
  time : p.maxPredPos = api.seqLen
  first : ∀ j, p.promptEndPos + j + 1 < api.seqLen →
    (speech api p.publicPrompt req.sampled (j + 1)).type ≠ .eos
  passes : WritesPass api req p (api.seqLen - p.promptEndPos)

def Meets (s : ApiServer R) (req : Request) : Prop :=
  (∃ k, EndsWith api req (prompt api s.naiveCache req) k) ∨
    Fills api req (prompt api s.naiveCache req)

/-- The states of the runs whose requests all meet the condition. -/
inductive Served (kv : Kv R) : ApiServer R → Prop where
  | start : Served kv (start kv)
  | request {s : ApiServer R} {req : Request} :
      Served kv s → Meets api s req → Served kv (complete api m s req)

/-! ## The invariant -/

/-- The last cached message ends where the tokens end, and these have their rows. -/
structure Sound (s : ApiServer R) : Prop where
  context : s.due.length ≤ api.seqLen
  endPos : ∀ item, s.naiveCache.getLast? = some item → item.endPos = s.due.length
  rows : s.naiveCache ≠ [] → m.Holds s.kv (tokenAt s.due) s.due.length

variable {api m}

theorem resolveDeltaPrompt_some {cache : List NaiveCacheItem} {messages rest : List ChatMessage}
    {startPos : Nat} (h : (resolveDeltaPrompt cache messages).2 = some (startPos, rest)) :
    (resolveDeltaPrompt cache messages).1 = cache ∧ cache ≠ [] ∧
      ∃ item, cache.getLast? = some item ∧ item.endPos = startPos := by
  rw [resolveDeltaPrompt] at h ⊢
  cases hlast : cache.getLast? with
  | none =>
      rw [hlast] at h
      cases h
  | some item =>
      rw [hlast] at h
      simp only at h ⊢
      split_ifs at h ⊢
      cases h
      refine ⟨rfl, ?_, item, rfl, rfl⟩
      rintro rfl
      cases hlast

theorem resolveDeltaPrompt_none {cache : List NaiveCacheItem} {messages : List ChatMessage}
    (h : (resolveDeltaPrompt cache messages).2 = none) :
    (resolveDeltaPrompt cache messages).1 = [] := by
  rw [resolveDeltaPrompt] at h ⊢
  cases hlast : cache.getLast? with
  | none => exact List.getLast?_eq_none_iff.1 hlast
  | some item =>
      rw [hlast] at h
      simp only at h ⊢
      split_ifs at h ⊢
      rfl

theorem Sound.hitSound {s : ApiServer R} (h : Sound api m s) : HitSound m s := by
  intro messages startPos rest hhit
  rcases resolveDeltaPrompt_some hhit with ⟨-, hne, item, hlast, hend⟩
  have hlen : startPos = s.due.length := by
    rw [← hend]
    exact h.endPos item hlast
  exact ⟨hlen, hlen ▸ h.rows hne⟩

theorem start_sound (kv : Kv R) : Sound api m (start kv) where
  context := Nat.zero_le _
  endPos _ h := by cases h
  rows h := absurd rfl h

/-- What the request begins with: the tokens that are due after the cache was looked up, and their
rows. -/
theorem Sound.prompt {s : ApiServer R} (h : Sound api m s) (req : Request) :
    (prompt api s.naiveCache req).startPos
        = (if (resolveDeltaPrompt s.naiveCache req.messages).1 = [] then [] else s.due).length ∧
      m.Holds s.kv
        (tokenAt (if (resolveDeltaPrompt s.naiveCache req.messages).1 = [] then [] else s.due))
        (prompt api s.naiveCache req).startPos := by
  cases hhit : (resolveDeltaPrompt s.naiveCache req.messages).2 with
  | none =>
      have hzero : (Api.prompt api s.naiveCache req).startPos = 0 := by
        simp only [Api.prompt, hhit, Option.getD_none]
      rw [hzero, if_pos (resolveDeltaPrompt_none hhit)]
      exact ⟨rfl, fun _ _ p hp => absurd hp (Nat.not_lt_zero p)⟩
  | some hit =>
      rcases hit with ⟨startPos, rest⟩
      have hpos : (Api.prompt api s.naiveCache req).startPos = startPos := by
        simp only [Api.prompt, hhit, Option.getD_some]
      rcases h.hitSound req.messages startPos rest hhit with ⟨hlen, hrows⟩
      rcases resolveDeltaPrompt_some hhit with ⟨hcache, hne, -⟩
      rw [hpos, hcache, if_neg hne]
      exact ⟨hlen, hrows⟩

/-! ## The prompt -/

/-- The chunks of the prompt feed the tokens up to its end, and hand over the token that the array
has one place behind it. -/
theorem prefill_eq {toks promptTokens : Nat → Nat} {startPos endPos cap : Nat} (hcap : 0 < cap)
    (hend : endPos < 2 ^ 32)
    (htoks : ∀ i, startPos + i < endPos → promptTokens i = toks (startPos + i)) {fuel i : Nat}
    {kv : Kv R} {token : Nat} (hi : startPos + i ≤ endPos) (hfuel : endPos - (startPos + i) ≤ fuel)
    (hkv : m.Holds kv toks (startPos + i)) :
    ∃ kv', m.Holds kv' toks endPos ∧
      prefill m promptTokens endPos cap fuel kv i (startPos + i) token
        = (kv', endPos,
            if startPos + i < endPos then promptTokens (endPos - startPos + 1) else token) := by
  induction fuel generalizing i kv token with
  | zero =>
      have heq : startPos + i = endPos := by omega
      rw [prefill, heq, if_neg (Nat.lt_irrefl endPos)]
      exact ⟨kv, heq ▸ hkv, rfl⟩
  | succ fuel ih =>
      rw [prefill, u32_sub hi hend]
      by_cases hdone : startPos + i = endPos
      · have hzero : endPos - (startPos + i) = 0 := by omega
        rw [if_pos hzero, hdone, if_neg (Nat.lt_irrefl endPos)]
        exact ⟨kv, hdone ▸ hkv, rfl⟩
      · have hrest : ¬endPos - (startPos + i) = 0 := by omega
        have hlt : startPos + i < endPos := by omega
        rw [if_neg hrest, if_pos hlt]
        simp only
        generalize hb : (if endPos - (startPos + i) < cap then endPos - (startPos + i) else cap) = b
        have hbpos : 0 < b := by
          rw [← hb]
          split_ifs <;> omega
        have hble : startPos + i + b ≤ endPos := by
          rw [← hb]
          split_ifs <;> omega
        have hbatch : (List.range b).map (fun j => (startPos + i + j, promptTokens (i + j)))
            = (List.range' (startPos + i) b).map fun p => (p, toks p) := by
          rw [List.range'_eq_map_range, List.map_map]
          apply List.map_congr_left
          intro j hj
          have hjb := List.mem_range.1 hj
          have htok := htoks (i + j) (by omega)
          simp only [Function.comp_apply, Nat.add_assoc, htok]
        have hnext := m.forward_chunk hkv b
        rw [Nat.add_assoc] at hnext
        have hpos : u32 (startPos + i + b) = startPos + (i + b) := by
          rw [u32_of_lt (by omega), Nat.add_assoc]
        rw [hbatch, hpos]
        have hfuel' : endPos - (startPos + (i + b)) ≤ fuel := by omega
        rcases @ih (i + b) _ (promptTokens (i + b + 1)) (by omega) hfuel' hnext
          with ⟨kv', hkv', heq⟩
        refine ⟨kv', hkv', ?_⟩
        rw [heq]
        by_cases hmore : startPos + (i + b) < endPos
        · rw [if_pos hmore]
        · have hlast : i + b + 1 = endPos - startPos + 1 := by omega
          rw [if_neg hmore, hlast]

/-! ## The answer -/

theorem speech_deltas_le {api : ApiConfig} {publicPrompt : Option (List UInt8)}
    {sampled : Nat → Nat} {j k : Nat} (h : j ≤ k) :
    (speech api publicPrompt sampled j).deltas ≤ (speech api publicPrompt sampled k).deltas := by
  induction k with
  | zero => rw [Nat.le_zero.1 h]
  | succ k ih =>
      rcases Nat.le_succ_iff.1 h with h | rfl
      · apply Nat.le_trans (ih h)
        rw [speech, Speech.step]
        simp only
        split_ifs
        · split
          · exact Nat.le_succ _
          · exact Nat.le_refl _
        · exact Nat.le_refl _
      · exact Nat.le_refl _

/-- The loop takes `steps` tokens when no earlier one ends the answer and no write fails. -/
theorem generate_eq {req : Request} {p : Prompt} {pos steps fuel k : Nat} {kv : Kv R} {token : Nat}
    (hk : k ≤ steps) (hsteps : steps ≤ k + fuel)
    (hfirst : ∀ j, j + 1 < steps →
      (speech api p.publicPrompt req.sampled (j + 1)).type ≠ .eos)
    (hend : (k < steps ∧ (speech api p.publicPrompt req.sampled steps).type = .eos) ∨
      steps = k + fuel)
    (hpass : WritesPass api req p steps) :
    ∃ kv', generate api m req (firstWrites req p.publicPrompt) pos fuel k kv token
        (speech api p.publicPrompt req.sampled k)
          = .ended kv' steps (speech api p.publicPrompt req.sampled steps) ∧
      ∀ toks : Nat → Nat, m.Holds kv toks (pos + k) → token = toks (pos + k) →
        (∀ j, j + 1 < steps → req.sampled j = toks (pos + j + 1)) →
          m.Holds kv' toks (pos + steps) := by
  induction fuel generalizing k kv token with
  | zero =>
      have heq : k = steps := by omega
      subst heq
      exact ⟨kv, rfl, fun _ h _ _ => h⟩
  | succ fuel ih =>
      have hlt : k < steps := by omega
      have hstep : (speech api p.publicPrompt req.sampled k).step api k (req.sampled k)
          = speech api p.publicPrompt req.sampled (k + 1) := rfl
      rw [generate, hstep]
      -- a delta of this token is one of those that pass
      have hwrite : ¬(req.stream ∧ (speech api p.publicPrompt req.sampled k).deltas
          < (speech api p.publicPrompt req.sampled (k + 1)).deltas ∧
          req.failWrite = some (firstWrites req p.publicPrompt
            + (speech api p.publicPrompt req.sampled k).deltas)) := by
        rintro ⟨hstream, hdelta, hfail⟩
        have hle := hpass hstream _ hfail
        have hmono := @speech_deltas_le api p.publicPrompt req.sampled (k + 1) steps hlt
        omega
      rw [if_neg hwrite]
      by_cases htype : (speech api p.publicPrompt req.sampled (k + 1)).type = .eos
      · have hlast : k + 1 = steps := by
          by_contra hne
          exact hfirst k (by omega) htype
        rw [if_pos htype, hlast]
        refine ⟨_, rfl, ?_⟩
        intro toks hkv htoken _
        have hnext := m.forward_chunk hkv 1
        rw [htoken, ← hlast, ← Nat.add_assoc]
        exact hnext
      · rw [if_neg htype]
        have hend' : (k + 1 < steps ∧ (speech api p.publicPrompt req.sampled steps).type = .eos) ∨
            steps = k + 1 + fuel := by
          rcases hend with ⟨-, heos⟩ | hfuel
          · have hne : k + 1 ≠ steps := fun h => htype (h ▸ heos)
            exact .inl ⟨by omega, heos⟩
          · exact .inr (by omega)
        have hsteps' : steps ≤ k + 1 + fuel := by omega
        rcases @ih (k + 1) (m.forward kv [(pos + k, token)]).1 (req.sampled k) hlt hsteps' hend'
          with ⟨kv', heq, hrows⟩
        refine ⟨kv', heq, ?_⟩
        intro toks hkv htoken hsampled
        by_cases hmore : k + 1 < steps
        · apply hrows toks _ (hsampled k hmore) hsampled
          have hnext := m.forward_chunk hkv 1
          rw [htoken]
          exact hnext
        · have hlast : k + 1 = steps := by omega
          have hfuel : fuel = 0 := by omega
          subst hfuel
          rw [generate] at heq
          have hkv' := (Generated.ended.inj heq).1
          have hnext := m.forward_chunk hkv 1
          rw [← hkv', htoken, ← hlast, ← Nat.add_assoc]
          exact hnext

/-! ## A request -/

theorem WritesPass.first {req : Request} {p : Prompt} {steps : Nat}
    (h : WritesPass api req p steps) :
    ¬∃ w < firstWrites req p.publicPrompt, req.failWrite = some w := by
  rintro ⟨w, hw, hfail⟩
  by_cases hstream : req.stream = true
  · have hle := h hstream w hfail
    omega
  · rw [firstWrites, if_neg hstream] at hw
    exact Nat.not_lt_zero w hw

theorem prompt_promptEndPos {cache : List NaiveCacheItem} {req : Request}
    (hsome : 1 ≤ (prompt api cache req).nPromptTokens)
    (hshort : (prompt api cache req).startPos + (prompt api cache req).nPromptTokens < 2 ^ 32) :
    (prompt api cache req).promptEndPos
      = min ((prompt api cache req).startPos + (prompt api cache req).nPromptTokens - 1)
          api.seqLen := by
  have hdef : (prompt api cache req).promptEndPos
      = min (u32 ((prompt api cache req).startPos + (prompt api cache req).nPromptTokens
          + (2 ^ 32 - 1))) api.seqLen := rfl
  have hpos : 1 ≤ (prompt api cache req).startPos + (prompt api cache req).nPromptTokens :=
    Nat.le_add_left_of_le hsome
  generalize (prompt api cache req).startPos + (prompt api cache req).nPromptTokens = n at *
  rw [hdef, u32_sub hpos hshort]

/-- A request that gets through: the prompt is read up to its end and the answer takes `steps`
tokens. -/
theorem answer_eq {req : Request} {p : Prompt} {kv : Kv R} (cache : List NaiveCacheItem)
    (due : List Nat) {steps : Nat} {toks : Nat → Nat} (hend : p.promptEndPos < 2 ^ 32)
    (hle : p.startPos ≤ p.promptEndPos)
    (htoks : ∀ i, p.startPos + i < p.promptEndPos → p.promptTokens i = toks (p.startPos + i))
    (hkv : m.Holds kv toks p.startPos) (hsteps : steps ≤ p.maxPredPos - p.promptEndPos)
    (hfirst : ∀ j, j + 1 < steps → (speech api p.publicPrompt req.sampled (j + 1)).type ≠ .eos)
    (hstop : (0 < steps ∧ (speech api p.publicPrompt req.sampled steps).type = .eos) ∨
      steps = p.maxPredPos - p.promptEndPos)
    (hpass : WritesPass api req p steps) :
    ∃ kv', answer api m req p kv cache due
        = (if p.promptEndPos + steps = api.seqLen then ⟨kv', [], []⟩
          else
            ⟨kv', cache ++ p.deltaPrompt.map (fun message => ⟨p.promptEndPos, message⟩)
                ++ [⟨p.promptEndPos + steps, assistant,
                  (speech api p.publicPrompt req.sampled steps).buffer.map Cell.byte⟩],
              due ++ (List.range p.nPromptTokens).map p.promptTokens
                ++ spoken req steps (speech api p.publicPrompt req.sampled steps)⟩) ∧
      (p.startPos < p.promptEndPos →
        p.promptTokens (p.promptEndPos - p.startPos + 1) = toks p.promptEndPos →
        (∀ j, j + 1 < steps → req.sampled j = toks (p.promptEndPos + j + 1)) →
          m.Holds kv' toks (p.promptEndPos + steps)) := by
  have hfuel : p.promptEndPos - p.startPos ≤ u32 (p.promptEndPos + (2 ^ 32 - p.startPos)) :=
    (u32_sub hle hend).ge
  have hcap := api.prefillBatchCap_pos
    (if p.startPos < p.promptEndPos then p.promptEndPos - p.startPos else 0)
  rcases @prefill_eq R H m toks p.promptTokens p.startPos p.promptEndPos _ hcap hend htoks _ 0 kv
    req.unset hle hfuel hkv with ⟨kv₁, hkv₁, hprefill⟩
  have hzero : steps ≤ 0 + (p.maxPredPos - p.promptEndPos) := by omega
  have hstop' : (0 < steps ∧ (speech api p.publicPrompt req.sampled steps).type = .eos) ∨
      steps = 0 + (p.maxPredPos - p.promptEndPos) := by
    rw [Nat.zero_add]
    exact hstop
  rcases @generate_eq R H api m req p p.promptEndPos steps _ 0 kv₁
    (if p.startPos + 0 < p.promptEndPos then p.promptTokens (p.promptEndPos - p.startPos + 1)
      else req.unset) (Nat.zero_le steps) hzero hfirst hstop' hpass with ⟨kv₂, hgenerate, hkv₂⟩
  refine ⟨kv₂, ?_, ?_⟩
  · rw [speech] at hgenerate
    rw [Nat.add_zero] at hprefill hgenerate
    simp only [answer, if_neg hpass.first, hprefill, hgenerate]
  · intro hlt hagain hsampled
    apply hkv₂ toks hkv₁ _ hsampled
    rw [Nat.add_zero, Nat.add_zero, if_pos hlt]
    exact hagain

/-- What is due at the end of a request, position by position. -/
theorem tokenAt_due {due : List Nat} {f g : Nat → Nat} {n k : Nat} :
    (∀ q < due.length,
      tokenAt (due ++ (List.range n).map f ++ (List.range k).map g) q = tokenAt due q) ∧
    (∀ i < n,
      tokenAt (due ++ (List.range n).map f ++ (List.range k).map g) (due.length + i) = f i) ∧
    (∀ j < k,
      tokenAt (due ++ (List.range n).map f ++ (List.range k).map g) (due.length + n + j) = g j) := by
  have hrange : ∀ (f : Nat → Nat) (n i : Nat), i < n → ((List.range n).map f).getD i 0 = f i := by
    intro f n i hi
    rw [List.getD_eq_getElem?_getD, List.getElem?_map, List.getElem?_range hi]
    rfl
  refine ⟨?_, ?_, ?_⟩
  · intro q hq
    have hlen : q < (due ++ (List.range n).map f).length := by
      rw [List.length_append]
      exact Nat.lt_add_right _ hq
    rw [tokenAt, List.getD_append _ _ _ _ hlen, List.getD_append _ _ _ _ hq]
    rfl
  · intro i hi
    have hlen : due.length + i < (due ++ (List.range n).map f).length := by
      rw [List.length_append, List.length_map, List.length_range]
      exact Nat.add_lt_add_left hi _
    rw [tokenAt, List.getD_append _ _ _ _ hlen,
      List.getD_append_right _ _ _ _ (Nat.le_add_right _ _), Nat.add_sub_cancel_left]
    exact hrange f n i hi
  · intro j hj
    have hlen : (due ++ (List.range n).map f).length = due.length + n := by
      rw [List.length_append, List.length_map, List.length_range]
    rw [tokenAt, List.getD_append_right _ _ _ _ (hlen ▸ Nat.le_add_right _ _), hlen,
      Nat.add_sub_cancel_left]
    exact hrange g k j hj

variable {s : ApiServer R} {req : Request}

/-- The tokens that are due after the cache was looked up. -/
def dueBefore (s : ApiServer R) (req : Request) : List Nat :=
  if (resolveDeltaPrompt s.naiveCache req.messages).1 = [] then [] else s.due

theorem Sound.context_before (h : Sound api m s) (req : Request) :
    (dueBefore s req).length ≤ api.seqLen := by
  rw [dueBefore]
  split_ifs
  · exact Nat.zero_le _
  · exact h.context

/-- An answer that fills the context leaves nothing behind. -/
theorem Sound.complete_fills (h : Sound api m s)
    (hfills : Fills api req (Api.prompt api s.naiveCache req)) :
    ∃ kv, complete api m s req = ⟨kv, [], []⟩ := by
  rcases h.prompt req with ⟨hstart, hrows⟩
  have hcontext := h.context_before req
  have hend := prompt_promptEndPos hfills.some_token hfills.short
  change (Api.prompt api s.naiveCache req).startPos = (dueBefore s req).length at hstart
  rw [complete]
  generalize Api.prompt api s.naiveCache req = p at *
  have hle : p.promptEndPos ≤ api.seqLen := by
    rw [hend]
    exact Nat.min_le_right _ _
  have hlt : p.promptEndPos < 2 ^ 32 := Nat.lt_of_le_of_lt hle api.seqLen_lt
  have hstartle : p.startPos ≤ p.promptEndPos := by
    have hsome := hfills.some_token
    rw [hend, hstart]
    exact Nat.le_min.2 ⟨by omega, hcontext⟩
  have htime : api.seqLen - p.promptEndPos = p.maxPredPos - p.promptEndPos := by
    rw [hfills.time]
  let toks : Nat → Nat := fun q =>
    if q < p.startPos then tokenAt (dueBefore s req) q else p.promptTokens (q - p.startPos)
  have htoks : ∀ i, p.startPos + i < p.promptEndPos →
      p.promptTokens i = toks (p.startPos + i) := by
    intro i _
    simp only [toks, if_neg (Nat.not_lt.2 (Nat.le_add_right p.startPos i)),
      Nat.add_sub_cancel_left]
  have hkv : m.Holds s.kv toks p.startPos := by
    apply hrows.congr
    intro q hq
    simp only [toks, if_pos hq]
    rfl
  have hfirst : ∀ j, j + 1 < api.seqLen - p.promptEndPos →
      (speech api p.publicPrompt req.sampled (j + 1)).type ≠ .eos := by
    intro j hj
    apply hfills.first j
    omega
  rcases answer_eq (resolveDeltaPrompt s.naiveCache req.messages).1 (dueBefore s req) hlt hstartle
    htoks hkv htime.le hfirst (.inr htime) hfills.passes with ⟨kv, heq, -⟩
  refine ⟨kv, ?_⟩
  have hfull : p.promptEndPos + (api.seqLen - p.promptEndPos) = api.seqLen :=
    Nat.add_sub_cancel' hle
  rw [if_pos hfull] at heq
  exact heq

/-- The text of an answer that ends with its `k`-th token. -/
theorem EndsWith.spoken {p : Prompt} {k : Nat} (h : EndsWith api req p k) :
    Api.spoken req (k + 1) (speech api p.publicPrompt req.sampled (k + 1))
      = (List.range k).map req.sampled := by
  have hfilter : (List.range (k + 1)).filter
      (fun j => (speech api p.publicPrompt req.sampled (k + 1)).Says j) = List.range k := by
    have hk : ¬(speech api p.publicPrompt req.sampled (k + 1)).Says k :=
      fun hpart => Nat.lt_irrefl k ((h.parts k (Nat.le_refl k)).1 hpart)
    rw [List.range_succ, List.filter_append, List.filter_eq_self.2]
    · simp only [List.filter_cons, hk, decide_false, Bool.false_eq_true, if_false,
        List.filter_nil, List.append_nil]
    · intro j hj
      have hjk := List.mem_range.1 hj
      exact decide_eq_true ((h.parts j hjk.le).2 hjk)
  rw [Api.spoken, hfilter]

/-- An answer that ends by itself leaves the tokens of the prompt and its own, all but the last. -/
theorem Sound.complete_endsWith (h : Sound api m s) {k : Nat}
    (hends : EndsWith api req (Api.prompt api s.naiveCache req) k) :
    Sound api m (complete api m s req) := by
  rcases h.prompt req with ⟨hstart, hrows⟩
  have hshort : (Api.prompt api s.naiveCache req).startPos
      + (Api.prompt api s.naiveCache req).nPromptTokens < 2 ^ 32 :=
    Nat.lt_of_le_of_lt hends.room api.seqLen_lt
  have hend := prompt_promptEndPos (Nat.le_of_succ_le hends.two) hshort
  have hmax : (Api.prompt api s.naiveCache req).maxPredPos ≤ api.seqLen := Nat.min_le_right _ _
  change (Api.prompt api s.naiveCache req).startPos = (dueBefore s req).length at hstart
  rw [complete]
  generalize Api.prompt api s.naiveCache req = p at *
  have htwo := hends.two
  have hroom := hends.room
  have htime := hends.time
  have hend' : p.promptEndPos = p.startPos + p.nPromptTokens - 1 := by
    rw [hend]
    exact Nat.min_eq_left (by omega)
  rcases @tokenAt_due (dueBefore s req) p.promptTokens req.sampled p.nPromptTokens k
    with ⟨hold, hprompt, hsampled⟩
  rw [← hstart] at hold hprompt hsampled
  generalize hall : dueBefore s req ++ (List.range p.nPromptTokens).map p.promptTokens
    ++ (List.range k).map req.sampled = all at *
  have hlen : p.startPos + p.nPromptTokens + k = all.length := by
    rw [← hall, List.length_append, List.length_append, List.length_map, List.length_map,
      List.length_range, List.length_range, hstart]
  have htoks : ∀ i, p.startPos + i < p.promptEndPos →
      p.promptTokens i = tokenAt all (p.startPos + i) := by
    intro i hi
    exact (hprompt i (by omega)).symm
  have hkv : m.Holds s.kv (tokenAt all) p.startPos := by
    apply hrows.congr
    intro q hq
    exact (hold q hq).symm
  have hfirst : ∀ j, j + 1 < k + 1 →
      (speech api p.publicPrompt req.sampled (j + 1)).type ≠ .eos :=
    fun j hj => hends.first j (Nat.lt_of_succ_lt_succ hj)
  rcases answer_eq (resolveDeltaPrompt s.naiveCache req.messages).1 (dueBefore s req)
    (by omega) (by omega) htoks hkv (by omega) hfirst (.inl ⟨Nat.succ_pos k, hends.ends⟩)
    hends.passes with ⟨kv, heq, hkv'⟩
  have hrows' : m.Holds kv (tokenAt all) (p.promptEndPos + (k + 1)) := by
    apply hkv' (by omega)
    · have hindex : p.promptEndPos - p.startPos + 1 = p.nPromptTokens := by omega
      have hpos : p.startPos + (p.nPromptTokens - 1) = p.promptEndPos := by omega
      rw [hindex, hends.again, ← hpos]
      exact (hprompt _ (by omega)).symm
    · intro j hj
      have hpos : p.promptEndPos + j + 1 = p.startPos + p.nPromptTokens + j := by omega
      rw [hpos]
      exact (hsampled j (Nat.lt_of_succ_lt_succ hj)).symm
  have hpos : p.promptEndPos + (k + 1) = all.length := by omega
  rw [hends.spoken, hall, hpos] at heq
  rw [hpos] at hrows'
  change Sound api m (answer api m req p s.kv _ (dueBefore s req))
  rw [heq]
  split_ifs
  · exact start_sound kv
  · refine ⟨?_, ?_, ?_⟩
    · simp only
      omega
    · intro item hitem
      rw [List.getLast?_concat] at hitem
      cases hitem
      rfl
    · intro _
      exact hrows'

theorem Sound.complete (h : Sound api m s) (hmeets : Meets api s req) :
    Sound api m (complete api m s req) := by
  rcases hmeets with ⟨k, hends⟩ | hfills
  · exact h.complete_endsWith hends
  · rcases h.complete_fills hfills with ⟨kv, heq⟩
    rw [heq]
    exact start_sound kv

theorem served_sound {kv : Kv R} (h : Served api m kv s) : Sound api m s := by
  induction h with
  | start => exact start_sound kv
  | request _ hmeets ih => exact ih.complete hmeets

/-- In every run whose requests meet the condition, what a hit claims is so. -/
theorem served_hitSound {kv : Kv R} (h : Served api m kv s) : HitSound m s :=
  (served_sound h).hitSound

/-! ## Two short runs -/

/-- A token is a byte, and 2 ends a generation. -/
def byteApi : ApiConfig where
  seqLen := 16
  seqLen_lt := by decide
  tokenizer := ⟨fun token => [UInt8.ofNat token], none, [2]⟩
  stops := ⟨[2], [], 0, 0⟩
  template messages := ((messages.map ChatMessage.content).flatten, none)
  encode text _ := (fun i => ((text ++ [97]).getD i 0).toNat, text.length)
  prefillBatchCap _ := 4
  prefillBatchCap_pos _ := by decide

def userMessage : ChatMessage :=
  ⟨[117, 115, 101, 114], [97, 97]⟩

/-- The answer is "b" and the end token. -/
def shortRequest (maxTokens : Int) : Request where
  messages := [userMessage]
  maxTokens
  stream := false
  sampled k := if k = 0 then 98 else 2
  failWrite := none
  unset := 0

theorem shortRequest_endsWith :
    EndsWith byteApi (shortRequest (-1)) (prompt byteApi [] (shortRequest (-1))) 1 where
  room := by decide +kernel
  two := by decide +kernel
  again := by decide +kernel
  time := by decide +kernel
  ends := by decide +kernel
  first := by decide +kernel
  parts := by decide +kernel
  passes := by
    intro hstream
    cases hstream

/-- The next request of the conversation starts at position 3. -/
theorem served_hitSound_short :
    (resolveDeltaPrompt
        (complete byteApi echoModel (start fun _ _ => 0) (shortRequest (-1))).naiveCache
        [userMessage, ⟨assistant, [98]⟩, userMessage]).2 = some (3, [userMessage]) ∧
      HitSound echoModel (complete byteApi echoModel (start fun _ _ => 0) (shortRequest (-1))) :=
  ⟨by decide +kernel, served_hitSound (.request .start (.inl ⟨1, shortRequest_endsWith⟩))⟩

/-- With `max_tokens` of 1 the next request starts at position 2, where three tokens are due: "b"
was never fed. -/
theorem not_hitSound_maxTokens :
    ¬HitSound echoModel (complete byteApi echoModel (start fun _ _ => 0) (shortRequest 1)) := by
  intro h
  have hhit : (resolveDeltaPrompt
      (complete byteApi echoModel (start fun _ _ => 0) (shortRequest 1)).naiveCache
      [userMessage, ⟨assistant, [98]⟩, userMessage]).2 = some (2, [userMessage]) := by
    decide +kernel
  have hdue : (complete byteApi echoModel (start fun _ _ => 0) (shortRequest 1)).due.length
      = 3 := by
    decide +kernel
  rw [← (h _ _ _ hhit).1] at hdue
  cases hdue

end Api
end PrefillOpt
