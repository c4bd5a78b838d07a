import PrefillOpt.Api.ApiServer

/-!
# Api.StopText — the text around the detection of a stop

Text that may become a stop text is held back in the detector.  It is given out with the next text
that is no stop, and with a stop token; from a stop text on it is dropped.  The loop of `complete`
can end at `maxPredPos` as well, and then what is held back is lost.
-/

namespace PrefillOpt

/-! ## The detector -/

/-- What `append` finds in the buffer. -/
inductive Found (stops : EosStops) (buffer : List Cell) : EosDetectorType × Option Nat → Prop
  | stop (before text rest : List Cell) (hbuffer : buffer = before ++ text ++ rest)
      (htext : text.map Cell.byte ∈ stops.pieces) : Found stops buffer (.eos, some before.length)
  | maybe (hbuffer : buffer ≠ []) : Found stops buffer (.maybeEos, none)
  | nothing : Found stops buffer (.notEos, none)

namespace EosStops

variable {stops : EosStops} {buffer : List Cell}

theorem matchFrom_found {piece : List UInt8} (hpiece : piece ∈ stops.pieces) (los : List Nat) :
    Found stops buffer (stops.matchFrom buffer piece los) := by
  induction los with
  | nil => exact .nothing
  | cons lo los ih =>
      rw [matchFrom]
      simp only
      split
      · exact ih
      · next hin =>
          have hlo : lo < buffer.length := by
            by_contra hge
            exact hin (Or.inl (Nat.sub_eq_zero_of_le (Nat.not_lt.1 hge)))
          split
          · next hmatch =>
              split
              · next hwhole =>
                  -- all of the piece is there
                  rw [hwhole, List.take_length] at hmatch
                  have hbefore : (buffer.take lo).length = lo :=
                    List.length_take_of_le hlo.le
                  have hsplit : buffer = buffer.take lo ++ (buffer.drop lo).take piece.length
                      ++ (buffer.drop lo).drop piece.length := by
                    rw [List.append_assoc, List.take_append_drop, List.take_append_drop]
                  have htext : ((buffer.drop lo).take piece.length).map Cell.byte
                      ∈ stops.pieces := by
                    rw [hmatch]
                    exact hpiece
                  have hfound : Found stops buffer (.eos, some (buffer.take lo).length) :=
                    .stop _ _ _ hsplit htext
                  rwa [hbefore] at hfound
              · exact .maybe (List.ne_nil_of_length_pos (Nat.zero_lt_of_lt hlo))
          · exact ih

theorem detect_found {pieces : List (List UInt8)} (hpieces : pieces ⊆ stops.pieces) :
    Found stops buffer (stops.detect buffer pieces) := by
  induction pieces with
  | nil => exact .nothing
  | cons piece pieces ih =>
      rcases List.cons_subset.1 hpieces with ⟨hpiece, hrest⟩
      rw [detect]
      split
      · exact ih hrest
      · split
        · exact ih hrest
        · exact matchFrom_found hpiece _

/-- A stop token takes all of the buffer; otherwise it is what is found. -/
theorem append_found (d : EosDetector) (token : Nat) (piece : Option (List Cell)) :
    ∃ eosPos, (stops.append d token piece).1 = ⟨d.buffer ++ piece.getD [], eosPos⟩ ∧
      if stops.tokens.contains token then
        (stops.append d token piece).2 = .eos ∧ eosPos = some (d.buffer ++ piece.getD []).length
      else Found stops (d.buffer ++ piece.getD []) ((stops.append d token piece).2, eosPos) := by
  rw [append]
  simp only
  split
  · exact ⟨_, rfl, rfl, rfl⟩
  · exact ⟨_, rfl, detect_found (List.Subset.refl _)⟩

end EosStops

/-- The text that is given out is what stands before `eosPos`. -/
theorem EosDetector.getDelta_getD (d : EosDetector) :
    d.getDelta.getD [] = d.buffer.take (d.eosPos.getD d.buffer.length) := by
  rcases d with ⟨buffer, eosPos⟩
  rw [getDelta]
  split
  · next hnil =>
      have hbuffer : buffer = [] := hnil
      simp [hbuffer]
  · cases eosPos with
    | none => simp
    | some eosPos =>
        cases eosPos with
        | zero => simp
        | succ n => rfl

namespace Api

variable {api : ApiConfig}

/-! ## A token -/

/-- The piece of the `k`-th sampled token. -/
def pieceOf (api : ApiConfig) (publicPrompt : Option (List UInt8)) (sampled : Nat → Nat) (k : Nat) :
    List Cell :=
  (api.tokenizer.decode (speech api publicPrompt sampled k).strBuffer (sampled k)
    (some k)).2.getD []

/-- The pieces of the first tokens, behind the public part of the prompt. -/
def decodedText (api : ApiConfig) (publicPrompt : Option (List UInt8)) (sampled : Nat → Nat)
    (n : Nat) : List Cell :=
  (Speech.start publicPrompt).buffer ++ (List.range n).flatMap (pieceOf api publicPrompt sampled)

/-- What is given out and what is held back. -/
def Speech.text (t : Speech) : List Cell :=
  t.buffer ++ t.eosDetector.buffer

/-- What a token does with the text. -/
inductive Said (api : ApiConfig) (t : Speech) (token : Nat) (piece : List Cell) : Speech → Prop
  | stopToken (t' : Speech) (htype : t'.type = .eos) (htoken : api.stops.tokens.contains token)
      (htext : t'.buffer = t.text ++ piece) : Said api t token piece t'
  | stopText (t' : Speech) (text rest : List Cell) (htype : t'.type = .eos)
      (htoken : ¬api.stops.tokens.contains token)
      (htext : t.text ++ piece = t'.buffer ++ text ++ rest)
      (hstop : text.map Cell.byte ∈ api.stops.pieces) : Said api t token piece t'
  | held (t' : Speech) (htype : t'.type = .maybeEos) (htext : t'.text = t.text ++ piece)
      (hheld : t'.eosDetector.buffer ≠ []) : Said api t token piece t'
  | given (t' : Speech) (htype : t'.type = .notEos) (htext : t'.text = t.text ++ piece)
      (hheld : t'.eosDetector.buffer = []) : Said api t token piece t'

/-- The text is given out up to `eosPos`, unless it may become a stop text. -/
theorem Speech.step_eq (t : Speech) (k token : Nat) :
    let appended := api.stops.append t.eosDetector token
      (api.tokenizer.decode t.strBuffer token (some k)).2
    let t' := t.step api k token
    t'.type = appended.2 ∧
      if appended.2 = .maybeEos then
        t'.buffer = t.buffer ∧ t'.eosDetector.buffer = appended.1.buffer
      else
        t'.buffer = t.buffer ++ appended.1.buffer.take
            (appended.1.eosPos.getD appended.1.buffer.length) ∧
          t'.eosDetector.buffer = [] := by
  intro appended t'
  have hstep : t' = t.step api k token := rfl
  rw [Speech.step] at hstep
  simp only at hstep
  rw [← EosDetector.getDelta_getD]
  change t' = if appended.2 = .notEos ∨ appended.2 = .eos then _ else _ at hstep
  cases htype : appended.2 with
  | maybeEos =>
      rw [htype, if_neg (by decide)] at hstep
      rw [if_pos rfl, hstep]
      exact ⟨rfl, rfl, rfl⟩
  | eos | notEos =>
      -- the delta joins the text and the detector starts anew
      rw [htype, if_pos (by decide)] at hstep
      rw [if_neg (by decide), hstep]
      cases hdelta : appended.1.getDelta with
      | none => simp [EosDetector.reset]
      | some delta => simp [EosDetector.reset]

theorem Speech.step_said (t : Speech) (k token : Nat) :
    Said api t token ((api.tokenizer.decode t.strBuffer token (some k)).2.getD [])
      (t.step api k token) := by
  have hstep := @Speech.step_eq api t k token
  simp only at hstep
  generalize (api.tokenizer.decode t.strBuffer token (some k)).2 = piece at *
  rcases api.stops.append_found t.eosDetector token piece with ⟨eosPos, hdetector, hfound⟩
  generalize t.step api k token = t' at *
  generalize (api.stops.append t.eosDetector token piece).2 = type at *
  rw [hdetector] at hstep
  rcases hstep with ⟨htype, hstep⟩
  have htext : t.buffer ++ (t.eosDetector.buffer ++ piece.getD []) = t.text ++ piece.getD [] :=
    (List.append_assoc _ _ _).symm
  split at hfound
  · next htoken =>
      rcases hfound with ⟨heos, rfl⟩
      rw [heos, if_neg (by decide), Option.getD_some, List.take_length, htext] at hstep
      exact .stopToken t' (htype.trans heos) htoken hstep.1
  · next htoken =>
      cases hfound with
      | stop before text rest hbuffer hstop =>
          rw [if_neg (by decide), Option.getD_some] at hstep
          simp only [hbuffer, List.append_assoc, List.take_left] at hstep
          refine .stopText t' text rest htype htoken ?_ hstop
          rw [hstep.1, ← htext, hbuffer]
          simp only [List.append_assoc]
      | maybe hne =>
          rw [if_pos rfl] at hstep
          refine .held t' htype ?_ (hstep.2 ▸ hne)
          rw [Speech.text, hstep.1, hstep.2, htext]
      | nothing =>
          rw [if_neg (by decide), Option.getD_none, List.take_length, htext] at hstep
          refine .given t' htype ?_ hstep.2
          rw [Speech.text, hstep.1, hstep.2, List.append_nil]

/-! ## A run of the loop -/

section Run

variable {publicPrompt : Option (List UInt8)} {sampled : Nat → Nat} {n : Nat}

theorem decodedText_succ :
    decodedText api publicPrompt sampled (n + 1)
      = decodedText api publicPrompt sampled n ++ pieceOf api publicPrompt sampled n := by
  rw [decodedText, decodedText, List.range_succ, List.flatMap_append, List.append_assoc,
    List.flatMap_singleton]

/-- Until a stop is found nothing is dropped. -/
theorem speech_text (h : ∀ k < n, (speech api publicPrompt sampled (k + 1)).type ≠ .eos) :
    (speech api publicPrompt sampled n).text = decodedText api publicPrompt sampled n := by
  induction n with
  | zero => rfl
  | succ n ih =>
      have hbefore := ih fun k hk => h k (Nat.lt_succ_of_lt hk)
      have hsaid : Said api (speech api publicPrompt sampled n) (sampled n)
          (pieceOf api publicPrompt sampled n) (speech api publicPrompt sampled (n + 1)) :=
        Speech.step_said _ n (sampled n)
      have hlast := h n (Nat.lt_succ_self n)
      rw [decodedText_succ, ← hbefore]
      cases hsaid with
      | stopToken htype _ _ => exact absurd htype hlast
      | stopText _ _ htype _ _ _ => exact absurd htype hlast
      | held _ htext _ => exact htext
      | given _ htext _ => exact htext

end Run

open Inference

variable {R H : Type} {m : Transformer Nat H R} {req : Request} {publicPrompt : Option (List UInt8)}

/-- The loop ends with the last token it took, and no token before it was the end. -/
theorem generate_ended {first pos fuel k steps : Nat} {kv kv' : Kv R} {token : Nat} {t : Speech}
    (h : generate api m req first pos fuel k kv token (speech api publicPrompt req.sampled k)
      = .ended kv' steps t) :
    k ≤ steps ∧ t = speech api publicPrompt req.sampled steps ∧
      ∀ j, k ≤ j → j + 1 < steps → (speech api publicPrompt req.sampled (j + 1)).type ≠ .eos := by
  induction fuel generalizing k kv token with
  | zero =>
      rcases Generated.ended.inj h with ⟨-, hk, ht⟩
      refine ⟨Nat.le_of_eq hk, by rw [← hk, ht], fun j hj hlt => ?_⟩
      omega
  | succ fuel ih =>
      have hstep : (speech api publicPrompt req.sampled k).step api k (req.sampled k)
          = speech api publicPrompt req.sampled (k + 1) := rfl
      rw [generate, hstep] at h
      split at h
      · cases h
      · split at h
        · rcases Generated.ended.inj h with ⟨-, hk, ht⟩
          refine ⟨by omega, by rw [← hk, ht], fun j hj hlt => ?_⟩
          omega
        · next htype =>
            rcases ih h with ⟨hle, ht, hbefore⟩
            refine ⟨by omega, ht, fun j hj hlt => ?_⟩
            rcases Nat.eq_or_lt_of_le hj with rfl | hlt'
            · exact htype
            · exact hbefore j hlt' hlt

/-- What `append` returns for the last token. -/
def lastType (api : ApiConfig) (publicPrompt : Option (List UInt8)) (sampled : Nat → Nat) :
    Nat → EosDetectorType
  | 0 => .notEos
  | k + 1 =>
      let t := speech api publicPrompt sampled k
      (api.stops.append t.eosDetector (sampled k)
        (api.tokenizer.decode t.strBuffer (sampled k) (some k)).2).2

/-- The response has the text of all pieces, up to the stop text where one was found. -/
def TextKept (api : ApiConfig) (publicPrompt : Option (List UInt8)) (sampled : Nat → Nat)
    (steps : Nat) (response : List Cell) : Prop :=
  if lastType api publicPrompt sampled steps = .eos ∧
      ¬api.stops.tokens.contains (sampled (steps - 1)) then
    ∃ text rest, decodedText api publicPrompt sampled steps = response ++ text ++ rest ∧
      text.map Cell.byte ∈ api.stops.pieces
  else response = decodedText api publicPrompt sampled steps

/-- No text is lost exactly when the detector holds nothing back at the end. -/
theorem response_iff {first pos fuel steps : Nat} {kv kv' : Kv R} {token : Nat} {t : Speech}
    (h : generate api m req first pos fuel 0 kv token (.start publicPrompt)
      = .ended kv' steps t) :
    TextKept api publicPrompt req.sampled steps t.buffer ↔
      lastType api publicPrompt req.sampled steps ≠ .maybeEos := by
  rcases generate_ended (k := 0) h with ⟨-, rfl, hbefore⟩
  cases steps with
  | zero =>
      have htype : lastType api publicPrompt req.sampled 0 = .notEos := rfl
      rw [TextKept, htype, if_neg fun h => by cases h.1]
      exact ⟨fun _ => by decide, fun _ => (List.append_nil _).symm⟩
  | succ n =>
      have htext := speech_text (n := n) fun k hk => hbefore k (Nat.zero_le k) (by omega)
      have htype : (speech api publicPrompt req.sampled (n + 1)).type
          = lastType api publicPrompt req.sampled (n + 1) := (Speech.step_eq _ n _).1
      have hsaid : Said api (speech api publicPrompt req.sampled n) (req.sampled n)
          (pieceOf api publicPrompt req.sampled n) (speech api publicPrompt req.sampled (n + 1)) :=
        Speech.step_said _ n (req.sampled n)
      rw [TextKept, ← htype, decodedText_succ, ← htext, Nat.add_sub_cancel]
      generalize speech api publicPrompt req.sampled (n + 1) = t at *
      cases hsaid with
      | stopToken heos htoken hresponse =>
          rw [heos, if_neg fun h => h.2 htoken]
          exact ⟨fun _ => by decide, fun _ => hresponse⟩
      | stopText text rest heos htoken hresponse hstop =>
          rw [heos, if_pos ⟨rfl, htoken⟩]
          exact ⟨fun _ => by decide, fun _ => ⟨text, rest, hresponse, hstop⟩⟩
      | held hmaybe hresponse hheld =>
          rw [hmaybe, if_neg fun h => by cases h.1]
          refine ⟨fun hlost => ?_, fun h => absurd rfl h⟩
          rw [← hresponse, Speech.text] at hlost
          exact absurd (List.self_eq_append_right.1 hlost) hheld
      | given hnot hresponse hheld =>
          rw [hnot, if_neg fun h => by cases h.1]
          refine ⟨fun _ => by decide, fun _ => ?_⟩
          rw [← hresponse, Speech.text, hheld, List.append_nil]

/-! ## An answer that is cut off -/

private theorem stopApi_seqLen : 16 < 2 ^ 32 := by decide

private theorem stopApi_cap : ∀ _ : Nat, 0 < 4 := fun _ => by decide

/-- A token is a byte, 2 ends a generation, and `</s>` is the stop text. -/
def stopApi : ApiConfig where
  seqLen := 16
  seqLen_lt := stopApi_seqLen
  tokenizer := ⟨fun token => [UInt8.ofNat token], none, [2]⟩
  stops := ⟨[2], [[60, 47, 115, 62]], 4, 4⟩
  template messages := ((messages.map ChatMessage.content).flatten, none)
  encode text _ := (fun i => (text.getD i 0).toNat, text.length)
  prefillBatchCap _ := 4
  prefillBatchCap_pos := stopApi_cap

/-- The tokens `a` and `<`. -/
def cutRequest (maxTokens : Int) : Request where
  messages := [⟨[117, 115, 101, 114], [98]⟩]
  maxTokens
  stream := false
  sampled k := [97, 60].getD k 2
  failWrite := none
  unset := 0

theorem response_iff_cut :
    ¬TextKept stopApi none (cutRequest 2).sampled 2
      (speech stopApi none (cutRequest 2).sampled 2).buffer := by
  have hrun : generate stopApi echoModel (cutRequest 2) 0 0 2 0 (fun _ _ => 0) 0 (.start none)
      = .ended _ 2 (speech stopApi none (cutRequest 2).sampled 2) := rfl
  intro hkept
  exact (response_iff hrun).1 hkept (by decide +kernel)

/-- With `max_tokens` of 2 the response is `a`, and `<` is lost. -/
theorem response_cut :
    (complete stopApi echoModel ⟨fun _ _ => 0, [], []⟩ (cutRequest 2)).naiveCache.getLast?.map
        (fun item => item.message.content) = some [97] ∧
      (decodedText stopApi none (cutRequest 2).sampled 2).map Cell.byte = [97, 60] ∧
      lastType stopApi none (cutRequest 2).sampled 2 = .maybeEos :=
  ⟨by decide +kernel, by decide +kernel, by decide +kernel⟩

end Api

end PrefillOpt
