import Mathlib.Data.List.Basic

/-!
# Tokenizer.ChatTemplate — the prompt of a conversation

`ChatTemplateGenerator` of `tokenizer.cpp`.  Every template has a loop of its own over the items;
at the end a generation prompt opens the answer.
-/

namespace PrefillOpt
namespace ChatTemplate

inductive ChatTemplateType where
  | unknown
  | llama2
  | llama3
  | deepSeek3
  | chatml
deriving DecidableEq, Repr

structure ChatItem where
  role : List UInt8
  message : List UInt8
deriving DecidableEq, Repr

/-- `publicPrompt` is the index of `content` that the pointer points to. -/
structure GeneratedChat where
  content : List UInt8
  length : Nat
  publicPrompt : Option Int
deriving DecidableEq, Repr

/-- The bytes of a string literal. -/
def literal (s : String) : List UInt8 :=
  s.toUTF8.data.toList

/-! ## The templates -/

section Templates

variable (eos : List UInt8) (items : List ChatItem) (appendGenerationPrompt : Bool)

/-- A system item is only taken before a user item. -/
def llama2 : List UInt8 :=
  let start : List UInt8 × List ChatItem :=
    match items with
    | system :: user :: rest =>
        if system.role = literal "system" ∧ user.role = literal "user" then
          (literal "[INST] <<SYS>>\n" ++ system.message ++ literal "\n<</SYS>>\n\n" ++ user.message
            ++ literal " [/INST]" ++ eos, rest)
        else ([], items)
    | _ => ([], items)
  start.2.foldl (fun buffer item =>
    if item.role = literal "assistant" then buffer ++ (item.message ++ eos)
    else if item.role = literal "user" then
      buffer ++ (literal "[INST] " ++ item.message ++ literal " [/INST]" ++ eos)
    else buffer) start.1

def llama3 : List UInt8 :=
  let buffer := items.foldl (fun buffer item =>
    buffer ++ (literal "<|start_header_id|>" ++ item.role ++ literal "<|end_header_id|>\n\n"
      ++ item.message ++ eos)) []
  if appendGenerationPrompt then
    buffer ++ literal "<|start_header_id|>assistant<|end_header_id|>\n\n"
  else buffer

/-- The buffer and `publicPromptSize`. -/
def deepSeek3 : List UInt8 × Nat :=
  let start : List UInt8 × List ChatItem :=
    match items with
    | system :: rest =>
        if system.role = literal "system" then (system.message, rest) else ([], items)
    | [] => ([], items)
  let buffer := start.2.foldl (fun buffer item =>
    if item.role = literal "user" then buffer ++ (literal "<｜User｜>" ++ item.message)
    else if item.role = literal "assistant" then
      buffer ++ (literal "<｜Assistant｜>" ++ item.message)
    else buffer) start.1
  if appendGenerationPrompt then (buffer ++ literal "<｜Assistant｜><think>\n", 8) else (buffer, 0)

/-- The generation prompt is appended in the loop. -/
def chatml : List UInt8 :=
  items.foldl (fun buffer item =>
    let buffer :=
      if item.role = literal "system" then
        buffer ++ (literal "<|im_start|>system\n" ++ item.message ++ literal "<|im_end|>\n")
      else if item.role = literal "user" then
        buffer ++ (literal "<|im_start|>user\n" ++ item.message ++ literal "<|im_end|>\n")
      else if item.role = literal "assistant" then
        buffer ++ (literal "<|im_start|>assistant\n" ++ item.message ++ literal "<|im_end|>\n")
      else buffer
    if appendGenerationPrompt then buffer ++ literal "<|im_start|>assistant\n" else buffer) []

def generate (type : ChatTemplateType) : GeneratedChat :=
  let (buffer, publicPromptSize) : List UInt8 × Nat :=
    match type with
    | .unknown => ([], 0)
    | .llama2 => (llama2 eos items, 0)
    | .llama3 => (llama3 eos items appendGenerationPrompt, 0)
    | .deepSeek3 => deepSeek3 items appendGenerationPrompt
    | .chatml => (chatml items appendGenerationPrompt, 0)
  ⟨buffer, buffer.length,
    if 0 < publicPromptSize then some (buffer.length - publicPromptSize) else none⟩

end Templates

/-- What a template appends to open the answer. -/
def generationPrompt : ChatTemplateType → List UInt8
  | .unknown => []
  | .llama2 => []
  | .llama3 => literal "<|start_header_id|>assistant<|end_header_id|>\n\n"
  | .deepSeek3 => literal "<｜Assistant｜><think>\n"
  | .chatml => literal "<|im_start|>assistant\n"

/-- The two modes differ by the generation prompt, and a public prompt is a suffix. -/
def PromptedOnce (type : ChatTemplateType) (eos : List UInt8) (items : List ChatItem) : Prop :=
  (generate eos items true type).content
      = (generate eos items false type).content ++ generationPrompt type ∧
    ∀ append p, (generate eos items append type).publicPrompt = some p →
      ∃ pre suffix, (generate eos items append type).content = pre ++ suffix ∧
        p = (pre.length : Int)

variable {eos : List UInt8} {items : List ChatItem} {type : ChatTemplateType}

/-! ## The public prompt -/

theorem think_length : (literal "<think>\n").length = 8 := by decide

theorem deepSeek3_prompt :
    deepSeek3 items true = ((deepSeek3 items false).1 ++ generationPrompt .deepSeek3, 8) :=
  rfl

/-- A public prompt is the end `<think>\n` of the generation prompt. -/
theorem publicPrompt_suffix {append : Bool} {p : Int}
    (h : (generate eos items append type).publicPrompt = some p) :
    ∃ pre, (generate eos items append type).content = pre ++ literal "<think>\n" ∧
      p = (pre.length : Int) := by
  cases type with
  | deepSeek3 =>
      cases append with
      | false => cases h
      | true =>
          have hprompt : generationPrompt .deepSeek3
              = literal "<｜Assistant｜>" ++ literal "<think>\n" := by decide
          refine ⟨(deepSeek3 items false).1 ++ literal "<｜Assistant｜>", ?_, ?_⟩
          · rw [List.append_assoc, ← hprompt]
            rfl
          · have hsize := congrArg List.length hprompt
            have hlast : p = (((deepSeek3 items true).1.length : Nat) : Int) - 8 :=
              (Option.some.inj h).symm
            rw [List.length_append, think_length] at hsize
            rw [hlast, deepSeek3_prompt, List.length_append, List.length_append, hsize]
            omega
  | unknown => cases h
  | llama2 => cases h
  | llama3 => cases h
  | chatml => cases h

/-! ## The generation prompt -/

/-- What an item adds in the `chatml` template. -/
def chatmlItem (item : ChatItem) : List UInt8 :=
  if item.role = literal "system" then
    literal "<|im_start|>system\n" ++ item.message ++ literal "<|im_end|>\n"
  else if item.role = literal "user" then
    literal "<|im_start|>user\n" ++ item.message ++ literal "<|im_end|>\n"
  else if item.role = literal "assistant" then
    literal "<|im_start|>assistant\n" ++ item.message ++ literal "<|im_end|>\n"
  else []

theorem chatml_eq {append : Bool} :
    chatml items append
      = items.flatMap fun item =>
          chatmlItem item ++ if append then generationPrompt .chatml else [] := by
  rw [List.flatMap_eq_foldl, chatml]
  apply congrFun
  apply congrFun
  apply congrArg
  funext buffer item
  simp only [chatmlItem, generationPrompt]
  split_ifs <;> simp only [List.append_assoc, List.append_nil, List.nil_append]

/-- Each item brings a generation prompt with it. -/
theorem chatml_length :
    (chatml items true).length
      = (chatml items false).length + items.length * (generationPrompt .chatml).length := by
  rw [chatml_eq, chatml_eq]
  induction items with
  | nil => rfl
  | cons item items ih =>
      simp only [List.flatMap_cons, List.length_append, List.length_cons, if_true,
        Bool.false_eq_true, if_false, List.length_nil] at ih ⊢
      rw [Nat.succ_mul]
      omega

/-- The generation prompt is appended once, in `chatml` only for a single item. -/
theorem promptedOnce_iff : PromptedOnce type eos items ↔ (type = .chatml → items.length = 1) := by
  have hpublic : ∀ append p, (generate eos items append type).publicPrompt = some p →
      ∃ pre suffix, (generate eos items append type).content = pre ++ suffix ∧
        p = (pre.length : Int) := by
    intro append p h
    rcases publicPrompt_suffix h with ⟨pre, hpre, hp⟩
    exact ⟨pre, _, hpre, hp⟩
  rw [PromptedOnce, and_iff_left hpublic]
  cases type with
  | unknown => exact ⟨fun _ h => (by cases h), fun _ => rfl⟩
  | llama2 =>
      refine ⟨fun _ h => (by cases h), fun _ => ?_⟩
      exact (List.append_nil (llama2 eos items)).symm
  | llama3 => exact ⟨fun _ h => (by cases h), fun _ => rfl⟩
  | deepSeek3 => exact ⟨fun _ h => (by cases h), fun _ => rfl⟩
  | chatml =>
      constructor
      · intro h _
        have hlen := congrArg List.length h
        have hcount : (chatml items true).length
            = (chatml items false).length + (generationPrompt .chatml).length :=
          hlen.trans List.length_append
        rw [chatml_length] at hcount
        have hpos : 0 < (generationPrompt .chatml).length := by decide
        have hone : items.length * (generationPrompt .chatml).length
            = 1 * (generationPrompt .chatml).length := by omega
        exact Nat.eq_of_mul_eq_mul_right hpos hone
      · intro h
        rcases List.length_eq_one_iff.1 (h rfl) with ⟨item, rfl⟩
        have hprompt : chatml [item] true
            = chatml [item] false ++ generationPrompt .chatml := by
          simp only [chatml_eq, List.flatMap_cons, List.flatMap_nil, List.append_nil, if_true,
            Bool.false_eq_true, if_false]
        exact hprompt

/-- A system prompt and a question, as `ApiServer::complete` passes them. -/
def twoItems : List ChatItem :=
  [⟨literal "system", literal "Be brief."⟩, ⟨literal "user", literal "Hi"⟩]

/-- In `chatml` the answer is opened behind every item, so no suffix fits all conversations. -/
theorem chatml_prompted_twice :
    ¬∃ suffix : ChatTemplateType → List UInt8, ∀ type eos items,
      (generate eos items true type).content
        = (generate eos items false type).content ++ suffix type := by
  rintro ⟨suffix, h⟩
  have hcount : ∀ items : List ChatItem, items.length * 22 = (suffix .chatml).length := by
    intro items
    have hlen : (chatml items true).length = (chatml items false).length + _ :=
      (congrArg List.length (h .chatml [] items)).trans List.length_append
    have hprompt : (generationPrompt .chatml).length = 22 := by decide
    rw [chatml_length, hprompt] at hlen
    exact Nat.add_left_cancel hlen
  have hone := hcount [⟨literal "user", literal "Hi"⟩]
  have htwo := hcount twoItems
  exact absurd (hone.trans htwo.symm) (by decide)

end ChatTemplate
end PrefillOpt
