import PrefillOpt.Core
import PrefillOpt.Lib.RawBytes

/-!
# Tokenizer.File — the tokenizer file

`writeTokenizer` of `converter/tokenizer-writer.py` and the constructor `Tokenizer::Tokenizer`.
Integers are little-endian; a score is the 32-bit pattern of its float.
-/

namespace PrefillOpt
namespace TokenizerFile

open Lib (leBytes ofLeBytes)

/-! ## The writer -/

/-- `struct.pack('i', value)`, which raises an exception for a value that is too large. -/
def packInt (value : Int) : Option (List UInt8) :=
  if -2 ^ 31 ≤ value ∧ value < 2 ^ 31 then some (leBytes 4 (value % 2 ^ 32).toNat) else none

inductive HeaderParam where
  | bosId
  | version
  | vocabSize
  | maxTokenLength
  | chatTemplate
  | nEosTokens
  | addBos
deriving DecidableEq, Repr

/-- `headerKeys` -/
def HeaderParam.key : HeaderParam → Int
  | .version => 0
  | .vocabSize => 1
  | .maxTokenLength => 2
  | .bosId => 3
  | .chatTemplate => 7
  | .nEosTokens => 9
  | .addBos => 10

/-- The keys and values of the header; a parameter that is `None` is left out. -/
def packParams : List (HeaderParam × Option Int) → Option (List UInt8)
  | [] => some []
  | (_, none) :: params => packParams params
  | (param, some value) :: params => do
      let key ← packInt param.key
      let value ← packInt value
      let data ← packParams params
      return key ++ value ++ data

def packInts : List Int → Option (List UInt8)
  | [] => some []
  | value :: values => do
      let value ← packInt value
      let data ← packInts values
      return value ++ data

/-- The scores and the texts; a text must not be empty. -/
def packTokens : List (List UInt8) → List UInt32 → Option (List UInt8)
  | [], _ => some []
  | _ :: _, [] => none
  | token :: tokens, score :: scores => do
      guard (0 < token.length ∧ token.length < 2 ^ 32)
      let data ← packTokens tokens scores
      return leBytes 4 score.toNat ++ leBytes 4 token.length ++ token ++ data

/-- What `writeTokenizer` is called with.  The template is empty where there is none: the code asks
`if (chatTemplate)`. -/
structure Source where
  tokens : List (List UInt8)
  scores : List UInt32
  chatTemplate : List UInt8
  bosId : Option Int
  addBos : Bool
  eosTokens : List Int

def params (src : Source) (maxTokenLength : Nat) : List (HeaderParam × Option Int) :=
  [(HeaderParam.bosId, src.bosId), (HeaderParam.version, some 1),
    (HeaderParam.vocabSize, some src.tokens.length),
    (HeaderParam.maxTokenLength, some maxTokenLength)]
  ++ (if src.chatTemplate = [] then []
      else [(HeaderParam.chatTemplate, some (src.chatTemplate.length : Int))])
  ++ [(HeaderParam.nEosTokens, some (src.eosTokens.length : Int)),
    (HeaderParam.addBos, some (if src.addBos then 1 else 0))]

/-- The bytes of the file, unless an exception is raised. -/
def writeTokenizer (src : Source) : Option (List UInt8) := do
  let magic ← packInt 0x567124
  let maxTokenLength ← (src.tokens.map List.length).max?
  let data ← packParams (params src maxTokenLength)
  let headerSize ← packInt (magic.length * 2 + data.length : Nat)
  let eosTokens ← packInts src.eosTokens
  let tokens ← packTokens src.tokens src.scores
  return magic ++ headerSize ++ data ++ src.chatTemplate ++ eosTokens ++ tokens

/-! ## The reader -/

structure File where
  bytes : List UInt8
  pos : Nat

/-- `fread(ptr, size, 1, file) != 1` is the error. -/
def File.fread (f : File) (size : Nat) (error : String) : Except String (List UInt8 × File) :=
  if size = 0 ∨ f.bytes.length < f.pos + size then .error error
  else .ok ((f.bytes.drop f.pos).take size, { f with pos := f.pos + size })

def File.freadInt (f : File) (error : String) : Except String (Int × File) := do
  let (data, f) ← f.fread 4 error
  return (i32 (ofLeBytes data), f)

/-- `fseek(file, value, SEEK_CUR)`, which fails without an effect before the beginning. -/
def File.fseek (f : File) (value : Int) : File :=
  if 0 ≤ f.pos + value then { f with pos := (f.pos + value).toNat } else f

/-- `new char[length + 1]`, where the sum is formed in an `int`. -/
def newChars (length : Int) : Except String Unit :=
  if i32 (length + 1) < 0 then .error "bad_array_new_length" else .ok ()

/-- A size that is passed as an `int`. -/
def sizeOfInt (length : Int) : Nat :=
  (length % 2 ^ 64).toNat

/-- The values of an array of integers. -/
def ints : List UInt8 → List Int
  | a :: b :: c :: d :: bytes => i32 (ofLeBytes [a, b, c, d]) :: ints bytes
  | _ => []

structure Header where
  vocabSize : Nat
  maxTokenLength : Nat
  bosId : Int
  addBos : Bool
  eosTokenIds : List Int
  version : Int
  chatTemplateLength : Int
  nEosTokens : Int
deriving DecidableEq, Repr

/-- One key of the header with its value; keys 4 and 6 are old ones, 5 and 8 are ignored. -/
def readKey (key value : Int) (h : Header) (f : File) : Except String (Header × File) :=
  if key = 0 then .ok ({ h with version := value }, f)
  else if key = 1 then .ok ({ h with vocabSize := (value % 2 ^ 32).toNat }, f)
  else if key = 2 then .ok ({ h with maxTokenLength := (value % 2 ^ 32).toNat }, f)
  else if key = 3 then .ok ({ h with bosId := value }, f)
  else if key = 4 ∨ key = 6 then .ok ({ h with eosTokenIds := h.eosTokenIds ++ [value] }, f)
  else if key = 7 then .ok ({ h with chatTemplateLength := value }, f)
  else if key = 8 then .ok (h, f.fseek value)
  else if key = 5 then .ok (h, f)
  else if key = 9 then .ok ({ h with nEosTokens := value }, f)
  else if key = 10 then .ok ({ h with addBos := value == 1 }, f)
  else .error s!"Invalid tokenizer header key:{key}"

def readKeys : List Int → Header → File → Except String (Header × File)
  | key :: value :: buffer, h, f => do
      let (h, f) ← readKey key value h f
      readKeys buffer h f
  | [_], _, _ => .error "buffer[i + 1]"
  | [], h, f => .ok (h, f)

def readEosTokens : Nat → File → Except String (List Int × File)
  | 0, f => .ok ([], f)
  | n + 1, f => do
      let (eosTokenId, f) ← f.freadInt "Cannot read eos token id from tokenizer file"
      let (eosTokenIds, f) ← readEosTokens n f
      return (eosTokenId :: eosTokenIds, f)

/-- A text is followed by a zero byte. -/
structure Entry where
  score : UInt32
  length : Nat
  str : List UInt8
deriving DecidableEq, Repr

def readEntry (f : File) : Except String (Entry × File) := do
  let (score, f) ← f.fread 4 "Cannot read size from tokenizer file"
  let (length, f) ← f.freadInt "Cannot read length from tokenizer file"
  newChars length
  let (str, f) ← f.fread (sizeOfInt length) "Cannot read word from tokenizer file"
  return (⟨UInt32.ofNat (ofLeBytes score), (length % 2 ^ 32).toNat, str ++ [0]⟩, f)

def readVocab : Nat → File → Except String (List Entry × File)
  | 0, f => .ok ([], f)
  | n + 1, f => do
      let (entry, f) ← readEntry f
      let (vocab, f) ← readVocab n f
      return (entry :: vocab, f)

structure TokenIndex where
  str : List UInt8
  id : Nat
deriving DecidableEq, Repr

/-- `strcmp(a, b) <= 0` -/
def strLe (a b : List UInt8) : Bool :=
  decide (a.takeWhile (· ≠ 0) ≤ b.takeWhile (· ≠ 0))

/-- `file` is where the reader has come to. -/
structure Tokenizer where
  vocab : List Entry
  bosId : Int
  addBos : Bool
  eosTokenIds : List Int
  chatTemplate : Option (List UInt8)
  regularVocab : List TokenIndex
  specialVocab : List TokenIndex
  file : File

/-- The header of a file with the older magic number. -/
def readOldHeader (h : Header) (f : File) :
    Except String (Header × Option (List UInt8) × File) := do
  let (data, f) ← f.fread 20 "Cannot read tokenizer header"
  match ints data with
  | vocabSize :: maxTokenLength :: bosId :: eosId :: _ =>
      return ({ h with
        vocabSize := (vocabSize % 2 ^ 32).toNat
        maxTokenLength := (maxTokenLength % 2 ^ 32).toNat
        bosId
        eosTokenIds := [eosId] }, none, f)
  | _ => .error "Cannot read tokenizer header"

/-- `(headerSize - 2 * sizeof(int)) / sizeof(int)` in a 64-bit unsigned integer. -/
def nKvOf (headerSize : Int) : Int :=
  i32 ((headerSize - 8) % 2 ^ 64 / 4)

def readChatTemplate (chatTemplateLength : Int) (f : File) :
    Except String (Option (List UInt8) × File) :=
  if 0 < chatTemplateLength then do
    newChars chatTemplateLength
    let (text, f) ← f.fread (sizeOfInt chatTemplateLength)
      "Cannot read chat template from tokenizer file"
    return (some (text ++ [0]), f)
  else .ok (none, f)

def readHeader (h : Header) (f : File) : Except String (Header × Option (List UInt8) × File) := do
  let (headerSize, f) ← f.freadInt "Cannot read tokenizer header size"
  let nKv := nKvOf headerSize
  if nKv < 0 then .error "length_error" else .ok ()
  let (buffer, f) ← f.fread (nKv.toNat * 4) "Cannot read header values"
  let (h, f) ← readKeys (ints buffer) h f
  if h.version ≠ 1 then .error "Old tokenizer version, please regenerate your tokenizer" else .ok ()
  let (chatTemplate, f) ← readChatTemplate h.chatTemplateLength f
  let (eosTokenIds, f) ← readEosTokens h.nEosTokens.toNat f
  return ({ h with eosTokenIds := h.eosTokenIds ++ eosTokenIds }, chatTemplate, f)

def readAnyHeader (magic : Int) (h : Header) (f : File) :
    Except String (Header × Option (List UInt8) × File) :=
  if magic = 0x567123 then readOldHeader h f
  else if magic = 0x567124 then readHeader h f
  else .error "Invalid tokenizer file"

/-- The two arrays of the vocabulary; `qsort` sorts the first one. -/
def splitVocab (h : Header) (vocab : List Entry) :
    Except String (List TokenIndex × List TokenIndex) :=
  let index := vocab.zipIdx.map fun entry => ⟨entry.1.str, entry.2⟩
  let regularVocabSize := (h.bosId % 2 ^ 32).toNat
  if vocab.length < regularVocabSize then .error "vocab[i]"
  else .ok ((index.take regularVocabSize).mergeSort fun a b => strLe a.str b.str,
    index.drop regularVocabSize)

/-- The constructor; `vocabSize` and `addBos` are what the members hold before it sets them. -/
def readTokenizer (vocabSize : Nat) (addBos : Bool) (bytes : List UInt8) :
    Except String Tokenizer := do
  let h : Header := ⟨vocabSize, 0, -1, addBos, [], -1, -1, 0⟩
  let (magic, f) ← File.freadInt ⟨bytes, 0⟩ "Cannot read tokenizer magic number"
  let (h, chatTemplate, f) ← readAnyHeader magic h f
  if h.maxTokenLength < 1 then .error "Invalid tokenizer max token length" else .ok ()
  let (vocab, f) ← readVocab h.vocabSize f
  let (regularVocab, specialVocab) ← splitVocab h vocab
  return {
    vocab, chatTemplate, regularVocab, specialVocab
    bosId := h.bosId
    addBos := h.addBos
    eosTokenIds := h.eosTokenIds
    file := f }

end TokenizerFile
end PrefillOpt
