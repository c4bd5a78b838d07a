import PrefillOpt.Tokenizer.File

/-!
# Tokenizer.FileRoundTrip — the constructor reads what the converter writes

The reader is followed along the file: `File.at` is a file that is read up to a place.
-/

namespace PrefillOpt
namespace TokenizerFile

open Lib (leBytes ofLeBytes leBytes_length ofLeBytes_leBytes)

/-- Everything of the source is in the tokenizer, and the file is read to its end. -/
structure RoundTrips (src : Source) (bytes : List UInt8) (t : Tokenizer) : Prop where
  texts : t.vocab.map Entry.str = src.tokens.map (· ++ [0])
  lengths : t.vocab.map Entry.length = src.tokens.map List.length
  scores : t.vocab.map Entry.score = src.scores
  bosId : some t.bosId = src.bosId
  addBos : t.addBos = src.addBos
  eosTokenIds : t.eosTokenIds = src.eosTokens
  chatTemplate : t.chatTemplate
    = if src.chatTemplate = [] then none else some (src.chatTemplate ++ [0])
  whole : t.file.pos = bytes.length
  regular : (t.regularVocab.map TokenIndex.id).Perm (List.range t.bosId.toNat)
  special : t.specialVocab.map TokenIndex.id
    = List.range' t.bosId.toNat (src.tokens.length - t.bosId.toNat)
  strings : ∀ x ∈ t.regularVocab ++ t.specialVocab,
    (src.tokens.map (· ++ [0]))[x.id]? = some x.str

/-! ## One piece of the file -/

theorem ok_bind {α β : Type} (a : α) (f : α → Except String β) : (Except.ok a >>= f) = f a :=
  rfl

theorem error_bind {α β : Type} (error : String) (f : α → Except String β) :
    (Except.error error >>= f) = .error error :=
  rfl

/-- What is before the place, and what is still to be read. -/
def File.at (before rest : List UInt8) : File :=
  ⟨before ++ rest, before.length⟩

theorem fread_at {chunk : List UInt8} (hne : chunk ≠ []) (before rest : List UInt8)
    (error : String) :
    (File.at before (chunk ++ rest)).fread chunk.length error
      = .ok (chunk, File.at (before ++ chunk) rest) := by
  have hlen : chunk.length ≠ 0 := fun h => hne (List.length_eq_zero_iff.1 h)
  have henough : ¬(chunk.length = 0
      ∨ (before ++ (chunk ++ rest)).length < before.length + chunk.length) := by
    rw [List.length_append, List.length_append]
    omega
  rw [File.fread, File.at, if_neg henough, List.drop_left, List.take_left, File.at,
    List.append_assoc, List.length_append]

variable {value : Int} {values : List Int} {data : List UInt8}

theorem packInt_some (h : packInt value = some data) :
    data.length = 4 ∧ i32 (ofLeBytes data) = value := by
  rw [packInt] at h
  split_ifs at h with hfits
  cases h
  have hnonneg : 0 ≤ value % 2 ^ 32 := Int.emod_nonneg value (by decide)
  have hlt : (value % 2 ^ 32).toNat % 256 ^ 4 = (value % 2 ^ 32).toNat := by
    apply Nat.mod_eq_of_lt
    omega
  refine ⟨leBytes_length _ _, ?_⟩
  rw [ofLeBytes_leBytes, hlt, Int.toNat_of_nonneg hnonneg, i32]
  rw [show (2 ^ 32 : Int) = ((2 ^ 32 : Nat) : Int) from rfl, Int.emod_bmod]
  exact i32_of_lt hfits.1 hfits.2

theorem freadInt_at (h : packInt value = some data) (before rest : List UInt8) (error : String) :
    (File.at before (data ++ rest)).freadInt error
      = .ok (value, File.at (before ++ data) rest) := by
  rcases packInt_some h with ⟨hlen, hvalue⟩
  have hne : data ≠ [] := by
    rintro rfl
    cases hlen
  have hread := fread_at hne before rest error
  rw [hlen] at hread
  rw [File.freadInt, hread]
  simp only [bind, Except.bind, pure, Except.pure, hvalue]

theorem ints_append (h : packInt value = some data) (rest : List UInt8) :
    ints (data ++ rest) = value :: ints rest := by
  rcases packInt_some h with ⟨hlen, hvalue⟩
  rcases data with _ | ⟨a, _ | ⟨b, _ | ⟨c, _ | ⟨d, _ | ⟨e, data⟩⟩⟩⟩⟩
  · cases hlen
  · cases hlen
  · cases hlen
  · cases hlen
  · rw [← hvalue]
    rfl
  · cases hlen

/-- `new char[length + 1]` goes wrong for the largest `int` alone. -/
theorem newChars_eq {n : Nat} (h : n < 2 ^ 31) :
    newChars n = if n = 2 ^ 31 - 1 then .error "bad_array_new_length" else .ok () := by
  rw [newChars]
  by_cases hmax : n = 2 ^ 31 - 1
  · subst hmax
    rw [if_pos (by decide), if_pos rfl]
  · have hnonneg : ¬i32 ((n : Int) + 1) < 0 := by
      rw [i32_of_lt (by omega) (by omega)]
      omega
    rw [if_neg hnonneg, if_neg hmax]

theorem sizeOfInt_eq {n : Nat} (h : n < 2 ^ 31) : sizeOfInt n = n := by
  rw [sizeOfInt]
  omega

/-! ## The header -/

/-- The header as keys and values. -/
def flatParams (params : List (HeaderParam × Option Int)) : List Int :=
  params.flatMap fun p =>
    match p.2 with
    | some value => [p.1.key, value]
    | none => []

theorem ints_packParams {params : List (HeaderParam × Option Int)}
    (h : packParams params = some data) :
    ints data = flatParams params ∧ data.length = 4 * (flatParams params).length := by
  induction params generalizing data with
  | nil =>
      cases h
      exact ⟨rfl, rfl⟩
  | cons p params ih =>
      rcases p with ⟨param, _ | value⟩
      · exact ih h
      · simp only [packParams, Option.bind_eq_bind, Option.bind_eq_some_iff, pure] at h
        rcases h with ⟨key, hkey, val, hval, rest, hrest, hdata⟩
        cases hdata
        rcases ih hrest with ⟨hints, hlen⟩
        have hflat : flatParams ((param, some value) :: params)
            = param.key :: value :: flatParams params := rfl
        refine ⟨?_, ?_⟩
        · rw [List.append_assoc, ints_append hkey, ints_append hval, hints, hflat]
        · rw [List.length_append, List.length_append, (packInt_some hkey).1,
            (packInt_some hval).1, hlen, hflat, List.length_cons, List.length_cons]
          omega

/-- What the keys of the writer set. -/
theorem readKeys_params {src : Source} {bosId : Int} (hbos : src.bosId = some bosId)
    {maxTokenLength : Nat} {h : Header} (htemplate : h.chatTemplateLength = -1) (f : File) :
    readKeys (flatParams (params src maxTokenLength)) h f
      = .ok ({ h with
          version := 1
          vocabSize := ((src.tokens.length : Int) % 2 ^ 32).toNat
          maxTokenLength := ((maxTokenLength : Int) % 2 ^ 32).toNat
          bosId
          chatTemplateLength :=
            if src.chatTemplate = [] then -1 else (src.chatTemplate.length : Int)
          nEosTokens := src.eosTokens.length
          addBos := src.addBos }, f) := by
  rw [params, hbos]
  have haddBos : ((if src.addBos then (1 : Int) else 0) == 1) = src.addBos := by
    cases src.addBos <;> rfl
  by_cases hempty : src.chatTemplate = []
  · rw [if_pos hempty, if_pos hempty, ← htemplate]
    simp only [flatParams, List.append_nil, List.cons_append, List.nil_append, List.flatMap_cons,
      List.flatMap_nil, HeaderParam.key, readKeys, readKey, bind, Except.bind]
    simp [haddBos]
  · rw [if_neg hempty, if_neg hempty]
    simp only [flatParams, List.cons_append, List.nil_append, List.flatMap_cons,
      List.flatMap_nil, HeaderParam.key, readKeys, readKey, bind, Except.bind]
    simp [haddBos]

theorem readEosTokens_at (h : packInts values = some data) (before rest : List UInt8) :
    readEosTokens values.length (File.at before (data ++ rest))
      = .ok (values, File.at (before ++ data) rest) := by
  induction values generalizing data before with
  | nil =>
      cases h
      rw [List.append_nil]
      rfl
  | cons value values ih =>
      simp only [packInts, Option.bind_eq_bind, Option.bind_eq_some_iff, pure] at h
      rcases h with ⟨val, hval, data', hdata', hdata⟩
      cases hdata
      rw [List.append_assoc, List.length_cons, readEosTokens, freadInt_at hval]
      simp only [bind, Except.bind]
      rw [ih hdata', List.append_assoc]
      rfl

/-- `nKv` is the number of keys and values. -/
theorem nKvOf_eq {n : Nat} (h : n < 2 ^ 29) : nKvOf ((8 + 4 * n : Nat) : Int) = n := by
  rw [nKvOf]
  have hdiv : (((8 + 4 * n : Nat) : Int) - 8) % 2 ^ 64 / 4 = n := by omega
  rw [hdiv]
  exact i32_of_lt (by omega) (by omega)

theorem flatParams_length (src : Source) (bosId : Int) (hbos : src.bosId = some bosId)
    (maxTokenLength : Nat) :
    1 ≤ (flatParams (params src maxTokenLength)).length ∧
      (flatParams (params src maxTokenLength)).length ≤ 14 := by
  rw [params, hbos]
  by_cases hempty : src.chatTemplate = []
  · rw [if_pos hempty]
    exact ⟨Nat.le_add_left 1 11, Nat.le_add_right 12 2⟩
  · rw [if_neg hempty]
    exact ⟨Nat.le_add_left 1 13, Nat.le_refl 14⟩

theorem readChatTemplate_at {template : List UInt8} (hlt : template.length < 2 ^ 31)
    (before rest : List UInt8) :
    readChatTemplate (if template = [] then -1 else (template.length : Int))
        (File.at before (template ++ rest))
      = if template.length = 2 ^ 31 - 1 then .error "bad_array_new_length"
        else .ok (if template = [] then none else some (template ++ [0]),
          File.at (before ++ template) rest) := by
  rw [readChatTemplate]
  by_cases hempty : template = []
  · subst hempty
    rw [if_pos rfl, if_pos rfl, if_neg (by decide), if_neg (by decide), List.append_nil]
    rfl
  · have hlen : template.length ≠ 0 := fun h => hempty (List.length_eq_zero_iff.1 h)
    have hpos : (0 : Int) < (template.length : Int) := by omega
    rw [if_neg hempty, if_neg hempty, if_pos hpos, newChars_eq hlt, sizeOfInt_eq hlt,
      fread_at hempty]
    by_cases hmax : template.length = 2 ^ 31 - 1
    · rw [if_pos hmax, if_pos hmax]
      rfl
    · rw [if_neg hmax, if_neg hmax]
      rfl

/-- The part of the file between the magic number and the vocabulary. -/
theorem readHeader_at {src : Source} {bosId : Int} (hbos : src.bosId = some bosId)
    {maxTokenLength : Nat} {h : Header} (hold : h.chatTemplateLength = -1)
    (hlt : src.chatTemplate.length < 2 ^ 31) {headerSize eosTokens : List UInt8}
    (hdata : packParams (params src maxTokenLength) = some data)
    (hsize : packInt (4 * 2 + data.length : Nat) = some headerSize)
    (heos : packInts src.eosTokens = some eosTokens) (before rest : List UInt8) :
    readHeader h (File.at before
        (headerSize ++ (data ++ (src.chatTemplate ++ (eosTokens ++ rest)))))
      = if src.chatTemplate.length = 2 ^ 31 - 1 then .error "bad_array_new_length"
        else .ok ({ h with
            version := 1
            vocabSize := ((src.tokens.length : Int) % 2 ^ 32).toNat
            maxTokenLength := ((maxTokenLength : Int) % 2 ^ 32).toNat
            bosId
            chatTemplateLength :=
              if src.chatTemplate = [] then -1 else (src.chatTemplate.length : Int)
            nEosTokens := src.eosTokens.length
            addBos := src.addBos
            eosTokenIds := h.eosTokenIds ++ src.eosTokens },
          if src.chatTemplate = [] then none else some (src.chatTemplate ++ [0]),
          File.at (before ++ headerSize ++ data ++ src.chatTemplate ++ eosTokens) rest) := by
  rcases ints_packParams hdata with ⟨hints, hlen⟩
  rcases flatParams_length src bosId hbos maxTokenLength with ⟨hone, hmany⟩
  generalize hn : (flatParams (params src maxTokenLength)).length = n at hlen hone hmany
  have hne : data ≠ [] := by
    rintro rfl
    rw [List.length_nil] at hlen
    omega
  have hread := fread_at hne (before ++ headerSize)
    (src.chatTemplate ++ (eosTokens ++ rest)) "Cannot read header values"
  have hnKv : nKvOf ((4 * 2 + data.length : Nat) : Int) = n := by
    rw [hlen]
    exact nKvOf_eq (by omega)
  have hsizeof : (n : Int).toNat * 4 = data.length := by
    rw [Int.toNat_natCast, hlen, Nat.mul_comm]
  have hpositive : ¬(n : Int) < 0 := by omega
  have hkeys := @readKeys_params src bosId hbos maxTokenLength h hold
    (File.at (before ++ headerSize ++ data) (src.chatTemplate ++ (eosTokens ++ rest)))
  rw [readHeader, freadInt_at hsize]
  simp only [bind, Except.bind]
  rw [hnKv, if_neg hpositive]
  rw [hsizeof, hread]
  simp only
  rw [hints, hkeys]
  simp only [ne_eq, not_true_eq_false, if_false]
  rw [readChatTemplate_at hlt]
  by_cases hmax : src.chatTemplate.length = 2 ^ 31 - 1
  · rw [if_pos hmax, if_pos hmax]
  · rw [if_neg hmax, if_neg hmax]
    simp only [Int.toNat_natCast]
    rw [readEosTokens_at heos]
    rfl

/-! ## The vocabulary -/

theorem readEntry_at {token : List UInt8} {score : UInt32} (hpos : 0 < token.length)
    (hlt : token.length < 2 ^ 31) (before rest : List UInt8) :
    readEntry (File.at before
        (leBytes 4 score.toNat ++ (leBytes 4 token.length ++ (token ++ rest))))
      = if token.length = 2 ^ 31 - 1 then .error "bad_array_new_length"
        else .ok (⟨score, token.length, token ++ [0]⟩,
          File.at (before ++ leBytes 4 score.toNat ++ leBytes 4 token.length ++ token) rest) := by
  have hint : packInt token.length = some (leBytes 4 token.length) := by
    have hfits : -2 ^ 31 ≤ (token.length : Int) ∧ (token.length : Int) < 2 ^ 31 := by omega
    have hmod : ((token.length : Int) % 2 ^ 32).toNat = token.length := by omega
    rw [packInt, if_pos hfits, hmod]
  have hscore : UInt32.ofNat (ofLeBytes (leBytes 4 score.toNat)) = score := by
    have hmod : score.toNat % 256 ^ 4 = score.toNat := Nat.mod_eq_of_lt score.toNat_lt
    rw [ofLeBytes_leBytes, hmod, UInt32.ofNat_toNat]
  have hne : token ≠ [] := List.length_pos_iff.1 hpos
  have hscorene : leBytes 4 score.toNat ≠ [] := by
    intro h
    have hlen := leBytes_length 4 score.toNat
    rw [h] at hlen
    cases hlen
  have hread := fread_at hscorene before (leBytes 4 token.length ++ (token ++ rest))
    "Cannot read size from tokenizer file"
  rw [leBytes_length] at hread
  rw [readEntry, hread, ok_bind]
  dsimp only
  rw [freadInt_at hint, ok_bind]
  dsimp only
  rw [newChars_eq hlt]
  by_cases hmax : token.length = 2 ^ 31 - 1
  · rw [if_pos hmax, if_pos hmax, error_bind]
  · have hmod : ((token.length : Int) % 2 ^ 32).toNat = token.length := by omega
    rw [if_neg hmax, if_neg hmax, ok_bind, sizeOfInt_eq hlt, fread_at hne, ok_bind]
    dsimp only
    rw [hscore, hmod]
    rfl

/-- The vocabulary as the reader keeps it. -/
def entries (tokens : List (List UInt8)) (scores : List UInt32) : List Entry :=
  List.zipWith (fun token score => ⟨score, token.length, token ++ [0]⟩) tokens scores

/-- The reader gets through the vocabulary unless a text has the length of the largest `int`. -/
theorem readVocab_at {tokens : List (List UInt8)} {scores : List UInt32}
    (h : packTokens tokens scores = some data) (hlt : ∀ token ∈ tokens, token.length < 2 ^ 31)
    (before rest : List UInt8) :
    ((∀ token ∈ tokens, token.length ≠ 2 ^ 31 - 1) →
        readVocab tokens.length (File.at before (data ++ rest))
          = .ok (entries tokens scores, File.at (before ++ data) rest)) ∧
      ((∃ token ∈ tokens, token.length = 2 ^ 31 - 1) →
        ∃ error, readVocab tokens.length (File.at before (data ++ rest)) = .error error) := by
  induction tokens generalizing scores data before with
  | nil =>
      cases h
      refine ⟨fun _ => ?_, ?_⟩
      · rw [List.append_nil]
        rfl
      · rintro ⟨token, htoken, -⟩
        cases htoken
  | cons token tokens ih =>
      cases scores with
      | nil => cases h
      | cons score scores =>
          simp only [packTokens, guard, Option.bind_eq_bind, Option.bind_eq_some_iff, pure] at h
          rcases h with ⟨_, hguard, data', hdata', hdata⟩
          have hpos : 0 < token.length := by
            by_contra hzero
            rw [if_neg (fun hboth => hzero hboth.1)] at hguard
            cases hguard
          cases hdata
          have hentry := @readEntry_at token score hpos (hlt token List.mem_cons_self) before
            (data' ++ rest)
          rcases ih hdata' (fun x hx => hlt x (List.mem_cons_of_mem token hx))
            (before ++ leBytes 4 score.toNat ++ leBytes 4 token.length ++ token)
            with ⟨hok, hbad⟩
          rw [List.length_cons, readVocab]
          simp only [List.append_assoc] at hentry hok hbad ⊢
          rw [hentry]
          refine ⟨?_, ?_⟩
          · intro hall
            rw [if_neg (hall token List.mem_cons_self)]
            simp only [bind, Except.bind]
            rw [hok fun x hx => hall x (List.mem_cons_of_mem token hx)]
            rfl
          · rintro ⟨x, hx, hmax⟩
            by_cases htoken : token.length = 2 ^ 31 - 1
            · rw [if_pos htoken]
              exact ⟨_, rfl⟩
            · rw [if_neg htoken]
              rcases List.mem_cons.1 hx with rfl | hx
              · exact absurd hmax htoken
              · rcases hbad ⟨x, hx, hmax⟩ with ⟨error, herror⟩
                simp only [bind, Except.bind]
                rw [herror]
                exact ⟨error, rfl⟩

/-- The two arrays for a `bosId` inside the vocabulary. -/
theorem splitVocab_eq {h : Header} {vocab : List Entry} (hnonneg : 0 ≤ h.bosId)
    (hlt : h.bosId < 2 ^ 31) (hle : h.bosId.toNat ≤ vocab.length) :
    ∃ regular special, splitVocab h vocab = .ok (regular, special) ∧
      (regular.map TokenIndex.id).Perm (List.range h.bosId.toNat) ∧
      special.map TokenIndex.id
        = List.range' h.bosId.toNat (vocab.length - h.bosId.toNat) ∧
      ∀ x ∈ regular ++ special, (vocab.map Entry.str)[x.id]? = some x.str := by
  have hsize : (h.bosId % 2 ^ 32).toNat = h.bosId.toNat := by omega
  generalize hn : h.bosId.toNat = n at hsize hle
  let index : List TokenIndex := vocab.zipIdx.map fun entry => ⟨entry.1.str, entry.2⟩
  have hids : index.map TokenIndex.id = List.range' 0 vocab.length := by
    rw [List.map_map]
    exact List.zipIdx_map_snd 0 vocab
  have hstrings : ∀ x ∈ index, (vocab.map Entry.str)[x.id]? = some x.str := by
    intro x hx
    rcases List.mem_map.1 hx with ⟨entry, hentry, rfl⟩
    rw [List.getElem?_map, List.mem_zipIdx_iff_getElem?.1 hentry]
    rfl
  have hfits : ¬vocab.length < n := Nat.not_lt.2 hle
  have hperm := List.mergeSort_perm (index.take n) fun a b => strLe a.str b.str
  refine ⟨(index.take n).mergeSort fun a b => strLe a.str b.str, index.drop n, ?_, ?_, ?_, ?_⟩
  · rw [splitVocab]
    simp only [hsize, if_neg hfits]
    rfl
  · have hrange : (index.take n).map TokenIndex.id = List.range n := by
      rw [List.map_take, hids, List.range_eq_range', List.take_range'_of_length_ge hle]
    rw [← hrange]
    exact hperm.map TokenIndex.id
  · rw [List.map_drop, hids, List.drop_range', Nat.zero_add, Nat.mul_one]
  · intro x hx
    apply hstrings
    rcases List.mem_append.1 hx with hx | hx
    · exact List.mem_of_mem_take (hperm.mem_iff.1 hx)
    · exact List.mem_of_mem_drop hx

/-! ## The whole file -/

theorem packParams_fits {params : List (HeaderParam × Option Int)}
    (h : packParams params = some data) {param : HeaderParam}
    (hmem : (param, some value) ∈ params) : -2 ^ 31 ≤ value ∧ value < 2 ^ 31 := by
  induction params generalizing data with
  | nil => cases hmem
  | cons p params ih =>
      rcases p with ⟨param', _ | value'⟩
      · rcases List.mem_cons.1 hmem with hmem | hmem
        · cases hmem
        · exact ih h hmem
      · simp only [packParams, Option.bind_eq_bind, Option.bind_eq_some_iff] at h
        rcases h with ⟨key, -, val, hval, rest, hrest, -⟩
        rcases List.mem_cons.1 hmem with hmem | hmem
        · cases hmem
          rw [packInt] at hval
          split_ifs at hval with hfits
          exact hfits
        · exact ih hrest hmem

/-- The pieces of a file. -/
structure Pieces (src : Source) (bytes : List UInt8) where
  magic : List UInt8
  headerSize : List UInt8
  data : List UInt8
  eosTokens : List UInt8
  tokens : List UInt8
  maxTokenLength : Nat
  magic_eq : packInt 0x567124 = some magic
  max_eq : (src.tokens.map List.length).max? = some maxTokenLength
  data_eq : packParams (params src maxTokenLength) = some data
  size_eq : packInt (4 * 2 + data.length : Nat) = some headerSize
  eos_eq : packInts src.eosTokens = some eosTokens
  tokens_eq : packTokens src.tokens src.scores = some tokens
  bytes_eq : bytes
    = magic ++ (headerSize ++ (data ++ (src.chatTemplate ++ (eosTokens ++ (tokens ++ [])))))

theorem pieces_of_write {src : Source} {bytes : List UInt8} (h : writeTokenizer src = some bytes) :
    Nonempty (Pieces src bytes) := by
  simp only [writeTokenizer, Option.bind_eq_bind, Option.bind_eq_some_iff, pure] at h
  rcases h with ⟨magic, hmagic, max, hmax, data, hdata, size, hsize, eos, heos, tokens, htokens,
    hbytes⟩
  rw [(packInt_some hmagic).1] at hsize
  refine ⟨⟨magic, size, data, eos, tokens, max, hmagic, hmax, hdata, hsize, heos, htokens, ?_⟩⟩
  cases hbytes
  simp only [List.append_assoc, List.append_nil]

theorem write_of_pieces {src : Source} {magic data size eos tokens : List UInt8} {max : Nat}
    (hmagic : packInt 0x567124 = some magic) (hmax : (src.tokens.map List.length).max? = some max)
    (hdata : packParams (params src max) = some data)
    (hsize : packInt (4 * 2 + data.length : Nat) = some size)
    (heos : packInts src.eosTokens = some eos)
    (htokens : packTokens src.tokens src.scores = some tokens) :
    writeTokenizer src = some (magic ++ size ++ data ++ src.chatTemplate ++ eos ++ tokens) := by
  rw [← (packInt_some hmagic).1] at hsize
  simp only [writeTokenizer, Option.bind_eq_bind, Option.bind_eq_some_iff, pure]
  exact ⟨magic, hmagic, max, hmax, data, hdata, size, hsize, eos, heos, tokens, htokens, rfl⟩

namespace Pieces

variable {src : Source} {bytes : List UInt8}

theorem token_lt (p : Pieces src bytes) {token : List UInt8} (h : token ∈ src.tokens) :
    token.length ≤ p.maxTokenLength ∧ p.maxTokenLength < 2 ^ 31 := by
  have hle := (List.max?_eq_some_iff.1 p.max_eq).2 _ (List.mem_map_of_mem h)
  have hmem : (HeaderParam.maxTokenLength, some (p.maxTokenLength : Int))
      ∈ params src p.maxTokenLength := by
    rw [params]
    simp only [List.mem_append, List.mem_cons, true_or, or_true]
  have hfits := (packParams_fits p.data_eq hmem).2
  exact ⟨hle, by omega⟩

theorem vocabSize_lt (p : Pieces src bytes) : src.tokens.length < 2 ^ 31 := by
  have hmem : (HeaderParam.vocabSize, some (src.tokens.length : Int))
      ∈ params src p.maxTokenLength := by
    rw [params]
    simp only [List.mem_append, List.mem_cons, true_or, or_true]
  have hfits := (packParams_fits p.data_eq hmem).2
  omega

theorem template_lt (p : Pieces src bytes) : src.chatTemplate.length < 2 ^ 31 := by
  by_cases hempty : src.chatTemplate = []
  · rw [hempty]
    decide
  · have hmem : (HeaderParam.chatTemplate, some (src.chatTemplate.length : Int))
        ∈ params src p.maxTokenLength := by
      rw [params, if_neg hempty]
      simp only [List.mem_append, List.mem_cons, true_or, or_true]
    have hfits := (packParams_fits p.data_eq hmem).2
    omega

theorem maxTokenLength_pos (p : Pieces src bytes) : 1 ≤ p.maxTokenLength := by
  rcases List.mem_map.1 (List.max?_eq_some_iff.1 p.max_eq).1 with ⟨token, htoken, hlen⟩
  have htokens := p.tokens_eq
  by_contra hzero
  -- the longest text is empty, which the writer does not let pass
  cases htext : src.tokens with
  | nil =>
      rw [htext] at htoken
      cases htoken
  | cons first rest =>
      have hfirst : first ∈ src.tokens := by
        rw [htext]
        exact List.mem_cons_self
      have hle := (p.token_lt hfirst).1
      rw [htext] at htokens
      cases hscores : src.scores with
      | nil =>
          rw [hscores] at htokens
          cases htokens
      | cons score scores =>
          rw [hscores] at htokens
          simp only [packTokens, guard, Option.bind_eq_bind, Option.bind_eq_some_iff] at htokens
          rcases htokens with ⟨_, hguard, -⟩
          have hempty : ¬(0 < first.length ∧ first.length < 2 ^ 32) := by omega
          rw [if_neg hempty] at hguard
          cases hguard

end Pieces

theorem entries_map {tokens : List (List UInt8)} {scores : List UInt32}
    (h : scores.length = tokens.length) :
    (entries tokens scores).map Entry.str = tokens.map (· ++ [0]) ∧
      (entries tokens scores).map Entry.length = tokens.map List.length ∧
      (entries tokens scores).map Entry.score = scores := by
  induction tokens generalizing scores with
  | nil => exact ⟨rfl, rfl, (List.length_eq_zero_iff.1 h).symm⟩
  | cons token tokens ih =>
      cases scores with
      | nil => cases h
      | cons score scores =>
          rcases ih (Nat.succ.inj h) with ⟨hstr, hlen, hscore⟩
          exact ⟨congrArg _ hstr, congrArg _ hlen, congrArg _ hscore⟩

/-- No text and no template has the length of the largest `int`. -/
def Source.Allocates (src : Source) : Prop :=
  (∀ token ∈ src.tokens, token.length ≠ 2 ^ 31 - 1) ∧ src.chatTemplate.length ≠ 2 ^ 31 - 1

/-- What the constructor does with a file of the writer. -/
theorem readTokenizer_file {src : Source} {bytes : List UInt8} {bosId : Int}
    (hwrite : writeTokenizer src = some bytes) (hscores : src.scores.length = src.tokens.length)
    (hbos : src.bosId = some bosId) (hnonneg : 0 ≤ bosId) (hinside : bosId < src.tokens.length)
    (vocabSize : Nat) (addBos : Bool) :
    (src.Allocates →
        ∃ t, readTokenizer vocabSize addBos bytes = .ok t ∧ RoundTrips src bytes t) ∧
      (¬src.Allocates → ∃ error, readTokenizer vocabSize addBos bytes = .error error) := by
  rcases pieces_of_write hwrite with ⟨p⟩
  have hvocab := p.vocabSize_lt
  have hvocabSize : ((src.tokens.length : Int) % 2 ^ 32).toNat = src.tokens.length := by omega
  have hmaxlt : p.maxTokenLength < 2 ^ 31 := by
    rcases List.mem_map.1 (List.max?_eq_some_iff.1 p.max_eq).1 with ⟨token, htoken, -⟩
    exact (p.token_lt htoken).2
  have hmaxpos := p.maxTokenLength_pos
  have hmax : ¬((p.maxTokenLength : Int) % 2 ^ 32).toNat < 1 := by omega
  have hheader := @readHeader_at _ src bosId hbos p.maxTokenLength
    ⟨vocabSize, 0, -1, addBos, [], -1, -1, 0⟩ rfl p.template_lt _ _ p.data_eq p.size_eq p.eos_eq
    ([] ++ p.magic) (p.tokens ++ [])
  rcases readVocab_at p.tokens_eq
    (fun token htoken => Nat.lt_of_le_of_lt (p.token_lt htoken).1 (p.token_lt htoken).2)
    ([] ++ p.magic ++ p.headerSize ++ p.data ++ src.chatTemplate ++ p.eosTokens) []
    with ⟨hok, hbad⟩
  have hfile : (⟨bytes, 0⟩ : File) = File.at []
      (p.magic ++ (p.headerSize ++ (p.data ++ (src.chatTemplate ++ (p.eosTokens
        ++ (p.tokens ++ [])))))) :=
    congrArg (fun bytes => (⟨bytes, 0⟩ : File)) p.bytes_eq
  rw [readTokenizer]
  dsimp only
  rw [hfile, freadInt_at p.magic_eq, ok_bind]
  dsimp only
  rw [readAnyHeader, if_neg (by decide), if_pos rfl, hheader]
  by_cases htemplate : src.chatTemplate.length = 2 ^ 31 - 1
  · rw [if_pos htemplate, error_bind]
    exact ⟨fun h => absurd htemplate h.2, fun _ => ⟨_, rfl⟩⟩
  · rw [if_neg htemplate, ok_bind]
    dsimp only
    rw [if_neg hmax, hvocabSize]
    refine ⟨?_, ?_⟩
    · rintro ⟨htokens, -⟩
      rw [hok htokens]
      rcases entries_map hscores with ⟨hstr, hlen, hscore⟩
      have hcount : (entries src.tokens src.scores).length = src.tokens.length := by
        rw [← List.length_map (f := Entry.str), hstr, List.length_map]
      generalize hheader' : Header.mk _ _ _ _ _ _ _ _ = header
      have hheaderBos : header.bosId = bosId := hheader' ▸ rfl
      have hbosnonneg : 0 ≤ header.bosId := hheaderBos.symm ▸ hnonneg
      have hboslt : header.bosId < 2 ^ 31 := by omega
      have hle : header.bosId.toNat ≤ (entries src.tokens src.scores).length := by omega
      rcases splitVocab_eq hbosnonneg hboslt hle
        with ⟨regular, special, hsplit, hregular, hspecial, hstrings⟩
      rw [hheaderBos] at hregular hspecial
      rw [ok_bind, ok_bind, hsplit, ok_bind]
      refine ⟨_, rfl, ⟨hstr, hlen, hscore, hbos.symm, rfl, List.nil_append _, rfl, ?_, hregular,
        ?_, ?_⟩⟩
      · apply Eq.trans _ (congrArg List.length p.bytes_eq).symm
        simp only [File.at, List.nil_append, List.append_nil, List.append_assoc]
      · rw [hspecial, hcount]
      · rw [← hstr]
        exact hstrings
    · intro hnot
      have hlong : ∃ token ∈ src.tokens, token.length = 2 ^ 31 - 1 := by
        by_contra hnone
        exact hnot ⟨fun token htoken hlen => hnone ⟨token, htoken, hlen⟩, htemplate⟩
      rcases hbad hlong with ⟨error, herror⟩
      rw [herror]
      exact ⟨error, rfl⟩

/-- The constructor gets back what was written exactly if the memory for each text can be asked for.
`vocabSize` and `addBos` are what the members hold before. -/
theorem readTokenizer_roundTrips_iff {src : Source} {bytes : List UInt8} {bosId : Int}
    (hwrite : writeTokenizer src = some bytes) (hscores : src.scores.length = src.tokens.length)
    (hbos : src.bosId = some bosId) (hnonneg : 0 ≤ bosId) (hinside : bosId < src.tokens.length)
    (vocabSize : Nat) (addBos : Bool) :
    (∃ t, readTokenizer vocabSize addBos bytes = .ok t ∧ RoundTrips src bytes t)
      ↔ src.Allocates := by
  rcases readTokenizer_file hwrite hscores hbos hnonneg hinside vocabSize addBos with ⟨hok, hbad⟩
  constructor
  · rintro ⟨t, ht, -⟩
    by_contra hnot
    rcases hbad hnot with ⟨error, herror⟩
    rw [herror] at ht
    cases ht
  · exact hok

/-- Two texts, the first one of `n` bytes. -/
def longSource (n : Nat) : Source :=
  ⟨[List.replicate n 97, [98]], [0, 0], [], some 1, true, [1]⟩

theorem packInt_isSome (hlo : -2 ^ 31 ≤ value) (hhi : value < 2 ^ 31) :
    ∃ data, packInt value = some data := by
  rw [packInt, if_pos ⟨hlo, hhi⟩]
  exact ⟨_, rfl⟩

theorem packParams_isSome {params : List (HeaderParam × Option Int)}
    (h : ∀ p ∈ params, ∀ value, p.2 = some value → -2 ^ 31 ≤ value ∧ value < 2 ^ 31) :
    ∃ data, packParams params = some data := by
  induction params with
  | nil => exact ⟨[], rfl⟩
  | cons p params ih =>
      rcases ih fun q hq => h q (List.mem_cons_of_mem p hq) with ⟨data, hdata⟩
      rcases p with ⟨param, _ | value⟩
      · exact ⟨data, hdata⟩
      · rcases h (param, some value) List.mem_cons_self value rfl with ⟨hlo, hhi⟩
        rcases packInt_isSome hlo hhi with ⟨val, hval⟩
        have hkey : ∃ key, packInt param.key = some key := by
          cases param <;> exact packInt_isSome (by decide) (by decide)
        rcases hkey with ⟨key, hkey⟩
        refine ⟨key ++ val ++ data, ?_⟩
        rw [packParams, hkey, hval, hdata]
        rfl

theorem longSource_max {n : Nat} (hpos : 0 < n) :
    ((longSource n).tokens.map List.length).max? = some n := by
  have hmap : (longSource n).tokens.map List.length = [n, 1] := by
    simp only [longSource, List.map_cons, List.map_nil, List.length_replicate,
      List.length_singleton]
  rw [hmap, List.max?_eq_some_iff]
  refine ⟨List.mem_cons_self, ?_⟩
  intro m hm
  rcases List.mem_cons.1 hm with rfl | hm
  · exact Nat.le_refl _
  · rw [List.mem_singleton.1 hm]
    exact hpos

theorem longSource_params {n : Nat} (hlt : n < 2 ^ 31) :
    ∃ data, packParams (params (longSource n) n) = some data := by
  apply packParams_isSome
  intro p hp value hvalue
  simp only [params, longSource, if_true, List.append_nil, List.mem_append, List.mem_cons,
    List.not_mem_nil, or_false] at hp
  rcases hp with (rfl | rfl | rfl | rfl) | rfl | rfl <;> cases hvalue
  · omega
  · omega
  · simp only [List.length_cons, List.length_nil]
    omega
  · omega
  · simp only [List.length_cons, List.length_nil]
    omega
  · omega

theorem longSource_tokens {n : Nat} (hpos : 0 < n) (hlt : n < 2 ^ 31) :
    ∃ tokens, packTokens (longSource n).tokens (longSource n).scores = some tokens := by
  have hguard : 0 < (List.replicate n (97 : UInt8)).length
      ∧ (List.replicate n (97 : UInt8)).length < 2 ^ 32 := by
    rw [List.length_replicate]
    omega
  rw [longSource]
  dsimp only
  rw [packTokens, guard, if_pos hguard]
  exact ⟨_, rfl⟩

/-- The writer writes a text of any length that an `int` can hold. -/
theorem longSource_written {n : Nat} (hpos : 0 < n) (hlt : n < 2 ^ 31) :
    ∃ bytes, writeTokenizer (longSource n) = some bytes := by
  rcases longSource_params hlt with ⟨data, hdata⟩
  rcases longSource_tokens hpos hlt with ⟨tokens, htokens⟩
  have hlen := (ints_packParams hdata).2
  have hcount := (flatParams_length (longSource n) 1 rfl n).2
  have hsize : ∃ size, packInt ((4 * 2 + data.length : Nat) : Int) = some size :=
    packInt_isSome (by omega) (by omega)
  rcases hsize with ⟨size, hsize⟩
  have hmagic : ∃ magic, packInt 0x567124 = some magic :=
    packInt_isSome (by decide) (by decide)
  rcases hmagic with ⟨magic, hmagic⟩
  have heos : ∃ eos, packInts (longSource n).eosTokens = some eos := ⟨_, rfl⟩
  rcases heos with ⟨eos, heos⟩
  have hwrite := write_of_pieces hmagic (longSource_max hpos) hdata hsize heos htokens
  exact ⟨_, hwrite⟩

/-- Three texts and a template. -/
def shortSource : Source :=
  ⟨[[97], [98], [60, 62]], [1, 2, 3], [123], some 2, true, [2]⟩

theorem readTokenizer_roundTrips_short :
    ∃ bytes t, writeTokenizer shortSource = some bytes ∧ readTokenizer 0 false bytes = .ok t ∧
      RoundTrips shortSource bytes t := by
  have hwrite : writeTokenizer shortSource = some ((writeTokenizer shortSource).getD []) := rfl
  rcases (readTokenizer_roundTrips_iff hwrite rfl rfl (by decide) (by decide) 0 false).2
    ⟨by decide, by decide⟩ with ⟨t, ht, hroundTrips⟩
  exact ⟨_, t, hwrite, ht, hroundTrips⟩

/-- A text of 2³¹ − 1 bytes is written, and the constructor throws. -/
theorem not_roundTrips_long :
    ∃ bytes, writeTokenizer (longSource (2 ^ 31 - 1)) = some bytes ∧
      ¬∃ t, readTokenizer 0 false bytes = .ok t := by
  rcases longSource_written (n := 2 ^ 31 - 1) (by decide) (by decide) with ⟨bytes, hwrite⟩
  refine ⟨bytes, hwrite, ?_⟩
  have hnot : ¬(longSource (2 ^ 31 - 1)).Allocates := by
    rintro ⟨hall, -⟩
    exact hall _ List.mem_cons_self List.length_replicate
  rcases (readTokenizer_file hwrite rfl rfl (by decide) (by decide) 0 false).2 hnot
    with ⟨error, herror⟩
  rintro ⟨t, ht⟩
  rw [herror] at ht
  cases ht

end TokenizerFile
end PrefillOpt
