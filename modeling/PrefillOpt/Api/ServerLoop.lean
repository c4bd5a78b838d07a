import PrefillOpt.Api.HttpRequest

/-!
# Api.ServerLoop — one turn of the accept loop

`HttpRequest::read`, `Router::resolve` and the loop of `server` in `dllama-api.cpp`.  The loop
catches the exceptions of a transfer and `main` those of the executor; what else is thrown ends the
process.
-/

namespace PrefillOpt
namespace Api

open Lib Gateway

/-! ## Parsing a request -/

inductive HttpMethod where
  | get
  | post
  | put
  | delete
  | options
  | unknown
deriving DecidableEq, Repr

def parseMethod (method : List UInt8) : HttpMethod :=
  if method = ascii "GET" then .get
  else if method = ascii "POST" then .post
  else if method = ascii "PUT" then .put
  else if method = ascii "DELETE" then .delete
  else if method = ascii "OPTIONS" then .options
  else .unknown

/-- What may be thrown in a turn. -/
inductive ApiError where
  | http (e : HttpError)
  /-- `json::parse_error` -/
  | jsonParse
  /-- `NnTransferSocketException` -/
  | transferSocket
  /-- `NnExecutorException` -/
  | executor
deriving DecidableEq, Repr

/-- `J` is the type of JSON values. -/
structure HttpRequest (J : Type) where
  method : HttpMethod
  path : List UInt8
  -- in the order of the lines; of two values with one key the later counts
  headers : List (List UInt8 × List UInt8)
  body : List UInt8
  parsedJson : Option J

/-- `std::getline`: the line and what is left; `none` at the end. -/
def getline (iss : List UInt8) : Option (List UInt8 × List UInt8) :=
  if iss = [] then none
  else some (iss.takeWhile (· ≠ 10), (iss.dropWhile (· ≠ 10)).tail)

/-- `lineStream >> s` -/
def extract (lineStream : List UInt8) : List UInt8 × List UInt8 :=
  let s := lineStream.dropWhile isSpace
  (s.takeWhile fun c => !isSpace c, s.dropWhile fun c => !isSpace c)

/-- Without whitespace and what is not printable. -/
def trimValue (value : List UInt8) : List UInt8 :=
  value.filter fun c => !(isSpace c || !(32 ≤ c && c ≤ 126))

/-- The loop over the header lines, and what is left of the stream. -/
def parseHeaders :
    Nat → List UInt8 → Except HttpError (List (List UInt8 × List UInt8) × List UInt8)
  | 0, iss => .ok ([], iss)
  | fuel + 1, iss =>
      match getline iss with
      | none => .ok ([], [])
      | some (line, iss) =>
          if line = [13] then .ok ([], iss)
          else
            match line.idxOf? 58 with
            | none => parseHeaders fuel iss
            | some pos =>
                -- `line.substr(pos + 2)`
                if line.length < pos + 2 then .error .outOfRange
                else
                  match parseHeaders fuel iss with
                  | .error e => .error e
                  | .ok (headers, iss) =>
                      .ok ((line.take pos, trimValue (line.drop (pos + 2))) :: headers, iss)

/-- `HttpRequest::read` on a socket; `jsonParse` is `json::parse`. -/
def HttpRequest.read {J : Type} (jsonParse : List UInt8 → Option J)
    (serverSocket : List (List UInt8)) : Except ApiError (HttpRequest J) :=
  match readHttpRequest serverSocket with
  | .error e => .error (.http e)
  | .ok (data, _) =>
      let (line, iss) := (getline data).getD ([], [])
      let (methodStr, lineStream) := extract line
      let method := parseMethod methodStr
      let path := (extract lineStream).1
      match parseHeaders (data.length + 1) iss with
      | .error e => .error (.http e)
      | .ok (headers, iss) =>
          let body := cstring iss
          if body = [] then .ok ⟨method, path, headers, body, none⟩
          else
            match jsonParse body with
            | none => .error .jsonParse
            | some json => .ok ⟨method, path, headers, body, some json⟩

/-! ## Answering it -/

/-- A client: the pieces that `recv` finds until the close or the error, and the answers that it
takes. -/
structure Client where
  pieces : List (List UInt8)
  pieces_ne_nil : ∀ piece ∈ pieces, piece ≠ []
  accepts : List UInt8 → Bool

def writeSocket (client : Client) (data : List UInt8) : Except ApiError (List UInt8) :=
  if client.accepts data then .ok data else .error .transferSocket

def writeCors (client : Client) : Except ApiError (List UInt8) :=
  writeSocket client <| ascii <|
    "HTTP/1.1 204 No Content\r\n" ++
    "Access-Control-Allow-Origin: *\r\n" ++
    "Access-Control-Allow-Methods: GET, POST, PUT, DELETE\r\n" ++
    "Access-Control-Allow-Headers: Content-Type, Authorization\r\n" ++
    "Connection: close\r\n" ++
    "\r\n"

def writeNotFound (client : Client) : Except ApiError (List UInt8) :=
  writeSocket client <| ascii <|
    "HTTP/1.1 404 Not Found\r\n" ++
    "Connection: close\r\n" ++
    "Content-Length: 9\r\n" ++
    "\r\n" ++
    "Not Found"

def writeJson (client : Client) (json : List UInt8) : Except ApiError (List UInt8) :=
  writeSocket client <|
    ascii ("HTTP/1.1 200 OK\r\n" ++
      "Access-Control-Allow-Origin: *\r\n" ++
      "Content-Type: application/json; charset=utf-8\r\n" ++
      "Connection: close\r\n" ++
      "Content-Length: " ++ toString json.length ++ "\r\n\r\n") ++ json

structure Route (J : Type) where
  path : List UInt8
  method : HttpMethod
  handler : HttpRequest J → Except ApiError (List UInt8)

/-- What the handlers need: `json::parse`, the completions, and the list of models as text.  The
name of the model is taken to be valid UTF-8, so that `dump` of the list does not throw. -/
structure ApiContext (J : Type) where
  jsonParse : List UInt8 → Option J
  complete : Client → HttpRequest J → Except ApiError (List UInt8)
  modelsJson : List UInt8

variable {J : Type}

def routes (ctx : ApiContext J) (client : Client) : List (Route J) :=
  [⟨ascii "/v1/chat/completions", .post, ctx.complete client⟩,
    ⟨ascii "/v1/models", .get, fun _ => writeJson client ctx.modelsJson⟩]

def resolve (client : Client) (request : HttpRequest J) (routes : List (Route J)) :
    Except ApiError (List UInt8) :=
  if request.method = .options then writeCors client
  else
    match routes.find? fun route => request.method = route.method ∧ request.path = route.path with
    | some route => route.handler request
    | none => writeNotFound client

/-- How a turn of the loop ends. -/
inductive TurnEnd where
  | response (data : List UInt8)
  /-- By a handler of the loop, or of `main` around it. -/
  | caught (e : ApiError)
  /-- Out of `main`. -/
  | leaves (e : ApiError)

def catchError : ApiError → TurnEnd
  | .transferSocket => .caught .transferSocket
  -- thrown again by `server`
  | .executor => .caught .executor
  | .http e => .leaves (.http e)
  | .jsonParse => .leaves .jsonParse

/-- A turn of the loop in `server`. -/
def serverTurn (ctx : ApiContext J) (client : Client) : TurnEnd :=
  match HttpRequest.read ctx.jsonParse client.pieces with
  | .error e => catchError e
  | .ok request =>
      match resolve client request (routes ctx client) with
      | .error e => catchError e
      | .ok data => .response data

/-! ## The header lines -/

/-- Lines with their line feeds. -/
def unlines (lines : List (List UInt8)) : List UInt8 :=
  lines.flatMap (· ++ [10])

theorem unlines_cons (line : List UInt8) (lines : List (List UInt8)) (rest : List UInt8) :
    unlines (line :: lines) ++ rest = line ++ 10 :: (unlines lines ++ rest) := by
  rw [unlines, List.flatMap_cons, List.append_assoc, List.append_assoc, List.singleton_append,
    unlines]

/-- What a text is before a line feed. -/
theorem exists_unlines (text : List UInt8) :
    ∃ line lines, text ++ [10] = unlines (line :: lines) ∧
      ∀ l ∈ line :: lines, (10 : UInt8) ∉ l := by
  induction text with
  | nil => exact ⟨[], [], rfl, fun l hl => by rw [List.mem_singleton.1 hl]; exact List.not_mem_nil⟩
  | cons c text ih =>
      rcases ih with ⟨line, lines, heq, hfree⟩
      by_cases hc : c = 10
      · refine ⟨[], line :: lines, ?_, List.forall_mem_cons.2 ⟨List.not_mem_nil, hfree⟩⟩
        rw [hc, List.cons_append, heq]
        rfl
      · rcases List.forall_mem_cons.1 hfree with ⟨hline, hlines⟩
        refine ⟨c :: line, lines, ?_, List.forall_mem_cons.2 ⟨?_, hlines⟩⟩
        · rw [List.cons_append, heq]
          rfl
        · exact List.not_mem_cons_of_ne_of_not_mem (Ne.symm hc) hline

/-- The line is neither the blank one nor one that ends with its first colon. -/
def HasValue (line : List UInt8) : Prop :=
  ∀ key, 58 ∉ key → line ≠ key ++ [58]

theorem getline_append {line : List UInt8} (hline : 10 ∉ line) (rest : List UInt8) :
    getline (line ++ 10 :: rest) = some (line, rest) := by
  have hfree : ∀ c ∈ line, decide (c ≠ 10) = true := by
    intro c hc
    exact decide_eq_true fun heq => hline (heq ▸ hc)
  have htake : (line ++ 10 :: rest).takeWhile (· ≠ 10) = line := by
    rw [List.takeWhile_append_of_pos hfree, List.takeWhile_cons_of_neg (by decide),
      List.append_nil]
  have hdrop : (line ++ 10 :: rest).dropWhile (· ≠ 10) = 10 :: rest := by
    rw [List.dropWhile_append_of_pos hfree, List.dropWhile_cons_of_neg (by decide)]
  have hne : line ++ 10 :: rest ≠ [] := List.append_ne_nil_of_right_ne_nil _ (List.cons_ne_nil _ _)
  rw [getline, if_neg hne, htake, hdrop, List.tail_cons]

/-- `substr(pos + 2)` fails on a line that ends with its first colon. -/
theorem hasValue_iff {line : List UInt8} :
    HasValue line ↔ ∀ pos, line.idxOf? 58 = some pos → pos + 2 ≤ line.length := by
  constructor
  · intro hvalue pos hpos
    rcases idxOf?_eq_some_iff.1 hpos with ⟨key, rest, rfl, hkey, rfl⟩
    cases rest with
    | nil => exact absurd rfl (hvalue key hkey)
    | cons c rest =>
        simp only [List.length_append, List.length_cons]
        omega
  · rintro hlen key hkey rfl
    have hpos := hlen _ (idxOf?_eq_some_iff.2 ⟨key, [], rfl, hkey, rfl⟩)
    rw [List.length_append, List.length_singleton] at hpos
    omega

theorem parseHeaders_cons (fuel : Nat) {line : List UInt8} (hfree : 10 ∉ line)
    (hne : line ≠ [13]) (iss : List UInt8) :
    (¬HasValue line → parseHeaders (fuel + 1) (line ++ 10 :: iss) = .error .outOfRange) ∧
      (HasValue line → ∃ more, parseHeaders (fuel + 1) (line ++ 10 :: iss) =
        (parseHeaders fuel iss).map fun r => (more ++ r.1, r.2)) := by
  rw [parseHeaders, getline_append hfree]
  simp only [if_neg hne]
  rw [hasValue_iff]
  cases hcolon : line.idxOf? 58 with
  | none =>
      refine ⟨fun h => absurd (fun _ hpos => nomatch hpos) h, fun _ => ⟨[], ?_⟩⟩
      cases parseHeaders fuel iss <;> rfl
  | some pos =>
      constructor
      · intro h
        apply if_pos
        by_contra hlen
        exact h fun pos' hpos => Option.some.inj hpos ▸ Nat.not_lt.1 hlen
      · intro h
        refine ⟨[(line.take pos, trimValue (line.drop (pos + 2)))], ?_⟩
        dsimp only
        rw [if_neg (Nat.not_lt.2 (h pos rfl))]
        cases parseHeaders fuel iss <;> rfl

/-- The loop runs up to the blank line when each line with a colon has something after it. -/
theorem parseHeaders_unlines {fuel : Nat} {lines : List (List UInt8)} (rest : List UInt8)
    (hfuel : lines.length < fuel) (hlines : ∀ line ∈ lines, 10 ∉ line ∧ line ≠ [13]) :
    ((∀ line ∈ lines, HasValue line) →
        ∃ headers, parseHeaders fuel (unlines lines ++ 13 :: 10 :: rest) = .ok (headers, rest)) ∧
      ∀ headers rest', parseHeaders fuel (unlines lines ++ 13 :: 10 :: rest) =
          .ok (headers, rest') → rest' = rest ∧ ∀ line ∈ lines, HasValue line := by
  induction lines generalizing fuel with
  | nil =>
      obtain ⟨fuel, rfl⟩ : ∃ k, fuel = k + 1 := ⟨fuel - 1, by omega⟩
      have hblank : parseHeaders (fuel + 1) (unlines [] ++ 13 :: 10 :: rest) = .ok ([], rest) := by
        have hline := @getline_append [13] (by decide) rest
        rw [List.singleton_append] at hline
        rw [unlines, List.flatMap_nil, List.nil_append, parseHeaders, hline]
        rfl
      rw [hblank]
      refine ⟨fun _ => ⟨[], rfl⟩, fun headers rest' h => ?_⟩
      cases h
      exact ⟨rfl, fun _ hl => absurd hl List.not_mem_nil⟩
  | cons line lines ih =>
      obtain ⟨fuel, rfl⟩ : ∃ k, fuel = k + 1 := ⟨fuel - 1, by omega⟩
      rcases List.forall_mem_cons.1 hlines with ⟨⟨hfree, hne⟩, hlines'⟩
      rcases ih (Nat.lt_of_succ_lt_succ hfuel) hlines' with ⟨hall, hok⟩
      rw [unlines_cons]
      rcases parseHeaders_cons fuel hfree hne (unlines lines ++ 13 :: 10 :: rest) with
        ⟨herror, hmap⟩
      constructor
      · intro hvalues
        rcases List.forall_mem_cons.1 hvalues with ⟨hvalue, hvalues'⟩
        rcases hmap hvalue with ⟨more, heq⟩
        rcases hall hvalues' with ⟨headers, hrest⟩
        rw [heq, hrest]
        exact ⟨more ++ headers, rfl⟩
      · intro headers rest' h
        by_cases hvalue : HasValue line
        · rcases hmap hvalue with ⟨more, heq⟩
          rw [heq] at h
          cases hparse : parseHeaders fuel (unlines lines ++ 13 :: 10 :: rest) with
          | error e =>
              rw [hparse] at h
              cases h
          | ok r =>
              rcases r with ⟨headers₁, rest₁⟩
              rw [hparse] at h
              cases h
              rcases hok _ _ hparse with ⟨hrest, hvalues⟩
              exact ⟨hrest, List.forall_mem_cons.2 ⟨hvalue, hvalues⟩⟩
        · rw [herror hvalue] at h
          cases h

/-- After the first line there is a blank one, where a header has ended. -/
theorem exists_header_lines {data : List UInt8} {i : Nat} (h : findHeaderEnd data = some i) :
    ∃ first lines rest, data = first ++ 10 :: (unlines lines ++ 13 :: 10 :: rest) ∧ 10 ∉ first ∧
      ∀ line ∈ lines, 10 ∉ line ∧ line ≠ [13] := by
  have hblank : ∀ (ls : List (List UInt8)) (b : List UInt8), (∀ l ∈ ls, (10 : UInt8) ∉ l) →
      ∃ lines rest, unlines ls ++ 13 :: 10 :: b = unlines lines ++ 13 :: 10 :: rest ∧
        ∀ line ∈ lines, 10 ∉ line ∧ line ≠ [13] := by
    intro ls b hfree
    induction ls with
    | nil => exact ⟨[], b, rfl, fun _ hl => absurd hl List.not_mem_nil⟩
    | cons l ls ih =>
        rcases List.forall_mem_cons.1 hfree with ⟨hl, hls⟩
        by_cases hcr : l = [13]
        · refine ⟨[], unlines ls ++ 13 :: 10 :: b, ?_, fun _ hl => absurd hl List.not_mem_nil⟩
          rw [unlines_cons, hcr]
          rfl
        · rcases ih hls with ⟨lines, rest, heq, hlines⟩
          refine ⟨l :: lines, rest, ?_, List.forall_mem_cons.2 ⟨⟨hl, hcr⟩, hlines⟩⟩
          rw [unlines_cons, unlines_cons, heq]
  have hspec := find_spec h
  rcases exists_unlines (data.take i ++ [13]) with ⟨first, ls, heq, hfree⟩
  rcases List.forall_mem_cons.1 hfree with ⟨hfirst, hls⟩
  rcases hblank ls (data.drop (i + 4)) hls with ⟨lines, rest, hrest, hlines⟩
  refine ⟨first, lines, rest, ?_, hfirst, hlines⟩
  calc data = (data.take i ++ [13] ++ [10]) ++ 13 :: 10 :: data.drop (i + 4) := by
        rw [List.append_assoc, List.append_assoc]
        exact hspec
    _ = first ++ 10 :: (unlines ls ++ 13 :: 10 :: data.drop (i + 4)) := by
        rw [heq, unlines_cons]
    _ = first ++ 10 :: (unlines lines ++ 13 :: 10 :: rest) := by rw [hrest]

/-! ## What has to arrive -/

/-- Calls of `recv` one after the other, and what is left for the next one. -/
inductive Arrives (limit : Nat) :
    List (List UInt8) → List (List UInt8) → List (List UInt8) → Prop where
  | nil (ps : List (List UInt8)) : Arrives limit ps [] ps
  | cons {ps chunks left : List (List UInt8)} (hne : (recv limit ps).1 ≠ [])
      (hmore : Arrives limit (recv limit ps).2 chunks left) :
      Arrives limit ps ((recv limit ps).1 :: chunks) left

/-- The pieces as C strings. -/
def text (chunks : List (List UInt8)) : List UInt8 :=
  chunks.flatMap cstring

/-- The header comes with the piece `last`; the body that it announces, with the same piece or
later. -/
def RequestArrives (pieces : List (List UInt8)) (data : List UInt8) : Prop :=
  ∃ early last left e c body more,
    Arrives (64 * 1024 - 1) pieces (early ++ [last]) left ∧
    findHeaderEnd (text early) = none ∧ findHeaderEnd (text (early ++ [last])) = some e ∧
    Announces (headerLines (text (early ++ [last]))) c ∧
    body ++ more = left.flatten ∧
    (if 0 < c then c = ((text (early ++ [last])).drop (e + 4)).length + body.length
      else body = []) ∧
    data = text (early ++ [last]) ++ body

theorem Arrives.length_le {limit : Nat} {ps chunks left : List (List UInt8)}
    (h : Arrives limit ps chunks left) : chunks.length ≤ ps.flatten.length := by
  induction h with
  | nil ps => exact Nat.zero_le _
  | @cons ps chunks left hne _ ih =>
      have hpos := List.length_pos_iff.2 hne
      have hsum := congrArg List.length (recv_append limit ps)
      rw [List.length_append] at hsum
      rw [List.length_cons]
      omega

theorem Arrives.left_ne_nil {limit : Nat} {ps chunks left : List (List UInt8)}
    (h : Arrives limit ps chunks left) (hps : ∀ p ∈ ps, p ≠ []) : ∀ p ∈ left, p ≠ [] := by
  induction h with
  | nil ps => exact hps
  | cons _ _ ih => exact ih (recv_left_ne_nil hps)

theorem readHeaderData_arrives {fuel e : Nat} {acc headerData : List UInt8}
    {ps left : List (List UInt8)} (hacc : findHeaderEnd acc = none)
    (hread : readHeaderData fuel acc ps = .ok (headerData, e, left)) :
    ∃ early last, Arrives (64 * 1024 - 1) ps (early ++ [last]) left ∧
      findHeaderEnd (acc ++ text early) = none ∧
      headerData = acc ++ text (early ++ [last]) ∧ findHeaderEnd headerData = some e := by
  induction fuel generalizing acc ps with
  | zero => cases hread
  | succ fuel ih =>
      simp only [readHeaderData] at hread
      split_ifs at hread with hnil
      cases hfind : findHeaderEnd (acc ++ cstring (recv (64 * 1024 - 1) ps).1) with
      | some i =>
          simp only [findHeaderEnd] at hfind
          rw [hfind] at hread
          cases hread
          refine ⟨[], _, .cons hnil (.nil _), ?_, ?_, hfind⟩
          · rwa [text, List.flatMap_nil, List.append_nil]
          · rw [List.nil_append, text, List.flatMap_singleton]
      | none =>
          have hnext := hfind
          simp only [findHeaderEnd] at hfind
          rw [hfind] at hread
          rcases ih hnext hread with ⟨early, last, harrives, hnone, hdata, hend⟩
          refine ⟨(recv (64 * 1024 - 1) ps).1 :: early, last, .cons hnil harrives, ?_, ?_, hend⟩
          · rwa [text, List.flatMap_cons, ← List.append_assoc]
          · rw [hdata, List.cons_append, text, text, List.flatMap_cons, List.append_assoc]

theorem arrives_readHeaderData {fuel e : Nat} {acc last : List UInt8}
    {ps early left : List (List UInt8)}
    (harrives : Arrives (64 * 1024 - 1) ps (early ++ [last]) left)
    (hfuel : early.length < fuel) (hnone : findHeaderEnd (acc ++ text early) = none)
    (hend : findHeaderEnd (acc ++ text (early ++ [last])) = some e) :
    readHeaderData fuel acc ps = .ok (acc ++ text (early ++ [last]), e, left) := by
  obtain ⟨fuel, rfl⟩ : ∃ k, fuel = k + 1 := ⟨fuel - 1, by omega⟩
  induction early generalizing fuel acc ps with
  | nil =>
      rw [List.nil_append] at harrives hend ⊢
      cases harrives with
      | cons hne hmore =>
          cases hmore
          rw [text, List.flatMap_singleton] at hend ⊢
          simp only [findHeaderEnd] at hend
          simp only [readHeaderData, if_neg hne, hend]
  | cons c early ih =>
      rw [List.cons_append] at harrives
      cases harrives with
      | cons hne hmore =>
          obtain ⟨fuel, rfl⟩ : ∃ k, fuel = k + 1 :=
            ⟨fuel - 1, by rw [List.length_cons] at hfuel; omega⟩
          rw [text, List.flatMap_cons, ← List.append_assoc] at hnone
          rw [List.cons_append, text, List.flatMap_cons, ← List.append_assoc] at hend ⊢
          have hfirst : findHeaderEnd (acc ++ cstring (recv (64 * 1024 - 1) ps).1) = none := by
            by_contra hsome
            rcases Option.ne_none_iff_exists'.1 hsome with ⟨i, hi⟩
            have hlonger := find_append (by decide) hi (early.flatMap cstring)
            rw [findHeaderEnd, hlonger] at hnone
            cases hnone
          simp only [findHeaderEnd] at hfirst
          rw [readHeaderData]
          simp only [if_neg hne, hfirst]
          exact ih hmore hnone hend fuel (Nat.lt_of_succ_lt_succ hfuel)

theorem readContent_of_body (headerData : List UInt8) {extra body more : List UInt8} {c : Int}
    {ps : List (List UInt8)} (hps : ∀ p ∈ ps, p ≠ []) (hbody : body ++ more = ps.flatten)
    (hlen : if 0 < c then c = extra.length + body.length else body = []) :
    ∃ left, readContent headerData extra c ps = .ok (headerData ++ body, left) := by
  rw [readContent]
  split_ifs at hlen ⊢ with hpos hextra
  · omega
  · have hn : c.toNat - extra.length = body.length := by omega
    have hle : body.length ≤ ps.flatten.length := by
      rw [← hbody, List.length_append]
      omega
    rcases readBytes_eq hps hle (Nat.le_refl _) with ⟨⟨body', left⟩, hbytes⟩
    rcases readBytes_ok hbytes with ⟨hflat, hlen'⟩
    have hsame : body' = body := List.append_inj_left (hflat.trans hbody.symm) hlen'
    rw [hn]
    simp only [hbytes, hsame]
    exact ⟨left, rfl⟩
  · exact ⟨ps, by rw [hlen, List.append_nil]⟩

theorem readHttpRequest_ok_iff {pieces : List (List UInt8)} {data : List UInt8}
    (hpieces : ∀ piece ∈ pieces, piece ≠ []) :
    (∃ left, readHttpRequest pieces = .ok (data, left)) ↔ RequestArrives pieces data := by
  constructor
  · rintro ⟨left, h⟩
    rcases readHttpRequest_cases h with ⟨headerData, i, rest, c, hheader, hc, h⟩
    rcases readContent_ok h with ⟨body, hbody, hflat, hlen⟩
    rcases readHeaderData_arrives rfl hheader with
      ⟨early, last, harrives, hnone, hdata, hend⟩
    rw [List.nil_append] at hnone hdata
    subst hdata
    exact ⟨early, last, rest, i, c, body, left.flatten, harrives, hnone, hend,
      contentLengthOf_eq_ok_iff.1 hc, hflat, hlen, hbody⟩
  · rintro ⟨early, last, left, e, c, body, more, harrives, hnone, hend, hc, hbody, hlen, rfl⟩
    have hfuel : early.length < pieces.flatten.length + 1 := by
      have hle := harrives.length_le
      rw [List.length_append] at hle
      omega
    have hheader : readHeaderData (pieces.flatten.length + 1) [] pieces =
        .ok (text (early ++ [last]), e, left) := arrives_readHeaderData harrives hfuel hnone hend
    rcases readContent_of_body (text (early ++ [last])) (harrives.left_ne_nil hpieces) hbody hlen
      with ⟨left', hcontent⟩
    refine ⟨left', ?_⟩
    simp only [readHttpRequest, bind, Except.bind, hheader, contentLengthOf_eq_ok_iff.2 hc]
    exact hcontent

/-! ## Turns that end well -/

/-- What a client has to send: a header, in which a line does not end with its first colon (up to
the length of the body; and after the request line none at all), as much body as announced, and
either no text after the header or JSON. -/
def WellSent (jsonParse : List UInt8 → Option J) (pieces : List (List UInt8)) : Prop :=
  ∃ data first lines rest,
    RequestArrives pieces data ∧
    data = first ++ 10 :: (unlines lines ++ 13 :: 10 :: rest) ∧ 10 ∉ first ∧
    (∀ line ∈ lines, 10 ∉ line ∧ line ≠ [13]) ∧ (∀ line ∈ lines, HasValue line) ∧
    (cstring rest = [] ∨ jsonParse (cstring rest) ≠ none)

theorem length_le_unlines (lines : List (List UInt8)) : lines.length ≤ (unlines lines).length := by
  induction lines with
  | nil => exact Nat.zero_le _
  | cons line lines ih =>
      rw [unlines, List.flatMap_cons, List.length_append, List.length_append, List.length_singleton,
        List.length_cons]
      rw [unlines] at ih
      omega

/-- What `HttpRequest::read` does with a request that has arrived. -/
theorem read_eq (jsonParse : List UInt8 → Option J) {pieces left : List (List UInt8)}
    {data first iss : List UInt8} (hread : readHttpRequest pieces = .ok (data, left))
    (hdata : data = first ++ 10 :: iss) (hfirst : 10 ∉ first) :
    ∃ method path, HttpRequest.read jsonParse pieces =
      match parseHeaders (data.length + 1) iss with
      | .error e => .error (.http e)
      | .ok (headers, iss) =>
          if cstring iss = [] then .ok ⟨method, path, headers, cstring iss, none⟩
          else
            match jsonParse (cstring iss) with
            | none => .error .jsonParse
            | some json => .ok ⟨method, path, headers, cstring iss, some json⟩ := by
  have hline : getline data = some (first, iss) := hdata ▸ getline_append hfirst iss
  refine ⟨parseMethod (extract first).1, (extract (extract first).2).1, ?_⟩
  rw [HttpRequest.read, hread]
  simp only [hline, Option.getD_some]

/-- A request is read exactly when it is sent like this. -/
theorem read_ok_iff {jsonParse : List UInt8 → Option J} {pieces : List (List UInt8)}
    (hpieces : ∀ piece ∈ pieces, piece ≠ []) :
    (∃ request, HttpRequest.read jsonParse pieces = .ok request) ↔ WellSent jsonParse pieces := by
  have hfuel : ∀ {data first rest : List UInt8} {lines : List (List UInt8)},
      data = first ++ 10 :: (unlines lines ++ 13 :: 10 :: rest) →
        lines.length < data.length + 1 := by
    intro data first rest lines hdata
    have hle := length_le_unlines lines
    have hlen := congrArg List.length hdata
    simp only [List.length_append, List.length_cons] at hlen
    omega
  constructor
  · rintro ⟨request, hrequest⟩
    cases hread : readHttpRequest pieces with
    | error e =>
        rw [HttpRequest.read, hread] at hrequest
        cases hrequest
    | ok r =>
        rcases r with ⟨data, left⟩
        have harrives := (readHttpRequest_ok_iff hpieces).1 ⟨left, hread⟩
        have hend : ∃ i, findHeaderEnd data = some i := by
          rcases harrives with ⟨_, _, _, e, _, body, _, -, -, hend, -, -, -, rfl⟩
          exact ⟨e, find_append (by decide) hend body⟩
        rcases hend with ⟨i, hi⟩
        rcases exists_header_lines hi with ⟨first, lines, rest, hdata, hfirst, hlines⟩
        rcases read_eq jsonParse hread hdata hfirst with ⟨method, path, heq⟩
        rcases parseHeaders_unlines rest (hfuel hdata) hlines with ⟨-, hok⟩
        rw [heq] at hrequest
        cases hparse : parseHeaders (data.length + 1) (unlines lines ++ 13 :: 10 :: rest) with
        | error e =>
            rw [hparse] at hrequest
            cases hrequest
        | ok r =>
            rcases r with ⟨headers, rest'⟩
            rcases hok headers rest' hparse with ⟨rfl, hvalues⟩
            refine ⟨data, first, lines, rest', harrives, hdata, hfirst, hlines, hvalues, ?_⟩
            rw [hparse] at hrequest
            by_cases hempty : cstring rest' = []
            · exact .inl hempty
            · right
              intro hnone
              simp only [if_neg hempty, hnone] at hrequest
              cases hrequest
  · rintro ⟨data, first, lines, rest, harrives, hdata, hfirst, hlines, hvalues, hjson⟩
    rcases (readHttpRequest_ok_iff hpieces).2 harrives with ⟨left, hread⟩
    rcases read_eq jsonParse hread hdata hfirst with ⟨method, path, heq⟩
    rcases (parseHeaders_unlines rest (hfuel hdata) hlines).1 hvalues with ⟨headers, hparse⟩
    rw [heq, hparse]
    by_cases hempty : cstring rest = []
    · exact ⟨_, if_pos hempty⟩
    · rcases hjson with h | hjson
      · exact absurd h hempty
      · rcases Option.ne_none_iff_exists'.1 hjson with ⟨json, hjson⟩
        simp only [if_neg hempty, hjson]
        exact ⟨_, rfl⟩

/-- The path and the method of the completions. -/
def HttpRequest.IsCompletion (request : HttpRequest J) : Prop :=
  request.method = .post ∧ request.path = ascii "/v1/chat/completions"

/-- No exception leaves the process, unless in a completion. -/
def Survives (ctx : ApiContext J) (client : Client) : Prop :=
  ∀ e, serverTurn ctx client = .leaves e →
    ∃ request, HttpRequest.read ctx.jsonParse client.pieces = .ok request ∧ request.IsCompletion

/-- A write ends in a response or in an exception that the loop catches. -/
theorem writeSocket_handled (client : Client) (data : List UInt8) {e e' : ApiError}
    (h : writeSocket client data = .error e) : catchError e ≠ .leaves e' := by
  rw [writeSocket] at h
  split_ifs at h
  cases h
  exact TurnEnd.noConfusion

/-- The answers other than completions are written by the server itself. -/
theorem resolve_handled {ctx : ApiContext J} {client : Client} {request : HttpRequest J}
    (hother : ¬request.IsCompletion) {e e' : ApiError}
    (h : resolve client request (routes ctx client) = .error e) : catchError e ≠ .leaves e' := by
  rw [resolve] at h
  split_ifs at h with hoptions
  · exact writeSocket_handled client _ h
  · have hfirst : ¬(request.method = .post ∧ request.path = ascii "/v1/chat/completions") := hother
    rw [routes, List.find?_cons_of_neg (by simpa using hfirst)] at h
    by_cases hmodels : request.method = .get ∧ request.path = ascii "/v1/models"
    · rw [List.find?_cons_of_pos (by simpa using hmodels)] at h
      exact writeSocket_handled client _ h
    · rw [List.find?_cons_of_neg (by simpa using hmodels), List.find?_nil] at h
      exact writeSocket_handled client _ h

theorem read_error_leaves {jsonParse : List UInt8 → Option J} {pieces : List (List UInt8)}
    {e : ApiError} (h : HttpRequest.read jsonParse pieces = .error e) :
    catchError e = .leaves e := by
  rw [HttpRequest.read] at h
  cases hread : readHttpRequest pieces with
  | error e₁ =>
      rw [hread] at h
      cases h
      rfl
  | ok r =>
      simp only [hread] at h
      generalize hparse : parseHeaders _ _ = parsed at h
      cases parsed with
      | error e₁ =>
          cases h
          rfl
      | ok p =>
          simp only at h
          split_ifs at h
          generalize hjson : jsonParse _ = json at h
          cases json with
          | none =>
              cases h
              rfl
          | some json => cases h

/-- The server survives exactly the requests that it can read. -/
theorem survives_iff (ctx : ApiContext J) (client : Client) :
    Survives ctx client ↔ WellSent ctx.jsonParse client.pieces := by
  rw [← read_ok_iff client.pieces_ne_nil]
  constructor
  · intro hsurvives
    cases hread : HttpRequest.read ctx.jsonParse client.pieces with
    | ok request => exact ⟨request, rfl⟩
    | error e =>
        have hturn : serverTurn ctx client = .leaves e := by
          rw [serverTurn, hread]
          exact read_error_leaves hread
        rcases hsurvives e hturn with ⟨request, hrequest, -⟩
        rw [hread] at hrequest
        cases hrequest
  · rintro ⟨request, hrequest⟩ e hturn
    refine ⟨request, hrequest, ?_⟩
    by_contra hother
    rw [serverTurn, hrequest] at hturn
    cases hanswer : resolve client request (routes ctx client) with
    | ok data =>
        simp only [hanswer] at hturn
        cases hturn
    | error e₁ =>
        simp only [hanswer] at hturn
        exact resolve_handled hother hanswer hturn

/-- A client that connects and closes. -/
theorem early_close_leaves : ¬∀ (ctx : ApiContext Unit) (client : Client), Survives ctx client := by
  intro hall
  let ctx : ApiContext Unit := ⟨fun _ => none, fun _ _ => .ok [], []⟩
  let client : Client := ⟨[], fun _ h => absurd h List.not_mem_nil, fun _ => true⟩
  have hread : HttpRequest.read ctx.jsonParse client.pieces =
      .error (.http (.runtimeError "Error while reading headers from socket")) := rfl
  have hturn : serverTurn ctx client =
      .leaves (.http (.runtimeError "Error while reading headers from socket")) := rfl
  rcases hall ctx client _ hturn with ⟨request, hrequest, -⟩
  rw [hread] at hrequest
  cases hrequest

end Api
end PrefillOpt
