import PrefillOpt.Lib.ByteText

/-!
# Gateway.ReadRequest — where the gateway ends a request

`findHeaderEnd`, `parseContentLength` and `readHttpRequestRaw` of `dllama-gateway.cpp`.
-/

namespace PrefillOpt
namespace Gateway

open Lib

/-- What a reader throws. -/
inductive HttpError where
  | runtimeError (what : String)
  /-- `std::out_of_range`, of `substr` or of `std::stoi`. -/
  | outOfRange
deriving DecidableEq, Repr

def findHeaderEnd (headerData : List UInt8) : Option Nat :=
  find [13, 10, 13, 10] headerData

/-- The number in a value, spaces taken out; `std::size_t contentLength = 0` before. -/
def contentLengthValue (value : List UInt8) : Nat :=
  let value := value.filter fun c => !isSpace c
  if value = [] then 0 else strtoull value

/-- The loop over the lines of the header. -/
def contentLengthLoop : List (List UInt8) → Nat
  | [] => 0
  | line :: lines =>
      match line.idxOf? 58 with
      | none => contentLengthLoop lines
      | some colon =>
          if (line.take colon).map toLower = ascii "content-length" then
            contentLengthValue (line.drop (colon + 1))
          else contentLengthLoop lines

def parseContentLength (headerData : List UInt8) : Nat :=
  contentLengthLoop ((crlfLines headerData).takeWhile (· ≠ []))

/-- The first loop: the buffer, where the header ends in it, and what the socket has left. -/
def readHeaders (maxBodyBytes : Nat) :
    Nat → List UInt8 → List (List UInt8) → Except HttpError (List UInt8 × Nat × List (List UInt8))
  | 0, _, _ => .error (.runtimeError "Failed reading request headers")
  | fuel + 1, buffer, clientFd =>
      let r := recv (64 * 1024) clientFd
      if r.1 = [] then .error (.runtimeError "Failed reading request headers")
      else
        let buffer := buffer ++ r.1
        if (maxBodyBytes + 64 * 1024) % 2 ^ 64 < buffer.length then
          .error (.runtimeError "Request too large while reading headers")
        else
          match findHeaderEnd buffer with
          | some headerEnd => .ok (buffer, headerEnd, r.2)
          | none => readHeaders maxBodyBytes fuel buffer r.2

/-- The second loop: read until the buffer has `size` bytes. -/
def readBody (size : Nat) : Nat → List UInt8 → List (List UInt8) → Except HttpError (List UInt8)
  | 0, _, _ => .error (.runtimeError "Failed reading request body")
  | fuel + 1, buffer, clientFd =>
      if buffer.length < size then
        let r := recv (64 * 1024) clientFd
        if r.1 = [] then .error (.runtimeError "Failed reading request body")
        else
          let buffer := buffer ++ r.1
          if (size + 16 * 1024) % 2 ^ 64 < buffer.length then
            .error (.runtimeError "Received more body bytes than Content-Length")
          else readBody size fuel buffer r.2
      else .ok buffer

/-- Every call of `recv` takes a byte or is the last one, so there is one more than bytes at
most. -/
def readHttpRequestRaw (maxBodyBytes : Nat) (clientFd : List (List UInt8)) :
    Except HttpError (List UInt8) := do
  let fuel := clientFd.flatten.length + 1
  let (buffer, headerEnd, clientFd) ← readHeaders maxBodyBytes fuel [] clientFd
  let contentLength := parseContentLength buffer
  if maxBodyBytes < contentLength then
    .error (.runtimeError "Request body exceeds max body bytes")
  else
    -- `bodyStart + contentLength` is a `std::size_t`
    let size := (headerEnd + 4 + contentLength) % 2 ^ 64
    let buffer ← readBody size fuel buffer clientFd
    .ok (buffer.take size)

/-! ## What it returns -/

/-- The number of a header is in its lines before the blank one. -/
theorem parseContentLength_append (a b : List UInt8) :
    parseContentLength (a ++ 13 :: 10 :: 13 :: 10 :: b)
      = contentLengthLoop ((crlfLines (a ++ [13, 10])).takeWhile (· ≠ [])) := by
  have hblank : crlfLines (13 :: 10 :: b) = [] :: crlfLines b := by
    rw [crlfLines, if_pos ⟨rfl, rfl⟩]
  rw [parseContentLength, crlfLines_append, hblank, takeWhile_append_cons (by simp)]

theorem parseContentLength_lt (headerData : List UInt8) :
    parseContentLength headerData < 2 ^ 64 := by
  rw [parseContentLength]
  induction (crlfLines headerData).takeWhile (· ≠ []) with
  | nil => decide
  | cons line lines ih =>
      rw [contentLengthLoop]
      split
      · exact ih
      · split_ifs
        · rw [contentLengthValue]
          split_ifs
          · decide
          · exact strtoull_lt _
        · exact ih

/-- Two byte strings that agree up to the blank line have the same number. -/
theorem parseContentLength_congr {a b : List UInt8} {i : Nat} (ha : findHeaderEnd a = some i)
    (hb : findHeaderEnd b = some i) (hab : a.take i = b.take i) :
    parseContentLength a = parseContentLength b := by
  have ha' := find_spec ha
  have hb' := find_spec hb
  calc parseContentLength a
      = contentLengthLoop ((crlfLines (a.take i ++ [13, 10])).takeWhile (· ≠ [])) := by
        rw [← parseContentLength_append (a.take i) (a.drop (i + 4))]
        exact congrArg parseContentLength ha'
    _ = parseContentLength b := by
        rw [hab, ← parseContentLength_append (b.take i) (b.drop (i + 4))]
        exact congrArg parseContentLength hb'.symm

theorem readHeaders_ok {maxBodyBytes fuel headerEnd : Nat} {buffer buffer' : List UInt8}
    {clientFd clientFd' : List (List UInt8)}
    (h : readHeaders maxBodyBytes fuel buffer clientFd = .ok (buffer', headerEnd, clientFd')) :
    findHeaderEnd buffer' = some headerEnd := by
  induction fuel generalizing buffer clientFd with
  | zero => cases h
  | succ fuel ih =>
      simp only [readHeaders] at h
      split_ifs at h
      cases hend : findHeaderEnd (buffer ++ (recv (64 * 1024) clientFd).1) with
      | none =>
          rw [hend] at h
          exact ih h
      | some i =>
          rw [hend] at h
          cases h
          exact hend

theorem readBody_ok {size fuel : Nat} {buffer buffer' : List UInt8} {clientFd : List (List UInt8)}
    (h : readBody size fuel buffer clientFd = .ok buffer') :
    (∃ more, buffer' = buffer ++ more) ∧ size ≤ buffer'.length := by
  induction fuel generalizing buffer clientFd with
  | zero => cases h
  | succ fuel ih =>
      simp only [readBody] at h
      split_ifs at h with hsize
      · rcases ih h with ⟨⟨more, rfl⟩, hle⟩
        exact ⟨⟨_, List.append_assoc _ _ _⟩, hle⟩
      · cases h
        exact ⟨⟨[], (List.append_nil _).symm⟩, Nat.not_lt.1 hsize⟩

/-- A request with a blank line has after it as many bytes as its header says. -/
theorem readHttpRequestRaw_length {maxBodyBytes i : Nat} {clientFd : List (List UInt8)}
    {R : List UInt8} (h : readHttpRequestRaw maxBodyBytes clientFd = .ok R)
    (hend : findHeaderEnd R = some i) : R.length = i + 4 + parseContentLength R := by
  simp only [readHttpRequestRaw, bind, Except.bind] at h
  cases hheaders : readHeaders maxBodyBytes (clientFd.flatten.length + 1) [] clientFd with
  | error e => rw [hheaders] at h; cases h
  | ok headers =>
      rcases headers with ⟨buffer, headerEnd, left⟩
      rw [hheaders] at h
      simp only at h
      split_ifs at h
      cases hbody : readBody ((headerEnd + 4 + parseContentLength buffer) % 2 ^ 64)
        (clientFd.flatten.length + 1) buffer left with
      | error e => rw [hbody] at h; cases h
      | ok buffer' =>
          rw [hbody] at h
          cases h
          rcases readBody_ok hbody with ⟨⟨more, rfl⟩, hsize⟩
          have hfind := readHeaders_ok hheaders
          have hfind' := find_append (by decide) hfind more
          rw [findHeaderEnd, find_take (by decide) hfind'] at hend
          split_ifs at hend with hle
          cases hend
          have hle : i + 4 ≤ (i + 4 + parseContentLength buffer) % 2 ^ 64 := hle
          -- a sum that wrapped around would end inside the header
          have hsmall : i + 4 + parseContentLength buffer < 2 ^ 64 := by
            have hlt := parseContentLength_lt buffer
            omega
          rw [Nat.mod_eq_of_lt hsmall] at hsize ⊢
          have hR : findHeaderEnd ((buffer ++ more).take (i + 4 + parseContentLength buffer))
              = some i := by
            rw [findHeaderEnd, find_take (by decide) hfind']
            exact if_pos (Nat.le_add_right (i + 4) _)
          have hjoin : ((buffer ++ more).take (i + 4 + parseContentLength buffer)).take i
              = buffer.take i := by
            have hi : i ≤ buffer.length := Nat.le_of_add_right_le (find_le hfind)
            rw [List.take_take, Nat.min_eq_left (by omega), List.take_append_of_le_length hi]
          rw [parseContentLength_congr hR hfind hjoin, List.length_take, Nat.min_eq_left hsize]

end Gateway
end PrefillOpt
