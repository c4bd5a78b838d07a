import PrefillOpt.Gateway.ReadRequest

/-!
# Api.HttpRequest — where the API server ends a request

`HttpRequest::readHttpRequest` of `dllama-api.cpp`.  It puts the header together from C strings, so
a zero byte hides the rest of a piece, and it knows the length of the body from a line that begins
with exactly `Content-Length:`.
-/

namespace PrefillOpt
namespace Api

open Lib Gateway

/-! ## The reader -/

/-- `headerData.append(buffer)`, with the terminator that was put after the piece. -/
def cstring (buffer : List UInt8) : List UInt8 :=
  buffer.takeWhile (· ≠ 0)

/-- The first loop: `headerData`, `headerEnd` and what the socket has left. -/
def readHeaderData :
    Nat → List UInt8 → List (List UInt8) → Except HttpError (List UInt8 × Nat × List (List UInt8))
  | 0, _, _ => .error (.runtimeError "Error while reading headers from socket")
  | fuel + 1, headerData, serverSocket =>
      let r := recv (64 * 1024 - 1) serverSocket
      if r.1 = [] then .error (.runtimeError "Error while reading headers from socket")
      else
        let headerData := headerData ++ cstring r.1
        match find [13, 10, 13, 10] headerData with
        | some headerEnd => .ok (headerData, headerEnd, r.2)
        | none => readHeaderData fuel headerData r.2

/-- The lines that the search for the length goes through. -/
def headerLines (headerData : List UInt8) : List (List UInt8) :=
  (getlines headerData).takeWhile (· ≠ [13])

/-- The loop over these lines; `ssize_t contentLength = 0` before. -/
def contentLengthOf : List (List UInt8) → Except HttpError Int
  | [] => .ok 0
  | line :: lines =>
      match line.idxOf? 58 with
      | none => contentLengthOf lines
      | some pos =>
          -- `line.substr(pos + 2)`
          if line.length < pos + 2 then .error .outOfRange
          else if line.take pos = ascii "Content-Length" then
            match stoi (line.drop (pos + 2)) with
            | .ok v => .ok v
            | .error .invalidArgument =>
                .error (.runtimeError "Bad Content-Length header - not a number")
            | .error .outOfRange => .error .outOfRange
          else contentLengthOf lines

/-- The last loop: read `contentLength` bytes. -/
def readBytes : Nat → Nat → List (List UInt8) → Except HttpError (List UInt8 × List (List UInt8))
  | 0, n, serverSocket =>
      if n = 0 then .ok ([], serverSocket)
      else .error (.runtimeError "Error while reading body from socket")
  | fuel + 1, n, serverSocket =>
      if n = 0 then .ok ([], serverSocket)
      else
        let r := recv n serverSocket
        if r.1 = [] then .error (.runtimeError "Error while reading body from socket")
        else
          match readBytes fuel (n - r.1.length) r.2 with
          | .error e => .error e
          | .ok (body, serverSocket) => .ok (r.1 ++ body, serverSocket)

/-- What comes after the header; `extraReadPastHeader` is what came with it. -/
def readContent (headerData extraReadPastHeader : List UInt8) (contentLength : Int)
    (serverSocket : List (List UInt8)) : Except HttpError (List UInt8 × List (List UInt8)) :=
  if 0 < contentLength then
    if contentLength.toNat < extraReadPastHeader.length then
      .error (.runtimeError "Received more body data than Content-Length header said")
    else
      let n := contentLength.toNat - extraReadPastHeader.length
      match readBytes n n serverSocket with
      | .error e => .error e
      | .ok (body, serverSocket) => .ok (headerData ++ body, serverSocket)
  else .ok (headerData, serverSocket)

/-- The request, and what the socket has left. -/
def readHttpRequest (serverSocket : List (List UInt8)) :
    Except HttpError (List UInt8 × List (List UInt8)) := do
  let (headerData, headerEnd, serverSocket) ←
    readHeaderData (serverSocket.flatten.length + 1) [] serverSocket
  let contentLength ← contentLengthOf (headerLines headerData)
  readContent headerData (headerData.drop (headerEnd + 4)) contentLength serverSocket

/-! ## What the header says -/

/-- The search goes past this line. -/
def Passed (line : List UInt8) : Prop :=
  58 ∉ line ∨
    ∃ key x rest, line = key ++ 58 :: x :: rest ∧ 58 ∉ key ∧ key ≠ ascii "Content-Length"

/-- The first line named `Content-Length` has the number `c` after the colon and one more
character; without such a line `c` is 0. -/
def Announces (lines : List (List UInt8)) (c : Int) : Prop :=
  (∃ pre x v post, lines = pre ++ (ascii "Content-Length" ++ 58 :: x :: v) :: post ∧
      (∀ line ∈ pre, Passed line) ∧ stoi v = .ok c) ∨
    (∀ line ∈ lines, Passed line) ∧ c = 0

theorem colon_not_mem_name : 58 ∉ ascii "Content-Length" := by decide

theorem Passed.ne_named {line x v} (h : Passed line) :
    line ≠ ascii "Content-Length" ++ 58 :: x :: v := by
  rintro rfl
  rcases h with h | ⟨key, x', rest, h, hkey, hne⟩
  · exact h (List.mem_append_right _ List.mem_cons_self)
  · have hname := idxOf?_eq_some_iff.2 ⟨_, x :: v, rfl, colon_not_mem_name, rfl⟩
    have hkey' := idxOf?_eq_some_iff.2 ⟨key, x' :: rest, h, hkey, rfl⟩
    have hlen := Option.some.inj (hname.symm.trans hkey')
    exact hne (List.append_inj_left h hlen).symm

theorem announces_cons_of_passed {line : List UInt8} {lines : List (List UInt8)} {c : Int}
    (h : Passed line) : Announces (line :: lines) c ↔ Announces lines c := by
  constructor
  · rintro (⟨pre, x, v, post, hlines, hpre, hv⟩ | ⟨hall, hc⟩)
    · cases pre with
      | nil => exact absurd (List.cons.inj hlines).1 h.ne_named
      | cons l pre =>
          rcases List.forall_mem_cons.1 hpre with ⟨-, hpre⟩
          exact .inl ⟨pre, x, v, post, (List.cons.inj hlines).2, hpre, hv⟩
    · exact .inr ⟨(List.forall_mem_cons.1 hall).2, hc⟩
  · rintro (⟨pre, x, v, post, rfl, hpre, hv⟩ | ⟨hall, hc⟩)
    · exact .inl ⟨line :: pre, x, v, post, rfl, List.forall_mem_cons.2 ⟨h, hpre⟩, hv⟩
    · exact .inr ⟨List.forall_mem_cons.2 ⟨h, hall⟩, hc⟩

theorem announces_cons_named {x : UInt8} {v : List UInt8} {lines : List (List UInt8)} {c : Int} :
    Announces ((ascii "Content-Length" ++ 58 :: x :: v) :: lines) c ↔ stoi v = .ok c := by
  constructor
  · rintro (⟨pre, x', v', post, hlines, hpre, hv⟩ | ⟨hall, -⟩)
    · cases pre with
      | nil =>
          have hline := List.append_cancel_left (List.cons.inj hlines).1
          cases hline
          exact hv
      | cons l pre =>
          have hl := (List.cons.inj hlines).1
          exact absurd hl.symm (List.forall_mem_cons.1 hpre).1.ne_named
    · exact absurd rfl (List.forall_mem_cons.1 hall).1.ne_named
  · exact fun hv => .inl ⟨[], x, v, lines, rfl, fun _ h => absurd h List.not_mem_nil, hv⟩

/-- After a line that ends with its colon nothing is announced. -/
theorem not_announces_cons {key : List UInt8} {lines : List (List UInt8)} {c : Int}
    (hkey : 58 ∉ key) : ¬Announces ((key ++ [58]) :: lines) c := by
  have hidx := idxOf?_eq_some_iff.2 ⟨key, [], rfl, hkey, rfl⟩
  have hnot : ∀ key' x rest, key ++ [58] = key' ++ 58 :: x :: rest → 58 ∉ key' → False := by
    intro key' x rest h hkey'
    have hidx' := idxOf?_eq_some_iff.2 ⟨key', x :: rest, h, hkey', rfl⟩
    have hlen := Option.some.inj (hidx.symm.trans hidx')
    have htail := List.append_inj_right h hlen
    cases htail
  rintro (⟨pre, x, v, post, hlines, hpre, -⟩ | ⟨hall, -⟩)
  · cases pre with
    | nil => exact hnot _ x v (List.cons.inj hlines).1 colon_not_mem_name
    | cons l pre =>
        cases hlines
        rcases (List.forall_mem_cons.1 hpre).1 with h | ⟨key', x', rest, h, hkey', -⟩
        · exact h (List.mem_append_right _ (List.mem_singleton_self 58))
        · exact hnot key' x' rest h hkey'
  · rcases (List.forall_mem_cons.1 hall).1 with h | ⟨key', x', rest, h, hkey', -⟩
    · exact h (List.mem_append_right _ (List.mem_singleton_self 58))
    · exact hnot key' x' rest h hkey'

/-- The loop over the lines finds what the header says. -/
theorem contentLengthOf_eq_ok_iff {lines : List (List UInt8)} {c : Int} :
    contentLengthOf lines = .ok c ↔ Announces lines c := by
  induction lines with
  | nil =>
      constructor
      · intro h
        cases h
        exact .inr ⟨fun _ h => absurd h List.not_mem_nil, rfl⟩
      · rintro (⟨pre, x, v, post, h, -⟩ | ⟨-, rfl⟩)
        · exact absurd h.symm (List.append_ne_nil_of_right_ne_nil pre (List.cons_ne_nil _ post))
        · rfl
  | cons line lines ih =>
      rw [contentLengthOf]
      cases hidx : line.idxOf? 58 with
      | none =>
          have hpassed : Passed line := .inl (List.idxOf?_eq_none_iff.1 hidx)
          exact ih.trans (announces_cons_of_passed hpassed).symm
      | some pos =>
          rcases idxOf?_eq_some_iff.1 hidx with ⟨key, rest, rfl, hkey, rfl⟩
          simp only
          cases rest with
          | nil =>
              rw [if_pos (by rw [List.length_append, List.length_singleton]; omega)]
              constructor
              · intro h
                cases h
              · exact fun h => absurd h (not_announces_cons hkey)
          | cons x v =>
              have hlen : ¬(key ++ 58 :: x :: v).length < key.length + 2 := by
                simp only [List.length_append, List.length_cons]
                omega
              rw [if_neg hlen, List.take_left]
              by_cases hname : key = ascii "Content-Length"
              · subst hname
                rw [if_pos rfl, announces_cons_named]
                have hdrop : (ascii "Content-Length" ++ 58 :: x :: v).drop
                    ((ascii "Content-Length").length + 2) = v := by
                  rw [List.drop_append]
                  rfl
                rw [hdrop]
                cases stoi v with
                | ok c' => exact ⟨fun h => by cases h; rfl, fun h => by cases h; rfl⟩
                | error e => cases e <;> exact ⟨fun h => (by cases h), fun h => (by cases h)⟩
              · rw [if_neg hname]
                have hpassed : Passed (key ++ 58 :: x :: v) :=
                  .inr ⟨key, x, v, rfl, hkey, hname⟩
                exact ih.trans (announces_cons_of_passed hpassed).symm

/-- What the header says does not depend on what comes after the blank line. -/
theorem headerLines_append (a b : List UInt8) :
    headerLines (a ++ 13 :: 10 :: 13 :: 10 :: b)
      = (getlines (a ++ [13, 10])).takeWhile (· ≠ [13]) := by
  have hsplit : a ++ 13 :: 10 :: 13 :: 10 :: b = (a ++ [13]) ++ 10 :: (13 :: 10 :: b) := by
    rw [List.append_assoc, List.singleton_append]
  have hend : a ++ [13, 10] = (a ++ [13]) ++ [10] := by
    rw [List.append_assoc, List.singleton_append]
  have hblank : getlines (13 :: 10 :: b) = [13] :: getlines b := getlines_append [13] b
  rw [headerLines, hsplit, getlines_append, hblank, takeWhile_append_cons (by simp), hend]

theorem headerLines_congr {a b : List UInt8} {i : Nat} (ha : findHeaderEnd a = some i)
    (hb : findHeaderEnd b = some i) (hab : a.take i = b.take i) :
    headerLines a = headerLines b := by
  have ha' := find_spec ha
  have hb' := find_spec hb
  calc headerLines a
      = (getlines (a.take i ++ [13, 10])).takeWhile (· ≠ [13]) := by
        rw [← headerLines_append (a.take i) (a.drop (i + 4))]
        exact congrArg headerLines ha'
    _ = headerLines b := by
        rw [hab, ← headerLines_append (b.take i) (b.drop (i + 4))]
        exact congrArg headerLines hb'.symm

/-! ## The two loops -/

theorem cstring_eq_self {c : List UInt8} (h : 0 ∉ c) : cstring c = c := by
  apply List.takeWhile_eq_self_iff.2
  intro x hx
  exact decide_eq_true fun hzero => h (hzero ▸ hx)

theorem not_mem_of_cstring_length {c : List UInt8} (h : (cstring c).length = c.length) :
    0 ∉ c := by
  have heq : cstring c = c := (List.takeWhile_prefix _).eq_of_length h
  intro hmem
  have hzero := List.takeWhile_eq_self_iff.1 heq 0 hmem
  exact absurd hzero (by decide)

theorem cstring_length_le (c : List UInt8) : (cstring c).length ≤ c.length :=
  (List.takeWhile_prefix _).length_le

/-- The calls of `recv` that bring `n` bytes of the header; each takes at least one. -/
def headerPieces (fuel n : Nat) (serverSocket : List (List UInt8)) :
    List (List UInt8) × List (List UInt8) :=
  recvUntil (64 * 1024 - 1) fuel n serverSocket

theorem headerPieces_of_pos {fuel n : Nat} {ps : List (List UInt8)} (hn : 0 < n) :
    headerPieces (fuel + 1) n ps
      = ((recv (64 * 1024 - 1) ps).1 :: (headerPieces fuel (n - (recv (64 * 1024 - 1) ps).1.length)
          (recv (64 * 1024 - 1) ps).2).1,
        (headerPieces fuel (n - (recv (64 * 1024 - 1) ps).1.length)
          (recv (64 * 1024 - 1) ps).2).2) :=
  if_neg (Nat.ne_of_gt hn)

/-- What has been read is a prefix of the request, so the blank line is in it once it is long
enough. -/
theorem find_of_append {R a b : List UInt8} {i : Nat} (hR : findHeaderEnd R = some i)
    (hab : a ++ b = R) :
    find [13, 10, 13, 10] a = if i + 4 ≤ a.length then some i else none := by
  have htake := find_take (by decide) hR a.length
  rw [← hab, List.take_left] at htake
  exact htake

/-- Without a zero byte in its pieces the header is read as it is. -/
theorem readHeaderData_eq {R : List UInt8} {i : Nat} (hR : findHeaderEnd R = some i)
    {fuel m n : Nat} {acc : List UInt8} {ps : List (List UInt8)} (hps : ∀ p ∈ ps, p ≠ [])
    (hacc : acc ++ ps.flatten = R) (hn : acc.length + n = i + 4) (hpos : 0 < n) (hm : n ≤ m)
    (hfuel : ps.flatten.length < fuel) (hzero : ∀ c ∈ (headerPieces m n ps).1, 0 ∉ c) :
    readHeaderData fuel acc ps
      = .ok (acc ++ (headerPieces m n ps).1.flatten, i, (headerPieces m n ps).2) := by
  induction fuel generalizing m n acc ps with
  | zero => exact absurd hfuel (Nat.not_lt_zero _)
  | succ fuel ih =>
      cases m with
      | zero => exact absurd hpos (Nat.not_lt.2 hm)
      | succ m =>
          have hlen : i + 4 ≤ R.length := find_le hR
          have hsum : acc.length + ps.flatten.length = R.length := by
            rw [← hacc, List.length_append]
          have hrecv := recv_append (64 * 1024 - 1) ps
          have hleft := @recv_left_ne_nil (64 * 1024 - 1) ps hps
          have hc := recv_length_pos (Nat.succ_pos (64 * 1024 - 2)) hps (by omega)
          rw [headerPieces_of_pos hpos] at hzero ⊢
          simp only [readHeaderData]
          generalize recv (64 * 1024 - 1) ps = r at *
          rcases r with ⟨c, left⟩
          simp only at hc hrecv hleft hzero ⊢
          rcases List.forall_mem_cons.1 hzero with ⟨hzero₁, hzero₂⟩
          have hacc' : (acc ++ c) ++ left.flatten = R := by
            rw [List.append_assoc, hrecv, hacc]
          have hsum' : c.length + left.flatten.length = ps.flatten.length := by
            rw [← hrecv, List.length_append]
          rw [if_neg (List.length_pos_iff.1 hc), cstring_eq_self hzero₁, find_of_append hR hacc']
          by_cases hdone : i + 4 ≤ (acc ++ c).length
          · have hn0 : n - c.length = 0 := by
              rw [List.length_append] at hdone
              omega
            rw [if_pos hdone]
            simp only [hn0, headerPieces, recvUntil_zero]
            rw [List.flatten_singleton]
          · rw [if_neg hdone]
            rw [List.length_append] at hdone
            have hn' : (acc ++ c).length + (n - c.length) = i + 4 := by
              rw [List.length_append]
              omega
            rw [ih hleft hacc' hn' (by omega) (by omega) (by omega) hzero₂]
            rw [List.flatten_cons, List.append_assoc]

/-- When nothing got lost there was no zero byte in the pieces of the header. -/
theorem readHeaderData_ok {fuel e : Nat} {acc h : List UInt8} {ps left : List (List UInt8)}
    (hacc : find [13, 10, 13, 10] acc = none)
    (hread : readHeaderData fuel acc ps = .ok (h, e, left)) :
    find [13, 10, 13, 10] h = some e ∧ (∃ more, h = acc ++ more) ∧
      h.length + left.flatten.length ≤ acc.length + ps.flatten.length ∧
      ∀ m n, h.length + left.flatten.length = acc.length + ps.flatten.length →
        acc.length + n = e + 4 → n ≤ m →
          h ++ left.flatten = acc ++ ps.flatten ∧ (∀ c ∈ (headerPieces m n ps).1, 0 ∉ c) ∧
            (headerPieces m n ps).2 = left := by
  induction fuel generalizing acc ps with
  | zero => cases hread
  | succ fuel ih =>
      have hrecv := recv_append (64 * 1024 - 1) ps
      have hpieces := fun m n => @headerPieces_of_pos m n ps
      simp only [readHeaderData] at hread
      generalize recv (64 * 1024 - 1) ps = r at *
      rcases r with ⟨c, rest⟩
      simp only at hread hrecv hpieces
      have hsum : c.length + rest.flatten.length = ps.flatten.length := by
        rw [← hrecv, List.length_append]
      have hle := cstring_length_le c
      split_ifs at hread with hnil
      cases hfind : find [13, 10, 13, 10] (acc ++ cstring c) with
      | some i =>
          rw [hfind] at hread
          cases hread
          refine ⟨hfind, ⟨_, rfl⟩, by rw [List.length_append]; omega, ?_⟩
          intro m n heq hn hm
          rw [List.length_append] at heq
          have hzero := @not_mem_of_cstring_length c (by omega)
          rw [cstring_eq_self hzero] at hfind ⊢
          have hend : e + 4 ≤ (acc ++ c).length := find_le hfind
          have hstart := find_of_append hfind rfl
          rw [hacc] at hstart
          split_ifs at hstart with hshort
          rw [List.length_append] at hend
          have hpos : 0 < n := by omega
          rcases Nat.exists_eq_add_of_lt (Nat.lt_of_lt_of_le hpos hm) with ⟨m', rfl⟩
          have hn0 : n - c.length = 0 := by omega
          rw [Nat.zero_add, hpieces m' n hpos, hn0, headerPieces, recvUntil_zero]
          exact ⟨by rw [List.append_assoc, hrecv], List.forall_mem_singleton.2 hzero, rfl⟩
      | none =>
          rw [hfind] at hread
          rcases ih hfind hread with ⟨hh, ⟨more, rfl⟩, hlen, hrest⟩
          simp only [List.length_append] at hlen hrest
          refine ⟨hh, ⟨_, List.append_assoc _ _ _⟩, ?_, ?_⟩
          · simp only [List.length_append]
            omega
          · intro m n heq hn hm
            simp only [List.length_append] at heq
            have hzero := @not_mem_of_cstring_length c (by omega)
            have hc := cstring_eq_self hzero
            have hstart := find_of_append hh rfl
            rw [hfind] at hstart
            split_ifs at hstart with hshort
            rw [hc] at hrest heq hshort ⊢
            rw [List.length_append] at hshort
            have hcpos := List.length_pos_iff.2 hnil
            have hpos : 0 < n := by omega
            rcases Nat.exists_eq_add_of_lt (Nat.lt_of_lt_of_le hpos hm) with ⟨m', rfl⟩
            rw [Nat.zero_add, hpieces m' n hpos]
            rcases hrest m' (n - c.length) (by omega) (by omega) (by omega)
              with ⟨hflat, hzeros, hleft⟩
            exact ⟨by rw [hflat, List.append_assoc, hrecv],
              List.forall_mem_cons.2 ⟨hzero, hzeros⟩, hleft⟩

theorem readBytes_ok {fuel n : Nat} {ps left : List (List UInt8)} {body : List UInt8}
    (h : readBytes fuel n ps = .ok (body, left)) :
    body ++ left.flatten = ps.flatten ∧ body.length = n := by
  induction fuel generalizing n ps body with
  | zero =>
      rw [readBytes] at h
      split_ifs at h with hn
      cases h
      exact ⟨rfl, hn.symm⟩
  | succ fuel ih =>
      have hrecv := recv_append n ps
      have hlimit : (recv n ps).1.length ≤ n := recv_length_le n ps
      simp only [readBytes] at h
      generalize recv n ps = r at *
      rcases r with ⟨c, rest⟩
      split_ifs at h with hn hnil
      · cases h
        exact ⟨rfl, hn.symm⟩
      · cases hmore : readBytes fuel (n - c.length) rest with
        | error e =>
            simp only [hmore] at h
            cases h
        | ok more =>
            rcases more with ⟨more, left'⟩
            simp only [hmore] at h
            cases h
            rcases ih hmore with ⟨hflat, hlen⟩
            refine ⟨by rw [List.append_assoc, hflat, hrecv], ?_⟩
            rw [List.length_append, hlen]
            exact Nat.add_sub_cancel' hlimit

/-- What the pieces have is read. -/
theorem readBytes_eq {fuel n : Nat} {ps : List (List UInt8)} (hps : ∀ p ∈ ps, p ≠ [])
    (hn : n ≤ ps.flatten.length) (hfuel : n ≤ fuel) :
    ∃ r, readBytes fuel n ps = .ok r := by
  induction fuel generalizing n ps with
  | zero => exact ⟨_, if_pos (Nat.le_zero.1 hfuel)⟩
  | succ fuel ih =>
      rw [readBytes]
      split_ifs with hn0
      · exact ⟨_, rfl⟩
      · have hlimit : 0 < n := Nat.pos_of_ne_zero hn0
        have hc := recv_length_pos hlimit hps (Nat.lt_of_lt_of_le hlimit hn)
        have hsum := congrArg List.length (recv_append n ps)
        rw [List.length_append] at hsum
        have hleft := @recv_left_ne_nil n ps hps
        have hrest : n - (recv n ps).1.length ≤ (recv n ps).2.flatten.length := by omega
        rcases ih hleft hrest (by omega) with ⟨⟨body, left⟩, hmore⟩
        simp only [if_neg (List.length_pos_iff.1 hc), hmore]
        exact ⟨_, rfl⟩

theorem readContent_ok {headerData extra R : List UInt8} {c : Int} {ps left : List (List UInt8)}
    (h : readContent headerData extra c ps = .ok (R, left)) :
    ∃ body, R = headerData ++ body ∧ body ++ left.flatten = ps.flatten ∧
      if 0 < c then c = extra.length + body.length else body = [] := by
  simp only [readContent] at h
  split_ifs at h with hpos hextra
  · cases hbytes : readBytes (c.toNat - extra.length) (c.toNat - extra.length) ps with
    | error e =>
        rw [hbytes] at h
        cases h
    | ok r =>
        rcases r with ⟨body, left'⟩
        rw [hbytes] at h
        cases h
        rcases readBytes_ok hbytes with ⟨hflat, hlen⟩
        refine ⟨body, rfl, hflat, ?_⟩
        rw [if_pos hpos]
        omega
  · cases h
    exact ⟨[], (List.append_nil _).symm, rfl, by rw [if_neg hpos]⟩

/-! ## The two framings -/

/-- No zero byte comes with the header, and the server finds the length of the body that the gateway
has found, or it finds none and the body comes with the header. -/
def SameFraming (R : List UInt8) (pieces : List (List UInt8)) : Prop :=
  ∃ i c, findHeaderEnd R = some i ∧
    (∀ piece ∈ (headerPieces (i + 4) (i + 4) pieces).1, 0 ∉ piece) ∧
    Announces (headerLines R) c ∧
    if 0 < c then c = parseContentLength R
    else (headerPieces (i + 4) (i + 4) pieces).2.flatten = []

/-- A request that is read has gone through the header, its length and the content. -/
theorem readHttpRequest_cases {pieces left : List (List UInt8)} {data : List UInt8}
    (h : readHttpRequest pieces = .ok (data, left)) :
    ∃ headerData i rest c,
      readHeaderData (pieces.flatten.length + 1) [] pieces = .ok (headerData, i, rest) ∧
      contentLengthOf (headerLines headerData) = .ok c ∧
      readContent headerData (headerData.drop (i + 4)) c rest = .ok (data, left) := by
  simp only [readHttpRequest, bind, Except.bind] at h
  cases hheader : readHeaderData (pieces.flatten.length + 1) [] pieces with
  | error e =>
      rw [hheader] at h
      cases h
  | ok header =>
      rcases header with ⟨headerData, i, rest⟩
      rw [hheader] at h
      simp only at h
      cases hc : contentLengthOf (headerLines headerData) with
      | error e =>
          rw [hc] at h
          cases h
      | ok c =>
          rw [hc] at h
          exact ⟨headerData, i, rest, c, rfl, hc, h⟩

/-- The server reads a request of the gateway exactly when the two see the same framing. -/
theorem readHttpRequest_eq_iff {maxBodyBytes : Nat} {clientFd pieces : List (List UInt8)}
    {R : List UInt8} (hraw : readHttpRequestRaw maxBodyBytes clientFd = .ok R)
    (hpieces : ∀ piece ∈ pieces, piece ≠ []) (hR : pieces.flatten = R) :
    (∃ left, readHttpRequest pieces = .ok (R, left)) ↔ SameFraming R pieces := by
  constructor
  · rintro ⟨left, h⟩
    rcases readHttpRequest_cases h with ⟨headerData, i, rest, c, hheader, hc, h⟩
    rcases readContent_ok h with ⟨body, hbody, hflat, hlen⟩
    rcases readHeaderData_ok rfl hheader with ⟨hfind, -, hle, hkeep⟩
    have hlengths := congrArg List.length hflat
    have hbodyLen := congrArg List.length hbody
    have hall := congrArg List.length hR
    rw [List.length_append] at hlengths hbodyLen
    simp only [List.length_nil, Nat.zero_add] at hle
    -- nothing got lost, or the request would be shorter
    rcases hkeep (i + 4) (i + 4) (by simp only [List.length_nil]; omega)
      (Nat.zero_add _) (Nat.le_refl _) with ⟨hjoin, hzero, hrest⟩
    rw [List.nil_append, hR] at hjoin
    have hend : findHeaderEnd R = some i := by
      rw [← hjoin]
      exact find_append (by decide) hfind _
    have hi : i ≤ headerData.length := Nat.le_of_add_right_le (find_le hfind)
    have htake : headerData.take i = R.take i := by
      rw [← hjoin, List.take_append_of_le_length hi]
    have hlines := headerLines_congr hfind hend htake
    refine ⟨i, c, hend, hzero, contentLengthOf_eq_ok_iff.1 (hlines ▸ hc), ?_⟩
    have hsize := readHttpRequestRaw_length hraw hend
    rw [List.length_drop] at hlen
    have hiLen := find_le hfind
    split_ifs at hlen ⊢ with hpos
    · have hfour : ([13, 10, 13, 10] : List UInt8).length = 4 := rfl
      omega
    · subst hlen
      rw [hrest]
      apply List.eq_nil_of_length_eq_zero
      rw [List.length_nil] at hlengths hbodyLen
      omega
  · rintro ⟨i, c, hi, hzero, hc, hlen⟩
    have hstart : ([] : List UInt8) ++ pieces.flatten = R := hR
    have hheader := readHeaderData_eq hi hpieces hstart (Nat.zero_add (i + 4)) (Nat.succ_pos _)
      (Nat.le_refl _) (Nat.lt_succ_self _) hzero
    rw [List.nil_append] at hheader
    have hfind := (readHeaderData_ok rfl hheader).1
    have hjoin := recvUntil_append (64 * 1024 - 1) (i + 4) (i + 4) pieces
    have hleft := @recvUntil_left_ne_nil (64 * 1024 - 1) (i + 4) (i + 4) pieces hpieces
    change (headerPieces (i + 4) (i + 4) pieces).1.flatten
      ++ (headerPieces (i + 4) (i + 4) pieces).2.flatten = pieces.flatten at hjoin
    change ∀ p ∈ (headerPieces (i + 4) (i + 4) pieces).2, p ≠ [] at hleft
    generalize headerPieces (i + 4) (i + 4) pieces = got at *
    rcases got with ⟨chunks, rest⟩
    simp only at hheader hfind hjoin hleft hlen
    rw [hR] at hjoin
    have hiLen : i + 4 ≤ chunks.flatten.length := find_le hfind
    have htake : R.take i = chunks.flatten.take i := by
      rw [← hjoin, List.take_append_of_le_length (by omega)]
    have hlines := headerLines_congr hi hfind htake
    have hcontent : contentLengthOf (headerLines chunks.flatten) = .ok c :=
      hlines ▸ contentLengthOf_eq_ok_iff.2 hc
    have hsize := readHttpRequestRaw_length hraw hi
    have hsum := congrArg List.length hjoin
    rw [List.length_append] at hsum
    simp only [readHttpRequest, bind, Except.bind, hheader, hcontent, readContent, List.length_drop]
    by_cases hpos : 0 < c
    · rw [if_pos hpos] at hlen
      have hextra : ¬c.toNat < chunks.flatten.length - (i + 4) := by omega
      have hn : c.toNat - (chunks.flatten.length - (i + 4)) = rest.flatten.length := by omega
      rw [if_pos hpos, if_neg hextra, hn]
      rcases readBytes_eq hleft (Nat.le_refl _) (Nat.le_refl _) with ⟨⟨body, left⟩, hbytes⟩
      rcases readBytes_ok hbytes with ⟨hflat, hbody⟩
      have hleftNil : left.flatten = [] := by
        apply List.eq_nil_of_length_eq_zero
        have := congrArg List.length hflat
        rw [List.length_append] at this
        omega
      rw [hleftNil, List.append_nil] at hflat
      rw [hbytes, hflat]
      exact ⟨left, congrArg (fun R => Except.ok (R, left)) hjoin⟩
    · rw [if_neg hpos] at hlen ⊢
      rw [hlen, List.append_nil] at hjoin
      exact ⟨rest, by rw [hjoin]⟩

/-! ## Three requests -/

/-- The gateway takes a header name in any case. -/
def lowerCaseHead : List UInt8 :=
  ascii "POST / HTTP/1.1\r\ncontent-length: 2\r\n\r\n"

def properHead : List UInt8 :=
  ascii "POST / HTTP/1.1\r\nContent-Length: 2\r\n\r\n"

theorem readHttpRequestRaw_properHead :
    readHttpRequestRaw 1024 [properHead ++ ascii "[]"] = .ok (properHead ++ ascii "[]") := by
  decide +kernel

theorem readHttpRequest_eq_iff_proper :
    (∃ left, readHttpRequest [properHead, ascii "[]"] = .ok (properHead ++ ascii "[]", left)) ↔
      SameFraming (properHead ++ ascii "[]") [properHead, ascii "[]"] :=
  readHttpRequest_eq_iff readHttpRequestRaw_properHead (by decide +kernel) rfl

/-- The server takes `content-length` for another header and leaves the body unread. -/
theorem readHttpRequest_drops_body :
    ¬∀ (maxBodyBytes : Nat) (clientFd pieces : List (List UInt8)) (R : List UInt8),
      readHttpRequestRaw maxBodyBytes clientFd = .ok R → (∀ piece ∈ pieces, piece ≠ []) →
        pieces.flatten = R → ∃ left, readHttpRequest pieces = .ok (R, left) := by
  intro h
  have hraw : readHttpRequestRaw 1024 [lowerCaseHead ++ ascii "[]"]
      = .ok (lowerCaseHead ++ ascii "[]") := by decide +kernel
  have hread : readHttpRequest [lowerCaseHead, ascii "[]"] = .ok (lowerCaseHead, [ascii "[]"]) := by
    decide +kernel
  rcases h 1024 _ [lowerCaseHead, ascii "[]"] _ hraw (by decide +kernel) rfl with ⟨left, hleft⟩
  rw [hread] at hleft
  have hshort : lowerCaseHead ≠ lowerCaseHead ++ ascii "[]" := by decide +kernel
  exact hshort (congrArg Prod.fst (Except.ok.inj hleft))

end Api
end PrefillOpt
