-- SUMMARY: The HTTP requests of the administration port: the parser, and the loop that reads a connection.
import EternityII.Base.Occurrence
import Mathlib.Data.Nat.Digits.Defs

/-!
# HTTP requests

The server reads a request chunk after chunk and parses all it has after each of them. A request is a
line, header lines and a blank line, then a body whose length a header announces. The parser looks for
the end of the request line in front of the blank line only, and takes a header for one it knows when the
line begins with its name.
-/

open List

/-! ## The parser -/

/-- `HTTP_REQUEST_MAX`. -/
def httpRequestMax : Nat := 8192

/-- `HTTP_METHOD_MAX`. -/
def httpMethodMax : Nat := 8

/-- `HTTP_PATH_MAX`. -/
def httpPathMax : Nat := 128

/-- `HTTP_AUTHORIZATION_MAX`. -/
def httpAuthorizationMax : Nat := 320

/-- The two results that refuse a request. -/
inductive HttpRefusal where
  | bad
  | tooLarge
deriving DecidableEq

/-- `http_request_t`. -/
structure HttpRequest where
  method : List Char
  path : List Char
  contentLength : Nat
  body : List Char
  authorization : List Char
deriving DecidableEq

/-- `http_parse_result_t`, with the request of `HTTP_PARSE_OK`. -/
inductive HttpParseResult where
  | ok (request : HttpRequest)
  | needMore
  | refused (refusal : HttpRefusal)
deriving DecidableEq

/-- The end of a line. -/
def crlf : List Char := ['\r', '\n']

/-- The end of the header lines. -/
def blankLine : List Char := ['\r', '\n', '\r', '\n']

/-- `ascii_lower`. -/
def asciiLower (c : Char) : Char := if 'A' ≤ c ∧ c ≤ 'Z' then Char.ofNat (c.toNat - 65 + 97) else c

/-- The two header names that the parser knows. -/
def authorizationName : List Char := "authorization".toList

@[inherit_doc authorizationName]
def contentLengthName : List Char := "content-length".toList

/-- `header_name_matches`. -/
def headerNameMatches (line name : List Char) : Bool :=
  name.length ≤ line.length ∧ (line.take name.length).map asciiLower = name.map asciiLower

/-- The value of a header line: what stands behind its first colon and the spaces and tabs there. -/
def headerValue (line : List Char) : Option (List Char) :=
  match line.dropWhile (· ≠ ':') with
  | [] => none
  | _ :: value => some (value.dropWhile fun c => c = ' ' ∨ c = '\t')

/-- The value of an `Authorization` line; one that does not fit is passed over. -/
def authorizationOf (line : List Char) : Option (List Char) :=
  (headerValue line).filter fun value => 0 < value.length ∧ value.length < httpAuthorizationMax

/-- The value of a `Content-Length` line. -/
def contentLengthOf (line : List Char) : Except HttpRefusal Nat :=
  match headerValue line with
  | none => .error .bad
  | some value =>
    if value.length = 0 ∨ value.length ≥ 16 then .error .bad
    else if ¬ value.all Char.isDigit then .error .bad
    else if Nat.ofDigitChars 10 value 0 > httpRequestMax then .error .tooLarge
    else .ok (Nat.ofDigitChars 10 value 0)

/-- What the header lines say. -/
structure HttpHeaders where
  authorization : List Char
  contentLength : Nat

/-- One turn of the loop over the header lines. -/
def parseHeader (h : HttpHeaders) (line : List Char) : Except HttpRefusal HttpHeaders :=
  if headerNameMatches line authorizationName then
    .ok { h with authorization := (authorizationOf line).getD h.authorization }
  else if headerNameMatches line contentLengthName then
    (contentLengthOf line).map fun n => { h with contentLength := n }
  else .ok h

/-- The lines that the loop over the header lines meets. -/
def headerLines (rest : List Char) : List (List Char) :=
  if rest = [] then []
  else
    match findFirst crlf rest with
    | none => [rest]
    | some i => rest.take i :: headerLines (rest.drop (i + 2))
termination_by rest.length
decreasing_by
  have hpos := List.length_pos_of_ne_nil ‹_›
  rw [List.length_drop]
  omega

/-- The method and the path of a request line. -/
def parseRequestLine (line : List Char) : Option (List Char × List Char) :=
  match line.dropWhile (· ≠ ' ') with
  | [] => none
  | _ :: rest =>
    let method := line.takeWhile (· ≠ ' ')
    if method.length = 0 ∨ method.length ≥ httpMethodMax then none
    else
      match rest.dropWhile (· ≠ ' ') with
      | [] => none
      | _ :: version =>
        let path := rest.takeWhile (· ≠ ' ')
        if path.length = 0 ∨ path.length ≥ httpPathMax then none
        else if "HTTP/".toList <+: version then some (method, path)
        else none

/-- What stands in front of the blank line, parsed. -/
def parseHead (head : List Char) : Except HttpRefusal ((List Char × List Char) × HttpHeaders) :=
  match findFirst crlf head with
  | none => .error .bad
  | some lineEnd =>
    match parseRequestLine (head.take lineEnd) with
    | none => .error .bad
    | some line => ((headerLines (head.drop (lineEnd + 2))).foldlM parseHeader ⟨[], 0⟩).map fun h => (line, h)

/-- More is needed, unless the buffer is full. -/
def httpIncomplete (len : Nat) : HttpParseResult := if len ≥ httpRequestMax then .refused .tooLarge else .needMore

/-- `http_request_parse`. -/
def httpRequestParse (buf : List Char) : HttpParseResult :=
  if buf.length > httpRequestMax then .refused .tooLarge
  else
    match findFirst blankLine buf with
    | none => httpIncomplete buf.length
    | some headersEnd =>
      match parseHead (buf.take headersEnd) with
      | .error refusal => .refused refusal
      | .ok ((method, path), h) =>
        let available := buf.drop (headersEnd + 4)
        if available.length < h.contentLength then httpIncomplete buf.length
        else .ok ⟨method, path, h.contentLength, available.take h.contentLength, h.authorization⟩

/-! ## The loop -/

/-- How the reading of a connection ends: with a request, with a refusal (400 or 413), or closed by the peer. -/
inductive HttpOutcome where
  | ok (request : HttpRequest)
  | answered (status : Nat)
  | closed
deriving DecidableEq

/-- The read loop of `handle_http_connection`. The peer sends `stream` and closes; `cut` says how many bytes
each `recv` would like to return, of those that are left and that fit. -/
def handleHttpConnection (stream : List Char) (cut : Nat → Nat) (k total : Nat) : HttpOutcome :=
  let n := min (max 1 (cut k)) (min (httpRequestMax - total) (stream.length - total))
  if n = 0 then .closed
  else
    match httpRequestParse (stream.take (total + n)) with
    | .needMore =>
      if total + n < httpRequestMax then handleHttpConnection stream cut (k + 1) (total + n) else .answered 413
    | .refused .bad => .answered 400
    | .refused .tooLarge => .answered 413
    | .ok request => .ok request
termination_by httpRequestMax - total
decreasing_by omega


/-! ## The chunks do not matter -/

section Chunks

variable {s : List Char} {n k total : Nat} {cut : Nat → Nat}

/-- The outcome as a function of what the peer sends. -/
def httpOutcome (stream : List Char) : HttpOutcome :=
  match httpRequestParse (stream.take httpRequestMax) with
  | .needMore => .closed
  | .refused .bad => .answered 400
  | .refused .tooLarge => .answered 413
  | .ok request => .ok request

theorem httpIncomplete_of_lt (h : n < httpRequestMax) : httpIncomplete n = .needMore := if_neg (Nat.not_le.mpr h)

theorem httpIncomplete_ne_ok (len : Nat) (req : HttpRequest) : httpIncomplete len ≠ .ok req := by
  unfold httpIncomplete
  split <;> nofun

/-- The parser on the first bytes of a stream. -/
theorem httpRequestParse_take (hn : n ≤ httpRequestMax) :
    httpRequestParse (s.take n) =
      match (findFirst blankLine s).filter (· + 4 ≤ n) with
      | none => httpIncomplete (s.take n).length
      | some e =>
        match parseHead (s.take e) with
        | .error refusal => .refused refusal
        | .ok ((method, path), h) =>
          if min n s.length < e + 4 + h.contentLength then httpIncomplete (s.take n).length
          else .ok ⟨method, path, h.contentLength, (s.drop (e + 4)).take h.contentLength, h.authorization⟩ := by
  have hsmall : ¬ (s.take n).length > httpRequestMax := by
    rw [List.length_take]
    omega
  have hfind : findFirst blankLine (s.take n) = (findFirst blankLine s).filter (· + 4 ≤ n) := findFirst_take (by decide) n
  rw [httpRequestParse, if_neg hsmall, hfind]
  cases hfound : (findFirst blankLine s).filter (· + 4 ≤ n) with
  | none => rfl
  | some e =>
    obtain ⟨he, hcover⟩ := Option.filter_eq_some_iff.mp hfound
    rw [decide_eq_true_eq] at hcover
    have hend : e + 4 ≤ s.length := findFirst_le he
    have hhead : (s.take n).take e = s.take e := by rw [List.take_take, Nat.min_eq_left (by omega)]
    dsimp only
    rw [hhead]
    cases parseHead (s.take e) with
    | error refusal => rfl
    | ok parsed =>
      obtain ⟨⟨method, path⟩, h⟩ := parsed
      dsimp only
      have hlength : ((s.take n).drop (e + 4)).length = min n s.length - (e + 4) := by rw [List.length_drop, List.length_take]
      rw [hlength]
      by_cases hshort : min n s.length < e + 4 + h.contentLength
      · rw [if_pos hshort, if_pos (by omega)]
      · have hbody : ((s.take n).drop (e + 4)).take h.contentLength = (s.drop (e + 4)).take h.contentLength := by
          rw [List.drop_take, List.take_take, Nat.min_eq_left (by omega)]
        rw [if_neg hshort, if_neg (by omega), hbody]

/-- What the parser has decided stays decided. -/
theorem httpRequestParse_stable (hn : n ≤ httpRequestMax) (hdecided : httpRequestParse (s.take n) ≠ .needMore) :
    httpRequestParse (s.take n) = httpRequestParse (s.take httpRequestMax) := by
  rcases Nat.eq_or_lt_of_le hn with rfl | hlt
  · rfl
  have hmore : httpIncomplete (s.take n).length = .needMore := by
    refine httpIncomplete_of_lt ?_
    rw [List.length_take]
    omega
  rw [httpRequestParse_take hn] at hdecided ⊢
  rw [httpRequestParse_take (Nat.le_refl _)]
  cases hfind : findFirst blankLine s with
  | none =>
    rw [hfind] at hdecided
    exact absurd hmore hdecided
  | some e =>
    rw [hfind] at hdecided
    by_cases hcover : e + 4 ≤ n
    · rw [Option.filter_some_pos (by simpa using hcover)] at hdecided ⊢
      rw [Option.filter_some_pos (by simpa using hcover.trans hn)]
      dsimp only at hdecided ⊢
      cases hhead : parseHead (s.take e) with
      | error refusal => rfl
      | ok parsed =>
        obtain ⟨⟨method, path⟩, h⟩ := parsed
        rw [hhead] at hdecided
        dsimp only at hdecided ⊢
        by_cases hshort : min n s.length < e + 4 + h.contentLength
        · rw [if_pos hshort] at hdecided
          exact absurd hmore hdecided
        · rw [if_neg hshort, if_neg (by omega)]
    · rw [Option.filter_some_neg (by simpa using hcover)] at hdecided
      exact absurd hmore hdecided

theorem length_lt_of_needMore {buf : List Char} (h : httpRequestParse buf = .needMore) : buf.length < httpRequestMax := by
  refine Nat.lt_of_not_le fun hfull => ?_
  have hincomplete : httpIncomplete buf.length = .refused .tooLarge := if_pos hfull
  unfold httpRequestParse at h
  split at h
  · cases h
  · split at h
    · rw [hincomplete] at h
      cases h
    · split at h
      · cases h
      · dsimp only at h
        split at h
        · rw [hincomplete] at h
          cases h
        · cases h

/-- The loop ends with the outcome of the stream, however it is cut. -/
theorem handleHttpConnection_eq (hmore : httpRequestParse (s.take total) = .needMore) (htotal : total ≤ s.length) :
    handleHttpConnection s cut k total = httpOutcome s := by
  induction hroom : httpRequestMax - total using Nat.strong_induction_on generalizing k total with
  | _ room ih =>
    subst hroom
    have hlt : total < httpRequestMax := by
      have hlength := length_lt_of_needMore hmore
      rw [List.length_take, Nat.min_eq_left htotal] at hlength
      exact hlength
    rw [handleHttpConnection]
    generalize hn : min (max 1 (cut k)) (min (httpRequestMax - total) (s.length - total)) = n
    by_cases hzero : n = 0
    · have hend : s.length = total := by omega
      have hwhole : s.take httpRequestMax = s.take total := by
        rw [List.take_of_length_le (by omega), List.take_of_length_le (by omega)]
      rw [if_pos hzero, httpOutcome, hwhole, hmore]
    · have hle : total + n ≤ httpRequestMax := by omega
      rw [if_neg hzero]
      by_cases hdecided : httpRequestParse (s.take (total + n)) = .needMore
      · have hlength := length_lt_of_needMore hdecided
        rw [List.length_take] at hlength
        have hless : total + n < httpRequestMax := by omega
        rw [hdecided]
        dsimp only
        rw [if_pos hless]
        exact ih _ (by omega) hdecided (by omega) rfl
      · have hsame := httpRequestParse_stable hle hdecided
        rw [httpOutcome, ← hsame]
        cases hresult : httpRequestParse (s.take (total + n)) with
        | needMore => exact absurd hresult hdecided
        | ok request => rfl
        | refused refusal => cases refusal <;> rfl

theorem handleHttpConnection_zero : handleHttpConnection s cut 0 0 = httpOutcome s :=
  handleHttpConnection_eq rfl (Nat.zero_le _)

end Chunks

/-! ## Header lines -/

/-- The name of a header line is exactly `name`, in any case, and a colon follows it. -/
def namedExactly (name line : List Char) : Bool := headerNameMatches line name ∧ (line)[name.length]? = some ':'

/-- What the parser takes from a line for the authorization. -/
def readAuthorization (line : List Char) : Option (List Char) :=
  if headerNameMatches line authorizationName then authorizationOf line else none

/-- What the parser takes from a line for the length of the body. -/
def readContentLength (line : List Char) : Option Nat :=
  if headerNameMatches line contentLengthName then (contentLengthOf line).toOption else none

/-- What a line with exactly that name says of the authorization. -/
def exactAuthorization (line : List Char) : Option (List Char) :=
  if namedExactly authorizationName line then authorizationOf line else none

/-- What a line with exactly that name says of the length of the body. -/
def exactContentLength (line : List Char) : Option Nat :=
  if namedExactly contentLengthName line then (contentLengthOf line).toOption else none

/-- The lines that begin with the name of the length do announce one. -/
def LengthsRead (lines : List (List Char)) : Prop :=
  ∀ line ∈ lines, headerNameMatches line contentLengthName = true → ∃ n, contentLengthOf line = .ok n

section Headers

variable {line : List Char} {lines : List (List Char)} {h h₀ : HttpHeaders}

theorem not_contentLength_of_authorization (hmatch : headerNameMatches line authorizationName = true) :
    headerNameMatches line contentLengthName = false := by
  cases line with
  | nil => cases hmatch
  | cons c rest =>
    have hfirst : asciiLower c = 'a' := by
      have hboth := of_decide_eq_true hmatch
      exact (List.cons.inj hboth.2).1
    refine decide_eq_false fun hboth => ?_
    have hother : asciiLower c = 'c' := (List.cons.inj hboth.2).1
    rw [hfirst] at hother
    cases hother

theorem exactAuthorization_sub {v : List Char} (h : exactAuthorization line = some v) : readAuthorization line = some v := by
  obtain ⟨hexact, hv⟩ := Option.ite_none_right_eq_some.mp h
  exact (if_pos (of_decide_eq_true hexact).1).trans hv

theorem exactContentLength_sub {n : Nat} (h : exactContentLength line = some n) : readContentLength line = some n := by
  obtain ⟨hexact, hn⟩ := Option.ite_none_right_eq_some.mp h
  exact (if_pos (of_decide_eq_true hexact).1).trans hn

theorem parseHeader_eq_ok : parseHeader h₀ line = .ok h ↔
    (headerNameMatches line contentLengthName = true → ∃ n, contentLengthOf line = .ok n) ∧
      h = ⟨(readAuthorization line).getD h₀.authorization, (readContentLength line).getD h₀.contentLength⟩ := by
  unfold parseHeader readAuthorization readContentLength
  by_cases hauth : headerNameMatches line authorizationName = true
  · have hlength := not_contentLength_of_authorization hauth
    rw [if_pos hauth, if_pos hauth, hlength, and_iff_right nofun, eq_comm (a := h)]
    exact ⟨Except.ok.inj, congrArg Except.ok⟩
  · rw [if_neg hauth, if_neg hauth]
    by_cases hname : headerNameMatches line contentLengthName = true
    · rw [if_pos hname, if_pos hname]
      cases hvalue : contentLengthOf line with
      | error refusal =>
        refine iff_of_false nofun fun ⟨hread, _⟩ => ?_
        obtain ⟨n, hn⟩ := hread hname
        cases hn
      | ok n =>
        have hread : headerNameMatches line contentLengthName = true → ∃ m, Except.ok n = (.ok m : Except HttpRefusal Nat) :=
          fun _ => ⟨n, rfl⟩
        rw [and_iff_right hread, eq_comm (a := h)]
        exact ⟨Except.ok.inj, congrArg Except.ok⟩
    · rw [if_neg hname, if_neg hname, and_iff_right fun hyes => absurd hyes hname, eq_comm (a := h)]
      exact ⟨Except.ok.inj, congrArg Except.ok⟩

/-- What the loop over the header lines finds. -/
theorem foldlM_parseHeader : lines.foldlM parseHeader h₀ = .ok h ↔
    LengthsRead lines ∧ h = ⟨(lastSome readAuthorization lines).getD h₀.authorization,
      (lastSome readContentLength lines).getD h₀.contentLength⟩ := by
  induction lines using List.reverseRecOn generalizing h with
  | nil =>
    have hnil : LengthsRead [] := nofun
    rw [and_iff_right hnil, eq_comm (a := h)]
    exact ⟨Except.ok.inj, congrArg Except.ok⟩
  | append_singleton lines line ih =>
    have hsplit : LengthsRead (lines ++ [line]) ↔ LengthsRead lines ∧
        (headerNameMatches line contentLengthName = true → ∃ n, contentLengthOf line = .ok n) := by
      simp only [LengthsRead, List.mem_append, List.mem_singleton, or_imp, forall_and, forall_eq]
    rw [List.foldlM_append, hsplit, lastSome_concat, lastSome_concat]
    constructor
    · intro hrun
      cases hinit : lines.foldlM parseHeader h₀ with
      | error refusal =>
        rw [hinit] at hrun
        cases hrun
      | ok h₁ =>
        rw [hinit] at hrun
        obtain ⟨hread, rfl⟩ := ih.mp hinit
        obtain ⟨hline, rfl⟩ := parseHeader_eq_ok.mp ((bind_pure _).symm.trans hrun)
        refine ⟨⟨hread, hline⟩, ?_⟩
        simp [Option.getD_or]
    · rintro ⟨⟨hread, hline⟩, rfl⟩
      rw [ih.mpr ⟨hread, rfl⟩]
      show (parseHeader _ line >>= pure) = _
      rw [bind_pure, parseHeader_eq_ok]
      exact ⟨hline, by simp [Option.getD_or]⟩

end Headers

/-! ## Requests that are accepted -/

/-- The request line, the header lines, and what follows the first blank line. -/
structure HttpParts where
  line : List Char
  lines : List (List Char)
  rest : List Char

/-- The parts of what a peer sends, when there is a line in front of the last one before the blank line. -/
def httpParts (s : List Char) : Option HttpParts :=
  (findFirst blankLine s).bind fun e => (findFirst crlf (s.take e)).map fun i =>
    ⟨(s.take e).take i, headerLines ((s.take e).drop (i + 2)), s.drop (e + 4)⟩

/-- The length of the body that the parser takes from the header lines. -/
def announcedLength (lines : List (List Char)) : Nat := (lastSome readContentLength lines).getD 0

/-- The request line is valid, the lengths can be read, and the body is there and fits. -/
structure HttpParts.Accepted (p : HttpParts) (s : List Char) : Prop where
  line : (parseRequestLine p.line).isSome = true
  lengths : LengthsRead p.lines
  body : announcedLength p.lines ≤ p.rest.length
  fits : s.length - p.rest.length + announcedLength p.lines ≤ httpRequestMax

/-- A valid request line stands directly in front of the blank line. -/
def Headless (s line : List Char) : Prop :=
  findFirst blankLine s = some line.length ∧ line <+: s ∧ line.length + 4 ≤ httpRequestMax ∧ findFirst crlf line = none ∧
    (parseRequestLine line).isSome = true

/-- The last line that begins with one of the two names and gives a value has exactly that name, or repeats
what the lines with exactly that name in front of it say. -/
def HeadersExact (lines : List (List Char)) : Prop :=
  (∀ before line after v, lines = before ++ line :: after → readAuthorization line = some v →
    exactAuthorization line = none → (∀ l ∈ after, readAuthorization l = none) →
      v = (lastSome exactAuthorization before).getD []) ∧
  ∀ before line after n, lines = before ++ line :: after → readContentLength line = some n →
    exactContentLength line = none → (∀ l ∈ after, readContentLength l = none) →
      n = (lastSome exactContentLength before).getD 0

/-- A request says what the bytes say: the method and the path stand between the spaces of the request line,
the two headers are those with exactly that name, and the body is what follows the blank line. -/
def RequestRight (s : List Char) (req : HttpRequest) : Prop :=
  ∃ line tail rest version, s = line ++ (crlf ++ (tail ++ (blankLine ++ rest))) ∧
    findFirst blankLine s = some (line ++ (crlf ++ tail)).length ∧ findFirst crlf (line ++ (crlf ++ tail)) = some line.length ∧
    line = req.method ++ ' ' :: (req.path ++ ' ' :: version) ∧ ' ' ∉ req.method ∧ ' ' ∉ req.path ∧
    req.authorization = (lastSome exactAuthorization (headerLines tail)).getD [] ∧
    req.contentLength = (lastSome exactContentLength (headerLines tail)).getD 0 ∧
    req.contentLength ≤ rest.length ∧ req.body = rest.take req.contentLength

section Accepted

variable {s line : List Char} {p : HttpParts} {req : HttpRequest}

theorem parseRequestLine_eq_some {method path : List Char} (h : parseRequestLine line = some (method, path)) :
    ∃ version, line = method ++ ' ' :: (path ++ ' ' :: version) ∧ ' ' ∉ method ∧ ' ' ∉ path := by
  unfold parseRequestLine at h
  split at h
  · cases h
  · rename_i rest hfirst
    dsimp only at h
    split at h
    · cases h
    · split at h
      · cases h
      · rename_i version hsecond
        split at h
        · cases h
        · obtain ⟨-, heq⟩ := Option.ite_none_right_eq_some.mp h
          cases heq
          refine ⟨version, ?_, notMem_takeWhile, notMem_takeWhile⟩
          rw [← eq_append_of_dropWhile hsecond]
          exact eq_append_of_dropWhile hfirst

/-- The parts put together again. -/
theorem httpParts_eq (h : httpParts s = some p) : ∃ tail, s = p.line ++ (crlf ++ (tail ++ (blankLine ++ p.rest))) ∧
    findFirst blankLine s = some (p.line ++ (crlf ++ tail)).length ∧
    findFirst crlf (p.line ++ (crlf ++ tail)) = some p.line.length ∧ p.lines = headerLines tail := by
  obtain ⟨e, he, h⟩ := Option.bind_eq_some_iff.mp h
  obtain ⟨i, hi, rfl⟩ := Option.map_eq_some_iff.mp h
  have hs := eq_append_of_findFirst he
  have hhead := eq_append_of_findFirst hi
  have hele := findFirst_le he
  have hile := findFirst_le hi
  have hlength : (s.take e).length = e := by rw [List.length_take]; omega
  refine ⟨(s.take e).drop (i + 2), ?_, ?_, ?_, rfl⟩
  · conv_lhs => rw [hs, hhead]
    simp only [List.append_assoc]
    rfl
  · rw [he, show (s.take e).take i ++ (crlf ++ (s.take e).drop (i + 2)) = s.take e from hhead.symm, hlength]
  · rw [show (s.take e).take i ++ (crlf ++ (s.take e).drop (i + 2)) = s.take e from hhead.symm, hi, List.length_take,
      Nat.min_eq_left (by omega)]

theorem httpParts_of_eq {tail rest : List Char} (heq : s = line ++ (crlf ++ (tail ++ (blankLine ++ rest))))
    (hblank : findFirst blankLine s = some (line ++ (crlf ++ tail)).length)
    (hend : findFirst crlf (line ++ (crlf ++ tail)) = some line.length) :
    httpParts s = some ⟨line, headerLines tail, rest⟩ := by
  have hs : s = (line ++ (crlf ++ tail)) ++ (blankLine ++ rest) := by
    rw [heq]
    simp only [List.append_assoc]
  have hhead : s.take (line ++ (crlf ++ tail)).length = line ++ (crlf ++ tail) := by
    rw [hs]
    exact List.take_left
  have hrest : s.drop ((line ++ (crlf ++ tail)).length + 4) = rest := by
    rw [← List.drop_drop, hs, List.drop_left]
    rfl
  have htail : (line ++ (crlf ++ tail)).drop (line.length + 2) = tail := by
    rw [← List.drop_drop, List.drop_left]
    rfl
  rw [httpParts, hblank, Option.bind_some, hhead, hend, Option.map_some, hrest, htail, List.take_left]

theorem parseHead_eq_ok {head : List Char} {method path : List Char} {h : HttpHeaders} :
    parseHead head = .ok ((method, path), h) ↔ ∃ i, findFirst crlf head = some i ∧
      parseRequestLine (head.take i) = some (method, path) ∧ LengthsRead (headerLines (head.drop (i + 2))) ∧
        h = ⟨(lastSome readAuthorization (headerLines (head.drop (i + 2)))).getD [],
          announcedLength (headerLines (head.drop (i + 2)))⟩ := by
  unfold parseHead
  cases hend : findFirst crlf head with
  | none => exact iff_of_false nofun (by simp)
  | some i =>
    dsimp only
    cases hline : parseRequestLine (head.take i) with
    | none =>
      refine iff_of_false nofun ?_
      rintro ⟨j, hj, hnone, -⟩
      cases hj
      rw [hline] at hnone
      cases hnone
    | some line =>
      dsimp only
      constructor
      · intro hok
        cases hrun : (headerLines (head.drop (i + 2))).foldlM parseHeader ⟨[], 0⟩ with
        | error refusal =>
          rw [hrun] at hok
          cases hok
        | ok h' =>
          rw [hrun] at hok
          cases hok
          exact ⟨i, rfl, hline, foldlM_parseHeader.mp hrun⟩
      · rintro ⟨j, hj, hline', hread⟩
        cases hj
        cases Option.some.inj (hline.symm.trans hline')
        rw [foldlM_parseHeader.mpr hread]
        rfl

/-- The request that the connection gets is the one of the parser on what fits. -/
theorem httpOutcome_eq_ok_iff_parse : httpOutcome s = .ok req ↔ httpRequestParse (s.take httpRequestMax) = .ok req := by
  unfold httpOutcome
  cases httpRequestParse (s.take httpRequestMax) with
  | ok request => exact ⟨fun h => congrArg _ (HttpOutcome.ok.inj h), fun h => congrArg _ (HttpParseResult.ok.inj h)⟩
  | needMore => exact iff_of_false nofun nofun
  | refused refusal => cases refusal <;> exact iff_of_false nofun nofun

/-- The request that the parser makes of accepted parts. -/
theorem httpOutcome_eq_ok : httpOutcome s = .ok req ↔ ∃ p, httpParts s = some p ∧ p.Accepted s ∧
    parseRequestLine p.line = some (req.method, req.path) ∧
    req.authorization = (lastSome readAuthorization p.lines).getD [] ∧ req.contentLength = announcedLength p.lines ∧
    req.body = p.rest.take req.contentLength := by
  rw [httpOutcome_eq_ok_iff_parse, httpRequestParse_take (Nat.le_refl _)]
  constructor
  · intro hok
    cases hfind : (findFirst blankLine s).filter (· + 4 ≤ httpRequestMax) with
    | none =>
      rw [hfind] at hok
      dsimp only at hok
      exact absurd hok (httpIncomplete_ne_ok _ req)
    | some e =>
      rw [hfind] at hok
      dsimp only at hok
      obtain ⟨he, hcover⟩ := Option.filter_eq_some_iff.mp hfind
      have hele := findFirst_le he
      have hlen4 : blankLine.length = 4 := rfl
      cases hhead : parseHead (s.take e) with
      | error refusal =>
        rw [hhead] at hok
        cases hok
      | ok parsed =>
        obtain ⟨⟨method, path⟩, h⟩ := parsed
        rw [hhead] at hok
        dsimp only at hok
        by_cases hshort : min httpRequestMax s.length < e + 4 + h.contentLength
        · rw [if_pos hshort] at hok
          exact absurd hok (httpIncomplete_ne_ok _ req)
        · rw [if_neg hshort] at hok
          cases hok
          obtain ⟨i, hi, hline, hread, rfl⟩ := parseHead_eq_ok.mp hhead
          have hparts : httpParts s = some ⟨(s.take e).take i, headerLines ((s.take e).drop (i + 2)), s.drop (e + 4)⟩ := by
            rw [httpParts, he, Option.bind_some, hi, Option.map_some]
          refine ⟨_, hparts, ⟨by rw [hline]; rfl, hread, ?_, ?_⟩, hline, rfl, rfl, rfl⟩
          · dsimp only at hshort ⊢
            rw [List.length_drop]
            omega
          · dsimp only at hshort ⊢
            rw [List.length_drop]
            omega
  · rintro ⟨p, hparts, haccepted, hline, hauth, hlength, hbody⟩
    obtain ⟨e, he, hparts⟩ := Option.bind_eq_some_iff.mp hparts
    obtain ⟨i, hi, rfl⟩ := Option.map_eq_some_iff.mp hparts
    have hele := findFirst_le he
    have hlen4 : blankLine.length = 4 := rfl
    have hbodyRoom := haccepted.body
    have hfits := haccepted.fits
    dsimp only at hline hauth hlength hbody hbodyRoom hfits
    rw [List.length_drop] at hbodyRoom hfits
    have hcover : e + 4 ≤ httpRequestMax := by omega
    have hhead := parseHead_eq_ok.mpr ⟨i, hi, hline, haccepted.lengths, rfl⟩
    rw [he, Option.filter_some_pos (by simpa using hcover)]
    dsimp only
    rw [hhead]
    dsimp only
    rw [if_neg (by omega), ← hauth, ← hlength, ← hbody]

end Accepted

/-! ## When the reading of a connection is right -/

/-- The outcome does not depend on how the stream is cut, a request that is accepted says what the bytes say,
and a valid request line without header lines is accepted. -/
def HttpRight (s : List Char) : Prop :=
  (∀ cut cut', handleHttpConnection s cut 0 0 = handleHttpConnection s cut' 0 0) ∧
  (∀ cut req, handleHttpConnection s cut 0 0 = .ok req → RequestRight s req) ∧
  ∀ line, Headless s line → ∀ cut, ∃ req, handleHttpConnection s cut 0 0 = .ok req

/-- The header lines of a request that is accepted are exact, and no valid request line stands alone. -/
def HttpClean (s : List Char) : Prop :=
  (∀ p, httpParts s = some p → p.Accepted s → HeadersExact p.lines) ∧ ∀ line, ¬ Headless s line

theorem not_ok_of_headless {s line : List Char} (h : Headless s line) {req : HttpRequest} : httpOutcome s ≠ .ok req := by
  obtain ⟨hblank, ⟨rest, rfl⟩, -, hnone, -⟩ := h
  intro hok
  obtain ⟨p, hparts, -⟩ := httpOutcome_eq_ok.mp hok
  rw [httpParts, hblank, Option.bind_some, List.take_left, hnone] at hparts
  cases hparts

theorem headersExact_iff {lines : List (List Char)} : HeadersExact lines ↔
    (lastSome readAuthorization lines).getD [] = (lastSome exactAuthorization lines).getD [] ∧
      announcedLength lines = (lastSome exactContentLength lines).getD 0 := by
  rw [announcedLength, lastSome_eq_iff fun _ _ => exactAuthorization_sub, lastSome_eq_iff fun _ _ => exactContentLength_sub,
    HeadersExact]

namespace HttpExample

/-- A request line and nothing else. -/
def headless : List Char := "GET /api/v1/stats HTTP/1.1\r\n\r\n".toList

/-- A header whose name only begins with the name of the length. -/
def longerName : List Char := "POST / HTTP/1.1\r\nContent-Length-Hint: 2\r\n\r\nab".toList

end HttpExample
