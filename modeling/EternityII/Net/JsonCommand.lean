-- SUMMARY: The body of a command request: the extraction of its command, and the route that executes it.
import EternityII.Base.JsonText
import EternityII.Net.ControlCommands
import EternityII.Net.HttpRequest

/-!
# The command of a request

The body of a command request is a JSON object with a member `command`. The server looks for the quoted name
in the text of the body, wherever it stands, and reads the string behind it.
-/

open List

/-! ## The extraction -/

/-- The size of `pattern`. -/
def jsonPatternSize : Nat := 64

/-- A space or a tab. -/
def isJsonGap (c : Char) : Bool := c = ' ' ∨ c = '\t'

/-- The loop that copies a string, after `written` bytes. -/
def copyJsonString (outSize : Nat) : Nat → List Char → Option (List Char)
  | _, [] => none
  | written, c :: rest =>
    if c = '"' then some []
    else if c = '\\' then none
    else if written + 1 ≥ outSize then none
    else (copyJsonString outSize (written + 1) rest).map (c :: ·)

/-- What stands behind spaces and tabs and the character `c`. -/
def behindGap (c : Char) (text : List Char) : Option (List Char) :=
  match text.dropWhile isJsonGap with
  | [] => none
  | d :: rest => if d = c then some rest else none

/-- What is read behind the quoted key: a colon, then a string. -/
def readJsonMember (outSize : Nat) (text : List Char) : Option (List Char) :=
  (behindGap ':' text).bind fun rest => (behindGap '"' rest).bind (copyJsonString outSize 0)

/-- `http_json_extract_string`. -/
def httpJsonExtractString (body key : List Char) (outSize : Nat) : Option (List Char) :=
  if outSize = 0 then none
  else if (quoted key).length ≥ jsonPatternSize then none
  else (afterFirst (quoted key) body).bind (readJsonMember outSize)

/-! ## The route -/

/-- `HTTP_COMMAND_MAX`. -/
def httpCommandMax : Nat := 128

/-- `HTTP_ADMIN_TOKEN_MAX`. -/
def httpAdminTokenMax : Nat := 256

/-- The name of the member. -/
def commandKey : List Char := "command".toList

/-- `ascii_lower_char`. -/
def asciiLowerChar (c : Char) : Char := asciiLower c

/-- `http_extract_bearer_token`. -/
def httpExtractBearerToken (authorization : List Char) (outSize : Nat) : Option (List Char) :=
  let scheme := "Bearer".toList
  if outSize = 0 then none
  else if authorization.length ≤ scheme.length then none
  else if (authorization.take scheme.length).map asciiLowerChar ≠ scheme.map asciiLowerChar then none
  else
    let cursor := authorization.drop scheme.length
    if ¬ cursor.head?.any isJsonGap then none
    else
      let token := cursor.dropWhile isJsonGap
      if token.length = 0 ∨ token.length ≥ outSize then none else some token

/-- `http_token_equals_constant_time`. -/
def httpTokenEqualsConstantTime (a b : List Char) (maxLen : Nat) : Bool :=
  maxLen ≠ 0 ∧ min a.length maxLen = min b.length maxLen ∧ a.take maxLen = b.take maxLen

/-- `http_cmd_auth_result_t`. -/
inductive HttpCmdAuthResult where
  | ok
  | forbidden
  | unauthorized
deriving DecidableEq

/-- `http_command_authorize`. -/
def httpCommandAuthorize (isPublic needsAuth hasConfiguredToken tokenValid : Bool) : HttpCmdAuthResult :=
  if isPublic then .ok
  else if needsAuth then if hasConfiguredToken ∧ tokenValid then .ok else .unauthorized
  else .forbidden

/-- The status of the answer, and the command that was handed over for execution. -/
structure CommandReply where
  status : Nat
  executed : Option (List Char)

/-- `handle_command_route`: `admin` is what executing a command answers. -/
def handleCommandRoute (adminToken authorization body : List Char) (admin : List Char → AdminCmdResult) : CommandReply :=
  match httpJsonExtractString body commandKey httpCommandMax with
  | none => ⟨400, none⟩
  | some command =>
    let cmdClass := controlCommandClassify command
    let needsAuth := cmdClass = .writeRelayable ∨ cmdClass = .writeServerOnly
    let hasConfiguredToken := adminToken ≠ []
    let tokenValid := needsAuth ∧ hasConfiguredToken ∧
      (httpExtractBearerToken authorization httpAdminTokenMax).any fun token =>
        0 < token.length ∧ httpTokenEqualsConstantTime token adminToken httpAdminTokenMax
    match httpCommandAuthorize (cmdClass = .readOnly) needsAuth hasConfiguredToken tokenValid with
    | .forbidden => ⟨403, none⟩
    | .unauthorized => ⟨401, none⟩
    | .ok =>
      match admin command with
      | .ok => ⟨200, some command⟩
      | .forbidden => ⟨403, some command⟩
      | .badArgs => ⟨400, some command⟩

/-! ## Documents -/

/-- A JSON text that is an object. -/
structure JsonDocument where
  before : JsonBlank
  blank : JsonBlank
  members : JsonMembers
  after : JsonBlank

namespace JsonDocument

/-- The text of a document. -/
def text (d : JsonDocument) : List Char :=
  d.before.text ++ ('\x7b' :: (d.blank.text ++ (d.members.text true ++ ('}' :: d.after.text))))

/-- The value of the member `command`. -/
def command? (d : JsonDocument) : Option JsonValue := d.members.find? (commandKey.map Char.toNat)

/-- The first string of a document, name or value, that is `command` or ends with it behind an escaped quote. -/
def firstMark (d : JsonDocument) : Option JsonMark := d.members.firstMark commandKey

end JsonDocument

/-! ## What the extraction reads -/

/-- Whitespace of spaces and tabs. -/
def JsonBlank.IsGap (b : JsonBlank) : Prop := ∀ w ∈ b, w = .space ∨ w = .tab

instance (b : JsonBlank) : Decidable b.IsGap := inferInstanceAs (Decidable (∀ w ∈ b, _))

/-- What is read behind a marked string: the value of the member it names, a string without escapes that fits,
when only spaces and tabs stand around the colon. -/
def JsonMark.reads (outSize : Nat) : JsonMark → Option (List Char)
  | .name beforeColon afterColon (.string s) =>
    if beforeColon.IsGap ∧ afterColon.IsGap then s.plain?.filter fun t => t.length < outSize else none
  | _ => none

section Reading

variable {outSize written : Nat} {q r : List Char} {c d : Char} {b : JsonBlank}

/-- The copy of a string. -/
theorem copyJsonString_inner (s : JsonString) (hroom : written < outSize) :
    copyJsonString outSize written (s.inner ++ '"' :: q) = s.plain?.filter fun t => written + t.length < outSize := by
  induction s generalizing written with
  | nil =>
    have hfit : decide (written + ([] : List Char).length < outSize) = true := decide_eq_true hroom
    rw [JsonString.plain?, Option.filter_some, if_pos hfit]
    rfl
  | cons c s ih =>
    cases c with
    | escape e => exact if_neg (by decide)
    | unicode a b c d => exact if_neg (by decide)
    | plain c =>
      have hplain := of_decide_eq_true c.property
      show copyJsonString outSize written (c.val :: (JsonString.inner s ++ '"' :: q)) = _
      rw [copyJsonString, if_neg hplain.1, if_neg hplain.2.1]
      show _ = ((JsonString.plain? s).map (c.val :: ·)).filter _
      by_cases hfull : written + 1 ≥ outSize
      · rw [if_pos hfull]
        refine (Option.filter_eq_none_iff.mpr fun t ht => ?_).symm
        obtain ⟨t', -, rfl⟩ := Option.map_eq_some_iff.mp ht
        rw [decide_eq_true_iff, List.length_cons]
        omega
      · rw [if_neg hfull, ih (by omega)]
        cases JsonString.plain? s with
        | none => rfl
        | some t =>
          rw [Option.map_some, Option.filter_some, Option.filter_some, List.length_cons, Nat.add_right_comm, Nat.add_assoc]
          split <;> rfl

theorem behindGap_of_gap (hb : b.IsGap) (hd : isJsonGap d = false) :
    behindGap c (b.text ++ d :: q) = if d = c then some q else none := by
  have hdrop : (b.text ++ d :: q).dropWhile isJsonGap = d :: q := by
    induction b with
    | nil => exact List.dropWhile_cons_of_neg (by rw [hd]; exact Bool.false_ne_true)
    | cons w b ih =>
      have hw : isJsonGap w.char = true := by
        rcases hb w (List.mem_cons_self ..) with rfl | rfl <;> decide
      exact (List.dropWhile_cons_of_pos hw).trans (ih fun w' hw' => hb w' (List.mem_cons_of_mem w hw'))
  rw [behindGap, hdrop]

/-- Whitespace that is no gap stops the reading at the end of a line. -/
theorem behindGap_of_not_gap (hb : ¬ b.IsGap) (hc : ∀ w : JsonSpace, w.char ≠ c) : behindGap c (b.text ++ q) = none := by
  have hdrop : ∃ (w : JsonSpace) (rest : List Char), (b.text ++ q).dropWhile isJsonGap = w.char :: rest := by
    induction b with
    | nil => exact absurd nofun hb
    | cons w b ih =>
      by_cases hw : isJsonGap w.char = true
      · have hgap : w = .space ∨ w = .tab := by
          cases w with
          | space => exact .inl rfl
          | tab => exact .inr rfl
          | lineFeed => cases hw
          | carriageReturn => cases hw
        obtain ⟨w', rest, heq⟩ := ih fun h => hb fun v hv => by
          cases hv with
          | head => exact hgap
          | tail _ hv => exact h v hv
        exact ⟨w', rest, (List.dropWhile_cons_of_pos hw).trans heq⟩
      · exact ⟨w, JsonBlank.text b ++ q, List.dropWhile_cons_of_neg hw⟩
  obtain ⟨w, rest, heq⟩ := hdrop
  rw [behindGap, heq]
  exact if_neg (hc w)

/-- The first byte of a value. -/
theorem JsonValue.text_cons (v : JsonValue) : ∃ c rest, v.text = c :: rest ∧ isJsonGap c = false ∧
    (c = '"' ↔ ∃ s, v = .string s) := by
  cases v with
  | string s => exact ⟨'"', s.inner ++ ['"'], rfl, by decide, fun _ => ⟨s, rfl⟩, fun _ => rfl⟩
  | atom a =>
    obtain ⟨c, rest, heq⟩ := List.exists_cons_of_ne_nil a.property.1
    have hword : isWordChar c = true := a.property.2 c (heq ▸ List.mem_cons_self ..)
    refine ⟨c, rest, heq, Bool.eq_false_iff.mpr fun hgap => ?_, fun hquote => ?_, nofun⟩
    · rcases of_decide_eq_true hgap with rfl | rfl <;> exact absurd hword (by decide)
    · exact absurd (hquote ▸ hword) (by decide)
  | array b es => exact ⟨'[', _, rfl, by decide, fun h => absurd h (by decide), nofun⟩
  | object b ms => exact ⟨'\x7b', _, rfl, by decide, fun h => absurd h (by decide), nofun⟩

theorem reads_of_not_gap {beforeColon afterColon : JsonBlank} {v : JsonValue} (h : ¬ (beforeColon.IsGap ∧ afterColon.IsGap)) :
    (JsonMark.name beforeColon afterColon v).reads outSize = none := by
  cases v with
  | string s => exact if_neg h
  | atom a => rfl
  | array b es => rfl
  | object b ms => rfl

/-- Nothing fits a buffer without room. -/
theorem reads_zero {m : JsonMark} (hsize : outSize = 0) : m.reads outSize = none := by
  subst hsize
  cases m with
  | value => rfl
  | name beforeColon afterColon v =>
    cases v with
    | string s =>
      rw [JsonMark.reads]
      split
      · exact Option.filter_eq_none_iff.mpr fun t _ => by rw [decide_eq_true_iff]; exact Nat.not_lt_zero _
      · rfl
    | atom a => rfl
    | array b es => rfl
    | object b ms => rfl

/-- The string that a value is read as. -/
theorem readString_value (v : JsonValue) (hsize : 0 < outSize) :
    (behindGap '"' (b.text ++ (v.text ++ r))).bind (copyJsonString outSize 0) =
      (JsonMark.name [] b v).reads outSize := by
  obtain ⟨c, rest, hv, hgap, hquote⟩ := v.text_cons
  by_cases hb : b.IsGap
  · rw [hv, List.cons_append, behindGap_of_gap hb hgap]
    by_cases hstring : ∃ s, v = .string s
    · obtain ⟨s, rfl⟩ := hstring
      obtain ⟨rfl, rfl⟩ := List.cons.inj hv.symm
      have hcopy := copyJsonString_inner (q := r) s hsize
      simp only [Nat.zero_add] at hcopy
      rw [if_pos rfl, Option.bind_some, List.append_assoc, JsonMark.reads, if_pos ⟨nofun, hb⟩]
      exact hcopy
    · rw [if_neg fun h => hstring (hquote.mp h), Option.bind_none]
      cases v with
      | string s => exact absurd ⟨s, rfl⟩ hstring
      | atom a => rfl
      | array b es => rfl
      | object b ms => rfl
  · rw [behindGap_of_not_gap hb (by intro w; cases w <;> decide), Option.bind_none]
    exact (reads_of_not_gap fun h => hb h.2).symm

/-- What is read behind a marked string. -/
theorem readJsonMember_mark (m : JsonMark) (hsize : 0 < outSize) (hr : Follows r) :
    readJsonMember outSize (m.text ++ r) = m.reads outSize := by
  have hcolon : ∀ w : JsonSpace, w.char ≠ ':' := by intro w; cases w <;> decide
  rw [readJsonMember]
  cases m with
  | value =>
    -- behind a value stands no colon
    obtain ⟨b, d, rest, rfl, hd⟩ := hr
    rw [JsonMark.text, List.nil_append]
    by_cases hb : b.IsGap
    · have hend : isJsonGap d = false ∧ d ≠ ':' := by
        obtain rfl | rfl | rfl : d = ',' ∨ d = ']' ∨ d = '}' := by simpa using hd
        · decide
        · decide
        · decide
      rw [behindGap_of_gap hb hend.1, if_neg hend.2]
      rfl
    · rw [behindGap_of_not_gap hb hcolon]
      rfl
  | name beforeColon afterColon v =>
    rw [JsonMark.text, List.append_assoc, List.cons_append, List.append_assoc]
    by_cases hb : beforeColon.IsGap
    · rw [behindGap_of_gap hb (by decide), if_pos rfl, Option.bind_some, readString_value v hsize]
      cases v with
      | string s => exact if_congr (and_congr (iff_of_true nofun hb) Iff.rfl) rfl rfl
      | atom a => rfl
      | array b es => rfl
      | object b ms => rfl
    · rw [behindGap_of_not_gap hb hcolon, Option.bind_none]
      exact (reads_of_not_gap fun h => hb h.1).symm

/-- The extraction reads behind the first mark of the document. -/
theorem httpJsonExtractString_eq (d : JsonDocument) :
    httpJsonExtractString d.text commandKey outSize = d.firstMark.bind (JsonMark.reads outSize) := by
  have hword : IsWord commandKey := by decide
  by_cases hsize : outSize = 0
  · rw [httpJsonExtractString, if_pos hsize]
    cases d.firstMark with
    | none => rfl
    | some m => exact (reads_zero hsize).symm
  · rw [httpJsonExtractString, if_neg hsize, if_neg (by decide)]
    have htext : afterFirst (quoted commandKey) d.text =
        afterFirst (quoted commandKey) (d.members.text true ++ '}' :: d.after.text) := by
      rw [JsonDocument.text, afterFirst_blank, afterFirst_cons_of_ne (by decide), afterFirst_blank]
    have hfound := d.members.foundAt hword true d.after.text
    rw [htext, JsonDocument.firstMark]
    cases hmark : d.members.firstMark commandKey with
    | none =>
      rw [hmark] at hfound
      have hrest : afterFirst (quoted commandKey) ('}' :: d.after.text) = none := by
        rw [afterFirst_cons_of_ne (by decide), ← List.append_nil d.after.text, afterFirst_blank]
        rfl
      rw [hfound.trans hrest]
      rfl
    | some m =>
      rw [hmark] at hfound
      obtain ⟨r, hr, hafter⟩ := hfound
      rw [hafter]
      exact readJsonMember_mark m (Nat.pos_of_ne_zero hsize) hr

end Reading

/-! ## When the extraction is right -/

namespace JsonDocument

/-- The member `command` is a string that stands for these bytes. -/
def IsCommand (d : JsonDocument) (s : List Char) : Prop :=
  ∃ t, d.command? = some (.string t) ∧ t.bytes = s.map Char.toNat

/-- The member `command`, when it is a string without escapes that fits. -/
def plainCommand? (d : JsonDocument) (outSize : Nat) : Option (List Char) :=
  match d.command? with
  | some (.string t) => t.plain?.filter fun s => s.length < outSize
  | _ => none

/-- A member `command` that is a string without escapes and fits is returned, and what is returned is the
member `command`. -/
def ExtractRight (d : JsonDocument) (outSize : Nat) : Prop :=
  (∀ t s, d.command? = some (.string t) → t.plain? = some s → s.length < outSize →
    httpJsonExtractString d.text commandKey outSize = some s) ∧
  ∀ s, httpJsonExtractString d.text commandKey outSize = some s → d.IsCommand s

/-- The first mark either names a member whose value can be read and is that of the member `command`, or
nothing can be read behind it and the member `command` is no string without escapes that fits. -/
def MarkedWell (d : JsonDocument) (outSize : Nat) : Prop :=
  (∃ m s, d.firstMark = some m ∧ m.reads outSize = some s ∧ d.IsCommand s) ∨
  ((∀ m, d.firstMark = some m → m.reads outSize = none) ∧ d.plainCommand? outSize = none)

variable {d : JsonDocument} {outSize : Nat} {s : List Char}

theorem plainCommand?_eq_some : d.plainCommand? outSize = some s ↔
    ∃ t, d.command? = some (.string t) ∧ t.plain? = some s ∧ s.length < outSize := by
  rw [plainCommand?]
  split
  · rename_i t hcommand
    rw [Option.filter_eq_some_iff, decide_eq_true_iff]
    refine ⟨fun h => ⟨t, hcommand, h⟩, ?_⟩
    rintro ⟨t', ht', h⟩
    cases hcommand.symm.trans ht'
    exact h
  · rename_i hnone
    refine iff_of_false nofun ?_
    rintro ⟨t, ht, -⟩
    exact hnone t ht

/-- The bytes of a string without escapes determine it. -/
theorem IsCommand.eq_of_plain {t : JsonString} {s' : List Char} (h : d.IsCommand s) (ht : d.command? = some (.string t))
    (hplain : t.plain? = some s') : s = s' := by
  obtain ⟨t', ht', hbytes⟩ := h
  cases ht.symm.trans ht'
  rw [JsonString.bytes_of_plain? hplain] at hbytes
  exact (List.map_injective_iff.mpr (fun _ _ => Char.ext ∘ UInt32.toNat_inj.mp) hbytes).symm

/-- The extraction is right exactly when the document is marked well. -/
theorem extractRight_iff : d.ExtractRight outSize ↔ d.MarkedWell outSize := by
  rw [ExtractRight, httpJsonExtractString_eq]
  constructor
  · rintro ⟨hreturned, hcommand⟩
    cases hread : d.firstMark.bind (JsonMark.reads outSize) with
    | some s =>
      obtain ⟨m, hm, hs⟩ := Option.bind_eq_some_iff.mp hread
      exact .inl ⟨m, s, hm, hs, hcommand s hread⟩
    | none =>
      refine .inr ⟨fun m hm => ?_, ?_⟩
      · rw [hm] at hread
        exact hread
      · refine Option.eq_none_iff_forall_ne_some.mpr fun s hs => ?_
        obtain ⟨t, ht, hplain, hfits⟩ := plainCommand?_eq_some.mp hs
        cases hread.symm.trans (hreturned t s ht hplain hfits)
  · rintro (⟨m, s, hm, hs, hcommand⟩ | ⟨hnone, hplain⟩)
    · rw [hm, Option.bind_some, hs]
      refine ⟨fun t s' ht hplain _ => congrArg some (hcommand.eq_of_plain ht hplain), ?_⟩
      rintro s' ⟨⟩
      exact hcommand
    · have hread : d.firstMark.bind (JsonMark.reads outSize) = none := by
        cases hm : d.firstMark with
        | none => rfl
        | some m => exact hnone m hm
      rw [hread]
      refine ⟨fun t s ht hs hfits => ?_, nofun⟩
      cases hplain.symm.trans (plainCommand?_eq_some.mpr ⟨t, ht, hs, hfits⟩)

end JsonDocument

/-- The route hands over only what was extracted. -/
theorem executed_handleCommandRoute {adminToken authorization body command : List Char}
    {admin : List Char → AdminCmdResult} (h : (handleCommandRoute adminToken authorization body admin).executed = some command) :
    httpJsonExtractString body commandKey httpCommandMax = some command := by
  unfold handleCommandRoute at h
  cases hextract : httpJsonExtractString body commandKey httpCommandMax with
  | none =>
    rw [hextract] at h
    cases h
  | some command' =>
    rw [hextract] at h
    dsimp only at h
    split at h
    · cases h
    · cases h
    · split at h <;> exact h

/-- The extraction is right exactly when the document is marked well; then the route executes nothing but the
member `command`. -/
theorem handleCommandRoute_right_iff (d : JsonDocument) :
    (∀ outSize, d.ExtractRight outSize ↔ d.MarkedWell outSize) ∧
    (d.MarkedWell httpCommandMax → ∀ adminToken authorization admin command,
      (handleCommandRoute adminToken authorization d.text admin).executed = some command → d.IsCommand command) := by
  refine ⟨fun outSize => d.extractRight_iff, fun hmarked adminToken authorization admin command hexecuted => ?_⟩
  exact (d.extractRight_iff.mpr hmarked).2 command (executed_handleCommandRoute hexecuted)

namespace JsonExample

/-- The string of these characters. -/
def plain (s : List Char) : JsonString :=
  s.filterMap fun c => if h : isPlainChar c = true then some (.plain ⟨c, h⟩) else none

/-- The name `a"command`. -/
def escapedName : JsonString := plain ['a'] ++ (.escape ⟨('"', 0x22), by decide⟩ :: plain commandKey)

/-- The name of the first member ends with the quoted word. -/
def otherName : JsonDocument where
  before := []
  blank := []
  members := .cons [] escapedName [] [] (.string (plain "pause".toList)) []
    (.cons [] (plain commandKey) [] [] (.string (plain "resume".toList)) [] .nil)
  after := []

/-- The value of the first member is the word. -/
def otherValue : JsonDocument where
  before := []
  blank := []
  members := .cons [] (plain ['a']) [] [] (.string (plain commandKey)) []
    (.cons [] (plain commandKey) [] [] (.string (plain "pause".toList)) [] .nil)
  after := []

end JsonExample

/-- The value of another member is executed; and a legal body is refused for a value that is the word. -/
theorem handleCommandRoute_otherName :
    JsonExample.otherName.text = "\x7b\"a\\\"command\":\"pause\",\"command\":\"resume\"\x7d".toList ∧
    (handleCommandRoute "t".toList "Bearer t".toList JsonExample.otherName.text fun _ => .ok).executed = some "pause".toList ∧
    ¬ JsonExample.otherName.IsCommand "pause".toList ∧
    ¬ JsonExample.otherName.ExtractRight httpCommandMax ∧
    JsonExample.otherValue.text = "\x7b\"a\":\"command\",\"command\":\"pause\"\x7d".toList ∧
    JsonExample.otherValue.plainCommand? httpCommandMax = some "pause".toList ∧
    (handleCommandRoute "t".toList "Bearer t".toList JsonExample.otherValue.text fun _ => .ok).status = 400 ∧
    ¬ JsonExample.otherValue.ExtractRight httpCommandMax := by
  have hread : httpJsonExtractString JsonExample.otherName.text commandKey httpCommandMax = some "pause".toList := by
    rw [httpJsonExtractString_eq]
    decide
  have hnot : ¬ JsonExample.otherName.IsCommand "pause".toList := by
    rintro ⟨t, ht, hbytes⟩
    have hcommand : JsonExample.otherName.command? = some (.string (JsonExample.plain "resume".toList)) := rfl
    cases hcommand.symm.trans ht
    exact absurd hbytes (by decide)
  have hrefused : httpJsonExtractString JsonExample.otherValue.text commandKey httpCommandMax = none := by
    rw [httpJsonExtractString_eq]
    decide
  have hplain : JsonExample.otherValue.plainCommand? httpCommandMax = some "pause".toList := rfl
  refine ⟨by decide, ?_, hnot, fun h => hnot (h.2 _ hread), by decide, hplain, ?_, fun h => ?_⟩
  · rw [handleCommandRoute, hread]
    rfl
  · rw [handleCommandRoute, hrefused]
  · obtain ⟨t, ht, hs, hfits⟩ := JsonDocument.plainCommand?_eq_some.mp hplain
    cases hrefused.symm.trans (h.1 t _ ht hs hfits)
