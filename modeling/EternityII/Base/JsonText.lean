-- SUMMARY: JSON texts as trees, and where a quoted word first occurs in them.
import EternityII.Base.Occurrence

/-!
# JSON texts

A tree of a JSON text keeps all that the text shows: the whitespace between its tokens and the escapes in
its strings. A text is a list of bytes. A quoted word occurs in a text where a string is that word, or ends
with it behind an escaped quote, and nowhere else.
-/

open List

/-! ## Strings -/

/-- A character that stands for itself in a string. -/
def isPlainChar (c : Char) : Bool := c ≠ '"' ∧ c ≠ '\\' ∧ 0x20 ≤ c.toNat

/-- The characters behind a backslash, and what they stand for. -/
def jsonEscapes : List (Char × Nat) :=
  [('"', 0x22), ('\\', 0x5c), ('/', 0x2f), ('b', 0x08), ('f', 0x0c), ('n', 0x0a), ('r', 0x0d), ('t', 0x09)]

/-- The digits of a hexadecimal number. -/
def hexDigits : List Char :=
  ['0', '1', '2', '3', '4', '5', '6', '7', '8', '9', 'a', 'b', 'c', 'd', 'e', 'f', 'A', 'B', 'C', 'D', 'E', 'F']

/-- A hexadecimal digit. -/
abbrev HexDigit := { c : Char // c ∈ hexDigits }

/-- The value of a hexadecimal digit. -/
def HexDigit.value (d : HexDigit) : Nat := let i := hexDigits.idxOf d.val; if i < 16 then i else i - 6

/-- A character of a string, as it is written. -/
inductive JsonChar where
  | plain (c : { c : Char // isPlainChar c = true })
  | escape (e : { e : Char × Nat // e ∈ jsonEscapes })
  | unicode (a b c d : HexDigit)

/-- The text of a character. -/
def JsonChar.text : JsonChar → List Char
  | .plain c => [c.val]
  | .escape e => ['\\', e.val.1]
  | .unicode a b c d => ['\\', 'u', a.val, b.val, c.val, d.val]

/-- The code unit of four digits. -/
def hexUnit (a b c d : HexDigit) : Nat := ((a.value * 16 + b.value) * 16 + c.value) * 16 + d.value

/-- The code point of two code units that are a surrogate pair. -/
def surrogatePair (hi lo : Nat) : Option Nat :=
  if (0xd800 ≤ hi ∧ hi < 0xdc00) ∧ 0xdc00 ≤ lo ∧ lo < 0xe000 then some (0x10000 + (hi - 0xd800) * 0x400 + (lo - 0xdc00))
  else none

/-- The bytes of a code point. -/
def utf8Bytes (n : Nat) : List Nat :=
  if n < 0x80 then [n]
  else if n < 0x800 then [0xc0 + n / 0x40, 0x80 + n % 0x40]
  else if n < 0x10000 then [0xe0 + n / 0x1000, 0x80 + n / 0x40 % 0x40, 0x80 + n % 0x40]
  else [0xf0 + n / 0x40000, 0x80 + n / 0x1000 % 0x40, 0x80 + n / 0x40 % 0x40, 0x80 + n % 0x40]

/-- The bytes that a character on its own stands for. -/
def JsonChar.bytes : JsonChar → List Nat
  | .plain c => [c.val.toNat]
  | .escape e => [e.val.2]
  | .unicode a b c d => utf8Bytes (hexUnit a b c d)

/-- The characters between the quotes. -/
abbrev JsonString := List JsonChar

namespace JsonString

/-- The text between the quotes. -/
def inner (s : JsonString) : List Char := s.flatMap JsonChar.text

/-- The bytes that a string stands for. -/
def bytes : JsonString → List Nat
  | [] => []
  | .unicode a b c d :: .unicode a' b' c' d' :: s =>
    match surrogatePair (hexUnit a b c d) (hexUnit a' b' c' d') with
    | some n => utf8Bytes n ++ bytes s
    | none => utf8Bytes (hexUnit a b c d) ++ bytes (.unicode a' b' c' d' :: s)
  | c :: s => c.bytes ++ bytes s

/-- A string without escapes. -/
def plain? : JsonString → Option (List Char)
  | [] => some []
  | .plain c :: s => (plain? s).map (c.val :: ·)
  | _ :: _ => none

/-- A string ends with the word behind an escaped quote. -/
def EndsQuoted (word : List Char) : JsonString → Prop
  | [] => False
  | .escape e :: s => (e.val.1 = '"' ∧ inner s = word) ∨ EndsQuoted word s
  | _ :: s => EndsQuoted word s

instance decidableEndsQuoted (word : List Char) : (s : JsonString) → Decidable (EndsQuoted word s)
  | [] => inferInstanceAs (Decidable False)
  | .plain _ :: s => decidableEndsQuoted word s
  | .unicode _ _ _ _ :: s => decidableEndsQuoted word s
  | .escape _ :: s => @instDecidableOr _ _ inferInstance (decidableEndsQuoted word s)

/-- The quoted word occurs in the text of the string. -/
def Marked (word : List Char) (s : JsonString) : Prop := s.inner = word ∨ s.EndsQuoted word

instance (word : List Char) (s : JsonString) : Decidable (s.Marked word) := inferInstanceAs (Decidable (_ ∨ _))

/-- A string without escapes is itself. -/
theorem bytes_of_plain? {s : JsonString} {t : List Char} (h : s.plain? = some t) : s.bytes = t.map Char.toNat := by
  induction s generalizing t with
  | nil =>
    cases h
    rfl
  | cons c s ih =>
    cases c with
    | plain c =>
      obtain ⟨t', ht', rfl⟩ := Option.map_eq_some_iff.mp h
      rw [bytes, ih ht']
      · rfl
      · rintro _ _ _ _ _ _ _ _ _ ⟨⟩
    | escape e => cases h
    | unicode a b c d => cases h

@[simp] theorem inner_nil : inner [] = [] := rfl

@[simp] theorem inner_cons (c : JsonChar) (s : JsonString) : inner (c :: s) = c.text ++ inner s := List.flatMap_cons

end JsonString

/-! ## Values -/

/-- The four characters of whitespace. -/
inductive JsonSpace where
  | space
  | tab
  | lineFeed
  | carriageReturn
deriving DecidableEq

/-- The text of a character of whitespace. -/
def JsonSpace.char : JsonSpace → Char
  | .space => ' '
  | .tab => '\t'
  | .lineFeed => '\n'
  | .carriageReturn => '\r'

/-- Whitespace. -/
abbrev JsonBlank := List JsonSpace

/-- The text of whitespace. -/
def JsonBlank.text (b : JsonBlank) : List Char := b.map JsonSpace.char

/-- The characters of numbers and of `true`, `false` and `null`. -/
def isWordChar (c : Char) : Bool := c.isAlphanum ∨ c = '+' ∨ c = '-' ∨ c = '.'

/-- A number or one of the three names. -/
abbrev JsonAtom := { w : List Char // w ≠ [] ∧ ∀ c ∈ w, isWordChar c = true }

mutual

/-- A value. -/
inductive JsonValue where
  | string (s : JsonString)
  | atom (a : JsonAtom)
  | array (b : JsonBlank) (elements : JsonElements)
  | object (b : JsonBlank) (members : JsonMembers)

/-- The elements of an array, each between its whitespace. -/
inductive JsonElements where
  | nil
  | cons (before : JsonBlank) (v : JsonValue) (after : JsonBlank) (rest : JsonElements)

/-- The members of an object, with the whitespace before the name, around the colon and behind the value. -/
inductive JsonMembers where
  | nil
  | cons (before : JsonBlank) (name : JsonString) (beforeColon afterColon : JsonBlank) (v : JsonValue)
      (after : JsonBlank) (rest : JsonMembers)

end

/-- A string between its quotes. -/
def JsonString.text (s : JsonString) : List Char := '"' :: (s.inner ++ ['"'])

/-- The comma in front of what is not the first. -/
def jsonComma (first : Bool) : List Char := if first then [] else [',']

mutual

/-- The text of a value. -/
def JsonValue.text : JsonValue → List Char
  | .string s => s.text
  | .atom a => a.val
  | .array b es => '[' :: (b.text ++ (es.text true ++ [']']))
  | .object b ms => '{' :: (b.text ++ (ms.text true ++ ['}']))

/-- The text of elements. -/
def JsonElements.text : JsonElements → Bool → List Char
  | .nil, _ => []
  | .cons before v after rest, first =>
    jsonComma first ++ (before.text ++ (v.text ++ (after.text ++ rest.text false)))

/-- The text of members. -/
def JsonMembers.text : JsonMembers → Bool → List Char
  | .nil, _ => []
  | .cons before name beforeColon afterColon v after rest, first =>
    jsonComma first ++ (before.text ++ (name.text ++ (beforeColon.text ++ (':' :: (afterColon.text ++
      (v.text ++ (after.text ++ rest.text false)))))))

end

/-- The value of the first member with a name. -/
def JsonMembers.find? (name : List Nat) : JsonMembers → Option JsonValue
  | .nil => none
  | .cons _ n _ _ v _ rest => if n.bytes = name then some v else rest.find? name

/-! ## Marks -/

/-- A string in which a quoted word occurs: a value, or the name of a member. -/
inductive JsonMark where
  | value
  | name (beforeColon afterColon : JsonBlank) (v : JsonValue)

/-- What follows the string in its member. -/
def JsonMark.text : JsonMark → List Char
  | .value => []
  | .name beforeColon afterColon v => beforeColon.text ++ (':' :: (afterColon.text ++ v.text))

mutual

/-- The first string of a value in which a quoted word occurs. -/
def JsonValue.firstMark (word : List Char) : JsonValue → Option JsonMark
  | .string s => if s.Marked word then some .value else none
  | .atom _ => none
  | .array _ es => es.firstMark word
  | .object _ ms => ms.firstMark word

/-- The first string of the elements in which a quoted word occurs. -/
def JsonElements.firstMark (word : List Char) : JsonElements → Option JsonMark
  | .nil => none
  | .cons _ v _ rest => (v.firstMark word).or (rest.firstMark word)

/-- The first string of the members in which a quoted word occurs. -/
def JsonMembers.firstMark (word : List Char) : JsonMembers → Option JsonMark
  | .nil => none
  | .cons _ name beforeColon afterColon v _ rest =>
    if name.Marked word then some (.name beforeColon afterColon v)
    else (v.firstMark word).or (rest.firstMark word)

end

/-! ## Where a quoted word occurs -/

/-- The word between quotes. -/
def quoted (word : List Char) : List Char := '"' :: (word ++ ['"'])

/-- What follows the first occurrence of a pattern. -/
def afterFirst {α : Type*} [DecidableEq α] (needle s : List α) : Option (List α) :=
  (findFirst needle s).map fun i => s.drop (i + needle.length)

section Search

variable {word p q r : List Char} {c d : Char} {s : JsonString}

theorem afterFirst_cons (h : ¬ quoted word <+: c :: q) : afterFirst (quoted word) (c :: q) = afterFirst (quoted word) q := by
  rw [afterFirst, afterFirst, findFirst, if_neg h, Option.map_map]
  congr 1
  funext i
  rw [Function.comp_apply, Nat.add_right_comm, List.drop_succ_cons]

/-- No occurrence begins at another character than a quote. -/
theorem afterFirst_cons_of_ne (h : c ≠ '"') : afterFirst (quoted word) (c :: q) = afterFirst (quoted word) q :=
  afterFirst_cons fun hprefix => h (List.cons_prefix_cons.mp hprefix).1.symm

theorem afterFirst_append_of_ne (h : ∀ c ∈ p, c ≠ '"') : afterFirst (quoted word) (p ++ q) = afterFirst (quoted word) q := by
  induction p with
  | nil => rfl
  | cons c p ih =>
    rw [List.cons_append, afterFirst_cons_of_ne (h c (List.mem_cons_self ..))]
    exact ih fun d hd => h d (List.mem_cons_of_mem c hd)

theorem afterFirst_quoted : afterFirst (quoted word) (quoted word ++ q) = some q := by
  rw [afterFirst, findFirst_of_prefix (by simp [quoted]) (List.prefix_append ..), Option.map_some, Nat.zero_add,
    List.drop_left]

/-- The word closes a string exactly when it is all there is. -/
theorem word_prefix_iff (hword : ∀ c ∈ word, isWordChar c = true) : word ++ ['"'] <+: s.inner ++ '"' :: q ↔ s.inner = word := by
  have hbackslash : isWordChar '\\' = false := by decide
  have hquote : isWordChar '"' = false := by decide
  induction word generalizing s with
  | nil =>
    cases s with
    | nil => simp
    | cons c s =>
      refine iff_of_false (fun h => ?_) fun h => ?_
      · cases c with
        | plain c =>
          have heq : '"' = c.val := (List.cons_prefix_cons.mp h).1
          have hplain := of_decide_eq_true c.property
          exact hplain.1 heq.symm
        | escape e => exact absurd (List.cons_prefix_cons.mp h).1 (by decide)
        | unicode a b c d => exact absurd (List.cons_prefix_cons.mp h).1 (by decide)
      · cases c <;> cases h
  | cons k word ih =>
    have hk := hword k (List.mem_cons_self ..)
    have hrest : ∀ c ∈ word, isWordChar c = true := fun c hc => hword c (List.mem_cons_of_mem k hc)
    have hneb : k ≠ '\\' := by
      rintro rfl
      rw [hbackslash] at hk
      cases hk
    cases s with
    | nil =>
      refine iff_of_false (fun h => ?_) nofun
      have heq : k = '"' := (List.cons_prefix_cons.mp h).1
      rw [heq, hquote] at hk
      cases hk
    | cons c s =>
      cases c with
      | plain c =>
        show k :: (word ++ ['"']) <+: c.val :: (JsonString.inner s ++ '"' :: q) ↔ c.val :: JsonString.inner s = k :: word
        refine List.cons_prefix_cons.trans (Iff.trans ?_ List.cons_eq_cons.symm)
        exact and_congr ⟨Eq.symm, Eq.symm⟩ (ih hrest)
      | escape e =>
        refine iff_of_false (fun h => hneb (List.cons_prefix_cons.mp h).1) fun h => ?_
        exact hneb (List.cons.inj h).1.symm
      | unicode a b c d =>
        refine iff_of_false (fun h => hneb (List.cons_prefix_cons.mp h).1) fun h => ?_
        exact hneb (List.cons.inj h).1.symm

/-- Text at whose front no word goes on. -/
def Stops (q : List Char) : Prop := ∀ c ∈ q.head?, isWordChar c = false

/-- A word to look for. -/
structure IsWord (word : List Char) : Prop where
  ne_nil : word ≠ []
  chars : ∀ c ∈ word, isWordChar c = true

theorem isWord_iff (word : List Char) : IsWord word ↔ word ≠ [] ∧ word.all isWordChar = true :=
  ⟨fun h => ⟨h.ne_nil, List.all_eq_true.mpr h.chars⟩, fun h => ⟨h.1, List.all_eq_true.mp h.2⟩⟩

instance (word : List Char) : Decidable (IsWord word) := decidable_of_iff' _ (isWord_iff word)

theorem IsWord.not_prefix (hword : IsWord word) (hq : Stops q) : ¬ word ++ ['"'] <+: q := by
  intro hprefix
  obtain ⟨k, rest, rfl⟩ := List.exists_cons_of_ne_nil hword.ne_nil
  obtain ⟨tail, rfl⟩ := hprefix
  have hk := hword.chars k (List.mem_cons_self ..)
  rw [hq k rfl] at hk
  cases hk

/-- The end of a string, from some character on. -/
theorem afterFirst_inner (hword : IsWord word) (hq : Stops q) :
    afterFirst (quoted word) (s.inner ++ '"' :: q) =
      if s.EndsQuoted word then some q else afterFirst (quoted word) q := by
  induction s with
  | nil =>
    have hnot : ¬ quoted word <+: '"' :: q := fun h => hword.not_prefix hq (List.cons_prefix_cons.mp h).2
    rw [if_neg (show ¬ JsonString.EndsQuoted word [] from not_false)]
    exact afterFirst_cons hnot
  | cons c s ih =>
    cases c with
    | plain c =>
      have hplain := of_decide_eq_true c.property
      show afterFirst (quoted word) (c.val :: (JsonString.inner s ++ '"' :: q)) = _
      rw [afterFirst_cons_of_ne hplain.1]
      exact ih
    | unicode a b c d =>
      have hhex : ∀ e : HexDigit, e.val ≠ '"' := fun e heq => absurd (heq ▸ e.property) (by decide)
      show afterFirst (quoted word) (['\\', 'u', a.val, b.val, c.val, d.val] ++ (JsonString.inner s ++ '"' :: q)) = _
      rw [afterFirst_append_of_ne (by simp [hhex])]
      exact ih
    | escape e =>
      show afterFirst (quoted word) ('\\' :: (e.val.1 :: (JsonString.inner s ++ '"' :: q))) = _
      rw [afterFirst_cons_of_ne (by decide)]
      by_cases hquote : e.val.1 = '"'
      · rw [hquote]
        by_cases hinner : JsonString.inner s = word
        · have hmatch : '"' :: (JsonString.inner s ++ '"' :: q) = quoted word ++ q := by
            rw [hinner, quoted, List.cons_append, List.append_assoc]
            rfl
          rw [hmatch, afterFirst_quoted, if_pos (.inl ⟨hquote, hinner⟩)]
        · have hnot : ¬ quoted word <+: '"' :: (JsonString.inner s ++ '"' :: q) := fun h =>
            hinner ((word_prefix_iff hword.chars).mp (List.cons_prefix_cons.mp h).2)
          have hends : JsonString.EndsQuoted word (.escape e :: s) ↔ JsonString.EndsQuoted word s :=
            or_iff_right fun h => hinner h.2
          rw [afterFirst_cons hnot, ih]
          exact if_congr hends.symm rfl rfl
      · have hends : JsonString.EndsQuoted word (.escape e :: s) ↔ JsonString.EndsQuoted word s :=
          or_iff_right fun h => hquote h.1
        rw [afterFirst_cons_of_ne hquote, ih]
        exact if_congr hends.symm rfl rfl

/-- A string is passed over, unless the word occurs in it; then the text goes on behind it. -/
theorem afterFirst_string (hword : IsWord word) (hq : Stops q) :
    afterFirst (quoted word) (s.text ++ q) = if s.Marked word then some q else afterFirst (quoted word) q := by
  have htext : s.text ++ q = '"' :: (s.inner ++ '"' :: q) := by
    rw [JsonString.text, List.cons_append, List.append_assoc]
    rfl
  rw [htext]
  by_cases hinner : s.inner = word
  · have hmatch : '"' :: (s.inner ++ '"' :: q) = quoted word ++ q := by
      rw [hinner, quoted, List.cons_append, List.append_assoc]
      rfl
    rw [hmatch, afterFirst_quoted, if_pos (.inl hinner)]
  · have hnot : ¬ quoted word <+: '"' :: (s.inner ++ '"' :: q) := fun h =>
      hinner ((word_prefix_iff hword.chars).mp (List.cons_prefix_cons.mp h).2)
    have hmarked : s.Marked word ↔ s.EndsQuoted word := or_iff_right hinner
    rw [afterFirst_cons hnot, afterFirst_inner hword hq]
    exact if_congr hmarked.symm rfl rfl

/-! ## In a value -/

/-- What follows a value inside an array or an object. -/
def Follows (q : List Char) : Prop := ∃ (b : JsonBlank) (d : Char) (rest : List Char), q = b.text ++ d :: rest ∧ d ∈ [',', ']', '}']

theorem JsonSpace.char_ne_quote (b : JsonSpace) : b.char ≠ '"' := by cases b <;> decide

theorem afterFirst_blank (b : JsonBlank) : afterFirst (quoted word) (b.text ++ q) = afterFirst (quoted word) q := by
  refine afterFirst_append_of_ne fun c hc => ?_
  obtain ⟨w, -, rfl⟩ := List.mem_map.mp hc
  exact w.char_ne_quote

theorem stops_blank (b : JsonBlank) (hd : isWordChar d = false) : Stops (b.text ++ d :: q) := by
  cases b with
  | nil =>
    rintro c ⟨⟩
    exact hd
  | cons w b =>
    rintro c ⟨⟩
    cases w <;> decide

theorem Follows.stops (h : Follows q) : Stops q := by
  obtain ⟨b, d, rest, rfl, hd⟩ := h
  refine stops_blank b ?_
  obtain rfl | rfl | rfl : d = ',' ∨ d = ']' ∨ d = '}' := by simpa using hd
  · rfl
  · rfl
  · rfl

theorem follows_blank (b : JsonBlank) (hd : d ∈ [',', ']', '}']) : Follows (b.text ++ d :: q) := ⟨b, d, q, rfl, hd⟩

theorem follows_elements (b : JsonBlank) (es : JsonElements) : Follows (b.text ++ (es.text false ++ ']' :: q)) := by
  cases es with
  | nil => exact follows_blank b (by decide)
  | cons before v after rest => exact follows_blank b (by decide)

theorem follows_members (b : JsonBlank) (ms : JsonMembers) : Follows (b.text ++ (ms.text false ++ '}' :: q)) := by
  cases ms with
  | nil => exact follows_blank b (by decide)
  | cons before name beforeColon afterColon v after rest => exact follows_blank b (by decide)

theorem afterFirst_comma (first : Bool) : afterFirst (quoted word) (jsonComma first ++ q) = afterFirst (quoted word) q := by
  cases first
  · exact afterFirst_cons_of_ne (by decide)
  · rfl

/-- What follows the first occurrence of the quoted word in a text `p` before `q`: what follows the mark, or
the same as in `q` when there is none. -/
def FoundAt (word p q : List Char) : Option JsonMark → Prop
  | none => afterFirst (quoted word) (p ++ q) = afterFirst (quoted word) q
  | some mark => ∃ r, Follows r ∧ afterFirst (quoted word) (p ++ q) = some (mark.text ++ r)

/-- A part that is passed over in front. -/
theorem FoundAt.prepend {mark : Option JsonMark} {p' q' : List Char} (h : FoundAt word p q mark)
    (hsame : afterFirst (quoted word) (p' ++ q') = afterFirst (quoted word) (p ++ q))
    (hq : afterFirst (quoted word) q' = afterFirst (quoted word) q) : FoundAt word p' q' mark := by
  cases mark with
  | none => exact hsame.trans (Eq.trans h hq.symm)
  | some mark =>
    obtain ⟨r, hr, hfound⟩ := h
    exact ⟨r, hr, hsame.trans hfound⟩

/-- Two parts one after the other. -/
theorem FoundAt.append {mark mark' : Option JsonMark} {p' : List Char} (h : FoundAt word p (p' ++ q) mark)
    (h' : FoundAt word p' q mark') : FoundAt word (p ++ p') q (mark.or mark') := by
  cases mark with
  | none =>
    refine h'.prepend ?_ rfl
    rw [List.append_assoc]
    exact h
  | some mark =>
    obtain ⟨r, hr, hfound⟩ := h
    exact ⟨r, hr, by rw [List.append_assoc]; exact hfound⟩

theorem JsonAtom.ne_quote {a : JsonAtom} {c : Char} (hc : c ∈ a.val) : c ≠ '"' := by
  rintro rfl
  exact absurd (a.property.2 _ hc) (by decide)

mutual

/-- Where the quoted word occurs in a value. -/
theorem JsonValue.foundAt (hword : IsWord word) (v : JsonValue) (q : List Char) (hq : Follows q) :
    FoundAt word v.text q (v.firstMark word) := by
  cases v with
  | string s =>
    have hfound := afterFirst_string (s := s) hword hq.stops
    rw [JsonValue.firstMark]
    by_cases hmarked : s.Marked word
    · rw [if_pos hmarked] at hfound ⊢
      exact ⟨q, hq, hfound⟩
    · rw [if_neg hmarked] at hfound ⊢
      exact hfound
  | atom a => exact afterFirst_append_of_ne fun c hc => a.ne_quote hc
  | array b es =>
    refine (es.foundAt hword true q).prepend ?_ (afterFirst_cons_of_ne (by decide)).symm
    show afterFirst (quoted word) ('[' :: (b.text ++ (es.text true ++ [']']) ++ q)) = _
    rw [afterFirst_cons_of_ne (by decide), List.append_assoc, afterFirst_blank, List.append_assoc]
    rfl
  | object b ms =>
    refine (ms.foundAt hword true q).prepend ?_ (afterFirst_cons_of_ne (by decide)).symm
    show afterFirst (quoted word) ('\x7b' :: (b.text ++ (ms.text true ++ ['}']) ++ q)) = _
    rw [afterFirst_cons_of_ne (by decide), List.append_assoc, afterFirst_blank, List.append_assoc]
    rfl

/-- Where the quoted word occurs in the elements of an array. -/
theorem JsonElements.foundAt (hword : IsWord word) (es : JsonElements) (first : Bool) (q : List Char) :
    FoundAt word (es.text first) (']' :: q) (es.firstMark word) := by
  cases es with
  | nil => rfl
  | cons before v after rest =>
    have hrest : FoundAt word (after.text ++ rest.text false) (']' :: q) (rest.firstMark word) := by
      refine (rest.foundAt hword false q).prepend ?_ rfl
      rw [List.append_assoc, afterFirst_blank]
    have hfollows : Follows ((after.text ++ rest.text false) ++ ']' :: q) := by
      rw [List.append_assoc]
      exact follows_elements after rest
    refine ((v.foundAt hword _ hfollows).append hrest).prepend ?_ rfl
    rw [JsonElements.text, List.append_assoc, afterFirst_comma, List.append_assoc, afterFirst_blank]

/-- Where the quoted word occurs in the members of an object. -/
theorem JsonMembers.foundAt (hword : IsWord word) (ms : JsonMembers) (first : Bool) (q : List Char) :
    FoundAt word (ms.text first) ('}' :: q) (ms.firstMark word) := by
  cases ms with
  | nil => rfl
  | cons before name beforeColon afterColon v after rest =>
    have hrest : FoundAt word (after.text ++ rest.text false) ('}' :: q) (rest.firstMark word) := by
      refine (rest.foundAt hword false q).prepend ?_ rfl
      rw [List.append_assoc, afterFirst_blank]
    have hfollows : Follows ((after.text ++ rest.text false) ++ '}' :: q) := by
      rw [List.append_assoc]
      exact follows_members after rest
    have hvalue := (v.foundAt hword _ hfollows).append hrest
    -- in front of the value stands the name, with its colon
    have hname := afterFirst_string (s := name) (q := beforeColon.text ++ ':' :: (afterColon.text ++ (v.text ++
      ((after.text ++ rest.text false) ++ '}' :: q)))) hword (stops_blank beforeColon (by decide))
    have htext : afterFirst (quoted word) ((JsonMembers.cons before name beforeColon afterColon v after rest).text first ++
        '}' :: q) = afterFirst (quoted word) (name.text ++ (beforeColon.text ++ ':' :: (afterColon.text ++ (v.text ++
          ((after.text ++ rest.text false) ++ '}' :: q))))) := by
      rw [JsonMembers.text, List.append_assoc, afterFirst_comma, List.append_assoc, afterFirst_blank]
      simp only [List.append_assoc, List.cons_append]
    rw [JsonMembers.firstMark]
    by_cases hmarked : name.Marked word
    · rw [if_pos hmarked] at hname ⊢
      refine ⟨_, hfollows, htext.trans (hname.trans ?_)⟩
      simp only [JsonMark.text, List.append_assoc, List.cons_append]
    · rw [if_neg hmarked] at hname ⊢
      refine hvalue.prepend (htext.trans (hname.trans ?_)) rfl
      rw [afterFirst_blank, afterFirst_cons_of_ne (by decide), afterFirst_blank, ← List.append_assoc v.text]

end

end Search
