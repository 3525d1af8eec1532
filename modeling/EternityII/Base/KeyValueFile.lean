-- SUMMARY: Files of lines with a key and a value, and which configurations they give back.
import EternityII.Base.Decimal
import Mathlib.Data.List.DropRight
import Mathlib.Data.List.Nodup
import Mathlib.Data.Nat.Digits.Defs
import Mathlib.Logic.Function.Basic

/-!
# Files of keys and values

A configuration gives some of its keys a value. Its text has one line for each of them, and is read back line
by line, the last line of a key counting. A value is written as it is, without quotes; the parser cuts it at
the end of the line or at a comment and trims it.
-/

namespace KeyValue

/-! ## Kinds of values -/

/-- A space or a tab. -/
def isBlank (c : Char) : Bool := c = ' ' ∨ c = '\t'

/-- A character that ends a value. -/
def endsValue (c : Char) : Bool := c = '\n' ∨ c = '\r' ∨ c = '#'

/-- The size of the buffer for a value. -/
def valueSize : Nat := 512

/-- The size of the buffer for a key. -/
def keySize : Nat := 64

/-- A text that stands behind a key as it is: not empty, no longer than its buffer, without an end and without
blanks around it. -/
structure Readable (t : List Char) : Prop where
  ne_nil : t ≠ []
  length_lt : t.length < valueSize
  not_ends : ∀ c ∈ t, endsValue c = false
  head : ∀ c ∈ t.head?, isBlank c = false
  last : ∀ c ∈ t.getLast?, isBlank c = false

theorem notBlank_iff (o : Option Char) : (∀ c ∈ o, isBlank c = false) ↔ (o.all fun c => !isBlank c) = true := by
  cases o with
  | none => simp
  | some c => simp

theorem readable_iff (t : List Char) :
    Readable t ↔ (t ≠ [] ∧ t.length < valueSize ∧ (t.all fun c => !endsValue c) = true) ∧
      (t.head?.all fun c => !isBlank c) = true ∧ (t.getLast?.all fun c => !isBlank c) = true := by
  have hends : (∀ c ∈ t, endsValue c = false) ↔ (t.all fun c => !endsValue c) = true := by simp
  rw [← hends, ← notBlank_iff, ← notBlank_iff]
  exact ⟨fun h => ⟨⟨h.ne_nil, h.length_lt, h.not_ends⟩, h.head, h.last⟩,
    fun h => ⟨h.1.1, h.1.2.1, h.1.2.2, h.2.1, h.2.2⟩⟩

instance (t : List Char) : Decidable (Readable t) := decidable_of_iff' _ (readable_iff t)

/-- What the parser takes for the value of a key. -/
inductive ValueKind where
  /-- A number in a range of 64 bits. -/
  | number (lo hi : Int) (h : -2 ^ 63 ≤ lo ∧ hi < 2 ^ 63)
  /-- A number in such a range, moved into a smaller one. -/
  | clamped (lo hi min max : Int) (h : (-2 ^ 63 ≤ lo ∧ hi < 2 ^ 63) ∧ lo ≤ min ∧ min ≤ max ∧ max ≤ hi)
  /-- A number of 64 bits without a sign. -/
  | unsigned
  /-- Any text. -/
  | text
  /-- One of two words, for 0 and 1. -/
  | choice (zero one : List Char) (h : zero ≠ one ∧ Readable zero ∧ Readable one)

namespace ValueKind

/-- The values of a kind. -/
@[reducible]
def Value : ValueKind → Type
  | number .. => Int
  | clamped .. => Int
  | unsigned => Nat
  | text => List Char
  | choice .. => Int

/-- How a value is written. -/
def print : (K : ValueKind) → K.Value → List Char
  | number .., n => Decimal.print n
  | clamped .., n => Decimal.print n
  | unsigned, n => Nat.toDigits 10 n
  | text, t => t
  | choice zero one _, n => if n = (1 : Int) then one else zero

/-- How a value is read. -/
def parse : (K : ValueKind) → List Char → Option K.Value
  | number lo hi _, t => (Decimal.strtolWhole t).filter fun n => lo ≤ n ∧ n ≤ hi
  | clamped lo hi min max _, t => ((Decimal.strtolWhole t).filter fun n => lo ≤ n ∧ n ≤ hi).map fun n =>
      if n < min then min else if n > max then max else n
  | unsigned, t => if t.head? = some '-' then none else Decimal.strtoullWhole t
  | text, t => if t = [] then none else some t
  | choice zero one _, t => if t = zero then some (0 : Int) else if t = one then some (1 : Int) else none

/-- A value that the parser can give. -/
def Fits : (K : ValueKind) → K.Value → Prop
  | number lo hi _, n => lo ≤ n ∧ n ≤ hi
  | clamped _ _ min max _, n => min ≤ n ∧ n ≤ max
  | unsigned, n => n < 2 ^ 64
  | text, t => Readable t
  | choice .., n => n = (0 : Int) ∨ n = (1 : Int)

end ValueKind

/-! ## Configurations -/

/-- The name of a key. -/
structure IsName (name : List Char) : Prop where
  ne_nil : name ≠ []
  length_lt : name.length < keySize
  chars : ∀ c ∈ name, isBlank c = false ∧ c ≠ '=' ∧ endsValue c = false

theorem isName_iff (name : List Char) :
    IsName name ↔ name ≠ [] ∧ name.length < keySize ∧
      (name.all fun c => !isBlank c && c ≠ '=' && !endsValue c) = true := by
  constructor
  · rintro ⟨hne, hlt, hchars⟩
    refine ⟨hne, hlt, List.all_eq_true.mpr fun c hc => ?_⟩
    obtain ⟨hblank, heq, hends⟩ := hchars c hc
    simp [hblank, heq, hends]
  · rintro ⟨hne, hlt, hchars⟩
    refine ⟨hne, hlt, fun c hc => ?_⟩
    simpa [and_assoc] using List.all_eq_true.mp hchars c hc

instance (name : List Char) : Decidable (IsName name) := decidable_of_iff' _ (isName_iff name)

/-- The keys of a kind of file, in the order of its lines; names are padded to a width. -/
structure Schema (κ : Type) where
  keys : List κ
  name : κ → List Char
  kind : κ → ValueKind
  width : Nat
  mem_keys : ∀ k, k ∈ keys
  nodup_names : (keys.map name).Nodup
  isName : ∀ k, IsName (name k)

namespace Schema

variable {κ : Type} [DecidableEq κ] (S : Schema κ)

/-- The values of some keys. -/
abbrev Config : Type := (k : κ) → Option (S.kind k).Value

/-- No key has a value. -/
def init : S.Config := fun _ => none

/-- What a line says. -/
inductive Line where
  | ignored
  | unknown (key : List Char)
  | invalid
  | set (k : κ) (v : (S.kind k).Value)

/-- The parser of a line. -/
def parseLine (line : List Char) : S.Line :=
  let p := line.dropWhile isBlank
  if p.head?.all endsValue then .ignored
  else
    match p.dropWhile (· ≠ '=') with
    | [] => .unknown []
    | _ :: v =>
      let key := (p.takeWhile (· ≠ '=')).rdropWhile isBlank
      if key.length = 0 ∨ key.length ≥ keySize then .unknown []
      else
        let value := ((v.dropWhile isBlank).takeWhile fun c => !endsValue c).rdropWhile isBlank
        if value.length ≥ valueSize then .invalid
        else
          match S.keys.find? fun k => S.name k = key with
          | none => .unknown key
          | some k =>
            match (S.kind k).parse value with
            | none => .invalid
            | some v => .set k v

variable {S}

/-- What a line changes. -/
def Line.apply (cfg : S.Config) : S.Line → S.Config
  | .set k v => Function.update cfg k (some v)
  | _ => cfg

end Schema

/-- The lines of a text, each with its end. -/
def fileLines : List Char → List (List Char)
  | [] => []
  | c :: s =>
    if c = '\n' then ['\n'] :: fileLines s
    else
      match fileLines s with
      | [] => [[c]]
      | line :: lines => (c :: line) :: lines

namespace Schema

variable {κ : Type} [DecidableEq κ] (S : Schema κ)

/-- A text read into a configuration. -/
def load (text : List Char) (cfg : S.Config) : S.Config :=
  (fileLines text).foldl (fun cfg line => (S.parseLine line).apply cfg) cfg

/-- What stands between the name of a key and its value: blanks, the sign and a blank. -/
def gap (k : κ) : List Char := List.replicate (max 1 (S.width - (S.name k).length)) ' ' ++ ['=', ' ']

/-- The line of a key and its value. -/
def entry (k : κ) (v : (S.kind k).Value) : List Char := S.name k ++ (S.gap k ++ ((S.kind k).print v ++ ['\n']))

/-- The line of a key that has a value. -/
def line (cfg : S.Config) (k : κ) : List Char :=
  match cfg k with
  | none => []
  | some v => S.entry k v

/-- The text of a configuration. -/
def format (cfg : S.Config) : List Char := S.keys.flatMap (S.line cfg)

/-- Every value of a configuration can come from the parser. -/
def Fits (cfg : S.Config) : Prop := ∀ k v, cfg k = some v → (S.kind k).Fits v

end Schema

/-! ## Values read back -/

section Values

variable {t : List Char}

/-- The characters of a number. -/
theorem digit_or_minus {c : Char} (h : c = '-' ∨ c.isDigit = true) : isBlank c = false ∧ endsValue c = false := by
  rcases h with rfl | hc
  · decide
  · have hall : Decimal.digits.all (fun c => isBlank c = false ∧ endsValue c = false) = true := by decide
    exact of_decide_eq_true (List.all_eq_true.mp hall c (Decimal.mem_digits.mpr hc))

theorem readable_of_chars (hne : t ≠ []) (hlength : t.length < valueSize) (h : ∀ c ∈ t, c = '-' ∨ c.isDigit = true) :
    Readable t where
  ne_nil := hne
  length_lt := hlength
  not_ends c hc := (digit_or_minus (h c hc)).2
  head c hc := (digit_or_minus (h c (List.mem_of_head? hc))).1
  last c hc := (digit_or_minus (h c (List.mem_of_getLast? hc))).1

theorem readable_toDigits {n : Nat} (h : n < 10 ^ 64) : Readable (Nat.toDigits 10 n) := by
  have hlength : (Nat.toDigits 10 n).length ≤ 64 := Nat.toDigits_length 10 n 64 (by decide) h
  exact readable_of_chars Nat.toDigits_ne_nil (Nat.lt_of_le_of_lt hlength (by decide))
    fun c hc => .inr (Decimal.isDigit_of_mem_toDigits hc)

theorem readable_print {n : Int} (h : n.natAbs < 10 ^ 64) : Readable (Decimal.print n) := by
  have hlength : (Nat.toDigits 10 n.natAbs).length ≤ 64 := Nat.toDigits_length 10 n.natAbs 64 (by decide) h
  have hsign : (Decimal.sign n).length ≤ 1 := by
    unfold Decimal.sign
    split <;> decide
  have hbound : (Decimal.print n).length ≤ 65 := by
    rw [Decimal.print, List.length_append]
    omega
  refine readable_of_chars ?_ (Nat.lt_of_le_of_lt hbound (by decide)) fun c hc => ?_
  · obtain ⟨c, s, heq, -⟩ := Decimal.print_eq_cons n
    rw [heq]
    exact List.cons_ne_nil c s
  · rcases List.mem_append.mp hc with hc | hc
    · exact .inl (Decimal.eq_minus_of_mem_sign hc)
    · exact .inr (Decimal.isDigit_of_mem_toDigits hc)

/-- A number of 64 bits. -/
theorem readable_print_of_range {n lo hi : Int} (hb : -2 ^ 63 ≤ lo ∧ hi < 2 ^ 63) (hlo : lo ≤ n) (hhi : n ≤ hi) :
    Readable (Decimal.print n) := readable_print (by omega)

/-- A number that needs no moving. -/
theorem filter_clamp {n lo hi min max : Int} (hb : lo ≤ min ∧ min ≤ max ∧ max ≤ hi) (hlo : min ≤ n) (hhi : n ≤ max) :
    (((some n).filter fun n => lo ≤ n ∧ n ≤ hi).map fun n => if n < min then min else if n > max then max else n) =
      some n := by
  have hrange : decide (lo ≤ n ∧ n ≤ hi) = true := decide_eq_true (by omega)
  rw [Option.filter_some, if_pos hrange, Option.map_some, if_neg (by omega), if_neg (by omega)]

theorem clamp_range {n min max : Int} (hb : min ≤ max) :
    min ≤ (if n < min then min else if n > max then max else n) ∧
      (if n < min then min else if n > max then max else n) ≤ max := by
  split
  · omega
  · split <;> omega

theorem strtoull_lt {v : Nat} {negative : Bool} :
    (if v ≥ 2 ^ 64 then 2 ^ 64 - 1 else if negative = true then (2 ^ 64 - v) % 2 ^ 64 else v) < 2 ^ 64 := by
  by_cases hv : v ≥ 2 ^ 64
  · rw [if_pos hv]
    decide
  · rw [if_neg hv]
    split
    · exact Nat.mod_lt _ (by decide)
    · exact Nat.not_le.mp hv

namespace ValueKind

/-- The text of a value that fits can be read. -/
theorem readable_of_fits {K : ValueKind} {v : K.Value} (h : K.Fits v) : Readable (K.print v) := by
  cases K with
  | number lo hi hb => exact readable_print_of_range hb h.1 h.2
  | clamped lo hi min max hb =>
    exact readable_print_of_range hb.1 (Int.le_trans hb.2.1 h.1) (Int.le_trans h.2 hb.2.2.2)
  | unsigned => exact readable_toDigits (Nat.lt_trans h (by decide))
  | text => exact h
  | choice zero one hb =>
    unfold print
    dsimp only
    split
    · exact hb.2.2
    · exact hb.2.1

/-- A value that fits is read back. -/
theorem parse_print {K : ValueKind} {v : K.Value} (h : K.Fits v) : K.parse (K.print v) = some v := by
  cases K with
  | number lo hi hb =>
    show (Decimal.strtolWhole (Decimal.print v)).filter _ = _
    rw [Decimal.strtolWhole_print]
    exact Option.filter_some_pos (decide_eq_true h)
  | clamped lo hi min max hb =>
    show ((Decimal.strtolWhole (Decimal.print v)).filter _).map _ = _
    rw [Decimal.strtolWhole_print]
    exact filter_clamp hb.2 h.1 h.2
  | unsigned =>
    have hminus : (Nat.toDigits 10 v).head? ≠ some '-' := fun hc =>
      absurd (Decimal.isDigit_of_mem_toDigits (List.mem_of_head? hc)) (by decide)
    show (if _ then _ else _) = _
    rw [print, if_neg hminus, Decimal.strtoullWhole_toDigits h]
  | text => exact if_neg h.ne_nil
  | choice zero one hb =>
    show (if _ then _ else _) = _
    rcases h with rfl | rfl
    · exact if_pos rfl
    · rw [print, if_pos rfl, if_neg hb.1.symm, if_pos rfl]

/-- What is read fits. -/
theorem fits_of_parse {K : ValueKind} {v : K.Value} (ht : t = [] ∨ Readable t) (h : K.parse t = some v) : K.Fits v := by
  cases K with
  | number lo hi hb =>
    exact of_decide_eq_true (p := lo ≤ v ∧ v ≤ hi) (Option.filter_eq_some_iff.mp h).2
  | clamped lo hi min max hb =>
    obtain ⟨n, -, rfl⟩ := Option.map_eq_some_iff.mp h
    exact clamp_range hb.2.2.1
  | unsigned =>
    obtain ⟨-, h⟩ := Option.ite_none_left_eq_some.mp h
    obtain ⟨w, -, rfl⟩ := Option.map_eq_some_iff.mp h
    exact strtoull_lt
  | text =>
    obtain ⟨hne, heq⟩ := Option.ite_none_left_eq_some.mp h
    cases heq
    exact ht.resolve_left hne
  | choice zero one hb =>
    unfold parse at h
    dsimp only at h
    split at h
    · exact .inl (Option.some.inj h).symm
    · split at h
      · exact .inr (Option.some.inj h).symm
      · cases h

end ValueKind

end Values

/-! ## Lines read back -/

section Lines

variable {p s t value : List Char} {c : Char}

/-- A line with its end in front. -/
theorem fileLines_append (hp : '\n' ∉ p) : fileLines (p ++ '\n' :: s) = (p ++ ['\n']) :: fileLines s := by
  induction p with
  | nil => exact if_pos rfl
  | cons c p ih =>
    have hne : c ≠ '\n' := by
      rintro rfl
      exact hp (List.mem_cons_self ..)
    rw [List.cons_append, fileLines, if_neg hne, ih fun hmem => hp (List.mem_cons_of_mem c hmem)]
    rfl

theorem dropWhile_of_head {b : Char → Bool} (h : ∀ c ∈ t.head?, b c = false) : t.dropWhile b = t := by
  cases t with
  | nil => rfl
  | cons c t => exact List.dropWhile_cons_of_neg (by rw [h c rfl]; exact Bool.false_ne_true)

theorem rdropWhile_of_last {b : Char → Bool} (h : ∀ c ∈ t.getLast?, b c = false) : t.rdropWhile b = t := by
  refine List.rdropWhile_eq_self_iff.mpr fun hne => ?_
  rw [h _ (List.getLast?_eq_some_getLast hne)]
  exact Bool.false_ne_true

theorem rdropWhile_append_replicate (n : Nat) (h : ∀ c ∈ t, isBlank c = false) :
    (t ++ List.replicate n ' ').rdropWhile isBlank = t := by
  induction n with
  | zero =>
    rw [List.replicate_zero, List.append_nil]
    exact rdropWhile_of_last fun c hc => h c (List.mem_of_getLast? hc)
  | succ n ih =>
    rw [List.replicate_succ', ← List.append_assoc, List.rdropWhile_concat_pos _ _ _ (by decide), ih]

/-- A readable text is what the parser cuts out of a line. -/
theorem value_of_readable (h : Readable t) :
    (((' ' :: (t ++ ['\n'])).dropWhile isBlank).takeWhile fun c => !endsValue c).rdropWhile isBlank = t := by
  have hhead : ∀ c ∈ (t ++ ['\n']).head?, isBlank c = false := by
    intro c hc
    rw [List.head?_append_of_ne_nil t h.ne_nil] at hc
    exact h.head c hc
  have htake : (t ++ ['\n']).takeWhile (fun c => !endsValue c) = t := by
    rw [List.takeWhile_append_of_pos fun c hc => by rw [h.not_ends c hc]; rfl]
    exact List.append_nil t
  rw [List.dropWhile_cons_of_pos (by decide), dropWhile_of_head hhead, htake]
  exact rdropWhile_of_last h.last

/-- What the parser cuts out of a line is empty or a readable text, unless it is too long. -/
theorem readable_value (hlength : value.length < valueSize)
    (heq : ((s.dropWhile isBlank).takeWhile fun c => !endsValue c).rdropWhile isBlank = value) :
    value = [] ∨ Readable value := by
  by_cases hempty : value = []
  · exact .inl hempty
  · refine .inr ⟨hempty, hlength, fun c hc => ?_, fun c hc => ?_, fun c hc => ?_⟩
    · rw [← heq] at hc
      have htake := List.mem_takeWhile_imp ((List.rdropWhile_prefix ..).subset hc)
      simpa using htake
    · -- the head is that of the text behind the blanks
      obtain ⟨rest, hrest⟩ : value <+: s.dropWhile isBlank := by
        rw [← heq]
        exact (List.rdropWhile_prefix ..).trans (List.takeWhile_prefix ..)
      have hc' : c ∈ (s.dropWhile isBlank).head? := by
        rw [← hrest, List.head?_append_of_ne_nil value hempty]
        exact hc
      have hnot := List.head?_dropWhile_not isBlank s
      rw [Option.mem_def.mp hc'] at hnot
      simpa using hnot
    · have hlast := List.rdropWhile_last_not isBlank ((s.dropWhile isBlank).takeWhile fun c => !endsValue c)
        (by rw [heq]; exact hempty)
      rw [List.getLast?_eq_some_getLast hempty] at hc
      cases hc
      simp only [heq] at hlast
      simpa using hlast

end Lines

namespace Schema

variable {κ : Type} [DecidableEq κ] {S : Schema κ} {k : κ} {v : (S.kind k).Value} {cfg acc : S.Config}

omit [DecidableEq κ] in
/-- A name belongs to one key. -/
theorem name_injective : Function.Injective S.name := fun j k h =>
  List.inj_on_of_nodup_map S.nodup_names (S.mem_keys j) (S.mem_keys k) h

omit [DecidableEq κ] in
/-- The line of a value that fits says this value. -/
theorem parseLine_entry (h : (S.kind k).Fits v) : S.parseLine (S.entry k v) = .set k v := by
  obtain ⟨c, name, hname⟩ := List.exists_cons_of_ne_nil (S.isName k).ne_nil
  have hc := (S.isName k).chars c (hname ▸ List.mem_cons_self ..)
  have hreadable := ValueKind.readable_of_fits h
  obtain ⟨n, hn⟩ : ∃ n, max 1 (S.width - (S.name k).length) = n + 1 := ⟨_, (Nat.sub_add_cancel (Nat.le_max_left 1 _)).symm⟩
  have hentry : S.entry k v =
      (S.name k ++ List.replicate (n + 1) ' ') ++ '=' :: ' ' :: ((S.kind k).print v ++ ['\n']) := by
    rw [entry, gap, hn]
    simp only [List.append_assoc, List.cons_append, List.nil_append]
  have hfront : (S.entry k v).dropWhile isBlank = S.entry k v := by
    refine dropWhile_of_head ?_
    rw [entry, hname]
    rintro d ⟨⟩
    exact hc.1
  have hhead : (S.entry k v).head?.all endsValue = false := by
    rw [entry, hname]
    exact hc.2.2
  have hkey : ∀ d ∈ S.name k ++ List.replicate (n + 1) ' ', decide (d ≠ '=') = true := by
    intro d hd
    rcases List.mem_append.mp hd with hd | hd
    · exact decide_eq_true ((S.isName k).chars d hd).2.1
    · rw [List.eq_of_mem_replicate hd]
      rfl
  have hfind : S.keys.find? (fun j => S.name j = S.name k) = some k := by
    cases hf : S.keys.find? fun j => S.name j = S.name k with
    | none =>
      have hnone := List.find?_eq_none.mp hf k (S.mem_keys k)
      exact absurd (decide_eq_true rfl) hnone
    | some j =>
      have hj : S.name j = S.name k := by simpa using List.find?_some hf
      rw [name_injective hj]
  have hlength : ¬ ((S.name k).length = 0 ∨ (S.name k).length ≥ keySize) := by
    have hpos := List.length_pos_of_ne_nil (S.isName k).ne_nil
    have hlt := (S.isName k).length_lt
    omega
  rw [parseLine, hfront]
  dsimp only
  rw [hhead, if_neg Bool.false_ne_true, hentry, List.dropWhile_append_of_pos hkey, List.takeWhile_append_of_pos hkey,
    List.dropWhile_cons_of_neg (by decide)]
  dsimp only
  rw [List.takeWhile_cons_of_neg (by decide), List.append_nil,
    rdropWhile_append_replicate _ fun d hd => ((S.isName k).chars d hd).1, if_neg hlength, value_of_readable hreadable,
    if_neg (Nat.not_le.mpr hreadable.length_lt), hfind]
  dsimp only
  rw [ValueKind.parse_print h]

omit [DecidableEq κ] in
/-- What a line says fits. -/
theorem fits_of_parseLine {line : List Char} (h : S.parseLine line = .set k v) : (S.kind k).Fits v := by
  unfold parseLine at h
  dsimp only at h
  split at h
  · cases h
  · split at h
    · cases h
    · split at h
      · cases h
      · split at h
        · cases h
        · rename_i hlength
          split at h
          · cases h
          · split at h
            · cases h
            · rename_i hparse
              cases h
              exact ValueKind.fits_of_parse (readable_value (Nat.not_le.mp hlength) rfl) hparse

/-- A line keeps that every value fits. -/
theorem Fits.apply (h : S.Fits acc) (line : List Char) : S.Fits ((S.parseLine line).apply acc) := by
  intro k v hv
  cases hline : S.parseLine line with
  | ignored =>
    rw [hline] at hv
    exact h k v hv
  | unknown key =>
    rw [hline] at hv
    exact h k v hv
  | invalid =>
    rw [hline] at hv
    exact h k v hv
  | set j w =>
    rw [hline] at hv
    by_cases heq : k = j
    · subst heq
      rw [Line.apply, Function.update_self] at hv
      cases hv
      exact fits_of_parseLine hline
    · rw [Line.apply, Function.update_of_ne heq] at hv
      exact h k v hv

/-- What is read from any text fits. -/
theorem Fits.load (h : S.Fits acc) (text : List Char) : S.Fits (S.load text acc) := by
  unfold Schema.load
  induction fileLines text generalizing acc with
  | nil => exact h
  | cons line lines ih => exact ih (h.apply line)

omit [DecidableEq κ] in
/-- No value is one that does not fit. -/
theorem fits_init : S.Fits S.init := nofun

omit [DecidableEq κ] in
/-- A line ends once. -/
theorem fileLines_entry (h : (S.kind k).Fits v) (rest : List Char) :
    fileLines (S.entry k v ++ rest) = S.entry k v :: fileLines rest := by
  have hreadable := ValueKind.readable_of_fits h
  have hnewline : '\n' ∉ S.name k ++ (S.gap k ++ (S.kind k).print v) := by
    intro hmem
    rcases List.mem_append.mp hmem with hname | hmem
    · exact absurd ((S.isName k).chars _ hname).2.2 (by decide)
    · rcases List.mem_append.mp hmem with hgap | hprint
      · rcases List.mem_append.mp hgap with hblank | hsign
        · exact absurd (List.eq_of_mem_replicate hblank) (by decide)
        · exact absurd hsign (by decide)
      · exact absurd (hreadable.not_ends _ hprint) (by decide)
  have hentry : S.entry k v = (S.name k ++ (S.gap k ++ (S.kind k).print v)) ++ ['\n'] := by
    rw [entry]
    simp only [List.append_assoc]
  rw [hentry, List.append_assoc]
  exact fileLines_append hnewline

/-- The lines of some keys, read one after the other. -/
theorem load_flatMap (h : S.Fits cfg) (keys : List κ) (acc : S.Config) :
    S.load (keys.flatMap (S.line cfg)) acc = fun k => if k ∈ keys then (cfg k).or (acc k) else acc k := by
  induction keys generalizing acc with
  | nil => rfl
  | cons k keys ih =>
    rw [List.flatMap_cons, line]
    cases hv : cfg k with
    | none =>
      dsimp only
      rw [List.nil_append, ih]
      funext j
      by_cases hj : j = k
      · subst hj
        rw [hv, Option.none_or, if_pos (List.mem_cons_self ..)]
        split <;> rfl
      · exact if_congr ⟨List.mem_cons_of_mem k, List.mem_of_ne_of_mem hj⟩ rfl rfl
    | some v =>
      dsimp only
      rw [load, fileLines_entry (h k v hv), List.foldl_cons, parseLine_entry (h k v hv), Line.apply]
      refine (ih (Function.update acc k (some v))).trans ?_
      funext j
      by_cases hj : j = k
      · subst hj
        rw [hv, Function.update_self, if_pos (List.mem_cons_self ..), Option.some_or]
        split <;> rfl
      · rw [Function.update_of_ne hj]
        exact if_congr ⟨List.mem_cons_of_mem k, List.mem_of_ne_of_mem hj⟩ rfl rfl

/-- The text of a configuration gives it back exactly when every value can come from the parser. -/
theorem load_format_iff : S.load (S.format cfg) S.init = cfg ↔ S.Fits cfg := by
  constructor
  · intro heq
    rw [← heq]
    exact S.fits_init.load _
  · intro h
    rw [format, load_flatMap h]
    funext k
    rw [if_pos (S.mem_keys k)]
    exact Option.or_none ..

end Schema

end KeyValue
