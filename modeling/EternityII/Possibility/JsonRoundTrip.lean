-- SUMMARY: A packet read back from its own export: same fields and grid, and a mask that is off by one piece.
import EternityII.Possibility.JsonGrid

/-!
# Reading back an export

The fields of an export are found one after the other. The mask that comes back marks
`id % ETERN_PARTS` for a piece `id` on the grid, where every other place marks `id - 1`; the
two agree on the empty and on the full board only.
-/

open Regex

/-! ## Fields -/

section Fields

theorem mem_star_noneOf {cs w : List Char} :
    w ∈ (noneOf cs).star.matches' ↔ ∀ c ∈ w, c ∈ cChars ∧ c ∉ cs := by
  rw [noneOf, mem_star_oneOf]
  simp only [List.mem_filter, decide_eq_true_eq]

theorem mem_oneOrMore_noneOf {cs w : List Char} :
    w ∈ (oneOrMore (noneOf cs)).matches' ↔ w ≠ [] ∧ ∀ c ∈ w, c ∈ cChars ∧ c ∉ cs := by
  rw [noneOf, mem_oneOrMore_oneOf]
  simp only [List.mem_filter, decide_eq_true_eq]

theorem parts_jsonRegex {parts : List (List Char)} :
    Parts jsonRegex parts ↔ ∃ key value, parts = [['"'], key, ['"', ':', ' '], value] ∧
      (∀ c ∈ key, c ∈ cChars ∧ c ≠ '"') ∧ value ∈ valueRegex.matches' := by
  simp only [Parts, jsonRegex, List.forall₂_cons_left_iff, List.forall₂_nil_left_iff, mem_literal,
    mem_star_noneOf, List.mem_singleton]
  constructor
  · rintro ⟨_, _, rfl, ⟨key, _, hkey, ⟨_, _, rfl, ⟨value, _, hvalue, rfl, rfl⟩, rfl⟩, rfl⟩, rfl⟩
    exact ⟨key, value, rfl, hkey, hvalue⟩
  · rintro ⟨key, value, rfl, hkey, hvalue⟩
    exact ⟨_, _, rfl, ⟨key, _, hkey, ⟨_, _, rfl, ⟨value, _, hvalue, rfl, rfl⟩, rfl⟩, rfl⟩, rfl⟩

theorem flatten_parts_jsonRegex (key value : List Char) :
    [['"'], key, ['"', ':', ' '], value].flatten = fieldJson key value := by
  simp [fieldJson]

theorem jsonRegex_start (u : List Char) (hu : u ∈ (concat jsonRegex).matches') :
    ∃ c v, u = c :: v ∧ c = '"' := by
  obtain ⟨parts, hparts, rfl⟩ := mem_concat.mp hu
  obtain ⟨key, value, rfl, -⟩ := parts_jsonRegex.mp hparts
  exact ⟨'"', _, rfl, rfl⟩

/-- The first occurrence of a character divides a word in one way only. -/
theorem append_cons_inj {q : Char} {k k' s s' : List Char} (hk : q ∉ k) (hk' : q ∉ k')
    (h : k ++ q :: s = k' ++ q :: s') : k = k' ∧ s = s' := by
  induction k generalizing k' with
  | nil =>
    cases k' with
    | nil => exact ⟨rfl, (List.cons.inj h).2⟩
    | cons c k' => exact absurd ((List.cons.inj h).1 ▸ List.mem_cons_self) hk'
  | cons c k ih =>
    cases k' with
    | nil => exact absurd ((List.cons.inj h).1 ▸ List.mem_cons_self) hk
    | cons c' k' =>
      obtain ⟨rfl, htail⟩ := List.cons.inj h
      obtain ⟨rfl, rfl⟩ := ih (fun hq => hk (List.mem_cons_of_mem c hq))
        (fun hq => hk' (List.mem_cons_of_mem c hq)) htail
      exact ⟨rfl, rfl⟩

theorem fieldJson_inj {key key' s s' : List Char} (hkey : '"' ∉ key) (hkey' : '"' ∉ key')
    (h : fieldJson key s = fieldJson key' s') : key = key' ∧ s = s' := by
  unfold fieldJson at h
  rw [List.cons_append, List.cons_append, List.cons_append, List.cons_append, List.append_assoc,
    List.append_assoc] at h
  obtain ⟨rfl, htail⟩ := append_cons_inj hkey hkey' (List.cons.inj h).2
  exact ⟨rfl, by simpa using htail⟩

/-- A value with what follows it is matched by `valueRegex` just as far as the value goes. -/
structure ValueEnds (value after : List Char) : Prop where
  mem : value ∈ valueRegex.matches'
  longest : ∀ u v, value ++ after = u ++ v → u ∈ valueRegex.matches' → u.length ≤ value.length

/-- A field is found whole. -/
theorem exec_field {before key value after : List Char} (hbefore : '"' ∉ before)
    (hkey : ∀ c ∈ key, c ∈ cChars ∧ c ≠ '"') (hvalue : ValueEnds value after) :
    exec jsonRegex (before ++ (fieldJson key value ++ after)) =
      some ⟨before, [['"'], key, ['"', ':', ' '], value], after⟩ := by
  have hquote : '"' ∉ key := fun hin => (hkey _ hin).2 rfl
  have happend : ∀ s t : List Char, fieldJson key s ++ t = fieldJson key (s ++ t) := fun s t => by
    simp [fieldJson]
  have hhead : exec jsonRegex (fieldJson key value ++ after) =
      some ⟨[], [['"'], key, ['"', ':', ' '], value], after⟩ := by
    rw [← flatten_parts_jsonRegex]
    refine exec_head (parts_jsonRegex.mpr ⟨key, value, rfl, hkey, hvalue.mem⟩)
      (fun u v huv hu => ?_) fun parts hparts heq => ?_
    · obtain ⟨parts, hparts, rfl⟩ := mem_concat.mp hu
      obtain ⟨key', value', rfl, hkey', hvalue'⟩ := parts_jsonRegex.mp hparts
      have hquote' : '"' ∉ key' := fun hin => (hkey' _ hin).2 rfl
      have hassoc : fieldJson key' value' ++ v = fieldJson key' (value' ++ v) := by simp [fieldJson]
      rw [flatten_parts_jsonRegex, flatten_parts_jsonRegex, happend, hassoc] at huv
      obtain ⟨rfl, hrest⟩ := fieldJson_inj hquote hquote' huv
      have hle := hvalue.longest value' v hrest hvalue'
      rw [flatten_parts_jsonRegex, flatten_parts_jsonRegex]
      simp only [fieldJson, List.length_append, List.length_cons]
      omega
    · obtain ⟨key', value', rfl, hkey', -⟩ := parts_jsonRegex.mp hparts
      have hquote' : '"' ∉ key' := fun hin => (hkey' _ hin).2 rfl
      rw [flatten_parts_jsonRegex, flatten_parts_jsonRegex] at heq
      obtain ⟨rfl, rfl⟩ := fieldJson_inj hquote' hquote heq
      rfl
  rw [exec_skip jsonRegex_start fun c hc => fun heq => hbefore (heq ▸ hc), hhead]
  simp

theorem mem_valueRegex {u : List Char} : u ∈ valueRegex.matches' ↔
    (u ≠ [] ∧ ∀ c ∈ u, c ∈ cChars ∧ c ∉ [',', '\x7b', '[']) ∨
    (∃ v ∈ (oneOrMore (concat rowRegex)).matches', u = '[' :: v ++ [']']) ∨
    ∃ v ∈ (oneOrMore (noneOf [']'])).matches', u = '[' :: v ++ [']'] := by
  have hbrackets : ∀ r : RegularExpression Char, u ∈ (concat [literal ['['], r, literal [']']]).matches' ↔
      ∃ v ∈ r.matches', u = '[' :: v ++ [']'] := fun r => by
    rw [mem_concat]
    simp only [Parts, List.forall₂_cons_left_iff, List.forall₂_nil_left_iff, mem_literal]
    constructor
    · rintro ⟨_, ⟨_, _, rfl, ⟨v, _, hv, ⟨_, _, rfl, rfl, rfl⟩, rfl⟩, rfl⟩, rfl⟩
      exact ⟨v, hv, by simp⟩
    · rintro ⟨v, hv, rfl⟩
      exact ⟨_, ⟨_, _, rfl, ⟨v, _, hv, ⟨_, _, rfl, rfl, rfl⟩, rfl⟩, rfl⟩, by simp⟩
  rw [valueRegex, mem_add, mem_add, hbrackets, hbrackets, mem_oneOrMore_noneOf, or_assoc]

theorem mem_cChars_of_isNumeric {c : Char} (h : IsNumeric c) :
    c ∈ cChars ∧ c ∉ [',', '\x7b', '['] ∧ c ≠ ']' := by
  rcases h with rfl | h
  · decide
  · have hall : Decimal.digits.all (fun c => c ∈ cChars ∧ c ∉ [',', '\x7b', '['] ∧ c ≠ ']') = true := by decide
    exact List.all_iff_forall_prop.mp hall c (Decimal.mem_digits.mpr h)

theorem isNumeric_of_mem_print {n : Int} {c : Char} (h : c ∈ Decimal.print n) : IsNumeric c := by
  rcases List.mem_append.mp h with h | h
  · exact .inl (Decimal.eq_minus_of_mem_sign h)
  · exact .inr (Decimal.isDigit_of_mem_toDigits h)

/-- A number is a value up to the next comma. -/
theorem valueEnds_print (n : Int) (rest : List Char) : ValueEnds (Decimal.print n) (',' :: rest) := by
  obtain ⟨c, s, hprint, hc⟩ := Decimal.print_eq_cons n
  refine ⟨mem_valueRegex.mpr (.inl ⟨by simp [hprint], fun a ha => ?_⟩), fun u v huv hu => ?_⟩
  · obtain ⟨hmem, hnot, -⟩ := mem_cChars_of_isNumeric (isNumeric_of_mem_print ha)
    exact ⟨hmem, hnot⟩
  · have hbracket : ∀ w : List Char, u ≠ '[' :: w := fun w hw => by
      rw [hprint, hw] at huv
      exact (mem_cChars_of_isNumeric hc).2.1 (by simp [(List.cons.inj huv).1])
    rcases mem_valueRegex.mp hu with ⟨-, hall⟩ | ⟨w, -, rfl⟩ | ⟨w, -, rfl⟩
    · exact length_le_of_forall (p := fun a => a ≠ ',') (by simp) huv fun a ha heq =>
        (hall a ha).2 (by simp [heq])
    · exact absurd rfl (hbracket _)
    · exact absurd rfl (hbracket _)

theorem mem_intercalate {α : Type*} {sep : List α} {xs : List (List α)} {a : α}
    (h : a ∈ sep.intercalate xs) : a ∈ sep ∨ ∃ x ∈ xs, a ∈ x := by
  induction xs with
  | nil => exact absurd h List.not_mem_nil
  | cons x xs ih =>
    rcases eq_or_ne xs [] with rfl | hne
    · rw [List.intercalate_singleton] at h
      exact .inr ⟨x, List.mem_cons_self, h⟩
    · rw [List.intercalate_cons_of_ne_nil hne] at h
      rcases List.mem_append.mp h with h | h
      · rcases List.mem_append.mp h with h | h
        · exact .inr ⟨x, List.mem_cons_self, h⟩
        · exact .inl h
      · exact (ih h).imp_right fun ⟨y, hy, hay⟩ => ⟨y, List.mem_cons_of_mem x hy, hay⟩

/-- A separated list is made of its elements, each followed by the separator or by nothing. -/
theorem intercalate_eq_flatten {α : Type*} (sep : List α) (xs : List (List α)) :
    ∃ ws : List (List α), sep.intercalate xs = ws.flatten ∧ ws.length = xs.length ∧
      ∀ w ∈ ws, ∃ x ∈ xs, w = x ∨ w = x ++ sep := by
  induction xs with
  | nil => exact ⟨[], rfl, rfl, by simp⟩
  | cons x xs ih =>
    rcases eq_or_ne xs [] with rfl | hne
    · exact ⟨[x], by simp, rfl, fun w hw => ⟨x, List.mem_cons_self, .inl (List.mem_singleton.mp hw)⟩⟩
    · obtain ⟨ws, hflatten, hlength, hws⟩ := ih
      refine ⟨(x ++ sep) :: ws, ?_, by simp [hlength], fun w hw => ?_⟩
      · rw [List.intercalate_cons_of_ne_nil hne, hflatten, List.flatten_cons]
      · rcases List.mem_cons.mp hw with rfl | hw
        · exact ⟨x, List.mem_cons_self, .inr rfl⟩
        · obtain ⟨y, hy, hwy⟩ := hws w hw
          exact ⟨y, List.mem_cons_of_mem x hy, hwy⟩

variable {P : Puzzle}

/-- A row is an iteration of `rowRegex`, with or without the comma behind it. -/
theorem gridRowJson_mem (g : Grid P) (y : Fin P.eternSize) {sep : List Char}
    (hsep : sep = [] ∨ sep = [',', ' ']) :
    gridRowJson g y ++ sep ∈ (concat rowRegex).matches' := by
  let cells := [',', ' '].intercalate ((List.finRange P.eternSize).map fun x => Decimal.print (g (x, y)))
  have hcells : ∀ c ∈ cells, c ∈ cChars ∧ c ∉ ['['] := fun c hc => by
    rcases mem_intercalate hc with hc | ⟨_, hx, hc⟩
    · have hsep : [',', ' '].all (fun c => c ∈ cChars ∧ c ∉ ['[']) = true := by decide
      exact List.all_iff_forall_prop.mp hsep c hc
    · obtain ⟨x, -, rfl⟩ := List.mem_map.mp hx
      obtain ⟨hmem, hnot, -⟩ := mem_cChars_of_isNumeric (isNumeric_of_mem_print hc)
      exact ⟨hmem, fun hin => hnot (List.mem_cons_of_mem _ (List.mem_cons_of_mem _ hin))⟩
  have hne : cells ≠ [] := by
    have hsize : List.finRange P.eternSize ≠ [] :=
      List.ne_nil_of_length_pos (by rw [List.length_finRange]; exact P.eternSize_pos)
    obtain ⟨x, xs, hxs⟩ := List.exists_cons_of_ne_nil hsize
    obtain ⟨c, s, hprint, -⟩ := Decimal.print_eq_cons (g (x, y))
    rcases eq_or_ne xs [] with rfl | hne
    · simp [cells, hxs, hprint]
    · have hne' : (xs.map fun x => Decimal.print (g (x, y))) ≠ [] := by simpa using hne
      simp [cells, hxs, List.intercalate_cons_of_ne_nil hne']
  refine mem_concat.mpr ⟨[['['], cells, [']'], sep], ?_, by simp [gridRowJson, cells]⟩
  refine .cons (mem_literal.mpr rfl) (.cons (mem_oneOrMore_noneOf.mpr ⟨hne, hcells⟩)
    (.cons (mem_literal.mpr rfl) (.cons (mem_star_oneOf.mpr fun c hc => ?_) .nil)))
  rcases hsep with rfl | rfl
  · exact absurd hc List.not_mem_nil
  · exact hc

/-- The grid is a value up to the closing brace. -/
theorem valueEnds_grid (g : Grid P) : ValueEnds (buildGridJson g) ['}', '\n'] := by
  refine ⟨mem_valueRegex.mpr (.inr (.inl ⟨_, ?_, rfl⟩)), fun u v huv hu => ?_⟩
  · obtain ⟨ws, hflatten, hlength, hws⟩ :=
      intercalate_eq_flatten [',', ' '] ((List.finRange P.eternSize).map (gridRowJson g))
    rw [hflatten]
    refine flatten_mem_oneOrMore (List.ne_nil_of_length_pos ?_) fun w hw => ?_
    · rw [hlength, List.length_map, List.length_finRange]
      exact P.eternSize_pos
    · obtain ⟨_, hrow, hw⟩ := hws w hw
      obtain ⟨y, -, rfl⟩ := List.mem_map.mp hrow
      rcases hw with rfl | rfl
      · simpa using gridRowJson_mem g y (.inl rfl)
      · exact gridRowJson_mem g y (.inr rfl)
  · -- A match that starts with a bracket ends with one.
    have hlast : ∀ w : List Char, u = '[' :: w ++ [']'] → u.length ≤ (buildGridJson g).length := by
      intro w hw
      by_contra hlt
      have hget : u[u.length - 1]? = some ']' := by simp [hw]
      have hwhole : (buildGridJson g ++ ['}', '\n'])[u.length - 1]? = some ']' := by
        rw [huv, List.getElem?_append_left (by omega), hget]
      rw [List.getElem?_append_right (by omega)] at hwhole
      exact absurd (List.mem_of_getElem? hwhole) (by decide)
    rcases mem_valueRegex.mp hu with ⟨hne, hall⟩ | ⟨w, -, rfl⟩ | ⟨w, -, rfl⟩
    · obtain ⟨c, u, rfl⟩ := List.exists_cons_of_ne_nil hne
      have hc : '[' = c := (List.cons.inj huv).1
      exact absurd (hall c List.mem_cons_self).2 (by simp [← hc])
    · exact hlast _ rfl
    · exact hlast _ rfl

end Fields

/-! ## Whole packets -/

section Whole

variable {P : Puzzle}

/-- One turn of `read_from_json` on a field. -/
theorem readFromJsonLoop_field {memory : Packet P} {possibility : Option (Packet P)} {fuel : Nat}
    {before key value rest : List Char} {c : Char} (hbefore : '"' ∉ before)
    (hkey : ∀ a ∈ key, a ∈ cChars ∧ a ≠ '"') (hvalue : ValueEnds value (c :: rest)) (hrest : rest ≠ []) :
    readFromJsonLoop memory (fuel + 1) (before ++ (fieldJson key value ++ c :: rest)) possibility =
      readFromJsonLoop memory fuel rest
        (some ((possibility.getD memory.clearFaces).readField key value)) := by
  rw [readFromJsonLoop, exec_field hbefore hkey hvalue]
  simp [hrest]

theorem ofInt_atoi_print_uint16 (n : UInt16) :
    UInt16.ofInt (Decimal.atoi (Decimal.print n.toNat)) = n := by
  have hlt := n.toNat_lt
  have hmod : ((n.toNat : Int) % 2 ^ 16).toNat = n.toNat := by omega
  rw [Decimal.atoi_print, UInt16.ofInt, hmod, UInt16.ofNat_toNat]

theorem ofInt_atoi_print_uint8 (n : UInt8) :
    UInt8.ofInt (Decimal.atoi (Decimal.print n.toNat)) = n := by
  have hlt := n.toNat_lt
  have hmod : ((n.toNat : Int) % 2 ^ 8).toNat = n.toNat := by omega
  rw [Decimal.atoi_print, UInt8.ofInt, hmod, UInt8.ofNat_toNat]

/-- No piece is marked in a fresh packet, whatever its memory held. -/
theorem isFaceUsed_clearFaces (memory : Packet P) {j : Nat} (hj : j < P.eternParts) :
    isFaceUsed memory.clearFaces.bFaceused j = false := by
  have hfold : ∀ (l : List Nat) (faceused : Words 16), j ∈ l ∨ isFaceUsed faceused j = false →
      isFaceUsed (l.foldl (fun f p => setFaceUsed f p false) faceused) j = false := by
    intro l
    induction l with
    | nil => exact fun _ h => h.resolve_left List.not_mem_nil
    | cons p l ih =>
      intro faceused h
      refine ih _ ?_
      rw [isFaceUsed_setFaceUsed]
      rcases h with h | h
      · rcases List.mem_cons.mp h with rfl | h
        · exact .inr (if_pos rfl)
        · exact .inl h
      · exact .inr (by simp [h])
  exact hfold _ _ (.inl (List.mem_range.mpr hj))

/-- The text of a packet, its fields apart. -/
theorem fprintPossibilityPacket_eq (q : Packet P) : fprintPossibilityPacket q =
    ['{'] ++ (fieldJson "alloc".toList (Decimal.print q.alloc.toNat) ++ ',' ::
      ([' '] ++ (fieldJson "x".toList (Decimal.print q.x.toNat) ++ ',' ::
      ([' '] ++ (fieldJson "y".toList (Decimal.print q.y.toNat) ++ ',' ::
      ([' '] ++ (fieldJson "grid".toList (buildGridJson q.grid) ++ ['}', '\n']))))))) := by
  simp [fprintPossibilityPacket]

/-- An export is read back with its fields and its grid; the mask marks each value modulo
`ETERN_PARTS`. -/
theorem readFromJson_fprint (memory q : Packet P) (hq : ∀ c, (Int16.ofInt (q.grid c)).toInt = q.grid c) :
    ∃ p, readFromJson memory (fprintPossibilityPacket q) = .ok (some p) ∧
      p.alloc = q.alloc ∧ p.x = q.x ∧ p.y = q.y ∧ p.grid = q.grid ∧
      ∀ j < P.eternParts, (isFaceUsed p.bFaceused j = true ↔
        ∃ c, 0 ≤ q.grid c ∧ (q.grid c).toNat % P.eternParts = j) := by
  have hkeys : ∀ key ∈ ["alloc".toList, "x".toList, "y".toList, "grid".toList],
      ∀ a ∈ key, a ∈ cChars ∧ a ≠ '"' := by
    have hall : ["alloc".toList, "x".toList, "y".toList, "grid".toList].all
        (fun key => key.all fun a => a ∈ cChars ∧ a ≠ '"') = true := by decide
    intro key hkey
    exact List.all_iff_forall_prop.mp (List.all_eq_true.mp hall key hkey)
  have hstop : '"' ∉ ['{'] ∧ '"' ∉ [' '] := by decide
  have hnil : exec jsonRegex ['\n'] = none :=
    exec_eq_none jsonRegex_start fun c hc heq => absurd (heq ▸ hc) (by decide)
  have hend : ∀ (fuel : Nat) (p : Packet P),
      readFromJsonLoop memory fuel ['\n'] (some p) = .ok (some p) := fun fuel p => by
    cases fuel with
    | zero => rfl
    | succ fuel => rw [readFromJsonLoop, hnil]
  obtain ⟨fuel, hfuel⟩ : ∃ n, (fprintPossibilityPacket q).length = n + 1 + 1 + 1 + 1 := by
    refine ⟨(fprintPossibilityPacket q).length - 4, ?_⟩
    have hlength : 4 ≤ (fprintPossibilityPacket q).length := by
      simp only [fprintPossibilityPacket, fieldJson, List.length_append, List.length_cons]
      omega
    omega
  let fields : Packet P := { memory.clearFaces with alloc := q.alloc, x := q.x, y := q.y }
  have hread : readFromJson memory (fprintPossibilityPacket q) =
      .ok (some (computeGrid fields (buildGridJson q.grid))) := by
    have halloc := ofInt_atoi_print_uint16 q.alloc
    have hx := ofInt_atoi_print_uint8 q.x
    have hy := ofInt_atoi_print_uint8 q.y
    rw [readFromJson, hfuel, fprintPossibilityPacket_eq,
      readFromJsonLoop_field hstop.1 (hkeys _ (by simp)) (valueEnds_print _ _) (by simp),
      readFromJsonLoop_field hstop.2 (hkeys _ (by simp)) (valueEnds_print _ _) (by simp),
      readFromJsonLoop_field hstop.2 (hkeys _ (by simp)) (valueEnds_print _ _) (by simp),
      readFromJsonLoop_field hstop.2 (hkeys _ (by simp)) (valueEnds_grid _) (by simp), hend]
    simp [Packet.readField, halloc, hx, hy, fields]
  obtain ⟨hgrid, halloc, hx, hy, hmask⟩ := computeGrid_spec hq fields
  refine ⟨_, hread, halloc, hx, hy, hgrid, fun j hj => ?_⟩
  have hclear : isFaceUsed fields.bFaceused j = false := isFaceUsed_clearFaces memory hj
  rw [hmask, hclear]
  simp

end Whole

/-! ## When the mask is right -/

/-- `p` is read back from the export of `q`: the same fields and grid, marked for the pieces
on it, so with the same free pieces and the same completions. -/
structure Packet.ReadsBack {P : Puzzle} (ps : PieceSet P) (q memory p : Packet P) : Prop where
  read : readFromJson memory (fprintPossibilityPacket q) = .ok (some p)
  alloc : p.alloc = q.alloc
  x : p.x = q.x
  y : p.y = q.y
  grid : p.grid = q.grid
  mask : MaskOf p.grid (isFaceUsed p.bFaceused)
  free : ∀ i, 1 ≤ i → i ≤ P.eternParts →
    isFaceUsed p.bFaceused (i - 1) = isFaceUsed q.bFaceused (i - 1)
  completions : p.completions ps = q.completions ps

section Mask

variable {P : Puzzle} {ps : PieceSet P} {g : Grid P}

theorem Grid.WellFormed.int16 (hg : g.WellFormed ps) (c : Cell P) :
    (Int16.ofInt (g c)).toInt = g c := by
  have hle := P.eternParts_le
  rcases hg.cell c with h | h
  · rw [h]
    rfl
  · obtain ⟨h₁, h₂⟩ := isPiece_iff.mp h
    exact Int16.toInt_ofInt_of_le (by omega) (by omega)

/-- The bit the reader sets for a piece is that of its identifier, or bit 0 for the last one. -/
theorem IsPiece.mod_eq {v : Int} (hv : IsPiece P v) : v.toNat % P.eternParts = pieceId P v % P.eternParts := by
  have hpos := (isPiece_iff.mp hv).1
  rw [pieceId, Nat.mod_add_mod]
  congr 1
  omega

/-- The bits the reader sets: bit `j` for the piece `j`, and bit 0 for the last piece. -/
theorem readMask_iff (hg : g.WellFormed ps) {j : Nat} (hj : j < P.eternParts) :
    (∃ c, 0 ≤ g c ∧ (g c).toNat % P.eternParts = j) ↔
      ∃ c, g c ≠ -2 ∧ pieceId P (g c) = if j = 0 then P.eternParts else j := by
  refine exists_congr fun c => ?_
  rcases hg.cell c with h | h
  · simp [h]
  · have hpos := pieceId_pos (P := P) (v := g c)
    have hle := pieceId_le (P := P) (v := g c)
    simp only [h.nonneg, h.ne_empty, h.mod_eq, ne_eq, not_false_eq_true, true_and]
    rcases Nat.lt_or_eq_of_le hle with hlt | heq
    · rw [Nat.mod_eq_of_lt hlt]
      split <;> omega
    · rw [heq, Nat.mod_self]
      split <;> omega

/-- A board that has every piece or none is full or empty. -/
theorem full_of_pieces (h : ∀ i, 1 ≤ i → i ≤ P.eternParts → ∃ c, g c ≠ -2 ∧ pieceId P (g c) = i)
    (c : Cell P) : g c ≠ -2 := by
  choose cell hcell using fun i : Fin P.eternParts => h (i.val + 1) (Nat.succ_pos _) i.isLt
  have hinj : Function.Injective cell := fun i j hij => by
    have hi := (hcell i).2
    rw [hij, (hcell j).2] at hi
    exact Fin.ext (by omega)
  have hsurj : Function.Surjective cell :=
    ((Fintype.bijective_iff_injective_and_card cell).mpr
      ⟨hinj, by rw [Cell.card, Fintype.card_fin]⟩).2
  obtain ⟨i, rfl⟩ := hsurj c
  exact (hcell i).1

/-- The reader's mask marks the pieces on the grid exactly when they are all there, or none. -/
theorem maskOf_iff (hg : g.WellFormed ps) {used : Nat → Bool}
    (hused : ∀ j < P.eternParts, (used j = true ↔
      ∃ c, 0 ≤ g c ∧ (g c).toNat % P.eternParts = j)) :
    MaskOf g used ↔ (∀ c, g c = -2) ∨ ∀ c, g c ≠ -2 := by
  have hpos := P.eternParts_pos
  constructor
  · intro hmask
    -- The piece `i` is on the grid if and only if the piece before it is.
    have hstep : ∀ i, 1 ≤ i → i ≤ P.eternParts → ((∃ c, g c ≠ -2 ∧ pieceId P (g c) = i) ↔
        ∃ c, g c ≠ -2 ∧ pieceId P (g c) = if i - 1 = 0 then P.eternParts else i - 1) :=
      fun i hi hi' => by
        rw [← hmask i hi hi', hused (i - 1) (by omega), readMask_iff hg (by omega)]
    have hall : ∀ i, 1 ≤ i → i ≤ P.eternParts → ((∃ c, g c ≠ -2 ∧ pieceId P (g c) = i) ↔
        ∃ c, g c ≠ -2 ∧ pieceId P (g c) = P.eternParts) := by
      intro i hi hi'
      induction i, hi using Nat.le_induction with
      | base => rw [hstep 1 (Nat.le_refl 1) hi', if_pos rfl]
      | succ i hi ih =>
        rw [hstep (i + 1) (by omega) hi', if_neg (by omega), Nat.add_sub_cancel]
        exact ih (by omega)
    by_cases hlast : ∃ c, g c ≠ -2 ∧ pieceId P (g c) = P.eternParts
    · exact .inr (full_of_pieces fun i hi hi' => (hall i hi hi').mpr hlast)
    · refine .inl fun c => ?_
      by_contra hne
      exact hlast ((hall _ pieceId_pos pieceId_le).mp ⟨c, hne, rfl⟩)
  · intro h i hi hi'
    rw [hused (i - 1) (by omega), readMask_iff hg (by omega)]
    rcases h with hempty | hfull
    · simp [hempty]
    · have hevery : ∀ i, 1 ≤ i → i ≤ P.eternParts → ∃ c, g c ≠ -2 ∧ pieceId P (g c) = i :=
        fun i hi hi' => by
          obtain ⟨c, hc, -⟩ := ((Grid.isCompletion_of_full hg hfull).mpr rfl).once i hi hi'
          exact ⟨c, hfull c, hc⟩
      exact iff_of_true (hevery _ (by split <;> omega) (by split <;> omega)) (hevery i hi hi')

end Mask

/-- An export is read back exactly when the board is empty or full. -/
theorem readsBack_iff {P : Puzzle} (ps : PieceSet P) (memory q : Packet P) (hq : q.WellFormed ps) :
    (∃ p, q.ReadsBack ps memory p) ↔ (∀ c, q.grid c = -2) ∨ ∀ c, q.grid c ≠ -2 := by
  obtain ⟨p, hread, halloc, hx, hy, hgrid, hmask⟩ := readFromJson_fprint memory q hq.grid.int16
  have hiff : MaskOf p.grid (isFaceUsed p.bFaceused) ↔
      (∀ c, q.grid c = -2) ∨ ∀ c, q.grid c ≠ -2 := by
    rw [hgrid]
    exact maskOf_iff hq.grid hmask
  rw [← hiff]
  constructor
  · rintro ⟨p', h⟩
    have heq := h.read
    rw [hread] at heq
    obtain rfl := Option.some.inj (Except.ok.inj heq)
    exact h.mask
  · intro h
    refine ⟨p, hread, halloc, hx, hy, hgrid, h, fun i hi hi' => ?_, ?_⟩
    · rw [Bool.eq_iff_iff, h i hi hi', hq.mask i hi hi', hgrid]
    · rw [Packet.completions, Packet.completions, hgrid]

/-- The whole solution of the frame set is read back. -/
theorem readsBack_iff_frame : ∃ p, (Frame.packet fun _ : Cell .p16 => true).ReadsBack
    (Frame.pieces .p16) (Frame.packet fun _ => false) p := by
  refine (readsBack_iff _ _ _ (Frame.packet_wellFormed _)).mpr (.inr fun c => ?_)
  rw [Frame.packet_grid, ne_eq, Frame.grid_eq_empty]
  exact Bool.noConfusion

/-- A board with the piece 1 in the corner only: the piece 2 is marked instead. -/
theorem readsBack_offByOne :
    (Frame.packet fun c : Cell .p16 => c.pos = 0).WellFormed (Frame.pieces .p16) ∧
    (∃ p, readFromJson (Frame.packet fun _ => false)
        (fprintPossibilityPacket (Frame.packet fun c : Cell .p16 => c.pos = 0)) = .ok (some p) ∧
      p.grid = (Frame.packet fun c : Cell .p16 => c.pos = 0).grid ∧
      isFaceUsed p.bFaceused 0 = false ∧ isFaceUsed p.bFaceused 1 = true) ∧
    ¬ ∃ p, (Frame.packet fun c : Cell .p16 => c.pos = 0).ReadsBack (Frame.pieces .p16)
      (Frame.packet fun _ => false) p := by
  have hwf := Frame.packet_wellFormed fun c : Cell .p16 => c.pos = 0
  obtain ⟨p, hread, -, -, -, hgrid, hmask⟩ := readFromJson_fprint (Frame.packet fun _ => false) _
    hwf.grid.int16
  rw [Frame.packet_grid] at hmask
  have hfirst : isFaceUsed p.bFaceused 0 = false := by
    rw [← Bool.not_eq_true, hmask 0 (by decide)]
    decide
  refine ⟨hwf, ⟨p, hread, hgrid, hfirst, (hmask 1 (by decide)).mpr (by decide)⟩, ?_⟩
  rintro ⟨p', h⟩
  have heq := h.read
  rw [hread] at heq
  obtain rfl := Option.some.inj (Except.ok.inj heq)
  have hcorner := (h.mask 1 (Nat.le_refl 1) (by decide)).mpr (by
    rw [hgrid, Frame.packet_grid]
    decide)
  rw [hfirst] at hcorner
  exact absurd hcorner (by decide)
