-- SUMMARY: Reading a grid from its text: the numbers are found one after the other and go to the cells they came from.
import EternityII.Possibility.Json

/-!
# Reading a grid

The text of a grid spells its values row by row, with nothing numeric between them. The loop
of `compute_grid` finds each number whole and writes it to the next cell in that order, and
marks it modulo `ETERN_PARTS`.
-/

open Regex

/-! ## Numbers in a text -/

/-- A character of a number. -/
def IsNumeric (c : Char) : Prop := c = '-' ∨ c.isDigit = true

section Numbers

theorem parts_numberRegex {parts : List (List Char)} :
    Parts numberRegex parts ↔ ∃ m d, parts = [m, d] ∧ (∀ c ∈ m, c = '-') ∧ d ≠ [] ∧
      ∀ c ∈ d, c.isDigit = true := by
  simp only [Parts, numberRegex, List.forall₂_cons_left_iff, List.forall₂_nil_left_iff,
    mem_star_oneOf, mem_oneOrMore_oneOf, List.mem_singleton, Decimal.mem_digits]
  constructor
  · rintro ⟨m, _, hm, ⟨d, _, ⟨hne, hd⟩, rfl, rfl⟩, rfl⟩
    exact ⟨m, d, rfl, hm, hne, hd⟩
  · rintro ⟨m, d, rfl, hm, hne, hd⟩
    exact ⟨m, _, hm, ⟨d, _, ⟨hne, hd⟩, rfl, rfl⟩, rfl⟩

/-- A match of a number is not empty, and all its characters are numeric. -/
theorem isNumeric_of_mem {u : List Char} (hu : u ∈ (concat numberRegex).matches') :
    u ≠ [] ∧ ∀ c ∈ u, IsNumeric c := by
  obtain ⟨parts, hparts, rfl⟩ := mem_concat.mp hu
  obtain ⟨m, d, rfl, hm, hne, hd⟩ := parts_numberRegex.mp hparts
  simp only [List.flatten_cons, List.flatten_nil, List.append_nil]
  refine ⟨by simp [hne], fun c hc => ?_⟩
  rcases List.mem_append.mp hc with hc | hc
  · exact .inl (hm c hc)
  · exact .inr (hd c hc)

theorem numberRegex_start (u : List Char) (hu : u ∈ (concat numberRegex).matches') :
    ∃ c v, u = c :: v ∧ IsNumeric c := by
  obtain ⟨hne, hall⟩ := isNumeric_of_mem hu
  obtain ⟨c, v, rfl⟩ := List.exists_cons_of_ne_nil hne
  exact ⟨c, v, rfl, hall c List.mem_cons_self⟩

/-- A prefix whose characters have a property reaches at most to the first character without. -/
theorem length_le_of_forall {p : Char → Prop} {u v w s : List Char} {c : Char} (hc : ¬ p c)
    (h : w ++ c :: s = u ++ v) (hu : ∀ a ∈ u, p a) : u.length ≤ w.length := by
  by_contra hlt
  have hget : (w ++ c :: s)[w.length]? = some c := by simp
  rw [h, List.getElem?_append_left (by omega)] at hget
  exact hc (hu c (List.mem_of_getElem? hget))

/-- The next number of a text is found whole. -/
theorem exec_number {before after : List Char} {c : Char} (n : Int) (hbefore : ∀ a ∈ before, ¬ IsNumeric a)
    (hc : ¬ IsNumeric c) :
    exec numberRegex (before ++ (Decimal.print n ++ c :: after)) =
      some ⟨before, [Decimal.sign n, Nat.toDigits 10 n.natAbs], c :: after⟩ := by
  have hflatten : [Decimal.sign n, Nat.toDigits 10 n.natAbs].flatten = Decimal.print n := by
    simp [Decimal.print]
  have hsign : ∀ a ∈ Decimal.sign n, a = '-' := fun a => Decimal.eq_minus_of_mem_sign
  have hdigits : ∀ a ∈ Nat.toDigits 10 n.natAbs, a.isDigit = true :=
    fun a => Decimal.isDigit_of_mem_toDigits
  have hhead : exec numberRegex (Decimal.print n ++ c :: after) =
      some ⟨[], [Decimal.sign n, Nat.toDigits 10 n.natAbs], c :: after⟩ := by
    rw [← hflatten]
    refine exec_head (parts_numberRegex.mpr ⟨_, _, rfl, hsign, Nat.toDigits_ne_nil, hdigits⟩)
      (fun u v huv hu => ?_) fun parts hparts heq => ?_
    · exact length_le_of_forall hc huv (isNumeric_of_mem hu).2
    · -- The sign ends where the digits begin.
      obtain ⟨m, d, rfl, hm, -, hd⟩ := parts_numberRegex.mp hparts
      simp only [List.flatten_cons, List.flatten_nil, List.append_nil] at heq
      have hsplit : ∀ {m d : List Char}, (∀ a ∈ m, a = '-') → (∀ a ∈ d, a.isDigit = true) →
          (m ++ d).takeWhile (· = '-') = m := fun {m d} hm hd => by
        rw [List.takeWhile_append_of_pos (by simpa using hm)]
        have hnil : d.takeWhile (· = '-') = [] := by
          refine List.takeWhile_eq_nil_iff.mpr fun hlt heq => ?_
          have hdigit := hd _ (List.get_mem d ⟨0, hlt⟩)
          rw [of_decide_eq_true heq] at hdigit
          exact absurd hdigit (by decide)
        rw [hnil, List.append_nil]
      have hm' := hsplit hm hd
      rw [heq, hsplit hsign hdigits] at hm'
      subst hm'
      rw [List.append_cancel_left heq]
  rw [exec_skip numberRegex_start hbefore, hhead]
  simp

/-- The numbers in a text, with nothing numeric between them. -/
inductive Spells : List Int → List Char → Prop
  | nil {text : List Char} (quiet : ∀ c ∈ text, ¬ IsNumeric c) : Spells [] text
  | cons {n : Int} {ns : List Int} {before after : List Char} {c : Char}
      (quiet : ∀ c ∈ before, ¬ IsNumeric c) (stop : ¬ IsNumeric c) (rest : Spells ns (c :: after)) :
      Spells (n :: ns) (before ++ (Decimal.print n ++ c :: after))

variable {ns ms : List Int} {sep text text' : List Char}

theorem Spells.prepend (hsep : ∀ c ∈ sep, ¬ IsNumeric c) (h : Spells ns text) :
    Spells ns (sep ++ text) := by
  cases h with
  | nil quiet => exact .nil (List.forall_mem_append.mpr ⟨hsep, quiet⟩)
  | cons quiet stop rest =>
    rw [← List.append_assoc]
    exact .cons (List.forall_mem_append.mpr ⟨hsep, quiet⟩) stop rest

theorem Spells.append (h : Spells ns text) (h' : Spells ms text') :
    Spells (ns ++ ms) (text ++ text') := by
  induction h with
  | nil quiet => exact h'.prepend quiet
  | cons quiet stop _ ih =>
    rw [List.append_assoc, List.append_assoc, List.cons_append]
    exact .cons quiet stop ih

theorem Spells.length_le (h : Spells ns text) : ns.length ≤ text.length := by
  induction h with
  | nil => exact Nat.zero_le _
  | @cons n ns before after c _ _ _ ih =>
    obtain ⟨a, s, hprint, -⟩ := Decimal.print_eq_cons n
    simp only [List.length_append, List.length_cons, hprint] at ih ⊢
    omega

/-- Numbers separated by commas, up to a closing bracket. -/
theorem Spells.separated {ns : List Int} (hne : ns ≠ []) :
    Spells ns ([',', ' '].intercalate (ns.map Decimal.print) ++ [']']) := by
  have hquiet : (∀ c ∈ [',', ' '], ¬ IsNumeric c) ∧ ∀ c ∈ [']'], ¬ IsNumeric c := by
    simp [IsNumeric]
  induction ns with
  | nil => exact absurd rfl hne
  | cons n ns ih =>
    cases ns with
    | nil =>
      have hone := Spells.cons (n := n) (fun _ h => absurd h List.not_mem_nil)
        (hquiet.2 ']' List.mem_cons_self) (.nil hquiet.2)
      simpa [List.intercalate] using hone
    | cons m ns =>
      have hrest := (ih (by simp)).prepend hquiet.1
      have hcons := Spells.cons (n := n) (fun _ h => absurd h List.not_mem_nil)
        (hquiet.1 ',' List.mem_cons_self) hrest
      simpa [List.intercalate] using hcons

end Numbers

/-! ## The grid -/

/-- The cells in the order of the text, row by row. -/
def Cell.textOrder (P : Puzzle) (k : Nat) : Cell P := (Cell.ofPos P k).swap

section Grid

variable {P : Puzzle}

/-- The text between the brackets of a list of rows. -/
theorem Spells.rows (rows : List (List Int)) (hne : rows ≠ []) (hrow : ∀ row ∈ rows, row ≠ []) :
    Spells rows.flatten ([',', ' '].intercalate (rows.map fun row =>
      '[' :: [',', ' '].intercalate (row.map Decimal.print) ++ [']']) ++ [']']) := by
  have hquiet : (∀ c ∈ ['['], ¬ IsNumeric c) ∧ (∀ c ∈ [',', ' '], ¬ IsNumeric c) ∧
      ∀ c ∈ [']'], ¬ IsNumeric c := by
    simp [IsNumeric]
  induction rows with
  | nil => exact absurd rfl hne
  | cons row rows ih =>
    have hfirst := (Spells.separated (hrow row List.mem_cons_self)).prepend hquiet.1
    cases rows with
    | nil =>
      have hend := hfirst.append (.nil hquiet.2.2)
      simpa [List.intercalate] using hend
    | cons row' rows =>
      have hrest := (ih (by simp) fun r hr => hrow r (List.mem_cons_of_mem row hr)).prepend hquiet.2.1
      have hall := hfirst.append hrest
      simpa [List.intercalate] using hall

theorem map_textOrder (P : Puzzle) : (List.range P.eternParts).map (Cell.textOrder P) =
    (List.finRange P.eternSize).flatMap fun y => (List.finRange P.eternSize).map fun x => (x, y) := by
  have hswap : (List.range P.eternParts).map (Cell.textOrder P) = (Cell.all P).map Prod.swap := by
    rw [← Cell.range_map_ofPos, List.map_map]
    rfl
  rw [hswap]
  show ((List.finRange P.eternSize).flatMap fun x => (List.finRange P.eternSize).map fun y => (x, y)).map
    Prod.swap = _
  rw [List.map_flatMap]
  simp [List.map_map, Function.comp_def]

/-- The text of a grid spells its values row by row. -/
theorem buildGridJson_spells (g : Grid P) :
    Spells ((List.range P.eternParts).map fun k => g (Cell.textOrder P k)) (buildGridJson g) := by
  have hsize : List.finRange P.eternSize ≠ [] :=
    List.ne_nil_of_length_pos (by rw [List.length_finRange]; exact P.eternSize_pos)
  have hrows := Spells.rows ((List.finRange P.eternSize).map fun y =>
    (List.finRange P.eternSize).map fun x => g (x, y)) (by simpa using hsize) (by simpa using fun _ => hsize)
  have hbracket : ∀ c ∈ ['['], ¬ IsNumeric c := by
    simp [IsNumeric]
  have hflatten : ((List.finRange P.eternSize).map fun y =>
      (List.finRange P.eternSize).map fun x => g (x, y)).flatten =
      (List.range P.eternParts).map fun k => g (Cell.textOrder P k) := by
    have hmap := congrArg (List.map g) (map_textOrder P)
    rw [List.map_map, List.map_flatMap] at hmap
    rw [← List.flatMap_def]
    simpa [List.map_map, Function.comp_def] using hmap.symm
  rw [hflatten] at hrows
  have hrow : gridRowJson g = fun y => '[' :: [',', ' '].intercalate
      (((List.finRange P.eternSize).map fun x => g (x, y)).map Decimal.print) ++ [']'] := by
    funext y
    rw [gridRowJson, List.map_map]
    rfl
  have htext := hrows.prepend hbracket
  rw [List.map_map] at htext
  rw [buildGridJson, hrow]
  exact htext

/-- The coordinates after a cell of the text, as `compute_grid` counts them. -/
theorem nextCell (P : Puzzle) (k : Nat) :
    (if k % P.eternSize + 1 ≥ P.eternSize then (0, k / P.eternSize + 1)
      else (k % P.eternSize + 1, k / P.eternSize)) = ((k + 1) % P.eternSize, (k + 1) / P.eternSize) := by
  have hlt := Nat.mod_lt k P.eternSize_pos
  have hk := Nat.div_add_mod k P.eternSize
  split
  · have hsucc : k + 1 = P.eternSize * (k / P.eternSize + 1) := by
      rw [Nat.mul_succ]
      omega
    rw [hsucc, Nat.mul_mod_right, Nat.mul_div_cancel_left _ P.eternSize_pos]
  · have hsucc : k + 1 = P.eternSize * (k / P.eternSize) + (k % P.eternSize + 1) := by omega
    have hlt' : k % P.eternSize + 1 < P.eternSize := by omega
    rw [hsucc, Nat.mul_add_mod, Nat.mul_add_div P.eternSize_pos, Nat.mod_eq_of_lt hlt',
      Nat.div_eq_of_lt hlt']
    rfl

/-- The loop writes the numbers of the text to consecutive cells. -/
theorem computeGridLoop_spells {g : Grid P} (hg : ∀ c, (Int16.ofInt (g c)).toInt = g c) {n k fuel : Nat}
    {text : List Char} (possibility : Packet P) (hk : k + n ≤ P.eternParts) (hfuel : n ≤ fuel)
    (h : Spells ((List.range' k n).map fun i => g (Cell.textOrder P i)) text) :
    computeGridLoop fuel text (k % P.eternSize) (k / P.eternSize) possibility =
      ((List.range' k n).map (Cell.textOrder P)).foldl (fun p c => p.readCell c (g c)) possibility := by
  induction n generalizing k fuel text possibility with
  | zero =>
    have hquiet : ∀ c ∈ text, ¬ IsNumeric c := by
      cases h with
      | nil quiet => exact quiet
    cases fuel with
    | zero => rfl
    | succ fuel =>
      rw [computeGridLoop, exec_eq_none numberRegex_start hquiet]
      rfl
  | succ n ih =>
    obtain ⟨fuel, rfl⟩ : ∃ m, fuel = m + 1 := ⟨fuel - 1, by omega⟩
    rw [List.range'_succ, List.map_cons] at h
    obtain _ | ⟨quiet, stop, rest⟩ := h
    have hx : k % P.eternSize < P.eternSize := Nat.mod_lt _ P.eternSize_pos
    have hy : k / P.eternSize < P.eternSize := by
      rw [Nat.div_lt_iff_lt_mul P.eternSize_pos, ← P.eternParts_eq]
      omega
    have hcell : Cell.textOrder P k = (⟨k % P.eternSize, hx⟩, ⟨k / P.eternSize, hy⟩) :=
      Prod.ext rfl (Fin.ext (Nat.mod_eq_of_lt hy))
    have hvalue : Decimal.atoi [Decimal.sign (g (Cell.textOrder P k)),
        Nat.toDigits 10 (g (Cell.textOrder P k)).natAbs].flatten = g (Cell.textOrder P k) := by
      have hprint := Decimal.atoi_print (g (Cell.textOrder P k))
      simpa [Decimal.print] using hprint
    have hrest := ih (possibility.readCell (Cell.textOrder P k) (g (Cell.textOrder P k))) (by omega)
      (Nat.le_of_succ_le_succ hfuel) rest
    have hnext := nextCell P k
    rw [computeGridLoop, exec_number _ quiet stop]
    simp only [dif_pos (And.intro hx hy), hvalue, hg, ← hcell, reduceCtorEq, if_false]
    rw [List.range'_succ, List.map_cons, List.foldl_cons, ← hrest]
    split at hnext
    · rename_i hwrap
      rw [if_pos hwrap, ← (Prod.mk.inj hnext).1, ← (Prod.mk.inj hnext).2]
    · rename_i hwrap
      rw [if_neg hwrap, ← (Prod.mk.inj hnext).1, ← (Prod.mk.inj hnext).2]

/-- Every cell is in the text. -/
theorem exists_textOrder (c : Cell P) : ∃ k ∈ List.range P.eternParts, Cell.textOrder P k = c := by
  refine ⟨Cell.pos c.swap, List.mem_range.mpr (Cell.pos_lt _), ?_⟩
  rw [Cell.textOrder, Cell.ofPos_pos, Prod.swap_swap]

theorem readCell_grid (p : Packet P) (c c' : Cell P) (v : Int) :
    (p.readCell c v).grid c' = if c' = c then v else p.grid c' := Function.update_apply ..

theorem readCell_mask (p : Packet P) (c : Cell P) (v : Int) (j : Nat) :
    isFaceUsed (p.readCell c v).bFaceused j = true ↔
      isFaceUsed p.bFaceused j = true ∨ 0 ≤ v ∧ v.toNat % P.eternParts = j := by
  unfold Packet.readCell
  dsimp only
  split
  · rename_i hnonneg
    rw [isFaceUsed_setFaceUsed]
    by_cases hj : v.toNat % P.eternParts = j
    · simp [hj, hnonneg.le]
    · simp [hj]
  · rename_i hneg
    simp [hneg]

/-- What reading a list of cells leaves. -/
theorem foldl_readCell (g : Grid P) (cells : List (Cell P)) (possibility : Packet P) :
    let read := cells.foldl (fun p c => p.readCell c (g c)) possibility
    (∀ c, read.grid c = if c ∈ cells then g c else possibility.grid c) ∧
      read.alloc = possibility.alloc ∧ read.x = possibility.x ∧ read.y = possibility.y ∧
      ∀ j, isFaceUsed read.bFaceused j = true ↔ isFaceUsed possibility.bFaceused j = true ∨
        ∃ c ∈ cells, 0 ≤ g c ∧ (g c).toNat % P.eternParts = j := by
  induction cells generalizing possibility with
  | nil => simp
  | cons c cells ih =>
    obtain ⟨hgrid, halloc, hx, hy, hmask⟩ := ih (possibility.readCell c (g c))
    refine ⟨fun c' => ?_, halloc, hx, hy, fun j => ?_⟩
    · rw [List.foldl_cons, hgrid, readCell_grid]
      rcases eq_or_ne c' c with rfl | hc
      · simp
      · simp [hc]
    · rw [List.foldl_cons, hmask, readCell_mask, List.exists_mem_cons_iff, or_assoc]

/-- Reading a grid back gives its values, and marks every value modulo `ETERN_PARTS`. -/
theorem computeGrid_spec {g : Grid P} (hg : ∀ c, (Int16.ofInt (g c)).toInt = g c)
    (possibility : Packet P) :
    (computeGrid possibility (buildGridJson g)).grid = g ∧
      (computeGrid possibility (buildGridJson g)).alloc = possibility.alloc ∧
      (computeGrid possibility (buildGridJson g)).x = possibility.x ∧
      (computeGrid possibility (buildGridJson g)).y = possibility.y ∧
      ∀ j, isFaceUsed (computeGrid possibility (buildGridJson g)).bFaceused j = true ↔
        isFaceUsed possibility.bFaceused j = true ∨
          ∃ c, 0 ≤ g c ∧ (g c).toNat % P.eternParts = j := by
  have hspells := buildGridJson_spells g
  have hlength := hspells.length_le
  rw [List.length_map, List.length_range] at hlength
  rw [List.range_eq_range'] at hspells
  have hloop := computeGridLoop_spells hg possibility
    (Nat.le_of_eq (Nat.zero_add P.eternParts)) hlength hspells
  rw [Nat.zero_mod, Nat.zero_div, ← List.range_eq_range'] at hloop
  have hmem : ∀ c, c ∈ (List.range P.eternParts).map (Cell.textOrder P) := fun c => by
    obtain ⟨k, hk, rfl⟩ := exists_textOrder c
    exact List.mem_map_of_mem hk
  obtain ⟨hgrid, halloc, hx, hy, hmask⟩ := foldl_readCell g
    ((List.range P.eternParts).map (Cell.textOrder P)) possibility
  rw [computeGrid, hloop]
  refine ⟨funext fun c => ?_, halloc, hx, hy, fun j => ?_⟩
  · rw [hgrid, if_pos (hmem c)]
  · rw [hmask]
    simp only [hmem, true_and]

end Grid
