-- SUMMARY: The incremental frontier: empty and constrained cells as bit sets, constrained sides, failure weights.
import EternityII.Base.BitWords
import EternityII.Puzzle.Board

/-!
# The frontier

`bt_frontier` keeps, next to the board, the set of empty cells, the set of cells with a
constrained side and the number of those sides, so that the choice of a cell never scans
the grid. Placing or taking back a piece changes it for the cell and its neighbours only.
The failure weights come from the search and not from the board.
-/

/-! ## Sets of cells in words of 64 bits -/

/-- `BT_FRONTIER_WORDS`. -/
def btFrontierWords (P : Puzzle) : Nat := (P.eternParts + 63) / 64

/-- The cells of a bit set over positions, in the order of their positions. -/
def frontierCells (P : Puzzle) (a : Words 64) : List (Cell P) :=
  (a.members (btFrontierWords P)).map (Cell.ofPos P)

/-- The bit set holds exactly the positions of the cells with `p`. -/
def Marks {P : Puzzle} (a : Words 64) (p : Cell P → Bool) : Prop :=
  ∀ j, a.bit j = (decide (j < P.eternParts) && p (Cell.ofPos P j))

namespace Marks

variable {P : Puzzle} {a a' : Words 64} {p p' : Cell P → Bool}

theorem bit_pos (h : Marks a p) (c : Cell P) : a.bit c.pos = p c := by
  rw [h, Cell.ofPos_pos]
  simp [c.pos_lt]

theorem congr (h : Marks a p) (hp : ∀ c, p c = p' c) : Marks a p' := fun j => by
  rw [h, hp]

/-- Positions on the board name cells one for one. -/
private theorem pos_eq_iff {c : Cell P} {j : Nat} (hj : j < P.eternParts) :
    c.pos = j ↔ Cell.ofPos P j = c := by
  constructor
  · rintro rfl
    exact c.ofPos_pos
  · rintro rfl
    exact Cell.pos_ofPos hj

theorem setBit (h : Marks a p) (c : Cell P) :
    Marks (a.setBit c.pos) (Function.update p c true) := fun j => by
  rw [Words.bit_setBit (by decide), h]
  by_cases hj : j < P.eternParts
  · simp only [pos_eq_iff hj, hj, decide_true, Bool.true_and, Function.update_apply]
    split <;> simp [*]
  · have hne : c.pos ≠ j := fun heq => hj (heq ▸ c.pos_lt)
    simp [hj, hne]

theorem clearBit (h : Marks a p) (c : Cell P) :
    Marks (a.clearBit c.pos) (Function.update p c false) := fun j => by
  rw [Words.bit_clearBit (by decide), h]
  by_cases hj : j < P.eternParts
  · simp only [pos_eq_iff hj, hj, decide_true, Bool.true_and, Function.update_apply]
    split <;> simp [*]
  · simp [hj]

/-- Setting the bits of all cells with `p`, one after the other. -/
theorem of_filter (p : Cell P → Bool) :
    Marks ((((Cell.all P).filter p).map Cell.pos).foldl Words.setBit Words.zero) p := fun j => by
  rw [Words.bit_foldl_setBit (by decide), Words.bit_zero, Bool.or_false, Bool.eq_iff_iff]
  simp only [List.mem_map, List.mem_filter, Cell.mem_all, true_and, decide_eq_true_iff,
    Bool.and_eq_true]
  constructor
  · rintro ⟨c, hc, rfl⟩
    exact ⟨c.pos_lt, by rwa [Cell.ofPos_pos]⟩
  · rintro ⟨hj, hp⟩
    exact ⟨_, hp, Cell.pos_ofPos hj⟩

theorem and (h : Marks a p) (h' : Marks a' p') :
    Marks (fun w => a w &&& a' w) fun c => p c && p' c := fun j => by
  rw [Words.bit_and, h, h']
  cases decide (j < P.eternParts) <;> simp

theorem andNot (h : Marks a p) (h' : Marks a' p') :
    Marks (fun w => a w &&& ~~~a' w) fun c => p c && !p' c := fun j => by
  rw [Words.bit_andNot (by decide), h, h']
  cases decide (j < P.eternParts) <;> simp

/-- Scanning the words finds exactly the cells of the set. -/
theorem mem_frontierCells (h : Marks a p) {c : Cell P} : c ∈ frontierCells P a ↔ p c = true := by
  simp only [frontierCells, List.mem_map, Words.mem_members (w := 64) (by decide)]
  constructor
  · rintro ⟨j, ⟨-, hbit⟩, rfl⟩
    rw [h] at hbit
    exact (Bool.and_eq_true_iff.mp hbit).2
  · intro hp
    refine ⟨c.pos, ⟨?_, by rw [h.bit_pos, hp]⟩, c.ofPos_pos⟩
    have hlt := c.pos_lt
    rw [btFrontierWords]
    omega

end Marks

/-! ## The frontier and its updates -/

/-- `MRV_WDEG_SHIFT`. -/
def mrvWdegShift : Nat := 4

/-- `mrv_wdeg_shl`. -/
def mrvWdegShl (weight : Nat) : Nat :=
  let lg := (weight + 1).log2
  if lg ≥ mrvWdegShift then 0 else mrvWdegShift - lg

theorem mrvWdegShl_le (weight : Nat) : mrvWdegShl weight ≤ mrvWdegShift := by
  unfold mrvWdegShl
  dsimp only
  split <;> omega

/-- `MRV_KEY_NC_MAX`. -/
def mrvKeyNcMax : Nat := 7

/-- `MRV_POS_BITS`. -/
def mrvPosBits : Nat := 8

/-- `bt_nc_key`. -/
def btNcKey (pos nconstr : Nat) : Nat := ((mrvKeyNcMax - nconstr) <<< mrvPosBits) ||| pos

/-- `MRV_WEIGHT_MAX`. -/
def mrvWeightMax : Nat := 255

/-- `bt_frontier`; the arrays over cells are indexed by the cell itself. -/
structure BtFrontier (P : Puzzle) where
  empty : Words 64
  constrained : Words 64
  nconstr : Cell P → Nat
  weight : Cell P → Nat
  wshl : Cell P → Nat
  ncKey : Cell P → Nat

/-- The constrained sides of a cell: the border of the grid and the placed neighbours. -/
def constrainedSides {P : Puzzle} (g : Grid P) (c : Cell P) : Nat :=
  Dir.all.countP fun d =>
    match c.neighbor d with
    | none => true
    | some c' => 0 ≤ g c'

/-- `bt_frontier_init`. -/
def btFrontierInit {P : Puzzle} (g : Grid P) : BtFrontier P where
  empty := (((Cell.all P).filter fun c => g c = -2).map Cell.pos).foldl Words.setBit Words.zero
  constrained := (((Cell.all P).filter fun c => 0 < constrainedSides g c).map Cell.pos).foldl
    Words.setBit Words.zero
  nconstr := constrainedSides g
  weight _ := 0
  wshl _ := mrvWdegShl 0
  ncKey c := btNcKey c.pos (constrainedSides g c)

namespace BtFrontier

variable {P : Puzzle}

/-- `bt_frontier_constrain`. -/
def constrain (f : BtFrontier P) (c : Cell P) : BtFrontier P :=
  { f with
    nconstr := Function.update f.nconstr c (f.nconstr c + 1)
    constrained := if f.nconstr c = 0 then f.constrained.setBit c.pos else f.constrained
    ncKey := Function.update f.ncKey c (btNcKey c.pos (f.nconstr c + 1)) }

/-- `bt_frontier_release`. -/
def release (f : BtFrontier P) (c : Cell P) : BtFrontier P :=
  { f with
    nconstr := Function.update f.nconstr c (f.nconstr c - 1)
    constrained := if f.nconstr c - 1 = 0 then f.constrained.clearBit c.pos else f.constrained
    ncKey := Function.update f.ncKey c (btNcKey c.pos (f.nconstr c - 1)) }

/-- `bt_frontier_fail`. -/
def fail (f : BtFrontier P) (c : Cell P) : BtFrontier P :=
  let weight := Function.update f.weight c (f.weight c + 1)
  if weight c < mrvWeightMax then
    { f with weight := weight, wshl := Function.update f.wshl c (mrvWdegShl (weight c)) }
  else
    { f with weight := fun p => weight p / 2, wshl := fun p => mrvWdegShl (weight p / 2) }

/-- `bt_frontier_place`. -/
def place (f : BtFrontier P) (c : Cell P) : BtFrontier P :=
  c.neighbors.foldl constrain { f with empty := f.empty.clearBit c.pos }

/-- `bt_frontier_undo`. -/
def undo (f : BtFrontier P) (c : Cell P) : BtFrontier P :=
  c.neighbors.foldl release { f with empty := f.empty.setBit c.pos }

/-! ## The frontier of a board -/

/-- The fields that follow the constrained sides. -/
structure Counts (f : BtFrontier P) (n : Cell P → Nat) : Prop where
  nconstr : f.nconstr = n
  constrained : Marks f.constrained fun c => 0 < n c
  ncKey : ∀ c, f.ncKey c = btNcKey c.pos (n c)

/-- The frontier is what `bt_frontier_init` computes from the board, its weights aside. -/
structure Of (f : BtFrontier P) (g : Grid P) : Prop where
  empty : Marks f.empty fun c => g c = -2
  counts : f.Counts (constrainedSides g)
  wshl : ∀ c, f.wshl c = mrvWdegShl (f.weight c)

/-- Only three fields matter to the counts. -/
theorem Counts.of_eq {f f' : BtFrontier P} {n : Cell P → Nat} (h : f.Counts n)
    (hn : f'.nconstr = f.nconstr) (hc : f'.constrained = f.constrained) (hk : f'.ncKey = f.ncKey) :
    f'.Counts n where
  nconstr := hn.trans h.nconstr
  constrained := hc ▸ h.constrained
  ncKey c := by rw [hk, h.ncKey]

theorem of_btFrontierInit (g : Grid P) : (btFrontierInit g).Of g where
  empty := Marks.of_filter _
  counts := ⟨rfl, Marks.of_filter _, fun _ => rfl⟩
  wshl _ := rfl

theorem Of.fail {f : BtFrontier P} {g : Grid P} (h : f.Of g) (c : Cell P) : (f.fail c).Of g := by
  unfold BtFrontier.fail
  dsimp only
  split
  · refine ⟨h.empty, h.counts.of_eq rfl rfl rfl, fun c' => ?_⟩
    by_cases hc : c' = c
    · subst hc
      simp
    · simp [Function.update_of_ne hc, h.wshl]
  · exact ⟨h.empty, h.counts.of_eq rfl rfl rfl, fun _ => rfl⟩

section Counts

variable {f : BtFrontier P} {n : Cell P → Nat}

theorem Counts.constrain (h : f.Counts n) (c : Cell P) :
    (f.constrain c).Counts (Function.update n c (n c + 1)) where
  nconstr := by rw [BtFrontier.constrain, h.nconstr]
  constrained := by
    rw [BtFrontier.constrain, h.nconstr]
    dsimp only
    split
    · refine (h.constrained.setBit c).congr fun c' => ?_
      by_cases hc : c' = c <;> simp [hc]
    · refine h.constrained.congr fun c' => ?_
      by_cases hc : c' = c
      · subst hc
        simp; omega
      · simp [Function.update_of_ne hc]
  ncKey c' := by
    rw [BtFrontier.constrain, h.nconstr]
    by_cases hc : c' = c
    · subst hc
      simp
    · simp [Function.update_of_ne hc, h.ncKey]

theorem Counts.release (h : f.Counts n) (c : Cell P) :
    (f.release c).Counts (Function.update n c (n c - 1)) where
  nconstr := by rw [BtFrontier.release, h.nconstr]
  constrained := by
    rw [BtFrontier.release, h.nconstr]
    dsimp only
    split
    · refine (h.constrained.clearBit c).congr fun c' => ?_
      by_cases hc : c' = c
      · subst hc
        simp; omega
      · simp [Function.update_of_ne hc]
    · refine h.constrained.congr fun c' => ?_
      by_cases hc : c' = c
      · subst hc
        simp; omega
      · simp [Function.update_of_ne hc]
  ncKey c' := by
    rw [BtFrontier.release, h.nconstr]
    by_cases hc : c' = c
    · subst hc
      simp
    · simp [Function.update_of_ne hc, h.ncKey]

/-- One more constrained side for each cell of a list. -/
theorem Counts.foldl_constrain (h : f.Counts n) {l : List (Cell P)} (hl : l.Nodup) :
    (l.foldl BtFrontier.constrain f).Counts fun c => n c + if c ∈ l then 1 else 0 := by
  induction l generalizing f n with
  | nil => simpa using h
  | cons c l ih =>
    rw [List.nodup_cons] at hl
    have h' := ih (h.constrain c) hl.2
    rw [List.foldl_cons]
    convert h' using 2 with c'
    by_cases hc : c' = c
    · subst hc
      simp [hl.1]
    · simp [hc]

/-- One constrained side less for each cell of a list. -/
theorem Counts.foldl_release (h : f.Counts n) {l : List (Cell P)} (hl : l.Nodup) :
    (l.foldl BtFrontier.release f).Counts fun c => n c - if c ∈ l then 1 else 0 := by
  induction l generalizing f n with
  | nil => simpa using h
  | cons c l ih =>
    rw [List.nodup_cons] at hl
    have h' := ih (h.release c) hl.2
    rw [List.foldl_cons]
    convert h' using 2 with c'
    by_cases hc : c' = c
    · subst hc
      simp [hl.1]
    · simp [hc]

/-- Updates of the counts leave the other fields alone. -/
theorem foldl_constrain_frame (l : List (Cell P)) (f : BtFrontier P) :
    (l.foldl BtFrontier.constrain f).empty = f.empty ∧
      (l.foldl BtFrontier.constrain f).weight = f.weight ∧
      (l.foldl BtFrontier.constrain f).wshl = f.wshl := by
  induction l generalizing f with
  | nil => exact ⟨rfl, rfl, rfl⟩
  | cons c l ih => exact ih (f.constrain c)

theorem foldl_release_frame (l : List (Cell P)) (f : BtFrontier P) :
    (l.foldl BtFrontier.release f).empty = f.empty ∧
      (l.foldl BtFrontier.release f).weight = f.weight ∧
      (l.foldl BtFrontier.release f).wshl = f.wshl := by
  induction l generalizing f with
  | nil => exact ⟨rfl, rfl, rfl⟩
  | cons c l ih => exact ih (f.release c)

end Counts

/-- Filling a cell constrains one side of each of its neighbours. -/
theorem constrainedSides_place {g : Grid P} {c : Cell P} {v : Int} (hc : g c = -2) (hv : 0 ≤ v)
    (c' : Cell P) :
    constrainedSides (g.place c v) c' = constrainedSides g c' + if c' ∈ c.neighbors then 1 else 0 := by
  have hside : ∀ d, (match c'.neighbor d with | none => true | some c₁ => decide (0 ≤ g.place c v c₁)) =
      (decide (c'.neighbor d = some c) ||
        match c'.neighbor d with | none => true | some c₁ => decide (0 ≤ g c₁)) := fun d => by
    cases hn : c'.neighbor d with
    | none => simp
    | some c₁ =>
      by_cases h₁ : c₁ = c
      · subst h₁
        simp [hv]
      · simp [Grid.place_of_ne h₁, h₁]
  rw [constrainedSides, List.countP_congr fun d _ => by rw [hside d], constrainedSides]
  by_cases hmem : c' ∈ c.neighbors
  · obtain ⟨d₀, hd₀⟩ := Cell.mem_neighbors.mp hmem
    have hd₀ := Cell.neighbor_opposite hd₀
    have hiff : ∀ d, c'.neighbor d = some c ↔ d = d₀.opposite := fun d =>
      ⟨fun h => Cell.neighbor_dir_inj h hd₀, fun h => h ▸ hd₀⟩
    have hfree : (match c'.neighbor d₀.opposite with | none => true | some c₁ => decide (0 ≤ g c₁)) =
        false := by simp [hd₀, hc]
    simp only [hiff, hmem, if_true]
    revert hfree
    generalize d₀.opposite = d₁
    intro hfree
    cases d₁ <;> simp only [Dir.all, List.countP_cons, List.countP_nil, hfree] <;> simp
    all_goals omega
  · have hne : ∀ d, c'.neighbor d ≠ some c := fun d h =>
      hmem (Cell.mem_neighbors.mpr ⟨_, Cell.neighbor_opposite h⟩)
    simp [hne, hmem]

section Updates

variable {f : BtFrontier P} {g : Grid P} {c : Cell P} {v : Int} (hc : g c = -2) (hv : 0 ≤ v)
include hc hv

theorem Of.place (h : f.Of g) : (f.place c).Of (g.place c v) := by
  obtain ⟨hempty, hweight, hwshl⟩ :=
    foldl_constrain_frame c.neighbors { f with empty := f.empty.clearBit c.pos }
  have hcounts : Counts { f with empty := f.empty.clearBit c.pos } (constrainedSides g) :=
    h.counts.of_eq rfl rfl rfl
  refine ⟨?_, ?_, fun c' => ?_⟩
  · rw [BtFrontier.place, hempty]
    refine (h.empty.clearBit c).congr fun c' => ?_
    by_cases hne : c' = c
    · subst hne
      simp; omega
    · simp [Function.update_of_ne hne, Grid.place_of_ne hne]
  · rw [BtFrontier.place, funext (constrainedSides_place hc hv)]
    exact hcounts.foldl_constrain c.nodup_neighbors
  · rw [BtFrontier.place, hweight, hwshl]
    exact h.wshl c'

theorem Of.undo (h : f.Of (g.place c v)) : (f.undo c).Of g := by
  obtain ⟨hempty, hweight, hwshl⟩ :=
    foldl_release_frame c.neighbors { f with empty := f.empty.setBit c.pos }
  have hcounts : Counts { f with empty := f.empty.setBit c.pos } (constrainedSides (g.place c v)) :=
    h.counts.of_eq rfl rfl rfl
  refine ⟨?_, ?_, fun c' => ?_⟩
  · rw [BtFrontier.undo, hempty]
    refine (h.empty.setBit c).congr fun c' => ?_
    by_cases hne : c' = c
    · subst hne
      simp [hc]
    · simp [Function.update_of_ne hne, Grid.place_of_ne hne]
  · have hback := hcounts.foldl_release c.nodup_neighbors
    rw [BtFrontier.undo]
    convert hback using 2 with c'
    rw [constrainedSides_place hc hv]
    omega
  · rw [BtFrontier.undo, hweight, hwshl]
    exact h.wshl c'

end Updates

end BtFrontier
