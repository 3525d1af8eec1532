-- SUMMARY: The frame set: at every size a piece set with a known solution, and the partial boards of that solution.
import EternityII.Puzzle.Board

/-!
# The frame set

Well-formed boards and completions exist at every size: take one piece for each cell,
with the border colour on the grid border and colour 1 everywhere else. Any part of the
obvious solution is then a well-formed board.
-/

namespace Frame

variable {P : Puzzle}

/-- The colour a cell of the solution shows on one edge. -/
def colour (c : Cell P) (d : Dir) : Int := if (c.neighbor d).isNone then 0 else 1

/-- Piece `i` belongs in the cell at position `i - 1`. -/
def part (P : Puzzle) (i : Nat) : PuzzlePart where
  id := i
  top := colour (Cell.ofPos P (i - 1)) .top
  right := colour (Cell.ofPos P (i - 1)) .right
  bottom := colour (Cell.ofPos P (i - 1)) .bottom
  left := colour (Cell.ofPos P (i - 1)) .left
  rotation := 0

@[simp] theorem part_face (i : Nat) (d : Dir) : (part P i).face d = colour (Cell.ofPos P (i - 1)) d := by
  cases d <;> rfl

/-- One piece for each cell of the board. -/
def pieces (P : Puzzle) : PieceSet P where
  part := part P
  part_id _ _ _ := rfl
  face_nonneg i d _ _ := by
    rw [part_face, colour]
    split <;> omega
  face_le i d _ _ := by
    rw [part_face, colour]
    split <;> omega

/-- The value of the piece that belongs in a cell. -/
def value (c : Cell P) : Int := idForRotatedPart P (c.pos + 1) 0

theorem isPiece_value (c : Cell P) : IsPiece P (value c) :=
  ⟨c.pos + 1, 0, by omega, c.pos_lt, by omega, rfl⟩

theorem pieceId_value (c : Cell P) : pieceId P (value c) = c.pos + 1 :=
  pieceId_idForRotatedPart (by omega) c.pos_lt

theorem shows_value (c : Cell P) (d : Dir) : shows (pieces P) (value c) d = colour c d := by
  have hrot := rotateAllParts_apply (pieces P) (i := c.pos + 1) (r := 0) (by omega) c.pos_lt (by omega)
  rw [shows, value, Int.toNat_natCast, hrot]
  have hid : rotatePart (part P (c.pos + 1)) 0 = part P (c.pos + 1) := rfl
  show (rotatePart (part P (c.pos + 1)) 0).face d = _
  rw [hid, part_face, Nat.add_sub_cancel, Cell.ofPos_pos]

/-- The part of the solution on the cells of `keep`. -/
def grid (keep : Cell P → Bool) : Grid P := fun c => if keep c then value c else -2

theorem grid_eq_empty {keep : Cell P → Bool} {c : Cell P} : grid keep c = -2 ↔ keep c = false := by
  cases h : keep c
  · simp [grid, h]
  · simp [grid, h, (isPiece_value c).ne_empty]

theorem grid_of_ne {keep : Cell P → Bool} {c : Cell P} (h : grid keep c ≠ -2) :
    grid keep c = value c := by
  rw [ne_eq, grid_eq_empty, Bool.not_eq_false] at h
  simp [grid, h]

/-- Inside the grid both sides of an edge show colour 1. -/
private theorem colour_of_neighbor {c c' : Cell P} {d : Dir} (h : c.neighbor d = some c') :
    colour c d = 1 := by
  simp [colour, h]

/-- Every part of the solution is a well-formed board. -/
theorem grid_wellFormed (keep : Cell P → Bool) : (grid keep).WellFormed (pieces P) where
  cell c := by
    by_cases h : grid keep c = -2
    · exact .inl h
    · exact .inr (by rw [grid_of_ne h]; exact isPiece_value c)
  once c c' h h' heq := by
    rw [grid_of_ne h, grid_of_ne h', pieceId_value, pieceId_value] at heq
    exact Cell.pos_injective (by omega)
  border c d h hn := by
    rw [grid_of_ne h, shows_value]
    simp [colour, hn]
  placed c d c' h hn h' := by
    rw [grid_of_ne h, grid_of_ne h', shows_value, shows_value, colour_of_neighbor hn,
      colour_of_neighbor (Cell.neighbor_opposite hn)]
  open_ c d c' h hn _ := by
    rw [grid_of_ne h, shows_value, colour_of_neighbor hn]
    decide

/-- The solution completes every part of it. -/
theorem isCompletion_grid (keep : Cell P → Bool) :
    Grid.IsCompletion (pieces P) (grid keep) (grid fun _ => true) := by
  have hfull : Grid.IsCompletion (pieces P) (grid fun _ => true) (grid fun _ => true) := by
    refine (Grid.isCompletion_of_full (grid_wellFormed _) fun c => ?_).mpr rfl
    rw [ne_eq, grid_eq_empty]
    exact Bool.noConfusion
  exact { hfull with
    extends_ := fun c h => by rw [grid_of_ne h]; rfl
    inner := fun c d c' _ hn => by
      show shows _ (value c) d ≠ 0
      rw [shows_value, colour_of_neighbor hn]
      decide }

end Frame
