-- SUMMARY: The decision stack: its levels, the boards pending below them, and its path.
import EternityII.Search.ForwardCheck

/-!
# The decision stack

A level of the stack is a cell, the compartment of its candidates and the position of the
next candidate to try. What remains to be explored is one board for each free candidate
from that position on, over all levels. The boards still pending and the current board
together are the work list of the search, and the completions of the root are what this
list has to cover.
-/

/-- `bt_level`. -/
structure BtLevel (P : Puzzle) where
  cell : Cell P
  search : Option (List PuzzlePart)
  nextS : Nat
  placedPos : Option Nat
  mrvScore : Int16

/-! ## Pieces on a grid -/

section Used

variable {P : Puzzle} {ps : PieceSet P} {g : Grid P}

/-- The piece with index `j` is on the grid. -/
def usedPieces (g : Grid P) (j : Nat) : Bool :=
  (Cell.all P).any fun c => g c ≠ -2 && pieceId P (g c) = j + 1

theorem maskOf_usedPieces (g : Grid P) : MaskOf g (usedPieces g) := fun i hi _ => by
  rw [usedPieces, List.any_eq_true]
  simp only [Cell.mem_all, true_and, Bool.and_eq_true, decide_eq_true_iff]
  refine exists_congr fun c => and_congr_right fun _ => ?_
  omega

/-- A correct mask agrees with the grid on the entries of the map. -/
theorem isFreeEntry_of_maskOf {used : Nat → Bool} (h : MaskOf g used) {e : PuzzlePart}
    (he : e ∈ rotateAllPartsList ps) : isFreeEntry used e = isFreeEntry (usedPieces g) e := by
  have hle := id_le_of_mem he
  by_cases hid : e.id = 0
  · simp [isFreeEntry, hid]
  · have heq : used (e.id - 1) = usedPieces g (e.id - 1) := by
      rw [Bool.eq_iff_iff, h e.id (by omega) hle, maskOf_usedPieces g e.id (by omega) hle]
    simp [isFreeEntry, heq]

end Used

/-! ## The state at a board -/

namespace BtState

/-- The state stands at the board `g`: well-formed, with every cache in step. -/
structure At {P : Puzzle} (ps : PieceSet P) (map : MapBigArray) (st : BtState P) (g : Grid P) : Prop where
  synced : st.Synced ps map
  wellFormed : st.board.WellFormed ps
  grid : st.board.grid = g

variable {P : Puzzle} {ps : PieceSet P} {map : MapBigArray} {st : BtState P} {g : Grid P} {c : Cell P}

theorem at_init {root : Packet P} (h : root.WellFormed ps) : (init ps map root).At ps map root.grid :=
  ⟨synced_init root, h, rfl⟩

/-- `alloc`, `min_candidats` and `checked` are not looked at. -/
theorem At.withBoard (h : st.At ps map g) {board : Packet P} (hgrid : board.grid = st.board.grid)
    (hfaces : board.bFaceused = st.board.bFaceused) : ({ st with board := board } : BtState P).At ps map g where
  synced := by
    refine ⟨?_, fun j => ?_, ?_, h.synced.cellMask, ?_⟩
    · rw [h.synced.constraints, hgrid]
    · rw [h.synced.used, hfaces]
    · rw [hgrid]
      exact h.synced.frontier
    · rw [h.synced.placed, hgrid]
  wellFormed := ⟨hgrid ▸ h.wellFormed.grid, by rw [hgrid, hfaces]; exact h.wellFormed.mask⟩
  grid := hgrid.trans h.grid

theorem At.place (h : st.At ps map g) (hc : g c = -2) {e : PuzzlePart} (he : e ∈ rotateAllPartsList ps)
    (hid : e.id ≠ 0) (hfits : Grid.Fits ps g c (e.value P)) :
    (st.place map c e).At ps map (g.place c (e.value P)) := by
  obtain ⟨hsynced, hwf, rfl⟩ := h
  refine ⟨hsynced.place hc he hid, ⟨hwf.grid.place hc hfits, ?_⟩, rfl⟩
  refine hwf.mask.place hc hfits.piece.ne_empty fun j => ?_
  rw [(rotateAllParts_value he hid).2.1]
  exact isFaceUsed_setFaceUsed _ _ _ _

theorem At.undo {v : Int} (h : st.At ps map (g.place c v)) (hg : g.WellFormed ps) (hc : g c = -2)
    (hfits : Grid.Fits ps g c v) : (st.undo map c (pieceId P v - 1)).At ps map g := by
  have hgrid := undo_grid map h.grid hc (pieceId P v - 1)
  refine ⟨h.synced.undo h.grid hc hfits.piece _, ⟨hgrid ▸ hg, ?_⟩, hgrid⟩
  rw [hgrid]
  exact (h.grid ▸ h.wellFormed.mask : MaskOf (g.place c v) _).unplace hc hfits fun j =>
    isFaceUsed_setFaceUsed _ _ _ _

theorem At.forwardCheck (h : st.At ps map g) (fast conflict : Bool) (c : Cell P) :
    ({ st with frontier := (btForwardCheck map st fast conflict c).2 } : BtState P).At ps map g :=
  ⟨synced_btForwardCheck h.synced fast conflict c, h.wellFormed, h.grid⟩

end BtState

/-! ## Pending boards -/

section Pending

variable {P : Puzzle}

/-- The boards of the free candidates of a list, each placed in `c`. -/
def candidateBoards (g : Grid P) (c : Cell P) (l : List PuzzlePart) : List (Grid P) :=
  (l.filter (isFreeEntry (usedPieces g))).map fun e => g.place c (e.value P)

namespace BtLevel

/-- The board at the moment the level was opened. -/
def opened (lvl : BtLevel P) (g : Grid P) : Grid P :=
  if lvl.placedPos.isSome then g.place lvl.cell (-2) else g

/-- The candidates not yet tried. -/
def rest (lvl : BtLevel P) : List PuzzlePart := (lvl.search.getD []).drop lvl.nextS

end BtLevel

/-- The boards below the stack that are still to be explored, the deepest level first. -/
def pendingBoards : Grid P → List (BtLevel P) → List (Grid P)
  | _, [] => []
  | g, lvl :: stack =>
    candidateBoards (lvl.opened g) lvl.cell lvl.rest ++ pendingBoards (lvl.opened g) stack

/-- A level whose candidates are the compartment of an empty cell of the board `g`. -/
def BtLevel.OpenedAt (ps : PieceSet P) (map : MapBigArray) (lvl : BtLevel P) (g : Grid P) : Prop :=
  ∀ search, lvl.search = some search → g lvl.cell = -2 ∧
    search = map.getPartsBigarrayWithKey (whatSearchInGridToKey ps g lvl.cell map.sizearrayM)

/-- The stack leads from the root board to the board `g`: each level was opened on the board
below it, and a level with a piece has put that piece on it. -/
inductive DecisionPath (ps : PieceSet P) (map : MapBigArray) (root : Grid P) :
    Grid P → List (BtLevel P) → Prop
  | root : DecisionPath ps map root root []
  | opened {g : Grid P} {lvl : BtLevel P} {stack : List (BtLevel P)}
      (path : DecisionPath ps map root g stack) (level : lvl.OpenedAt ps map g)
      (hplaced : lvl.placedPos = none) : DecisionPath ps map root g (lvl :: stack)
  | placed {g : Grid P} {lvl : BtLevel P} {stack : List (BtLevel P)} {v : Int}
      (path : DecisionPath ps map root g stack) (level : lvl.OpenedAt ps map g)
      (hempty : g lvl.cell = -2) (hfits : Grid.Fits ps g lvl.cell v)
      (hplaced : lvl.placedPos = some (pieceId P v - 1)) :
      DecisionPath ps map root (g.place lvl.cell v) (lvl :: stack)

variable {ps : PieceSet P} {map : MapBigArray} {root g : Grid P} {lvl : BtLevel P}
  {stack : List (BtLevel P)} {c : Cell P} {v : Int}

theorem candidateBoards_cons_of_free {e : PuzzlePart} (h : isFreeEntry (usedPieces g) e = true) (l : List PuzzlePart) :
    candidateBoards g c (e :: l) = g.place c (e.value P) :: candidateBoards g c l := by
  rw [candidateBoards, List.filter_cons_of_pos h, List.map_cons]
  rfl

theorem candidateBoards_cons_of_not_free {e : PuzzlePart} (h : isFreeEntry (usedPieces g) e = false)
    (l : List PuzzlePart) : candidateBoards g c (e :: l) = candidateBoards g c l := by
  rw [candidateBoards, List.filter_cons_of_neg (by simp [h])]
  rfl

theorem BtLevel.opened_of_none (h : lvl.placedPos = none) : lvl.opened g = g := by
  simp [opened, h]

theorem BtLevel.opened_of_some {position : Nat} (h : lvl.placedPos = some position)
    (hc : g lvl.cell = -2) (v : Int) : lvl.opened (g.place lvl.cell v) = g := by
  simp [opened, h, Grid.place_empty v hc]

theorem pendingBoards_opened (h : lvl.placedPos = none) : pendingBoards g (lvl :: stack) =
    candidateBoards g lvl.cell lvl.rest ++ pendingBoards g stack := by
  rw [pendingBoards, BtLevel.opened_of_none h]

theorem pendingBoards_placed {position : Nat} (h : lvl.placedPos = some position)
    (hc : g lvl.cell = -2) (v : Int) : pendingBoards (g.place lvl.cell v) (lvl :: stack) =
    candidateBoards g lvl.cell lvl.rest ++ pendingBoards g stack := by
  rw [pendingBoards, BtLevel.opened_of_some h hc]

theorem DecisionPath.wellFormed (h : DecisionPath ps map root g stack) (hroot : root.WellFormed ps) :
    g.WellFormed ps := by
  induction h with
  | root => exact hroot
  | opened _ _ _ ih => exact ih
  | placed _ _ hempty hfits _ ih => exact ih.place hempty hfits

/-- The candidates of a level come from the rotation table. -/
theorem BtLevel.OpenedAt.mem (h : lvl.OpenedAt ps map g) (hmap : MapOf ps map) (hg : g.WellFormed ps) :
    ∀ e ∈ lvl.rest, e ∈ rotateAllPartsList ps := by
  intro e he
  have he := List.mem_of_mem_drop he
  cases hsearch : lvl.search with
  | none => simp [hsearch] at he
  | some search =>
    rw [hsearch, Option.getD_some, (h search hsearch).2] at he
    exact mem_rotateAllPartsList_of_mem_bucket hmap (whatSearchInGridToKey_inRange hg hmap) he

/-- A free candidate of a level fits in its cell. -/
theorem BtLevel.OpenedAt.fits (h : lvl.OpenedAt ps map g) (hmap : MapOf ps map) (hg : g.WellFormed ps)
    {e : PuzzlePart} (he : e ∈ lvl.rest) (hfree : isFreeEntry (usedPieces g) e = true) :
    g lvl.cell = -2 ∧ Grid.Fits ps g lvl.cell (e.value P) := by
  have he := List.mem_of_mem_drop he
  cases hsearch : lvl.search with
  | none => simp [hsearch] at he
  | some search =>
    obtain ⟨hempty, heq⟩ := h search hsearch
    rw [hsearch, Option.getD_some, heq] at he
    refine ⟨hempty, (mem_freeEntries hg (maskOf_usedPieces g) hmap).mp ?_⟩
    exact List.mem_map_of_mem (List.mem_filter.mpr ⟨he, hfree⟩)

/-- Opening a level on an empty cell cuts the completions of the board exactly. -/
theorem exactCut_candidateBoards (hmap : MapOf ps map) (hg : g.WellFormed ps) (hc : g c = -2) :
    Cover.ExactCut (Grid.completions ps) g (candidateBoards g c
      (map.getPartsBigarrayWithKey (whatSearchInGridToKey ps g c map.sizearrayM))) := by
  have hvalue : (candidateBoards g c (map.getPartsBigarrayWithKey
      (whatSearchInGridToKey ps g c map.sizearrayM))).map (fun b => b c) =
      (freeEntries map (usedPieces g) (whatSearchInGridToKey ps g c map.sizearrayM)).map (PuzzlePart.value P) := by
    rw [candidateBoards, List.map_map]
    exact List.map_congr_left fun e _ => Grid.place_self g c (e.value P)
  refine Cover.exactCut_of_key (fun b => b c) (fun b => b c) ?_ (fun x hx => ?_) fun b hb => ?_
  · rw [hvalue]
    exact nodup_freeEntries hg hmap
  · obtain ⟨e, he, rfl⟩ := List.mem_map.mp hx
    have hfits : Grid.Fits ps g c (e.value P) :=
      (mem_freeEntries hg (maskOf_usedPieces g) hmap).mp (List.mem_map_of_mem he)
    rw [Grid.completions_place hg hc hfits, Grid.place_self]
  · rw [hvalue, mem_freeEntries hg (maskOf_usedPieces g) hmap]
    exact Grid.IsCompletion.fits hb hc

end Pending
