-- SUMMARY: Partial boards: well-formed grids, their completions, and what placing one piece does to both.
import EternityII.Puzzle.Piece
import Mathlib.Data.Set.Basic

/-!
# Boards

What the search is about, independent of how it searches: a grid holds `-2` in its empty
cells and a rotated piece elsewhere, and a completion fills every empty cell so that all
edges match. Two facts carry every expansion step. A cell's piece in a completion *fits*
the cell, and placing a fitting piece keeps exactly the completions that have that piece
in that cell.
-/

/-- `grid[ETERN_SIZE][ETERN_SIZE]`; an empty cell holds `-2`. -/
abbrev Grid (P : Puzzle) : Type := Cell P → Int

namespace Grid

variable {P : Puzzle}

/-- Pieces in place: known pieces, none twice, borders on the border colour, neighbours
matching, and no border colour towards an empty cell. -/
structure WellFormed (ps : PieceSet P) (g : Grid P) : Prop where
  cell : ∀ c, g c = -2 ∨ IsPiece P (g c)
  once : ∀ c c', g c ≠ -2 → g c' ≠ -2 → pieceId P (g c) = pieceId P (g c') → c = c'
  border : ∀ c d, g c ≠ -2 → c.neighbor d = none → shows ps (g c) d = 0
  placed : ∀ c d c', g c ≠ -2 → c.neighbor d = some c' → g c' ≠ -2 →
    shows ps (g c) d = shows ps (g c') d.opposite
  open_ : ∀ c d c', g c ≠ -2 → c.neighbor d = some c' → g c' = -2 → shows ps (g c) d ≠ 0

/-- A full board that extends `g`, uses each piece once, matches everywhere, and shows no
border colour inside the grid on the cells that `g` left empty. -/
structure IsCompletion (ps : PieceSet P) (g b : Grid P) : Prop where
  extends_ : ∀ c, g c ≠ -2 → b c = g c
  piece : ∀ c, IsPiece P (b c)
  once : ∀ i, 1 ≤ i → i ≤ P.eternParts → ∃! c, pieceId P (b c) = i
  border : ∀ c d, c.neighbor d = none → shows ps (b c) d = 0
  placed : ∀ c d c', c.neighbor d = some c' → shows ps (b c) d = shows ps (b c') d.opposite
  inner : ∀ c d c', g c = -2 → c.neighbor d = some c' → shows ps (b c) d ≠ 0

/-- The completions of a grid. -/
def completions (ps : PieceSet P) (g : Grid P) : Set (Grid P) := {b | IsCompletion ps g b}

@[simp] theorem mem_completions {ps : PieceSet P} {g b : Grid P} :
    b ∈ completions ps g ↔ IsCompletion ps g b := Iff.rfl

/-- The grid with a piece placed in a cell. -/
def place (g : Grid P) (c : Cell P) (v : Int) : Grid P := Function.update g c v

@[simp] theorem place_self (g : Grid P) (c : Cell P) (v : Int) : g.place c v c = v :=
  Function.update_self ..

theorem place_of_ne {g : Grid P} {c c' : Cell P} {v : Int} (h : c' ≠ c) : g.place c v c' = g c' :=
  Function.update_of_ne h ..

theorem place_empty {g : Grid P} {c : Cell P} (v : Int) (h : g c = -2) :
    (g.place c v).place c (-2) = g := by
  rw [place, place, Function.update_idem, ← h, Function.update_eq_self]

/-- The colour a cell asks of a piece on one side, given what is already there. -/
def SideFits (ps : PieceSet P) (g : Grid P) (c : Cell P) (v : Int) (d : Dir) : Prop :=
  match c.neighbor d with
  | none => shows ps v d = 0
  | some c' => if g c' = -2 then shows ps v d ≠ 0 else shows ps v d = shows ps (g c') d.opposite

/-- A piece not yet on the grid that the cell admits on every side. -/
structure Fits (ps : PieceSet P) (g : Grid P) (c : Cell P) (v : Int) : Prop where
  piece : IsPiece P v
  free : ∀ c', g c' ≠ -2 → pieceId P (g c') ≠ pieceId P v
  side : ∀ d, SideFits ps g c v d

section Sides

variable {ps : PieceSet P} {g : Grid P} {c c' : Cell P} {v : Int} {d : Dir}

theorem sideFits_none (h : c.neighbor d = none) : SideFits ps g c v d ↔ shows ps v d = 0 := by
  simp [SideFits, h]

theorem sideFits_empty (h : c.neighbor d = some c') (he : g c' = -2) :
    SideFits ps g c v d ↔ shows ps v d ≠ 0 := by
  simp [SideFits, h, he]

theorem sideFits_placed (h : c.neighbor d = some c') (he : g c' ≠ -2) :
    SideFits ps g c v d ↔ shows ps v d = shows ps (g c') d.opposite := by
  simp [SideFits, h, he]

end Sides

/-! ## Placing one piece -/

section Place

variable {ps : PieceSet P} {g b : Grid P} {c : Cell P} {v : Int}

/-- A placed piece never shows the border colour inside the grid towards the cell just filled. -/
theorem Fits.shows_ne_zero (hg : g.WellFormed ps) (hc : g c = -2) (h : Fits ps g c v) {d : Dir}
    {c' : Cell P} (hn : c.neighbor d = some c') : shows ps v d ≠ 0 := by
  have hside := h.side d
  by_cases he : g c' = -2
  · exact (sideFits_empty hn he).mp hside
  · rw [(sideFits_placed hn he).mp hside]
    exact hg.open_ c' d.opposite c he (Cell.neighbor_opposite hn) hc

theorem WellFormed.place (hg : g.WellFormed ps) (hc : g c = -2) (h : Fits ps g c v) :
    (g.place c v).WellFormed ps where
  cell c₁ := by
    by_cases h₁ : c₁ = c
    · subst h₁
      exact .inr (by rw [place_self]; exact h.piece)
    · rw [place_of_ne h₁]
      exact hg.cell c₁
  once c₁ c₂ := by
    by_cases h₁ : c₁ = c <;> by_cases h₂ : c₂ = c
    · intro _ _ _
      rw [h₁, h₂]
    · subst h₁
      rw [place_self, place_of_ne h₂]
      exact fun _ he heq => absurd heq.symm (h.free c₂ he)
    · subst h₂
      rw [place_self, place_of_ne h₁]
      exact fun he _ heq => absurd heq (h.free c₁ he)
    · rw [place_of_ne h₁, place_of_ne h₂]
      exact hg.once c₁ c₂
  border c₁ d := by
    by_cases h₁ : c₁ = c
    · subst h₁
      rw [place_self]
      exact fun _ hn => (sideFits_none hn).mp (h.side d)
    · rw [place_of_ne h₁]
      exact hg.border c₁ d
  placed c₁ d c₂ := by
    by_cases h₁ : c₁ = c
    · subst h₁
      rw [place_self]
      intro _ hn he
      have h₂ := Cell.neighbor_ne hn
      rw [place_of_ne h₂] at he ⊢
      exact (sideFits_placed hn he).mp (h.side d)
    · rw [place_of_ne h₁]
      intro he hn
      by_cases h₂ : c₂ = c
      · subst h₂
        have hn' := Cell.neighbor_opposite hn
        have hside := (sideFits_placed hn' he).mp (h.side d.opposite)
        rw [Dir.opposite_opposite] at hside
        rw [place_self]
        exact fun _ => hside.symm
      · rw [place_of_ne h₂]
        exact hg.placed c₁ d c₂ he hn
  open_ c₁ d c₂ := by
    intro he₁ hn he₂
    by_cases h₁ : c₁ = c
    · subst h₁
      rw [place_self]
      exact h.shows_ne_zero hg hc hn
    · by_cases h₂ : c₂ = c
      · subst h₂
        rw [place_self] at he₂
        exact absurd he₂ h.piece.ne_empty
      · rw [place_of_ne h₁] at he₁ ⊢
        rw [place_of_ne h₂] at he₂
        exact hg.open_ c₁ d c₂ he₁ hn he₂

/-- Two cells of a completion never hold rotations of the same piece. -/
theorem IsCompletion.id_inj (hb : IsCompletion ps g b) {c c' : Cell P}
    (h : pieceId P (b c) = pieceId P (b c')) : c = c' :=
  (hb.once (pieceId P (b c')) pieceId_pos pieceId_le).unique h rfl

/-- The piece a completion has in an empty cell fits there. -/
theorem IsCompletion.fits (hb : IsCompletion ps g b) (hc : g c = -2) : Fits ps g c (b c) where
  piece := hb.piece c
  free c' he heq := by
    rw [← hb.extends_ c' he] at heq
    obtain rfl := hb.id_inj heq
    exact he hc
  side d := by
    cases hn : c.neighbor d with
    | none => exact (sideFits_none hn).mpr (hb.border c d hn)
    | some c' =>
      by_cases he : g c' = -2
      · exact (sideFits_empty hn he).mpr (hb.inner c d c' hc hn)
      · rw [sideFits_placed hn he, ← hb.extends_ c' he]
        exact hb.placed c d c' hn

/-- Placing a fitting piece keeps exactly the completions that have it in that cell. -/
theorem isCompletion_place (hg : g.WellFormed ps) (hc : g c = -2) (h : Fits ps g c v) :
    IsCompletion ps (g.place c v) b ↔ IsCompletion ps g b ∧ b c = v := by
  constructor
  · intro hb
    have hbc : b c = v := by
      rw [hb.extends_ c (by rw [place_self]; exact h.piece.ne_empty), place_self]
    refine ⟨⟨fun c' he => ?_, hb.piece, hb.once, hb.border, hb.placed, fun c' d c'' he hn => ?_⟩, hbc⟩
    · have hne : c' ≠ c := fun heq => he (heq ▸ hc)
      rw [hb.extends_ c' (by rwa [place_of_ne hne]), place_of_ne hne]
    · by_cases hne : c' = c
      · subst hne
        rw [hbc]
        exact h.shows_ne_zero hg hc hn
      · exact hb.inner c' d c'' (by rwa [place_of_ne hne]) hn
  · rintro ⟨hb, rfl⟩
    refine ⟨fun c' he => ?_, hb.piece, hb.once, hb.border, hb.placed, fun c' d c'' he hn => ?_⟩
    · by_cases hne : c' = c
      · subst hne
        rw [place_self]
      · rw [place_of_ne hne] at he ⊢
        exact hb.extends_ c' he
    · have hne : c' ≠ c := fun heq => by
        subst heq
        rw [place_self] at he
        exact h.piece.ne_empty he
      exact hb.inner c' d c'' (by rwa [place_of_ne hne] at he) hn

theorem completions_place (hg : g.WellFormed ps) (hc : g c = -2) (h : Fits ps g c v) :
    completions ps (g.place c v) = {b ∈ completions ps g | b c = v} :=
  Set.ext fun _ => isCompletion_place hg hc h

/-- An empty cell that nothing fits leaves no completion. -/
theorem completions_eq_empty (hc : g c = -2) (h : ∀ v, ¬ Fits ps g c v) : completions ps g = ∅ :=
  Set.eq_empty_of_forall_notMem fun _ hb => h _ (IsCompletion.fits hb hc)

/-- Placing a piece takes candidates away from the other cells and adds none. -/
theorem Fits.of_place (hg : g.WellFormed ps) (hc : g c = -2) (h : Fits ps g c v) {c' : Cell P}
    {w : Int} (hne : c' ≠ c) (hw : Fits ps (g.place c v) c' w) : Fits ps g c' w := by
  refine ⟨hw.piece, fun c₁ he => ?_, fun d => ?_⟩
  · have hne₁ : c₁ ≠ c := fun heq => he (heq ▸ hc)
    have hfree := hw.free c₁ (by rwa [place_of_ne hne₁])
    rwa [place_of_ne hne₁] at hfree
  · have hside := hw.side d
    cases hn : c'.neighbor d with
    | none => exact (sideFits_none hn).mpr ((sideFits_none hn).mp hside)
    | some c₁ =>
      by_cases hne₁ : c₁ = c
      · subst hne₁
        rw [sideFits_placed hn (by rw [place_self]; exact h.piece.ne_empty), place_self] at hside
        rw [sideFits_empty hn hc, hside]
        exact h.shows_ne_zero hg hc (Cell.neighbor_opposite hn)
      · simpa [SideFits, hn, place_of_ne hne₁] using hside

/-- Away from the filled cell only the piece itself is lost as a candidate. -/
theorem fits_place_iff (hc : g c = -2) (h : Fits ps g c v) {c' : Cell P} {w : Int}
    (hfar : ∀ d, c'.neighbor d ≠ some c) :
    Fits ps (g.place c v) c' w ↔ Fits ps g c' w ∧ pieceId P w ≠ pieceId P v := by
  have hside : ∀ d, SideFits ps (g.place c v) c' w d ↔ SideFits ps g c' w d := fun d => by
    cases hn : c'.neighbor d with
    | none => rw [sideFits_none hn, sideFits_none hn]
    | some c₁ =>
      have hne₁ : c₁ ≠ c := fun heq => hfar d (heq ▸ hn)
      simp [SideFits, hn, place_of_ne hne₁]
  constructor
  · intro hw
    refine ⟨⟨hw.piece, fun c₁ he => ?_, fun d => (hside d).mp (hw.side d)⟩, fun heq => ?_⟩
    · have hne₁ : c₁ ≠ c := fun heq => he (heq ▸ hc)
      have hfree := hw.free c₁ (by rwa [place_of_ne hne₁])
      rwa [place_of_ne hne₁] at hfree
    · refine hw.free c ?_ ?_
      · rw [place_self]
        exact h.piece.ne_empty
      · rw [place_self, heq]
  · rintro ⟨hw, hid⟩
    refine ⟨hw.piece, fun c₁ he => ?_, fun d => (hside d).mpr (hw.side d)⟩
    by_cases hne₁ : c₁ = c
    · subst hne₁
      rw [place_self]
      exact hid.symm
    · rw [place_of_ne hne₁] at he ⊢
      exact hw.free c₁ he

end Place

/-! ## Full boards -/

section Full

variable {ps : PieceSet P} {g b : Grid P}

/-- As many cells as pieces: a board without repetition uses every piece. -/
private theorem exists_cell_of_injective {f : Cell P → Nat} (hf : ∀ c, 1 ≤ f c ∧ f c ≤ P.eternParts)
    (hinj : Function.Injective f) {i : Nat} (hi : 1 ≤ i) (hi' : i ≤ P.eternParts) :
    ∃ c, f c = i := by
  let f' : Cell P → Fin P.eternParts := fun c => ⟨f c - 1, by have := hf c; omega⟩
  have hinj' : Function.Injective f' := fun c c' h => hinj (by
    have hval : f c - 1 = f c' - 1 := congrArg Fin.val h
    have := hf c
    have := hf c'
    omega)
  have hsurj : Function.Surjective f' :=
    ((Fintype.bijective_iff_injective_and_card f').mpr
      ⟨hinj', by rw [Cell.card, Fintype.card_fin]⟩).2
  obtain ⟨c, hc⟩ := hsurj ⟨i - 1, by omega⟩
  refine ⟨c, ?_⟩
  have hval : f c - 1 = i - 1 := congrArg Fin.val hc
  have := hf c
  omega

/-- A full well-formed board is its own and only completion. -/
theorem isCompletion_of_full (hg : g.WellFormed ps) (hfull : ∀ c, g c ≠ -2) :
    IsCompletion ps g b ↔ b = g := by
  constructor
  · exact fun hb => funext fun c => hb.extends_ c (hfull c)
  · rintro rfl
    refine ⟨fun _ _ => rfl, fun c => (hg.cell c).resolve_left (hfull c), fun i hi hi' => ?_,
      fun c d hn => hg.border c d (hfull c) hn, fun c d c' hn => hg.placed c d c' (hfull c) hn (hfull c'),
      fun c d c' he => absurd he (hfull c)⟩
    have hinj : Function.Injective fun c => pieceId P (b c) :=
      fun c c' h => hg.once c c' (hfull c) (hfull c') h
    obtain ⟨c, hc⟩ := exists_cell_of_injective (fun _ => ⟨pieceId_pos, pieceId_le⟩) hinj hi hi'
    exact ⟨c, hc, fun c' hc' => hinj (hc'.trans hc.symm)⟩

theorem completions_of_full (hg : g.WellFormed ps) (hfull : ∀ c, g c ≠ -2) :
    completions ps g = {g} := Set.ext fun _ => isCompletion_of_full hg hfull

end Full

end Grid
