-- SUMMARY: Board geometry: the supported sizes, cells, the four directions, neighbours and the walk over the board.
import Mathlib.Data.Fintype.Prod
import Mathlib.Data.Fintype.EquivFin
import Mathlib.Data.List.FinRange
import Mathlib.Data.List.ProdSigma
import Mathlib.Tactic.Common

/-!
# Geometry

The program is compiled for one of six puzzle sizes (`ETERN_PARTS`, `ETERN_SIZE`).
A cell is a pair `(x, y)` below `ETERN_SIZE`; its neighbour at the top is `(x, y - 1)`
and its neighbour on the right is `(x + 1, y)`.
-/

/-! ## Sizes -/

/-- The values of `ETERN_PARTS` that `core_static_variables.h` accepts. -/
inductive Puzzle where
  | p16 | p64 | p100 | p144 | p196 | p256
  deriving DecidableEq, Repr

namespace Puzzle

/-- `ETERN_PARTS`. -/
def eternParts : Puzzle → Nat
  | .p16 => 16
  | .p64 => 64
  | .p100 => 100
  | .p144 => 144
  | .p196 => 196
  | .p256 => 256

/-- `ETERN_SIZE`. -/
def eternSize : Puzzle → Nat
  | .p16 => 4
  | .p64 => 8
  | .p100 => 10
  | .p144 => 12
  | .p196 => 14
  | .p256 => 16

variable (P : Puzzle)

theorem eternParts_eq : P.eternParts = P.eternSize * P.eternSize := by cases P <;> rfl

theorem eternParts_pos : 0 < P.eternParts := by cases P <;> decide

theorem eternParts_le : P.eternParts ≤ 256 := by cases P <;> decide

theorem eternSize_pos : 0 < P.eternSize := by cases P <;> decide

theorem one_lt_eternSize : 1 < P.eternSize := by cases P <;> decide

end Puzzle

/-- A cell `(x, y)` of the board. -/
abbrev Cell (P : Puzzle) : Type := Fin P.eternSize × Fin P.eternSize

/-! ## Directions and neighbours -/

/-- The four edges of a cell, in the order of the fields of `key_part`. -/
inductive Dir where
  | top | right | bottom | left
  deriving DecidableEq, Repr

namespace Dir

/-- The four directions in the order of `dx`, `dy`. -/
def all : List Dir := [.top, .right, .bottom, .left]

/-- The edge of a neighbour that touches this edge. -/
def opposite : Dir → Dir
  | .top => .bottom
  | .right => .left
  | .bottom => .top
  | .left => .right

@[simp] theorem mem_all (d : Dir) : d ∈ all := by cases d <;> decide

@[simp] theorem opposite_opposite (d : Dir) : d.opposite.opposite = d := by cases d <;> rfl

end Dir

namespace Cell

variable {P : Puzzle}

/-- The adjacent cell in a direction, `none` across the border. -/
def neighbor (c : Cell P) : Dir → Option (Cell P)
  | .top => if 0 < c.2.val then some (c.1, ⟨c.2.val - 1, by omega⟩) else none
  | .right => if h : c.1.val + 1 < P.eternSize then some (⟨c.1.val + 1, h⟩, c.2) else none
  | .bottom => if h : c.2.val + 1 < P.eternSize then some (c.1, ⟨c.2.val + 1, h⟩) else none
  | .left => if 0 < c.1.val then some (⟨c.1.val - 1, by omega⟩, c.2) else none

theorem neighbor_opposite {c c' : Cell P} {d : Dir} (h : c.neighbor d = some c') :
    c'.neighbor d.opposite = some c := by
  obtain ⟨⟨x, hx⟩, ⟨y, hy⟩⟩ := c
  obtain ⟨⟨x', hx'⟩, ⟨y', hy'⟩⟩ := c'
  cases d <;>
    simp only [neighbor, Dir.opposite, Option.ite_none_right_eq_some, Option.dite_none_right_eq_some,
      Option.some.injEq, Prod.mk.injEq, Fin.mk.injEq] at h ⊢ <;>
    · obtain ⟨_, h₁, h₂⟩ := h
      grind

theorem neighbor_ne {c c' : Cell P} {d : Dir} (h : c.neighbor d = some c') : c' ≠ c := by
  rintro rfl
  obtain ⟨⟨x, hx⟩, ⟨y, hy⟩⟩ := c'
  cases d <;>
    simp only [neighbor, Option.ite_none_right_eq_some, Option.dite_none_right_eq_some,
      Option.some.injEq, Prod.mk.injEq, Fin.mk.injEq] at h <;> omega

/-- A cell has at most one neighbour on each side, and two sides never share one. -/
theorem neighbor_dir_inj {c c' : Cell P} {d d' : Dir} (h : c.neighbor d = some c')
    (h' : c.neighbor d' = some c') : d = d' := by
  obtain ⟨⟨x, hx⟩, ⟨y, hy⟩⟩ := c
  obtain ⟨⟨x', hx'⟩, ⟨y', hy'⟩⟩ := c'
  cases d <;> cases d' <;> first
    | rfl
    | simp only [neighbor, Option.ite_none_right_eq_some, Option.dite_none_right_eq_some,
        Option.some.injEq, Prod.mk.injEq, Fin.mk.injEq] at h h'
      omega

/-- Every cell has an adjacent one. -/
theorem exists_neighbor (c : Cell P) : ∃ d c', c.neighbor d = some c' := by
  have hsize := P.one_lt_eternSize
  by_cases hleft : 0 < c.1.val
  · exact ⟨.left, _, if_pos hleft⟩
  · have hright : c.1.val + 1 < P.eternSize := by omega
    exact ⟨.right, _, dif_pos hright⟩

/-- The adjacent cells in the order top, right, bottom, left. -/
def neighbors (c : Cell P) : List (Cell P) := Dir.all.filterMap c.neighbor

theorem mem_neighbors {c c' : Cell P} : c' ∈ c.neighbors ↔ ∃ d, c.neighbor d = some c' := by
  simp [neighbors]

theorem nodup_neighbors (c : Cell P) : c.neighbors.Nodup := by
  refine List.Nodup.filterMap (fun d d' n hd hd' => neighbor_dir_inj hd hd') ?_
  decide

/-! ## Enumerating the board -/

/-- The cells in the order of `for (x) for (y)`. -/
def all (P : Puzzle) : List (Cell P) :=
  List.finRange P.eternSize ×ˢ List.finRange P.eternSize

@[simp] theorem mem_all (c : Cell P) : c ∈ all P := by
  obtain ⟨x, y⟩ := c
  exact List.mem_product.mpr ⟨List.mem_finRange x, List.mem_finRange y⟩

theorem nodup_all (P : Puzzle) : (all P).Nodup :=
  (List.nodup_finRange _).product (List.nodup_finRange _)

@[simp] theorem length_all (P : Puzzle) : (all P).length = P.eternParts := by
  rw [all, List.length_product, List.length_finRange, P.eternParts_eq]

theorem card (P : Puzzle) : Fintype.card (Cell P) = P.eternParts := by
  rw [Fintype.card_prod, Fintype.card_fin, P.eternParts_eq]

/-- `BT_CELL_POS(x, y)`. -/
def pos (c : Cell P) : Nat := c.1.val * P.eternSize + c.2.val

theorem pos_lt (c : Cell P) : c.pos < P.eternParts := by
  obtain ⟨⟨x, hx⟩, ⟨y, hy⟩⟩ := c
  have h : (x + 1) * P.eternSize ≤ P.eternSize * P.eternSize := Nat.mul_le_mul_right _ hx
  rw [P.eternParts_eq]
  simp only [pos]
  rw [Nat.succ_mul] at h
  omega

theorem pos_div (c : Cell P) : c.pos / P.eternSize = c.1.val := by
  rw [pos, Nat.mul_comm, Nat.mul_add_div P.eternSize_pos, Nat.div_eq_of_lt c.2.isLt, Nat.add_zero]

theorem pos_mod (c : Cell P) : c.pos % P.eternSize = c.2.val := by
  rw [pos, Nat.mul_comm, Nat.mul_add_mod, Nat.mod_eq_of_lt c.2.isLt]

/-- The cell `(n / ETERN_SIZE, n % ETERN_SIZE)` at a position. -/
def ofPos (P : Puzzle) (n : Nat) : Cell P :=
  (⟨n / P.eternSize % P.eternSize, Nat.mod_lt _ P.eternSize_pos⟩,
    ⟨n % P.eternSize, Nat.mod_lt _ P.eternSize_pos⟩)

theorem ofPos_pos (c : Cell P) : ofPos P c.pos = c := by
  refine Prod.ext (Fin.ext ?_) (Fin.ext c.pos_mod)
  show c.pos / P.eternSize % P.eternSize = c.1.val
  rw [pos_div, Nat.mod_eq_of_lt c.1.isLt]

theorem pos_ofPos {n : Nat} (h : n < P.eternParts) : (ofPos P n).pos = n := by
  have hdiv : n / P.eternSize < P.eternSize := by
    rw [Nat.div_lt_iff_lt_mul P.eternSize_pos, ← P.eternParts_eq]
    exact h
  rw [pos, ofPos]
  show n / P.eternSize % P.eternSize * P.eternSize + n % P.eternSize = n
  rw [Nat.mod_eq_of_lt hdiv, Nat.div_add_mod']

theorem pos_injective : Function.Injective (pos : Cell P → Nat) := by
  intro c c' h
  exact Prod.ext (Fin.ext (by rw [← pos_div, h, pos_div])) (Fin.ext (by rw [← pos_mod, h, pos_mod]))

set_option maxRecDepth 4000 in
/-- Increasing positions enumerate the board in the order of `for (x) for (y)`. -/
theorem range_map_ofPos (P : Puzzle) : (List.range P.eternParts).map (ofPos P) = all P := by
  cases P <;> decide +kernel

end Cell

/-! ## The walk `dirx`, `diry` -/

/-- `dirx`: a chosen walk for the sixteen by sixteen board, column by column otherwise
(which is what the table of the four by four board spells out). -/
def dirx : (P : Puzzle) → List (Fin P.eternSize)
  | .p256 => ([
    0, 1, 2, 2, 2, 3, 4, 5, 6, 7, 8, 9, 10, 11, 12, 13, 13, 13, 14, 15, 15, 15, 14, 14, 15, 15, 15, 15,
    15, 15, 15, 15, 15, 15, 15, 15, 15, 14, 13, 13, 13, 14, 14, 12, 11, 10, 9, 8, 7, 6, 5, 4, 3, 2, 2, 2,
    1, 0, 0, 0, 1, 1, 0, 0, 0, 0, 0, 0, 0, 0, 0, 0, 0, 1, 0, 1, 1, 3, 4, 3, 2, 1, 14, 12,
    11, 12, 13, 14, 3, 1, 1, 2, 3, 4, 12, 14, 11, 12, 13, 14, 5, 6, 7, 8, 9, 10, 1, 14, 1, 14, 1, 14,
    1, 14, 1, 14, 1, 14, 5, 6, 7, 8, 9, 10, 2, 3, 4, 5, 4, 3, 2, 2, 3, 4, 5, 6, 7, 6, 5, 4,
    3, 2, 3, 4, 5, 6, 7, 7, 6, 5, 4, 5, 6, 7, 7, 6, 7, 13, 12, 11, 10, 11, 12, 13, 13, 12, 11, 10,
    9, 8, 9, 8, 10, 11, 12, 13, 12, 11, 10, 9, 8, 9, 8, 10, 11, 10, 9, 8, 9, 8, 4, 3, 2, 2, 3, 4,
    5, 6, 5, 4, 3, 2, 2, 3, 3, 4, 5, 6, 7, 7, 6, 5, 4, 4, 5, 5, 6, 7, 7, 6, 6, 7, 7, 13,
    13, 12, 11, 12, 13, 13, 12, 11, 10, 9, 8, 10, 11, 12, 12, 11, 10, 9, 8, 9, 8, 10, 11, 11, 10, 10, 9, 8,
    9, 9, 8, 8] : List (Fin 16))
  | P => (List.range P.eternParts).map fun i => ⟨i / P.eternSize % P.eternSize,
      Nat.mod_lt _ P.eternSize_pos⟩

/-- `diry`, the second coordinate of the walk. -/
def diry : (P : Puzzle) → List (Fin P.eternSize)
  | .p256 => ([
    0, 0, 0, 1, 2, 0, 0, 0, 0, 0, 0, 0, 0, 0, 0, 0, 1, 2, 0, 0, 1, 2, 2, 1, 3, 4, 5, 6,
    7, 8, 9, 10, 11, 12, 13, 14, 15, 15, 15, 14, 13, 14, 13, 15, 15, 15, 15, 15, 15, 15, 15, 15, 15, 15, 14, 13,
    15, 15, 14, 13, 13, 14, 12, 11, 10, 9, 8, 7, 6, 5, 4, 3, 2, 2, 1, 1, 12, 14, 14, 13, 12, 11, 12, 14,
    14, 13, 12, 11, 1, 3, 4, 3, 2, 1, 1, 3, 1, 2, 3, 4, 1, 1, 1, 1, 1, 1, 5, 5, 6, 6, 7, 7,
    8, 8, 9, 9, 10, 10, 14, 14, 14, 14, 14, 14, 11, 12, 13, 13, 12, 11, 10, 9, 10, 11, 12, 13, 13, 12, 11, 10,
    9, 8, 8, 9, 10, 11, 12, 11, 10, 9, 8, 8, 9, 10, 9, 8, 8, 11, 12, 13, 13, 12, 11, 10, 9, 10, 11, 12,
    13, 13, 12, 12, 11, 10, 9, 8, 8, 9, 10, 11, 11, 10, 10, 9, 8, 8, 9, 9, 8, 8, 2, 3, 4, 5, 4, 3,
    2, 2, 3, 4, 5, 6, 7, 6, 7, 5, 4, 3, 2, 3, 4, 5, 6, 7, 6, 7, 5, 4, 5, 6, 7, 6, 7, 7,
    6, 7, 7, 6, 5, 4, 5, 6, 7, 7, 7, 6, 5, 4, 3, 4, 5, 6, 6, 5, 5, 4, 3, 2, 3, 2, 4, 4,
    3, 2, 3, 2] : List (Fin 16))
  | P => (List.range P.eternParts).map fun i => ⟨i % P.eternSize, Nat.mod_lt _ P.eternSize_pos⟩

/-- The cells `(dirx[i], diry[i])` in the order the program walks over them. -/
def Cell.path (P : Puzzle) : List (Cell P) := (dirx P).zip (diry P)

namespace Cell

/-- Column by column, step `pos c` of the walk is the cell `c`. -/
private theorem mem_zip_columns {P : Puzzle} (c : Cell P) :
    c ∈ ((List.range P.eternParts).map fun i => (⟨i / P.eternSize % P.eternSize,
      Nat.mod_lt _ P.eternSize_pos⟩ : Fin P.eternSize)).zip
      ((List.range P.eternParts).map fun i => ⟨i % P.eternSize, Nat.mod_lt _ P.eternSize_pos⟩) := by
  rw [List.zip_map']
  refine List.mem_map.mpr ⟨c.pos, List.mem_range.mpr c.pos_lt, ?_⟩
  refine Prod.ext (Fin.ext ?_) (Fin.ext c.pos_mod)
  show c.pos / P.eternSize % P.eternSize = c.1.val
  rw [pos_div, Nat.mod_eq_of_lt c.1.isLt]

set_option maxRecDepth 4000 in
private theorem mem_path_p256 : ∀ c : Cell .p256, c ∈ path .p256 := by decide +kernel

/-- The walk visits every cell. -/
theorem mem_path {P : Puzzle} (c : Cell P) : c ∈ path P := by
  cases P with
  | p256 => exact mem_path_p256 c
  | _ => exact mem_zip_columns c

end Cell
