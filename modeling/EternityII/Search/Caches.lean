-- SUMMARY: The board of a search with its four caches: keys, mirror of the used pieces, frontier, identifier masks.
import EternityII.Possibility.Key
import EternityII.Search.Frontier

/-!
# The board and its caches

`search_packet_backtracking_mrv` changes one board in place and keeps four caches in step
with it: the search key of every cell, a mirror of the used pieces in words of 64 bits, the
frontier, and the identifier mask of every cell's compartment. Placing and taking back a
piece touches the cell and its neighbours, and leaves every cache as a fresh computation
from the board would make it.
-/

/-! ## Search keys -/

/-- The key with another requirement on one side. -/
def KeyPart.setSide (key : KeyPart) (d : Dir) (face : Int) : KeyPart :=
  .ofSides (Function.update key.side d face)

/-- The loop body shared by `bt_propagate_place` and `bt_propagate_undo`: each neighbour's
side towards `c` asks for `face`. -/
def btPropagate {P : Puzzle} (constraints : Cell P → KeyPart) (c : Cell P) (face : Dir → Int) :
    Cell P → KeyPart :=
  Dir.all.foldl (fun constraints d =>
    match c.neighbor d with
    | none => constraints
    | some c' => Function.update constraints c' ((constraints c').setSide d.opposite (face d)))
    constraints

/-- `bt_propagate_place`. -/
def btPropagatePlace {P : Puzzle} (constraints : Cell P → KeyPart) (c : Cell P) (p : PuzzlePart) :
    Cell P → KeyPart := btPropagate constraints c p.face

/-- `bt_propagate_undo`. -/
def btPropagateUndo {P : Puzzle} (constraints : Cell P → KeyPart) (c : Cell P) (allFace : Int) :
    Cell P → KeyPart := btPropagate constraints c fun _ => allFace

/-- `bt_init_constraints`. -/
def btInitConstraints {P : Puzzle} (ps : PieceSet P) (g : Grid P) (allFace : Int) : Cell P → KeyPart :=
  fun c => whatSearchInGridToKey ps g c allFace

section Propagate

variable {P : Puzzle}

private theorem foldl_propagate_side (constraints : Cell P → KeyPart) (c : Cell P)
    (face : Dir → Int) (l : List Dir) (c' : Cell P) (d' : Dir) :
    ((l.foldl (fun constraints d =>
      match c.neighbor d with
      | none => constraints
      | some c' => Function.update constraints c' ((constraints c').setSide d.opposite (face d)))
      constraints) c').side d' =
      if d'.opposite ∈ l ∧ c'.neighbor d' = some c then face d'.opposite
      else (constraints c').side d' := by
  induction l generalizing constraints with
  | nil => simp
  | cons d l ih =>
    rw [List.foldl_cons, ih]
    by_cases hl : d'.opposite ∈ l ∧ c'.neighbor d' = some c
    · rw [if_pos hl, if_pos ⟨List.mem_cons_of_mem _ hl.1, hl.2⟩]
    · rw [if_neg hl]
      by_cases hd : d'.opposite = d ∧ c'.neighbor d' = some c
      · obtain ⟨rfl, hn⟩ := hd
        rw [if_pos ⟨List.mem_cons_self, hn⟩, Cell.neighbor_opposite hn]
        simp [KeyPart.setSide]
      · rw [if_neg (by simp only [List.mem_cons]; tauto)]
        cases hn : c.neighbor d with
        | none => rfl
        | some c₁ =>
          by_cases h₁ : c' = c₁
          · subst h₁
            have hne : d' ≠ d.opposite := fun heq => hd (by
              rw [heq, Dir.opposite_opposite]
              exact ⟨rfl, Cell.neighbor_opposite hn⟩)
            simp [KeyPart.setSide, Function.update_of_ne hne]
          · simp [Function.update_of_ne h₁]

theorem btPropagate_side (constraints : Cell P → KeyPart) (c : Cell P) (face : Dir → Int)
    (c' : Cell P) (d : Dir) : (btPropagate constraints c face c').side d =
      if c'.neighbor d = some c then face d.opposite else (constraints c').side d := by
  rw [btPropagate, foldl_propagate_side]
  simp

end Propagate

/-! ## The mirror of the used pieces -/

/-- `FACES_USED_SIZE`. -/
def facesUsedSize (P : Puzzle) : Nat := P.eternParts / 16 + 1

/-- `MRV_USED_WORDS`. -/
def mrvUsedWords (P : Puzzle) : Nat := (facesUsedSize P + 3) / 4

/-- `BT_MASK_WORDS`. -/
def btMaskWords (P : Puzzle) : Nat := (P.eternParts + 63) / 64

/-- `mrv_used_init`: four groups of 16 bits to a word. -/
def mrvUsedInit {P : Puzzle} (board : Packet P) : Words 64 :=
  (List.range (facesUsedSize P)).foldl (fun used group =>
    used.orWord (group / 4) ((board.bFaceused group).setWidth 64 <<< (group % 4 * 16))) Words.zero

/-- The mirror holds the bits of the packet's mask. -/
def UsedOf {P : Puzzle} (used : Words 64) (board : Packet P) : Prop :=
  ∀ j, used.bit j = (decide (j < facesUsedSize P * 16) && isFaceUsed board.bFaceused j)

section Used

variable {P : Puzzle}

private theorem bit_foldl_orWord (b : Words 16) (n : Nat) (j : Nat) :
    ((List.range n).foldl (fun used group =>
      Words.orWord used (group / 4) ((b group).setWidth 64 <<< (group % 4 * 16))) Words.zero).bit j =
      (decide (j < n * 16) && b.bit j) := by
  induction n with
  | zero => simp
  | succ n ih =>
    rw [List.range_succ, List.foldl_append, List.foldl_cons, List.foldl_nil, Words.bit_orWord, ih,
      BitVec.getLsbD_shiftLeft, BitVec.getLsbD_setWidth]
    by_cases hj : j / 16 = n
    · have hword : j / 64 = n / 4 := by omega
      have hlt : j % 64 < 64 := Nat.mod_lt _ (by decide)
      have hge : ¬ j % 64 < n % 4 * 16 := by omega
      have hsub : j % 64 - n % 4 * 16 = j % 16 := by omega
      have hsmall : j % 16 < 64 := by omega
      have hj' : ¬ j < n * 16 := by omega
      have hj'' : j < (n + 1) * 16 := by omega
      simp [hword, hlt, hge, hsub, hsmall, hj', hj'', Words.bit, hj]
    · have hiff : j < n * 16 ↔ j < (n + 1) * 16 := by omega
      have hnone : ∀ hword : j / 64 = n / 4, ¬ j % 64 < n % 4 * 16 → 16 ≤ j % 64 - n % 4 * 16 := by
        omega
      by_cases hword : j / 64 = n / 4
      · by_cases hge : j % 64 < n % 4 * 16
        · simp [hge, hiff]
        · simp [BitVec.getLsbD_of_ge _ _ (hnone hword hge), hiff]
      · simp [hword, hiff]

theorem usedOf_mrvUsedInit (board : Packet P) : UsedOf (mrvUsedInit board) board := fun j =>
  bit_foldl_orWord board.bFaceused (facesUsedSize P) j

theorem lt_facesUsedSize {j : Nat} (hj : j < P.eternParts) : j < facesUsedSize P * 16 := by
  rw [facesUsedSize]
  omega

theorem UsedOf.bit {used : Words 64} {board : Packet P} (h : UsedOf used board) {j : Nat}
    (hj : j < P.eternParts) : used.bit j = isFaceUsed board.bFaceused j := by
  rw [h, decide_eq_true (lt_facesUsedSize hj), Bool.true_and]

end Used

/-! ## Identifier masks -/

/-- `bt_masks_complete`. -/
def btMasksComplete (P : Puzzle) (map : MapBigArray) : Bool :=
  map.bucketIdMask.isSome && map.packed.isSome && map.idMaskWords = btMaskWords P

/-- `bt_mask_resolve`: an empty compartment of a map with masks gets `bt_zero_mask`. -/
def btMaskResolve (map : MapBigArray) (key : KeyPart) : Option (Words 64) :=
  match map.mapBucketIdMask key with
  | some mask => some mask
  | none => if map.bucketIdMask.isSome && map.packed.isSome then some Words.zero else none

/-- `bt_mask_init`. -/
def btMaskInit {P : Puzzle} (map : MapBigArray) (constraints : Cell P → KeyPart) :
    Cell P → Option (Words 64) := fun c => btMaskResolve map (constraints c)

/-- `bt_mask_refresh`. -/
def btMaskRefresh {P : Puzzle} (map : MapBigArray) (cellMask : Cell P → Option (Words 64))
    (constraints : Cell P → KeyPart) (c : Cell P) : Cell P → Option (Words 64) :=
  Memory.writeAll cellMask (c.neighbors.map fun c' => (c', btMaskResolve map (constraints c')))

section Masks

variable {P : Puzzle} {map : MapBigArray} {constraints constraints' : Cell P → KeyPart}

/-- Only the keys of the neighbours have changed, so the cache is up to date again. -/
theorem btMaskRefresh_eq {c : Cell P} (h : ∀ c', c' ∉ c.neighbors → constraints' c' = constraints c') :
    btMaskRefresh map (btMaskInit map constraints) constraints' c = btMaskInit map constraints' := by
  funext c'
  rw [btMaskRefresh]
  by_cases hc' : c' ∈ c.neighbors
  · refine Memory.writeAll_map (k := fun x => x) ?_ hc'
    rw [List.map_id']
    exact c.nodup_neighbors
  · rw [Memory.writeAll_of_notMem (by simpa using hc'), btMaskInit, btMaskInit, h c' hc']

end Masks

/-! ## The board and its caches -/

/-- The board of a search, `placed_count` and the four caches. -/
structure BtState (P : Puzzle) where
  board : Packet P
  constraints : Cell P → KeyPart
  used : Words 64
  frontier : BtFrontier P
  cellMask : Cell P → Option (Words 64)
  /-- `placed_count`. -/
  placed : Nat

namespace BtState

variable {P : Puzzle} (ps : PieceSet P) (map : MapBigArray)

/-- The state at the root of a search. -/
def init (root : Packet P) : BtState P where
  board := root
  constraints := btInitConstraints ps root.grid map.sizearrayM
  used := mrvUsedInit root
  frontier := btFrontierInit root.grid
  cellMask := btMaskInit map (btInitConstraints ps root.grid map.sizearrayM)
  placed := placedCount root.grid

/-- The steps that put the entry `e` into `c`. -/
def place (st : BtState P) (c : Cell P) (e : PuzzlePart) : BtState P :=
  let constraints := btPropagatePlace st.constraints c e
  { board := { st.board with
      grid := st.board.grid.place c (e.value P)
      bFaceused := setFaceUsed st.board.bFaceused (e.id - 1) true }
    constraints := constraints
    used := st.used.setBit (e.id - 1)
    frontier := st.frontier.place c
    cellMask := btMaskRefresh map st.cellMask constraints c
    placed := st.placed + 1 }

/-- The steps that take the piece of index `position` back from `c`. -/
def undo (st : BtState P) (c : Cell P) (position : Nat) : BtState P :=
  let constraints := btPropagateUndo st.constraints c map.sizearrayM
  { board := { st.board with
      grid := st.board.grid.place c (-2)
      bFaceused := setFaceUsed st.board.bFaceused position false }
    constraints := constraints
    used := st.used.clearBit position
    frontier := st.frontier.undo c
    cellMask := btMaskRefresh map st.cellMask constraints c
    placed := st.placed - 1 }

/-- Every cache is what a fresh computation from the board gives. -/
structure Synced (st : BtState P) : Prop where
  constraints : st.constraints = btInitConstraints ps st.board.grid map.sizearrayM
  used : UsedOf st.used st.board
  frontier : st.frontier.Of st.board.grid
  cellMask : st.cellMask = btMaskInit map st.constraints
  placed : st.placed = placedCount st.board.grid

end BtState

/-! ## Placing and taking back -/

section Sides

variable {P : Puzzle} {ps : PieceSet P} {g : Grid P} {c : Cell P} {v : Int} {allFace : Int}

/-- A write to one cell changes the requirement on the sides that touch it. -/
theorem searchSide_place {c' : Cell P} {d : Dir} : searchSide ps (g.place c v) allFace c' d =
    if c'.neighbor d = some c then if v < 0 then allFace else shows ps v d.opposite
    else searchSide ps g allFace c' d := by
  unfold searchSide
  cases hn : c'.neighbor d with
  | none => simp
  | some c₁ =>
    by_cases h₁ : c₁ = c
    · subst h₁
      simp
    · simp [Grid.place_of_ne h₁, h₁]

theorem btPropagate_btInitConstraints {face : Dir → Int}
    (h : ∀ d, face d = if v < 0 then allFace else shows ps v d) :
    btPropagate (btInitConstraints ps g allFace) c face = btInitConstraints ps (g.place c v) allFace := by
  funext c'
  refine KeyPart.side_injective (funext fun d => ?_)
  rw [btPropagate_side, btInitConstraints, btInitConstraints, whatSearchInGridToKey_side,
    whatSearchInGridToKey_side, searchSide_place, h]

/-- The colours of an entry of the map are those of the value it is placed as. -/
theorem shows_value {e : PuzzlePart} (he : e ∈ rotateAllPartsList ps) (hid : e.id ≠ 0) (d : Dir) :
    shows ps (e.value P) d = e.face d := by
  rw [shows, (rotateAllParts_value he hid).2.2]

/-- Only the neighbours of a cell have a side that touches it. -/
theorem btInitConstraints_place_of_notMem {c' : Cell P} (h : c' ∉ c.neighbors) :
    btInitConstraints ps (g.place c v) allFace c' = btInitConstraints ps g allFace c' := by
  refine KeyPart.side_injective (funext fun d => ?_)
  have hn : c'.neighbor d ≠ some c := fun hn =>
    h (Cell.mem_neighbors.mpr ⟨_, Cell.neighbor_opposite hn⟩)
  rw [btInitConstraints, btInitConstraints, whatSearchInGridToKey_side, whatSearchInGridToKey_side,
    searchSide_place, if_neg hn]

end Sides

section Used

variable {P : Puzzle} {used : Words 64} {board board' : Packet P} {i : Nat}

theorem UsedOf.setBit (h : UsedOf used board) (hi : i < P.eternParts)
    (hb : board'.bFaceused = setFaceUsed board.bFaceused i true) : UsedOf (used.setBit i) board' := by
  intro j
  rw [Words.bit_setBit (by decide), h, hb, isFaceUsed_setFaceUsed]
  by_cases hj : i = j
  · subst hj
    simp [lt_facesUsedSize hi]
  · simp [hj]

theorem UsedOf.clearBit (h : UsedOf used board)
    (hb : board'.bFaceused = setFaceUsed board.bFaceused i false) : UsedOf (used.clearBit i) board' := by
  intro j
  rw [Words.bit_clearBit (by decide), h, hb, isFaceUsed_setFaceUsed]
  by_cases hj : i = j <;> simp [hj]

end Used

namespace BtState

variable {P : Puzzle} {ps : PieceSet P} {map : MapBigArray} {st : BtState P}

theorem synced_init (root : Packet P) : (init ps map root).Synced ps map where
  constraints := rfl
  used := usedOf_mrvUsedInit root
  frontier := BtFrontier.of_btFrontierInit root.grid
  cellMask := rfl
  placed := rfl

/-- The weights are not part of what the board determines. -/
theorem Synced.fail (h : st.Synced ps map) (c : Cell P) :
    ({ st with frontier := st.frontier.fail c } : BtState P).Synced ps map :=
  ⟨h.constraints, h.used, h.frontier.fail c, h.cellMask, h.placed⟩

/-- The refreshed masks after a write to one cell. -/
private theorem Synced.refresh (h : st.Synced ps map) (c : Cell P) (v : Int) :
    btMaskRefresh map st.cellMask (btInitConstraints ps (st.board.grid.place c v) map.sizearrayM) c =
      btMaskInit map (btInitConstraints ps (st.board.grid.place c v) map.sizearrayM) := by
  rw [h.cellMask, h.constraints]
  exact btMaskRefresh_eq fun c' hc' => btInitConstraints_place_of_notMem hc'

theorem Synced.place (h : st.Synced ps map) {c : Cell P} (hc : st.board.grid c = -2) {e : PuzzlePart}
    (he : e ∈ rotateAllPartsList ps) (hid : e.id ≠ 0) : (st.place map c e).Synced ps map := by
  obtain ⟨hv, hpiece, -⟩ := rotateAllParts_value he hid
  have hle := pieceId_le (P := P) (v := e.value P)
  have hkeys : btPropagatePlace st.constraints c e =
      btInitConstraints ps (st.board.grid.place c (e.value P)) map.sizearrayM := by
    rw [btPropagatePlace, h.constraints]
    refine btPropagate_btInitConstraints fun d => ?_
    have hnonneg := hv.nonneg
    rw [if_neg (by omega), shows_value he hid]
  refine ⟨hkeys, h.used.setBit (by omega) rfl, h.frontier.place hc hv.nonneg, ?_, ?_⟩
  · show btMaskRefresh map st.cellMask (btPropagatePlace st.constraints c e) c =
      btMaskInit map (btPropagatePlace st.constraints c e)
    rw [hkeys]
    exact h.refresh c (e.value P)
  · show st.placed + 1 = placedCount (st.board.grid.place c (e.value P))
    rw [placedCount_place hc hv.ne_empty, h.placed]

theorem undo_grid (map : MapBigArray) {g : Grid P} {c : Cell P} {v : Int} (hgrid : st.board.grid = g.place c v)
    (hc : g c = -2) (position : Nat) : (st.undo map c position).board.grid = g := by
  show st.board.grid.place c (-2) = g
  rw [hgrid, Grid.place_empty v hc]

theorem Synced.undo (h : st.Synced ps map) {g : Grid P} {c : Cell P} {v : Int}
    (hgrid : st.board.grid = g.place c v) (hc : g c = -2) (hv : IsPiece P v) (position : Nat) :
    (st.undo map c position).Synced ps map := by
  have hback := undo_grid map hgrid hc position
  have hkeys : btPropagateUndo st.constraints c map.sizearrayM =
      btInitConstraints ps (st.board.grid.place c (-2)) map.sizearrayM := by
    rw [btPropagateUndo, h.constraints]
    exact btPropagate_btInitConstraints fun d => by rw [if_pos (by omega)]
  refine ⟨hkeys, h.used.clearBit rfl, ?_, ?_, ?_⟩
  · rw [hback]
    exact (hgrid ▸ h.frontier : st.frontier.Of (g.place c v)).undo hc hv.nonneg
  · show btMaskRefresh map st.cellMask (btPropagateUndo st.constraints c map.sizearrayM) c =
      btMaskInit map (btPropagateUndo st.constraints c map.sizearrayM)
    rw [hkeys]
    exact h.refresh c (-2)
  · have hcount := h.placed
    rw [hgrid, placedCount_place hc hv.ne_empty] at hcount
    rw [hback]
    show st.placed - 1 = placedCount g
    omega

end BtState
