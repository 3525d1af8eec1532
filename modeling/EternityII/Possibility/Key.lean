-- SUMMARY: Search keys: the requirements on an empty cell, and its free candidates in the map.
import EternityII.Possibility.Packet
import EternityII.Puzzle.Map

/-!
# Search keys

`what_search_in_grid_to_key` reads the four requirements on a cell off its neighbours, and
the compartment of that key holds the candidates. The free candidates of an empty cell of a
well-formed packet are exactly the pieces that fit there, each of them once.
-/

/-- One side of `what_search_in_grid_to_key`: the border asks for colour 0, an empty
neighbour for anything, a placed one for its own colour on the shared edge. -/
def searchSide {P : Puzzle} (ps : PieceSet P) (g : Grid P) (allFace : Int) (c : Cell P) (d : Dir) : Int :=
  match c.neighbor d with
  | none => 0
  | some c' => if g c' < 0 then allFace else shows ps (g c') d.opposite

/-- `what_search_in_grid_to_key`. -/
def whatSearchInGridToKey {P : Puzzle} (ps : PieceSet P) (g : Grid P) (c : Cell P) (allFace : Int) :
    KeyPart := .ofSides (searchSide ps g allFace c)

/-- A candidate entry that is a piece and not in use. -/
def isFreeEntry (used : Nat → Bool) (p : PuzzlePart) : Bool := p.id ≠ 0 && !used (p.id - 1)

theorem isFreeEntry_iff {used : Nat → Bool} {p : PuzzlePart} :
    isFreeEntry used p = true ↔ p.id ≠ 0 ∧ used (p.id - 1) = false := by
  simp [isFreeEntry]

/-- The key of a cell with no constraint at all. -/
def KeyPart.isUnconstrained (key : KeyPart) (allFace : Int) : Bool :=
  Dir.all.all fun d => key.side d = allFace

theorem KeyPart.isUnconstrained_iff {key : KeyPart} {allFace : Int} :
    key.isUnconstrained allFace = true ↔ ∀ d, key.side d = allFace := by
  simp [isUnconstrained]

section Keys

variable {P : Puzzle} {ps : PieceSet P} {map : MapBigArray} {g : Grid P} {c c' : Cell P} {d : Dir}

theorem whatSearchInGridToKey_side (allFace : Int) :
    (whatSearchInGridToKey ps g c allFace).side d = searchSide ps g allFace c d := by
  rw [whatSearchInGridToKey, KeyPart.side_ofSides]

theorem searchSide_none {allFace : Int} (h : c.neighbor d = none) :
    searchSide ps g allFace c d = 0 := by
  simp [searchSide, h]

theorem searchSide_empty {allFace : Int} (h : c.neighbor d = some c') (he : g c' = -2) :
    searchSide ps g allFace c d = allFace := by
  simp [searchSide, h, he]

theorem searchSide_placed (hg : g.WellFormed ps) {allFace : Int} (h : c.neighbor d = some c')
    (he : g c' ≠ -2) : searchSide ps g allFace c d = shows ps (g c') d.opposite := by
  have hpos := ((hg.cell c').resolve_left he).nonneg
  simp only [searchSide, h]
  rw [if_neg (by omega)]

theorem shows_lt_joker (hmap : MapOf ps map) {v : Int} (hv : IsPiece P v) :
    shows ps v d < map.sizearrayM :=
  hmap.face_lt_joker _ (rotateAllParts_mem ps hv).1 d

/-- A side of a key is the joker exactly towards an empty neighbour. -/
theorem searchSide_eq_joker (hg : g.WellFormed ps) (hmap : MapOf ps map) :
    searchSide ps g map.sizearrayM c d = map.sizearrayM ↔ ∃ c', c.neighbor d = some c' ∧ g c' = -2 := by
  have hjoker := hmap.joker_pos
  cases hn : c.neighbor d with
  | none =>
    rw [searchSide_none hn]
    simp only [reduceCtorEq, false_and, exists_false, iff_false]
    omega
  | some c' =>
    by_cases he : g c' = -2
    · simp [searchSide_empty hn he, he]
    · have hlt := shows_lt_joker hmap ((hg.cell c').resolve_left he) (d := d.opposite)
      rw [searchSide_placed hg hn he]
      simp only [Option.some.injEq, exists_eq_left', he, iff_false]
      omega

theorem searchSide_inRange (hg : g.WellFormed ps) (hmap : MapOf ps map) :
    0 ≤ searchSide ps g map.sizearrayM c d ∧
      searchSide ps g map.sizearrayM c d < map.sizearrayM + 1 := by
  have hjoker := hmap.joker_pos
  cases hn : c.neighbor d with
  | none =>
    rw [searchSide_none hn]
    omega
  | some c' =>
    by_cases he : g c' = -2
    · rw [searchSide_empty hn he]
      omega
    · have hv := (hg.cell c').resolve_left he
      have hlt := shows_lt_joker hmap hv (d := d.opposite)
      have hpos := shows_nonneg ps hv d.opposite
      rw [searchSide_placed hg hn he]
      omega

theorem whatSearchInGridToKey_inRange (hg : g.WellFormed ps) (hmap : MapOf ps map) :
    (whatSearchInGridToKey ps g c map.sizearrayM).InRange (map.sizearrayM + 1) := fun d => by
  rw [whatSearchInGridToKey_side]
  exact searchSide_inRange hg hmap

/-- The key asks of each side what the cell does. -/
theorem keyAccepts_searchSide (hg : g.WellFormed ps) (hmap : MapOf ps map) {v : Int} :
    keyAccepts map.sizearrayM (searchSide ps g map.sizearrayM c d) (shows ps v d) ↔
      Grid.SideFits ps g c v d := by
  have hjoker := hmap.joker_pos
  rw [keyAccepts]
  cases hn : c.neighbor d with
  | none => rw [searchSide_none hn, if_neg (by omega), Grid.sideFits_none hn]
  | some c' =>
    by_cases he : g c' = -2
    · rw [searchSide_empty hn he, if_pos rfl, Grid.sideFits_empty hn he]
    · have hlt := shows_lt_joker hmap ((hg.cell c').resolve_left he) (d := d.opposite)
      rw [searchSide_placed hg hn he, if_neg (by omega), Grid.sideFits_placed hn he]

end Keys

/-! ## Free candidates -/

section Candidates

variable {P : Puzzle} {ps : PieceSet P} {map : MapBigArray} {g : Grid P} {c : Cell P}
  {used : Nat → Bool}

/-- Every index of the rotation table is the grid value of its entry. -/
theorem rotateAllPartsList_value (ps : PieceSet P) :
    (rotateAllPartsList ps).map (PuzzlePart.value P) =
      (List.range (rotateAllPartsSize P)).map fun n : Nat => (n : Int) := by
  rw [rotateAllPartsList, List.map_map]
  refine List.map_congr_left fun n hn => ?_
  rw [List.mem_range, rotateAllPartsSize] at hn
  rcases Nat.eq_zero_or_pos n with rfl | hpos
  · simp [PuzzlePart.value, idParts, idForRotatedPart, PuzzlePart.plug]
  · have hv : IsPiece P n := isPiece_iff.mpr (by omega)
    have h := (rotateAllParts_mem ps hv).2.2
    rwa [Int.toNat_natCast] at h

/-- No entry of a compartment occurs twice. -/
theorem nodup_bucket_value (hmap : MapOf ps map) {key : KeyPart}
    (hkey : key.InRange (map.sizearrayM + 1)) :
    ((map.getPartsBigarrayWithKey key).map (PuzzlePart.value P)).Nodup := by
  have hlist : ((rotateAllPartsList ps).map (PuzzlePart.value P)).Nodup := by
    rw [rotateAllPartsList_value]
    exact List.nodup_range.map fun i j h => by simpa using h
  refine ((hmap.bucket_perm key hkey).map _).nodup_iff.mpr ?_
  exact List.Nodup.sublist (List.filter_sublist.map _) hlist

/-- The entries of a compartment that are pieces still free. -/
def freeEntries (map : MapBigArray) (used : Nat → Bool) (key : KeyPart) : List PuzzlePart :=
  (map.getPartsBigarrayWithKey key).filter (isFreeEntry used)

/-- The value placed for an entry of a compartment is a rotation of the piece of the entry. -/
theorem pieceId_of_mem_bucket (hg : g.WellFormed ps) (hmap : MapOf ps map) {p : PuzzlePart}
    (hp : p ∈ map.getPartsBigarrayWithKey (whatSearchInGridToKey ps g c map.sizearrayM)) (hne : p.id ≠ 0) :
    pieceId P (p.value P) = p.id := by
  rw [(hmap.bucket_perm _ (whatSearchInGridToKey_inRange hg hmap)).mem_iff, KeyPart.mem_matching] at hp
  exact (rotateAllParts_value hp.1 hne).2.1

/-- The pieces of the compartment of a cell are those that its sides admit. -/
theorem mem_bucket (hg : g.WellFormed ps) (hmap : MapOf ps map) {v : Int} :
    (∃ p ∈ map.getPartsBigarrayWithKey (whatSearchInGridToKey ps g c map.sizearrayM),
      p.id ≠ 0 ∧ p.value P = v) ↔ IsPiece P v ∧ ∀ d, Grid.SideFits ps g c v d := by
  have hkey := whatSearchInGridToKey_inRange (c := c) hg hmap
  constructor
  · rintro ⟨p, hp, hne, rfl⟩
    rw [(hmap.bucket_perm _ hkey).mem_iff, KeyPart.mem_matching] at hp
    obtain ⟨hmem, haccepts⟩ := hp
    obtain ⟨hv, -, hrot⟩ := rotateAllParts_value hmem hne
    refine ⟨hv, fun d => ?_⟩
    have h := haccepts d
    rw [whatSearchInGridToKey_side, ← hrot] at h
    exact (keyAccepts_searchSide hg hmap).mp h
  · rintro ⟨hv, hside⟩
    obtain ⟨hmem, hid, hvalue⟩ := rotateAllParts_mem ps hv
    have hpos := pieceId_pos (P := P) (v := v)
    refine ⟨rotateAllParts ps v.toNat, ?_, by omega, hvalue⟩
    rw [(hmap.bucket_perm _ hkey).mem_iff, KeyPart.mem_matching]
    refine ⟨hmem, fun d => ?_⟩
    rw [whatSearchInGridToKey_side]
    exact (keyAccepts_searchSide hg hmap).mpr (hside d)

/-- The free candidates of an empty cell are the pieces that fit there. -/
theorem mem_freeEntries (hg : g.WellFormed ps) (hmask : MaskOf g used) (hmap : MapOf ps map) {v : Int} :
    v ∈ (freeEntries map used (whatSearchInGridToKey ps g c map.sizearrayM)).map (PuzzlePart.value P) ↔
      Grid.Fits ps g c v := by
  rw [List.mem_map]
  constructor
  · rintro ⟨p, hp, rfl⟩
    rw [freeEntries, List.mem_filter, isFreeEntry_iff] at hp
    obtain ⟨hp, hne, hfree⟩ := hp
    obtain ⟨hv, hside⟩ := (mem_bucket hg hmap).mp ⟨p, hp, hne, rfl⟩
    refine ⟨hv, hmask.eq_false_iff.mp ?_, hside⟩
    rwa [pieceId_of_mem_bucket hg hmap hp hne]
  · intro hfits
    obtain ⟨p, hp, hne, rfl⟩ := (mem_bucket hg hmap).mpr ⟨hfits.piece, hfits.side⟩
    refine ⟨p, ?_, rfl⟩
    have hfree := hmask.eq_false_iff.mpr hfits.free
    rw [pieceId_of_mem_bucket hg hmap hp hne] at hfree
    exact List.mem_filter.mpr ⟨hp, isFreeEntry_iff.mpr ⟨hne, hfree⟩⟩

theorem nodup_freeEntries (hg : g.WellFormed ps) (hmap : MapOf ps map) :
    ((freeEntries map used (whatSearchInGridToKey ps g c map.sizearrayM)).map (PuzzlePart.value P)).Nodup :=
  (nodup_bucket_value hmap (whatSearchInGridToKey_inRange hg hmap)).sublist
    (List.filter_sublist.map _)

end Candidates

/-! ## Dead cells -/

section DeadCell

variable {P : Puzzle} (ps : PieceSet P) (map : MapBigArray)

/-- The key of a cell of a packet, with the map's joker for empty neighbours. -/
def packetKey (possiblity : Packet P) (c : Cell P) : KeyPart :=
  whatSearchInGridToKey ps possiblity.grid c map.sizearrayM

/-- The free candidates of a cell of a packet. -/
def packetFree (q : Packet P) (c : Cell P) : List PuzzlePart :=
  freeEntries map (isFaceUsed q.bFaceused) (packetKey ps map q c)

/-- An empty constrained cell. -/
def Packet.constrainedEmpty (q : Packet P) (c : Cell P) : Bool :=
  q.grid c = -2 && !(packetKey ps map q c).isUnconstrained map.sizearrayM

/-- Some empty constrained cell of the packet has no free candidate. -/
def Packet.hasDeadCell (q : Packet P) : Bool :=
  (Cell.all P).any fun c => q.constrainedEmpty ps map c && (packetFree ps map q c).isEmpty

variable {ps map}

theorem Packet.hasDeadCell_iff {q : Packet P} :
    q.hasDeadCell ps map = true ↔
      ∃ c, q.constrainedEmpty ps map c = true ∧ packetFree ps map q c = [] := by
  simp [hasDeadCell]

section WellFormed

variable {q : Packet P} {c : Cell P} (hq : q.WellFormed ps) (hmap : MapOf ps map)
include hq hmap

theorem mem_packetFree {v : Int} :
    v ∈ (packetFree ps map q c).map (PuzzlePart.value P) ↔ Grid.Fits ps q.grid c v :=
  mem_freeEntries hq.grid hq.mask hmap

theorem nodup_packetFree : ((packetFree ps map q c).map (PuzzlePart.value P)).Nodup :=
  nodup_freeEntries hq.grid hmap

theorem packetFree_eq_nil : packetFree ps map q c = [] ↔ ∀ v, ¬ Grid.Fits ps q.grid c v := by
  rw [← List.map_eq_nil_iff, List.eq_nil_iff_forall_not_mem]
  exact forall_congr' fun v => not_congr (mem_packetFree hq hmap)

/-- Entries of a compartment: the identifier of the value placed is that of the entry. -/
theorem pieceId_of_mem_packetFree {e : PuzzlePart} (he : e ∈ packetFree ps map q c) :
    pieceId P (e.value P) = e.id := by
  rw [packetFree, freeEntries, List.mem_filter, isFreeEntry_iff] at he
  exact pieceId_of_mem_bucket hq.grid hmap he.1 he.2.1

/-- A cell is unconstrained exactly when all its neighbours exist and are empty. -/
theorem isUnconstrained_packetKey :
    (packetKey ps map q c).isUnconstrained map.sizearrayM = true ↔
      ∀ d, ∃ c', c.neighbor d = some c' ∧ q.grid c' = -2 := by
  rw [KeyPart.isUnconstrained_iff]
  refine forall_congr' fun d => ?_
  rw [packetKey, whatSearchInGridToKey_side]
  exact searchSide_eq_joker hq.grid hmap

/-- A packet with a dead cell has no completion. -/
theorem completions_of_hasDeadCell (h : q.hasDeadCell ps map = true) : q.completions ps = ∅ := by
  obtain ⟨c, hc, hfree⟩ := Packet.hasDeadCell_iff.mp h
  rw [Packet.constrainedEmpty, Bool.and_eq_true, decide_eq_true_iff] at hc
  exact Grid.completions_eq_empty hc.1 ((packetFree_eq_nil hq hmap).mp hfree)

end WellFormed

end DeadCell

/-! ## One child -/

/-- `child` is `q` with the entry `e` placed in `c`. -/
structure IsChild {P : Puzzle} (q : Packet P) (c : Cell P) (e : PuzzlePart) (child : Packet P) : Prop where
  grid : child.grid = q.grid.place c (e.value P)
  mask : ∀ j, isFaceUsed child.bFaceused j = if e.id - 1 = j then true else isFaceUsed q.bFaceused j

section Child

variable {P : Puzzle} {ps : PieceSet P} {map : MapBigArray} {q child : Packet P} {c : Cell P}
  {e : PuzzlePart} (hq : q.WellFormed ps) (hmap : MapOf ps map) (hc : q.grid c = -2)
  (he : e ∈ packetFree ps map q c) (h : IsChild q c e child)
include hq hmap he

theorem fits_of_mem_packetFree : Grid.Fits ps q.grid c (e.value P) :=
  (mem_packetFree hq hmap).mp (List.mem_map_of_mem he)

include hc h

theorem IsChild.wellFormed : child.WellFormed ps where
  grid := by
    rw [h.grid]
    exact hq.grid.place hc (fits_of_mem_packetFree hq hmap he)
  mask := by
    rw [h.grid]
    refine hq.mask.place hc (fits_of_mem_packetFree hq hmap he).piece.ne_empty fun j => ?_
    rw [h.mask, pieceId_of_mem_packetFree hq hmap he]

theorem IsChild.completions : child.completions ps = {b ∈ q.completions ps | b c = child.grid c} := by
  rw [Packet.completions, h.grid, Grid.place_self]
  exact Grid.completions_place hq.grid hc (fits_of_mem_packetFree hq hmap he)

theorem IsChild.placedCount : placedCount child.grid = placedCount q.grid + 1 := by
  rw [h.grid]
  exact placedCount_place hc (fits_of_mem_packetFree hq hmap he).piece.ne_empty

end Child
