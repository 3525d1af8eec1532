-- SUMMARY: Pieces and their rotations, piece sets, and the candidate lists of `search_face`.
import EternityII.Base.Memory
import EternityII.Puzzle.Geometry
import Mathlib.Data.List.DropRight
import Mathlib.Tactic.Ring

/-!
# Pieces

`part.c` keeps a piece as its identifier, its four edge colours and the number of
quarter turns made so far. A piece set gives the pieces `1 .. ETERN_PARTS`; the value
`id + ETERN_PARTS * r` of a grid cell names piece `id` after `r` quarter turns.
-/

/-- `struct part`. -/
structure PuzzlePart where
  id : Nat
  top : Int
  right : Int
  bottom : Int
  left : Int
  rotation : Nat
  deriving DecidableEq, Repr

namespace PuzzlePart

/-- The colour of one edge. -/
def face (p : PuzzlePart) : Dir → Int
  | .top => p.top
  | .right => p.right
  | .bottom => p.bottom
  | .left => p.left

/-- The entry `calloc` leaves at index 0: no piece, every edge on the border colour. -/
def plug : PuzzlePart := ⟨0, 0, 0, 0, 0, 0⟩

@[simp] theorem plug_face (d : Dir) : plug.face d = 0 := by cases d <;> rfl

/-- One quarter turn: top goes right, right goes to the bottom, bottom goes left. -/
def turn (p : PuzzlePart) : PuzzlePart :=
  { p with left := p.bottom, bottom := p.right, right := p.top, top := p.left }

end PuzzlePart

/-- `rotatePart`. -/
def rotatePart (p : PuzzlePart) (nbRotate : Nat) : PuzzlePart :=
  let tour := if nbRotate ≥ 4 then nbRotate % 4 else nbRotate
  PuzzlePart.turn^[tour] { p with rotation := tour }

private theorem turn_iterate_id (n : Nat) (p : PuzzlePart) : (PuzzlePart.turn^[n] p).id = p.id := by
  induction n generalizing p with
  | zero => rfl
  | succ n ih => rw [Function.iterate_succ_apply, ih]; rfl

private theorem turn_iterate_rotation (n : Nat) (p : PuzzlePart) :
    (PuzzlePart.turn^[n] p).rotation = p.rotation := by
  induction n generalizing p with
  | zero => rfl
  | succ n ih => rw [Function.iterate_succ_apply, ih]; rfl

@[simp] theorem rotatePart_id (p : PuzzlePart) (n : Nat) : (rotatePart p n).id = p.id :=
  turn_iterate_id _ _

theorem rotatePart_rotation (p : PuzzlePart) {n : Nat} (h : n < 4) : (rotatePart p n).rotation = n := by
  rw [rotatePart, turn_iterate_rotation]
  exact if_neg (by omega)

/-- A property of all four edges survives the quarter turns. -/
theorem rotatePart_face {p : PuzzlePart} {n : Nat} {q : Int → Prop} (h : ∀ d, q (p.face d)) (d : Dir) :
    q ((rotatePart p n).face d) := by
  have hturn : ∀ (k : Nat) (p : PuzzlePart), (∀ d, q (p.face d)) → ∀ d, q ((PuzzlePart.turn^[k] p).face d) := by
    intro k
    induction k with
    | zero => exact fun p h => h
    | succ k ih =>
      intro p h
      rw [Function.iterate_succ_apply]
      refine ih _ fun d => ?_
      cases d
      · exact h .left
      · exact h .top
      · exact h .right
      · exact h .bottom
  exact hturn _ _ (fun d => by cases d <;> [exact h .top; exact h .right; exact h .bottom; exact h .left]) d

/-! ## Piece sets -/

/-- A full piece set: one piece for every identifier, with edge colours that leave room
in a signed byte for the joker colour `maxFace + 1`. -/
structure PieceSet (P : Puzzle) where
  part : Nat → PuzzlePart
  part_id : ∀ i, 1 ≤ i → i ≤ P.eternParts → (part i).id = i
  face_nonneg : ∀ i d, 1 ≤ i → i ≤ P.eternParts → 0 ≤ (part i).face d
  face_le : ∀ i d, 1 ≤ i → i ≤ P.eternParts → (part i).face d ≤ 126

/-- `id_for_rotated_part`. -/
def idForRotatedPart (P : Puzzle) (id rotation : Nat) : Nat := id + P.eternParts * rotation

/-- `idParts[id][rotation]`, the table form of `id_for_rotated_part`. -/
def idParts (P : Puzzle) (id rotation : Nat) : Int := idForRotatedPart P id rotation

section RotateAllParts

variable {P : Puzzle} (ps : PieceSet P)

/-- `rotate_all_parts`: piece `i` after `r` quarter turns is stored at
`i + ETERN_PARTS * r`, and index 0 keeps the plug. -/
def rotateAllParts : Nat → PuzzlePart :=
  Memory.writeAll (fun _ => PuzzlePart.plug)
    ((List.range' 1 P.eternParts ×ˢ List.range 4).map fun t =>
      (idForRotatedPart P t.1 t.2, rotatePart (ps.part t.1) t.2))

/-- `result->size` of `rotate_all_parts`. -/
def rotateAllPartsSize (P : Puzzle) : Nat := P.eternParts * 4 + 1

/-- The entries of `all_rotate_parts` in index order. -/
def rotateAllPartsList : List PuzzlePart := (List.range (rotateAllPartsSize P)).map (rotateAllParts ps)

theorem idForRotatedPart_inj {P : Puzzle} {i i' r r' : Nat} (hi : 1 ≤ i) (hi' : i ≤ P.eternParts)
    (hj : 1 ≤ i') (hj' : i' ≤ P.eternParts)
    (h : idForRotatedPart P i r = idForRotatedPart P i' r') : i = i' ∧ r = r' := by
  obtain ⟨j, rfl⟩ : ∃ j, i = j + 1 := ⟨i - 1, by omega⟩
  obtain ⟨j', rfl⟩ : ∃ j, i' = j + 1 := ⟨i' - 1, by omega⟩
  simp only [idForRotatedPart] at h
  have h : j + P.eternParts * r = j' + P.eternParts * r' := by omega
  have hj₁ : j < P.eternParts := by omega
  have hj₂ : j' < P.eternParts := by omega
  have hmod := congrArg (· % P.eternParts) h
  have hdiv := congrArg (· / P.eternParts) h
  simp only [Nat.add_mul_mod_self_left, Nat.add_mul_div_left _ _ P.eternParts_pos,
    Nat.mod_eq_of_lt hj₁, Nat.mod_eq_of_lt hj₂, Nat.div_eq_of_lt hj₁, Nat.div_eq_of_lt hj₂,
    Nat.zero_add] at hmod hdiv
  exact ⟨by omega, hdiv⟩

private theorem nodup_turns (P : Puzzle) :
    ((List.range' 1 P.eternParts ×ˢ List.range 4).map fun t =>
      idForRotatedPart P t.1 t.2).Nodup := by
  refine List.Nodup.map_on ?_ ((List.nodup_range').product List.nodup_range)
  rintro ⟨i, r⟩ h ⟨i', r'⟩ h' heq
  rw [List.mem_product, List.mem_range'_1] at h h'
  obtain ⟨rfl, rfl⟩ := idForRotatedPart_inj (by omega) (by omega) (by omega) (by omega) heq
  rfl

@[simp] theorem rotateAllParts_zero : rotateAllParts ps 0 = PuzzlePart.plug := by
  refine Memory.writeAll_of_notMem fun h => ?_
  simp only [List.map_map, List.mem_map, List.mem_product, List.mem_range'_1, Function.comp_apply,
    idForRotatedPart, Prod.exists] at h
  omega

theorem rotateAllParts_apply {i r : Nat} (hi : 1 ≤ i) (hi' : i ≤ P.eternParts) (hr : r < 4) :
    rotateAllParts ps (idForRotatedPart P i r) = rotatePart (ps.part i) r := by
  have hmem : (i, r) ∈ List.range' 1 P.eternParts ×ˢ List.range 4 := by
    rw [List.mem_product, List.mem_range'_1, List.mem_range]
    exact ⟨⟨hi, by omega⟩, hr⟩
  exact Memory.writeAll_map (nodup_turns P) hmem

end RotateAllParts

/-! ## Values of grid cells -/

/-- A value `id + ETERN_PARTS * r` of a grid cell that names a rotated piece. -/
def IsPiece (P : Puzzle) (v : Int) : Prop :=
  ∃ id r : Nat, 1 ≤ id ∧ id ≤ P.eternParts ∧ r ≤ 3 ∧ v = idForRotatedPart P id r

/-- The identifier behind a grid value. -/
def pieceId (P : Puzzle) (v : Int) : Nat := (v.toNat - 1) % P.eternParts + 1

/-- The colour a grid value shows on one edge: `all_rotate_parts->parts[v]`. -/
def shows {P : Puzzle} (ps : PieceSet P) (v : Int) (d : Dir) : Int :=
  (rotateAllParts ps v.toNat).face d

/-- The grid value that a candidate entry of the map is placed as. -/
def PuzzlePart.value (P : Puzzle) (p : PuzzlePart) : Int := idParts P p.id p.rotation

section Values

variable {P : Puzzle} {v : Int}

theorem pieceId_pos : 1 ≤ pieceId P v := Nat.succ_pos _

theorem pieceId_le : pieceId P v ≤ P.eternParts := Nat.mod_lt _ P.eternParts_pos

theorem pieceId_idForRotatedPart {i r : Nat} (hi : 1 ≤ i) (hi' : i ≤ P.eternParts) :
    pieceId P (idForRotatedPart P i r) = i := by
  have h : i - 1 < P.eternParts := by omega
  have hsub : (idForRotatedPart P i r : Int).toNat - 1 = (i - 1) + P.eternParts * r := by
    simp only [idForRotatedPart, Int.toNat_natCast]
    omega
  rw [pieceId, hsub, Nat.add_mul_mod_self_left, Nat.mod_eq_of_lt h]
  omega

theorem isPiece_iff : IsPiece P v ↔ 1 ≤ v ∧ v ≤ 4 * P.eternParts := by
  constructor
  · rintro ⟨i, r, hi, hi', hr, rfl⟩
    have : P.eternParts * r ≤ P.eternParts * 3 := Nat.mul_le_mul_left _ hr
    simp only [idForRotatedPart]
    omega
  · rintro ⟨h₁, h₄⟩
    obtain ⟨n, rfl⟩ : ∃ n : Nat, v = n + 1 := ⟨(v - 1).toNat, by omega⟩
    have hmod := Nat.mod_add_div n P.eternParts
    have hlt := Nat.mod_lt n P.eternParts_pos
    have hdiv : n / P.eternParts < 4 := Nat.div_lt_of_lt_mul (by omega)
    refine ⟨n % P.eternParts + 1, n / P.eternParts, by omega, by omega, by omega, ?_⟩
    simp only [idForRotatedPart]
    omega

instance : Decidable (IsPiece P v) := decidable_of_iff _ isPiece_iff.symm

theorem IsPiece.nonneg (h : IsPiece P v) : 0 ≤ v := by
  have := isPiece_iff.mp h
  omega

theorem IsPiece.ne_empty (h : IsPiece P v) : v ≠ -2 := by
  have := h.nonneg
  omega

theorem shows_nonneg (ps : PieceSet P) (h : IsPiece P v) (d : Dir) : 0 ≤ shows ps v d := by
  obtain ⟨i, r, hi, hi', hr, rfl⟩ := h
  rw [shows, Int.toNat_natCast, rotateAllParts_apply ps hi hi' (by omega)]
  exact rotatePart_face (fun d => ps.face_nonneg i d hi hi') d

/-- Entries of the rotation table other than the plug are the values of pieces. -/
theorem rotateAllParts_value {ps : PieceSet P} {p : PuzzlePart} (h : p ∈ rotateAllPartsList ps)
    (hid : p.id ≠ 0) :
    IsPiece P (p.value P) ∧ pieceId P (p.value P) = p.id ∧
      rotateAllParts ps (p.value P).toNat = p := by
  obtain ⟨n, hn, rfl⟩ := List.mem_map.mp h
  have hpos : n ≠ 0 := by
    rintro rfl
    exact hid (by rw [rotateAllParts_zero]; rfl)
  rw [List.mem_range, rotateAllPartsSize] at hn
  have hpiece : IsPiece P n := isPiece_iff.mpr ⟨by omega, by omega⟩
  obtain ⟨i, r, hi, hi', hr, hv⟩ := hpiece
  obtain rfl : n = idForRotatedPart P i r := by exact_mod_cast hv
  have hp := rotateAllParts_apply ps hi hi' (show r < 4 by omega)
  have hvalue : (rotateAllParts ps (idForRotatedPart P i r)).value P = idForRotatedPart P i r := by
    rw [hp, PuzzlePart.value, rotatePart_id, rotatePart_rotation _ (by omega), ps.part_id i hi hi']
    rfl
  rw [hvalue]
  refine ⟨⟨i, r, hi, hi', hr, rfl⟩, ?_, by rw [Int.toNat_natCast]⟩
  rw [pieceId_idForRotatedPart hi hi', hp, rotatePart_id, ps.part_id i hi hi']

/-- The rotation table has an entry for every piece value. -/
theorem rotateAllParts_mem (ps : PieceSet P) (h : IsPiece P v) :
    rotateAllParts ps v.toNat ∈ rotateAllPartsList ps ∧
      (rotateAllParts ps v.toNat).id = pieceId P v ∧
      (rotateAllParts ps v.toNat).value P = v := by
  have hv := isPiece_iff.mp h
  obtain ⟨i, r, hi, hi', hr, rfl⟩ := h
  refine ⟨List.mem_map_of_mem (List.mem_range.mpr ?_), ?_, ?_⟩
  · rw [rotateAllPartsSize]
    omega
  · rw [Int.toNat_natCast, rotateAllParts_apply ps hi hi' (by omega), rotatePart_id,
      ps.part_id i hi hi', pieceId_idForRotatedPart hi hi']
  · rw [Int.toNat_natCast, rotateAllParts_apply ps hi hi' (by omega), PuzzlePart.value, rotatePart_id,
      rotatePart_rotation _ (by omega), ps.part_id i hi hi']
    rfl

end Values

/-! ## Candidate lists -/

/-- `search_max_face`. -/
def searchMaxFace (apart : List PuzzlePart) : Int :=
  apart.foldl (fun maxface p => Dir.all.foldl (fun m d => if p.face d > m then p.face d else m) maxface) 0

/-- `search_face`: the pieces that show `face` at `position`, or at any edge for
`PART_NONE`. `FACE_UNKNOW = -1` asks for any colour but the border's. -/
def searchFace (apart : List PuzzlePart) (face : Int) (position : Option Dir) : List PuzzlePart :=
  apart.filter fun p => Dir.all.any fun d =>
    (position = some d || position = none) && (p.face d = face || (face = -1 && p.face d ≠ 0))

theorem mem_of_mem_searchFace {apart : List PuzzlePart} {face : Int} {position : Option Dir} {p : PuzzlePart}
    (h : p ∈ searchFace apart face position) : p ∈ apart := (List.mem_filter.mp h).1

/-- What one side of a compartment asks of an edge colour. -/
def sideAccepts (side face : Int) : Prop := if side = -1 then face ≠ 0 else face = side

instance {side face : Int} : Decidable (sideAccepts side face) := by
  unfold sideAccepts; infer_instance

theorem searchFace_eq {apart : List PuzzlePart} {face : Int} {d : Dir}
    (hp : ∀ p ∈ apart, 0 ≤ p.face d) :
    searchFace apart face (some d) = apart.filter fun p => sideAccepts face (p.face d) := by
  refine List.filter_congr fun p hmem => ?_
  have hnonneg := hp p hmem
  have hany : (Dir.all.any fun d' => (some d = some d' || some d = none) &&
      (p.face d' = face || (face = -1 && p.face d' ≠ 0))) = true ↔
      (p.face d = face ∨ (face = -1 ∧ p.face d ≠ 0)) := by
    simp
  rw [Bool.eq_iff_iff, hany, decide_eq_true_iff, sideAccepts]
  by_cases h : face = -1
  · subst h
    simp only [true_and, if_true]
    omega
  · simp [h]

/-- `compute_face_frequency`: how often each colour occurs over all edges. -/
def computeFaceFrequency (apart : List PuzzlePart) (maxFace : Int) (colour : Int) : Nat :=
  if 0 ≤ colour ∧ colour ≤ maxFace then
    (apart.map fun p => (Dir.all.filter fun d => p.face d = colour).length).sum
  else 0

/-- `arena_exposed_score`: the frequencies of the colours shown on the open sides. -/
def arenaExposedScore (p : PuzzlePart) (f : Dir → Int) (freq : Int → Nat) (maxFace : Int) : Nat :=
  (Dir.all.map fun d =>
    if f d = -1 ∧ 0 ≤ p.face d ∧ p.face d ≤ maxFace then freq (p.face d) else 0).sum

/-- One round of the insertion sort: entries with a higher score move up by one. -/
def insertByScore (score : PuzzlePart → Nat) (sorted : List PuzzlePart) (moving : PuzzlePart) : List PuzzlePart :=
  sorted.rdropWhile (fun p => score p > score moving) ++
    moving :: sorted.rtakeWhile (fun p => score p > score moving)

/-- `sort_compartment_by_exposed_rarity`; `scores` says whether its buffer could be allocated. -/
def sortCompartmentByExposedRarity (arraypart : List PuzzlePart) (f : Dir → Int)
    (freq : Option (Int → Nat)) (maxFace : Int) (scores : Bool) : List PuzzlePart :=
  match freq with
  | some freq =>
    if arraypart.length < 2 ∨ scores = false then arraypart
    else arraypart.foldl (insertByScore fun p => arenaExposedScore p f freq maxFace) []
  | none => arraypart

private theorem insertByScore_perm (score : PuzzlePart → Nat) (l : List PuzzlePart) (p : PuzzlePart) :
    (insertByScore score l p).Perm (p :: l) := by
  have h : l.rdropWhile (fun q => score q > score p) ++ l.rtakeWhile (fun q => score q > score p) = l :=
    List.rdropWhile_append_rtakeWhile
  rw [insertByScore]
  exact List.perm_middle.trans (by rw [h])

/-- Sorting a compartment keeps its pieces. -/
theorem sortCompartmentByExposedRarity_perm (l : List PuzzlePart) (f : Dir → Int)
    (freq : Option (Int → Nat)) (maxFace : Int) (scores : Bool) :
    (sortCompartmentByExposedRarity l f freq maxFace scores).Perm l := by
  have hfold : ∀ (score : PuzzlePart → Nat) (l acc : List PuzzlePart),
      (l.foldl (insertByScore score) acc).Perm (acc ++ l) := by
    intro score l
    induction l with
    | nil => intro acc; simp
    | cons p l ih =>
      intro acc
      rw [List.foldl_cons]
      refine (ih _).trans ?_
      exact ((insertByScore_perm score acc p).append_right l).trans List.perm_middle.symm
  unfold sortCompartmentByExposedRarity
  cases freq with
  | none => exact List.Perm.refl _
  | some freq =>
    by_cases h : l.length < 2 ∨ scores = false
    · simp only [h, if_true]
      exact List.Perm.refl _
    · simp only [h, if_false]
      exact hfold _ l []

/-- A round keeps the entries in the order of their scores. -/
theorem insertByScore_pairwise {score : PuzzlePart → Nat} {l : List PuzzlePart}
    (h : l.Pairwise fun q q' => score q ≤ score q') (p : PuzzlePart) :
    (insertByScore score l p).Pairwise fun q q' => score q ≤ score q' := by
  have hsplit : l.rdropWhile (fun q => score q > score p) ++ l.rtakeWhile (fun q => score q > score p) = l :=
    List.rdropWhile_append_rtakeWhile
  rw [← hsplit, List.pairwise_append] at h
  obtain ⟨hfront, hback, hacross⟩ := h
  have hmoved : ∀ q ∈ l.rtakeWhile (fun q => score q > score p), score p < score q := by
    intro q hq
    have htaken := List.mem_rtakeWhile_imp hq
    exact of_decide_eq_true htaken
  have hkept : ∀ q ∈ l.rdropWhile (fun q => score q > score p), score q ≤ score p := by
    intro q hq
    have hne := List.ne_nil_of_mem hq
    have hlast : score ((l.rdropWhile fun q => score q > score p).getLast hne) ≤ score p := by
      have hstop := List.rdropWhile_last_not (fun q => decide (score q > score p)) l hne
      exact Nat.not_lt.mp fun hlt => hstop (decide_eq_true hlt)
    rw [← List.dropLast_append_getLast hne, List.mem_append, List.mem_singleton] at hq
    rw [← List.dropLast_append_getLast hne, List.pairwise_append] at hfront
    rcases hq with hq | rfl
    · exact (hfront.2.2 q hq _ (List.mem_singleton_self _)).trans hlast
    · exact hlast
  rw [insertByScore, List.pairwise_append, List.pairwise_cons]
  refine ⟨hfront, ⟨fun q hq => (hmoved q hq).le, hback⟩, ?_⟩
  intro q hq q' hq'
  rcases List.mem_cons.mp hq' with rfl | hq'
  · exact hkept q hq
  · exact hacross q hq q' hq'

/-- With its buffers a compartment is sorted by the colours it exposes. -/
theorem sortCompartmentByExposedRarity_pairwise (l : List PuzzlePart) (f : Dir → Int) (freq : Int → Nat)
    (maxFace : Int) : (sortCompartmentByExposedRarity l f (some freq) maxFace true).Pairwise fun p q =>
      arenaExposedScore p f freq maxFace ≤ arenaExposedScore q f freq maxFace := by
  have hfold : ∀ (score : PuzzlePart → Nat) (l acc : List PuzzlePart),
      (acc.Pairwise fun q q' => score q ≤ score q') →
      (l.foldl (insertByScore score) acc).Pairwise fun q q' => score q ≤ score q' := by
    intro score l
    induction l with
    | nil => exact fun acc hacc => hacc
    | cons p l ih =>
      intro acc hacc
      exact ih _ (insertByScore_pairwise hacc p)
  unfold sortCompartmentByExposedRarity
  dsimp only
  split
  · rename_i hshort
    have hlength : l.length < 2 := hshort.resolve_right Bool.noConfusion
    cases l with
    | nil => exact List.Pairwise.nil
    | cons p l =>
      have hnil : l.length = 0 := Nat.lt_one_iff.mp (Nat.succ_lt_succ_iff.mp hlength)
      rw [List.length_eq_zero_iff.mp hnil]
      exact List.pairwise_singleton _ p
  · exact hfold _ l [] List.Pairwise.nil
