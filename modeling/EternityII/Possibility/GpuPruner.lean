-- SUMMARY: The GPU pruner: `prune_kernel` against `possibility_all_has_a_next_counted`.
import EternityII.Possibility.Forced

/-!
# The GPU pruner

`prune_kernel` is a second text of the check of `possibility_all_has_a_next_counted`: it reads a
resident copy of the map and walks over the empty cells of one packet. It walks once, where the
other text walks until nothing is forced any more, and leaves `min_candidats` alone.
-/

/-- `GpuMap`: what a thread reads of the copy of the map. -/
structure GpuMap where
  m : Int
  allFace : Int
  partDev : Nat → PuzzlePart
  arenaDev : List PuzzlePart
  flatOff : Nat → Nat
  flatSize : Nat → Nat

section Kernel

variable {P : Puzzle}

/-- `gpu_pruner_init`, when its CUDA calls succeed. -/
def gpuPrunerInit (ps : PieceSet P) (map : MapBigArray) : GpuMap where
  m := map.sizearray
  allFace := map.sizearrayM
  partDev := rotateAllParts ps
  arenaDev := map.arena.getD []
  flatOff idx := if (map.flat idx).length > 0 then arenaOffset map.flat idx else 0
  flatSize idx := (map.flat idx).length

/-- One side of `dev_what_search_in_grid_to_key`. -/
def devSearchSide (parts : Nat → PuzzlePart) (p : Packet P) (allFace : Int) (neighbor : Option (Cell P))
    (face : PuzzlePart → Int) : Int :=
  match neighbor with
  | none => 0
  | some c => if p.grid c < 0 then allFace else face (parts (p.grid c).toNat)

/-- `dev_what_search_in_grid_to_key`. -/
def devWhatSearchInGridToKey (parts : Nat → PuzzlePart) (p : Packet P) (c : Cell P) (allFace : Int) :
    KeyPart where
  k1 := devSearchSide parts p allFace (c.neighbor .top) PuzzlePart.bottom
  k2 := devSearchSide parts p allFace (c.neighbor .right) PuzzlePart.left
  k3 := devSearchSide parts p allFace (c.neighbor .bottom) PuzzlePart.top
  k4 := devSearchSide parts p allFace (c.neighbor .left) PuzzlePart.right

/-- The loop over the entries `s`, `s + 1`, .. of a compartment, `n` of them left: it stops at the
first free one. `dev_is_face_used` and `dev_set_face_used` are `is_face_used` and `set_face_used`. -/
def kernelCandidates (map : GpuMap) (p : Packet P) (c : Cell P) (off size : Nat) :
    Nat → Nat → Option (Packet P × Bool)
  | 0, _ => none
  | n + 1, s =>
    let cand := map.arenaDev.getD (off + s) .plug
    if cand.id ≠ 0 && !isFaceUsed p.bFaceused (cand.id - 1) then
      if size = 1 then some (p.force c cand, true) else some (p, false)
    else kernelCandidates map p c off size n (s + 1)

/-- The loop of `prune_kernel` over the cells of the path. -/
def kernelLoop (map : GpuMap) : List (Cell P) → Packet P → Bool → Nat → ScanResult P
  | [], p, anyForced, cells => ⟨true, p, anyForced, cells⟩
  | c :: path, p, anyForced, cells =>
    if p.grid c ≠ -2 then kernelLoop map path p anyForced cells
    else
      let wsearch := devWhatSearchInGridToKey map.partDev p c map.allFace
      if wsearch.k1 < map.allFace ∨ wsearch.k2 < map.allFace ∨ wsearch.k3 < map.allFace ∨ wsearch.k4 < map.allFace then
        let idx := flatIndex map.m wsearch
        match kernelCandidates map p c (map.flatOff idx) (map.flatSize idx) (map.flatSize idx) 0 with
        | none => ⟨false, p, anyForced, cells + 1⟩
        | some (p, placed) => kernelLoop map path p (anyForced || placed) (cells + 1)
      else kernelLoop map path p anyForced (cells + 1)

/-- One thread of `prune_kernel`: `alive[i]`, the packet, `any_forced` and `cells[i]`. -/
def pruneKernel (map : GpuMap) (p : Packet P) : ScanResult P :=
  if p.checked ≠ 0 then ⟨true, p, false, 0⟩
  else
    let scan := kernelLoop map (Cell.path P) p false 0
    let packet :=
      if scan.forced then { scan.packet with alloc := UInt16.ofNat (placedCount scan.packet.grid) }
      else scan.packet
    { scan with packet := if scan.result then { packet with checked := 1 } else packet }

end Kernel

/-! ## Walks -/

namespace Grid

variable {P : Puzzle}

/-- A piece that the sides of a cell admit, on the grid or not. -/
def SidesFit (ps : PieceSet P) (g : Grid P) (c : Cell P) (v : Int) : Prop :=
  IsPiece P v ∧ ∀ d, SideFits ps g c v d

/-- An empty cell on the border of the board or of the filled part. -/
def Constrained (g : Grid P) (c : Cell P) : Prop :=
  g c = -2 ∧ ¬ ∀ d, ∃ c', c.neighbor d = some c' ∧ g c' = -2

/-- One walk over cells that ends: each constrained cell has a free piece that fits, and the piece is
placed when the sides admit no other. -/
inductive Walk (ps : PieceSet P) : List (Cell P) → Grid P → Grid P → Prop where
  | nil (g : Grid P) : Walk ps [] g g
  | pass {c : Cell P} {cells : List (Cell P)} {g g' : Grid P} :
      ¬ g.Constrained c → Walk ps cells g g' → Walk ps (c :: cells) g g'
  | choice {c : Cell P} {cells : List (Cell P)} {g g' : Grid P} {v w : Int} :
      g.Constrained c → Fits ps g c v → SidesFit ps g c w → w ≠ v → Walk ps cells g g' →
      Walk ps (c :: cells) g g'
  | forced {c : Cell P} {cells : List (Cell P)} {g g' : Grid P} {v : Int} :
      g.Constrained c → Fits ps g c v → (∀ w, SidesFit ps g c w → w = v) →
      Walk ps cells (g.place c v) g' → Walk ps (c :: cells) g g'

variable {ps : PieceSet P} {g : Grid P} {c : Cell P} {v : Int}

/-- A walk over cells that are not constrained. -/
theorem Walk.of_forall_not_constrained {cells : List (Cell P)} (h : ∀ c ∈ cells, ¬ g.Constrained c) :
    Walk ps cells g g := by
  induction cells with
  | nil => exact .nil g
  | cons c cells ih =>
    exact .pass (h c List.mem_cons_self) (ih fun c' hc' => h c' (List.mem_cons_of_mem c hc'))

/-- A walk over cells and then over more of them. -/
theorem Walk.append {cells cells' : List (Cell P)} {g g' g'' : Grid P} (h : Walk ps cells g g')
    (h' : Walk ps cells' g' g'') : Walk ps (cells ++ cells') g g'' := by
  induction h with
  | nil g => exact h'
  | pass hc _ ih => exact .pass hc (ih h')
  | choice hc hv hw hne _ ih => exact .choice hc hv hw hne (ih h')
  | forced hc hv honly _ ih => exact .forced hc hv honly (ih h')

/-- A walk that starts at a constrained cell that nothing fits does not end. -/
theorem Walk.dead {cells : List (Cell P)} {g' : Grid P} (hc : g.Constrained c) (hdead : ∀ v, ¬ Fits ps g c v) :
    ¬ Walk ps (c :: cells) g g' := by
  intro h
  cases h with
  | pass hnot => exact hnot hc
  | choice _ hv => exact hdead _ hv
  | forced _ hv => exact hdead _ hv

/-- The values of pieces are a range. -/
theorem forall_isPiece {p : Int → Prop} :
    (∀ v, IsPiece P v → p v) ↔ ∀ n ∈ List.range (4 * P.eternParts + 1), IsPiece P (n : Nat) → p (n : Nat) := by
  constructor
  · intro h n _ hn
    exact h n hn
  · intro h v hv
    obtain ⟨hpos, hle⟩ := isPiece_iff.mp hv
    obtain ⟨n, rfl⟩ := Int.eq_ofNat_of_zero_le hv.nonneg
    exact h n (List.mem_range.mpr (by omega)) hv

instance {d : Dir} : Decidable (SideFits ps g c v d) := by
  unfold SideFits
  split <;> infer_instance

instance : Decidable (SidesFit ps g c v) :=
  decidable_of_iff (IsPiece P v ∧ ∀ d ∈ Dir.all, SideFits ps g c v d) (by simp [SidesFit])

instance : Decidable (Fits ps g c v) :=
  decidable_of_iff (SidesFit ps g c v ∧ ∀ c', g c' ≠ -2 → pieceId P (g c') ≠ pieceId P v)
    ⟨fun h => ⟨h.1.1, h.2, h.1.2⟩, fun h => ⟨⟨h.piece, h.side⟩, h.free⟩⟩

instance : Decidable (g.Constrained c) :=
  decidable_of_iff (g c = -2 ∧ ¬ ∀ d ∈ Dir.all, (c.neighbor d).any fun c' => g c' = -2)
    (by simp [Constrained, Option.any_eq_true])

end Grid

/-! ## The walk of the code -/

section ScanWalk

variable {P : Puzzle} {ps : PieceSet P} {map : MapBigArray} {q : Packet P} {c : Cell P}

/-- The only entry of the rotation table without an identifier is the plug. -/
theorem plug_of_mem_rotateAllPartsList {e : PuzzlePart} (he : e ∈ rotateAllPartsList ps) (hid : e.id = 0) :
    e = .plug := by
  obtain ⟨n, hn, rfl⟩ := List.mem_map.mp he
  rcases Nat.eq_zero_or_pos n with rfl | hpos
  · exact rotateAllParts_zero ps
  · rw [List.mem_range, rotateAllPartsSize] at hn
    have hv : IsPiece P n := isPiece_iff.mpr (by omega)
    have hpiece := (rotateAllParts_mem ps hv).2.1
    rw [Int.toNat_natCast, hid] at hpiece
    exact absurd hpiece (Nat.ne_of_lt pieceId_pos)

/-- The compartment of an empty cell holds pieces only. -/
theorem id_ne_zero_of_mem_bucket (hq : q.WellFormed ps) (hmap : MapOf ps map) (hc : q.grid c = -2)
    {e : PuzzlePart} (he : e ∈ map.getPartsBigarrayWithKey (packetKey ps map q c)) : e.id ≠ 0 := by
  intro hid
  rw [packetKey, (hmap.bucket_perm _ (whatSearchInGridToKey_inRange hq.grid hmap)).mem_iff,
    KeyPart.mem_matching] at he
  obtain ⟨hmem, haccepts⟩ := he
  obtain ⟨d, c', hn⟩ := Cell.exists_neighbor c
  have hside := haccepts d
  rw [whatSearchInGridToKey_side, plug_of_mem_rotateAllPartsList hmem hid, PuzzlePart.plug_face, keyAccepts]
    at hside
  split at hside
  · exact hside rfl
  · rename_i hjoker
    have hplaced : q.grid c' ≠ -2 := fun he => hjoker (searchSide_empty hn he)
    rw [searchSide_placed hq.grid hn hplaced] at hside
    exact hq.grid.open_ c' d.opposite c hplaced (Cell.neighbor_opposite hn) hc hside.symm

/-- What the loop over the entries of a compartment does on a constrained cell. -/
theorem scanCandidates_cases (hq : q.WellFormed ps) (hmap : MapOf ps map) (hc : q.grid c = -2) :
    (scanCandidates q c (map.getPartsBigarrayWithKey (packetKey ps map q c)) = none ∧
        ∀ v, ¬ Grid.Fits ps q.grid c v) ∨
      (scanCandidates q c (map.getPartsBigarrayWithKey (packetKey ps map q c)) = some (q, false) ∧
        ∃ v w, Grid.Fits ps q.grid c v ∧ Grid.SidesFit ps q.grid c w ∧ w ≠ v) ∨
      ∃ e, scanCandidates q c (map.getPartsBigarrayWithKey (packetKey ps map q c)) =
          some (q.force c e, true) ∧
        Grid.Fits ps q.grid c (e.value P) ∧ (∀ w, Grid.SidesFit ps q.grid c w → w = e.value P) ∧
        (q.force c e).WellFormed ps := by
  have hnodup := nodup_bucket_value hmap (whatSearchInGridToKey_inRange (c := c) hq.grid hmap)
  have hpieces := fun e => id_ne_zero_of_mem_bucket (e := e) hq hmap hc
  have hbucket := fun v => mem_bucket (v := v) (c := c) hq.grid hmap
  unfold scanCandidates
  cases hfind : (map.getPartsBigarrayWithKey (packetKey ps map q c)).find?
      (isFreeEntry (isFaceUsed q.bFaceused)) with
  | none =>
    refine .inl ⟨rfl, (packetFree_eq_nil hq hmap).mp ?_⟩
    rw [List.find?_eq_none] at hfind
    rw [packetFree, freeEntries, List.filter_eq_nil_iff]
    exact hfind
  | some e =>
    have hfree := List.find?_some hfind
    have hmem := List.mem_of_find?_eq_some hfind
    have hfits : Grid.Fits ps q.grid c (e.value P) :=
      fits_of_mem_packetFree hq hmap (List.mem_filter.mpr ⟨hmem, hfree⟩)
    refine .inr ?_
    dsimp only
    split
    · rename_i hlen
      obtain ⟨e', hsingle⟩ := List.length_eq_one_iff.mp hlen
      have heq : e = e' := by simpa [hsingle] using hmem
      subst heq
      refine .inr ⟨e, rfl, hfits, ?_, (refines_force hq hmap hc hsingle hfree).1.wellFormed⟩
      intro w hw
      obtain ⟨p, hp, -, rfl⟩ := (hbucket w).mpr hw
      rw [packetKey] at hsingle
      rw [hsingle, List.mem_singleton] at hp
      rw [hp]
    · rename_i hlen
      -- The entries are distinct, so a compartment of another size holds a second one.
      have hother : ∃ p ∈ map.getPartsBigarrayWithKey (packetKey ps map q c), p.value P ≠ e.value P := by
        by_contra hall
        push Not at hall
        have hall' : ∀ v ∈ (map.getPartsBigarrayWithKey (packetKey ps map q c)).map (PuzzlePart.value P),
            v = e.value P := by simpa using hall
        have hreplicate := List.eq_replicate_of_mem hall'
        rw [packetKey] at hreplicate hmem hlen
        rw [hreplicate, List.nodup_replicate, List.length_map] at hnodup
        have hpos := List.length_pos_of_mem hmem
        omega
      obtain ⟨p, hp, hne⟩ := hother
      exact .inl ⟨rfl, e.value P, p.value P, hfits, (hbucket _).mp ⟨p, hp, hpieces p hp, rfl⟩, hne⟩

/-- On a cell that is not constrained the walk of the code goes on. -/
theorem scanLoop_pass (hq : q.WellFormed ps) (hmap : MapOf ps map) (hc : ¬ q.grid.Constrained c)
    (cells : List (Cell P)) (forced : Bool) (cellsStudied : Nat) :
    ∃ n, cellsStudied ≤ n ∧ (q.grid c = -2 → cellsStudied < n) ∧
      scanLoop ps map (c :: cells) q forced cellsStudied = scanLoop ps map cells q forced n := by
  rw [scanLoop]
  split
  · rename_i hplaced
    exact ⟨_, le_rfl, fun hempty => absurd hempty hplaced, rfl⟩
  · rename_i hempty
    have hun : (packetKey ps map q c).isUnconstrained map.sizearrayM = true := by
      rw [isUnconstrained_packetKey hq hmap]
      by_contra hnot
      exact hc ⟨not_not.mp hempty, hnot⟩
    dsimp only
    rw [any_side_lt hq hmap, hun]
    exact ⟨_, Nat.le_succ _, fun _ => Nat.lt_succ_self _, rfl⟩

section Constrained

variable (hq : q.WellFormed ps) (hmap : MapOf ps map) (hc : q.grid.Constrained c)
include hq hmap hc

/-- On a constrained cell the walk of the code looks at the compartment. -/
private theorem any_side_of_constrained :
    (Dir.all.any fun d => (packetKey ps map q c).side d < map.sizearrayM) = true := by
  obtain ⟨-, hnot⟩ := hc
  rw [← isUnconstrained_packetKey hq hmap, Bool.not_eq_true] at hnot
  rw [any_side_lt hq hmap, hnot]
  rfl

theorem scanLoop_dead (hscan : scanCandidates q c (map.getPartsBigarrayWithKey (packetKey ps map q c)) = none)
    (cells : List (Cell P)) (forced : Bool) (cellsStudied : Nat) :
    scanLoop ps map (c :: cells) q forced cellsStudied = ⟨false, q, forced, cellsStudied + 1⟩ := by
  rw [scanLoop, if_neg (not_not.mpr hc.1)]
  dsimp only
  rw [if_pos (any_side_of_constrained hq hmap hc), hscan]

theorem scanLoop_candidate {q' : Packet P} {placed : Bool}
    (hscan : scanCandidates q c (map.getPartsBigarrayWithKey (packetKey ps map q c)) = some (q', placed))
    (cells : List (Cell P)) (forced : Bool) (cellsStudied : Nat) :
    scanLoop ps map (c :: cells) q forced cellsStudied =
      scanLoop ps map cells q' (forced || placed) (cellsStudied + 1) := by
  rw [scanLoop, if_neg (not_not.mpr hc.1)]
  dsimp only
  rw [if_pos (any_side_of_constrained hq hmap hc), hscan]

end Constrained

/-- The walk of the code is the walk over the board. -/
theorem scanLoop_walk (hmap : MapOf ps map) (cells : List (Cell P)) {q : Packet P} (hq : q.WellFormed ps)
    (forced : Bool) (cellsStudied : Nat) (g : Grid P) :
    Grid.Walk ps cells q.grid g ↔
      (scanLoop ps map cells q forced cellsStudied).result = true ∧
        (scanLoop ps map cells q forced cellsStudied).packet.grid = g := by
  induction cells generalizing q forced cellsStudied with
  | nil =>
    constructor
    · intro hwalk
      cases hwalk
      exact ⟨rfl, rfl⟩
    · rintro ⟨-, rfl⟩
      exact .nil _
  | cons c cells ih =>
    by_cases hc : q.grid.Constrained c
    · rcases scanCandidates_cases hq hmap hc.1 with ⟨hscan, hdead⟩ | ⟨hscan, v, w, hv, hw, hne⟩ |
        ⟨e, hscan, he, honly, hforce⟩
      · rw [scanLoop_dead hq hmap hc hscan]
        constructor
        · intro hwalk
          cases hwalk with
          | pass hnot => exact absurd hc hnot
          | choice _ hfits => exact absurd hfits (hdead _)
          | forced _ hfits => exact absurd hfits (hdead _)
        · rintro ⟨hresult, -⟩
          cases hresult
      · rw [scanLoop_candidate hq hmap hc hscan]
        refine Iff.trans ?_ (ih hq (forced || false) (cellsStudied + 1))
        constructor
        · intro hwalk
          cases hwalk with
          | pass hnot => exact absurd hc hnot
          | choice _ _ _ _ hrest => exact hrest
          | forced _ _ honly =>
            have hv' := honly v ⟨hv.piece, hv.side⟩
            exact absurd ((honly w hw).trans hv'.symm) hne
        · exact .choice hc hv hw hne
      · rw [scanLoop_candidate hq hmap hc hscan]
        refine Iff.trans ?_ (ih hforce (forced || true) (cellsStudied + 1))
        constructor
        · intro hwalk
          cases hwalk with
          | pass hnot => exact absurd hc hnot
          | choice _ hv hw hne _ =>
            have hv' := honly _ ⟨hv.piece, hv.side⟩
            exact absurd ((honly _ hw).trans hv'.symm) hne
          | forced _ hv _ hrest =>
            have hv' := honly _ ⟨hv.piece, hv.side⟩
            subst hv'
            exact hrest
        · exact .forced hc he honly
    · obtain ⟨n, -, -, hpass⟩ := scanLoop_pass hq hmap hc cells forced cellsStudied
      rw [hpass]
      refine Iff.trans ?_ (ih hq forced n)
      constructor
      · intro hwalk
        cases hwalk with
        | pass _ hrest => exact hrest
        | choice hc' => exact absurd hc' hc
        | forced hc' => exact absurd hc' hc
      · exact .pass hc

/-- A walk counts the empty cells that it meets. -/
theorem scanLoop_cellsStudied (hmap : MapOf ps map) (cells : List (Cell P)) {q : Packet P}
    (hq : q.WellFormed ps) (forced : Bool) (cellsStudied : Nat) :
    cellsStudied ≤ (scanLoop ps map cells q forced cellsStudied).cellsStudied ∧
      ((∃ c ∈ cells, q.grid c = -2) →
        cellsStudied < (scanLoop ps map cells q forced cellsStudied).cellsStudied) := by
  induction cells generalizing q forced cellsStudied with
  | nil => exact ⟨le_rfl, by simp⟩
  | cons c cells ih =>
    by_cases hc : q.grid.Constrained c
    · rcases scanCandidates_cases hq hmap hc.1 with ⟨hscan, -⟩ | ⟨hscan, -⟩ | ⟨e, hscan, -, -, hforce⟩
      · rw [scanLoop_dead hq hmap hc hscan]
        exact ⟨Nat.le_succ _, fun _ => Nat.lt_succ_self _⟩
      · rw [scanLoop_candidate hq hmap hc hscan]
        have hrest := (ih hq (forced || false) (cellsStudied + 1)).1
        exact ⟨Nat.le_of_succ_le hrest, fun _ => hrest⟩
      · rw [scanLoop_candidate hq hmap hc hscan]
        have hrest := (ih hforce (forced || true) (cellsStudied + 1)).1
        exact ⟨Nat.le_of_succ_le hrest, fun _ => hrest⟩
    · obtain ⟨n, hle, hlt, hpass⟩ := scanLoop_pass hq hmap hc cells forced cellsStudied
      rw [hpass]
      obtain ⟨hrest, hrest'⟩ := ih hq forced n
      refine ⟨hle.trans hrest, ?_⟩
      rintro ⟨c', hc', hempty⟩
      cases List.mem_cons.mp hc' with
      | inl heq =>
        subst heq
        exact Nat.lt_of_lt_of_le (hlt hempty) hrest
      | inr hmem => exact Nat.lt_of_le_of_lt hle (hrest' ⟨c', hmem, hempty⟩)

/-- A walk leaves `min_candidats`. -/
theorem scanLoop_minCandidats (hmap : MapOf ps map) (cells : List (Cell P)) {q : Packet P}
    (hq : q.WellFormed ps) (forced : Bool) (cellsStudied : Nat) :
    (scanLoop ps map cells q forced cellsStudied).packet.minCandidats = q.minCandidats := by
  induction cells generalizing q forced cellsStudied with
  | nil => rfl
  | cons c cells ih =>
    by_cases hc : q.grid.Constrained c
    · rcases scanCandidates_cases hq hmap hc.1 with ⟨hscan, -⟩ | ⟨hscan, -⟩ | ⟨e, hscan, -, -, hforce⟩
      · rw [scanLoop_dead hq hmap hc hscan]
      · rw [scanLoop_candidate hq hmap hc hscan]
        exact ih hq _ _
      · rw [scanLoop_candidate hq hmap hc hscan]
        exact ih hforce _ _
    · obtain ⟨n, -, -, hpass⟩ := scanLoop_pass hq hmap hc cells forced cellsStudied
      rw [hpass]
      exact ih hq forced n

/-- A walk over filled cells does nothing. -/
theorem scanLoop_of_full (cells : List (Cell P)) (hfull : ∀ c ∈ cells, q.grid c ≠ -2) (forced : Bool)
    (cellsStudied : Nat) : scanLoop ps map cells q forced cellsStudied = ⟨true, q, forced, cellsStudied⟩ := by
  induction cells with
  | nil => rfl
  | cons c cells ih =>
    rw [scanLoop, if_pos (hfull c List.mem_cons_self)]
    exact ih fun c' hc' => hfull c' (List.mem_cons_of_mem c hc')

/-- The walks that follow count on from the first, and further when a cell is empty. -/
theorem scanPasses_cellsStudied (hmap : MapOf ps map) (fuel : Nat) {q : Packet P} (hq : q.WellFormed ps)
    {forced : Bool} {cellsStudied : Nat} {r : ScanResult P}
    (h : scanPasses ps map fuel q forced cellsStudied = some r) :
    cellsStudied ≤ r.cellsStudied ∧ ((∃ c, q.grid c = -2) → cellsStudied < r.cellsStudied) := by
  induction fuel generalizing q forced cellsStudied with
  | zero => cases h
  | succ fuel ih =>
    obtain ⟨hle, hlt⟩ := scanLoop_cellsStudied hmap (Cell.path P) hq false cellsStudied
    have hq' := (scanLoop_spec hmap (Cell.path P) hq false cellsStudied).refines.wellFormed
    have hlt' : (∃ c, q.grid c = -2) → _ := fun ⟨c, hc⟩ => hlt ⟨c, Cell.mem_path c, hc⟩
    rw [scanPasses] at h
    split at h
    · obtain ⟨hrest, -⟩ := ih hq' h
      exact ⟨hle.trans hrest, fun hempty => Nat.lt_of_lt_of_le (hlt' hempty) hrest⟩
    · cases h
      exact ⟨hle, hlt'⟩

end ScanWalk

/-! ## The walk of the kernel -/

section KernelWalk

variable {P : Puzzle} {ps : PieceSet P} {map : MapBigArray} {al : MapAllocs} {q : Packet P} {c : Cell P}

@[simp] theorem gpuPrunerInit_m : (gpuPrunerInit ps map).m = map.sizearray := rfl

@[simp] theorem gpuPrunerInit_allFace : (gpuPrunerInit ps map).allFace = map.sizearrayM := rfl

theorem KeyPart.any_side_lt_iff (key : KeyPart) (joker : Int) :
    (Dir.all.any fun d => key.side d < joker) = true ↔
      key.k1 < joker ∨ key.k2 < joker ∨ key.k3 < joker ∨ key.k4 < joker := by
  simp only [Dir.all, List.any_cons, List.any_nil, Bool.or_false, Bool.or_eq_true, decide_eq_true_eq]
  rfl

/-- The kernel computes the same search key. -/
theorem devWhatSearchInGridToKey_eq (q : Packet P) (c : Cell P) :
    devWhatSearchInGridToKey (gpuPrunerInit ps map).partDev q c (gpuPrunerInit ps map).allFace =
      packetKey ps map q c := rfl

/-- The kernel reads the compartments off its copy of the arena. -/
theorem gpuPrunerInit_slice {key : KeyPart} (hkey : key.InRange ((prepareMapPart ps al).sizearrayM + 1)) :
    ((gpuPrunerInit ps (prepareMapPart ps al)).arenaDev.drop
        ((gpuPrunerInit ps (prepareMapPart ps al)).flatOff (flatIndex (prepareMapPart ps al).sizearray key))).take
        ((prepareMapPart ps al).getPartsBigarrayWithKey key).length =
      (prepareMapPart ps al).getPartsBigarrayWithKey key := by
  have hkey' : key.InRange (searchMaxFace (rotateAllPartsList ps) + 2) := by
    intro d
    have := hkey d
    simp only [prepareMapPart, buildBigArray] at this
    omega
  have hslice := arena_buildBigArray_slice (rotateAllPartsList ps) al hkey'
  simp only [gpuPrunerInit]
  split
  · exact hslice
  · rename_i hnone
    have hnil : (prepareMapPart ps al).getPartsBigarrayWithKey key = [] :=
      List.length_eq_zero_iff.mp (Nat.eq_zero_of_not_pos hnone)
    rw [hnil, List.length_nil, List.take_zero]

/-- What both loops over a compartment do with the first free entry. -/
private def takeEntry (q : Packet P) (c : Cell P) (size : Nat) (e : PuzzlePart) : Packet P × Bool :=
  if size = 1 then (q.force c e, true) else (q, false)

private theorem scanCandidates_eq (q : Packet P) (c : Cell P) (search : List PuzzlePart) :
    scanCandidates q c search =
      (search.find? (isFreeEntry (isFaceUsed q.bFaceused))).map (takeEntry q c search.length) := by
  unfold scanCandidates takeEntry
  cases search.find? (isFreeEntry (isFaceUsed q.bFaceused)) with
  | none => rfl
  | some e =>
    rw [Option.map_some]
    dsimp only
    split <;> rfl

/-- The loop of the kernel over a compartment, from entry `s` on. -/
private theorem kernelCandidates_eq_find {gpu : GpuMap} {off : Nat} {search : List PuzzlePart}
    (hslice : (gpu.arenaDev.drop off).take search.length = search) (n s : Nat) (hs : s + n = search.length) :
    kernelCandidates gpu q c off search.length n s =
      ((search.drop s).find? (isFreeEntry (isFaceUsed q.bFaceused))).map (takeEntry q c search.length) := by
  induction n generalizing s with
  | zero =>
    have hnil : search.drop s = [] := List.drop_eq_nil_of_le (Nat.le_of_eq hs.symm)
    rw [hnil]
    rfl
  | succ n ih =>
    have hlt : s < search.length := by omega
    have hentry : gpu.arenaDev.getD (off + s) .plug = search[s] := by
      have hget : ((gpu.arenaDev.drop off).take search.length)[s]? = search[s]? := by rw [hslice]
      rw [List.getElem?_take_of_lt hlt, List.getElem?_drop, List.getElem?_eq_getElem hlt] at hget
      rw [List.getD_eq_getElem?_getD, hget, Option.getD_some]
    rw [List.drop_eq_getElem_cons hlt, List.find?_cons, kernelCandidates, hentry, ih (s + 1) (by omega)]
    cases hfree : isFreeEntry (isFaceUsed q.bFaceused) search[s] with
    | true =>
      have hcond : (decide (search[s].id ≠ 0) && !isFaceUsed q.bFaceused (search[s].id - 1)) = true := hfree
      dsimp only
      rw [if_pos hcond, Option.map_some, takeEntry]
      split <;> rfl
    | false =>
      have hcond : ¬ (decide (search[s].id ≠ 0) && !isFaceUsed q.bFaceused (search[s].id - 1)) = true :=
        Bool.not_eq_true _ ▸ hfree
      dsimp only
      rw [if_neg hcond]

variable (al c) in
/-- The kernel does with a compartment what the CPU does. -/
theorem kernelCandidates_eq (hq : q.WellFormed ps) :
    kernelCandidates (gpuPrunerInit ps (prepareMapPart ps al)) q c
        ((gpuPrunerInit ps (prepareMapPart ps al)).flatOff
          (flatIndex (prepareMapPart ps al).sizearray (packetKey ps (prepareMapPart ps al) q c)))
        ((gpuPrunerInit ps (prepareMapPart ps al)).flatSize
          (flatIndex (prepareMapPart ps al).sizearray (packetKey ps (prepareMapPart ps al) q c)))
        ((gpuPrunerInit ps (prepareMapPart ps al)).flatSize
          (flatIndex (prepareMapPart ps al).sizearray (packetKey ps (prepareMapPart ps al) q c))) 0 =
      scanCandidates q c ((prepareMapPart ps al).getPartsBigarrayWithKey
        (packetKey ps (prepareMapPart ps al) q c)) := by
  have hkey := whatSearchInGridToKey_inRange (c := c) hq.grid (mapOf_prepareMapPart ps al)
  rw [scanCandidates_eq]
  exact kernelCandidates_eq_find (gpuPrunerInit_slice hkey) _ 0 (Nat.zero_add _)

/-- The walk of the kernel is the first walk of the CPU. -/
theorem kernelLoop_eq (cells : List (Cell P)) {q : Packet P} (hq : q.WellFormed ps) (forced : Bool)
    (cellsStudied : Nat) :
    kernelLoop (gpuPrunerInit ps (prepareMapPart ps al)) cells q forced cellsStudied =
      scanLoop ps (prepareMapPart ps al) cells q forced cellsStudied := by
  have hmap := mapOf_prepareMapPart ps al
  induction cells generalizing q forced cellsStudied with
  | nil => rfl
  | cons c cells ih =>
    rw [kernelLoop, scanLoop]
    split
    · exact ih hq forced cellsStudied
    · rename_i hempty
      have hcandidates := kernelCandidates_eq al c hq
      have hsides := (packetKey ps (prepareMapPart ps al) q c).any_side_lt_iff (prepareMapPart ps al).sizearrayM
      rw [devWhatSearchInGridToKey_eq, gpuPrunerInit_allFace, gpuPrunerInit_m]
      dsimp only
      by_cases hany : (Dir.all.any fun d => (packetKey ps (prepareMapPart ps al) q c).side d <
          (prepareMapPart ps al).sizearrayM) = true
      · rw [if_pos (hsides.mp hany), if_pos hany]
        rcases scanCandidates_cases hq hmap (not_not.mp hempty) with ⟨hscan, -⟩ | ⟨hscan, -⟩ | ⟨e, hscan, -, -, hforce⟩
        · rw [hscan] at hcandidates ⊢
          rw [hcandidates]
        · rw [hscan] at hcandidates ⊢
          rw [hcandidates]
          exact ih hq _ _
        · rw [hscan] at hcandidates ⊢
          rw [hcandidates]
          exact ih hforce _ _
      · rw [if_neg (fun h => hany (hsides.mpr h)), if_neg hany]
        exact ih hq _ _

end KernelWalk

/-! ## Agreement -/

/-- The two checks have the same outcome: the verdict, the cells examined and, when alive, the packet. -/
structure SameOutcome {P : Puzzle} (gpu cpu : ScanResult P) : Prop where
  verdict : gpu.result = cpu.result
  cellsStudied : gpu.cellsStudied = cpu.cellsStudied
  grid : cpu.result = true → gpu.packet.grid = cpu.packet.grid
  bFaceused : cpu.result = true → gpu.packet.bFaceused = cpu.packet.bFaceused
  alloc : cpu.result = true → gpu.packet.alloc = cpu.packet.alloc
  minCandidats : cpu.result = true → gpu.packet.minCandidats = cpu.packet.minCandidats

section Agreement

variable {P : Puzzle}

/-- One thread of `prune_kernel` and `possibility_all_has_a_next_counted` agree on a packet. -/
def KernelAgrees (ps : PieceSet P) (map : MapBigArray) (q : Packet P) : Prop :=
  ∀ fuel, P.eternParts < fuel → ∃ r, possibilityAllHasANextCounted ps map fuel q = some r ∧
    SameOutcome (pruneKernel (gpuPrunerInit ps map) q) r

variable {ps : PieceSet P} {al : MapAllocs} {q : Packet P}

/-- What the kernel leaves of the first walk of the CPU. -/
theorem pruneKernel_eq (hq : q.WellFormed ps) (hchecked : q.checked = 0) {pass : ScanResult P}
    (hpass : scanLoop ps (prepareMapPart ps al) (Cell.path P) q false 0 = pass) :
    let gpu := pruneKernel (gpuPrunerInit ps (prepareMapPart ps al)) q
    gpu.result = pass.result ∧ gpu.cellsStudied = pass.cellsStudied ∧
      gpu.packet.grid = pass.packet.grid ∧ gpu.packet.bFaceused = pass.packet.bFaceused ∧
      gpu.packet.minCandidats = pass.packet.minCandidats ∧
      gpu.packet.alloc =
        if pass.forced then UInt16.ofNat (placedCount pass.packet.grid) else pass.packet.alloc := by
  intro gpu
  have hgpu : gpu = pruneKernel (gpuPrunerInit ps (prepareMapPart ps al)) q := rfl
  rw [pruneKernel, if_neg (not_not.mpr hchecked)] at hgpu
  dsimp only at hgpu
  rw [kernelLoop_eq (Cell.path P) hq false 0, hpass] at hgpu
  rw [hgpu]
  cases pass.result <;> cases pass.forced <;> exact ⟨rfl, rfl, rfl, rfl, rfl, rfl⟩

/-- A first walk that fails or forces nothing is the only one. -/
theorem counted_of_last {map : MapBigArray} {pass : ScanResult P}
    (hpass : scanLoop ps map (Cell.path P) q false 0 = pass)
    (hlast : (pass.result && pass.forced) = false) {fuel : Nat} (hfuel : 0 < fuel) :
    ∃ r, possibilityAllHasANextCounted ps map fuel q = some r ∧ r.result = pass.result ∧
      r.cellsStudied = pass.cellsStudied ∧ (pass.forced = false → r.packet = pass.packet) := by
  obtain ⟨n, rfl⟩ : ∃ n, fuel = n + 1 := ⟨fuel - 1, by omega⟩
  rw [possibilityAllHasANextCounted, scanPasses]
  dsimp only
  rw [hpass, hlast, if_neg Bool.false_ne_true, Option.map_some, Bool.false_or]
  refine ⟨_, rfl, ?_⟩
  cases hforced : pass.forced with
  | true => exact ⟨rfl, rfl, fun h => by cases h⟩
  | false => exact ⟨rfl, rfl, fun _ => rfl⟩

/-- A first walk that forces a piece is followed by another. -/
theorem counted_of_forced {map : MapBigArray} {pass : ScanResult P}
    (hpass : scanLoop ps map (Cell.path P) q false 0 = pass) (hresult : pass.result = true)
    (hforced : pass.forced = true) (n : Nat) :
    possibilityAllHasANextCounted ps map (n + 1) q =
      (scanPasses ps map n pass.packet true pass.cellsStudied).map fun r =>
        if r.forced then
          { r with packet := { r.packet with
              alloc := UInt16.ofNat (placedCount r.packet.grid)
              minCandidats := possibilityMinCandidatsUnknown } }
        else r := by
  rw [possibilityAllHasANextCounted, scanPasses]
  dsimp only
  rw [hpass, hresult, hforced, Bool.and_self, if_pos rfl]

/-- After a walk that fills the board nothing is left to force. -/
theorem counted_of_full {map : MapBigArray} {pass : ScanResult P}
    (hpass : scanLoop ps map (Cell.path P) q false 0 = pass) (hresult : pass.result = true)
    (hforced : pass.forced = true) (hfull : ∀ c, pass.packet.grid c ≠ -2) {fuel : Nat} (hfuel : 1 < fuel) :
    ∃ r, possibilityAllHasANextCounted ps map fuel q = some r ∧ r.result = true ∧
      r.cellsStudied = pass.cellsStudied ∧ r.packet.grid = pass.packet.grid ∧
      r.packet.bFaceused = pass.packet.bFaceused ∧
      r.packet.alloc = UInt16.ofNat (placedCount pass.packet.grid) ∧
      r.packet.minCandidats = possibilityMinCandidatsUnknown := by
  obtain ⟨n, rfl⟩ : ∃ n, fuel = n + 2 := ⟨fuel - 2, by omega⟩
  have hsecond : scanLoop ps map (Cell.path P) pass.packet false pass.cellsStudied =
      ⟨true, pass.packet, false, pass.cellsStudied⟩ :=
    scanLoop_of_full (Cell.path P) (fun c _ => hfull c) false pass.cellsStudied
  rw [counted_of_forced hpass hresult hforced, scanPasses]
  dsimp only
  rw [hsecond, Bool.and_false, if_neg Bool.false_ne_true, Option.map_some]
  exact ⟨_, rfl, rfl, rfl, rfl, rfl, rfl, rfl⟩

/-- After a walk that leaves a cell empty the CPU examines more cells than the kernel. -/
theorem counted_of_open {pass : ScanResult P}
    (hq : q.WellFormed ps) (hpass : scanLoop ps (prepareMapPart ps al) (Cell.path P) q false 0 = pass)
    (hresult : pass.result = true) (hforced : pass.forced = true) (hopen : ∃ c, pass.packet.grid c = -2)
    {fuel : Nat} {r : ScanResult P}
    (h : possibilityAllHasANextCounted ps (prepareMapPart ps al) fuel q = some r) :
    pass.cellsStudied < r.cellsStudied := by
  have hmap := mapOf_prepareMapPart ps al
  have hq' : pass.packet.WellFormed ps := by
    rw [← hpass]
    exact (scanLoop_spec hmap (Cell.path P) hq false 0).refines.wellFormed
  cases fuel with
  | zero => cases h
  | succ n =>
    rw [counted_of_forced hpass hresult hforced, Option.map_eq_some_iff] at h
    obtain ⟨r', hrun, hr⟩ := h
    have hcells := (scanPasses_cellsStudied hmap n hq' hrun).2 hopen
    rw [← hr]
    split <;> exact hcells

/-- When the second walk meets a dead cell, the CPU finds a packet dead that the kernel keeps. -/
theorem kernel_alive_of_second_dead (hq : q.WellFormed ps) (hchecked : q.checked = 0) {g : Grid P}
    (hfirst : Grid.Walk ps (Cell.path P) q.grid g) (hmoves : g ≠ q.grid)
    (hdead : ∀ g', ¬ Grid.Walk ps (Cell.path P) g g') :
    (pruneKernel (gpuPrunerInit ps (prepareMapPart ps al)) q).result = true ∧
      ∃ r, possibilityAllHasANextCounted ps (prepareMapPart ps al) (P.eternParts + 1) q = some r ∧
        r.result = false := by
  have hmap := mapOf_prepareMapPart ps al
  obtain ⟨hresult, hgrid⟩ := (scanLoop_walk hmap (Cell.path P) hq false 0 g).mp hfirst
  have hspec := scanLoop_spec hmap (Cell.path P) hq false 0
  generalize hpass : scanLoop ps (prepareMapPart ps al) (Cell.path P) q false 0 = pass at *
  have hforced : pass.forced = true := by
    by_contra hnot
    rw [Bool.not_eq_true] at hnot
    rw [(hspec.same hnot).1] at hgrid
    exact hmoves hgrid.symm
  refine ⟨(pruneKernel_eq hq hchecked hpass).1.trans hresult, ?_⟩
  subst hgrid
  have hsecond : ∀ n, (scanLoop ps (prepareMapPart ps al) (Cell.path P) pass.packet false n).result = false := by
    intro n
    by_contra hnot
    rw [Bool.not_eq_false] at hnot
    exact hdead _ ((scanLoop_walk hmap (Cell.path P) hspec.refines.wellFormed false n _).mpr ⟨hnot, rfl⟩)
  obtain ⟨n, hn⟩ : ∃ n, P.eternParts = n + 1 := ⟨P.eternParts - 1, by have := P.eternParts_pos; omega⟩
  rw [counted_of_forced hpass hresult hforced, hn, scanPasses]
  dsimp only
  rw [hsecond, Bool.false_and, if_neg Bool.false_ne_true, Option.map_some]
  exact ⟨_, rfl, rfl⟩

/-- For every piece set, map and well-formed unchecked packet: the kernel and the CPU agree exactly when
the walk over the board meets a cell that nothing fits, or places nothing, or fills the board and the
score of the packet was unknown already. -/
theorem pruneKernel_agrees_iff (ps : PieceSet P) (al : MapAllocs) (q : Packet P) (hq : q.WellFormed ps)
    (hchecked : q.checked = 0) :
    KernelAgrees ps (prepareMapPart ps al) q ↔
      (∀ g, ¬ Grid.Walk ps (Cell.path P) q.grid g) ∨
      Grid.Walk ps (Cell.path P) q.grid q.grid ∨
      ∃ g, Grid.Walk ps (Cell.path P) q.grid g ∧ (∀ c, g c ≠ -2) ∧
        q.minCandidats = possibilityMinCandidatsUnknown := by
  have hmap := mapOf_prepareMapPart ps al
  have hparts := P.eternParts_pos
  have hwalk := scanLoop_walk hmap (Cell.path P) hq false 0
  have hspec := scanLoop_spec hmap (Cell.path P) hq false 0
  have hmin := scanLoop_minCandidats hmap (Cell.path P) hq false 0
  generalize hpass : scanLoop ps (prepareMapPart ps al) (Cell.path P) q false 0 = pass at *
  obtain ⟨hkresult, hkcells, hkgrid, hkmask, hkmin, hkalloc⟩ := pruneKernel_eq hq hchecked hpass
  cases hresult : pass.result with
  | false =>
    refine iff_of_true (fun fuel hfuel => ?_) (.inl fun g h => ?_)
    · obtain ⟨r, hrun, hr, hcells, -⟩ :=
        counted_of_last hpass (by rw [hresult, Bool.false_and]) (Nat.zero_lt_of_lt hfuel)
      have halive : r.result = true → False := by
        intro h
        rw [hr, hresult] at h
        cases h
      exact ⟨r, hrun, hkresult.trans hr.symm, hkcells.trans hcells.symm, fun h => (halive h).elim,
        fun h => (halive h).elim, fun h => (halive h).elim, fun h => (halive h).elim⟩
    · rw [((hwalk g).mp h).1] at hresult
      cases hresult
  | true =>
    cases hforced : pass.forced with
    | false =>
      have hsame := (hspec.same hforced).1
      refine iff_of_true (fun fuel hfuel => ?_) (.inr (.inl ((hwalk _).mpr ⟨hresult, by rw [hsame]⟩)))
      obtain ⟨r, hrun, hr, hcells, hpacket⟩ :=
        counted_of_last hpass (by rw [hforced, Bool.and_false]) (Nat.zero_lt_of_lt hfuel)
      rw [hforced, if_neg Bool.false_ne_true] at hkalloc
      have hpacket := hpacket hforced
      exact ⟨r, hrun, hkresult.trans hr.symm, hkcells.trans hcells.symm, fun _ => by rw [hkgrid, hpacket],
        fun _ => by rw [hkmask, hpacket], fun _ => by rw [hkalloc, hpacket], fun _ => by rw [hkmin, hpacket]⟩
    | true =>
      have hends : Grid.Walk ps (Cell.path P) q.grid pass.packet.grid := (hwalk _).mpr ⟨hresult, rfl⟩
      have hmoves : ¬ Grid.Walk ps (Cell.path P) q.grid q.grid := by
        intro h
        have hgrows := (hspec.grows hforced).resolve_left Bool.false_ne_true
        rw [((hwalk _).mp h).2] at hgrows
        exact Nat.lt_irrefl _ hgrows
      by_cases hfull : ∀ c, pass.packet.grid c ≠ -2
      · constructor
        · intro hagrees
          refine .inr (.inr ⟨_, hends, hfull, ?_⟩)
          obtain ⟨r, hrun, hr, -, -, -, -, hrmin⟩ :=
            counted_of_full hpass hresult hforced hfull (show 1 < P.eternParts + 1 by omega)
          obtain ⟨r', hrun', hsame⟩ := hagrees _ (Nat.lt_succ_self _)
          rw [hrun] at hrun'
          cases hrun'
          rw [← hrmin, ← hsame.minCandidats hr, hkmin, hmin]
        · rintro (hdead | hquiet | ⟨g, -, -, hunknown⟩)
          · exact absurd hends (hdead _)
          · exact absurd hquiet hmoves
          · intro fuel hfuel
            obtain ⟨r, hrun, hr, hcells, hgrid, hmask, halloc, hrmin⟩ :=
              counted_of_full hpass hresult hforced hfull (show 1 < fuel by omega)
            rw [hforced, if_pos rfl] at hkalloc
            exact ⟨r, hrun, by rw [hkresult, hresult, hr], hkcells.trans hcells.symm,
              fun _ => hkgrid.trans hgrid.symm, fun _ => hkmask.trans hmask.symm,
              fun _ => hkalloc.trans halloc.symm, fun _ => by rw [hkmin, hmin, hunknown, hrmin]⟩
      · refine iff_of_false (fun hagrees => ?_) ?_
        · obtain ⟨r, hrun, hsame⟩ := hagrees _ (Nat.lt_succ_self _)
          push Not at hfull
          have hmore := counted_of_open hq hpass hresult hforced hfull hrun
          rw [← hsame.cellsStudied, hkcells] at hmore
          exact Nat.lt_irrefl _ hmore
        · rintro (hdead | hquiet | ⟨g, hg, hgfull, -⟩)
          · exact hdead _ hends
          · exact hmoves hquiet
          · rw [← ((hwalk g).mp hg).2] at hgfull
            exact hfull hgfull

/-- On a full board both find the packet alive and leave it. -/
theorem pruneKernel_agrees_iff_full : (Frame.packet fun _ => true).WellFormed (Frame.pieces .p64) ∧
    KernelAgrees (Frame.pieces .p64) (prepareMapPart (Frame.pieces .p64) ⟨true, fun _ => true, true, true⟩)
      (Frame.packet fun _ => true) := by
  have hfull : ∀ c ∈ Cell.path .p64, ¬ Grid.Constrained (Frame.packet fun _ => true).grid c := by
    intro c _ hc
    rw [Grid.Constrained, Frame.packet_grid, Frame.grid_eq_empty] at hc
    cases hc.1
  exact ⟨Frame.packet_wellFormed _, (pruneKernel_agrees_iff (Frame.pieces .p64) _ _
    (Frame.packet_wellFormed _) rfl).mpr (.inr (.inl (.of_forall_not_constrained hfull)))⟩

end Agreement

/-! ## A piece forced late -/

namespace LateForcing

/-- Four corners, eight borders and four inner pieces. -/
def part (i : Nat) : PuzzlePart :=
  if i = 1 then ⟨i, 0, 1, 2, 0, 0⟩
  else if i = 2 then ⟨i, 0, 1, 3, 0, 0⟩
  else if i = 3 then ⟨i, 0, 2, 1, 0, 0⟩
  else if i = 4 then ⟨i, 0, 1, 1, 0, 0⟩
  else if i = 11 then ⟨i, 0, 2, 1, 1, 0⟩
  else if i = 12 then ⟨i, 0, 3, 1, 1, 0⟩
  else if i < 11 then ⟨i, 0, 1, 1, 1, 0⟩
  else ⟨i, 1, 1, 1, 1, 0⟩

def pieces : PieceSet .p16 where
  part := part
  part_id i _ _ := by
    unfold part
    split_ifs <;> rfl
  face_nonneg i d _ _ := by
    unfold part
    split_ifs <;> cases d <;> simp [PuzzlePart.face]
  face_le i d _ _ := by
    unfold part
    split_ifs <;> cases d <;> simp [PuzzlePart.face]

/-- The identifier and the rotation of the piece in each cell, column by column: three corners and one
border cell next to the first are empty. -/
def placed : List (Option (Nat × Nat)) :=
  [none, none, some (5, 3), none,
    some (6, 0), some (13, 0), some (14, 0), some (11, 2),
    some (7, 0), some (15, 0), some (16, 0), some (8, 2),
    some (4, 1), some (9, 1), some (12, 1), none]

def placedAt (c : Cell .p16) : Option PuzzlePart :=
  (placed.getD c.pos none).map fun v => rotatePart (part v.1) v.2

def board : Packet .p16 := generatePossibilityPacket 0 0 placedAt

theorem board_wellFormed : board.WellFormed pieces where
  grid := by
    constructor
    · decide +kernel
    · decide +kernel
    · intro c d
      cases d <;> revert c <;> decide +kernel
    · intro c d
      cases d <;> revert c <;> decide +kernel
    · intro c d
      cases d <;> revert c <;> decide +kernel
  mask := generatePossibilityPacket_mask (by decide +kernel)

/-- Cell `n` of the walk. -/
abbrev cell (n : Nat) : Cell .p16 := Cell.ofPos .p16 n

/-- The walk: up to the first forced corner, up to the second, and that one. -/
theorem path_eq : Cell.path .p16 =
    [cell 0, cell 1, cell 2, cell 3] ++ ((List.range' 4 11).map cell ++ [cell 15]) := by decide +kernel

/-- The board once piece 1 is forced, and once piece 2 is. -/
def forcedOnce : Grid .p16 := board.grid.place (cell 3) 49

def forcedTwice : Grid .p16 := forcedOnce.place (cell 15) 34

/-- The first walk leaves pieces 1 and 2 to the first corner, and forces both elsewhere. -/
theorem board_walk : Grid.Walk pieces (Cell.path .p16) board.grid forcedTwice := by
  have honce : ∀ w, IsPiece .p16 w → Grid.SidesFit pieces board.grid (cell 3) w → w = 49 :=
    Grid.forall_isPiece.mpr (by decide +kernel)
  have htwice : ∀ w, IsPiece .p16 w → Grid.SidesFit pieces forcedOnce (cell 15) w → w = 34 :=
    Grid.forall_isPiece.mpr (by decide +kernel)
  have hlast : Grid.Walk pieces [cell 15] forcedOnce forcedTwice :=
    .forced (by decide +kernel) (by decide +kernel) (fun w hw => htwice w hw.1 hw) (.nil _)
  have hmiddle : Grid.Walk pieces ((List.range' 4 11).map cell) forcedOnce forcedOnce :=
    .of_forall_not_constrained (by decide +kernel)
  have hfirst : Grid.Walk pieces [cell 0, cell 1, cell 2, cell 3] board.grid forcedOnce := by
    refine .choice (v := 1) (w := 2) ?_ ?_ ?_ ?_ (.choice (v := 58) (w := 53) ?_ ?_ ?_ ?_
      (.pass ?_ (.forced ?_ ?_ (fun w hw => honce w hw.1 hw) (.nil _)))) <;> decide +kernel
  rw [path_eq]
  exact hfirst.append (hmiddle.append hlast)

/-- The second walk finds nothing for the first corner. -/
theorem forcedTwice_dead (g : Grid .p16) : ¬ Grid.Walk pieces (Cell.path .p16) forcedTwice g := by
  have hnone : ∀ v, IsPiece .p16 v → ¬ Grid.Fits pieces forcedTwice (cell 0) v :=
    Grid.forall_isPiece.mpr (by decide +kernel)
  rw [path_eq]
  exact Grid.Walk.dead (by decide +kernel) fun v hv => hnone v hv.piece hv

end LateForcing

/-- On a board where the pieces of a cell are forced elsewhere after the walk has passed it, the kernel
finds the packet alive and the CPU finds it dead. -/
theorem pruneKernel_lateForcing :
    LateForcing.board.WellFormed LateForcing.pieces ∧ LateForcing.board.checked = 0 ∧
    (pruneKernel (gpuPrunerInit LateForcing.pieces (prepareMapPart LateForcing.pieces
      ⟨true, fun _ => true, true, true⟩)) LateForcing.board).result = true ∧
    ∃ r, possibilityAllHasANextCounted LateForcing.pieces (prepareMapPart LateForcing.pieces
      ⟨true, fun _ => true, true, true⟩) (Puzzle.p16.eternParts + 1) LateForcing.board = some r ∧
      r.result = false := by
  have hmoves : LateForcing.forcedTwice ≠ LateForcing.board.grid := by decide +kernel
  exact ⟨LateForcing.board_wellFormed, rfl, kernel_alive_of_second_dead LateForcing.board_wellFormed rfl
    LateForcing.board_walk hmoves LateForcing.forcedTwice_dead⟩
