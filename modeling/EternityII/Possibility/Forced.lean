-- SUMMARY: The fixpoint of forced placements: `possibility_all_has_a_next_counted`.
import EternityII.Possibility.Key

/-!
# Forced placements

`possibility_all_has_a_next_counted` walks over the empty cells, places the only entry of
every compartment of size 1, and repeats until a walk places nothing. It gives up as soon
as a constrained cell has no free candidate.
-/

section Scan

variable {P : Puzzle} (ps : PieceSet P) (map : MapBigArray)

/-- `set_face_used` and the write to `grid[x][y]` of a forced placement. -/
def Packet.force (possibility : Packet P) (c : Cell P) (e : PuzzlePart) : Packet P :=
  { possibility with
    grid := possibility.grid.place c (idForRotatedPart P e.id e.rotation)
    bFaceused := setFaceUsed possibility.bFaceused (e.id - 1) true }

/-- The loop over the entries of a compartment: it stops at the first free one, and places
it when it is the only entry. `none` stands for `result = 0`. -/
def scanCandidates (possibility : Packet P) (c : Cell P) (search : List PuzzlePart) :
    Option (Packet P × Bool) :=
  match search.find? (isFreeEntry (isFaceUsed possibility.bFaceused)) with
  | none => none
  | some e => if search.length = 1 then some (possibility.force c e, true) else some (possibility, false)

/-- What a walk leaves behind: `result`, the packet, `forced_this_pass` and `cells_studied`. -/
structure ScanResult (P : Puzzle) where
  result : Bool
  packet : Packet P
  forced : Bool
  cellsStudied : Nat

/-- One walk over the cells of the path. -/
def scanLoop : List (Cell P) → Packet P → Bool → Nat → ScanResult P
  | [], possibility, forced, cellsStudied => ⟨true, possibility, forced, cellsStudied⟩
  | c :: cells, possibility, forced, cellsStudied =>
    if possibility.grid c ≠ -2 then scanLoop cells possibility forced cellsStudied
    else
      let wsearch := packetKey ps map possibility c
      if Dir.all.any fun d => wsearch.side d < map.sizearrayM then
        match scanCandidates possibility c (map.getPartsBigarrayWithKey wsearch) with
        | none => ⟨false, possibility, forced, cellsStudied + 1⟩
        | some (possibility, placed) => scanLoop cells possibility (forced || placed) (cellsStudied + 1)
      else scanLoop cells possibility forced (cellsStudied + 1)

/-- The `do .. while (result == 1 && forced_this_pass)` loop, `fuel` walks at most. -/
def scanPasses : Nat → Packet P → Bool → Nat → Option (ScanResult P)
  | 0, _, _, _ => none
  | fuel + 1, possibility, anyForced, cellsStudied =>
    let pass := scanLoop ps map (Cell.path P) possibility false cellsStudied
    if pass.result && pass.forced then scanPasses fuel pass.packet true pass.cellsStudied
    else some { pass with forced := anyForced || pass.forced }

/-- `possibility_all_has_a_next_counted`: the return value, the packet left behind, whether
a piece was forced, and `*out_cells_studied`. -/
def possibilityAllHasANextCounted (fuel : Nat) (possibility : Packet P) : Option (ScanResult P) :=
  (scanPasses ps map fuel possibility false 0).map fun r =>
    if r.forced then
      { r with packet := { r.packet with
          alloc := UInt16.ofNat (placedCount r.packet.grid)
          minCandidats := possibilityMinCandidatsUnknown } }
    else r

end Scan

/-! ## One walk -/

section ScanSpec

variable {P : Puzzle} {ps : PieceSet P} {map : MapBigArray}

/-- `q'` comes from `q` by placements that every completion makes. -/
structure Refines (ps : PieceSet P) (q q' : Packet P) : Prop where
  wellFormed : q'.WellFormed ps
  extends_ : ∀ c, q.grid c ≠ -2 → q'.grid c = q.grid c
  completions : q'.completions ps = q.completions ps
  placedCount_le : placedCount q.grid ≤ placedCount q'.grid

theorem Refines.refl {q : Packet P} (hq : q.WellFormed ps) : Refines ps q q :=
  ⟨hq, fun _ _ => rfl, rfl, Nat.le_refl _⟩

theorem Refines.trans {q q' q'' : Packet P} (h : Refines ps q q') (h' : Refines ps q' q'') :
    Refines ps q q'' where
  wellFormed := h'.wellFormed
  extends_ c hc := by
    rw [h'.extends_ c (by rwa [h.extends_ c hc]), h.extends_ c hc]
  completions := h'.completions.trans h.completions
  placedCount_le := h.placedCount_le.trans h'.placedCount_le

section Cell

variable {q : Packet P} {c : Cell P} (hq : q.WellFormed ps) (hmap : MapOf ps map)
include hq hmap

/-- A cell has a constraint exactly when one of its sides is below the joker. -/
theorem any_side_lt : (Dir.all.any fun d => (packetKey ps map q c).side d < map.sizearrayM) =
    !(packetKey ps map q c).isUnconstrained map.sizearrayM := by
  have hrange : ∀ d, (packetKey ps map q c).side d < map.sizearrayM ↔
      (packetKey ps map q c).side d ≠ map.sizearrayM := fun d => by
    have h := (whatSearchInGridToKey_inRange (c := c) hq.grid hmap d).2
    rw [packetKey]
    omega
  rw [KeyPart.isUnconstrained, Bool.eq_iff_iff, Bool.not_eq_true', List.any_eq_true,
    List.all_eq_false]
  simp only [decide_eq_true_iff, hrange, ne_eq]

/-- Placing the only entry of a compartment keeps all completions. -/
theorem refines_force {e : PuzzlePart} (hc : q.grid c = -2)
    (hsearch : map.getPartsBigarrayWithKey (packetKey ps map q c) = [e])
    (he : isFreeEntry (isFaceUsed q.bFaceused) e = true) :
    Refines ps q (q.force c e) ∧ placedCount (q.force c e).grid = placedCount q.grid + 1 := by
  have hfree : packetFree ps map q c = [e] := by
    rw [packetFree, freeEntries, hsearch, List.filter_cons_of_pos he, List.filter_nil]
  have hmem : e ∈ packetFree ps map q c := by
    rw [hfree]
    exact List.mem_singleton_self e
  have hchild : IsChild q c e (q.force c e) :=
    ⟨rfl, fun j => isFaceUsed_setFaceUsed _ _ _ _⟩
  have hcount := hchild.placedCount hq hmap hc hmem
  refine ⟨⟨hchild.wellFormed hq hmap hc hmem, fun c' hc' => ?_, ?_, by omega⟩, hcount⟩
  · have hne : c' ≠ c := fun heq => hc' (heq ▸ hc)
    rw [hchild.grid, Grid.place_of_ne hne]
  · rw [hchild.completions hq hmap hc hmem, hchild.grid, Grid.place_self]
    refine Set.sep_eq_self_iff_mem_true.mpr fun b hb => ?_
    have hb : b c ∈ (packetFree ps map q c).map (PuzzlePart.value P) :=
      (mem_packetFree hq hmap).mpr (Grid.IsCompletion.fits hb hc)
    rw [hfree] at hb
    simpa using hb

end Cell

/-- What one walk does to a well-formed packet. -/
structure ScanSpec (ps : PieceSet P) (map : MapBigArray) (cells : List (Cell P)) (q : Packet P)
    (forced : Bool) (r : ScanResult P) : Prop where
  refines : Refines ps q r.packet
  dead : r.result = false → r.packet.completions ps = ∅
  grows : r.forced = true → forced = true ∨ placedCount q.grid < placedCount r.packet.grid
  same : r.forced = false → r.packet = q ∧ forced = false
  alive : r.result = true → r.forced = false →
    ∀ c ∈ cells, q.constrainedEmpty ps map c = true → packetFree ps map q c ≠ []

theorem scanLoop_spec (hmap : MapOf ps map) (cells : List (Cell P)) {q : Packet P}
    (hq : q.WellFormed ps) (forced : Bool) (cellsStudied : Nat) :
    ScanSpec ps map cells q forced (scanLoop ps map cells q forced cellsStudied) := by
  induction cells generalizing q forced cellsStudied with
  | nil => exact ⟨.refl hq, by simp [scanLoop], fun h => .inl h, fun h => ⟨rfl, h⟩, by simp⟩
  | cons c cells ih =>
    rw [scanLoop]
    by_cases hc : q.grid c = -2
    · rw [if_neg (by simp [hc])]
      dsimp only
      rw [any_side_lt hq hmap]
      cases hun : (packetKey ps map q c).isUnconstrained map.sizearrayM with
      | true =>
        have h := ih hq forced (cellsStudied + 1)
        refine ⟨h.refines, h.dead, h.grows, h.same, fun hr hf => ?_⟩
        simp only [List.forall_mem_cons]
        exact ⟨by simp [Packet.constrainedEmpty, hun], h.alive hr hf⟩
      | false =>
        simp only [Bool.not_false, if_true]
        cases hfind : (map.getPartsBigarrayWithKey (packetKey ps map q c)).find?
            (isFreeEntry (isFaceUsed q.bFaceused)) with
        | none =>
          have hnil : packetFree ps map q c = [] := by
            rw [List.find?_eq_none] at hfind
            rw [packetFree, freeEntries, List.filter_eq_nil_iff]
            exact hfind
          simp only [scanCandidates, hfind]
          have hempty := Grid.completions_eq_empty hc ((packetFree_eq_nil hq hmap).mp hnil)
          exact ⟨.refl hq, fun _ => hempty, fun h => .inl h, fun h => ⟨rfl, h⟩, by simp⟩
        | some e =>
          have he := List.find?_some hfind
          have hmem := List.mem_of_find?_eq_some hfind
          have hlive : packetFree ps map q c ≠ [] :=
            List.ne_nil_of_mem (List.mem_filter.mpr ⟨hmem, he⟩)
          by_cases hlen : (map.getPartsBigarrayWithKey (packetKey ps map q c)).length = 1
          · simp only [scanCandidates, hfind, hlen, if_true, Bool.or_true]
            obtain ⟨e', he'⟩ := List.length_eq_one_iff.mp hlen
            obtain rfl : e = e' := by simpa [he'] using hmem
            obtain ⟨hforce, hcount⟩ := refines_force hq hmap hc he' he
            have h := ih hforce.wellFormed true (cellsStudied + 1)
            have hle := h.refines.placedCount_le
            refine ⟨hforce.trans h.refines, h.dead, fun _ => .inr (by omega), fun hf => ?_,
              fun _ hf => ?_⟩ <;> exact absurd (h.same hf).2 (by simp)
          · simp only [scanCandidates, hfind, hlen, if_false, Bool.or_false]
            have h := ih hq forced (cellsStudied + 1)
            refine ⟨h.refines, h.dead, h.grows, h.same, fun hr hf => ?_⟩
            simp only [List.forall_mem_cons]
            exact ⟨fun _ => hlive, h.alive hr hf⟩
    · rw [if_pos hc]
      have h := ih hq forced cellsStudied
      refine ⟨h.refines, h.dead, h.grows, h.same, fun hr hf => ?_⟩
      simp only [List.forall_mem_cons]
      exact ⟨by simp [Packet.constrainedEmpty, hc], h.alive hr hf⟩

end ScanSpec

/-! ## The fixpoint -/

section Passes

variable {P : Puzzle} {ps : PieceSet P} {map : MapBigArray}

/-- What the repeated walks do to a well-formed packet. -/
structure PassesSpec (ps : PieceSet P) (map : MapBigArray) (q : Packet P) (anyForced : Bool)
    (r : ScanResult P) : Prop where
  refines : Refines ps q r.packet
  dead : r.result = false → r.packet.completions ps = ∅
  same : r.forced = false → r.packet = q ∧ anyForced = false
  alive : r.result = true → r.packet.hasDeadCell ps map = false

/-- A walk that forces nothing and succeeds has looked at every empty cell. -/
private theorem hasDeadCell_of_scan {q : Packet P} {r : ScanResult P}
    (h : ScanSpec ps map (Cell.path P) q false r) (hr : r.result = true) (hf : r.forced = false) :
    r.packet.hasDeadCell ps map = false := by
  rw [(h.same hf).1, ← Bool.not_eq_true, Packet.hasDeadCell_iff]
  rintro ⟨c, hc, hnil⟩
  exact h.alive hr hf c (Cell.mem_path c) hc hnil

/-- Every forced walk fills a cell, so one more walk than there are cells is enough. -/
theorem scanPasses_spec (hmap : MapOf ps map) (fuel : Nat) {q : Packet P} (hq : q.WellFormed ps)
    (anyForced : Bool) (cellsStudied : Nat) (hfuel : P.eternParts < fuel + placedCount q.grid) :
    ∃ r, scanPasses ps map fuel q anyForced cellsStudied = some r ∧
      PassesSpec ps map q anyForced r := by
  induction fuel generalizing q anyForced cellsStudied with
  | zero =>
    have hle := placedCount_le q.grid
    omega
  | succ fuel ih =>
    have h := scanLoop_spec hmap (Cell.path P) hq false cellsStudied
    rw [scanPasses]
    generalize scanLoop ps map (Cell.path P) q false cellsStudied = pass at h
    by_cases hagain : (pass.result && pass.forced) = true
    · obtain ⟨hr, hf⟩ := Bool.and_eq_true_iff.mp hagain
      have hgrows := (h.grows hf).resolve_left (by simp)
      obtain ⟨r, hrun, hspec⟩ := ih h.refines.wellFormed true pass.cellsStudied (by omega)
      refine ⟨r, (if_pos hagain).trans hrun, h.refines.trans hspec.refines, hspec.dead, fun hf => ?_,
        hspec.alive⟩
      exact absurd (hspec.same hf).2 (by simp)
    · refine ⟨_, if_neg hagain, h.refines, h.dead, fun hany => ?_, fun hr => ?_⟩
      · obtain ⟨hany, hf⟩ := Bool.or_eq_false_iff.mp hany
        exact ⟨(h.same hf).1, hany⟩
      · have hr : pass.result = true := hr
        have hf : pass.forced = false := by simpa [hr] using hagain
        have hlive := hasDeadCell_of_scan h hr hf
        exact hlive

/-- More fuel does not change the outcome. -/
theorem scanPasses_mono {fuel fuel' : Nat} (hle : fuel ≤ fuel') {q : Packet P} {anyForced : Bool}
    {cellsStudied : Nat} {r : ScanResult P}
    (h : scanPasses ps map fuel q anyForced cellsStudied = some r) :
    scanPasses ps map fuel' q anyForced cellsStudied = some r := by
  induction fuel generalizing fuel' q anyForced cellsStudied with
  | zero => exact absurd h (by simp [scanPasses])
  | succ fuel ih =>
    obtain ⟨k, rfl⟩ : ∃ k, fuel' = k + 1 := ⟨fuel' - 1, by omega⟩
    rw [scanPasses] at h ⊢
    split
    · rename_i hagain
      rw [if_pos hagain] at h
      exact ih (by omega) h
    · rename_i hagain
      rwa [if_neg hagain] at h

/-- What `possibility_all_has_a_next_counted` does to a well-formed packet. -/
structure AllHasANextSpec (ps : PieceSet P) (map : MapBigArray) (q : Packet P) (r : ScanResult P) :
    Prop where
  wellFormed : r.packet.WellFormed ps
  extends_ : ∀ c, q.grid c ≠ -2 → r.packet.grid c = q.grid c
  completions : r.packet.completions ps = q.completions ps
  dead : r.result = false → q.completions ps = ∅
  alloc : r.packet.grid ≠ q.grid → r.packet.alloc.toNat = placedCount r.packet.grid
  alive : r.result = true → r.packet.hasDeadCell ps map = false
  same : r.packet.grid = q.grid → r.packet = q ∨ r.packet.alloc.toNat = placedCount r.packet.grid

theorem possibilityAllHasANextCounted_spec (hmap : MapOf ps map) {q : Packet P}
    (hq : q.WellFormed ps) :
    ∃ r, (∀ fuel, P.eternParts < fuel → possibilityAllHasANextCounted ps map fuel q = some r) ∧
      AllHasANextSpec ps map q r := by
  obtain ⟨r, hrun, h⟩ := scanPasses_spec hmap (P.eternParts + 1) hq false 0 (by omega)
  have hrun' : ∀ fuel, P.eternParts < fuel → scanPasses ps map fuel q false 0 = some r :=
    fun fuel hfuel => scanPasses_mono hfuel hrun
  have hdead : r.result = false → q.completions ps = ∅ := fun hr => by
    rw [← h.refines.completions, h.dead hr]
  have hparts := P.eternParts_le
  cases hforced : r.forced with
  | false =>
    refine ⟨r, fun fuel hfuel => by simp [possibilityAllHasANextCounted, hrun' fuel hfuel, hforced], ?_⟩
    have hsame := (h.same hforced).1
    exact ⟨h.refines.wellFormed, h.refines.extends_, h.refines.completions, hdead,
      fun hne => absurd (by rw [hsame]) hne, h.alive, fun _ => .inl hsame⟩
  | true =>
    have halloc : (UInt16.ofNat (placedCount r.packet.grid)).toNat = placedCount r.packet.grid := by
      have hle := placedCount_le r.packet.grid
      rw [UInt16.toNat_ofNat', Nat.mod_eq_of_lt (by omega)]
    refine ⟨_, fun fuel hfuel => by
      simp only [possibilityAllHasANextCounted, hrun' fuel hfuel, Option.map_some, hforced, if_true]
      rfl, ?_⟩
    exact ⟨⟨h.refines.wellFormed.grid, h.refines.wellFormed.mask⟩, h.refines.extends_,
      h.refines.completions, hdead, fun _ => halloc, h.alive, fun _ => .inr halloc⟩

/-- `possibility_all_has_a_next_counted` terminates, only fails on packets without completion,
and otherwise leaves an equivalent well-formed packet without dead cells. -/
theorem possibilityAllHasANextCounted_correct (ps : PieceSet P) (al : MapAllocs) (p : Packet P)
    (hp : p.WellFormed ps) :
    ∃ r, (∀ fuel, P.eternParts < fuel →
        possibilityAllHasANextCounted ps (prepareMapPart ps al) fuel p = some r) ∧
      (r.result = false → p.completions ps = ∅) ∧
      (r.result = true →
        r.packet.WellFormed ps ∧
        (∀ c, p.grid c ≠ -2 → r.packet.grid c = p.grid c) ∧
        r.packet.completions ps = p.completions ps ∧
        (r.packet.grid ≠ p.grid → r.packet.alloc.toNat = placedCount r.packet.grid) ∧
        r.packet.hasDeadCell ps (prepareMapPart ps al) = false) := by
  obtain ⟨r, hrun, h⟩ := possibilityAllHasANextCounted_spec (mapOf_prepareMapPart ps al) hp
  exact ⟨r, hrun, h.dead, fun hr => ⟨h.wellFormed, h.extends_, h.completions, h.alloc, h.alive hr⟩⟩

/-- Forcing on the empty board of the frame set. -/
theorem possibilityAllHasANextCounted_correct_frame :
    ∃ r, (∀ fuel, Puzzle.p64.eternParts < fuel →
        possibilityAllHasANextCounted (Frame.pieces .p64)
          (prepareMapPart (Frame.pieces .p64) ⟨true, fun _ => true, true, true⟩) fuel
          (Frame.packet fun c => c.1.val < 7) = some r) ∧
      (r.result = false →
        (Frame.packet fun c => c.1.val < 7).completions (Frame.pieces .p64) = ∅) ∧
      (r.result = true →
        r.packet.WellFormed (Frame.pieces .p64) ∧
        (∀ c, (Frame.packet fun c => c.1.val < 7).grid c ≠ -2 →
          r.packet.grid c = (Frame.packet fun c => c.1.val < 7).grid c) ∧
        r.packet.completions (Frame.pieces .p64) =
          (Frame.packet fun c => c.1.val < 7).completions (Frame.pieces .p64) ∧
        (r.packet.grid ≠ (Frame.packet fun c => c.1.val < 7).grid →
          r.packet.alloc.toNat = placedCount r.packet.grid) ∧
        r.packet.hasDeadCell (Frame.pieces .p64)
          (prepareMapPart (Frame.pieces .p64) ⟨true, fun _ => true, true, true⟩) = false) :=
  possibilityAllHasANextCounted_correct (Frame.pieces .p64) ⟨true, fun _ => true, true, true⟩
    (Frame.packet fun c => c.1.val < 7) (Frame.packet_wellFormed _)

end Passes
