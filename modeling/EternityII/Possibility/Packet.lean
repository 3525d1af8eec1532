-- SUMMARY: The possibility packet: its fields, the mask of used pieces, placed counts, well-formed packets.
import EternityII.Base.BitWords
import EternityII.Puzzle.Frame

/-!
# Possibility packets

A packet is a partial board on its way between the stock, the server and a search:
the grid, the mask `b_faceused` of the pieces on it, the count `alloc` of its filled
cells, the score `min_candidats` of the last choice and the pruner's flag `checked`.
-/

/-- `struct possibility_packet`. -/
structure Packet (P : Puzzle) where
  x : UInt8
  y : UInt8
  grid : Grid P
  alloc : UInt16
  minCandidats : Int16
  bFaceused : Words 16
  checked : UInt8

/-- `POSSIBILITY_MIN_CANDIDATS_UNKNOWN`. -/
def possibilityMinCandidatsUnknown : Int16 := -1

/-- `set_face_used`. -/
def setFaceUsed (faceused : Words 16) (part : Nat) (boolean : Bool) : Words 16 :=
  faceused.writeBit part boolean

/-- `is_face_used`. -/
def isFaceUsed (faceused : Words 16) (part : Nat) : Bool := faceused.bit part

@[simp] theorem isFaceUsed_setFaceUsed (faceused : Words 16) (part j : Nat) (b : Bool) :
    isFaceUsed (setFaceUsed faceused part b) j = if part = j then b else isFaceUsed faceused j :=
  Words.bit_writeBit (by decide) faceused part j b

/-- `possibility_placed_count`: the number of filled cells. -/
def placedCount {P : Puzzle} (g : Grid P) : Nat := (Cell.all P).countP fun c => g c ≠ -2

section PlacedCount

variable {P : Puzzle} {g : Grid P}

theorem placedCount_le (g : Grid P) : placedCount g ≤ P.eternParts := by
  rw [placedCount, ← Cell.length_all P]
  exact List.countP_le_length

/-- The count reaches `ETERN_PARTS` exactly on full boards. -/
theorem placedCount_eq_iff : placedCount g = P.eternParts ↔ ∀ c, g c ≠ -2 := by
  rw [placedCount, ← Cell.length_all P, List.countP_eq_length]
  simp

theorem placedCount_place {c : Cell P} {v : Int} (hc : g c = -2) (hv : v ≠ -2) :
    placedCount (g.place c v) = placedCount g + 1 := by
  obtain ⟨l₁, l₂, hl⟩ := List.append_of_mem (Cell.mem_all c)
  have hnodup := Cell.nodup_all P
  rw [hl, List.nodup_append, List.nodup_cons] at hnodup
  obtain ⟨-, ⟨hc₂, -⟩, hdisj⟩ := hnodup
  have hc₁ : c ∉ l₁ := fun h => hdisj c h c List.mem_cons_self rfl
  have hcongr : ∀ l : List (Cell P), c ∉ l →
      (l.countP fun c' => decide (g.place c v c' ≠ -2)) = l.countP fun c' => decide (g c' ≠ -2) :=
    fun l hl => List.countP_congr fun c' hc' => by
      have hne : c' ≠ c := fun heq => hl (heq ▸ hc')
      rw [Grid.place_of_ne hne]
  rw [placedCount, placedCount, hl, List.countP_append, List.countP_append, List.countP_cons,
    List.countP_cons, hcongr l₁ hc₁, hcongr l₂ hc₂, Grid.place_self, hc]
  simp only [hv, ne_eq, not_false_eq_true, decide_true, if_true, not_true_eq_false, decide_false]
  simp
  omega

end PlacedCount

/-! ## The mask of used pieces -/

/-- Bit `id - 1` is set exactly for the identifiers on the grid. -/
def MaskOf {P : Puzzle} (g : Grid P) (used : Nat → Bool) : Prop :=
  ∀ i, 1 ≤ i → i ≤ P.eternParts → (used (i - 1) = true ↔ ∃ c, g c ≠ -2 ∧ pieceId P (g c) = i)

section MaskOf

variable {P : Puzzle} {ps : PieceSet P} {g : Grid P} {used : Nat → Bool}

/-- A piece is unmarked exactly when no cell holds it. -/
theorem MaskOf.eq_false_iff (h : MaskOf g used) {v : Int} :
    used (pieceId P v - 1) = false ↔ ∀ c, g c ≠ -2 → pieceId P (g c) ≠ pieceId P v := by
  rw [← Bool.not_eq_true, h _ pieceId_pos pieceId_le]
  simp

theorem MaskOf.place (h : MaskOf g used) {c : Cell P} (hc : g c = -2) {v : Int} (hv : v ≠ -2)
    {used' : Nat → Bool} (hused : ∀ j, used' j = if pieceId P v - 1 = j then true else used j) :
    MaskOf (g.place c v) used' := by
  intro i hi hi'
  have hpos := pieceId_pos (P := P) (v := v)
  rw [hused]
  by_cases heq : pieceId P v = i
  · subst heq
    simp only [if_true, true_iff]
    exact ⟨c, by rwa [Grid.place_self], by rw [Grid.place_self]⟩
  · rw [if_neg (by omega), h i hi hi']
    constructor
    · rintro ⟨c', he, hid⟩
      have hne : c' ≠ c := fun heq => he (heq ▸ hc)
      exact ⟨c', by rwa [Grid.place_of_ne hne], by rwa [Grid.place_of_ne hne]⟩
    · rintro ⟨c', he, hid⟩
      by_cases hne : c' = c
      · subst hne
        rw [Grid.place_self] at hid
        exact absurd hid heq
      · rw [Grid.place_of_ne hne] at he hid
        exact ⟨c', he, hid⟩

/-- Taking back a piece clears its bit. -/
theorem MaskOf.unplace {used used' : Nat → Bool} {c : Cell P} {v : Int} (h : MaskOf (g.place c v) used)
    (hc : g c = -2) (hfits : Grid.Fits ps g c v)
    (hused : ∀ j, used' j = if pieceId P v - 1 = j then false else used j) : MaskOf g used' := by
  intro i hi hi'
  have hpos := pieceId_pos (P := P) (v := v)
  rw [hused]
  by_cases heq : pieceId P v = i
  · subst heq
    simp only [if_true, Bool.false_eq_true, false_iff, not_exists, not_and]
    exact hfits.free
  · rw [if_neg (by omega), h i hi hi']
    constructor
    · rintro ⟨c', he, hid⟩
      have hne : c' ≠ c := by
        rintro rfl
        rw [Grid.place_self] at hid
        exact heq hid
      rw [Grid.place_of_ne hne] at he hid
      exact ⟨c', he, hid⟩
    · rintro ⟨c', he, hid⟩
      have hne : c' ≠ c := fun h => he (h ▸ hc)
      exact ⟨c', by rwa [Grid.place_of_ne hne], by rwa [Grid.place_of_ne hne]⟩

end MaskOf

/-- A packet whose grid is well formed and whose mask marks exactly the pieces on it. -/
structure Packet.WellFormed {P : Puzzle} (ps : PieceSet P) (p : Packet P) : Prop where
  grid : p.grid.WellFormed ps
  mask : MaskOf p.grid (isFaceUsed p.bFaceused)

/-- The completions of a packet are those of its grid. -/
def Packet.completions {P : Puzzle} (ps : PieceSet P) (p : Packet P) : Set (Grid P) :=
  p.grid.completions ps

/-! ## Building a packet -/

section Generate

variable {P : Puzzle}

/-- `generate_possibility_packet`: every placed piece is marked under its identifier less one. -/
def generatePossibilityPacket (x y : UInt8) (etern : Cell P → Option PuzzlePart) : Packet P where
  x := x
  y := y
  grid c :=
    match etern c with
    | some part => idForRotatedPart P part.id part.rotation
    | none => -2
  alloc := 0
  minCandidats := possibilityMinCandidatsUnknown
  bFaceused := (Cell.all P).foldl (fun faceused c =>
    match etern c with
    | some part => setFaceUsed faceused (part.id - 1) true
    | none => faceused) Words.zero
  checked := 0

private theorem isFaceUsed_foldl (etern : Cell P → Option PuzzlePart) (cells : List (Cell P))
    (faceused : Words 16) (j : Nat) :
    isFaceUsed (cells.foldl (fun faceused c =>
      match etern c with
      | some part => setFaceUsed faceused (part.id - 1) true
      | none => faceused) faceused) j = true ↔
      isFaceUsed faceused j = true ∨ ∃ c ∈ cells, ∃ part, etern c = some part ∧ part.id - 1 = j := by
  induction cells generalizing faceused with
  | nil => simp
  | cons c cells ih =>
    rw [List.foldl_cons, ih]
    simp only [List.mem_cons, exists_eq_or_imp]
    cases hc : etern c with
    | none => simp
    | some part =>
      simp only [isFaceUsed_setFaceUsed, Option.some.injEq, exists_eq_left']
      by_cases hj : part.id - 1 = j <;> simp [hj]

/-- The mask marks exactly the pieces placed. -/
theorem generatePossibilityPacket_mask {x y : UInt8} {etern : Cell P → Option PuzzlePart}
    (hid : ∀ c part, etern c = some part → 1 ≤ part.id ∧ part.id ≤ P.eternParts) :
    MaskOf (generatePossibilityPacket x y etern).grid
      (isFaceUsed (generatePossibilityPacket x y etern).bFaceused) := by
  intro i hi hi'
  have hzero : isFaceUsed Words.zero (i - 1) = false := Words.bit_zero _
  simp only [generatePossibilityPacket, isFaceUsed_foldl, hzero, Bool.false_eq_true, false_or,
    Cell.mem_all, true_and]
  constructor
  · rintro ⟨c, part, hc, hpart⟩
    obtain ⟨h₁, h₂⟩ := hid c part hc
    refine ⟨c, ?_, ?_⟩
    · simp only [hc]
      omega
    · simp only [hc]
      rw [pieceId_idForRotatedPart h₁ h₂]
      omega
  · rintro ⟨c, hne, hpiece⟩
    cases hc : etern c with
    | none => simp [hc] at hne
    | some part =>
      obtain ⟨h₁, h₂⟩ := hid c part hc
      simp only [hc] at hpiece
      rw [pieceId_idForRotatedPart h₁ h₂] at hpiece
      exact ⟨c, part, hc, by omega⟩

end Generate

/-! ## Packets of the frame set -/

namespace Frame

variable {P : Puzzle}

/-- The packet of a part of the frame set's solution. -/
def packet (keep : Cell P → Bool) : Packet P :=
  generatePossibilityPacket 0 0 fun c => if keep c then some (part P (c.pos + 1)) else none

theorem packet_grid (keep : Cell P → Bool) : (packet keep).grid = grid keep := by
  funext c
  cases h : keep c <;> simp [packet, generatePossibilityPacket, grid, h, value, part]

theorem packet_wellFormed (keep : Cell P → Bool) : (packet keep).WellFormed (pieces P) where
  grid := by
    rw [packet_grid]
    exact grid_wellFormed keep
  mask := generatePossibilityPacket_mask fun c p hp => by
    cases h : keep c <;> simp only [h, Bool.false_eq_true, if_false, if_true, reduceCtorEq,
      Option.some.injEq] at hp
    subst hp
    exact ⟨Nat.succ_pos _, c.pos_lt⟩

end Frame
