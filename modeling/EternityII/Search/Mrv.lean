-- SUMMARY: The dynamic choice of a cell: an empty cell, or a proof that the board is dead.
import EternityII.Possibility.Light
import EternityII.Search.Caches

/-!
# Choosing a cell

`mrv_choose_cell` looks at every empty cell with a constrained side, counts its free
candidates and takes the cell of the smallest key, in which the learned failure weights
outrank the number of constrained sides. `mrv_choose_cell_fast` does the same in one
comparison a cell when every compartment has its mask. Whatever the weights are, both take
an empty cell, or refuse a board that has no completion.
-/

/-! ## Free candidates from masks -/

/-- `map_mask_free_count`. -/
def mapMaskFreeCount (mask : Words 64) (words : Nat) (used : Words 64) : Nat :=
  ((List.range words).map fun w => (mask w &&& ~~~used w).popcount).sum

/-- `map_mask_any_free`. -/
def mapMaskAnyFree (mask : Words 64) (words : Nat) (used : Words 64) : Bool :=
  (List.range words).any fun w => mask w &&& ~~~used w ≠ 0#64

/-- The loop of `bt_forward_check_fast`: `any |= id_mask[k] & ~used[k]`. -/
def maskAny (mask : Words 64) (words : Nat) (used : Words 64) : BitVec 64 :=
  (List.range words).foldl (fun any k => any ||| (mask k &&& ~~~used k)) 0#64

/-- No identifier of the mask is free. -/
def MaskExhausted (mask : Words 64) (words : Nat) (used : Words 64) : Prop :=
  ∀ j < words * 64, mask.bit j = true → used.bit j = true

section Masks

variable {mask used : Words 64} {words : Nat}

private theorem maskExhausted_iff_words :
    MaskExhausted mask words used ↔ ∀ k < words, mask k &&& ~~~used k = 0#64 := by
  rw [Words.forall_eq_zero_iff (a := fun k => mask k &&& ~~~used k) (by decide), MaskExhausted]
  refine forall_congr' fun j => imp_congr_right fun _ => ?_
  rw [Words.bit_andNot (by decide)]
  cases mask.bit j <;> simp

/-- The count goes through all bits that are set in the mask and clear in the mirror. -/
private theorem mapMaskFreeCount_eq : mapMaskFreeCount mask words used =
    (List.range (words * 64)).countP fun j => mask.bit j && !used.bit j := by
  rw [mapMaskFreeCount, Words.sum_popcount (w := 64) (by decide) (fun w => mask w &&& ~~~used w) words]
  exact List.countP_congr fun j _ => by rw [Words.bit_andNot (by decide)]

theorem mapMaskFreeCount_eq_zero : mapMaskFreeCount mask words used = 0 ↔ MaskExhausted mask words used := by
  rw [mapMaskFreeCount_eq, List.countP_eq_zero]
  simp only [List.mem_range, Bool.and_eq_true, Bool.not_eq_true', not_and, Bool.not_eq_false]
  rfl

theorem mapMaskAnyFree_eq_false :
    mapMaskAnyFree mask words used = false ↔ MaskExhausted mask words used := by
  rw [maskExhausted_iff_words, mapMaskAnyFree, List.any_eq_false]
  simp

private theorem foldl_or_eq_zero (x : Nat → BitVec 64) (l : List Nat) (a : BitVec 64) :
    l.foldl (fun any k => any ||| x k) a = 0#64 ↔ a = 0#64 ∧ ∀ k ∈ l, x k = 0#64 := by
  induction l generalizing a with
  | nil => simp
  | cons k l ih =>
    rw [List.foldl_cons, ih, List.forall_mem_cons, BitVec.or_eq_zero_iff, and_assoc]

theorem maskAny_eq_zero : maskAny mask words used = 0#64 ↔ MaskExhausted mask words used := by
  rw [maskExhausted_iff_words, maskAny, foldl_or_eq_zero]
  simp

theorem mapMaskFreeCount_le : mapMaskFreeCount mask words used ≤ words * 64 := by
  rw [mapMaskFreeCount_eq]
  refine List.countP_le_length.trans ?_
  rw [List.length_range]

end Masks

section Resolve

variable {P : Puzzle} {ps : PieceSet P} {map : MapBigArray}

/-- The entries of a compartment are entries of the rotation table. -/
theorem mem_rotateAllPartsList_of_mem_bucket (hmap : MapOf ps map) {key : KeyPart}
    (hkey : key.InRange (map.sizearrayM + 1)) {e : PuzzlePart} (he : e ∈ map.getPartsBigarrayWithKey key) :
    e ∈ rotateAllPartsList ps :=
  (KeyPart.mem_matching.mp ((hmap.bucket_perm key hkey).mem_iff.mp he)).1

/-- An identifier of the rotation table is one of the pieces. -/
theorem id_le_of_mem {e : PuzzlePart} (he : e ∈ rotateAllPartsList ps) : e.id ≤ P.eternParts := by
  by_cases hid : e.id = 0
  · omega
  · have h := pieceId_le (P := P) (v := e.value P)
    rwa [(rotateAllParts_value he hid).2.1] at h

/-- The mask a cell is given holds the identifiers of its compartment. -/
theorem btMaskResolve_spec (hmap : MapOf ps map) {key : KeyPart}
    (hkey : key.InRange (map.sizearrayM + 1)) {mask : Words 64} (h : btMaskResolve map key = some mask) :
    (∀ p ∈ map.getPartsBigarrayWithKey key, p.id ≤ map.idMaskWords * 64) ∧
      ∀ j < map.idMaskWords * 64,
        mask.bit j = true ↔ ∃ p ∈ map.getPartsBigarrayWithKey key, p.id = j + 1 := by
  unfold btMaskResolve at h
  cases hid : map.mapBucketIdMask key with
  | some mask' =>
    simp only [hid, Option.some.injEq] at h
    subst h
    exact hmap.idMask_eq key mask' hkey hid
  | none =>
    simp only [hid, Option.ite_none_right_eq_some, Bool.and_eq_true, Option.some.injEq,
      Option.isSome_iff_exists] at h
    obtain ⟨⟨⟨masks, hmasks⟩, packed, hpacked⟩, rfl⟩ := h
    -- A compartment without a mask of its own, in a map that has masks, is empty.
    have hnil : map.getPartsBigarrayWithKey key = [] := by
      have hsize : packed (flatIndex map.sizearray key) &&& mapPackedFieldMax = 0 := by
        simpa [MapBigArray.mapBucketIdMask, hmasks, hpacked] using hid
      rw [← hmap.packed_eq key hkey, MapBigArray.mapBucketPacked, hpacked]
      simp [packedParts, hsize]
    simp [hnil]

/-- A map with masks gives every cell one. -/
theorem btMaskResolve_isSome (h : btMasksComplete P map = true) (key : KeyPart) :
    (btMaskResolve map key).isSome = true := by
  simp only [btMasksComplete, Bool.and_eq_true] at h
  unfold btMaskResolve
  cases map.mapBucketIdMask key <;> simp [h.1.1, h.1.2]

/-- A mask is exhausted exactly when the compartment has no free entry. -/
theorem maskExhausted_iff (hmap : MapOf ps map) {key : KeyPart}
    (hkey : key.InRange (map.sizearrayM + 1)) {mask : Words 64} (h : btMaskResolve map key = some mask)
    {used : Words 64} {board : Packet P} (hused : UsedOf used board) :
    MaskExhausted mask map.idMaskWords used ↔
      freeEntries map (isFaceUsed board.bFaceused) key = [] := by
  obtain ⟨hle, hbit⟩ := btMaskResolve_spec hmap hkey h
  rw [freeEntries, List.filter_eq_nil_iff]
  constructor
  · intro hex p hp hfree
    rw [isFreeEntry_iff] at hfree
    have hlt := hle p hp
    have hparts := id_le_of_mem (mem_rotateAllPartsList_of_mem_bucket hmap hkey hp)
    have hset : used.bit (p.id - 1) = true :=
      hex (p.id - 1) (by omega) ((hbit _ (by omega)).mpr ⟨p, hp, by omega⟩)
    rw [hused.bit (by omega), hfree.2] at hset
    exact absurd hset (by decide)
  · intro hnone j hj hset
    obtain ⟨p, hp, hid⟩ := (hbit j hj).mp hset
    have hparts := id_le_of_mem (mem_rotateAllPartsList_of_mem_bucket hmap hkey hp)
    have hnot := hnone p hp
    rw [isFreeEntry_iff, hid] at hnot
    rw [hused.bit (by omega)]
    simpa using hnot

end Resolve

/-! ## The choice -/

/-- `mrv_free_candidates`. Without a usable mask it walks over the entries. -/
def mrvFreeCandidates {P : Puzzle} (map : MapBigArray) (key : KeyPart) (board : Packet P)
    (used : Words 64) (mask : Option (Words 64)) : Nat :=
  match mask.filter fun _ => map.idMaskWords ≤ mrvUsedWords P with
  | some mask => mapMaskFreeCount mask map.idMaskWords used
  | none => (lightFreeCountLoop (isFaceUsed board.bFaceused) 0 (map.mapBucketPacked key) 0 0).1

/-- `MRV_KEY_NC_BITS`, which is also `MRV_KEY_COUNT_SHIFT`. -/
def mrvKeyCountShift : Nat := 3

/-- `MRV_KEY_LOW_BITS`. -/
def mrvKeyLowBits : Nat := mrvKeyCountShift + mrvPosBits

/-- `UINT32_MAX`, larger than any value of the fast choice. -/
def uint32Max : Nat := 4294967295

section Choose

variable {P : Puzzle} (map : MapBigArray) (st : BtState P)

/-- `mrv_finish_choice`: the cell with its score, or the first empty cell that no side
constrains. -/
def mrvFinishChoice (front : BtFrontier P) (best : Option (Cell P × Nat)) : Option (Cell P × Int16) :=
  match best with
  | some (c, count) => some (c, Int16.ofNat count)
  | none =>
    (frontierCells P fun w => front.empty w &&& ~~~front.constrained w).head?.map fun c =>
      (c, possibilityMinCandidatsUnknown)

/-- The reduction step of `mrv_choose_cell`: a strictly smaller key takes over. -/
def mrvBetter (best : Option (Nat × Cell P × Nat)) (cand : Nat × Cell P × Nat) :
    Option (Nat × Cell P × Nat) :=
  match best with
  | none => some cand
  | some best => if cand.1 < best.1 then some cand else some best

/-- The scan of `mrv_choose_cell`. `best` holds `best_key`, `best_pos` and `best_count`;
the result is `none` for a dead cell. -/
def mrvChooseLoop : List (Cell P) → Option (Nat × Cell P × Nat) → Option (Option (Cell P × Nat))
  | [], best => some (best.map Prod.snd)
  | c :: cells, best =>
    let count := mrvFreeCandidates map (st.constraints c) st.board st.used (st.cellMask c)
    if count = 0 then none
    else
      let key := ((count <<< st.frontier.wshl c) <<< mrvKeyCountShift) |||
        (mrvKeyNcMax - st.frontier.nconstr c)
      mrvChooseLoop cells (mrvBetter best (key, c, count))

/-- `mrv_choose_cell`: the cell and its score, `none` for 0. -/
def mrvChooseCell : Option (Cell P × Int16) :=
  let bits := fun w => st.frontier.empty w &&& st.frontier.constrained w
  match mrvChooseLoop map st (frontierCells P bits) none with
  | none => none
  | some best => mrvFinishChoice st.frontier best

/-- The candidates `mrv_choose_cell_fast` counts for a cell; its mask is never `NULL` there. -/
def mrvFastCount (c : Cell P) : Nat :=
  mapMaskFreeCount ((st.cellMask c).getD Words.zero) (btMaskWords P) st.used

/-- The value `mrv_choose_cell_fast` minimises: the score above `nc_key`. -/
def mrvFastValue (c : Cell P) : Nat :=
  ((mrvFastCount st c <<< st.frontier.wshl c) <<< mrvKeyLowBits) ||| st.frontier.ncKey c

/-- `mrv_choose_cell_fast`. -/
def mrvChooseCellFast : Option (Cell P × Int16) :=
  let bits := fun w => st.frontier.empty w &&& st.frontier.constrained w
  let best := (frontierCells P bits).foldl
    (fun best c => if mrvFastValue st c < best then mrvFastValue st c else best) uint32Max
  if best >>> mrvKeyLowBits = 0 then none
  else if best = uint32Max then mrvFinishChoice st.frontier none
  else
    let c := Cell.ofPos P (best &&& (2 ^ mrvPosBits - 1))
    mrvFinishChoice st.frontier (some (c, mrvFastCount st c))

/-- The choice as the search makes it; `fast` is `bt_masks_complete(map)`. -/
def mrvChoose (fast : Bool) : Option (Cell P × Int16) :=
  if fast then mrvChooseCellFast st else mrvChooseCell map st

end Choose

/-! ## What the choice says -/

/-- The best candidate so far is the new one or the old one. -/
private theorem mrvBetter_eq {P : Puzzle} (best : Option (Nat × Cell P × Nat))
    (cand : Nat × Cell P × Nat) :
    ∃ b, mrvBetter best cand = some b ∧ (b = cand ∨ best = some b) := by
  cases best with
  | none => exact ⟨cand, rfl, .inl rfl⟩
  | some best =>
    by_cases h : cand.1 < best.1
    · exact ⟨cand, if_pos h, .inl rfl⟩
    · exact ⟨best, if_neg h, .inr rfl⟩

/-- A choice is an empty cell; without one the board has no completion, or is full. -/
structure ChoiceSpec {P : Puzzle} (ps : PieceSet P) (board : Packet P) (r : Option (Cell P × Int16)) :
    Prop where
  empty : ∀ c score, r = some (c, score) → board.grid c = -2
  dead : r = none → board.completions ps = ∅ ∨ ∀ c, board.grid c ≠ -2

section Spec

variable {P : Puzzle} {ps : PieceSet P} {map : MapBigArray} {st : BtState P}
  (hst : st.Synced ps map) (hmap : MapOf ps map) (hwf : st.board.WellFormed ps)
include hst

theorem mem_frontier {c : Cell P} :
    c ∈ frontierCells P (fun w => st.frontier.empty w &&& st.frontier.constrained w) ↔
      st.board.grid c = -2 ∧ 0 < constrainedSides st.board.grid c := by
  rw [(hst.frontier.empty.and hst.frontier.counts.constrained).mem_frontierCells]
  simp

theorem mem_fallback {c : Cell P} :
    c ∈ frontierCells P (fun w => st.frontier.empty w &&& ~~~st.frontier.constrained w) ↔
      st.board.grid c = -2 ∧ constrainedSides st.board.grid c = 0 := by
  rw [(hst.frontier.empty.andNot hst.frontier.counts.constrained).mem_frontierCells]
  simp

/-- With an empty frontier the choice falls back on any empty cell there is. -/
theorem mrvFinishChoice_none (h : frontierCells P
    (fun w => st.frontier.empty w &&& st.frontier.constrained w) = []) :
    ChoiceSpec ps st.board (mrvFinishChoice st.frontier none) := by
  unfold mrvFinishChoice
  dsimp only
  cases hlist : frontierCells P fun w => st.frontier.empty w &&& ~~~st.frontier.constrained w with
  | nil =>
    refine ⟨by simp, fun _ => .inr fun c hc => ?_⟩
    by_cases hpos : 0 < constrainedSides st.board.grid c
    · have hmem := (mem_frontier hst).mpr ⟨hc, hpos⟩
      rw [h] at hmem
      exact absurd hmem List.not_mem_nil
    · have hmem := (mem_fallback hst).mpr ⟨hc, by omega⟩
      rw [hlist] at hmem
      exact absurd hmem List.not_mem_nil
  | cons c l =>
    refine ⟨fun c' score heq => ?_, by simp⟩
    simp only [List.head?_cons, Option.map_some, Option.some.injEq, Prod.mk.injEq] at heq
    have hmem := (mem_fallback (c := c) hst).mp (by rw [hlist]; exact List.mem_cons_self)
    rw [← heq.1]
    exact hmem.1

theorem constraints_eq (c : Cell P) : st.constraints c = packetKey ps map st.board c := by
  rw [hst.constraints]
  rfl

theorem cellMask_eq (c : Cell P) : st.cellMask c = btMaskResolve map (packetKey ps map st.board c) := by
  rw [hst.cellMask, btMaskInit, constraints_eq hst]

include hmap hwf

omit hst in
theorem packetKey_inRange (c : Cell P) :
    (packetKey ps map st.board c).InRange (map.sizearrayM + 1) :=
  whatSearchInGridToKey_inRange hwf.grid hmap

/-- The compartment of a cell, read through the compact index. -/
theorem mapBucketPacked_constraints (c : Cell P) :
    map.mapBucketPacked (st.constraints c) =
      map.getPartsBigarrayWithKey (packetKey ps map st.board c) := by
  rw [constraints_eq hst, hmap.packed_eq _ (packetKey_inRange hmap hwf c)]

theorem mrvFreeCandidates_eq_zero {c : Cell P} :
    mrvFreeCandidates map (st.constraints c) st.board st.used (st.cellMask c) = 0 ↔
      packetFree ps map st.board c = [] := by
  unfold mrvFreeCandidates
  split
  · rename_i mask hmask
    rw [Option.filter_eq_some_iff, cellMask_eq hst] at hmask
    rw [mapMaskFreeCount_eq_zero,
      maskExhausted_iff hmap (packetKey_inRange hmap hwf c) hmask.1 hst.used]
    rfl
  · rw [mapBucketPacked_constraints hst hmap hwf, lightFreeCountLoop_eq_zero]
    rfl

omit hst in
/-- An empty cell without a free candidate leaves no completion. -/
theorem completions_of_packetFree {c : Cell P} (hc : st.board.grid c = -2)
    (h : packetFree ps map st.board c = []) : st.board.completions ps = ∅ :=
  Grid.completions_eq_empty hc ((packetFree_eq_nil hwf hmap).mp h)

private theorem mrvChooseLoop_spec (cells : List (Cell P)) (hcells : ∀ c ∈ cells, st.board.grid c = -2)
    (best : Option (Nat × Cell P × Nat)) (hbest : ∀ b, best = some b → st.board.grid b.2.1 = -2) :
    (mrvChooseLoop map st cells best = none → st.board.completions ps = ∅) ∧
      (∀ r, mrvChooseLoop map st cells best = some r →
        (r = none → cells = [] ∧ best = none) ∧ ∀ b, r = some b → st.board.grid b.1 = -2) := by
  induction cells generalizing best with
  | nil =>
    refine ⟨by simp [mrvChooseLoop], fun r hr => ?_⟩
    simp only [mrvChooseLoop, Option.some.injEq] at hr
    subst hr
    refine ⟨by simp, fun b hb => ?_⟩
    obtain ⟨b', hb', rfl⟩ := Option.map_eq_some_iff.mp hb
    exact hbest b' hb'
  | cons c cells ih =>
    rw [List.forall_mem_cons] at hcells
    rw [mrvChooseLoop]
    dsimp only
    split
    · rename_i hzero
      refine ⟨fun _ => ?_, by simp⟩
      exact completions_of_packetFree hmap hwf hcells.1
        ((mrvFreeCandidates_eq_zero hst hmap hwf).mp hzero)
    · obtain ⟨b', hb', hfrom⟩ := mrvBetter_eq (P := P) best
        (((mrvFreeCandidates map (st.constraints c) st.board st.used (st.cellMask c) <<<
          st.frontier.wshl c) <<< mrvKeyCountShift) ||| (mrvKeyNcMax - st.frontier.nconstr c), c,
          mrvFreeCandidates map (st.constraints c) st.board st.used (st.cellMask c))
      rw [hb']
      have hempty : st.board.grid b'.2.1 = -2 := by
        rcases hfrom with rfl | hfrom
        · exact hcells.1
        · exact hbest b' hfrom
      obtain ⟨hdead, hfound⟩ := ih hcells.2 (some b') fun b hb => by
        rw [← Option.some.inj hb]
        exact hempty
      refine ⟨hdead, fun r hr => ⟨fun hnone => ?_, (hfound r hr).2⟩⟩
      exact absurd ((hfound r hr).1 hnone).2 (by simp)

theorem mrvChooseCell_spec : ChoiceSpec ps st.board (mrvChooseCell map st) := by
  have hcells := fun c hc => ((mem_frontier (c := c) hst).mp hc).1
  obtain ⟨hdead, hfound⟩ := mrvChooseLoop_spec hst hmap hwf _ hcells none (by simp)
  unfold mrvChooseCell
  dsimp only
  cases hloop : mrvChooseLoop map st
      (frontierCells P fun w => st.frontier.empty w &&& st.frontier.constrained w) none with
  | none => exact ⟨by simp, fun _ => .inl (hdead hloop)⟩
  | some best =>
    obtain ⟨hnone, hsome⟩ := hfound best hloop
    cases best with
    | none => exact mrvFinishChoice_none hst (hnone rfl).1
    | some b =>
      refine ⟨fun c score heq => ?_, by simp [mrvFinishChoice]⟩
      simp only [mrvFinishChoice, Option.some.injEq, Prod.mk.injEq] at heq
      rw [← heq.1]
      exact hsome b rfl

end Spec

/-! ## The fast choice -/

section Fast

/-- The minimum a scan keeps is its start or one of the values, and none is smaller. -/
theorem foldl_min_spec {α : Type*} (f : α → Nat) (l : List α) (m : Nat) :
    let r := l.foldl (fun best c => if f c < best then f c else best) m
    (r = m ∨ ∃ c ∈ l, r = f c) ∧ r ≤ m ∧ ∀ c ∈ l, r ≤ f c := by
  induction l generalizing m with
  | nil => simp
  | cons c l ih =>
    obtain ⟨hfrom, hle, hmin⟩ := ih (if f c < m then f c else m)
    rw [List.foldl_cons]
    have hm : (if f c < m then f c else m) ≤ m ∧ (if f c < m then f c else m) ≤ f c := by
      split <;> omega
    refine ⟨?_, hle.trans hm.1, fun c' hc' => ?_⟩
    · rcases hfrom with hfrom | ⟨c', hc', hfrom⟩
      · by_cases hlt : f c < m
        · exact .inr ⟨c, List.mem_cons_self, hfrom.trans (if_pos hlt)⟩
        · exact .inl (hfrom.trans (if_neg hlt))
      · exact .inr ⟨c', List.mem_cons_of_mem _ hc', hfrom⟩
    · rcases List.mem_cons.mp hc' with rfl | hc'
      · exact hle.trans hm.2
      · exact hmin c' hc'

variable {P : Puzzle} {ps : PieceSet P} {map : MapBigArray} {st : BtState P}

theorem btNcKey_eq (c : Cell P) (n : Nat) : btNcKey c.pos n = (mrvKeyNcMax - n) * 256 + c.pos := by
  have hpos := c.pos_lt
  have hparts := P.eternParts_le
  rw [btNcKey, mrvPosBits, ← Nat.shiftLeft_add_eq_or_of_lt (by omega), Nat.shiftLeft_eq]

/-- The score stands above the key of the constrained sides, and the position below it. -/
theorem mrvFastValue_eq (hst : st.Synced ps map) (c : Cell P) :
    mrvFastValue st c = mrvFastCount st c * 2 ^ st.frontier.wshl c * 2048 +
      ((mrvKeyNcMax - constrainedSides st.board.grid c) * 256 + c.pos) ∧
      (mrvKeyNcMax - constrainedSides st.board.grid c) * 256 + c.pos < 2048 := by
  have hpos := c.pos_lt
  have hparts := P.eternParts_le
  have hlow : (mrvKeyNcMax - constrainedSides st.board.grid c) * 256 + c.pos < 2048 := by
    unfold mrvKeyNcMax
    omega
  refine ⟨?_, hlow⟩
  rw [mrvFastValue, hst.frontier.counts.ncKey, btNcKey_eq, mrvKeyLowBits, mrvKeyCountShift, mrvPosBits,
    ← Nat.shiftLeft_add_eq_or_of_lt (by omega), Nat.shiftLeft_eq, Nat.shiftLeft_eq]

theorem mrvFastValue_score (hst : st.Synced ps map) (c : Cell P) :
    mrvFastValue st c >>> mrvKeyLowBits = mrvFastCount st c * 2 ^ st.frontier.wshl c := by
  obtain ⟨hvalue, hlow⟩ := mrvFastValue_eq hst c
  rw [mrvKeyLowBits, mrvKeyCountShift, mrvPosBits, Nat.shiftRight_eq_div_pow, hvalue]
  omega

theorem mrvFastValue_cell (hst : st.Synced ps map) (c : Cell P) :
    Cell.ofPos P (mrvFastValue st c &&& (2 ^ mrvPosBits - 1)) = c := by
  obtain ⟨hvalue, -⟩ := mrvFastValue_eq hst c
  have hpos := c.pos_lt
  have hparts := P.eternParts_le
  have hmod : mrvFastValue st c % 2 ^ 8 = c.pos := by omega
  rw [mrvPosBits, Nat.and_two_pow_sub_one_eq_mod, hmod, Cell.ofPos_pos]

theorem mrvFastValue_lt (hst : st.Synced ps map) (c : Cell P) : mrvFastValue st c < uint32Max := by
  obtain ⟨hvalue, hlow⟩ := mrvFastValue_eq hst c
  have hcount : mrvFastCount st c ≤ 256 := by
    have hle : mrvFastCount st c ≤ btMaskWords P * 64 := mapMaskFreeCount_le
    have hwords : btMaskWords P * 64 ≤ 256 := by cases P <;> decide
    omega
  have hshift : 2 ^ st.frontier.wshl c ≤ 2 ^ 4 := by
    refine Nat.pow_le_pow_right (by decide) ?_
    rw [hst.frontier.wshl]
    exact mrvWdegShl_le _
  have hscore : mrvFastCount st c * 2 ^ st.frontier.wshl c ≤ 256 * 2 ^ 4 := Nat.mul_le_mul hcount hshift
  unfold uint32Max
  omega

variable (hst : st.Synced ps map) (hmap : MapOf ps map) (hwf : st.board.WellFormed ps)
include hst hmap hwf

/-- On the fast path the cached mask of a cell has the width the scan assumes. -/
theorem maskExhausted_fast (h : btMasksComplete P map = true) (c : Cell P) :
    MaskExhausted ((st.cellMask c).getD Words.zero) (btMaskWords P) st.used ↔
      packetFree ps map st.board c = [] := by
  have hwords : map.idMaskWords = btMaskWords P := by
    rw [btMasksComplete, Bool.and_eq_true, decide_eq_true_iff] at h
    exact h.2
  obtain ⟨mask, hmask⟩ := Option.isSome_iff_exists.mp
    (btMaskResolve_isSome h (packetKey ps map st.board c))
  rw [cellMask_eq hst, hmask, Option.getD_some, ← hwords,
    maskExhausted_iff hmap (packetKey_inRange hmap hwf c) hmask hst.used]
  rfl

theorem mrvChooseCellFast_spec (h : btMasksComplete P map = true) :
    ChoiceSpec ps st.board (mrvChooseCellFast st) := by
  unfold mrvChooseCellFast
  dsimp only
  obtain ⟨hfrom, -, hmin⟩ := foldl_min_spec (mrvFastValue st)
    (frontierCells P fun w => st.frontier.empty w &&& st.frontier.constrained w) uint32Max
  set best := List.foldl _ uint32Max _
  split
  · rename_i hzero
    refine ⟨by simp, fun _ => .inl ?_⟩
    rcases hfrom with hfrom | ⟨c, hc, hfrom⟩
    · rw [hfrom] at hzero
      exact absurd hzero (by decide)
    · rw [hfrom, mrvFastValue_score hst] at hzero
      have hcount : mrvFastCount st c = 0 :=
        (Nat.mul_eq_zero.mp hzero).resolve_right (Nat.pos_iff_ne_zero.mp (Nat.two_pow_pos _))
      rw [mrvFastCount, mapMaskFreeCount_eq_zero, maskExhausted_fast hst hmap hwf h] at hcount
      exact completions_of_packetFree hmap hwf ((mem_frontier hst).mp hc).1 hcount
  · split
    · rename_i hmax
      -- No value reaches `UINT32_MAX`, so nothing was scanned.
      refine mrvFinishChoice_none hst (List.eq_nil_iff_forall_not_mem.mpr fun c hc => ?_)
      have hle := hmin c hc
      have hlt := mrvFastValue_lt hst c
      omega
    · rename_i hne
      obtain ⟨c, hc, hbest⟩ := hfrom.resolve_left hne
      refine ⟨fun c' score heq => ?_, by simp [mrvFinishChoice]⟩
      simp only [mrvFinishChoice, Option.some.injEq, Prod.mk.injEq] at heq
      rw [← heq.1, hbest, mrvFastValue_cell hst]
      exact ((mem_frontier hst).mp hc).1

/-- Fast or generic, the choice is an empty cell or proves that there is nothing to find. -/
theorem mrvChoose_spec {fast : Bool} (hfast : fast = true → btMasksComplete P map = true) :
    ChoiceSpec ps st.board (mrvChoose map st fast) := by
  unfold mrvChoose
  split
  · rename_i h
    exact mrvChooseCellFast_spec hst hmap hwf (hfast h)
  · exact mrvChooseCell_spec hst hmap hwf

end Fast
