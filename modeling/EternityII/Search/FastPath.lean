-- SUMMARY: On a map with all its masks the fast path explores the same tree as the generic one.
import EternityII.Search.HandOver

/-!
# The fast path

When every compartment has its mask the search runs `mrv_choose_cell_fast` and
`bt_forward_check_fast`, which read nothing but the masks. The fast choice packs score, constrained
sides and position into one value and does not leave its scan at a dead cell. The cells come in
increasing position, so the least value belongs to the cell that the strict comparison of the generic
choice keeps.
-/

section Choice

variable {P : Puzzle} {ps : PieceSet P} {map : MapBigArray} {st : BtState P}

/-! ## The same candidates -/

/-- The cells of a set are scanned in increasing position. -/
theorem Marks.pairwise_frontierCells {a : Words 64} {p : Cell P → Bool} (h : Marks a p) :
    (frontierCells P a).Pairwise fun c c' => c.pos < c'.pos := by
  rw [frontierCells, List.pairwise_map]
  apply (a.pairwise_members _).imp_of_mem
  intro j j' hj hj' hlt
  have hpos : ∀ {i : Nat}, i ∈ a.members (btFrontierWords P) → (Cell.ofPos P i).pos = i := by
    intro i hi
    have hbit := ((Words.mem_members (by decide)).mp hi).2
    rw [h, Bool.and_eq_true, decide_eq_true_iff] at hbit
    exact Cell.pos_ofPos hbit.1
  rw [hpos hj, hpos hj']
  exact hlt

theorem idMaskWords_of_complete (h : btMasksComplete P map = true) : map.idMaskWords = btMaskWords P := by
  rw [btMasksComplete, Bool.and_eq_true, decide_eq_true_iff] at h
  exact h.2

/-- No mask is wider than the mirror of the used pieces. -/
theorem btMaskWords_le (P : Puzzle) : btMaskWords P ≤ mrvUsedWords P := by
  cases P <;> decide

variable (hst : st.Synced ps map) (h : btMasksComplete P map = true)
include hst h

theorem exists_cellMask (c : Cell P) : ∃ mask, st.cellMask c = some mask := by
  rw [hst.cellMask]
  exact Option.isSome_iff_exists.mp (btMaskResolve_isSome h (st.constraints c))

/-- The generic path reads the mask that the fast path takes for granted. -/
theorem filter_cellMask (c : Cell P) :
    ((st.cellMask c).filter fun _ => map.idMaskWords ≤ mrvUsedWords P) =
      some ((st.cellMask c).getD Words.zero) := by
  obtain ⟨mask, hmask⟩ := exists_cellMask hst h c
  rw [hmask, Option.filter_some, idMaskWords_of_complete h, decide_eq_true (btMaskWords_le P)]
  rfl

theorem mrvFreeCandidates_fast (c : Cell P) :
    mrvFreeCandidates map (st.constraints c) st.board st.used (st.cellMask c) = mrvFastCount st c := by
  rw [mrvFreeCandidates, filter_cellMask hst h, idMaskWords_of_complete h]
  rfl

/-! ## The same choice -/

/-- The key `mrv_choose_cell` compares. -/
def mrvKey (st : BtState P) (c : Cell P) : Nat :=
  ((mrvFastCount st c <<< st.frontier.wshl c) <<< mrvKeyCountShift) ||| (mrvKeyNcMax - st.frontier.nconstr c)

omit h in
/-- The value of the fast choice is the key with the position below it. -/
theorem mrvFastValue_eq_key (c : Cell P) : mrvFastValue st c = mrvKey st c * 256 + c.pos := by
  obtain ⟨hvalue, -⟩ := mrvFastValue_eq hst c
  have hkey : mrvKey st c = mrvFastCount st c * 2 ^ st.frontier.wshl c * 8 +
      (mrvKeyNcMax - constrainedSides st.board.grid c) := by
    have hlow : mrvKeyNcMax - constrainedSides st.board.grid c < 2 ^ mrvKeyCountShift := by
      rw [mrvKeyNcMax, mrvKeyCountShift]
      omega
    rw [mrvKey, hst.frontier.counts.nconstr, ← Nat.shiftLeft_add_eq_or_of_lt hlow, Nat.shiftLeft_eq, Nat.shiftLeft_eq,
      mrvKeyCountShift]
  rw [hvalue, hkey]
  omega

/-- The running best of the generic scan beside the running minimum of the fast one. -/
inductive SameBest (st : BtState P) : Option (Nat × Cell P × Nat) → Nat → Prop
  | none : SameBest st Option.none uint32Max
  | some (c : Cell P) : SameBest st (Option.some (mrvKey st c, c, mrvFastCount st c)) (mrvFastValue st c)

omit h in
/-- A later cell takes over in both scans or in neither. -/
theorem SameBest.step {best : Option (Nat × Cell P × Nat)} {m : Nat} (hbest : SameBest st best m) {c : Cell P}
    (hbefore : ∀ b, best = Option.some b → b.2.1.pos < c.pos) :
    SameBest st (mrvBetter best (mrvKey st c, c, mrvFastCount st c))
      (if mrvFastValue st c < m then mrvFastValue st c else m) := by
  cases hbest with
  | none =>
    rw [if_pos (mrvFastValue_lt hst c)]
    exact .some c
  | some b =>
    have hpos : b.pos < c.pos := hbefore _ rfl
    have hlt := c.pos_lt
    have hparts := P.eternParts_le
    have hcompare : mrvFastValue st c < mrvFastValue st b ↔ mrvKey st c < mrvKey st b := by
      rw [mrvFastValue_eq_key hst, mrvFastValue_eq_key hst]
      omega
    rw [mrvBetter]
    by_cases hless : mrvKey st c < mrvKey st b
    · rw [if_pos (hcompare.mpr hless), if_pos hless]
      exact .some c
    · rw [if_neg (mt hcompare.mp hless), if_neg hless]
      exact .some b

/-- Without a dead cell the two scans keep the same cell. -/
theorem mrvChooseLoop_alive {cells : List (Cell P)} (hsorted : cells.Pairwise fun c c' => c.pos < c'.pos)
    (halive : ∀ c ∈ cells, mrvFastCount st c ≠ 0) {best : Option (Nat × Cell P × Nat)} {m : Nat}
    (hbest : SameBest st best m) (hbefore : ∀ b, best = some b → ∀ c ∈ cells, b.2.1.pos < c.pos) :
    ∃ best', mrvChooseLoop map st cells best = some (best'.map Prod.snd) ∧
      SameBest st best' (cells.foldl (fun best c => if mrvFastValue st c < best then mrvFastValue st c else best) m) := by
  induction cells generalizing best m with
  | nil => exact ⟨best, rfl, hbest⟩
  | cons c cells ih =>
    rw [List.pairwise_cons] at hsorted
    rw [List.forall_mem_cons] at halive
    rw [mrvChooseLoop, mrvFreeCandidates_fast hst h]
    dsimp only
    rw [if_neg halive.1, List.foldl_cons]
    have hstep := hbest.step hst fun b hb => hbefore b hb c List.mem_cons_self
    apply ih hsorted.2 halive.2 hstep
    intro b hb c' hc'
    cases hbest with
    | none =>
      obtain rfl := Option.some.inj hb
      exact hsorted.1 c' hc'
    | some b' =>
      rw [mrvBetter] at hb
      split at hb
      · obtain rfl := Option.some.inj hb
        exact hsorted.1 c' hc'
      · obtain rfl := Option.some.inj hb
        exact hbefore _ rfl c' (List.mem_cons_of_mem c hc')

/-- The generic scan leaves at a dead cell. -/
theorem mrvChooseLoop_dead {cells : List (Cell P)} {c : Cell P} (hc : c ∈ cells) (hdead : mrvFastCount st c = 0)
    (best : Option (Nat × Cell P × Nat)) : mrvChooseLoop map st cells best = none := by
  induction cells generalizing best with
  | nil => exact absurd hc List.not_mem_nil
  | cons c' cells ih =>
    rw [mrvChooseLoop, mrvFreeCandidates_fast hst h]
    dsimp only
    split
    · rfl
    · rename_i halive
      apply ih
      rcases List.mem_cons.mp hc with rfl | hc
      · exact absurd hdead halive
      · exact hc

/-- `mrv_choose_cell_fast` is `mrv_choose_cell`: the same verdict, cell and count. -/
theorem mrvChooseCellFast_eq : mrvChooseCellFast st = mrvChooseCell map st := by
  have hmarks := hst.frontier.empty.and hst.frontier.counts.constrained
  have hsorted := hmarks.pairwise_frontierCells
  unfold mrvChooseCellFast mrvChooseCell
  dsimp only
  generalize frontierCells P (fun w => st.frontier.empty w &&& st.frontier.constrained w) = cells at hsorted
  by_cases hdead : ∃ c ∈ cells, mrvFastCount st c = 0
  · obtain ⟨c, hc, hzero⟩ := hdead
    have hle := (foldl_min_spec (mrvFastValue st) cells uint32Max).2.2 c hc
    have hscore : mrvFastValue st c >>> mrvKeyLowBits = 0 := by rw [mrvFastValue_score hst, hzero, Nat.zero_mul]
    rw [mrvChooseLoop_dead hst h hc hzero, Nat.shiftRight_eq_div_pow, if_pos]
    rw [Nat.shiftRight_eq_div_pow] at hscore
    exact Nat.eq_zero_of_le_zero (hscore ▸ Nat.div_le_div_right hle)
  · have halive : ∀ c ∈ cells, mrvFastCount st c ≠ 0 := fun c hc hzero => hdead ⟨c, hc, hzero⟩
    obtain ⟨best, hloop, hbest⟩ := mrvChooseLoop_alive hst h hsorted halive .none (fun b hb => absurd hb (by simp))
    have hfrom := (foldl_min_spec (mrvFastValue st) cells uint32Max).1
    rw [hloop]
    generalize cells.foldl (fun best c => if mrvFastValue st c < best then mrvFastValue st c else best) uint32Max = m
      at hbest hfrom
    cases hbest with
    | none =>
      rw [if_neg (by decide), if_pos rfl]
      rfl
    | some c =>
      have hne := Nat.ne_of_lt (mrvFastValue_lt hst c)
      obtain ⟨c', hc', heq⟩ := hfrom.resolve_left hne
      have hcell : c = c' := by rw [← mrvFastValue_cell hst c, heq, mrvFastValue_cell hst c']
      have hscore : mrvFastValue st c >>> mrvKeyLowBits ≠ 0 := by
        rw [mrvFastValue_score hst, hcell]
        exact Nat.mul_ne_zero (halive c' hc') (Nat.ne_of_gt (Nat.two_pow_pos _))
      rw [if_neg hscore, if_neg hne, mrvFastValue_cell hst]
      rfl

end Choice

/-! ## The same forward check -/

/-- `fc_pruned_at`, `fc_cells_studied` and `fc_singleton_conflict`. -/
structure FcStats where
  prunedAt : Nat → UInt64
  cellsStudied : UInt64
  singletonConflict : UInt64

namespace FcStats

/-- `fc_stat_bump(&fc_cells_studied, cells)`. -/
def study (stats : FcStats) (cells : Nat) : FcStats :=
  { stats with cellsStudied := stats.cellsStudied + UInt64.ofNat cells }

/-- The counters of a dead neighbour; its rank is the number of cells looked at. -/
def prune (stats : FcStats) (rank : Nat) : FcStats :=
  { stats with prunedAt := Function.update stats.prunedAt rank (stats.prunedAt rank + 1) }.study rank

/-- `fc_stat_bump(&fc_singleton_conflict, 1)`. -/
def conflict (stats : FcStats) : FcStats := { stats with singletonConflict := stats.singletonConflict + 1 }

end FcStats

section Counted

variable {P : Puzzle} (map : MapBigArray) (st : BtState P)

/-- The loop of `bt_forward_check` with its counters; `cells` is also `rank`. -/
def btForwardCheckCountedLoop (singletonConflictCheck : Bool) :
    List (Cell P) → List Nat → Nat → FcStats → Option (Cell P) × FcStats
  | [], _, cells, stats => (none, stats.study cells)
  | c :: rest, singletonIds, cells, stats =>
    if st.board.grid c ≠ -2 then btForwardCheckCountedLoop singletonConflictCheck rest singletonIds cells stats
    else
      let idMask := if singletonConflictCheck then none
        else (st.cellMask c).filter fun _ => map.idMaskWords ≤ mrvUsedWords P
      match idMask with
      | some idMask =>
        if mapMaskAnyFree idMask map.idMaskWords st.used then
          btForwardCheckCountedLoop singletonConflictCheck rest singletonIds (cells + 1) stats
        else (some c, stats.prune (cells + 1))
      | none =>
        match (map.mapBucketPacked (st.constraints c)).filter (isFreeEntry (isFaceUsed st.board.bFaceused)) with
        | [] => (some c, stats.prune (cells + 1))
        | [e] =>
          if singletonConflictCheck then
            if singletonIds.contains e.id then (some c, stats.conflict.prune (cells + 1))
            else btForwardCheckCountedLoop singletonConflictCheck rest (singletonIds ++ [e.id]) (cells + 1) stats
          else btForwardCheckCountedLoop singletonConflictCheck rest singletonIds (cells + 1) stats
        | _ :: _ :: _ => btForwardCheckCountedLoop singletonConflictCheck rest singletonIds (cells + 1) stats

/-- The loop of `bt_forward_check_fast` with its counters. -/
def btForwardCheckFastCountedLoop : List (Cell P) → Nat → FcStats → Option (Cell P) × FcStats
  | [], cells, stats => (none, stats.study cells)
  | c :: rest, cells, stats =>
    if st.board.grid c ≠ -2 then btForwardCheckFastCountedLoop rest cells stats
    else if maskAny ((st.cellMask c).getD Words.zero) (btMaskWords P) st.used = 0#64 then
      (some c, stats.prune (cells + 1))
    else btForwardCheckFastCountedLoop rest (cells + 1) stats

/-- The verdict, and the weights after a failure. -/
def btFcVerdict (front : BtFrontier P) (c : Cell P) : Option (Cell P) → Bool × BtFrontier P
  | none => (true, front)
  | some dead => (false, btFcFailed front dead c)

/-- What a forward check returns, and what it leaves in the frontier and the counters. -/
def btFcOutcome (front : BtFrontier P) (c : Cell P) (r : Option (Cell P) × FcStats) : (Bool × BtFrontier P) × FcStats :=
  (btFcVerdict front c r.1, r.2)

/-- `bt_forward_check` with its counters. -/
def btForwardCheckCounted (singletonConflictCheck : Bool) (c : Cell P) (stats : FcStats) :
    (Bool × BtFrontier P) × FcStats :=
  btFcOutcome st.frontier c (btForwardCheckCountedLoop map st singletonConflictCheck c.neighbors [] 0 stats)

/-- `bt_forward_check_fast` with its counters. -/
def btForwardCheckFastCounted (c : Cell P) (stats : FcStats) : (Bool × BtFrontier P) × FcStats :=
  btFcOutcome st.frontier c (btForwardCheckFastCountedLoop st c.neighbors 0 stats)

variable {map st} {ps : PieceSet P}

/-- The counters do not enter the verdict. -/
theorem btForwardCheckCountedLoop_fst (conflict : Bool) (l : List (Cell P)) (singletonIds : List Nat) (cells : Nat)
    (stats : FcStats) : (btForwardCheckCountedLoop map st conflict l singletonIds cells stats).1 =
      btForwardCheckLoop map st conflict l singletonIds := by
  induction l generalizing singletonIds cells stats with
  | nil => rfl
  | cons c l ih =>
    rw [btForwardCheckCountedLoop, btForwardCheckLoop]
    split
    · apply ih
    · dsimp only
      generalize (if conflict = true then none
        else (st.cellMask c).filter fun _ => map.idMaskWords ≤ mrvUsedWords P) = idMask
      cases idMask with
      | some idMask =>
        dsimp only
        split
        · apply ih
        · rfl
      | none =>
        generalize (map.mapBucketPacked (st.constraints c)).filter (isFreeEntry (isFaceUsed st.board.bFaceused)) = free
        cases free with
        | nil => rfl
        | cons e free =>
          cases free with
          | cons _ _ => apply ih
          | nil =>
            dsimp only
            split
            · split
              · rfl
              · apply ih
            · apply ih

theorem btForwardCheckFastCountedLoop_fst (l : List (Cell P)) (cells : Nat) (stats : FcStats) :
    (btForwardCheckFastCountedLoop st l cells stats).1 = btForwardCheckFastLoop st l := by
  induction l generalizing cells with
  | nil => rfl
  | cons c l ih =>
    rw [btForwardCheckFastCountedLoop, btForwardCheckFastLoop]
    split
    · apply ih
    · split
      · rfl
      · apply ih

theorem btForwardCheckFastCountedLoop_eq (hst : st.Synced ps map) (h : btMasksComplete P map = true)
    (l : List (Cell P)) (singletonIds : List Nat) (cells : Nat) (stats : FcStats) :
    btForwardCheckFastCountedLoop st l cells stats =
      btForwardCheckCountedLoop map st false l singletonIds cells stats := by
  induction l generalizing cells with
  | nil => rfl
  | cons c l ih =>
    have hany : maskAny ((st.cellMask c).getD Words.zero) (btMaskWords P) st.used = 0#64 ↔
        ¬mapMaskAnyFree ((st.cellMask c).getD Words.zero) map.idMaskWords st.used = true := by
      rw [maskAny_eq_zero, Bool.not_eq_true, mapMaskAnyFree_eq_false, idMaskWords_of_complete h]
    rw [btForwardCheckFastCountedLoop, btForwardCheckCountedLoop, if_neg Bool.false_ne_true, filter_cellMask hst h c]
    dsimp only
    rw [ih cells, ih (cells + 1)]
    split
    · rfl
    · by_cases hdead : maskAny ((st.cellMask c).getD Words.zero) (btMaskWords P) st.used = 0#64
      · rw [if_pos hdead, if_neg (hany.mp hdead)]
      · rw [if_neg hdead, if_pos (not_not.mp (mt hany.mpr hdead))]

/-- `bt_forward_check_fast` is `bt_forward_check` without the singleton test: the same verdict, weights,
shifts and counters. -/
theorem btForwardCheckFastCounted_eq (hst : st.Synced ps map) (h : btMasksComplete P map = true) (c : Cell P)
    (stats : FcStats) : btForwardCheckFastCounted st c stats = btForwardCheckCounted map st false c stats := by
  rw [btForwardCheckFastCounted, btForwardCheckCounted, btForwardCheckFastCountedLoop_eq hst h c.neighbors []]

end Counted

/-! ## The same search -/

section Agrees

variable {P : Puzzle} {ps : PieceSet P} {map : MapBigArray} {cfg : BtConfig} {root g : Grid P}
variable (h : btMasksComplete P map = true)
include h

theorem mrvChoose_agree {st : BtState P} (hst : st.Synced ps map) (fast fast' : Bool) :
    mrvChoose map st fast = mrvChoose map st fast' := by
  rw [mrvChoose, mrvChoose, mrvChooseCellFast_eq hst h, ite_self, ite_self]

/-- The singleton test always takes the generic check. -/
theorem btForwardCheck_agree {st : BtState P} (hst : st.Synced ps map) (fast fast' conflict : Bool) (c : Cell P) :
    btForwardCheck map st fast conflict c = btForwardCheck map st fast' conflict c := by
  unfold btForwardCheck
  cases conflict with
  | true => rw [Bool.not_true, Bool.and_false, Bool.and_false]
  | false =>
    have hloop : btForwardCheckFastLoop st c.neighbors = btForwardCheckLoop map st false c.neighbors [] := by
      rw [← btForwardCheckFastCountedLoop_fst c.neighbors 0 ⟨fun _ => 0, 0, 0⟩,
        btForwardCheckFastCountedLoop_eq hst h _ [], btForwardCheckCountedLoop_fst]
    rw [hloop, ite_self, ite_self]

theorem btTryCandidates_agree (fast fast' conflict : Bool) (hg : g.WellFormed ps) {c : Cell P} (hc : g c = -2)
    {l : List PuzzlePart} (hl : ∀ e ∈ l, e ∈ rotateAllPartsList ps)
    (hfits : ∀ e ∈ l, isFreeEntry (usedPieces g) e = true → Grid.Fits ps g c (e.value P)) (s : Nat)
    {st : BtState P} (hst : st.At ps map g) :
    btTryCandidates fast map conflict c l s st = btTryCandidates fast' map conflict c l s st := by
  induction l generalizing s st with
  | nil => rfl
  | cons e l ih =>
    rw [List.forall_mem_cons] at hl hfits
    have hnext := fun {st : BtState P} (hst : st.At ps map g) => ih hl.2 hfits.2 (s + 1) hst
    unfold btTryCandidates
    rw [hnext hst]
    by_cases hid : e.id = 0
    · rw [if_pos hid, if_pos hid]
    · by_cases hused : isFaceUsed st.board.bFaceused (e.id - 1) = true
      · rw [if_neg hid, if_neg hid, if_pos hused, if_pos hused]
      · have hmask : MaskOf g (isFaceUsed st.board.bFaceused) := hst.grid ▸ hst.wellFormed.mask
        have hfree : isFreeEntry (usedPieces g) e = true := by
          rw [← isFreeEntry_of_maskOf hmask hl.1]
          simp [isFreeEntry, hid, hused]
        have hfit := hfits.1 hfree
        have hidv := (rotateAllParts_value hl.1 hid).2.1
        have hplaced := hst.place hc hl.1 hid hfit
        have hchecked := hplaced.forwardCheck fast' conflict c
        have hundone := hchecked.undo hg hc hfit
        rw [hidv] at hundone
        rw [if_neg hid, if_neg hid, if_neg hused, if_neg hused]
        dsimp only
        rw [btForwardCheck_agree h hplaced.synced fast fast', hnext hundone]

variable (hmap : MapOf ps map) (hroot : root.WellFormed ps)
include hmap hroot

theorem btBacktrack_agree (fast fast' conflict : Bool) {stack : List (BtLevel P)}
    (path : DecisionPath ps map root g stack) {st : BtState P} (hst : st.At ps map g) :
    btBacktrack fast map conflict stack st = btBacktrack fast' map conflict stack st := by
  induction stack generalizing g st with
  | nil => rfl
  | cons lvl stack ih =>
    obtain ⟨hback, hpath, hlevel⟩ := btTakeBack_spec hroot path hst
    have hg := hpath.wellFormed hroot
    unfold btBacktrack
    dsimp only
    cases hsearch : lvl.search with
    | none => exact ih hpath hback
    | some search =>
      have hrest : lvl.rest = search.drop lvl.nextS := by simp [BtLevel.rest, hsearch]
      have hempty := (hlevel search hsearch).1
      have hmem := hlevel.mem hmap hg
      have hfits := fun e he hfree => (hlevel.fits hmap hg (e := e) he hfree).2
      have htry : TrySpec ps map (lvl.opened g) lvl.cell lvl.rest lvl.nextS
          (btTryCandidates fast' map conflict lvl.cell lvl.rest lvl.nextS (btTakeBack map lvl st)) :=
        btTryCandidates_spec (fun _ => h) hmap hg hempty hmem hfits lvl.nextS hback
      have hsame := btTryCandidates_agree h fast fast' conflict hg hempty hmem hfits lvl.nextS hback
      rw [hrest] at htry hsame
      dsimp only
      rw [hsame]
      generalize btTryCandidates fast' map conflict lvl.cell (search.drop lvl.nextS) lvl.nextS
        (btTakeBack map lvl st) = r at htry
      cases htry with
      | exhausted state _ => exact ih hpath state
      | placed => rfl

variable {r : BtRun P} (fast fast' : Bool)

theorem btSearchOn_agree (hpath : r.OnPath ps map root) : btSearchOn fast map cfg r = btSearchOn fast' map cfg r := by
  unfold btSearchOn
  rw [btBacktrack_agree h hmap hroot fast fast' _ hpath.path hpath.state]

theorem btOpen_agree (hpath : r.OnPath ps map root) (hplaced : r.st.placed < P.eternParts) :
    btOpen fast map cfg r = btOpen fast' map cfg r := by
  have hlevel : btOpenLevel fast map r.st = btOpenLevel fast' map r.st := by
    unfold btOpenLevel
    rw [mrvChoose_agree h hpath.state.synced fast fast']
  have hopened : BtRun.OnPath ps map root { r with stack := btOpenLevel fast' map r.st :: r.stack } :=
    ⟨hpath.state, (btOpenLevel_spec (fun _ => h) hmap hpath hplaced).1⟩
  rw [btOpen, btOpen, hlevel]
  exact btSearchOn_agree h hmap hroot fast fast' hopened

theorem btTurn_agree (hpath : r.OnPath ps map root) (rootDepth : Nat) (t : Turn) :
    btTurn fast ps map cfg rootDepth t r = btTurn fast' ps map cfg rootDepth t r := by
  have hopen : ∀ {r₁ : BtRun P}, r₁.OnPath ps map root → r₁.st.placed < P.eternParts →
      btOpen fast map cfg r₁ = btOpen fast' map cfg r₁ := btOpen_agree h hmap hroot fast fast'
  unfold btTurn
  by_cases hfull : r.st.placed ≥ P.eternParts
  · rw [if_pos hfull, if_pos hfull]
    unfold btRecord
    dsimp only
    split
    · rfl
    · refine btSearchOn_agree h hmap hroot fast fast' ⟨?_, hpath.path⟩
      exact hpath.state.withBoard rfl rfl
  · have hplaced := Nat.not_le.mp hfull
    rw [if_neg hfull, if_neg hfull]
    split
    · rfl
    · split
      · unfold btDelegateCheck
        dsimp only
        split
        · split
          · split
            · rfl
            · cases hdelegate : btDelegateIfNeeded ps map cfg t { r with noCheckDelegate := 0 } with
              | error r₁ => rfl
              | ok r₁ =>
                have hreset : BtRun.OnPath ps map root { r with noCheckDelegate := 0 } := ⟨hpath.state, hpath.path⟩
                obtain ⟨hpath₁, hst₁, -, -⟩ := btDelegateIfNeeded_spec hmap hroot hreset hdelegate
                apply hopen hpath₁
                rw [hst₁]
                exact hplaced
          · exact hopen ⟨hpath.state, hpath.path⟩ hplaced
        · exact hopen ⟨hpath.state, hpath.path⟩ hplaced
      · exact hopen hpath hplaced

theorem btTurns_agree (hpath : r.OnPath ps map root) (rootDepth : Nat) (turns : List Turn) :
    btTurns fast ps map cfg rootDepth turns r = btTurns fast' ps map cfg rootDepth turns r := by
  induction turns generalizing r with
  | nil => rfl
  | cons t turns ih =>
    rw [btTurns, btTurns, btTurn_agree h hmap hroot fast fast' hpath]
    cases hturn : btTurn fast' ps map cfg rootDepth t r with
    | continues r₁ => exact ih (btTurn_continues (fun _ => h) hmap hroot hpath hturn).1
    | returns => rfl
    | exits => rfl

end Agrees

/-- On a map with all its masks the fast functions and the generic ones agree on every state that the
search keeps, and with either path the search does the same, turn by turn. -/
theorem fastPath_agrees {P : Puzzle} (ps : PieceSet P) (map : MapBigArray) (h : btMasksComplete P map = true) :
    (∀ st : BtState P, st.Synced ps map → mrvChooseCellFast st = mrvChooseCell map st ∧
      ∀ c stats, btForwardCheckFastCounted st c stats = btForwardCheckCounted map st false c stats) ∧
    (MapOf ps map → ∀ (fast : Bool) (cfg : BtConfig) (root : Packet P), root.WellFormed ps → ∀ turns,
      searchPacketBacktrackingMrvVia fast ps map cfg turns root = searchPacketBacktrackingMrv ps map cfg turns root) := by
  constructor
  · intro st hst
    exact ⟨mrvChooseCellFast_eq hst h, btForwardCheckFastCounted_eq hst h⟩
  · intro hmap fast cfg root hroot turns
    exact btTurns_agree h hmap hroot.grid fast _ (btStart_onPath hroot) _ turns

/-- The map of the frame set has all its masks. -/
theorem fastPath_agrees_frame :
    btMasksComplete .p16 (prepareMapPart (Frame.pieces .p16) ⟨true, fun _ => true, true, true⟩) = true ∧
      ∀ fast turns, searchPacketBacktrackingMrvVia fast (Frame.pieces .p16)
          (prepareMapPart (Frame.pieces .p16) ⟨true, fun _ => true, true, true⟩) ⟨0, false, false, false⟩ turns
          (Frame.packet fun c => c.pos ≠ 5) =
        searchPacketBacktrackingMrv (Frame.pieces .p16)
          (prepareMapPart (Frame.pieces .p16) ⟨true, fun _ => true, true, true⟩) ⟨0, false, false, false⟩ turns
          (Frame.packet fun c => c.pos ≠ 5) := by
  have hmasks : btMasksComplete .p16 (prepareMapPart (Frame.pieces .p16) ⟨true, fun _ => true, true, true⟩) = true := by
    decide +kernel
  refine ⟨hmasks, fun fast turns => ?_⟩
  exact (fastPath_agrees _ _ hmasks).2 (mapOf_prepareMapPart _ _) fast _ _ (Frame.packet_wellFormed _) turns
