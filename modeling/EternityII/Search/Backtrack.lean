-- SUMMARY: Backtracking: trying the candidates of a level and dropping exhausted levels keep the pending completions.
import EternityII.Search.Stack

/-!
# Backtracking

The inner loop of `search_packet_backtracking_mrv` takes back the piece of the top level and
places the next candidate that survives the forward check; a level without one is dropped.
Candidates are only lost when no completion is below them.
-/

open Cover

section Backtrack

variable {P : Puzzle} (fast : Bool) (map : MapBigArray) (singletonConflictCheck : Bool)

/-- The loop over the candidates of a level: the position after the placed one, and the
index of its piece. -/
def btTryCandidates (c : Cell P) : List PuzzlePart → Nat → BtState P → BtState P × Option (Nat × Nat)
  | [], _, st => (st, none)
  | e :: search, s, st =>
    if e.id = 0 then btTryCandidates c search (s + 1) st
    else if isFaceUsed st.board.bFaceused (e.id - 1) then btTryCandidates c search (s + 1) st
    else
      let st := st.place map c e
      if st.placed < P.eternParts then
        let check := btForwardCheck map st fast singletonConflictCheck c
        let st := { st with frontier := check.2 }
        if check.1 then (st, some (s + 1, e.id - 1))
        else btTryCandidates c search (s + 1) (st.undo map c (e.id - 1))
      else (st, some (s + 1, e.id - 1))

/-- The removal of the piece a level has placed. -/
def btTakeBack (lvl : BtLevel P) (st : BtState P) : BtState P :=
  match lvl.placedPos with
  | none => st
  | some position => st.undo map lvl.cell position

/-- `lvl->next_s = s; lvl->placed_pos = position`. -/
def BtLevel.resumeAt (lvl : BtLevel P) (s position : Nat) : BtLevel P :=
  { lvl with nextS := s, placedPos := some position }

/-- The `while (top >= 0)` loop at the label `backtrack`. -/
def btBacktrack : List (BtLevel P) → BtState P → BtState P × List (BtLevel P)
  | [], st => (st, [])
  | lvl :: stack, st =>
    let st := btTakeBack map lvl st
    match lvl.search with
    | none => btBacktrack stack st
    | some search =>
      match btTryCandidates fast map singletonConflictCheck lvl.cell (search.drop lvl.nextS) lvl.nextS st with
      | (st, some (s, position)) => (st, lvl.resumeAt s position :: stack)
      | (st, none) => btBacktrack stack st

end Backtrack

/-! ## One level -/

section Spec

variable {P : Puzzle} {fast : Bool} {ps : PieceSet P} {map : MapBigArray} {conflict : Bool} {g root : Grid P}
  {c : Cell P} {st : BtState P} {lvl : BtLevel P} {stack : List (BtLevel P)}
variable (hfast : fast = true → btMasksComplete P map = true) (hmap : MapOf ps map)

/-- What trying the candidates of an empty cell leads to. -/
inductive TrySpec (ps : PieceSet P) (map : MapBigArray) (g : Grid P) (c : Cell P) (l : List PuzzlePart)
    (s : Nat) : BtState P × Option (Nat × Nat) → Prop
  | exhausted {st : BtState P} (state : st.At ps map g)
      (dead : SameLoad (Grid.completions ps) (candidateBoards g c l) []) : TrySpec ps map g c l s (st, none)
  | placed {st : BtState P} {v : Int} (k : Nat) (fits : Grid.Fits ps g c v)
      (state : st.At ps map (g.place c v))
      (load : SameLoad (Grid.completions ps) (candidateBoards g c l)
        (g.place c v :: candidateBoards g c (l.drop k))) :
      TrySpec ps map g c l s (st, some (s + k, pieceId P v - 1))

/-- A candidate without completions in front changes nothing. -/
theorem TrySpec.skip {e : PuzzlePart} {l : List PuzzlePart} {s : Nat} {r : BtState P × Option (Nat × Nat)}
    (h : TrySpec ps map g c l (s + 1) r)
    (hload : SameLoad (Grid.completions ps) (candidateBoards g c (e :: l)) (candidateBoards g c l)) :
    TrySpec ps map g c (e :: l) s r := by
  cases h with
  | exhausted state dead => exact .exhausted state (hload.trans dead)
  | placed k fits state load =>
    rw [Nat.add_assoc, Nat.add_comm 1 k]
    exact .placed (k + 1) fits state (hload.trans load)

include hfast hmap

theorem btTryCandidates_spec (hg : g.WellFormed ps) (hc : g c = -2) {l : List PuzzlePart}
    (hl : ∀ e ∈ l, e ∈ rotateAllPartsList ps)
    (hfits : ∀ e ∈ l, isFreeEntry (usedPieces g) e = true → Grid.Fits ps g c (e.value P)) (s : Nat)
    (hst : st.At ps map g) :
    TrySpec ps map g c l s (btTryCandidates fast map conflict c l s st) := by
  induction l generalizing s st with
  | nil => exact .exhausted hst (fun _ => rfl)
  | cons e l ih =>
    rw [List.forall_mem_cons] at hl hfits
    have hmask : MaskOf g (isFaceUsed st.board.bFaceused) := hst.grid ▸ hst.wellFormed.mask
    have hfree := isFreeEntry_of_maskOf hmask hl.1
    have hskip : isFreeEntry (usedPieces g) e = false →
        TrySpec ps map g c (e :: l) s (btTryCandidates fast map conflict c l (s + 1) st) := fun hnot =>
      (ih hl.2 hfits.2 (s + 1) hst).skip (by
        rw [candidateBoards_cons_of_not_free hnot]
        exact SameLoad.rfl)
    unfold btTryCandidates
    split
    · rename_i hid
      refine hskip ?_
      simp [isFreeEntry, hid]
    · rename_i hid
      split
      · rename_i hused
        refine hskip ?_
        rw [← hfree]
        simp [isFreeEntry, hused]
      · rename_i hused
        have hfree : isFreeEntry (usedPieces g) e = true := by
          rw [← hfree]
          simp [isFreeEntry, hid, hused]
        have hfit := hfits.1 hfree
        have hidv := (rotateAllParts_value hl.1 hid).2.1
        have hplaced := hst.place hc hl.1 hid hfit
        have hcons := candidateBoards_cons_of_free (c := c) hfree l
        have hdone : ∀ {st' : BtState P}, st'.At ps map (g.place c (e.value P)) →
            TrySpec ps map g c (e :: l) s (st', some (s + 1, e.id - 1)) := fun hst' => by
          rw [← hidv]
          refine .placed 1 hfit hst' ?_
          rw [hcons]
          exact SameLoad.rfl
        dsimp only
        split
        · have hchecked := hplaced.forwardCheck fast conflict c
          split
          · exact hdone hchecked
          · rename_i hdead
            have hempty := completions_of_btForwardCheck hplaced.synced hmap hplaced.wellFormed hfast
              (Bool.not_eq_true _ ▸ hdead)
            rw [Packet.completions, hplaced.grid] at hempty
            rw [← hidv]
            refine (ih hl.2 hfits.2 (s + 1) (hchecked.undo hg hc hfit)).skip ?_
            rw [hcons]
            exact (sameLoad_nil_of_empty hempty).append SameLoad.rfl
        · exact hdone hplaced

omit hfast hmap in
/-- Taking back the piece of the top level returns to the board the level was opened on. -/
theorem btTakeBack_spec (hroot : root.WellFormed ps) (path : DecisionPath ps map root g (lvl :: stack))
    (hst : st.At ps map g) :
    (btTakeBack map lvl st).At ps map (lvl.opened g) ∧ DecisionPath ps map root (lvl.opened g) stack ∧
      lvl.OpenedAt ps map (lvl.opened g) := by
  cases path with
  | opened path level hplaced =>
    rw [BtLevel.opened_of_none hplaced, btTakeBack, hplaced]
    exact ⟨hst, path, level⟩
  | placed path level hempty hfits hplaced =>
    rw [BtLevel.opened_of_some hplaced hempty, btTakeBack, hplaced]
    exact ⟨hst.undo (path.wellFormed hroot) hempty hfits, path, level⟩

/-! ## The whole stack -/

/-- What backtracking leads to: a new board on the path, or nothing left to explore. -/
structure BacktrackSpec (ps : PieceSet P) (map : MapBigArray) (root g : Grid P)
    (stack : List (BtLevel P)) (r : BtState P × List (BtLevel P)) : Prop where
  path : ∃ g', r.1.At ps map g' ∧ DecisionPath ps map root g' r.2
  exhausted : r.2 = [] → SameLoad (Grid.completions ps) (pendingBoards g stack) []
  load : r.2 ≠ [] → SameLoad (Grid.completions ps) (pendingBoards g stack)
    (r.1.board.grid :: pendingBoards r.1.board.grid r.2)

theorem btBacktrack_spec (hroot : root.WellFormed ps) (path : DecisionPath ps map root g stack)
    (hst : st.At ps map g) :
    BacktrackSpec ps map root g stack (btBacktrack fast map conflict stack st) := by
  induction stack generalizing g st with
  | nil => exact ⟨⟨g, hst, path⟩, fun _ _ => rfl, fun h => absurd rfl h⟩
  | cons lvl stack ih =>
    obtain ⟨hback, hpath, hlevel⟩ := btTakeBack_spec hroot path hst
    have hg := hpath.wellFormed hroot
    -- A level whose candidates are dead only passes on what is pending below it.
    have hdrop : ∀ {r : BtState P × List (BtLevel P)},
        SameLoad (Grid.completions ps) (candidateBoards (lvl.opened g) lvl.cell lvl.rest) [] →
        BacktrackSpec ps map root (lvl.opened g) stack r →
        BacktrackSpec ps map root g (lvl :: stack) r := fun hdead h => by
      have hload : SameLoad (Grid.completions ps) (pendingBoards g (lvl :: stack))
          (pendingBoards (lvl.opened g) stack) := by
        rw [pendingBoards]
        exact hdead.append SameLoad.rfl
      exact ⟨h.path, fun hr => hload.trans (h.exhausted hr), fun hr => hload.trans (h.load hr)⟩
    unfold btBacktrack
    dsimp only
    split
    · rename_i hsearch
      refine hdrop ?_ (ih hpath hback)
      simp only [BtLevel.rest, hsearch, Option.getD_none, List.drop_nil]
      exact SameLoad.rfl
    · rename_i search hsearch
      have hrest : lvl.rest = search.drop lvl.nextS := by simp [BtLevel.rest, hsearch]
      have hempty := (hlevel search hsearch).1
      have htry : TrySpec ps map (lvl.opened g) lvl.cell lvl.rest lvl.nextS
          (btTryCandidates fast map conflict lvl.cell lvl.rest lvl.nextS (btTakeBack map lvl st)) :=
        btTryCandidates_spec hfast hmap hg hempty (hlevel.mem hmap hg)
          (fun e he hfree => (hlevel.fits hmap hg he hfree).2) lvl.nextS hback
      rw [hrest] at htry
      generalize btTryCandidates fast map conflict lvl.cell (search.drop lvl.nextS) lvl.nextS
        (btTakeBack map lvl st) = r at htry
      cases htry with
      | exhausted state dead =>
        rw [← hrest] at dead
        exact hdrop dead (ih hpath state)
      | @placed st' v k fits state load =>
        let lvl' := lvl.resumeAt (lvl.nextS + k) (pieceId P v - 1)
        have hplaced : lvl'.placedPos = some (pieceId P v - 1) := rfl
        have hlevel' : lvl'.OpenedAt ps map (lvl.opened g) := hlevel
        have hrest' : lvl'.rest = (search.drop lvl.nextS).drop k := by
          simp [lvl', BtLevel.resumeAt, BtLevel.rest, hsearch]
        have hpending : pendingBoards ((lvl.opened g).place lvl.cell v) (lvl' :: stack) =
            candidateBoards (lvl.opened g) lvl.cell lvl'.rest ++ pendingBoards (lvl.opened g) stack :=
          pendingBoards_placed hplaced hempty v
        refine ⟨⟨_, state, .placed hpath hlevel' hempty fits hplaced⟩, by simp, fun _ => ?_⟩
        show SameLoad _ _ (st'.board.grid :: pendingBoards st'.board.grid (lvl' :: stack))
        rw [state.grid, hpending, pendingBoards, hrest, hrest']
        exact load.append SameLoad.rfl

end Spec
