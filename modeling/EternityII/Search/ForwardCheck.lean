-- SUMMARY: The forward checks: a board that they refuse has no completion.
import EternityII.Search.Mrv

/-!
# Forward checks

After a placement the search looks at the empty neighbours and gives up when one of them
has no free candidate, or, with `singleton_conflict_check`, when two of them depend on the
same last piece. Packets about to be handed over go through `forward_check_next_k`, which
looks at the first empty cells of the walk instead.
-/

/-! ## The neighbours of a placed piece -/

section Check

variable {P : Puzzle} (map : MapBigArray) (st : BtState P)

/-- The loop of `bt_forward_check` over the neighbours: the cell that dies, if any.
`singletonIds` holds the last candidates of the neighbours seen so far. -/
def btForwardCheckLoop (singletonConflictCheck : Bool) : List (Cell P) → List Nat → Option (Cell P)
  | [], _ => none
  | c :: cells, singletonIds =>
    if st.board.grid c ≠ -2 then btForwardCheckLoop singletonConflictCheck cells singletonIds
    else
      let idMask := if singletonConflictCheck then none
        else (st.cellMask c).filter fun _ => map.idMaskWords ≤ mrvUsedWords P
      match idMask with
      | some idMask =>
        if mapMaskAnyFree idMask map.idMaskWords st.used then
          btForwardCheckLoop singletonConflictCheck cells singletonIds
        else some c
      | none =>
        -- The count of the source stops at two, which is where this match does.
        match (map.mapBucketPacked (st.constraints c)).filter (isFreeEntry (isFaceUsed st.board.bFaceused)) with
        | [] => some c
        | [e] =>
          if singletonConflictCheck then
            if singletonIds.contains e.id then some c
            else btForwardCheckLoop singletonConflictCheck cells (singletonIds ++ [e.id])
          else btForwardCheckLoop singletonConflictCheck cells singletonIds
        | _ :: _ :: _ => btForwardCheckLoop singletonConflictCheck cells singletonIds

/-- The loop of `bt_forward_check_fast`. -/
def btForwardCheckFastLoop : List (Cell P) → Option (Cell P)
  | [] => none
  | c :: cells =>
    if st.board.grid c ≠ -2 then btForwardCheckFastLoop cells
    else if maskAny ((st.cellMask c).getD Words.zero) (btMaskWords P) st.used = 0#64 then some c
    else btForwardCheckFastLoop cells

/-- `bt_fc_failed`. -/
def btFcFailed (front : BtFrontier P) (dead c : Cell P) : BtFrontier P := (front.fail dead).fail c

/-- `bt_forward_check` and `bt_forward_check_fast`: the verdict, and the frontier with the
weights of a failure. -/
def btForwardCheck (fast singletonConflictCheck : Bool) (c : Cell P) : Bool × BtFrontier P :=
  let dead := if fast && !singletonConflictCheck
    then btForwardCheckFastLoop st c.neighbors
    else btForwardCheckLoop map st singletonConflictCheck c.neighbors []
  match dead with
  | none => (true, st.frontier)
  | some dead => (false, btFcFailed st.frontier dead c)

end Check

section Spec

variable {P : Puzzle} {ps : PieceSet P} {map : MapBigArray} {st : BtState P}
  (hst : st.Synced ps map) (hmap : MapOf ps map) (hwf : st.board.WellFormed ps)
include hst hmap hwf

/-- The free entries of a cell's compartment, read through the compact index. -/
theorem filter_mapBucketPacked (c : Cell P) :
    (map.mapBucketPacked (st.constraints c)).filter (isFreeEntry (isFaceUsed st.board.bFaceused)) =
      packetFree ps map st.board c := by
  rw [mapBucketPacked_constraints hst hmap hwf]
  rfl

omit hst in
/-- With one candidate left, every completion puts that piece there. -/
theorem pieceId_of_single {c : Cell P} (hc : st.board.grid c = -2) {e : PuzzlePart}
    (h : packetFree ps map st.board c = [e]) {b : Grid P} (hb : b ∈ st.board.completions ps) :
    pieceId P (b c) = e.id := by
  have hmem : b c ∈ (packetFree ps map st.board c).map (PuzzlePart.value P) :=
    (mem_packetFree hwf hmap).mpr (Grid.IsCompletion.fits hb hc)
  have he : e ∈ packetFree ps map st.board c := by
    rw [h]
    exact List.mem_singleton_self e
  rw [h, List.map_singleton, List.mem_singleton] at hmem
  rw [hmem, pieceId_of_mem_packetFree hwf hmap he]

/-- The cells seen so far that depend on their last candidate. -/
private theorem btForwardCheckLoop_spec {conflict : Bool} {cells : List (Cell P)} (hnodup : cells.Nodup)
    {singletonIds : List Nat}
    (hids : ∀ id ∈ singletonIds, ∃ c ∉ cells, st.board.grid c = -2 ∧
      ∀ b ∈ st.board.completions ps, pieceId P (b c) = id)
    {dead : Cell P} (h : btForwardCheckLoop map st conflict cells singletonIds = some dead) :
    st.board.completions ps = ∅ := by
  induction cells generalizing singletonIds with
  | nil => exact absurd h (by simp [btForwardCheckLoop])
  | cons c cells ih =>
    rw [List.nodup_cons] at hnodup
    have hids' : ∀ id ∈ singletonIds, ∃ c ∉ cells, st.board.grid c = -2 ∧
        ∀ b ∈ st.board.completions ps, pieceId P (b c) = id := fun id hid => by
      obtain ⟨c₁, hc₁, h₁⟩ := hids id hid
      exact ⟨c₁, fun hmem => hc₁ (List.mem_cons_of_mem _ hmem), h₁⟩
    rw [btForwardCheckLoop] at h
    by_cases hc : st.board.grid c = -2
    · rw [if_neg (by simp [hc])] at h
      dsimp only at h
      split at h
      · rename_i mask hmask
        split at h
        · exact ih hnodup.2 hids' h
        · rename_i hany
          have hmask : st.cellMask c = some mask := by
            split at hmask
            · exact absurd hmask (by simp)
            · exact (Option.filter_eq_some_iff.mp hmask).1
          rw [Bool.not_eq_true, mapMaskAnyFree_eq_false,
            maskExhausted_iff hmap (packetKey_inRange hmap hwf c) (by rw [← cellMask_eq hst, hmask])
              hst.used] at hany
          exact completions_of_packetFree hmap hwf hc hany
      · rw [filter_mapBucketPacked hst hmap hwf] at h
        split at h
        · rename_i hnil
          exact completions_of_packetFree hmap hwf hc hnil
        · rename_i e hsingle
          have hforced := fun b hb => pieceId_of_single hmap hwf hc hsingle (b := b) hb
          split at h
          · split at h
            · rename_i hmem
              rw [List.contains_iff_mem] at hmem
              obtain ⟨c₁, hne, hc₁, h₁⟩ := hids _ hmem
              -- Two cells would need the same piece.
              refine Set.eq_empty_of_forall_notMem fun b hb => hne ?_
              have heq : c₁ = c :=
                Grid.IsCompletion.id_inj hb ((h₁ b hb).trans (hforced b hb).symm)
              rw [heq]
              exact List.mem_cons_self
            · refine ih hnodup.2 (fun id hid => ?_) h
              rcases List.mem_append.mp hid with hid | hid
              · exact hids' id hid
              · rw [List.mem_singleton.mp hid]
                exact ⟨c, hnodup.1, hc, hforced⟩
          · exact ih hnodup.2 hids' h
        · exact ih hnodup.2 hids' h
    · rw [if_pos hc] at h
      exact ih hnodup.2 hids' h

private theorem btForwardCheckFastLoop_spec (hfast : btMasksComplete P map = true)
    {cells : List (Cell P)} {dead : Cell P} (h : btForwardCheckFastLoop st cells = some dead) :
    st.board.completions ps = ∅ := by
  induction cells with
  | nil => exact absurd h (by simp [btForwardCheckFastLoop])
  | cons c cells ih =>
    rw [btForwardCheckFastLoop] at h
    split at h
    · exact ih h
    · rename_i hc
      split at h
      · rename_i hany
        rw [maskAny_eq_zero, maskExhausted_fast hst hmap hwf hfast] at hany
        exact completions_of_packetFree hmap hwf (not_not.mp hc) hany
      · exact ih h

/-- A refused board has no completion. -/
theorem completions_of_btForwardCheck {fast conflict : Bool} (hfast : fast = true → btMasksComplete P map = true)
    {c : Cell P} (h : (btForwardCheck map st fast conflict c).1 = false) : st.board.completions ps = ∅ := by
  unfold btForwardCheck at h
  dsimp only at h
  split at h
  · exact absurd h (by simp)
  · rename_i dead hdead
    split at hdead
    · rename_i hpath
      exact btForwardCheckFastLoop_spec hst hmap hwf (hfast (Bool.and_eq_true_iff.mp hpath).1) hdead
    · exact btForwardCheckLoop_spec hst hmap hwf c.nodup_neighbors (by simp) hdead

omit hmap hwf in
/-- Whatever the verdict, only weights have changed. -/
theorem synced_btForwardCheck (fast conflict : Bool) (c : Cell P) :
    ({ st with frontier := (btForwardCheck map st fast conflict c).2 } : BtState P).Synced ps map := by
  unfold btForwardCheck
  dsimp only
  generalize (if (fast && !conflict) = true then btForwardCheckFastLoop st c.neighbors
    else btForwardCheckLoop map st conflict c.neighbors []) = dead
  cases dead with
  | none => exact hst
  | some dead => exact (hst.fail dead).fail c

end Spec

/-! ## The next cells of the walk -/

/-- `FORWARD_CHECK_K`. -/
def forwardCheckWindow : Nat := 6

section NextK

variable {P : Puzzle} (ps : PieceSet P) (map : MapBigArray)

/-- The loop of `forward_check_next_k`; `cells` counts the empty cells looked at. -/
def forwardCheckNextKLoop (possibility : Packet P) : List (Cell P) → Nat → Bool
  | [], _ => true
  | c :: path, cells =>
    if cells < forwardCheckWindow then
      if possibility.grid c ≠ -2 then forwardCheckNextKLoop possibility path cells
      else
        let search := map.getPartsBigarrayWithKey (packetKey ps map possibility c)
        if search.any (isFreeEntry (isFaceUsed possibility.bFaceused)) then
          forwardCheckNextKLoop possibility path (cells + 1)
        else false
    else true

/-- `forward_check_next_k`. -/
def forwardCheckNextK (possibility : Packet P) : Bool :=
  forwardCheckNextKLoop ps map possibility (Cell.path P) 0

variable {ps map}

private theorem forwardCheckNextKLoop_spec (hmap : MapOf ps map) {q : Packet P} (hq : q.WellFormed ps)
    {path : List (Cell P)} {cells : Nat} (h : forwardCheckNextKLoop ps map q path cells = false) :
    q.completions ps = ∅ := by
  induction path generalizing cells with
  | nil => exact absurd h (by simp [forwardCheckNextKLoop])
  | cons c path ih =>
    rw [forwardCheckNextKLoop] at h
    split at h
    · split at h
      · exact ih h
      · rename_i hc
        dsimp only at h
        split at h
        · exact ih h
        · rename_i hany
          have hnil : packetFree ps map q c = [] := by
            rw [packetFree, freeEntries, List.filter_eq_nil_iff]
            simpa using hany
          exact Grid.completions_eq_empty (not_not.mp hc) ((packetFree_eq_nil hq hmap).mp hnil)
    · exact absurd h (by simp)

/-- A packet that `forward_check_next_k` refuses has no completion. -/
theorem completions_of_forwardCheckNextK (hmap : MapOf ps map) {q : Packet P} (hq : q.WellFormed ps)
    (h : forwardCheckNextK ps map q = false) : q.completions ps = ∅ :=
  forwardCheckNextKLoop_spec hmap hq h

end NextK
