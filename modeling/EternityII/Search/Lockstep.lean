-- SUMMARY: At every head of the search loop the caches are those of the board.
import EternityII.Search.HandOver

/-!
# Caches in lockstep

Placing a piece, backtracking and the undo after a forward check are three sites that update the
board and its caches, each with its own code. Between them they keep every cache equal to a fresh
computation from the board at every head of the loop. The stack then holds one level for each
piece placed since the root, and has room for one more as long as a cell is empty.
-/

namespace Words

variable {w : Nat} {a b : Words w}

/-- Words with the same bits are equal. -/
theorem ext_bit (hw : 0 < w) (h : ∀ j, a.bit j = b.bit j) : a = b := by
  funext k
  apply BitVec.eq_of_getLsbD_eq
  intro i hi
  have hbit := h (k * w + i)
  unfold Words.bit at hbit
  rw [Nat.mul_comm, Nat.mul_add_div hw, Nat.mul_add_mod, Nat.div_eq_of_lt hi, Nat.mod_eq_of_lt hi, Nat.add_zero] at hbit
  exact hbit

end Words

/-! ## Fresh caches -/

section Fresh

variable {P : Puzzle} {ps : PieceSet P} {map : MapBigArray} {st : BtState P}

/-- Two bit sets of the same cells are equal. -/
theorem Marks.unique {a a' : Words 64} {p : Cell P → Bool} (h : Marks a p) (h' : Marks a' p) : a = a' := by
  apply Words.ext_bit (by decide)
  intro j
  rw [h, h']

/-- Two mirrors of one board are equal. -/
theorem UsedOf.unique {used used' : Words 64} {board : Packet P} (h : UsedOf used board) (h' : UsedOf used' board) :
    used = used' := by
  apply Words.ext_bit (by decide)
  intro j
  rw [h, h']

/-- The four caches and `placed_count`, each against a fresh computation from the board. -/
structure BtState.InLockstep (ps : PieceSet P) (map : MapBigArray) (st : BtState P) : Prop where
  constraints : st.constraints = btInitConstraints ps st.board.grid map.sizearrayM
  used : st.used = mrvUsedInit st.board
  empty : st.frontier.empty = (btFrontierInit st.board.grid).empty
  constrained : st.frontier.constrained = (btFrontierInit st.board.grid).constrained
  nconstr : st.frontier.nconstr = (btFrontierInit st.board.grid).nconstr
  ncKey : st.frontier.ncKey = (btFrontierInit st.board.grid).ncKey
  cellMask : st.cellMask = btMaskInit map (btInitConstraints ps st.board.grid map.sizearrayM)
  wshl : ∀ c, st.frontier.wshl c = mrvWdegShl (st.frontier.weight c)
  placed : st.placed = placedCount st.board.grid

/-- Caches that say the same as the board are the ones computed from it. -/
theorem BtState.Synced.inLockstep (h : st.Synced ps map) : st.InLockstep ps map := by
  have hfresh := BtFrontier.of_btFrontierInit st.board.grid
  constructor
  · exact h.constraints
  · exact h.used.unique (usedOf_mrvUsedInit st.board)
  · exact h.frontier.empty.unique hfresh.empty
  · exact h.frontier.counts.constrained.unique hfresh.counts.constrained
  · exact h.frontier.counts.nconstr
  · exact funext h.frontier.counts.ncKey
  · rw [h.cellMask, h.constraints]
  · exact h.frontier.wshl
  · exact h.placed

end Fresh

/-! ## The depth of the stack -/

/-- Every level has a piece on the board. -/
def AllPlaced {P : Puzzle} (stack : List (BtLevel P)) : Prop := ∀ lvl ∈ stack, lvl.placedPos ≠ none

section AllPlaced

variable {P : Puzzle} {fast : Bool} {ps : PieceSet P} {map : MapBigArray} {cfg : BtConfig} {root g : Grid P}
  {r r' : BtRun P} {t : Turn} {stack : List (BtLevel P)}

theorem AllPlaced.backtrack (conflict : Bool) (h : AllPlaced stack.tail) (st : BtState P) :
    AllPlaced (btBacktrack fast map conflict stack st).2 := by
  induction stack generalizing st with
  | nil => exact h
  | cons lvl stack ih =>
    have htail : AllPlaced stack.tail := fun l hl => h l (List.mem_of_mem_tail hl)
    unfold btBacktrack
    dsimp only
    split
    · apply ih htail
    · split
      · intro l hl
        rcases List.mem_cons.mp hl with rfl | hl
        · exact Option.some_ne_none _
        · exact h l hl
      · apply ih htail

theorem AllPlaced.commit (h : AllPlaced stack) (newNextS : List Nat) :
    AllPlaced (btCommit stack newNextS) := by
  induction stack generalizing newNextS with
  | nil => exact h
  | cons lvl stack ih =>
    obtain ⟨hlvl, htail⟩ := List.forall_mem_cons.mp h
    cases newNextS with
    | nil => exact fun _ hl => absurd hl List.not_mem_nil
    | cons s newNextS => exact List.forall_mem_cons.mpr ⟨hlvl, ih htail newNextS⟩

theorem AllPlaced.searchOn (h : AllPlaced r.stack.tail) (hturn : btSearchOn fast map cfg r = .continues r') :
    AllPlaced r'.stack := by
  have hback : AllPlaced (btBacktrack fast map cfg.singletonConflictCheck r.stack r.st).2 := h.backtrack _ r.st
  unfold btSearchOn at hturn
  dsimp only at hturn
  split at hturn
  · exact absurd hturn (by simp)
  · rename_i lvl stack hstack
    split at hturn
    · exact absurd hturn (by simp)
    · obtain rfl := TurnResult.continues.inj hturn
      rw [hstack] at hback
      exact hback

theorem AllPlaced.tail (h : AllPlaced stack) : AllPlaced stack.tail :=
  fun l hl => h l (List.mem_of_mem_tail hl)

theorem AllPlaced.delegate (h : AllPlaced r.stack)
    (hrun : btDelegateIfNeeded ps map cfg t r = .ok r') : AllPlaced r'.stack := by
  unfold btDelegateIfNeeded at hrun
  dsimp only at hrun
  split at hrun
  · obtain rfl := Except.ok.inj hrun
    exact h
  · split at hrun
    · obtain rfl := Except.ok.inj hrun
      exact h
    · split at hrun
      · exact absurd hrun (by simp)
      · split at hrun
        · split at hrun
          · obtain rfl := Except.ok.inj hrun
            exact h
          · obtain rfl := Except.ok.inj hrun
            exact h.commit _
        · obtain rfl := Except.ok.inj hrun
          exact h

/-- A turn that goes on leaves a piece on every level. -/
theorem AllPlaced.turn (h : AllPlaced r.stack) {rootDepth : Nat}
    (hturn : btTurn fast ps map cfg rootDepth t r = .continues r') : AllPlaced r'.stack := by
  have hopen : ∀ {r₁ : BtRun P}, AllPlaced r₁.stack → btOpen fast map cfg r₁ = .continues r' →
      AllPlaced r'.stack := by
    intro r₁ h₁ hrun
    exact AllPlaced.searchOn (r := { r₁ with stack := btOpenLevel fast map r₁.st :: r₁.stack }) h₁ hrun
  unfold btTurn at hturn
  split at hturn
  · unfold btRecord at hturn
    dsimp only at hturn
    split at hturn
    · exact absurd hturn (by simp)
    · refine AllPlaced.searchOn ?_ hturn
      exact h.tail
  · split at hturn
    · split at hturn
      · obtain rfl := TurnResult.continues.inj hturn
        exact h
      · split at hturn
        · split at hturn <;> exact absurd hturn (by simp)
        · exact absurd hturn (by simp)
    · split at hturn
      · unfold btDelegateCheck at hturn
        dsimp only at hturn
        split at hturn
        · split at hturn
          · split at hturn
            · split at hturn <;> exact absurd hturn (by simp)
            · split at hturn
              · exact absurd hturn (by simp)
              · rename_i hdelegate
                exact hopen (AllPlaced.delegate (r := { r with noCheckDelegate := 0 }) h hdelegate) hturn
          · apply hopen _ hturn
            exact h
        · apply hopen _ hturn
          exact h
      · exact hopen h hturn

theorem Reachable.allPlaced {root : Packet P} (h : Reachable ps map cfg root r) : AllPlaced r.stack := by
  obtain ⟨turns, hrun⟩ := h
  have hstart : AllPlaced (btStart ps map root).stack := fun _ hl => absurd hl List.not_mem_nil
  unfold searchPacketBacktrackingMrv searchPacketBacktrackingMrvVia at hrun
  generalize btStart ps map root = r₀ at hrun hstart
  induction turns generalizing r₀ with
  | nil =>
    obtain rfl := TurnResult.continues.inj hrun
    exact hstart
  | cons t turns ih =>
    rw [btTurns] at hrun
    cases hturn : btTurn (btMasksComplete P map) ps map cfg (placedCount root.grid) t r₀ with
    | continues r₁ =>
      rw [hturn] at hrun
      exact ih r₁ hrun (hstart.turn hturn)
    | returns result r₁ => simp [hturn] at hrun
    | exits r₁ => simp [hturn] at hrun

/-- A stack of placed levels is as deep as the board has pieces more than the root. -/
theorem DecisionPath.placedCount_eq (h : DecisionPath ps map root g stack) (hplaced : AllPlaced stack) :
    placedCount g = placedCount root + stack.length := by
  induction h with
  | root => rfl
  | @opened g lvl stack _ _ hnone _ => exact absurd hnone (hplaced lvl List.mem_cons_self)
  | placed _ _ hempty hfits _ ih =>
    rw [placedCount_place hempty hfits.piece.ne_empty, ih hplaced.tail, List.length_cons, Nat.add_assoc]

end AllPlaced

/-! ## Every head of the loop -/

/-- The invariant of the loop: the caches are those of the board, the stack has a level for each
piece placed since the root, and the index of the next level is below `ETERN_PARTS`. -/
structure BtRun.InLockstep {P : Puzzle} (ps : PieceSet P) (map : MapBigArray) (root : Grid P) (r : BtRun P) :
    Prop where
  caches : r.st.InLockstep ps map
  depth : r.st.placed = placedCount root + r.stack.length
  room : r.st.placed < P.eternParts → r.stack.length < P.eternParts
  bound : r.stack.length ≤ P.eternParts

/-- At every head of the loop the caches are in lockstep with the board. -/
theorem reachable_inLockstep {P : Puzzle} (ps : PieceSet P) (al : MapAllocs) (cfg : BtConfig) (root : Packet P)
    (hroot : root.WellFormed ps) (r : BtRun P) (hr : Reachable ps (prepareMapPart ps al) cfg root r) :
    r.InLockstep ps (prepareMapPart ps al) root.grid := by
  have hpath := (hr.spec (mapOf_prepareMapPart ps al) hroot).1
  have hsynced := hpath.state.synced
  have hdepth : r.st.placed = placedCount root.grid + r.stack.length := by
    rw [hsynced.placed]
    exact hpath.path.placedCount_eq hr.allPlaced
  have hle := placedCount_le r.st.board.grid
  have hcount := hsynced.placed
  refine ⟨hsynced.inLockstep, hdepth, fun hroom => ?_, ?_⟩
  all_goals omega

/-- The depth of the stack where the loop goes on. -/
def TurnResult.depth {P : Puzzle} : TurnResult P → Nat
  | .continues r => r.stack.length
  | _ => 0

/-- One turn on the frame set without the piece of one inner cell. -/
theorem reachable_inLockstep_frame : ∃ r : BtRun .p16, r.stack.length = 1 ∧ r.InLockstep (Frame.pieces .p16)
    (prepareMapPart (Frame.pieces .p16) ⟨false, fun _ => false, false, false⟩) (Frame.packet fun c => c.pos ≠ 5).grid := by
  have hrun : (searchPacketBacktrackingMrv (Frame.pieces .p16)
      (prepareMapPart (Frame.pieces .p16) ⟨false, fun _ => false, false, false⟩) ⟨0, false, false, false⟩ [.quiet]
      (Frame.packet fun c => c.pos ≠ 5)).depth = 1 := by decide +kernel
  cases hresult : searchPacketBacktrackingMrv (Frame.pieces .p16)
      (prepareMapPart (Frame.pieces .p16) ⟨false, fun _ => false, false, false⟩) ⟨0, false, false, false⟩ [.quiet]
      (Frame.packet fun c => c.pos ≠ 5) with
  | continues r =>
    rw [hresult] at hrun
    exact ⟨r, hrun, reachable_inLockstep _ _ _ _ (Frame.packet_wellFormed _) r ⟨[.quiet], hresult⟩⟩
  | returns result r =>
    rw [hresult] at hrun
    exact absurd hrun Nat.zero_ne_one
  | exits r =>
    rw [hresult] at hrun
    exact absurd hrun Nat.zero_ne_one
