-- SUMMARY: The three views of the implicit stock agree.
import EternityII.Search.HandOver

/-!
# The views of the implicit stock

The quota of a delegation rests on `bt_count_pending`, the abandon of a shallow root on
`bt_min_pending_depth`, and `bt_materialize_pending` hands the siblings over. The first two
take every placement back and walk up from the root; the third one takes the placements back
one by one from the top. All three meet the same boards, those pending below the stack.
-/

/-! ## The least depth -/

section Depth

variable {P : Puzzle}

/-- The placement of a level put back on a board of which only the empty cells count. -/
def Packet.putBackLevel (scratch : Packet P) (lvl : BtLevel P) : Packet P :=
  { scratch with
    grid := if lvl.placedPos.isSome then scratch.grid.place lvl.cell 0 else scratch.grid
    bFaceused := lvl.setFace true scratch.bFaceused }

/-- The loop of `bt_min_pending_depth` over the levels, the root first. -/
def btMinPendingLevels : List (BtLevel P) → Packet P → Int
  | [], _ => -1
  | lvl :: levels, scratch =>
    if lvl.rest.any (isFreeEntry (isFaceUsed scratch.bFaceused)) then
      (placedCount (scratch.grid.place lvl.cell 0) : Int)
    else btMinPendingLevels levels (scratch.putBackLevel lvl)

/-- `bt_min_pending_depth`. -/
def btMinPendingDepth (board : Packet P) (stack : List (BtLevel P)) : Int :=
  btMinPendingLevels stack.reverse (stack.foldl Packet.takeBackLevel board)

/-- The least number of pieces on boards, `-1` when there is none. -/
def leastDepth (boards : List (Grid P)) : Int :=
  match (boards.map placedCount).min? with
  | none => -1
  | some depth => depth

end Depth

/-! ## The candidates a materialisation visits -/

/-- What becomes of a candidate that `bt_materialize_pending` visits. -/
inductive VisitEnd where
  | sent | recorded | dropped
  deriving DecidableEq, Repr

/-- A visited candidate: its packet, and what becomes of it. -/
structure Visit (P : Puzzle) where
  packet : Packet P
  ending : VisitEnd

/-- The packets of the visits that end in one way. -/
def endedPackets {P : Puzzle} (ending : VisitEnd) (visits : List (Visit P)) : List (Packet P) :=
  (visits.filter fun visit => visit.ending = ending).map Visit.packet

section Visits

variable {P : Puzzle} (ps : PieceSet P) (map : MapBigArray) (maxOut : Nat)

/-- The candidates that the loop over a level visits, when `count` packets are made before and
`record_solution` returns. -/
def btVisitLevel (scratch : Packet P) (lvl : BtLevel P) : List PuzzlePart → Nat → List (Visit P)
  | [], _ => []
  | cand :: search, count =>
    if count < maxOut then
      if cand.id = 0 then btVisitLevel scratch lvl search count
      else if isFaceUsed scratch.bFaceused (cand.id - 1) then btVisitLevel scratch lvl search count
      else
        let pkt := scratch.materialize lvl cand
        if pkt.alloc.toNat ≥ P.eternParts then
          ⟨pkt, .recorded⟩ :: btVisitLevel scratch lvl search count
        else
          let pkt := { pkt with checked := 0 }
          if forwardCheckNextK ps map pkt then
            ⟨pkt, .sent⟩ :: btVisitLevel scratch lvl search (count + 1)
          else ⟨pkt, .dropped⟩ :: btVisitLevel scratch lvl search count
    else []

/-- The candidates visited over the levels, the top first. -/
def btVisitLoop : List (BtLevel P) → Packet P → Nat → List (Visit P)
  | [], _, _ => []
  | lvl :: stack, scratch, count =>
    if count < maxOut then
      let scratch := scratch.takeBackLevel lvl
      let visits := btVisitLevel ps map maxOut scratch lvl lvl.rest count
      visits ++ btVisitLoop stack scratch (count + (endedPackets .sent visits).length)
    else []

/-- The candidates that `bt_materialize_pending` visits. -/
def btVisits (board : Packet P) (stack : List (BtLevel P)) : List (Visit P) :=
  btVisitLoop ps map maxOut stack board 0

end Visits

/-! ## What the visits leave -/

/-- What a materialisation has produced after some visits. With `--stop-on-solution` the process
ends with the first one that is recorded. -/
def Materialized.after {P : Puzzle} (stopOnSolution : Bool) (acc : Materialized P) (visits : List (Visit P)) :
    Except (List (Packet P)) (Materialized P) :=
  match stopOnSolution, endedPackets .recorded visits with
  | true, q :: _ => .error (acc.recorded ++ [q])
  | _, recorded => .ok ⟨acc.out ++ endedPackets .sent visits, acc.recorded ++ recorded⟩

section After

variable {P : Puzzle} {ps : PieceSet P} {map : MapBigArray} {stopOnSolution : Bool} {maxOut : Nat}
  {scratch : Packet P} {lvl : BtLevel P} {acc : Materialized P} {q : Packet P} {visits rest : List (Visit P)}

@[simp] theorem endedPackets_nil (ending : VisitEnd) : endedPackets ending ([] : List (Visit P)) = [] := rfl

@[simp] theorem endedPackets_cons (ending ending' : VisitEnd) :
    endedPackets ending (⟨q, ending'⟩ :: visits) =
      if ending' = ending then q :: endedPackets ending visits else endedPackets ending visits := by
  unfold endedPackets
  split <;> simp_all

theorem Materialized.after_nil : acc.after stopOnSolution [] = .ok acc := by
  cases stopOnSolution <;> simp [Materialized.after]

theorem Materialized.after_sent :
    acc.after stopOnSolution (⟨q, .sent⟩ :: visits) =
      Materialized.after stopOnSolution { acc with out := acc.out ++ [q] } visits := by
  unfold Materialized.after
  simp only [endedPackets_cons, reduceCtorEq, if_false, if_true, List.append_assoc, List.singleton_append]

theorem Materialized.after_dropped :
    acc.after stopOnSolution (⟨q, .dropped⟩ :: visits) = acc.after stopOnSolution visits := by
  unfold Materialized.after
  simp only [endedPackets_cons, reduceCtorEq, if_false]

theorem Materialized.after_recorded :
    acc.after false (⟨q, .recorded⟩ :: visits) =
      Materialized.after false { acc with recorded := acc.recorded ++ [q] } visits := by
  simp [Materialized.after]

theorem Materialized.after_exit : acc.after true (⟨q, .recorded⟩ :: visits) = .error (acc.recorded ++ [q]) := by
  simp [Materialized.after]

theorem Materialized.after_append :
    acc.after stopOnSolution (visits ++ rest) =
      (acc.after stopOnSolution visits).bind fun acc => acc.after stopOnSolution rest := by
  induction visits generalizing acc with
  | nil => rw [List.nil_append, Materialized.after_nil]; rfl
  | cons visit visits ih =>
    obtain ⟨q, ending⟩ := visit
    rw [List.cons_append]
    cases ending with
    | sent => rw [Materialized.after_sent, Materialized.after_sent, ih]
    | dropped => rw [Materialized.after_dropped, Materialized.after_dropped, ih]
    | recorded =>
      cases stopOnSolution with
      | false => rw [Materialized.after_recorded, Materialized.after_recorded, ih]
      | true => rw [Materialized.after_exit, Materialized.after_exit]; rfl

/-- The loop over a level produces what its visits leave. -/
theorem btMaterializeLevel_visits (l : List PuzzlePart) (s : Nat) :
    (btMaterializeLevel ps map stopOnSolution maxOut scratch lvl l s acc).map Prod.snd =
      acc.after stopOnSolution (btVisitLevel ps map maxOut scratch lvl l acc.out.length) := by
  induction l generalizing s acc with
  | nil => exact Materialized.after_nil.symm
  | cons cand l ih =>
    unfold btMaterializeLevel btVisitLevel
    by_cases hroom : acc.out.length < maxOut
    · rw [if_pos hroom, if_pos hroom]
      by_cases hid : cand.id = 0
      · rw [if_pos hid, if_pos hid]
        exact ih _
      rw [if_neg hid, if_neg hid]
      by_cases hused : isFaceUsed scratch.bFaceused (cand.id - 1) = true
      · rw [if_pos hused, if_pos hused]
        exact ih _
      rw [if_neg hused, if_neg hused]
      dsimp only
      by_cases hfull : (scratch.materialize lvl cand).alloc.toNat ≥ P.eternParts
      · rw [if_pos hfull, if_pos hfull]
        cases stopOnSolution with
        | false =>
          rw [if_neg (by simp), Materialized.after_recorded]
          exact ih _
        | true =>
          rw [if_pos rfl, Materialized.after_exit]
          rfl
      rw [if_neg hfull, if_neg hfull]
      by_cases hcheck : forwardCheckNextK ps map { scratch.materialize lvl cand with checked := 0 } = true
      · rw [if_pos hcheck, if_pos hcheck, Materialized.after_sent, ih]
        simp only [List.length_append, List.length_singleton]
      · rw [if_neg hcheck, if_neg hcheck, Materialized.after_dropped]
        exact ih _
    · rw [if_neg hroom, if_neg hroom, Materialized.after_nil]
      rfl

theorem Materialized.after_out {acc' : Materialized P} (h : acc.after stopOnSolution visits = .ok acc') :
    acc'.out.length = acc.out.length + (endedPackets .sent visits).length := by
  unfold Materialized.after at h
  split at h
  · exact absurd h (by simp)
  · rw [← Except.ok.inj h, List.length_append]

/-- The position of a level does not change what is produced. -/
theorem map_snd_resume (run : Except (List (Packet P)) (List Nat × Materialized P)) (s : Nat) :
    (run.map fun r => (s :: r.1, r.2)).map Prod.snd = run.map Prod.snd := by
  cases run <;> rfl

/-- `bt_materialize_pending` produces what its visits leave. -/
theorem btMaterializeLoop_visits (stack : List (BtLevel P)) :
    (btMaterializeLoop ps map stopOnSolution maxOut stack scratch acc).map Prod.snd =
      acc.after stopOnSolution (btVisitLoop ps map maxOut stack scratch acc.out.length) := by
  induction stack generalizing scratch acc with
  | nil => exact Materialized.after_nil.symm
  | cons lvl stack ih =>
    unfold btMaterializeLoop btVisitLoop
    by_cases hroom : acc.out.length < maxOut
    · rw [if_pos hroom, if_pos hroom]
      dsimp only
      generalize scratch.takeBackLevel lvl = below at ih ⊢
      cases hsearch : lvl.search with
      | none =>
        have hrest : lvl.rest = [] := by simp [BtLevel.rest, hsearch]
        have hnext := @ih below acc
        rw [hrest]
        dsimp only [btVisitLevel]
        rw [List.nil_append, endedPackets_nil, List.length_nil, Nat.add_zero, map_snd_resume, hnext]
      | some search =>
        have hrest : lvl.rest = search.drop lvl.nextS := by simp [BtLevel.rest, hsearch]
        have hlevel := @btMaterializeLevel_visits _ ps map stopOnSolution maxOut below lvl acc
          (search.drop lvl.nextS) lvl.nextS
        rw [hrest, Materialized.after_append]
        dsimp only
        cases hrun : btMaterializeLevel ps map stopOnSolution maxOut below lvl (search.drop lvl.nextS)
            lvl.nextS acc with
        | error recorded =>
          rw [hrun] at hlevel
          rw [← hlevel]
          rfl
        | ok result =>
          obtain ⟨s, acc₁⟩ := result
          rw [hrun] at hlevel
          have hnext := @ih below acc₁
          rw [Materialized.after_out hlevel.symm] at hnext
          rw [← hlevel]
          show (Except.map _ _).map Prod.snd = Materialized.after stopOnSolution acc₁ _
          rw [map_snd_resume, hnext]
    · rw [if_neg hroom, if_neg hroom, Materialized.after_nil]
      rfl

end After

/-! ## The boards visited -/

section Boards

variable {P : Puzzle} {ps : PieceSet P} {map : MapBigArray} {maxOut count : Nat} {g root : Grid P}
  {scratch : Packet P} {lvl : BtLevel P} {stack : List (BtLevel P)}

/-- The boards of visited candidates. -/
def visitedBoards (visits : List (Visit P)) : List (Grid P) := visits.map fun visit => visit.packet.grid

theorem endedPackets_length_le (ending : VisitEnd) (visits : List (Visit P)) :
    (endedPackets ending visits).length ≤ visits.length := by
  rw [endedPackets, List.length_map]
  exact List.length_filter_le ..

/-- A level with room for all of its free candidates visits each of them. -/
theorem visitedBoards_level (hmask : MaskOf scratch.grid (isFaceUsed scratch.bFaceused)) {l : List PuzzlePart}
    (hl : ∀ e ∈ l, e ∈ rotateAllPartsList ps)
    (hroom : count + (candidateBoards scratch.grid lvl.cell l).length ≤ maxOut) :
    visitedBoards (btVisitLevel ps map maxOut scratch lvl l count) = candidateBoards scratch.grid lvl.cell l := by
  induction l generalizing count with
  | nil => rfl
  | cons e l ih =>
    rw [List.forall_mem_cons] at hl
    have hfree := isFreeEntry_of_maskOf hmask hl.1
    unfold btVisitLevel
    by_cases hout : count < maxOut
    · rw [if_pos hout]
      by_cases hskip : isFreeEntry (usedPieces scratch.grid) e = false
      · rw [candidateBoards_cons_of_not_free hskip] at hroom ⊢
        rw [← hfree] at hskip
        by_cases hid : e.id = 0
        · rw [if_pos hid]
          exact ih hl.2 hroom
        · have hused : isFaceUsed scratch.bFaceused (e.id - 1) = true := by
            simpa [isFreeEntry, hid] using hskip
          rw [if_neg hid, if_pos hused]
          exact ih hl.2 hroom
      · rw [Bool.not_eq_false] at hskip
        rw [candidateBoards_cons_of_free hskip] at hroom ⊢
        rw [← hfree, isFreeEntry_iff] at hskip
        rw [List.length_cons] at hroom
        rw [if_neg hskip.1, if_neg (by rw [hskip.2]; exact Bool.false_ne_true)]
        dsimp only
        split
        · exact congrArg (_ :: ·) (ih hl.2 (by omega))
        · split
          · exact congrArg (_ :: ·) (ih hl.2 (by omega))
          · exact congrArg (_ :: ·) (ih hl.2 (by omega))
    · rw [if_neg hout]
      exact (List.eq_nil_of_length_eq_zero (by omega)).symm

/-- With room for all of them, the boards visited are those pending below the stack. -/
theorem visitedBoards_loop (hmap : MapOf ps map) (hroot : root.WellFormed ps)
    (path : DecisionPath ps map root scratch.grid stack) (hq : scratch.WellFormed ps)
    (hroom : count + (pendingBoards scratch.grid stack).length ≤ maxOut) :
    visitedBoards (btVisitLoop ps map maxOut stack scratch count) = pendingBoards scratch.grid stack := by
  induction stack generalizing scratch count with
  | nil => rfl
  | cons lvl stack ih =>
    obtain ⟨hback, hpath, hlevel⟩ := Packet.takeBackLevel_spec hroot path hq
    have hsplit : pendingBoards scratch.grid (lvl :: stack) =
        candidateBoards (scratch.takeBackLevel lvl).grid lvl.cell lvl.rest ++
          pendingBoards (scratch.takeBackLevel lvl).grid stack := rfl
    rw [hsplit] at hroom ⊢
    rw [List.length_append] at hroom
    unfold btVisitLoop
    by_cases hout : count < maxOut
    · rw [if_pos hout]
      dsimp only
      generalize scratch.takeBackLevel lvl = below at hback hpath hlevel hroom ⊢
      have hboards := @visitedBoards_level P ps map maxOut count below lvl hback.mask _
        (hlevel.mem hmap hback.grid) (by omega)
      have hlength := congrArg List.length hboards
      rw [visitedBoards, List.length_map] at hlength
      have hsent := endedPackets_length_le .sent (btVisitLevel ps map maxOut below lvl lvl.rest count)
      have hbelow := @ih (count + (endedPackets .sent (btVisitLevel ps map maxOut below lvl lvl.rest count)).length)
        below hpath hback (by omega)
      rw [← hboards, ← hbelow, visitedBoards, visitedBoards, visitedBoards, List.map_append]
    · rw [if_neg hout]
      refine (List.eq_nil_of_length_eq_zero ?_).symm
      rw [List.length_append]
      omega

/-! ## The depth of the boards -/

/-- Two boards with the same empty cells. -/
def SameEmpty (g g' : Grid P) : Prop := ∀ c, g c = -2 ↔ g' c = -2

theorem SameEmpty.placedCount {g' : Grid P} (h : SameEmpty g g') : placedCount g = placedCount g' :=
  List.countP_congr fun c _ => by simp [h c]

theorem SameEmpty.place {g' : Grid P} (h : SameEmpty g g') (c : Cell P) {v v' : Int} (hv : v ≠ -2)
    (hv' : v' ≠ -2) : SameEmpty (g.place c v) (g'.place c v') := by
  intro c'
  by_cases hc : c' = c
  · rw [hc, Grid.place_self, Grid.place_self]
    exact ⟨fun h => absurd h hv, fun h => absurd h hv'⟩
  · rw [Grid.place_of_ne hc, Grid.place_of_ne hc]
    exact h c'

/-- Every free candidate of a level makes a board with one more piece. -/
theorem placedCount_candidateBoards (hmap : MapOf ps map) (hg : g.WellFormed ps) (hlevel : lvl.OpenedAt ps map g) :
    ∀ b ∈ candidateBoards g lvl.cell lvl.rest, placedCount b = placedCount g + 1 := by
  intro b hb
  obtain ⟨e, he, rfl⟩ := List.mem_map.mp hb
  obtain ⟨hmem, hfree⟩ := List.mem_filter.mp he
  obtain ⟨hempty, hfits⟩ := hlevel.fits hmap hg hmem hfree
  exact placedCount_place hempty hfits.piece.ne_empty

/-- No board pending below a board has more than one piece more. -/
theorem placedCount_pendingBoards (hmap : MapOf ps map) (hroot : root.WellFormed ps)
    (path : DecisionPath ps map root g stack) : ∀ b ∈ pendingBoards g stack, placedCount b ≤ placedCount g + 1 := by
  induction path with
  | root => exact fun b hb => absurd hb List.not_mem_nil
  | opened path level hplaced ih =>
    intro b hb
    rw [pendingBoards_opened hplaced, List.mem_append] at hb
    rcases hb with hb | hb
    · exact (placedCount_candidateBoards hmap (path.wellFormed hroot) level b hb).le
    · exact ih b hb
  | placed path level hempty hfits hplaced ih =>
    intro b hb
    rw [pendingBoards_placed hplaced hempty, List.mem_append] at hb
    rw [placedCount_place hempty hfits.piece.ne_empty]
    rcases hb with hb | hb
    · exact (placedCount_candidateBoards hmap (path.wellFormed hroot) level b hb).le.trans (Nat.le_succ _)
    · exact (ih b hb).trans (Nat.le_succ _)

theorem leastDepth_eq {boards : List (Grid P)} {b : Grid P} (hb : b ∈ boards)
    (hle : ∀ b' ∈ boards, placedCount b ≤ placedCount b') : leastDepth boards = placedCount b := by
  have hmin : (boards.map placedCount).min? = some (placedCount b) := by
    rw [List.min?_eq_some_iff]
    exact ⟨List.mem_map_of_mem hb, List.forall_mem_map.mpr hle⟩
  rw [leastDepth, hmin]

/-- The least depth is that of a board, unless there is no board. -/
theorem leastDepth_spec {boards : List (Grid P)} (h : boards ≠ []) :
    ∃ b ∈ boards, leastDepth boards = placedCount b ∧ ∀ b' ∈ boards, placedCount b ≤ placedCount b' := by
  cases hmin : (boards.map placedCount).min? with
  | none => exact absurd (by simpa using hmin) h
  | some depth =>
    obtain ⟨hmem, hle⟩ := List.min?_eq_some_iff.mp hmin
    obtain ⟨b, hb, rfl⟩ := List.mem_map.mp hmem
    exact ⟨b, hb, by rw [leastDepth, hmin], List.forall_mem_map.mp hle⟩

/-- Putting the placement of the top level back leads from the board below it to the board. -/
theorem Packet.putBackLevel_spec {up : Packet P} (path : DecisionPath ps map root g (lvl :: stack))
    (hmask : MaskOf (lvl.opened g) (isFaceUsed up.bFaceused)) (hsame : SameEmpty up.grid (lvl.opened g)) :
    MaskOf g (isFaceUsed (up.putBackLevel lvl).bFaceused) ∧ SameEmpty (up.putBackLevel lvl).grid g := by
  unfold putBackLevel BtLevel.setFace
  cases path with
  | opened path level hplaced =>
    rw [BtLevel.opened_of_none hplaced] at hmask hsame
    simp only [hplaced]
    exact ⟨hmask, hsame⟩
  | placed path level hempty hfits hplaced =>
    rw [BtLevel.opened_of_some hplaced hempty] at hmask hsame
    simp only [hplaced, Option.isSome_some, if_true]
    exact ⟨hmask.place hempty hfits.piece.ne_empty fun j => isFaceUsed_setFaceUsed _ _ _ _,
      hsame.place lvl.cell (by decide) hfits.piece.ne_empty⟩

/-- The walk of `bt_min_pending_depth` up a path: the least depth of what is pending below it, or
else the walk goes on, on a board with the same empty cells and a correct mask. -/
theorem btMinPendingLevels_spec (hmap : MapOf ps map) (hroot : root.WellFormed ps)
    (path : DecisionPath ps map root scratch.grid stack) (hq : scratch.WellFormed ps) :
    ∃ up : Packet P, MaskOf scratch.grid (isFaceUsed up.bFaceused) ∧ SameEmpty up.grid scratch.grid ∧
      ∀ levels, btMinPendingLevels (stack.reverse ++ levels) (stack.foldl Packet.takeBackLevel scratch) =
        if pendingBoards scratch.grid stack = [] then btMinPendingLevels levels up
        else leastDepth (pendingBoards scratch.grid stack) := by
  induction stack generalizing scratch with
  | nil => exact ⟨scratch, hq.mask, fun _ => Iff.rfl, fun levels => (if_pos rfl).symm⟩
  | cons lvl stack ih =>
    obtain ⟨hback, hpath, hlevel⟩ := Packet.takeBackLevel_spec hroot path hq
    obtain ⟨up, hmask, hsame, hwalk⟩ := ih hpath hback
    have hsplit : pendingBoards scratch.grid (lvl :: stack) =
        candidateBoards (scratch.takeBackLevel lvl).grid lvl.cell lvl.rest ++
          pendingBoards (scratch.takeBackLevel lvl).grid stack := rfl
    obtain ⟨hupMask, hupSame⟩ := Packet.putBackLevel_spec path hmask hsame
    refine ⟨up.putBackLevel lvl, hupMask, hupSame, fun levels => ?_⟩
    rw [List.reverse_cons, List.append_assoc, List.foldl_cons, List.singleton_append, hwalk, hsplit]
    generalize scratch.takeBackLevel lvl = below at hback hpath hlevel hmask hsame hwalk ⊢
    have hcount := placedCount_candidateBoards hmap hback.grid hlevel
    by_cases hpending : pendingBoards below.grid stack = []
    · rw [if_pos hpending, hpending, List.append_nil, btMinPendingLevels]
      by_cases hany : lvl.rest.any (isFreeEntry (isFaceUsed up.bFaceused)) = true
      · obtain ⟨e, he, hfree⟩ := List.any_eq_true.mp hany
        rw [isFreeEntry_of_maskOf hmask (hlevel.mem hmap hback.grid e he)] at hfree
        have hempty := (hlevel.fits hmap hback.grid he hfree).1
        have hmem : below.grid.place lvl.cell (e.value P) ∈ candidateBoards below.grid lvl.cell lvl.rest :=
          List.mem_map_of_mem (List.mem_filter.mpr ⟨he, hfree⟩)
        have hzero : placedCount (up.grid.place lvl.cell 0) = placedCount below.grid + 1 := by
          have hfilled : (0 : Int) ≠ -2 := by decide
          rw [(hsame.place lvl.cell hfilled hfilled).placedCount, placedCount_place hempty hfilled]
        rw [if_pos hany, if_neg (List.ne_nil_of_mem hmem), hzero, ← hcount _ hmem]
        exact (leastDepth_eq hmem fun b' hb' => (hcount _ hmem).trans_le (hcount b' hb').ge).symm
      · have hnone : candidateBoards below.grid lvl.cell lvl.rest = [] := by
          refine List.map_eq_nil_iff.mpr (List.filter_eq_nil_iff.mpr fun e he hfree => hany ?_)
          rw [← isFreeEntry_of_maskOf hmask (hlevel.mem hmap hback.grid e he)] at hfree
          exact List.any_eq_true.mpr ⟨e, he, hfree⟩
        rw [if_neg hany, if_pos hnone]
    · rw [if_neg hpending, if_neg (by simp [hpending])]
      obtain ⟨b, hb, hdepth, hle⟩ := leastDepth_spec hpending
      rw [hdepth]
      refine (leastDepth_eq (List.mem_append_right _ hb) fun b' hb' => ?_).symm
      rcases List.mem_append.mp hb' with hb' | hb'
      · rw [hcount b' hb']
        exact placedCount_pendingBoards hmap hroot hpath b hb
      · exact hle b' hb'

end Boards

/-! ## The views agree -/

section Agree

variable {P : Puzzle} {ps : PieceSet P} {map : MapBigArray} {root : Grid P} {board : Packet P}
  {stack : List (BtLevel P)}

/-- `bt_min_pending_depth` is the least depth of the pending boards. -/
theorem btMinPendingDepth_eq (hmap : MapOf ps map) (hroot : root.WellFormed ps) (hboard : board.WellFormed ps)
    (path : DecisionPath ps map root board.grid stack) :
    btMinPendingDepth board stack = leastDepth (pendingBoards board.grid stack) := by
  obtain ⟨up, -, -, hwalk⟩ := btMinPendingLevels_spec hmap hroot path hboard
  have hwalk := hwalk []
  rw [List.append_nil] at hwalk
  rw [btMinPendingDepth, hwalk]
  split
  · rename_i hnone
    rw [hnone]
    rfl
  · rfl

end Agree

/-- In every reachable state and for every quota that covers the pending candidates,
`bt_materialize_pending` produces what its visits leave, `bt_count_pending` is their number and
`bt_min_pending_depth` the least depth of their boards. -/
theorem pendingViews_agree {P : Puzzle} (ps : PieceSet P) (al : MapAllocs) (cfg : BtConfig) (root : Packet P)
    (hroot : root.WellFormed ps) (r : BtRun P) (hr : Reachable ps (prepareMapPart ps al) cfg root r) (maxOut : Nat)
    (hquota : btCountPending r.st.board r.stack ≤ maxOut) :
    (btMaterializePending ps (prepareMapPart ps al) cfg.stopOnSolution maxOut r.st.board r.stack).map Prod.snd =
        Materialized.after cfg.stopOnSolution ⟨[], []⟩
          (btVisits ps (prepareMapPart ps al) maxOut r.st.board r.stack) ∧
      btCountPending r.st.board r.stack =
        (btVisits ps (prepareMapPart ps al) maxOut r.st.board r.stack).length ∧
      btMinPendingDepth r.st.board r.stack =
        leastDepth (visitedBoards (btVisits ps (prepareMapPart ps al) maxOut r.st.board r.stack)) := by
  have hmap := mapOf_prepareMapPart ps al
  obtain ⟨hpath, -⟩ := hr.spec hmap hroot
  have hboard := hpath.state.wellFormed
  have hcount := btCountPending_eq hmap hroot.grid hboard hpath.path
  have hboards : visitedBoards (btVisits ps (prepareMapPart ps al) maxOut r.st.board r.stack) =
      pendingBoards r.st.board.grid r.stack :=
    visitedBoards_loop hmap hroot.grid hpath.path hboard (by omega)
  refine ⟨btMaterializeLoop_visits r.stack, ?_, ?_⟩
  · rw [hcount, ← hboards, visitedBoards, List.length_map]
  · rw [btMinPendingDepth_eq hmap hroot.grid hboard hpath.path, hboards]

/-- The count and the least depth of what is pending after one quiet turn on the frame set without
two inner pieces. -/
def Frame.pendingRun : Option (Nat × Int) :=
  match searchPacketBacktrackingMrv (Frame.pieces .p16)
      (prepareMapPart (Frame.pieces .p16) ⟨false, fun _ => false, false, false⟩) ⟨0, true, false, false⟩
      [.quiet] (Frame.packet fun c => c.pos ≠ 5 ∧ c.pos ≠ 6) with
  | .continues r => some (btCountPending r.st.board r.stack, btMinPendingDepth r.st.board r.stack)
  | _ => none

/-- There, seven candidates are visited, and the least one makes the fifteenth piece. -/
theorem pendingViews_agree_frame :
    ∃ r, Reachable (Frame.pieces .p16)
        (prepareMapPart (Frame.pieces .p16) ⟨false, fun _ => false, false, false⟩) ⟨0, true, false, false⟩
        (Frame.packet fun c => c.pos ≠ 5 ∧ c.pos ≠ 6) r ∧
      (btVisits (Frame.pieces .p16)
        (prepareMapPart (Frame.pieces .p16) ⟨false, fun _ => false, false, false⟩) 7 r.st.board r.stack).length = 7 ∧
      leastDepth (visitedBoards (btVisits (Frame.pieces .p16)
        (prepareMapPart (Frame.pieces .p16) ⟨false, fun _ => false, false, false⟩) 7 r.st.board r.stack)) = 15 := by
  have hrun : Frame.pendingRun = some (7, 15) := by decide +kernel
  unfold Frame.pendingRun at hrun
  split at hrun
  · rename_i r hreach
    simp only [Option.some.injEq, Prod.mk.injEq] at hrun
    obtain ⟨hcount, hdepth⟩ := hrun
    obtain ⟨-, hvisits, hleast⟩ := pendingViews_agree (Frame.pieces .p16) _ _ _ (Frame.packet_wellFormed _) r
      ⟨_, hreach⟩ 7 (by rw [hcount])
    exact ⟨r, ⟨_, hreach⟩, hvisits.symm.trans hcount, hleast.symm.trans hdepth⟩
  · exact absurd hrun (by simp)
