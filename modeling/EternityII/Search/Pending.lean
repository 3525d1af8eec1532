-- SUMMARY: The implicit stock: counting the pending siblings of a stack and turning them into packets.
import EternityII.Search.Backtrack

/-!
# Materialising the implicit stock

The siblings a search has not tried yet are its implicit stock. `bt_count_pending` counts
them from the root upwards; `bt_materialize_pending` turns them into packets from the
deepest level downwards until it has enough, records the boards that are complete, drops
those its forward check refuses, and reports where every level would resume.
-/

open Cover

/-! ## Counting -/

section Count

variable {P : Puzzle}

/-- `BOARD_SET_FACE(&scratch, stack[i].placed_pos, b)`, where the level has placed a piece. -/
def BtLevel.setFace (lvl : BtLevel P) (b : Bool) (faces : Words 16) : Words 16 :=
  match lvl.placedPos with
  | none => faces
  | some position => setFaceUsed faces position b

/-- One level of `bt_count_pending`: count its free candidates, then put its piece back. -/
def btCountLevel (acc : Nat × Words 16) (lvl : BtLevel P) : Nat × Words 16 :=
  (acc.1 + lvl.rest.countP (isFreeEntry (isFaceUsed acc.2)), lvl.setFace true acc.2)

/-- `bt_count_pending`: all placements are taken back from the top, then the levels are
visited from the root. -/
def btCountPending (board : Packet P) (stack : List (BtLevel P)) : Nat :=
  let faces := stack.foldl (fun faces lvl => lvl.setFace false faces) board.bFaceused
  (stack.reverse.foldl btCountLevel (0, faces)).1

end Count

/-! ## Materialising -/

/-- What `bt_materialize_pending` has produced so far: the packets of `out`, and the boards
handed to `record_solution`. -/
structure Materialized (P : Puzzle) where
  out : List (Packet P)
  recorded : List (Packet P)

section Materialize

variable {P : Puzzle} (ps : PieceSet P) (map : MapBigArray) (stopOnSolution : Bool) (maxOut : Nat)

/-- `out[count]` for a candidate of a level. -/
def Packet.materialize (scratch : Packet P) (lvl : BtLevel P) (cand : PuzzlePart) : Packet P :=
  let grid := scratch.grid.place lvl.cell (cand.value P)
  { scratch with
    grid := grid
    bFaceused := setFaceUsed scratch.bFaceused (cand.id - 1) true
    alloc := UInt16.ofNat (placedCount grid)
    minCandidats := lvl.mrvScore }

/-- The loop over the candidates of a level: where it stops, and what it has produced.
With `--stop-on-solution` the process ends in `record_solution`; the error is then the list
of boards recorded until there. -/
def btMaterializeLevel (scratch : Packet P) (lvl : BtLevel P) :
    List PuzzlePart → Nat → Materialized P → Except (List (Packet P)) (Nat × Materialized P)
  | [], s, acc => .ok (s, acc)
  | cand :: search, s, acc =>
    if acc.out.length < maxOut then
      if cand.id = 0 then btMaterializeLevel scratch lvl search (s + 1) acc
      else if isFaceUsed scratch.bFaceused (cand.id - 1) then
        btMaterializeLevel scratch lvl search (s + 1) acc
      else
        let pkt := scratch.materialize lvl cand
        if pkt.alloc.toNat ≥ P.eternParts then
          if stopOnSolution then .error (acc.recorded ++ [pkt])
          else btMaterializeLevel scratch lvl search (s + 1)
            { acc with recorded := acc.recorded ++ [pkt] }
        else
          let pkt := { pkt with checked := 0 }
          if forwardCheckNextK ps map pkt then
            btMaterializeLevel scratch lvl search (s + 1) { acc with out := acc.out ++ [pkt] }
          else btMaterializeLevel scratch lvl search (s + 1) acc
    else .ok (s, acc)

/-- The scratch board with the placement of a level taken back. -/
def Packet.takeBackLevel (scratch : Packet P) (lvl : BtLevel P) : Packet P :=
  { scratch with grid := lvl.opened scratch.grid, bFaceused := lvl.setFace false scratch.bFaceused }

/-- The loop over the levels, the top first, with `new_next_s` for each of them. -/
def btMaterializeLoop : List (BtLevel P) → Packet P → Materialized P →
    Except (List (Packet P)) (List Nat × Materialized P)
  | [], _, acc => .ok ([], acc)
  | lvl :: stack, scratch, acc =>
    if acc.out.length < maxOut then
      let scratch := scratch.takeBackLevel lvl
      match lvl.search with
      | none => (btMaterializeLoop stack scratch acc).map fun r => (lvl.nextS :: r.1, r.2)
      | some search =>
        match btMaterializeLevel ps map stopOnSolution maxOut scratch lvl (search.drop lvl.nextS)
            lvl.nextS acc with
        | .error recorded => .error recorded
        | .ok (s, acc) => (btMaterializeLoop stack scratch acc).map fun r => (s :: r.1, r.2)
    else .ok ((lvl :: stack).map BtLevel.nextS, acc)

/-- `bt_materialize_pending`: `new_next_s`, the packets and the recorded boards. -/
def btMaterializePending (board : Packet P) (stack : List (BtLevel P)) :
    Except (List (Packet P)) (List Nat × Materialized P) :=
  btMaterializeLoop ps map stopOnSolution maxOut stack board ⟨[], []⟩

/-- `stack[i].next_s = new_next_s[i]`. -/
def btCommit (stack : List (BtLevel P)) (newNextS : List Nat) : List (BtLevel P) :=
  List.zipWith (fun lvl s => { lvl with nextS := s }) stack newNextS

end Materialize

/-! ## What a level yields -/

/-- A packet on its way to the server: well formed, counted, and not checked. -/
structure HandedOver {P : Puzzle} (ps : PieceSet P) (q : Packet P) : Prop where
  wellFormed : q.WellFormed ps
  alloc : q.alloc.toNat = placedCount q.grid
  checked : q.checked = 0

/-- A board handed to `record_solution`. -/
structure Solved {P : Puzzle} (ps : PieceSet P) (q : Packet P) : Prop where
  wellFormed : q.WellFormed ps
  full : ∀ c, q.grid c ≠ -2

/-- The boards of `before` have become the packets `out`, the recorded boards `recorded`
and the boards of `after` that stay. -/
structure Yields {P : Puzzle} (ps : PieceSet P) (maxOut : Nat) (before after : List (Grid P))
    (acc acc' : Materialized P) (out recorded : List (Packet P)) : Prop where
  out_eq : acc'.out = acc.out ++ out
  recorded_eq : acc'.recorded = acc.recorded ++ recorded
  load : ∀ b, load (Grid.completions ps) before b = load (Grid.completions ps) (out.map Packet.grid) b +
    load (Grid.completions ps) (recorded.map Packet.grid) b + load (Grid.completions ps) after b
  room : acc'.out.length < maxOut → after = []
  count : out.length + after.length ≤ before.length
  handed : ∀ q ∈ out, HandedOver ps q
  solved : ∀ q ∈ recorded, Solved ps q

section Yields

variable {P : Puzzle} {ps : PieceSet P} {map : MapBigArray} {stopOnSolution : Bool} {maxOut : Nat}
  {g root : Grid P} {lvl : BtLevel P} {stack : List (BtLevel P)} {scratch : Packet P}

theorem Yields.none {work : List (Grid P)} {acc : Materialized P}
    (h : acc.out.length < maxOut → work = []) : Yields ps maxOut work work acc acc [] [] :=
  ⟨by simp, by simp, fun b => by simp, h, by simp, by simp, by simp⟩

/-- One batch of work after the other. -/
theorem Yields.append {before₁ after₁ before₂ after₂ : List (Grid P)} {acc acc₁ acc₂ : Materialized P}
    {out₁ rec₁ out₂ rec₂ : List (Packet P)} (h₁ : Yields ps maxOut before₁ after₁ acc acc₁ out₁ rec₁)
    (h₂ : Yields ps maxOut before₂ after₂ acc₁ acc₂ out₂ rec₂) :
    Yields ps maxOut (before₁ ++ before₂) (after₁ ++ after₂) acc acc₂ (out₁ ++ out₂) (rec₁ ++ rec₂) := by
  have hlength : acc₁.out.length ≤ acc₂.out.length := by
    rw [h₂.out_eq, List.length_append]
    omega
  have hcount₁ := h₁.count
  have hcount₂ := h₂.count
  refine ⟨by rw [h₂.out_eq, h₁.out_eq, List.append_assoc],
    by rw [h₂.recorded_eq, h₁.recorded_eq, List.append_assoc], fun b => ?_, fun hroom => ?_, ?_, ?_, ?_⟩
  · have hload₁ := h₁.load b
    have hload₂ := h₂.load b
    simp only [List.map_append, load_append]
    omega
  · rw [h₁.room (by omega), h₂.room hroom, List.append_nil]
  · simp only [List.length_append]
    omega
  · exact fun q hq => (List.mem_append.mp hq).elim (h₁.handed q) (h₂.handed q)
  · exact fun q hq => (List.mem_append.mp hq).elim (h₁.solved q) (h₂.solved q)

/-- The board of one candidate, sent. -/
private theorem Yields.sent {acc : Materialized P} {q : Packet P} (hq : HandedOver ps q) :
    Yields ps maxOut [q.grid] [] acc { acc with out := acc.out ++ [q] } [q] [] :=
  ⟨by simp, by simp, fun b => by simp, fun _ => rfl, by simp, by simpa using hq, by simp⟩

/-- The board of one candidate, recorded as a solution. -/
private theorem Yields.recorded {acc : Materialized P} {q : Packet P} (hq : Solved ps q) :
    Yields ps maxOut [q.grid] [] acc { acc with recorded := acc.recorded ++ [q] } [] [q] :=
  ⟨by simp, by simp, fun b => by simp, fun _ => rfl, by simp, by simp, by simpa using hq⟩

/-- The board of one candidate, refused by the forward check. -/
private theorem Yields.dropped {acc : Materialized P} {b : Grid P} (hb : b.completions ps = ∅) :
    Yields ps maxOut [b] [] acc acc [] [] :=
  ⟨by simp, by simp, fun b' => by simp [load_cons, hb], fun _ => rfl, by simp, by simp, by simp⟩

theorem Packet.materialize_spec {cand : PuzzlePart} (hq : scratch.WellFormed ps)
    (hc : scratch.grid lvl.cell = -2) (he : cand ∈ rotateAllPartsList ps) (hid : cand.id ≠ 0)
    (hfits : Grid.Fits ps scratch.grid lvl.cell (cand.value P)) :
    (scratch.materialize lvl cand).WellFormed ps ∧
      (scratch.materialize lvl cand).alloc.toNat = placedCount (scratch.materialize lvl cand).grid := by
  refine ⟨⟨hq.grid.place hc hfits, ?_⟩, ?_⟩
  · refine hq.mask.place hc hfits.piece.ne_empty fun j => ?_
    rw [(rotateAllParts_value he hid).2.1]
    exact isFaceUsed_setFaceUsed _ _ _ _
  · have hle := placedCount_le (scratch.grid.place lvl.cell (cand.value P))
    have hparts := P.eternParts_le
    show (UInt16.ofNat (placedCount (scratch.grid.place lvl.cell (cand.value P)))).toNat = _
    rw [UInt16.toNat_ofNat', Nat.mod_eq_of_lt (by omega)]
    rfl

theorem btMaterializeLevel_spec (hmap : MapOf ps map) (hq : scratch.WellFormed ps)
    (hc : scratch.grid lvl.cell = -2) {l : List PuzzlePart} (hl : ∀ e ∈ l, e ∈ rotateAllPartsList ps)
    (hfits : ∀ e ∈ l, isFreeEntry (usedPieces scratch.grid) e = true →
      Grid.Fits ps scratch.grid lvl.cell (e.value P))
    {s s' : Nat} {acc acc' : Materialized P}
    (h : btMaterializeLevel ps map stopOnSolution maxOut scratch lvl l s acc = .ok (s', acc')) :
    ∃ k out recorded, s' = s + k ∧ Yields ps maxOut (candidateBoards scratch.grid lvl.cell l)
      (candidateBoards scratch.grid lvl.cell (l.drop k)) acc acc' out recorded := by
  induction l generalizing s acc with
  | nil =>
    simp only [btMaterializeLevel, Except.ok.injEq, Prod.mk.injEq] at h
    obtain ⟨rfl, rfl⟩ := h
    exact ⟨0, [], [], rfl, .none fun _ => rfl⟩
  | cons e l ih =>
    rw [List.forall_mem_cons] at hl hfits
    have hfree := isFreeEntry_of_maskOf hq.mask hl.1
    -- What the rest of the list yields, after what `e` has yielded.
    have hnext : ∀ {work : List (Grid P)} {acc₁ : Materialized P} {out recorded : List (Packet P)},
        candidateBoards scratch.grid lvl.cell (e :: l) = work ++ candidateBoards scratch.grid lvl.cell l →
        Yields ps maxOut work [] acc acc₁ out recorded →
        btMaterializeLevel ps map stopOnSolution maxOut scratch lvl l (s + 1) acc₁ = .ok (s', acc') →
        ∃ k out recorded, s' = s + k ∧
          Yields ps maxOut (candidateBoards scratch.grid lvl.cell (e :: l))
            (candidateBoards scratch.grid lvl.cell ((e :: l).drop k)) acc acc' out recorded := by
      intro work acc₁ out recorded hwork hfirst h
      obtain ⟨k, out', recorded', rfl, hrest⟩ := ih hl.2 hfits.2 h
      refine ⟨k + 1, out ++ out', recorded ++ recorded', by omega, ?_⟩
      rw [hwork]
      exact hfirst.append hrest
    unfold btMaterializeLevel at h
    split at h
    · have hskip : isFreeEntry (usedPieces scratch.grid) e = false →
          candidateBoards scratch.grid lvl.cell (e :: l) = [] ++ candidateBoards scratch.grid lvl.cell l :=
        fun hnot => candidateBoards_cons_of_not_free hnot l
      split at h
      · rename_i hid
        exact hnext (hskip (by simp [isFreeEntry, hid])) (.none fun _ => rfl) h
      · rename_i hid
        split at h
        · rename_i hused
          exact hnext (hskip (by rw [← hfree]; simp [isFreeEntry, hused])) (.none fun _ => rfl) h
        · rename_i hused
          have hfree : isFreeEntry (usedPieces scratch.grid) e = true := by
            rw [← hfree]
            simp [isFreeEntry, hid, hused]
          obtain ⟨hwf, halloc⟩ := Packet.materialize_spec hq hc hl.1 hid (hfits.1 hfree)
          have hone : candidateBoards scratch.grid lvl.cell (e :: l) =
              [(scratch.materialize lvl e).grid] ++ candidateBoards scratch.grid lvl.cell l :=
            candidateBoards_cons_of_free hfree l
          dsimp only at h
          split at h
          · rename_i hfull
            have hle := placedCount_le (scratch.materialize lvl e).grid
            split at h
            · exact absurd h (by simp)
            · exact hnext hone (.recorded ⟨hwf, placedCount_eq_iff.mp (by omega)⟩) h
          · split at h
            · have hsent : HandedOver ps { scratch.materialize lvl e with checked := 0 } :=
                ⟨⟨hwf.grid, hwf.mask⟩, halloc, rfl⟩
              refine hnext ?_ (.sent hsent) h
              exact hone
            · rename_i hdead
              have hempty := completions_of_forwardCheckNextK hmap
                (q := { scratch.materialize lvl e with checked := 0 }) ⟨hwf.grid, hwf.mask⟩
                (Bool.not_eq_true _ ▸ hdead)
              exact hnext hone (.dropped hempty) h
    · rename_i hfull
      simp only [Except.ok.injEq, Prod.mk.injEq] at h
      obtain ⟨rfl, rfl⟩ := h
      exact ⟨0, [], [], rfl, .none fun hroom => absurd hroom hfull⟩

/-! ## What the stack yields -/

/-- The scratch board after taking back the top level is the board below it. -/
theorem Packet.takeBackLevel_spec (hroot : root.WellFormed ps)
    (path : DecisionPath ps map root scratch.grid (lvl :: stack)) (hq : scratch.WellFormed ps) :
    (scratch.takeBackLevel lvl).WellFormed ps ∧
      DecisionPath ps map root (scratch.takeBackLevel lvl).grid stack ∧
      lvl.OpenedAt ps map (scratch.takeBackLevel lvl).grid := by
  unfold takeBackLevel BtLevel.setFace
  generalize hgrid : scratch.grid = g at path
  cases path with
  | opened path level hplaced =>
    simp only [BtLevel.opened_of_none hplaced, hplaced]
    rw [← hgrid] at path level ⊢
    exact ⟨hq, path, level⟩
  | @placed g' _ _ v path level hempty hfits hplaced =>
    simp only [BtLevel.opened_of_some hplaced hempty, hplaced]
    refine ⟨⟨path.wellFormed hroot, ?_⟩, path, level⟩
    have hmask : MaskOf (g'.place lvl.cell v) (isFaceUsed scratch.bFaceused) := hgrid ▸ hq.mask
    exact hmask.unplace hempty hfits fun j => isFaceUsed_setFaceUsed _ _ _ _

/-- Moving the resume position of a level keeps the path. -/
theorem DecisionPath.setNext (path : DecisionPath ps map root g (lvl :: stack))
    {stack' : List (BtLevel P)} (path' : DecisionPath ps map root (lvl.opened g) stack') (s : Nat) :
    DecisionPath ps map root g ({ lvl with nextS := s } :: stack') := by
  cases path with
  | opened _ level hplaced =>
    rw [BtLevel.opened_of_none hplaced] at path'
    exact .opened path' level hplaced
  | placed _ level hempty hfits hplaced =>
    rw [BtLevel.opened_of_some hplaced hempty] at path'
    have level' : BtLevel.OpenedAt ps map { lvl with nextS := s } _ := level
    exact .placed path' level' hempty hfits hplaced

@[simp] theorem btCommit_nextS (stack : List (BtLevel P)) :
    btCommit stack (stack.map BtLevel.nextS) = stack := by
  induction stack with
  | nil => rfl
  | cons lvl stack ih => exact congrArg (lvl :: ·) ih

theorem exists_of_map_eq_ok {ε α β : Type} {f : α → β} {x : Except ε α} {b : β}
    (h : x.map f = .ok b) : ∃ a, x = .ok a ∧ f a = b := by
  cases x with
  | error e => simp [Except.map] at h
  | ok a => exact ⟨a, rfl, by simpa [Except.map] using h⟩

theorem btMaterializeLoop_spec (hmap : MapOf ps map) (hroot : root.WellFormed ps)
    (path : DecisionPath ps map root scratch.grid stack) (hq : scratch.WellFormed ps)
    {acc acc' : Materialized P} {newNextS : List Nat}
    (h : btMaterializeLoop ps map stopOnSolution maxOut stack scratch acc = .ok (newNextS, acc')) :
    DecisionPath ps map root scratch.grid (btCommit stack newNextS) ∧
      ∃ out recorded, Yields ps maxOut (pendingBoards scratch.grid stack)
        (pendingBoards scratch.grid (btCommit stack newNextS)) acc acc' out recorded := by
  induction stack generalizing scratch acc newNextS with
  | nil =>
    simp only [btMaterializeLoop, Except.ok.injEq, Prod.mk.injEq] at h
    obtain ⟨rfl, rfl⟩ := h
    exact ⟨path, [], [], .none fun _ => rfl⟩
  | cons lvl stack ih =>
    obtain ⟨hback, hpath, hlevel⟩ := Packet.takeBackLevel_spec hroot path hq
    -- The levels below, after this level has resumed at `nextS + k` and yielded its part.
    have hbelow : ∀ {k : Nat} {acc₁ : Materialized P} {out recorded : List (Packet P)}
        {r : List Nat × Materialized P},
        Yields ps maxOut (candidateBoards (lvl.opened scratch.grid) lvl.cell lvl.rest)
          (candidateBoards (lvl.opened scratch.grid) lvl.cell (lvl.rest.drop k)) acc acc₁ out recorded →
        btMaterializeLoop ps map stopOnSolution maxOut stack (scratch.takeBackLevel lvl) acc₁ = .ok r →
        r.2 = acc' → (lvl.nextS + k) :: r.1 = newNextS →
        DecisionPath ps map root scratch.grid (btCommit (lvl :: stack) newNextS) ∧
          ∃ out recorded, Yields ps maxOut (pendingBoards scratch.grid (lvl :: stack))
            (pendingBoards scratch.grid (btCommit (lvl :: stack) newNextS)) acc acc' out recorded := by
      rintro k acc₁ out recorded r hfirst hloop rfl rfl
      obtain ⟨hcommit, out', recorded', hrest⟩ := ih hpath hback hloop
      refine ⟨path.setNext hcommit _, out ++ out', recorded ++ recorded', ?_⟩
      have happend := hfirst.append hrest
      rw [BtLevel.rest, List.drop_drop] at happend
      exact happend
    unfold btMaterializeLoop at h
    split at h
    · dsimp only at h
      split at h
      · rename_i hsearch
        obtain ⟨r, hloop, heq⟩ := exists_of_map_eq_ok h
        rw [Prod.mk.injEq] at heq
        have hnil : lvl.rest = [] := by simp [BtLevel.rest, hsearch]
        refine hbelow (k := 0) (.none fun _ => ?_) hloop heq.2 heq.1
        rw [hnil]
        rfl
      · rename_i search hsearch
        split at h
        · exact absurd h (by simp)
        · rename_i s acc₁ hlevelrun
          obtain ⟨r, hloop, heq⟩ := exists_of_map_eq_ok h
          rw [Prod.mk.injEq] at heq
          have hrest : lvl.rest = search.drop lvl.nextS := by simp [BtLevel.rest, hsearch]
          rw [← hrest] at hlevelrun
          have hg := hback.grid
          obtain ⟨k, out, recorded, rfl, hfirst⟩ := btMaterializeLevel_spec hmap hback
            (hlevel search hsearch).1 (hlevel.mem hmap hg)
            (fun e he hfree => (hlevel.fits hmap hg he hfree).2) hlevelrun
          exact hbelow hfirst hloop heq.2 heq.1
    · rename_i hfull
      simp only [Except.ok.injEq, Prod.mk.injEq] at h
      obtain ⟨rfl, rfl⟩ := h
      rw [btCommit_nextS]
      exact ⟨path, [], [], .none fun hroom => absurd hroom hfull⟩

end Yields

/-! ## Totals -/

section Totals

variable {P : Puzzle} {ps : PieceSet P} {map : MapBigArray} {g root : Grid P} {lvl : BtLevel P}
  {stack : List (BtLevel P)}

/-- The masks `bt_count_pending` rebuilds on its way up are masks of the boards on the path. -/
private theorem btCountLevels_spec (hmap : MapOf ps map) (hroot : root.WellFormed ps)
    (path : DecisionPath ps map root g stack) {faces : Words 16} (hmask : MaskOf g (isFaceUsed faces)) :
    ∃ faces', stack.reverse.foldl btCountLevel
        (0, stack.foldl (fun faces lvl => lvl.setFace false faces) faces) =
        ((pendingBoards g stack).length, faces') ∧ MaskOf g (isFaceUsed faces') := by
  induction stack generalizing g faces with
  | nil => exact ⟨faces, rfl, hmask⟩
  | cons lvl stack ih =>
    have hstep : ∀ {g' : Grid P} {faces' : Words 16}, MaskOf g' (isFaceUsed faces') →
        g'.WellFormed ps → lvl.OpenedAt ps map g' → lvl.opened g = g' →
        (btCountLevel ((pendingBoards g' stack).length, faces') lvl).1 =
          (pendingBoards g (lvl :: stack)).length := by
      intro g' faces' hmask' hg' hlevel hopened
      have hcount : lvl.rest.countP (isFreeEntry (isFaceUsed faces')) =
          (candidateBoards g' lvl.cell lvl.rest).length := by
        rw [candidateBoards, List.length_map, ← List.countP_eq_length_filter]
        exact List.countP_congr fun e he => by
          rw [isFreeEntry_of_maskOf hmask' (hlevel.mem hmap hg' e he)]
      rw [pendingBoards, hopened, List.length_append, btCountLevel, hcount, Nat.add_comm]
    simp only [List.foldl_cons, List.reverse_cons, List.foldl_append, List.foldl_nil]
    cases path with
    | opened path level hplaced =>
      have hface : ∀ b faces, lvl.setFace b faces = faces := fun b faces => by
        rw [BtLevel.setFace, hplaced]
      obtain ⟨faces', heq, hmask'⟩ := ih path hmask
      rw [hface, heq]
      have hone := hstep hmask' (path.wellFormed hroot) level (BtLevel.opened_of_none hplaced)
      refine ⟨_, Prod.ext hone rfl, ?_⟩
      show MaskOf g (isFaceUsed (lvl.setFace true faces'))
      rwa [hface]
    | @placed g' _ _ v path level hempty hfits hplaced =>
      have hface : ∀ b faces, lvl.setFace b faces = setFaceUsed faces (pieceId P v - 1) b :=
        fun b faces => by rw [BtLevel.setFace, hplaced]
      have hback : MaskOf g' (isFaceUsed (lvl.setFace false faces)) := by
        rw [hface]
        exact hmask.unplace hempty hfits fun j => isFaceUsed_setFaceUsed _ _ _ _
      obtain ⟨faces', heq, hmask'⟩ := ih path hback
      rw [heq]
      have hone := hstep hmask' (path.wellFormed hroot) level
        (BtLevel.opened_of_some hplaced hempty v)
      refine ⟨_, Prod.ext hone rfl, ?_⟩
      show MaskOf (g'.place lvl.cell v) (isFaceUsed (lvl.setFace true faces'))
      rw [hface]
      exact hmask'.place hempty hfits.piece.ne_empty fun j => isFaceUsed_setFaceUsed _ _ _ _

/-- `bt_count_pending` counts the pending boards. -/
theorem btCountPending_eq (hmap : MapOf ps map) (hroot : root.WellFormed ps) {board : Packet P}
    (hboard : board.WellFormed ps) (path : DecisionPath ps map root board.grid stack) :
    btCountPending board stack = (pendingBoards board.grid stack).length := by
  obtain ⟨faces', heq, -⟩ := btCountLevels_spec hmap hroot path hboard.mask
  rw [btCountPending, heq]

end Totals
