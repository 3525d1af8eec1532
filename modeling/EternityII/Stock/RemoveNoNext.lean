-- SUMMARY: The pruning of the stock: what `remove_possibilities_with_no_next` takes out and writes.
import EternityII.Possibility.Forced
import EternityII.Stock.Canonical
import EternityII.Stock.Lifo

/-!
# Pruning the stock

The server walks over its unverified files. A possibility that a forced placement leads to a dead
cell is unlinked; one that the forced placements complete is written as a solution, then unlinked.
The forced placements are made on a copy: what stays in a file is what was there.
-/

/-! ## The walk -/

section Walk

variable {ι : Type*} {P : Puzzle} (ps : PieceSet P) (map : MapBigArray)

/-- The lines of `save_solution_csv` below the header: the row and the column of a placed cell, and
its part with the number, the rotation and the four sides. -/
def saveSolutionCsv (poss : Packet P) : List (Cell P × PuzzlePart) :=
  (Cell.all P).filterMap fun c =>
    if poss.grid c < 0 then none else some (c, rotateAllParts ps (poss.grid c).toNat)

/-- What the walk knows of an element: `possibility` as the forced placements leave it, `has_next`
and `cells_studied`. An element that cannot be read has no packet and no next. -/
structure NoNextVerdict (P : Puzzle) where
  possibility : Option (Packet P)
  hasNext : Bool
  cellsStudied : Nat

namespace NoNextVerdict

/-- The packet when it is complete: `is_solution`. -/
def solution (v : NoNextVerdict P) : Option (Packet P) := v.possibility.filter fun p => P.eternParts ≤ p.alloc.toNat

/-- The element stays in its file. -/
def stays (v : NoNextVerdict P) : Bool := v.hasNext && v.solution.isNone

end NoNextVerdict

/-- The study of an element; a walk of the forced placements fills a cell or is the last one. -/
def noNextVerdict (element : Element P) : Option (NoNextVerdict P) :=
  match element.load with
  | none => some ⟨none, false, 0⟩
  | some possibility =>
    (possibilityAllHasANextCounted ps map (P.eternParts + 1) possibility).map fun r =>
      ⟨some r.packet, r.result, r.cellsStudied⟩

/-- The walk over a file: the element under study, `rmnonext_sol_seq`, the solutions written so far
with the number in their name, `total_cells`, and whether the process has ended. -/
structure NoNextWalk (ι : Type*) (P : Puzzle) where
  file : File ι P
  currElement : Option ι
  seq : Nat
  solutions : List (Nat × List (Cell P × PuzzlePart))
  totalCells : Nat
  exited : Bool

variable [DecidableEq ι] (stopOnSolution : Bool) (writes : Nat → Bool)

/-- A complete packet is written; `writes` says for each number whether its file can be opened and
written. The walk goes on in any case, unless a solution ends the process. -/
def NoNextWalk.solve (s : NoNextWalk ι P) (possibility : Packet P) : NoNextWalk ι P :=
  { s with
    seq := s.seq + 1
    solutions := if writes s.seq then s.solutions ++ [(s.seq, saveSolutionCsv ps possibility)] else s.solutions
    exited := stopOnSolution }

/-- A turn of the walk on `currElement`. The link to the next element is read before the element is
unlinked. -/
def noNextTurn (s : NoNextWalk ι P) (currElement : ι) : Option (NoNextWalk ι P) :=
  (noNextVerdict ps map (s.file.data currElement)).map fun v =>
    let s := { s with totalCells := s.totalCells + if v.cellsStudied > 0 then v.cellsStudied else 1 }
    let solved :=
      match v.solution with
      | none => s
      | some possibility => s.solve ps stopOnSolution writes possibility
    if solved.exited then solved
    else
      { solved with
        file := if v.stays then s.file else s.file.removeElement currElement
        currElement := s.file.links.next currElement }

/-- The `while` loop of the walk, `none` when it does not end within the fuel. -/
def noNextLoop : Nat → NoNextWalk ι P → Option (NoNextWalk ι P)
  | 0, _ => none
  | fuel + 1, s =>
    if s.exited then some s
    else
      match s.currElement with
      | none => some s
      | some currElement =>
        (noNextTurn ps map stopOnSolution writes s currElement).bind (noNextLoop fuel)

/-- The files of the stock, verified for `true`, with what the walks over them leave. -/
structure NoNextStock (ι : Type*) (P : Puzzle) where
  segment : Bool → Nat → File ι P
  seq : Nat
  solutions : List (Nat × List (Cell P × PuzzlePart))
  totalCells : Nat
  exited : Bool

/-- The walk over one unverified file. -/
def noNextFile (fuel : Nat) (s : NoNextStock ι P) (fp : Nat) : Option (NoNextStock ι P) :=
  if s.exited then some s
  else
    let file := s.segment false fp
    (noNextLoop ps map stopOnSolution writes fuel
      ⟨file, file.links.first, s.seq, s.solutions, s.totalCells, false⟩).map fun w =>
      { s with
        segment := fun b f => if b = false ∧ f = fp then w.file else s.segment b f
        seq := w.seq
        solutions := w.solutions
        totalCells := w.totalCells
        exited := w.exited }

/-- `remove_possibilities_with_no_next` on the files of the two pools. -/
def removePossibilitiesWithNoNext (fuel nbFilePossibility : Nat) (segment : Bool → Nat → File ι P) (seq : Nat) :
    Option (NoNextStock ι P) :=
  (List.range nbFilePossibility).foldlM (noNextFile ps map stopOnSolution writes fuel) ⟨segment, seq, [], 0, false⟩

end Walk

/-! ## The study of an element -/

section Verdict

variable {P : Puzzle} {ps : PieceSet P} {map : MapBigArray} {element : Element P} {p : Packet P}

/-- An element with a record of the codec, and the legal board that is read from it. -/
structure Prunable (ps : PieceSet P) (element : Element P) (p : Packet P) : Prop where
  record : ∃ record, element = .compact record ∧ IsRecord P record
  load : element.load = some p
  wellFormed : p.WellFormed ps

variable (ps map) in
/-- The verdict on an element. -/
def Element.verdict (element : Element P) : NoNextVerdict P := (noNextVerdict ps map element).getD ⟨none, false, 0⟩

/-- The forced placements complete the board of the packet. -/
structure Completes (ps : PieceSet P) (map : MapBigArray) (p q : Packet P) : Prop where
  forced : ∃ r, possibilityAllHasANextCounted ps map (P.eternParts + 1) p = some r ∧ r.packet = q
  full : ∀ c, q.grid c ≠ -2
  completions : p.completions ps = {q.grid}

theorem Completes.unique {q q' : Packet P} (h : Completes ps map p q) (h' : Completes ps map p q') : q = q' := by
  obtain ⟨r, hr, rfl⟩ := h.forced
  obtain ⟨r', hr', rfl⟩ := h'.forced
  rw [Option.some.inj (hr.symm.trans hr')]

theorem Prunable.isEmpty (h : Prunable ps element p) : element.isEmpty = false := by
  have hload := h.load
  unfold Element.load at hload
  exact Bool.eq_false_of_not_eq_true (Option.ite_none_left_eq_some.mp hload).1

theorem Prunable.alloc (h : Prunable ps element p) : p.alloc.toNat = placedCount p.grid := by
  obtain ⟨record, rfl, hrecord⟩ := h.record
  have hload : recordPacket P record = some p := by
    have := h.load
    unfold Element.load at this
    exact (Option.ite_none_left_eq_some.mp this).2
  obtain ⟨p₀, hp₀⟩ := hrecord
  obtain ⟨record', q, hrecord', hq, hcanonical⟩ := recordPacket_recordOf (encodable_iff.mpr (by rw [hp₀]; rfl))
  obtain rfl := Option.some.inj (hrecord'.symm.trans hp₀)
  obtain rfl := Option.some.inj (hq.symm.trans hload)
  rw [hcanonical.alloc, hcanonical.grid]

/-- What is read back from the record of a legal board is a legal board. -/
theorem Canonical.wellFormed {p q : Packet P} (h : Canonical p q) (hp : p.WellFormed ps) : q.WellFormed ps := by
  refine ⟨h.grid ▸ hp.grid, fun i hi hi' => ?_⟩
  rw [h.faceUsed, h.grid]
  refine exists_congr fun c => ?_
  have hplaced : 1 ≤ p.grid c ↔ p.grid c ≠ -2 := by
    rcases hp.grid.cell c with hempty | hpiece
    · rw [hempty]
      decide
    · exact iff_of_true (isPiece_iff.mp hpiece).1 hpiece.ne_empty
  rw [hplaced, pieceId]
  exact and_congr_right fun _ => by omega

/-- A legal board has a record, which can be pruned. -/
theorem exists_prunable {p : Packet P} (hp : p.WellFormed ps) :
    ∃ q, Prunable ps (.compact ((recordOf p).getD [])) q ∧ q.grid = p.grid := by
  obtain ⟨record, q, hrecord, hload, hcanonical⟩ := recordPacket_recordOf (codecValue_of_wellFormed hp.grid)
  rw [hrecord, Option.getD_some]
  have hlength : record.length ≠ 0 := Nat.ne_of_gt (IsRecord.length_pos ⟨p, hrecord⟩)
  refine ⟨q, ⟨⟨record, rfl, p, hrecord⟩, ?_, hcanonical.wellFormed hp⟩, hcanonical.grid⟩
  unfold Element.load
  rw [if_neg (by simpa [Element.isEmpty, Element.len] using hlength)]
  exact hload

/-- A packet that stays without a next has no completion, and one that is complete is the only
completion of what was read. -/
theorem Prunable.verdict (hmap : MapOf ps map) (h : Prunable ps element p) :
    noNextVerdict ps map element = some (element.verdict ps map) ∧
      ((element.verdict ps map).hasNext = false → p.completions ps = ∅) ∧
      ∀ q, (element.verdict ps map).solution = some q ↔ Completes ps map p q := by
  obtain ⟨r, hrun, hspec⟩ := possibilityAllHasANextCounted_spec hmap h.wellFormed
  have hr := hrun (P.eternParts + 1) (Nat.lt_succ_self _)
  have hverdict : noNextVerdict ps map element = some ⟨some r.packet, r.result, r.cellsStudied⟩ := by
    unfold noNextVerdict
    rw [h.load]
    exact congrArg (Option.map _) hr
  have heq : element.verdict ps map = ⟨some r.packet, r.result, r.cellsStudied⟩ := by
    unfold Element.verdict
    rw [hverdict, Option.getD_some]
  have halloc : r.packet.alloc.toNat = placedCount r.packet.grid := by
    by_cases hgrid : r.packet.grid = p.grid
    · rcases hspec.same hgrid with hsame | halloc
      · rw [hsame, h.alloc]
      · exact halloc
    · exact hspec.alloc hgrid
  have hfull : P.eternParts ≤ r.packet.alloc.toNat ↔ ∀ c, r.packet.grid c ≠ -2 := by
    rw [halloc, ← placedCount_eq_iff]
    exact (placedCount_le _).ge_iff_eq
  rw [heq]
  refine ⟨hverdict, hspec.dead, fun q => ?_⟩
  rw [NoNextVerdict.solution, Option.filter_some]
  constructor
  · intro hq
    obtain ⟨hlarge, hsome⟩ := Option.ite_none_right_eq_some.mp hq
    obtain rfl := Option.some.inj hsome
    have hgrid := hfull.mp (of_decide_eq_true hlarge)
    refine ⟨⟨r, hr, rfl⟩, hgrid, ?_⟩
    rw [← hspec.completions]
    exact Grid.completions_of_full hspec.wellFormed.grid hgrid
  · intro hq
    obtain ⟨r', hr', rfl⟩ := hq.forced
    obtain rfl := Option.some.inj (hr.symm.trans hr')
    exact if_pos (decide_eq_true (hfull.mpr hq.full))

end Verdict

/-! ## What a walk leaves -/

section Walked

variable {ι : Type*} {P : Puzzle} (ps : PieceSet P) (map : MapBigArray) (writes : Nat → Bool)

/-- The complete boards of some elements, in their order. -/
def noNextBoards (data : ι → Element P) (l : List ι) : List (Packet P) :=
  l.filterMap fun e => ((data e).verdict ps map).solution

/-- The elements that stay. -/
def noNextStays (data : ι → Element P) (l : List ι) : List ι := l.filter fun e => ((data e).verdict ps map).stays

/-- The files written for some boards, numbered from `seq`. -/
def noNextWritten (seq : Nat) : List (Packet P) → List (Nat × List (Cell P × PuzzlePart))
  | [] => []
  | q :: boards => (if writes seq then [(seq, saveSolutionCsv ps q)] else []) ++ noNextWritten (seq + 1) boards

/-- Where a walk is that has studied `done` and not yet `rest`. -/
structure Walked (stopOnSolution : Bool) (data : ι → Element P) (seq : Nat)
    (solutions : List (Nat × List (Cell P × PuzzlePart))) (done rest : List ι) (w : NoNextWalk ι P) : Prop where
  chains : w.file.Chains (noNextStays ps map data done ++ rest)
  sameData : w.file.data = data
  exited : w.exited = true → stopOnSolution = true
  alone : stopOnSolution = true → noNextBoards ps map data done = []
  curr : w.exited = false → w.currElement = rest.head?
  numbered : w.exited = false → w.seq = seq + (noNextBoards ps map data done).length
  written : w.exited = false → w.solutions = solutions ++ noNextWritten ps writes seq (noNextBoards ps map data done)

variable {ps map writes} {stopOnSolution : Bool} {data : ι → Element P} {seq fuel : Nat}
  {solutions : List (Nat × List (Cell P × PuzzlePart))} {done rest l : List ι} {e : ι} {w w' : NoNextWalk ι P}

theorem noNextWritten_append (boards boards' : List (Packet P)) :
    noNextWritten ps writes seq (boards ++ boards') =
      noNextWritten ps writes seq boards ++ noNextWritten ps writes (seq + boards.length) boards' := by
  induction boards generalizing seq with
  | nil => rfl
  | cons q boards ih =>
    rw [List.cons_append, noNextWritten, noNextWritten, ih, List.append_assoc, List.length_cons, Nat.add_right_comm,
      Nat.add_assoc]

theorem mem_noNextWritten {boards : List (Packet P)} {x : Nat × List (Cell P × PuzzlePart)} :
    x ∈ noNextWritten ps writes seq boards ↔
      ∃ i q, boards[i]? = some q ∧ writes (seq + i) = true ∧ x = (seq + i, saveSolutionCsv ps q) := by
  induction boards generalizing seq with
  | nil => simp [noNextWritten]
  | cons q boards ih =>
    rw [noNextWritten, List.mem_append, ih]
    constructor
    · rintro (hx | ⟨i, q', hq', hwrites, rfl⟩)
      · split at hx
        · rename_i hwrites
          exact ⟨0, q, rfl, hwrites, List.mem_singleton.mp hx⟩
        · cases hx
      · exact ⟨i + 1, q', hq', by rwa [Nat.add_right_comm, Nat.add_assoc] at hwrites, by
          rw [Nat.add_right_comm, Nat.add_assoc]⟩
    · rintro ⟨i, q', hq', hwrites, rfl⟩
      cases i with
      | zero =>
        cases hq'
        have hwrites : writes seq = true := hwrites
        refine .inl ?_
        rw [if_pos hwrites]
        exact List.mem_singleton.mpr rfl
      | succ i =>
        refine .inr ⟨i, q', hq', ?_, ?_⟩
        · rwa [Nat.add_right_comm, Nat.add_assoc]
        · rw [Nat.add_right_comm, Nat.add_assoc]

variable [DecidableEq ι]

omit [DecidableEq ι] in
/-- The element under study is followed by the first of the others. -/
theorem Walked.next (h : Walked ps map writes stopOnSolution data seq solutions done (e :: rest) w) :
    w.file.links.next e = rest.head? :=
  h.chains.spells.next _ e rest rfl

/-- The file after the study of an element that is not a solution which ends the process. -/
theorem Walked.chains_turn (h : Walked ps map writes stopOnSolution data seq solutions done (e :: rest) w) :
    (if ((data e).verdict ps map).stays then w.file else w.file.removeElement e).Chains
      (noNextStays ps map data (done ++ [e]) ++ rest) ∧
    (if ((data e).verdict ps map).stays then w.file else w.file.removeElement e).data = data := by
  unfold noNextStays
  rw [List.filter_append]
  split
  · rename_i hstays
    rw [List.filter_cons_of_pos (by exact hstays), List.filter_nil, List.append_assoc]
    exact ⟨h.chains, h.sameData⟩
  · rename_i hstays
    rw [List.filter_cons_of_neg (by exact hstays), List.filter_nil, List.append_nil]
    exact ⟨h.chains.removeElement, h.sameData⟩

/-- A turn studies the next element, or ends the process on a complete board. -/
theorem Walked.turn (h : Walked ps map writes stopOnSolution data seq solutions done (e :: rest) w)
    (hrunning : w.exited = false) (hverdict : noNextVerdict ps map (data e) = some ((data e).verdict ps map)) :
    ∃ w', noNextTurn ps map stopOnSolution writes w e = some w' ∧
      (Walked ps map writes stopOnSolution data seq solutions (done ++ [e]) rest w' ∨
        w'.exited = true ∧ Walked ps map writes stopOnSolution data seq solutions done (e :: rest) w') := by
  have hboards : noNextBoards ps map data (done ++ [e]) =
      noNextBoards ps map data done ++ ((data e).verdict ps map).solution.toList := by
    unfold noNextBoards
    rw [List.filterMap_append, List.filterMap_cons, List.filterMap_nil]
    cases ((data e).verdict ps map).solution <;> rfl
  obtain ⟨hchains, hdata⟩ := h.chains_turn
  unfold noNextTurn
  rw [h.sameData, hverdict, Option.map_some]
  refine ⟨_, rfl, ?_⟩
  cases hsolution : ((data e).verdict ps map).solution with
  | none =>
    rw [hsolution, Option.toList_none, List.append_nil] at hboards
    dsimp only
    rw [if_neg (by rw [hrunning]; exact Bool.false_ne_true)]
    refine .inl ⟨hchains, hdata, fun hexit => absurd hexit (by rw [hrunning]; exact Bool.false_ne_true), ?_, fun _ => h.next,
      fun _ => ?_, fun _ => ?_⟩
    · rw [hboards]
      exact h.alone
    · rw [hboards]
      exact h.numbered hrunning
    · rw [hboards]
      exact h.written hrunning
  | some q =>
    rw [hsolution, Option.toList_some] at hboards
    dsimp only [NoNextWalk.solve]
    cases hstop : stopOnSolution with
    | true =>
      rw [if_pos rfl]
      exact .inr ⟨rfl, h.chains, h.sameData, fun _ => rfl, fun _ => h.alone hstop, nofun, nofun, nofun⟩
    | false =>
      rw [if_neg Bool.false_ne_true]
      refine .inl ⟨hchains, hdata, nofun, nofun, fun _ => h.next, fun _ => ?_, fun _ => ?_⟩
      · rw [hboards, List.length_append, List.length_singleton, ← Nat.add_assoc, ← h.numbered hrunning]
      · rw [hboards, noNextWritten_append, ← List.append_assoc, ← h.written hrunning, ← h.numbered hrunning]
        dsimp only [noNextWritten]
        split
        · rw [List.append_nil]
        · rw [List.append_nil, List.append_nil]

/-- The walk ends at the end of the file, or with the process. -/
theorem Walked.loop (h : Walked ps map writes stopOnSolution data seq solutions done rest w)
    (hverdict : ∀ e ∈ rest, noNextVerdict ps map (data e) = some ((data e).verdict ps map)) (hfuel : rest.length < fuel) :
    ∃ w' done' rest', noNextLoop ps map stopOnSolution writes fuel w = some w' ∧ done' ++ rest' = done ++ rest ∧
      Walked ps map writes stopOnSolution data seq solutions done' rest' w' ∧ (w'.exited = false → rest' = []) := by
  induction fuel generalizing done rest w with
  | zero => exact absurd hfuel (Nat.not_lt_zero _)
  | succ fuel ih =>
    unfold noNextLoop
    cases hexited : w.exited with
    | true => exact ⟨w, done, rest, if_pos rfl, rfl, h, fun hrunning => absurd (hexited.symm.trans hrunning) (by decide)⟩
    | false =>
      rw [if_neg Bool.false_ne_true, h.curr hexited]
      cases rest with
      | nil => exact ⟨w, done, [], rfl, rfl, h, fun _ => rfl⟩
      | cons e rest =>
        obtain ⟨w₁, hturn, hwalked⟩ := h.turn hexited (hverdict e List.mem_cons_self)
        dsimp only [List.head?_cons]
        rw [hturn, Option.bind_some]
        have hlength : rest.length < fuel := Nat.lt_of_succ_lt_succ hfuel
        rcases hwalked with hwalked | ⟨hexit, hwalked⟩
        · obtain ⟨w', done', rest', hloop, hlist, hspec⟩ := ih hwalked (fun e' he' => hverdict e' (List.mem_cons_of_mem e he')) hlength
          exact ⟨w', done', rest', hloop, hlist.trans (by simp), hspec⟩
        · obtain ⟨fuel, rfl⟩ := Nat.exists_eq_succ_of_ne_zero (Nat.ne_of_gt (Nat.zero_lt_of_lt hlength))
          refine ⟨w₁, done, e :: rest, ?_, rfl, hwalked, fun hrunning => absurd (hexit.symm.trans hrunning) (by decide)⟩
          exact if_pos hexit

end Walked

/-! ## The pools -/

section Pools

variable {ι : Type*} {P : Puzzle} (ps : PieceSet P) (map : MapBigArray) (writes : Nat → Bool) (stopOnSolution : Bool)

/-- The unverified files hold legal boards. -/
def PrunablePool (nbFilePossibility : Nat) (segment : Bool → Nat → File ι P) (l : Nat → List ι) : Prop :=
  ∀ f < nbFilePossibility, (segment false f).Chains (l f) ∧ ∀ e ∈ l f, ∃ p, Prunable ps ((segment false f).data e) p

/-- The complete boards of the first files, in the order in which they are met. -/
def poolBoards (nb : Nat) (segment : Bool → Nat → File ι P) (l : Nat → List ι) : List (Packet P) :=
  (List.range nb).flatMap fun f => noNextBoards ps map (segment false f).data (l f)

/-- Where the pruning is once it has been through the first `nb` files. -/
structure PoolWalked (segment : Bool → Nat → File ι P) (l : Nat → List ι) (seq nb : Nat) (s : NoNextStock ι P) : Prop where
  verified : ∀ f, s.segment true f = segment true f
  others : ∀ f, nb ≤ f → s.segment false f = segment false f
  files : ∀ f < nb, ∃ done rest, done ++ rest = l f ∧
    (s.segment false f).Chains (noNextStays ps map (segment false f).data done ++ rest) ∧
    (s.segment false f).data = (segment false f).data ∧
    (stopOnSolution = true → noNextBoards ps map (segment false f).data done = []) ∧ (s.exited = false → rest = [])
  exited : s.exited = true → stopOnSolution = true
  numbered : s.exited = false → s.seq = seq + (poolBoards ps map nb segment l).length
  written : s.exited = false → s.solutions = noNextWritten ps writes seq (poolBoards ps map nb segment l)

variable {ps map writes stopOnSolution} {nb nbFilePossibility seq fuel : Nat} {segment : Bool → Nat → File ι P}
  {l : Nat → List ι} {s : NoNextStock ι P}

theorem poolBoards_succ : poolBoards ps map (nb + 1) segment l =
    poolBoards ps map nb segment l ++ noNextBoards ps map (segment false nb).data (l nb) := by
  unfold poolBoards
  rw [List.range_succ, List.flatMap_append, List.flatMap_singleton]

variable [DecidableEq ι]

/-- The walk over the next file. -/
theorem PoolWalked.file (h : PoolWalked ps map writes stopOnSolution segment l seq nb s) (hmap : MapOf ps map)
    (hpool : PrunablePool ps nbFilePossibility segment l) (hnb : nb < nbFilePossibility) (hfuel : (l nb).length < fuel) :
    ∃ s', noNextFile ps map stopOnSolution writes fuel s nb = some s' ∧
      PoolWalked ps map writes stopOnSolution segment l seq (nb + 1) s' := by
  obtain ⟨hchains, hprunable⟩ := hpool nb hnb
  have hsame := h.others nb le_rfl
  unfold noNextFile
  cases hexited : s.exited with
  | true =>
    refine ⟨s, if_pos rfl, h.verified, fun f hf => h.others f (by omega), fun f hf => ?_, h.exited, ?_, ?_⟩
    · rcases Nat.lt_succ_iff_lt_or_eq.mp hf with hlt | rfl
      · exact h.files f hlt
      · refine ⟨[], l f, rfl, ?_, congrArg File.data hsame, fun _ => rfl, fun hrunning => ?_⟩
        · rw [hsame]
          exact hchains
        · exact absurd (hexited.symm.trans hrunning) (by decide)
    · exact fun hrunning => absurd (hexited.symm.trans hrunning) (by decide)
    · exact fun hrunning => absurd (hexited.symm.trans hrunning) (by decide)
  | false =>
    rw [if_neg Bool.false_ne_true]
    dsimp only
    rw [hsame]
    have hstart : Walked ps map writes stopOnSolution (segment false nb).data s.seq s.solutions [] (l nb)
        ⟨segment false nb, (segment false nb).links.first, s.seq, s.solutions, s.totalCells, false⟩ :=
      ⟨hchains, rfl, nofun, fun _ => rfl, fun _ => hchains.spells.first, fun _ => rfl, fun _ => (List.append_nil _).symm⟩
    obtain ⟨w, done, rest, hloop, hlist, hwalked, hrest⟩ := hstart.loop (fun e he => by
      obtain ⟨p, hp⟩ := hprunable e he
      exact (hp.verdict hmap).1) hfuel
    rw [hloop, Option.map_some]
    refine ⟨_, rfl, fun f => ?_, fun f hf => ?_, fun f hf => ?_, hwalked.exited, fun hrunning => ?_, fun hrunning => ?_⟩
    · dsimp only
      rw [if_neg (fun hif => Bool.noConfusion hif.1)]
      exact h.verified f
    · exact (if_neg (by omega)).trans (h.others f (by omega))
    · by_cases heq : f = nb
      · subst heq
        dsimp only
        rw [if_pos ⟨rfl, rfl⟩]
        exact ⟨done, rest, hlist, hwalked.chains, hwalked.sameData, hwalked.alone, hrest⟩
      · dsimp only
        rw [if_neg (by omega)]
        obtain ⟨done', rest', hlist', hchains', hdata', halone', hrest'⟩ := h.files f (by omega)
        exact ⟨done', rest', hlist', hchains', hdata', halone', fun _ => hrest' hexited⟩
    · obtain rfl := hrest hrunning
      have hdone : done = l nb := by simpa using hlist
      rw [poolBoards_succ, List.length_append, ← Nat.add_assoc, ← h.numbered hexited, ← hdone]
      exact hwalked.numbered hrunning
    · obtain rfl := hrest hrunning
      have hdone : done = l nb := by simpa using hlist
      rw [poolBoards_succ, noNextWritten_append, ← h.numbered hexited, ← h.written hexited, ← hdone]
      exact hwalked.written hrunning

variable (stopOnSolution writes seq) in
/-- The pruning ends. -/
theorem exists_removePossibilitiesWithNoNext (hmap : MapOf ps map) (hpool : PrunablePool ps nbFilePossibility segment l)
    (hfuel : ∀ f < nbFilePossibility, (l f).length < fuel) :
    ∃ s, removePossibilitiesWithNoNext ps map stopOnSolution writes fuel nbFilePossibility segment seq = some s ∧
      PoolWalked ps map writes stopOnSolution segment l seq nbFilePossibility s := by
  unfold removePossibilitiesWithNoNext
  suffices hrange : ∀ nb ≤ nbFilePossibility, ∃ s,
      (List.range nb).foldlM (noNextFile ps map stopOnSolution writes fuel) ⟨segment, seq, [], 0, false⟩ = some s ∧
        PoolWalked ps map writes stopOnSolution segment l seq nb s from hrange nbFilePossibility le_rfl
  intro nb
  induction nb with
  | zero =>
    exact fun _ => ⟨_, rfl, fun _ => rfl, fun _ _ => rfl, fun f hf => absurd hf (Nat.not_lt_zero f), nofun, fun _ => rfl,
      fun _ => rfl⟩
  | succ nb ih =>
    intro hle
    obtain ⟨s, hfold, hwalked⟩ := ih (Nat.le_of_succ_le hle)
    obtain ⟨s', hfile, hwalked'⟩ := hwalked.file hmap hpool (Nat.lt_of_succ_le hle) (hfuel nb (Nat.lt_of_succ_le hle))
    refine ⟨s', ?_, hwalked'⟩
    rw [List.range_succ, List.foldlM_append, hfold]
    exact (congrArg (· >>= pure) hfile).trans rfl

variable (ps map) in
/-- The pruning keeps the live branches: each unverified file holds some of its records, in their
order and with the links and counters of a list, the verified files are what they were, and a
record that has gone had no completion, or was completed by the forced placements and is written. -/
structure KeepsBranches (nbFilePossibility : Nat) (segment : Bool → Nat → File ι P) (l : Nat → List ι)
    (s : NoNextStock ι P) : Prop where
  files : ∀ f < nbFilePossibility, ∃ l', l'.Sublist (l f) ∧ (s.segment false f).Chains l' ∧
    (s.segment false f).data = (segment false f).data ∧
    ∀ e ∈ l f, e ∉ l' → ∀ p, ((segment false f).data e).load = some p →
      p.completions ps = ∅ ∨
        ∃ q k, Completes ps map p q ∧ (k, saveSolutionCsv ps q) ∈ s.solutions
  verified : ∀ f, s.segment true f = segment true f

omit [DecidableEq ι] in
theorem File.Chains.unique {file : File ι P} {l l' : List ι} (h : file.Chains l) (h' : file.Chains l') : l = l' := by
  rw [← h.spells.walk_eq, ← h'.spells.walk_eq, ← h.size, ← h'.size]

omit [DecidableEq ι] in
theorem mem_poolBoards {q : Packet P} : q ∈ poolBoards ps map nb segment l ↔
    ∃ f < nb, ∃ e ∈ l f, (((segment false f).data e).verdict ps map).solution = some q := by
  simp only [poolBoards, noNextBoards, List.mem_flatMap, List.mem_range, List.mem_filterMap]

omit [DecidableEq ι] in
/-- An element that has been studied and is not there any more has no completion, or is complete. -/
theorem gone_of_not_stays {data : ι → Element P} {done : List ι} {e : ι} {p : Packet P} (hmap : MapOf ps map)
    (hp : Prunable ps (data e) p) (he : e ∈ done) (hgone : e ∉ noNextStays ps map data done) :
    p.completions ps = ∅ ∨ ∃ q, q ∈ noNextBoards ps map data done ∧ Completes ps map p q := by
  obtain ⟨-, hdead, hsolution⟩ := hp.verdict hmap
  have hstays : ((data e).verdict ps map).stays = false := by
    by_contra hstays
    exact hgone (List.mem_filter.mpr ⟨he, by simpa using hstays⟩)
  rcases Bool.and_eq_false_iff.mp hstays with hnext | hsome
  · exact .inl (hdead hnext)
  · obtain ⟨q, hq⟩ := Option.ne_none_iff_exists'.mp (Option.isNone_eq_false_iff.mp hsome |> Option.isSome_iff_ne_none.mp)
    exact .inr ⟨q, List.mem_filterMap.mpr ⟨e, he, hq⟩, (hsolution q).mp hq⟩

omit [DecidableEq ι] in
/-- When the live branches are kept: a solution ends the process, or every complete board has a file
that can be written. -/
theorem PoolWalked.keeps_iff (hwalked : PoolWalked ps map writes stopOnSolution segment l seq nbFilePossibility s)
    (hmap : MapOf ps map) (hpool : PrunablePool ps nbFilePossibility segment l) :
    KeepsBranches ps map nbFilePossibility segment l s ↔ stopOnSolution = true ∨
      ∀ q ∈ poolBoards ps map nbFilePossibility segment l,
        ∃ i q', (poolBoards ps map nbFilePossibility segment l)[i]? = some q' ∧
          writes (seq + i) = true ∧ saveSolutionCsv ps q' = saveSolutionCsv ps q := by
  refine ⟨fun hkeeps => ?_, fun hcondition => ⟨fun f hf => ?_, hwalked.verified⟩⟩
  · cases hstop : stopOnSolution with
    | true => exact .inl rfl
    | false =>
      have hrunning : s.exited = false := Bool.eq_false_of_not_eq_true fun hexit =>
        absurd ((hwalked.exited hexit).symm.trans hstop) (by decide)
      -- A complete board is not its own dead end, so its record has a file.
      refine .inr fun q hq => ?_
      obtain ⟨f, hf, e, he, hsolution⟩ := mem_poolBoards.mp hq
      obtain ⟨p, hp⟩ := (hpool f hf).2 e he
      have hcompletes := ((hp.verdict hmap).2.2 q).mp hsolution
      obtain ⟨done, rest, hlist, hchains, -, -, hrest⟩ := hwalked.files f hf
      obtain rfl := hrest hrunning
      obtain ⟨l', -, hchains', -, hgone⟩ := hkeeps.files f hf
      have hnot : e ∉ l' := by
        rw [hchains'.unique hchains, List.append_nil]
        intro hmem
        have hstays := (List.mem_filter.mp hmem).2
        rw [NoNextVerdict.stays, hsolution, Option.isNone_some, Bool.and_false] at hstays
        exact Bool.false_ne_true hstays
      rcases hgone e he hnot p hp.load with hdead | ⟨q', k, hq', hmem⟩
      · rw [hcompletes.completions] at hdead
        exact absurd hdead (Set.singleton_ne_empty _)
      · obtain rfl := hq'.unique hcompletes
        rw [hwalked.written hrunning] at hmem
        obtain ⟨i, q'', hi, hwrites, heq⟩ := mem_noNextWritten.mp hmem
        exact ⟨i, q'', hi, hwrites, (Prod.mk.inj heq).2.symm⟩
  · obtain ⟨done, rest, hlist, hchains, hdata, halone, hrest⟩ := hwalked.files f hf
    refine ⟨_, ?_, hchains, hdata, fun e he hnot p hload => ?_⟩
    · rw [← hlist]
      exact List.filter_sublist.append_right rest
    · obtain ⟨p', hp⟩ := (hpool f hf).2 e he
      obtain rfl : p' = p := Option.some.inj (hp.load.symm.trans hload)
      rw [List.mem_append, not_or] at hnot
      rw [← hlist, List.mem_append] at he
      rcases gone_of_not_stays hmap hp (he.resolve_right hnot.2) hnot.1 with hdead | ⟨q, hq, hcompletes⟩
      · exact .inl hdead
      · rcases hcondition with hstop | hwritten
        · rw [halone hstop] at hq
          cases hq
        · by_cases hexited : s.exited = true
          · rw [halone (hwalked.exited hexited)] at hq
            cases hq
          · have hrunning : s.exited = false := by simpa using hexited
            obtain rfl := hrest hrunning
            have hmem : q ∈ poolBoards ps map nbFilePossibility segment l := by
              refine List.mem_flatMap.mpr ⟨f, List.mem_range.mpr hf, ?_⟩
              rwa [← hlist, List.append_nil]
            obtain ⟨i, q', hi, hwrites, hrows⟩ := hwritten q hmem
            refine .inr ⟨q, seq + i, hcompletes, ?_⟩
            rw [hwalked.written hrunning, mem_noNextWritten]
            exact ⟨i, q', hi, hwrites, by rw [hrows]⟩

/-- `remove_possibilities_with_no_next` ends on every pool of legal boards, and keeps its live branches
if and only if a solution ends the process, or every complete board has a file that can be written. -/
theorem removePossibilitiesWithNoNext_keeps_iff (ps : PieceSet P) (al : MapAllocs) (stopOnSolution : Bool)
    (writes : Nat → Bool) (nbFilePossibility seq fuel : Nat) (segment : Bool → Nat → File ι P) (l : Nat → List ι)
    (hpool : PrunablePool ps nbFilePossibility segment l) (hfuel : ∀ f < nbFilePossibility, (l f).length < fuel) :
    ∃ s, removePossibilitiesWithNoNext ps (prepareMapPart ps al) stopOnSolution writes fuel nbFilePossibility segment seq =
        some s ∧
      (KeepsBranches ps (prepareMapPart ps al) nbFilePossibility segment l s ↔ stopOnSolution = true ∨
        ∀ q ∈ poolBoards ps (prepareMapPart ps al) nbFilePossibility segment l,
          ∃ i q', (poolBoards ps (prepareMapPart ps al) nbFilePossibility segment l)[i]? = some q' ∧
            writes (seq + i) = true ∧ saveSolutionCsv ps q' = saveSolutionCsv ps q) := by
  have hmap := mapOf_prepareMapPart ps al
  obtain ⟨s, hrun, hwalked⟩ := exists_removePossibilitiesWithNoNext writes stopOnSolution seq hmap hpool hfuel
  exact ⟨s, hrun, hwalked.keeps_iff hmap hpool⟩

omit [DecidableEq ι] in
/-- A full board needs no forced placement. -/
theorem Prunable.solution_of_full {element : Element P} {p : Packet P} (hmap : MapOf ps map) (h : Prunable ps element p)
    (hfull : ∀ c, p.grid c ≠ -2) : ∃ q, (element.verdict ps map).solution = some q := by
  obtain ⟨r, hrun, hspec⟩ := possibilityAllHasANextCounted_spec hmap h.wellFormed
  have hgrid : ∀ c, r.packet.grid c ≠ -2 := fun c => by rw [hspec.extends_ c (hfull c)]; exact hfull c
  refine ⟨r.packet, ((h.verdict hmap).2.2 _).mpr ⟨⟨r, hrun _ (Nat.lt_succ_self _), rfl⟩, hgrid, ?_⟩⟩
  rw [← hspec.completions]
  exact Grid.completions_of_full hspec.wellFormed.grid hgrid

/-- A pool of one file with a complete board and one that only has its frame. -/
def framePool (b : Bool) (_f : Nat) : File ℕ .p16 :=
  if b then File.init fun _ => .compact []
  else File.ofElements [.compact ((recordOf (Frame.packet fun _ : Cell .p16 => true)).getD []),
    .compact ((recordOf (Frame.packet fun c : Cell .p16 => c.pos = 0)).getD [])]

theorem framePool_chains (f : Nat) : (framePool false f).Chains [0, 1] ∧
    (framePool false f).data 0 = .compact ((recordOf (Frame.packet fun _ : Cell .p16 => true)).getD []) ∧
    (framePool false f).data 1 = .compact ((recordOf (Frame.packet fun c : Cell .p16 => c.pos = 0)).getD []) := by
  obtain ⟨q₀, hq₀, -⟩ := exists_prunable (Frame.packet_wellFormed fun _ : Cell .p16 => true)
  obtain ⟨q₁, hq₁, -⟩ := exists_prunable (Frame.packet_wellFormed fun c : Cell .p16 => decide (c.pos = 0))
  obtain ⟨hchains, hdata⟩ := File.ofElements_chains (P := .p16) fun e (he : e ∈ [
      .compact ((recordOf (Frame.packet fun _ : Cell .p16 => true)).getD []),
      .compact ((recordOf (Frame.packet fun c : Cell .p16 => c.pos = 0)).getD [])]) => by
    rcases List.mem_cons.mp he with rfl | he
    · exact hq₀.isEmpty
    · rw [List.mem_singleton.mp he]
      exact hq₁.isEmpty
  exact ⟨hchains, hdata 0 (by decide), hdata 1 (by decide)⟩

theorem framePool_prunable : PrunablePool (Frame.pieces .p16) 1 framePool fun _ => [0, 1] := by
  intro f _
  obtain ⟨hchains, hzero, hone⟩ := framePool_chains f
  refine ⟨hchains, fun e he => ?_⟩
  rcases List.mem_cons.mp he with rfl | he
  · rw [hzero]
    exact (exists_prunable (Frame.packet_wellFormed _)).imp fun _ hq => hq.1
  · rw [List.mem_singleton.mp he, hone]
    exact (exists_prunable (Frame.packet_wellFormed _)).imp fun _ hq => hq.1

theorem removePossibilitiesWithNoNext_keeps_iff_frame :
    ∃ s, removePossibilitiesWithNoNext (Frame.pieces .p16)
        (prepareMapPart (Frame.pieces .p16) ⟨true, fun _ => true, true, true⟩) true (fun _ => true) 3 1 framePool 0 = some s ∧
      KeepsBranches (Frame.pieces .p16) (prepareMapPart (Frame.pieces .p16) ⟨true, fun _ => true, true, true⟩) 1 framePool
        (fun _ => [0, 1]) s := by
  obtain ⟨s, hrun, hkeeps⟩ := removePossibilitiesWithNoNext_keeps_iff (Frame.pieces .p16) ⟨true, fun _ => true, true, true⟩
    true (fun _ => true) 1 0 3 framePool (fun _ => [0, 1]) framePool_prunable fun _ _ => by decide
  exact ⟨s, hrun, hkeeps.mpr (.inl rfl)⟩

/-- When the file of its solution cannot be opened, a complete board is lost. -/
theorem removePossibilitiesWithNoNext_loses :
    ∃ s, removePossibilitiesWithNoNext (Frame.pieces .p16)
        (prepareMapPart (Frame.pieces .p16) ⟨true, fun _ => true, true, true⟩) false (fun _ => false) 3 1 framePool 0 = some s ∧
      ¬ KeepsBranches (Frame.pieces .p16) (prepareMapPart (Frame.pieces .p16) ⟨true, fun _ => true, true, true⟩) 1 framePool
        (fun _ => [0, 1]) s := by
  have hmap := mapOf_prepareMapPart (Frame.pieces .p16) ⟨true, fun _ => true, true, true⟩
  obtain ⟨s, hrun, hwalked⟩ := exists_removePossibilitiesWithNoNext (fun _ => false) false 0 hmap framePool_prunable
    fun _ _ => (Nat.lt_succ_self 2 : [0, 1].length < 3)
  refine ⟨s, hrun, fun hkeeps => ?_⟩
  obtain ⟨p, hp, hgrid⟩ := exists_prunable (Frame.packet_wellFormed fun _ : Cell .p16 => true)
  have hfull : ∀ c, p.grid c ≠ -2 := fun c => by
    rw [hgrid, Frame.packet_grid, Ne, Frame.grid_eq_empty]
    exact Bool.noConfusion
  obtain ⟨q, hq⟩ := hp.solution_of_full hmap hfull
  have hmem : q ∈ poolBoards (Frame.pieces .p16) (prepareMapPart (Frame.pieces .p16) ⟨true, fun _ => true, true, true⟩) 1
      framePool fun _ => [0, 1] := by
    refine mem_poolBoards.mpr ⟨0, Nat.one_pos, 0, List.mem_cons_self, ?_⟩
    rw [(framePool_chains 0).2.1]
    exact hq
  obtain ⟨-, -, -, hwrites, -⟩ := ((hwalked.keeps_iff hmap framePool_prunable).mp hkeeps).resolve_left Bool.false_ne_true q hmem
  exact Bool.false_ne_true hwrites

end Pools
