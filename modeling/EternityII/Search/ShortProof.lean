-- SUMMARY: The bounded proof of the expansion: a child it closes has no completion, and its search records nothing.
import EternityII.Search.Lockstep

/-!
# Short proofs

The expansion of a stock plays each child for a few nodes and drops it when the search ends
exhausted. Exhaustion alone says little, because the search records a solution and goes on. What
makes the verdict right is the budget: each node places at most one piece more than the node
before, and with more empty cells than the budget has nodes no board of the search is complete.
-/

open Cover

/-- `EXPAND_PROOF_BUDGET`. -/
def expandProofBudget : Nat := 8

/-- The arguments and flags of the search in `etii_expand_short_proof`. -/
def expandProofConfig (singletonConflictCheck stopOnSolution : Bool) : BtConfig :=
  ⟨expandProofBudget, false, singletonConflictCheck, stopOnSolution⟩

/-- `etii_expand_short_proof`: the value and `*nodes`, as far as a sequence of turns takes it. -/
def etiiExpandShortProof {P : Puzzle} (ps : PieceSet P) (map : MapBigArray)
    (singletonConflictCheck stopOnSolution : Bool)
    (turns : List Turn) (child : Packet P) : Option (Int × Nat) :=
  if P.eternParts - placedCount child.grid ≤ expandProofBudget then some (0, 0)
  else
    match searchPacketBacktrackingMrv ps map (expandProofConfig singletonConflictCheck stopOnSolution) turns child with
    | .returns .exhausted r => some (1, r.nodes)
    | .returns _ r => some (0, r.nodes)
    | _ => none

section ShortProof

variable {P : Puzzle} {fast : Bool} {ps : PieceSet P} {map : MapBigArray} {cfg : BtConfig} {root : Grid P}
  {r : BtRun P}

/-- A run with a level for each piece it has placed and a node for each level, within the budget,
that has recorded nothing. -/
structure ShortRun (ps : PieceSet P) (map : MapBigArray) (cfg : BtConfig) (root : Grid P) (r : BtRun P) : Prop where
  onPath : r.OnPath ps map root
  allPlaced : AllPlaced r.stack
  recorded : r.recorded = []
  depth : r.stack.length < r.nodes
  budget : (r.nodes : Int) ≤ cfg.nodeBudget

/-- How a bounded search ends: the loop goes on below the budget, or the function returns. -/
inductive ShortResult (ps : PieceSet P) (map : MapBigArray) (cfg : BtConfig) (root : Grid P) : TurnResult P → Prop
  | continues {r : BtRun P} (short : ShortRun ps map cfg root r) (below : (r.nodes : Int) < cfg.nodeBudget) :
      ShortResult ps map cfg root (.continues r)
  | returns {result : BtCoreResult} {r : BtRun P} (short : ShortRun ps map cfg root r) :
      ShortResult ps map cfg root (.returns result r)

/-- More empty cells than the budget has nodes: no board of the run is complete. -/
theorem ShortRun.incomplete (h : ShortRun ps map cfg root r)
    (hcells : cfg.nodeBudget + placedCount root < P.eternParts) : r.st.placed < P.eternParts := by
  have hplaced := h.onPath.path.placedCount_eq h.allPlaced
  have hcount := h.onPath.state.synced.placed
  have hdepth := h.depth
  have hbudget := h.budget
  omega

/-- Backtracking does not deepen the stack. -/
theorem btBacktrack_length_le (conflict : Bool) (stack : List (BtLevel P)) (st : BtState P) :
    (btBacktrack fast map conflict stack st).2.length ≤ stack.length := by
  induction stack generalizing st with
  | nil => exact Nat.le_refl 0
  | cons lvl stack ih =>
    unfold btBacktrack
    dsimp only
    split
    · exact (ih _).trans (Nat.le_succ _)
    · split
      · exact Nat.le_refl _
      · exact (ih _).trans (Nat.le_succ _)

/-- From the label `backtrack` on, with one level more than the nodes before allow. -/
theorem btSearchOn_short (hfast : fast = true → btMasksComplete P map = true) (hmap : MapOf ps map)
    (hroot : root.WellFormed ps) (hpath : r.OnPath ps map root)
    (hall : AllPlaced r.stack.tail) (hrecorded : r.recorded = []) (hdepth : r.stack.length ≤ r.nodes)
    (hpos : 0 < r.nodes) (hbelow : (r.nodes : Int) < cfg.nodeBudget) :
    ShortResult ps map cfg root (btSearchOn fast map cfg r) := by
  have hback : BacktrackSpec ps map root r.st.board.grid r.stack
      (btBacktrack fast map cfg.singletonConflictCheck r.stack r.st) :=
    btBacktrack_spec hfast hmap hroot hpath.path hpath.state
  have hplaced : AllPlaced (btBacktrack fast map cfg.singletonConflictCheck r.stack r.st).2 := hall.backtrack _ r.st
  have hlength : (btBacktrack fast map cfg.singletonConflictCheck r.stack r.st).2.length ≤ r.stack.length :=
    btBacktrack_length_le _ r.stack r.st
  unfold btSearchOn
  dsimp only
  generalize btBacktrack fast map cfg.singletonConflictCheck r.stack r.st = next at hback hplaced hlength
  obtain ⟨st, stack⟩ := next
  obtain ⟨⟨g, hst, hstack⟩, -, -⟩ := hback
  obtain rfl := hst.grid
  cases stack with
  | nil => exact .returns ⟨⟨hst, hstack⟩, hplaced, hrecorded, hpos, hbelow.le⟩
  | cons lvl stack =>
    have hstamp : (st.stamp lvl.mrvScore).At ps map st.board.grid := hst.withBoard rfl rfl
    have hnext : ShortRun ps map cfg root
        { r with st := st.stamp lvl.mrvScore, stack := lvl :: stack, nodes := r.nodes + 1 } := by
      refine ⟨⟨hstamp, hstack⟩, hplaced, hrecorded, ?_, ?_⟩
      · exact Nat.lt_succ_of_le (hlength.trans hdepth)
      · exact Int.add_one_le_of_lt hbelow
    dsimp only
    split
    · exact .returns hnext
    · rename_i hgoes
      refine .continues hnext (Int.not_le.mp fun hle => hgoes ⟨?_, hle⟩)
      exact (Int.natCast_nonneg _).trans_lt hbelow

variable (hfast : fast = true → btMasksComplete P map = true) (hmap : MapOf ps map) (hroot : root.WellFormed ps)
  (hdelegate : cfg.allowDelegate = false)
  (hcells : cfg.nodeBudget + placedCount root < P.eternParts)
include hfast hmap hroot hdelegate hcells

/-- A turn is a pause, or a stop, or it opens one level and spends a node. -/
theorem ShortRun.turn (h : ShortRun ps map cfg root r) (hbelow : (r.nodes : Int) < cfg.nodeBudget) (rootDepth : Nat)
    (t : Turn) : ShortResult ps map cfg root (btTurn fast ps map cfg rootDepth t r) := by
  have hplaced := h.incomplete hcells
  have hopened : BtRun.OnPath ps map root { r with stack := btOpenLevel fast map r.st :: r.stack } :=
    ⟨h.onPath.state, (btOpenLevel_spec hfast hmap h.onPath hplaced).1⟩
  unfold btTurn
  rw [if_neg (Nat.not_le.mpr hplaced), hdelegate]
  split
  · split
    · exact .continues h hbelow
    · exact .returns h
  · apply btSearchOn_short hfast hmap hroot hopened h.allPlaced h.recorded h.depth _ hbelow
    exact Nat.zero_lt_of_lt h.depth

theorem ShortRun.turns (h : ShortRun ps map cfg root r) (hbelow : (r.nodes : Int) < cfg.nodeBudget) (rootDepth : Nat)
    (turns : List Turn) : ShortResult ps map cfg root (btTurns fast ps map cfg rootDepth turns r) := by
  induction turns generalizing r with
  | nil => exact .continues h hbelow
  | cons t turns ih =>
    have hturn := h.turn hfast hmap hroot hdelegate hcells hbelow rootDepth t
    rw [btTurns]
    generalize btTurn fast ps map cfg rootDepth t r = result at hturn
    cases hturn with
    | continues short below => exact ih short below
    | returns short => exact .returns short

end ShortProof

section Sound

variable {P : Puzzle} {ps : PieceSet P} {map : MapBigArray} {cfg : BtConfig} {child : Packet P}

/-- A search whose budget is below the empty cells of its root, with any requests. -/
theorem searchPacketBacktrackingMrv_short (hmap : MapOf ps map) (hdelegate : cfg.allowDelegate = false)
    (hbudget : 1 < cfg.nodeBudget) (hchild : child.WellFormed ps)
    (hcells : cfg.nodeBudget + placedCount child.grid < P.eternParts) (turns : List Turn) :
    ShortResult ps map cfg child.grid (searchPacketBacktrackingMrv ps map cfg turns child) := by
  have hstart : ShortRun ps map cfg child.grid (btStart ps map child) := by
    refine ⟨btStart_onPath hchild, ?_, rfl, Nat.one_pos, hbudget.le⟩
    exact fun _ hl => absurd hl List.not_mem_nil
  exact hstart.turns id hmap hchild.grid hdelegate hcells hbudget _ turns

/-- A search that ends exhausted with nothing recorded has shown that there is no completion. -/
theorem completions_eq_empty_of_exhausted (hmap : MapOf ps map) (hdelegate : cfg.allowDelegate = false)
    (hchild : child.WellFormed ps) {turns : List Turn} {r : BtRun P} (hrecorded : r.recorded = [])
    (hrun : searchPacketBacktrackingMrv ps map cfg turns child = .returns .exhausted r) :
    child.grid.completions ps = ∅ := by
  have hspec : TurnSpec ps map child.grid [] [child.grid] (searchPacketBacktrackingMrv ps map cfg turns child) :=
    searchPacketBacktrackingMrv_spec hmap hchild hdelegate turns
  rw [hrun] at hspec
  cases hspec with
  | interrupted hresult => exact absurd rfl hresult
  | exhausted accounts =>
    obtain ⟨l, hl, -, hload⟩ := accounts
    obtain rfl : l = [] := by rw [← hrecorded, hl, List.nil_append]
    apply Set.eq_empty_iff_forall_notMem.mpr
    intro b hb
    have hpos : 0 < load (Grid.completions ps) [child.grid] b :=
      load_pos.mpr ⟨child.grid, List.mem_singleton_self _, hb⟩
    rw [hload b] at hpos
    exact absurd hpos (Nat.lt_irrefl 0)

end Sound

/-- What a call of `etii_expand_short_proof` says of the child. Where it plays the search, no board at
a head of the loop or at its end is complete, and nothing is recorded. -/
structure ShortProofSound {P : Puzzle} (ps : PieceSet P) (map : MapBigArray) (cfg : BtConfig) (turns : List Turn)
    (child : Packet P) (result : Option (Int × Nat)) : Prop where
  closed : ∀ n, result = some (1, n) → child.grid.completions ps = ∅
  heads : expandProofBudget < P.eternParts - placedCount child.grid → ∀ r, Reachable ps map cfg child r →
    r.st.placed < P.eternParts ∧ r.recorded = []
  ends : expandProofBudget < P.eternParts - placedCount child.grid → ∀ result r,
    searchPacketBacktrackingMrv ps map cfg turns child = .returns result r →
    r.st.placed < P.eternParts ∧ r.recorded = []
  goesOn : expandProofBudget < P.eternParts - placedCount child.grid → ∀ r,
    searchPacketBacktrackingMrv ps map cfg turns child ≠ .exits r

/-- A child closed by `etii_expand_short_proof` has no completion, and its search never stands on a
complete board. -/
theorem etiiExpandShortProof_sound {P : Puzzle} (ps : PieceSet P) (al : MapAllocs)
    (singletonConflictCheck stopOnSolution : Bool) (turns : List Turn) (child : Packet P) (hchild : child.WellFormed ps) :
    ShortProofSound ps (prepareMapPart ps al) (expandProofConfig singletonConflictCheck stopOnSolution) turns child
      (etiiExpandShortProof ps (prepareMapPart ps al) singletonConflictCheck stopOnSolution turns child) := by
  have hmap := mapOf_prepareMapPart ps al
  unfold etiiExpandShortProof
  generalize hcfg : expandProofConfig singletonConflictCheck stopOnSolution = cfg
  have hdelegate : cfg.allowDelegate = false := by rw [← hcfg, expandProofConfig]
  have hbudget : cfg.nodeBudget = 8 := by rw [← hcfg, expandProofConfig, expandProofBudget]; rfl
  have hcells : expandProofBudget < P.eternParts - placedCount child.grid →
      cfg.nodeBudget + placedCount child.grid < P.eternParts := by
    intro hguard
    rw [expandProofBudget] at hguard
    omega
  have hshort : expandProofBudget < P.eternParts - placedCount child.grid → ∀ turns,
      ShortResult ps (prepareMapPart ps al) cfg child.grid
        (searchPacketBacktrackingMrv ps (prepareMapPart ps al) cfg turns child) := by
    intro hguard
    apply searchPacketBacktrackingMrv_short hmap hdelegate _ hchild (hcells hguard)
    rw [hbudget]
    decide
  constructor
  · intro n hresult
    split at hresult
    · simp at hresult
    · rename_i hguard
      have hquiet := hshort (Nat.not_le.mp hguard) turns
      split at hresult
      · rename_i r hrun
        rw [hrun] at hquiet
        cases hquiet with
        | returns short => exact completions_eq_empty_of_exhausted hmap hdelegate hchild short.recorded hrun
      · simp at hresult
      · simp at hresult
  · rintro hguard r ⟨turns, hrun⟩
    have hquiet := hshort hguard turns
    rw [hrun] at hquiet
    cases hquiet with
    | continues short => exact ⟨short.incomplete (hcells hguard), short.recorded⟩
  · intro hguard result r hrun
    have hquiet := hshort hguard turns
    rw [hrun] at hquiet
    cases hquiet with
    | returns short => exact ⟨short.incomplete (hcells hguard), short.recorded⟩
  · intro hguard r hrun
    have hquiet := hshort hguard turns
    rw [hrun] at hquiet
    exact nomatch hquiet

/-- Pieces without a border side: no cell on the grid border has a candidate. -/
def borderlessPieces : PieceSet .p16 where
  part i := ⟨i, 1, 1, 1, 1, 0⟩
  part_id _ _ _ := rfl
  face_nonneg _ d _ _ := by cases d <;> simp [PuzzlePart.face]
  face_le _ d _ _ := by cases d <;> simp [PuzzlePart.face]

/-- The empty board is well formed for every piece set. -/
theorem emptyBoard_wellFormed (ps : PieceSet .p16) : (Frame.packet (P := .p16) fun _ => false).WellFormed ps where
  grid := by
    have hempty : ∀ c, (Frame.packet (P := .p16) fun _ => false).grid c = -2 := fun c => by
      rw [Frame.packet_grid, Frame.grid_eq_empty]
    refine ⟨fun c => .inl (hempty c), ?_, ?_, ?_, ?_⟩
    · exact fun c c' h => absurd (hempty c) h
    · exact fun c d h => absurd (hempty c) h
    · exact fun c d c' h => absurd (hempty c) h
    · exact fun c d c' h => absurd (hempty c) h
  mask := (Frame.packet_wellFormed fun _ => false).mask

/-- Without a border piece the first node closes the child. -/
theorem etiiExpandShortProof_sound_borderless :
    etiiExpandShortProof borderlessPieces (prepareMapPart borderlessPieces ⟨false, fun _ => false, false, false⟩)
        false false [.quiet] (Frame.packet fun _ => false) = some (1, 1) ∧
      (Frame.packet (P := .p16) fun _ => false).grid.completions borderlessPieces = ∅ := by
  have hclosed : etiiExpandShortProof borderlessPieces
      (prepareMapPart borderlessPieces ⟨false, fun _ => false, false, false⟩)
      false false [.quiet] (Frame.packet fun _ => false) = some (1, 1) := by decide +kernel
  refine ⟨hclosed, ?_⟩
  exact (etiiExpandShortProof_sound _ _ _ _ _ _ (emptyBoard_wellFormed _)).closed 1 hclosed
