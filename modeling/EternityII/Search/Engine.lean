-- SUMMARY: The search loop: one turn, whole runs, and what both preserve of the work that remains.
import EternityII.Search.Delegate

/-!
# The search loop

One turn of `search_packet_backtracking_mrv` records a full board, obeys a request, hands
work over, or opens a level and goes on to the next board. A run is a sequence of turns,
each with its own reading of the outside world. Every turn keeps the board and its caches in
step and the stack on a path from the root. Without delegation the recorded boards and the
boards that remain always cover the completions of the root as often as the root does.
-/

open Cover

/-- `bt_core_result_t`. -/
inductive BtCoreResult where
  | exhausted | stopped | budget
  deriving DecidableEq, Repr

/-- How a turn ends: the loop goes on, the function returns, or the process exits. -/
inductive TurnResult (P : Puzzle) where
  | continues (r : BtRun P)
  | returns (result : BtCoreResult) (r : BtRun P)
  | exits (r : BtRun P)

/-- `DELEGATE_CHECK_INTERVAL_NODES`. -/
def delegateCheckIntervalNodes : Nat := 1000000

section Engine

variable {P : Puzzle} (fast : Bool) (ps : PieceSet P) (map : MapBigArray) (cfg : BtConfig)

/-- `board.alloc` and `board.min_candidats` after a placement. -/
def BtState.stamp (st : BtState P) (minCandidats : Int16) : BtState P :=
  { st with board := { st.board with alloc := UInt16.ofNat st.placed, minCandidats := minCandidats } }

/-- The turn from the label `backtrack` on. -/
def btSearchOn (r : BtRun P) : TurnResult P :=
  let next := btBacktrack fast map cfg.singletonConflictCheck r.stack r.st
  match next.2 with
  | [] => .returns .exhausted { r with st := next.1, stack := [] }
  | lvl :: stack =>
    let r := { r with st := next.1.stamp lvl.mrvScore, stack := lvl :: stack, nodes := r.nodes + 1 }
    if cfg.nodeBudget > 0 ∧ (r.nodes : Int) ≥ cfg.nodeBudget then .returns .budget r else .continues r

/-- The level opened on the current board. -/
def btOpenLevel (st : BtState P) : BtLevel P :=
  match mrvChoose map st fast with
  | some (c, score) =>
    { cell := c
      search := some (map.getPartsBigarrayWithKey (st.constraints c))
      nextS := 0
      placedPos := none
      mrvScore := score }
  | none =>
    { cell := Cell.ofPos P 0
      search := none
      nextS := 0
      placedPos := none
      mrvScore := possibilityMinCandidatsUnknown }

/-- The turn from the opening of a level on. -/
def btOpen (r : BtRun P) : TurnResult P :=
  btSearchOn fast map cfg { r with stack := btOpenLevel fast map r.st :: r.stack }

/-- A board with `ETERN_PARTS` pieces: `record_solution`, then backtrack. -/
def btRecord (r : BtRun P) : TurnResult P :=
  let board := { r.st.board with alloc := UInt16.ofNat r.st.placed }
  let r := { r with st := { r.st with board := board }, recorded := r.recorded ++ [board] }
  if cfg.stopOnSolution then .exits r else btSearchOn fast map cfg r

/-- The periodic delegation check, which may end the search on a shallow root. -/
def btDelegateCheck (rootDepth : Nat) (t : Turn) (r : BtRun P) : TurnResult P :=
  if r.noCheckDelegate + 1 = delegateCheckIntervalNodes then
    let r := { r with noCheckDelegate := 0 }
    if t.delegateDue then
      if btShouldAbandonShallowRoot rootDepth r.st.placed t.shallowRootAbandonDepth then
        match btAbandonShallowRoot ps map cfg t r with
        | .error r => .exits r
        | .ok r => .returns .exhausted r
      else
        match btDelegateIfNeeded ps map cfg t r with
        | .error r => .exits r
        | .ok r => btOpen fast map cfg r
    else btOpen fast map cfg r
  else btOpen fast map cfg { r with noCheckDelegate := r.noCheckDelegate + 1 }

/-- One turn of the `for (;;)` loop. -/
def btTurn (rootDepth : Nat) (t : Turn) (r : BtRun P) : TurnResult P :=
  if r.st.placed ≥ P.eternParts then btRecord fast map cfg r
  else if t.request ≠ .continue_ then
    if t.requestAgain.isPause then .continues r
    else if cfg.allowDelegate then
      match btFlushPending ps map cfg t r with
      | .error r => .exits r
      | .ok r => .returns .stopped r
    else .returns .stopped r
  else if cfg.allowDelegate then btDelegateCheck fast ps map cfg rootDepth t r
  else btOpen fast map cfg r

/-- The run at the head of the loop on a root. -/
def btStart (root : Packet P) : BtRun P where
  st := .init ps map root
  stack := []
  nodes := 1
  noCheckDelegate := 0
  recorded := []
  sent := []

/-- The turns of a run, until the function returns or the turns are used up. -/
def btTurns (rootDepth : Nat) : List Turn → BtRun P → TurnResult P
  | [], r => .continues r
  | t :: turns, r =>
    match btTurn fast ps map cfg rootDepth t r with
    | .continues r => btTurns rootDepth turns r
    | result => result

/-- `search_packet_backtracking_mrv` with `fast` fixed: 1 for the fast path, 0 for the generic one. -/
def searchPacketBacktrackingMrvVia (turns : List Turn) (root : Packet P) : TurnResult P :=
  btTurns fast ps map cfg (placedCount root.grid) turns (btStart ps map root)

/-- `search_packet_backtracking_mrv`, as far as a sequence of turns takes it. -/
def searchPacketBacktrackingMrv (turns : List Turn) (root : Packet P) : TurnResult P :=
  searchPacketBacktrackingMrvVia (btMasksComplete P map) ps map cfg turns root

end Engine

/-! ## Accounting for the work -/

/-- The work of `work` has become newly recorded solutions and the work of `left`. -/
def Accounts {P : Puzzle} (ps : PieceSet P) (recorded recorded' : List (Packet P))
    (work left : List (Grid P)) : Prop :=
  ∃ l, recorded' = recorded ++ l ∧ (∀ q ∈ l, Solved ps q) ∧
    ∀ b, load (Grid.completions ps) work b =
      load (Grid.completions ps) (l.map Packet.grid) b + load (Grid.completions ps) left b

/-- How a turn ends, relative to what was recorded and what was to be explored before. -/
inductive TurnSpec {P : Puzzle} (ps : PieceSet P) (map : MapBigArray) (root : Grid P)
    (recorded : List (Packet P)) (work : List (Grid P)) : TurnResult P → Prop
  | continues {r : BtRun P} (onPath : r.OnPath ps map root)
      (accounts : Accounts ps recorded r.recorded work r.remaining) :
      TurnSpec ps map root recorded work (.continues r)
  | interrupted {result : BtCoreResult} {r : BtRun P} (hresult : result ≠ .exhausted)
      (onPath : r.OnPath ps map root) (accounts : Accounts ps recorded r.recorded work r.remaining) :
      TurnSpec ps map root recorded work (.returns result r)
  | exhausted {r : BtRun P} (accounts : Accounts ps recorded r.recorded work []) :
      TurnSpec ps map root recorded work (.returns .exhausted r)
  | exits {r : BtRun P} : TurnSpec ps map root recorded work (.exits r)

section Accounts

variable {P : Puzzle} {ps : PieceSet P} {map : MapBigArray} {root : Grid P}
  {recorded recorded' recorded'' : List (Packet P)} {work work' left : List (Grid P)}

theorem Accounts.of_sameLoad (h : SameLoad (Grid.completions ps) work left) :
    Accounts ps recorded recorded work left :=
  ⟨[], by simp, by simp, fun b => by simpa using h b⟩

theorem Accounts.trans (h : Accounts ps recorded recorded' work work')
    (h' : Accounts ps recorded' recorded'' work' left) : Accounts ps recorded recorded'' work left := by
  obtain ⟨l, rfl, hsolved, hload⟩ := h
  obtain ⟨l', rfl, hsolved', hload'⟩ := h'
  refine ⟨l ++ l', List.append_assoc .., fun q hq => ?_, fun b => ?_⟩
  · exact (List.mem_append.mp hq).elim (hsolved q) (hsolved' q)
  · rw [hload b, hload' b, List.map_append, load_append, Nat.add_assoc]

theorem Accounts.le (h : Accounts ps recorded recorded' work left) (b : Grid P) :
    load (Grid.completions ps) left b ≤ load (Grid.completions ps) work b := by
  obtain ⟨l, -, -, hload⟩ := h
  rw [hload b]
  exact Nat.le_add_left _ _

theorem TurnSpec.of_accounts (h : Accounts ps recorded recorded' work work') {result : TurnResult P}
    (hspec : TurnSpec ps map root recorded' work' result) : TurnSpec ps map root recorded work result := by
  cases hspec with
  | continues onPath accounts => exact .continues onPath (h.trans accounts)
  | interrupted hresult onPath accounts => exact .interrupted hresult onPath (h.trans accounts)
  | exhausted accounts => exact .exhausted (h.trans accounts)
  | exits => exact .exits

end Accounts

/-! ## One turn -/

section Turn

variable {P : Puzzle} {fast : Bool} {ps : PieceSet P} {map : MapBigArray} {cfg : BtConfig} {root : Grid P}
  {r r' : BtRun P} {t : Turn}

theorem btStart_onPath {root : Packet P} (hroot : root.WellFormed ps) :
    (btStart ps map root).OnPath ps map root.grid :=
  ⟨BtState.at_init hroot, .root⟩

variable (hfast : fast = true → btMasksComplete P map = true) (hmap : MapOf ps map) (hroot : root.WellFormed ps)
  (h : r.OnPath ps map root)
include hfast hmap hroot h

/-- From the label `backtrack` on, the pending boards are all the work. -/
theorem btSearchOn_spec : TurnSpec ps map root r.recorded (pendingBoards r.st.board.grid r.stack)
    (btSearchOn fast map cfg r) := by
  have hback : BacktrackSpec ps map root r.st.board.grid r.stack
      (btBacktrack fast map cfg.singletonConflictCheck r.stack r.st) :=
    btBacktrack_spec hfast hmap hroot h.path h.state
  unfold btSearchOn
  dsimp only
  generalize btBacktrack fast map cfg.singletonConflictCheck r.stack r.st = next at hback
  obtain ⟨st, stack⟩ := next
  obtain ⟨⟨g, hst, hpath⟩, hexhausted, hload⟩ := hback
  cases stack with
  | nil => exact .exhausted (.of_sameLoad (hexhausted rfl))
  | cons lvl stack =>
    obtain rfl := hst.grid
    have hstamp : (st.stamp lvl.mrvScore).At ps map st.board.grid := hst.withBoard rfl rfl
    have hwork : Accounts ps r.recorded r.recorded (pendingBoards r.st.board.grid r.stack)
        (st.board.grid :: pendingBoards st.board.grid (lvl :: stack)) :=
      .of_sameLoad (hload (List.cons_ne_nil _ _))
    dsimp only
    split
    · exact .interrupted (by decide) ⟨hstamp, hpath⟩ hwork
    · exact .continues ⟨hstamp, hpath⟩ hwork

omit hroot in
/-- Opening a level on a board with an empty cell turns the board into its candidates. -/
theorem btOpenLevel_spec (hplaced : r.st.placed < P.eternParts) :
    DecisionPath ps map root r.st.board.grid (btOpenLevel fast map r.st :: r.stack) ∧
      SameLoad (Grid.completions ps) r.remaining
        (pendingBoards r.st.board.grid (btOpenLevel fast map r.st :: r.stack)) := by
  have hchoice := mrvChoose_spec h.state.synced hmap h.state.wellFormed hfast
  unfold btOpenLevel
  cases hc : mrvChoose map r.st fast with
  | none =>
    refine ⟨.opened h.path (fun _ hsearch => absurd hsearch (by simp)) rfl, ?_⟩
    have hdead : r.st.board.grid.completions ps = ∅ := by
      refine (hchoice.dead hc).resolve_right fun hfull => ?_
      have hcount := placedCount_eq_iff.mpr hfull
      have hsynced := h.state.synced.placed
      omega
    rw [pendingBoards_opened rfl]
    exact (sameLoad_nil_of_empty hdead).append SameLoad.rfl
  | some choice =>
    obtain ⟨c, score⟩ := choice
    have hempty := hchoice.empty c score hc
    have hkey : r.st.constraints c = whatSearchInGridToKey ps r.st.board.grid c map.sizearrayM :=
      constraints_eq h.state.synced c
    refine ⟨.opened h.path (fun search hsearch => ⟨hempty, ?_⟩) rfl, ?_⟩
    · rw [← Option.some.inj hsearch, hkey]
    · rw [pendingBoards_opened rfl]
      dsimp only
      rw [hkey]
      exact (exactCut_candidateBoards hmap h.state.wellFormed.grid hempty).append SameLoad.rfl

theorem btOpen_spec (hplaced : r.st.placed < P.eternParts) :
    TurnSpec ps map root r.recorded r.remaining (btOpen fast map cfg r) := by
  obtain ⟨hpath, hload⟩ := btOpenLevel_spec hfast hmap h hplaced
  have hopened : BtRun.OnPath ps map root { r with stack := btOpenLevel fast map r.st :: r.stack } :=
    ⟨h.state, hpath⟩
  exact .of_accounts (.of_sameLoad hload) (btSearchOn_spec hfast hmap hroot hopened)

theorem btRecord_spec (hplaced : r.st.placed ≥ P.eternParts) :
    TurnSpec ps map root r.recorded r.remaining (btRecord fast map cfg r) := by
  have hfull : ∀ c, r.st.board.grid c ≠ -2 := by
    have hle := placedCount_le r.st.board.grid
    have hcount := h.state.synced.placed
    exact placedCount_eq_iff.mp (by omega)
  unfold btRecord
  dsimp only
  generalize hboard : ({ r.st.board with alloc := UInt16.ofNat r.st.placed } : Packet P) = board
  have hgrid : board.grid = r.st.board.grid := by rw [← hboard]
  have hst := h.state.withBoard hgrid (by rw [← hboard])
  split
  · exact .exits
  · have hrecorded : BtRun.OnPath ps map root
        { r with st := { r.st with board := board }, recorded := r.recorded ++ [board] } :=
      ⟨hgrid ▸ hst, hgrid ▸ h.path⟩
    refine .of_accounts ⟨[board], rfl, ?_, fun b => ?_⟩ (btSearchOn_spec hfast hmap hroot hrecorded)
    · rw [List.forall_mem_singleton]
      exact ⟨hst.wellFormed, by rwa [hgrid]⟩
    · simp only [BtRun.remaining, List.map_cons, List.map_nil, load_cons, load_nil, hgrid]
      omega

/-- Without delegation a turn accounts for all the work. -/
theorem btTurn_spec (hdelegate : cfg.allowDelegate = false) (rootDepth : Nat) (t : Turn) :
    TurnSpec ps map root r.recorded r.remaining (btTurn fast ps map cfg rootDepth t r) := by
  unfold btTurn
  simp only [hdelegate, Bool.false_eq_true, if_false]
  split
  · rename_i hplaced
    exact btRecord_spec hfast hmap hroot h hplaced
  · rename_i hplaced
    split
    · split
      · exact .continues h (.of_sameLoad SameLoad.rfl)
      · exact .interrupted (by decide) h (.of_sameLoad SameLoad.rfl)
    · exact btOpen_spec hfast hmap hroot h (by omega)

/-- With or without delegation, a turn that goes on stays on the path and covers no
completion more often than before. -/
theorem btTurn_continues {rootDepth : Nat} (hturn : btTurn fast ps map cfg rootDepth t r = .continues r') :
    r'.OnPath ps map root ∧
      ∀ b, load (Grid.completions ps) r'.remaining b ≤ load (Grid.completions ps) r.remaining b := by
  have hspec : ∀ {r₁ : BtRun P} {result : TurnResult P},
      TurnSpec ps map root r₁.recorded r₁.remaining result → result = .continues r' →
      (∀ b, load (Grid.completions ps) r₁.remaining b ≤ load (Grid.completions ps) r.remaining b) →
      r'.OnPath ps map root ∧
        ∀ b, load (Grid.completions ps) r'.remaining b ≤ load (Grid.completions ps) r.remaining b := by
    rintro r₁ result hresult rfl hle
    cases hresult with
    | continues onPath accounts => exact ⟨onPath, fun b => (accounts.le b).trans (hle b)⟩
  unfold btTurn at hturn
  split at hturn
  · rename_i hplaced
    exact hspec (btRecord_spec hfast hmap hroot h hplaced) hturn fun b => Nat.le_refl _
  · rename_i hplaced
    have hplaced : r.st.placed < P.eternParts := by omega
    split at hturn
    · split at hturn
      · obtain rfl := TurnResult.continues.inj hturn
        exact ⟨h, fun b => Nat.le_refl _⟩
      · split at hturn
        · split at hturn <;> exact absurd hturn (by simp)
        · exact absurd hturn (by simp)
    · split at hturn
      · unfold btDelegateCheck at hturn
        dsimp only at hturn
        split at hturn
        · split at hturn
          · split at hturn
            · split at hturn <;> exact absurd hturn (by simp)
            · split at hturn
              · exact absurd hturn (by simp)
              · rename_i r₁ hdelegate
                obtain ⟨hpath, hst, -, hspec₁⟩ := btDelegateIfNeeded_spec hmap hroot
                  (r := { r with noCheckDelegate := 0 }) ⟨h.state, h.path⟩ hdelegate
                exact hspec (btOpen_spec hfast hmap hroot hpath (by rw [hst]; exact hplaced)) hturn
                  (hspec₁.le hst)
          · exact hspec (btOpen_spec (r := { r with noCheckDelegate := 0 }) hfast hmap hroot
              ⟨h.state, h.path⟩ hplaced) hturn fun b => Nat.le_refl _
        · exact hspec (btOpen_spec (r := { r with noCheckDelegate := r.noCheckDelegate + 1 }) hfast hmap hroot
            ⟨h.state, h.path⟩ hplaced) hturn fun b => Nat.le_refl _
      · exact hspec (btOpen_spec hfast hmap hroot h hplaced) hturn fun b => Nat.le_refl _

end Turn

/-! ## The node budget -/

section Nodes

variable {P : Puzzle} {fast : Bool} {ps : PieceSet P} {map : MapBigArray}

theorem btSearchOn_nodes {cfg : BtConfig} {r r' : BtRun P} (hbudget : 0 < cfg.nodeBudget)
    (h : btSearchOn fast map cfg r = .continues r') :
    r'.nodes = r.nodes + 1 ∧ (r'.nodes : Int) < cfg.nodeBudget := by
  unfold btSearchOn at h
  dsimp only at h
  split at h
  · exact absurd h (by simp)
  · split at h
    · exact absurd h (by simp)
    · rename_i hgoes
      obtain rfl := TurnResult.continues.inj h
      exact ⟨rfl, Int.not_le.mp fun hle => hgoes ⟨hbudget, hle⟩⟩

/-- A turn that no request interrupts counts a node below the budget. -/
theorem btTurn_nodes {cfg : BtConfig} {rootDepth : Nat} {t : Turn} {r r' : BtRun P}
    (hbudget : 0 < cfg.nodeBudget) (hdelegate : cfg.allowDelegate = false)
    (hrequest : t.request = .continue_) (h : btTurn fast ps map cfg rootDepth t r = .continues r') :
    r'.nodes = r.nodes + 1 ∧ (r'.nodes : Int) < cfg.nodeBudget := by
  unfold btTurn at h
  rw [hrequest, hdelegate] at h
  split at h
  · unfold btRecord at h
    dsimp only at h
    split at h
    · exact absurd h (by simp)
    · have hnodes := btSearchOn_nodes hbudget h
      exact hnodes
  · rw [if_neg (not_not_intro rfl), if_neg Bool.false_ne_true] at h
    have hnodes := btSearchOn_nodes hbudget h
    exact hnodes

/-- Uninterrupted turns go on only as long as the budget lasts. -/
theorem btTurns_nodes {cfg : BtConfig} {rootDepth : Nat} {turns : List Turn} {r r' : BtRun P}
    (hbudget : 0 < cfg.nodeBudget) (hdelegate : cfg.allowDelegate = false)
    (hrequest : ∀ t ∈ turns, t.request = .continue_) (hturns : turns ≠ [])
    (h : btTurns fast ps map cfg rootDepth turns r = .continues r') :
    (r.nodes + turns.length : Int) < cfg.nodeBudget := by
  induction turns generalizing r with
  | nil => exact absurd rfl hturns
  | cons t turns ih =>
    rw [btTurns] at h
    cases hturn : btTurn fast ps map cfg rootDepth t r with
    | returns result r₁ => simp [hturn] at h
    | exits r₁ => simp [hturn] at h
    | continues r₁ =>
      rw [hturn] at h
      obtain ⟨hnodes, hlt⟩ := btTurn_nodes hbudget hdelegate (hrequest t List.mem_cons_self) hturn
      rw [List.length_cons]
      rcases eq_or_ne turns [] with rfl | hne
      · simp only [List.length_nil]
        omega
      · have hrest := ih (fun t' ht' => hrequest t' (List.mem_cons_of_mem t ht')) hne h
        omega

end Nodes
