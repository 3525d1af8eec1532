-- SUMMARY: Handing work over: delegation, the flush on a stop and the abandoned root.
import EternityII.Search.Pending

/-!
# Handing work over

A search gives part of its implicit stock to the server when it holds too much or the server
is hungry, and all of it when it is stopped or abandons a shallow root. The levels are only
marked as consumed once `add_possibility` has taken the packets.
-/

open Cover

/-- One call of `add_possibility`: the packets, and whether it reported a failure. -/
structure AddCall (P : Puzzle) where
  packets : List (Packet P)
  failed : Bool

/-- The local variables of `search_packet_backtracking_mrv`, the boards it has handed to
`record_solution` and the calls of `add_possibility` it has made, in order. -/
structure BtRun (P : Puzzle) where
  st : BtState P
  stack : List (BtLevel P)
  nodes : Nat
  noCheckDelegate : Nat
  recorded : List (Packet P)
  sent : List (AddCall P)

/-- The values of `request`. -/
inductive Request where
  | continue_ | stop | pause | adminPause
  deriving DecidableEq, Repr

/-- `request_is_pause` is positive. -/
def Request.isPause : Request → Bool
  | .pause => true
  | .adminPause => true
  | _ => false

/-- What one turn of the search reads from outside: `request`, read twice, the clock, the
settings an operator may change, the allocator and the outcome of `add_possibility`. -/
structure Turn where
  request : Request
  requestAgain : Request
  delegateDue : Bool
  shallowRootAbandonDepth : Int
  maxStockByThread : Int
  serverHunger : Int
  delegateBuf : Bool
  addFails : Bool

/-- The arguments and flags that stay the same during a search. -/
structure BtConfig where
  nodeBudget : Int
  allowDelegate : Bool
  singletonConflictCheck : Bool
  stopOnSolution : Bool

/-- `bt_delegation_quota`; `max_stock` is compared as an `unsigned long long`. -/
def btDelegationQuota (pending : Nat) (maxStock hunger : Int) : Int :=
  if (pending : Int) > maxStock % 2 ^ 64 then maxStock
  else if hunger ≤ 0 ∨ pending < 2 then 0
  else if hunger < (pending : Int) / 2 then hunger
  else (pending : Int) / 2

/-- `bt_should_abandon_shallow_root`. -/
def btShouldAbandonShallowRoot (rootDepth placed : Nat) (abandonDepth : Int) : Bool :=
  abandonDepth > 0 && rootDepth < abandonDepth && placed ≥ abandonDepth

section Delegate

variable {P : Puzzle} (ps : PieceSet P) (map : MapBigArray) (cfg : BtConfig)

/-- A call of `add_possibility`. -/
def BtRun.addPossibility (r : BtRun P) (packets : List (Packet P)) (failed : Bool) : BtRun P :=
  { r with sent := r.sent ++ [⟨packets, failed⟩] }

/-- `bt_delegate_if_needed`; the error is the run at the end of the process. -/
def btDelegateIfNeeded (t : Turn) (r : BtRun P) : Except (BtRun P) (BtRun P) :=
  let quota := btDelegationQuota (btCountPending r.st.board r.stack) t.maxStockByThread t.serverHunger
  if quota ≤ 0 then .ok r
  else if !t.delegateBuf then .ok r
  else
    match btMaterializePending ps map cfg.stopOnSolution quota.toNat r.st.board r.stack with
    | .error recorded => .error { r with recorded := r.recorded ++ recorded }
    | .ok (newNextS, aposs) =>
      let r := { r with recorded := r.recorded ++ aposs.recorded }
      if aposs.out.length > 0 then
        if t.addFails then .ok (r.addPossibility aposs.out true)
        else .ok { r.addPossibility aposs.out false with stack := btCommit r.stack newNextS }
      else .ok r

/-- The packet of the current path in `bt_flush_pending`. -/
def BtState.current (st : BtState P) : Packet P :=
  { st.board with alloc := UInt16.ofNat (placedCount st.board.grid), checked := 0 }

/-- `bt_flush_pending`. -/
def btFlushPending (t : Turn) (r : BtRun P) : Except (BtRun P) (BtRun P) :=
  match btMaterializePending ps map cfg.stopOnSolution (btCountPending r.st.board r.stack)
      r.st.board r.stack with
  | .error recorded => .error { r with recorded := r.recorded ++ recorded }
  | .ok (_, aposs) =>
    let r := { r with recorded := r.recorded ++ aposs.recorded }
    let cur := r.st.current
    let complete := cur.alloc.toNat ≥ P.eternParts
    .ok (r.addPossibility (if complete then aposs.out else aposs.out ++ [cur]) t.addFails)

/-- `bt_abandon_shallow_root`. -/
def btAbandonShallowRoot (t : Turn) (r : BtRun P) : Except (BtRun P) (BtRun P) :=
  btFlushPending ps map cfg t r

end Delegate

/-! ## The work of a run -/

/-- The boards still to be explored: the current path and the pending siblings. -/
def BtRun.remaining {P : Puzzle} (r : BtRun P) : List (Grid P) :=
  r.st.board.grid :: pendingBoards r.st.board.grid r.stack

/-- The state of a run on the way from the root: board and caches agree, and the stack is a
path from the root to the board. -/
structure BtRun.OnPath {P : Puzzle} (ps : PieceSet P) (map : MapBigArray) (root : Grid P) (r : BtRun P) :
    Prop where
  state : r.st.At ps map r.st.board.grid
  path : DecisionPath ps map root r.st.board.grid r.stack

section Spec

variable {P : Puzzle} {ps : PieceSet P} {map : MapBigArray} {cfg : BtConfig} {root : Grid P}
  {r r' : BtRun P} {t : Turn}

/-- What `bt_delegate_if_needed` does to a run. -/
inductive DelegateSpec (ps : PieceSet P) (r r' : BtRun P) : Prop
  | kept (recorded : List (Packet P)) (hrecorded : r'.recorded = r.recorded ++ recorded)
      (solved : ∀ q ∈ recorded, Solved ps q) (sent : r'.sent = r.sent) (stack : r'.stack = r.stack)
  | failed (recorded out : List (Packet P)) (hrecorded : r'.recorded = r.recorded ++ recorded)
      (solved : ∀ q ∈ recorded, Solved ps q) (sent : r'.sent = r.sent ++ [⟨out, true⟩])
      (stack : r'.stack = r.stack)
  | delegated (recorded out : List (Packet P)) (hrecorded : r'.recorded = r.recorded ++ recorded)
      (solved : ∀ q ∈ recorded, Solved ps q) (sent : r'.sent = r.sent ++ [⟨out, false⟩])
      (handed : ∀ q ∈ out, HandedOver ps q)
      (load : ∀ b, load (Grid.completions ps) r.remaining b =
        load (Grid.completions ps) (out.map Packet.grid) b +
          load (Grid.completions ps) (recorded.map Packet.grid) b +
          load (Grid.completions ps) r'.remaining b)

/-- A delegation never makes a run cover a completion more often. -/
theorem DelegateSpec.le (h : DelegateSpec ps r r') (hst : r'.st = r.st) (b : Grid P) :
    load (Grid.completions ps) r'.remaining b ≤ load (Grid.completions ps) r.remaining b := by
  cases h with
  | kept _ _ _ _ stack => rw [BtRun.remaining, BtRun.remaining, hst, stack]
  | failed _ _ _ _ _ stack => rw [BtRun.remaining, BtRun.remaining, hst, stack]
  | delegated _ _ _ _ _ _ hload =>
    rw [hload b]
    exact Nat.le_add_left _ _

section Materialize

variable (hmap : MapOf ps map) (hroot : root.WellFormed ps) (h : r.OnPath ps map root)
include hmap hroot h

/-- What `bt_materialize_pending` makes of the pending siblings of a run. -/
theorem btMaterializePending_spec {stop : Bool} {maxOut : Nat} {newNextS : List Nat}
    {aposs : Materialized P}
    (hrun : btMaterializePending ps map stop maxOut r.st.board r.stack = .ok (newNextS, aposs)) :
    DecisionPath ps map root r.st.board.grid (btCommit r.stack newNextS) ∧
      Yields ps maxOut (pendingBoards r.st.board.grid r.stack)
        (pendingBoards r.st.board.grid (btCommit r.stack newNextS)) ⟨[], []⟩ aposs
        aposs.out aposs.recorded := by
  obtain ⟨hpath, out, recorded, hyields⟩ :=
    btMaterializeLoop_spec hmap hroot h.path h.state.wellFormed hrun
  have hout := hyields.out_eq
  have hrecorded := hyields.recorded_eq
  rw [List.nil_append] at hout hrecorded
  rw [hout, hrecorded]
  exact ⟨hpath, hyields⟩

theorem btDelegateIfNeeded_spec (hrun : btDelegateIfNeeded ps map cfg t r = .ok r') :
    r'.OnPath ps map root ∧ r'.st = r.st ∧ r'.noCheckDelegate = r.noCheckDelegate ∧
      DelegateSpec ps r r' := by
  unfold btDelegateIfNeeded at hrun
  dsimp only at hrun
  have hkept : DelegateSpec ps r r := .kept [] (by simp) (by simp) rfl rfl
  split at hrun
  · obtain rfl := Except.ok.inj hrun
    exact ⟨h, rfl, rfl, hkept⟩
  · split at hrun
    · obtain rfl := Except.ok.inj hrun
      exact ⟨h, rfl, rfl, hkept⟩
    · split at hrun
      · exact absurd hrun (by simp)
      · rename_i newNextS aposs hmat
        obtain ⟨hpath, hyields⟩ := btMaterializePending_spec hmap hroot h hmat
        split at hrun
        · split at hrun
          · obtain rfl := Except.ok.inj hrun
            exact ⟨⟨h.state, h.path⟩, rfl, rfl, .failed _ _ rfl hyields.solved rfl rfl⟩
          · obtain rfl := Except.ok.inj hrun
            refine ⟨⟨h.state, hpath⟩, rfl, rfl, .delegated _ _ rfl hyields.solved rfl hyields.handed
              fun b => ?_⟩
            have hload := hyields.load b
            simp only [BtRun.remaining, BtRun.addPossibility, load_cons]
            omega
        · obtain rfl := Except.ok.inj hrun
          exact ⟨⟨h.state, h.path⟩, rfl, rfl, .kept _ rfl hyields.solved rfl rfl⟩

/-- `bt_flush_pending` on an incomplete board hands over everything that remains. -/
theorem btFlushPending_spec (hplaced : r.st.placed < P.eternParts)
    (hrun : btFlushPending ps map cfg t r = .ok r') :
    ∃ out recorded, r'.sent = r.sent ++ [⟨out, t.addFails⟩] ∧ r'.recorded = r.recorded ++ recorded ∧
      (∀ q ∈ out, HandedOver ps q) ∧ (∀ q ∈ recorded, Solved ps q) ∧
      ∀ b, load (Grid.completions ps) r.remaining b =
        load (Grid.completions ps) (out.map Packet.grid) b +
          load (Grid.completions ps) (recorded.map Packet.grid) b := by
  unfold btFlushPending at hrun
  split at hrun
  · exact absurd hrun (by simp)
  · rename_i newNextS aposs hmat
    obtain ⟨-, hyields⟩ := btMaterializePending_spec hmap hroot h hmat
    obtain rfl := Except.ok.inj hrun
    have hparts := P.eternParts_le
    have hcount := h.state.synced.placed
    have halloc : r.st.current.alloc.toNat = placedCount r.st.board.grid := by
      show (UInt16.ofNat (placedCount r.st.board.grid)).toNat = _
      rw [UInt16.toNat_ofNat', Nat.mod_eq_of_lt (by omega)]
    have hcur : HandedOver ps r.st.current :=
      ⟨⟨h.state.wellFormed.grid, h.state.wellFormed.mask⟩, halloc, rfl⟩
    -- The limit is the number of siblings, so whatever is sent, none is left behind.
    have hnone : pendingBoards r.st.board.grid (btCommit r.stack newNextS) = [] := by
      have hlength := hyields.count
      rw [btCountPending_eq hmap hroot h.state.wellFormed h.path] at hyields
      by_cases hroom : aposs.out.length < (pendingBoards r.st.board.grid r.stack).length
      · exact hyields.room hroom
      · exact List.eq_nil_of_length_eq_zero (by omega)
    refine ⟨aposs.out ++ [r.st.current], aposs.recorded, ?_, rfl, fun q hq => ?_, hyields.solved,
      fun b => ?_⟩
    · have hincomplete : ¬ r.st.current.alloc.toNat ≥ P.eternParts := by omega
      simp [BtRun.addPossibility, hincomplete]
    · rcases List.mem_append.mp hq with hq | hq
      · exact hyields.handed q hq
      · rw [List.mem_singleton.mp hq]
        exact hcur
    · have hload := hyields.load b
      rw [hnone, load_nil] at hload
      have hgrid : r.st.current.grid = r.st.board.grid := rfl
      simp only [BtRun.remaining, load_cons, List.map_append, List.map_cons, List.map_nil, load_append,
        load_nil, hgrid]
      omega

end Materialize

end Spec
