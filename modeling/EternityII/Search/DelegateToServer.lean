-- SUMMARY: Delegation against the real add_possibility: when the packets, the local pools and the stack share no completion.
import EternityII.Search.Lockstep
import EternityII.Stock.AddPossibility

/-!
# Delegation and the server

`bt_delegate_if_needed` keeps its resume positions when `add_possibility` reports a failure,
and moves them on when it reports none. `add_possibility` sends the packets to the server, or
puts them in the local pools when there is none. Both sides are joined here: a packet that has
been acknowledged or stored by a call that fails stays in the stack as well, and one that a
call without a failure has dropped is nowhere.
-/

open Cover

/-! ## The joined step -/

section Joined

variable {P : Puzzle}

variable (ps : PieceSet P) (map : MapBigArray) (cfg : BtConfig)

/-- The packets `bt_delegate_if_needed` hands to `add_possibility`; without any it is not called. -/
def btDelegated (t : Turn) (r : BtRun P) : List (Packet P) :=
  let quota := btDelegationQuota (btCountPending r.st.board r.stack) t.maxStockByThread t.serverHunger
  if quota ≤ 0 then []
  else if !t.delegateBuf then []
  else
    match btMaterializePending ps map cfg.stopOnSolution quota.toNat r.st.board r.stack with
    | .error _ => []
    | .ok (_, aposs) => aposs.out

/-- `bt_delegate_if_needed` with the `add_possibility` it calls. -/
def btDelegateTo (env : AddEnv) (stock : LocalStock) (t : Turn) (r : BtRun P) :
    Except (BtRun P) (BtRun P) × ServerPut P :=
  let delegated := btDelegated ps map cfg t r
  let put := if delegated.length > 0 then addPossibility env stock delegated else ⟨stock, [], 0⟩
  (btDelegateIfNeeded ps map cfg { t with addFails := put.result ≠ 0 } r, put)

end Joined

/-! ## No sibling completes the board -/

section Recorded

variable {P : Puzzle} {ps : PieceSet P} {map : MapBigArray} {cfg : BtConfig} {root g : Grid P}
  {r r' : BtRun P} {t : Turn} {stack : List (BtLevel P)}

/-- One more piece does not complete the board: a level records nothing and does not exit. -/
theorem btMaterializeLevel_recorded (stop : Bool) (maxOut : Nat) {scratch : Packet P} {lvl : BtLevel P}
    (hc : scratch.grid lvl.cell = -2) (hroom : placedCount scratch.grid + 1 < P.eternParts)
    {l : List PuzzlePart} (hl : ∀ e ∈ l, e.id ≠ 0 → e.value P ≠ -2) (s : Nat) (acc : Materialized P) :
    ∃ r, btMaterializeLevel ps map stop maxOut scratch lvl l s acc = .ok r ∧
      r.2.recorded = acc.recorded := by
  induction l generalizing s acc with
  | nil => exact ⟨_, rfl, rfl⟩
  | cons e l ih =>
    rw [List.forall_mem_cons] at hl
    unfold btMaterializeLevel
    split
    · split
      · exact ih hl.2 _ _
      · rename_i hid
        split
        · exact ih hl.2 _ _
        · have hcount : (scratch.materialize lvl e).alloc.toNat < P.eternParts := by
            show (UInt16.ofNat (placedCount (scratch.grid.place lvl.cell (e.value P)))).toNat < _
            rw [placedCount_place hc (hl.1 hid), UInt16.toNat_ofNat']
            exact Nat.lt_of_le_of_lt (Nat.mod_le _ _) hroom
          dsimp only
          rw [if_neg (Nat.not_le.mpr hcount)]
          split
          · exact ih hl.2 _ { acc with out := acc.out ++ [{ scratch.materialize lvl e with checked := 0 }] }
          · exact ih hl.2 _ _
    · exact ⟨_, rfl, rfl⟩

theorem btMaterializeLoop_recorded (hmap : MapOf ps map) (hroot : root.WellFormed ps) (stop : Bool)
    (maxOut : Nat) {scratch : Packet P} (path : DecisionPath ps map root scratch.grid stack)
    (hq : scratch.WellFormed ps) (hall : AllPlaced stack) (hroom : placedCount scratch.grid < P.eternParts)
    (acc : Materialized P) :
    ∃ r, btMaterializeLoop ps map stop maxOut stack scratch acc = .ok r ∧ r.2.recorded = acc.recorded := by
  induction stack generalizing scratch acc with
  | nil => exact ⟨_, rfl, rfl⟩
  | cons lvl stack ih =>
    obtain ⟨hback, hpath, hlevel⟩ := Packet.takeBackLevel_spec hroot path hq
    obtain ⟨hlvl, htail⟩ := List.forall_mem_cons.mp hall
    have hcount : placedCount (scratch.takeBackLevel lvl).grid + 1 = placedCount scratch.grid := by
      unfold Packet.takeBackLevel
      dsimp only
      generalize scratch.grid = g at path
      cases path with
      | opened path level hplaced => exact absurd hplaced hlvl
      | placed path level hempty hfits hplaced =>
        rw [BtLevel.opened_of_some hplaced hempty, placedCount_place hempty hfits.piece.ne_empty]
    have hbelow := ih hpath hback htail (by omega)
    unfold btMaterializeLoop
    split
    · dsimp only
      split
      · obtain ⟨r, hr, hrecorded⟩ := hbelow acc
        exact ⟨(lvl.nextS :: r.1, r.2), by rw [hr]; rfl, hrecorded⟩
      · rename_i search hsearch
        have hrest : lvl.rest = search.drop lvl.nextS := by simp [BtLevel.rest, hsearch]
        have hvalue : ∀ e ∈ lvl.rest, e.id ≠ 0 → e.value P ≠ -2 := fun e he hid =>
          (rotateAllParts_value (hlevel.mem hmap hback.grid e he) hid).1.ne_empty
        rw [hrest] at hvalue
        obtain ⟨⟨s, acc₁⟩, hrun, hfirst⟩ := btMaterializeLevel_recorded stop maxOut
          (hlevel search hsearch).1 (by omega) hvalue lvl.nextS acc
        obtain ⟨r, hr, hrecorded⟩ := hbelow acc₁
        rw [hrun]
        dsimp only
        exact ⟨(s :: r.1, r.2), by rw [hr]; rfl, hrecorded.trans hfirst⟩
    · exact ⟨_, rfl, rfl⟩

/-- What `bt_delegate_if_needed` does in a reachable state: it returns, records nothing, and hands
over the packets of `btDelegated` at the cost of the stack when `add_possibility` succeeds. -/
structure Delegation (ps : PieceSet P) (r : BtRun P) (failed : Bool) (delegated : List (Packet P))
    (r' : BtRun P) : Prop where
  st : r'.st = r.st
  recorded : r'.recorded = r.recorded
  handed : ∀ q ∈ delegated, HandedOver ps q
  kept : failed = true → r'.stack = r.stack
  load : failed = false → ∀ b, load (Grid.completions ps) r.remaining b =
    load (Grid.completions ps) (delegated.map Packet.grid) b + load (Grid.completions ps) r'.remaining b

theorem btDelegateIfNeeded_delegated (hmap : MapOf ps map) (hroot : root.WellFormed ps)
    (h : r.OnPath ps map root) (hall : AllPlaced r.stack) (hplaced : r.st.placed < P.eternParts) (t : Turn) :
    ∃ r', btDelegateIfNeeded ps map cfg t r = .ok r' ∧
      Delegation ps r t.addFails (btDelegated ps map cfg t r) r' := by
  have hnone : Delegation ps r t.addFails [] r :=
    ⟨rfl, rfl, fun _ hq => absurd hq List.not_mem_nil, fun _ => rfl, fun _ _ => by simp⟩
  unfold btDelegateIfNeeded btDelegated
  dsimp only
  split
  · exact ⟨r, rfl, hnone⟩
  · split
    · exact ⟨r, rfl, hnone⟩
    · generalize btDelegationQuota _ _ _ = quota
      have hroom : placedCount r.st.board.grid < P.eternParts := by rwa [← h.state.synced.placed]
      obtain ⟨⟨newNextS, aposs⟩, hmat, hrecorded⟩ := btMaterializeLoop_recorded hmap hroot
        cfg.stopOnSolution quota.toNat h.path h.state.wellFormed hall hroom ⟨[], []⟩
      have hmat : btMaterializePending ps map cfg.stopOnSolution quota.toNat r.st.board r.stack =
        .ok (newNextS, aposs) := hmat
      obtain ⟨-, hyields⟩ := btMaterializePending_spec hmap hroot h hmat
      have hrecorded : aposs.recorded = [] := hrecorded
      rw [hmat]
      dsimp only
      split
      · rename_i hout
        split
        · rename_i hfails
          refine ⟨_, rfl, rfl, ?_, hyields.handed, fun _ => rfl, fun hnot => ?_⟩
          · simp [BtRun.addPossibility, hrecorded]
          · rw [hfails] at hnot
            exact absurd hnot (by decide)
        · rename_i hfails
          refine ⟨_, rfl, rfl, ?_, hyields.handed, fun hyes => absurd hyes hfails, fun _ b => ?_⟩
          · simp [BtRun.addPossibility, hrecorded]
          · have hload := hyields.load b
            rw [hrecorded, List.map_nil, load_nil] at hload
            simp only [BtRun.remaining, BtRun.addPossibility, load_cons]
            omega
      · rename_i hout
        have hnil : aposs.out = [] := List.eq_nil_of_length_eq_zero (by omega)
        rw [hnil, hrecorded, List.append_nil]
        exact ⟨r, rfl, hnone⟩

end Recorded

/-! ## Every completion in one place -/

/-- The board of a record. -/
def recordBoard (P : Puzzle) (record : List Byte) : Option (Grid P) :=
  (recordPacket P record).map Packet.grid

/-- The boards in the local pools. -/
def LocalStock.boards (P : Puzzle) (stock : LocalStock) : List (Grid P) :=
  stock.records.filterMap (recordBoard P)

/-- A hand-over leaves every pending completion in one place: no two boards of the work share one,
and it adds as much to the server, the local pools and the recorded boards as it takes from the
work. One that fails leaves the server and the local pools as they were. -/
structure HandsOverExactly {P : Puzzle} (ps : PieceSet P) (stock : LocalStock) (r : BtRun P)
    (put : ServerPut P) (r' : BtRun P) : Prop where
  disjoint : ∀ b, load (Grid.completions ps) r.remaining b ≤ 1
  load : ∃ recorded, r'.recorded = r.recorded ++ recorded ∧ ∀ b,
    load (Grid.completions ps) (stock.boards P) b + load (Grid.completions ps) r.remaining b =
      load (Grid.completions ps) (put.acked.map Packet.grid) b +
        load (Grid.completions ps) (put.stock.boards P) b +
        load (Grid.completions ps) r'.remaining b + load (Grid.completions ps) (recorded.map Packet.grid) b
  failed : put.result ≠ 0 → put.acked = [] ∧ put.stock.records.Perm stock.records

section HandsOver

variable {P : Puzzle} {ps : PieceSet P} {q : Packet P}

theorem HandedOver.encodable (h : HandedOver ps q) : q.Encodable :=
  codecValue_of_wellFormed h.wellFormed.grid

theorem recordBoard_recordOf (h : q.Encodable) :
    ∃ record, recordOf q = some record ∧ recordBoard P record = some q.grid := by
  obtain ⟨record, q', hrecord, hload, hcanonical⟩ := recordPacket_recordOf h
  refine ⟨record, hrecord, ?_⟩
  rw [recordBoard, hload]
  exact congrArg some hcanonical.grid

/-- The records of packets hold their boards. -/
theorem filterMap_recordBoard {packets : List (Packet P)} (h : ∀ q ∈ packets, q.Encodable) :
    (packets.filterMap recordOf).filterMap (recordBoard P) = packets.map Packet.grid := by
  induction packets with
  | nil => rfl
  | cons q packets ih =>
    obtain ⟨hq, hpackets⟩ := List.forall_mem_cons.mp h
    obtain ⟨record, hrecord, hboard⟩ := recordBoard_recordOf hq
    rw [List.filterMap_cons_some hrecord, List.filterMap_cons_some hboard, ih hpackets, List.map_cons]

/-- The boards the local pools hold after a call of `add_possibility`. -/
theorem AddFate.boards {packets acked stored dropped : List (Packet P)} {stock stock' : LocalStock}
    (h : AddFate packets stock stock' acked stored dropped) (hencodable : ∀ q ∈ packets, q.Encodable) :
    (stock'.boards P).Perm (stock.boards P ++ stored.map Packet.grid) := by
  have hstored : ∀ q ∈ stored, q.Encodable := fun q hq =>
    hencodable q (h.split.mem_iff.mp (List.mem_append_left _ (List.mem_append_right _ hq)))
  have hperm := h.records.filterMap (recordBoard P)
  rwa [List.filterMap_append, filterMap_recordBoard hstored] at hperm

theorem AddFate.load {packets acked stored dropped : List (Packet P)} {stock stock' : LocalStock}
    (h : AddFate packets stock stock' acked stored dropped) (b : Grid P) :
    Cover.load (Grid.completions ps) (packets.map Packet.grid) b =
      Cover.load (Grid.completions ps) (acked.map Packet.grid) b +
        Cover.load (Grid.completions ps) (stored.map Packet.grid) b +
        Cover.load (Grid.completions ps) (dropped.map Packet.grid) b := by
  rw [← load_perm (h.split.map Packet.grid), List.map_append, List.map_append, load_append, load_append]

/-- Packets that cover nothing have no completions. -/
theorem load_grids_eq_zero {packets : List (Packet P)} :
    (∀ b, Cover.load (Grid.completions ps) (packets.map Packet.grid) b = 0) ↔
      ∀ q ∈ packets, q.completions ps = ∅ := by
  simp only [load_eq_zero, List.forall_mem_map, Set.eq_empty_iff_forall_notMem]
  exact ⟨fun h q hq b => h b q hq, fun h b q hq => h q hq b⟩

end HandsOver

section Joined

variable {P : Puzzle} {ps : PieceSet P} {map : MapBigArray} {cfg : BtConfig} {root : Packet P}
  {r : BtRun P}

/-- The joined step is a delegation whose failure is that of `add_possibility`. -/
theorem btDelegateTo_delegation (hmap : MapOf ps map) (hroot : root.WellFormed ps)
    (hr : Reachable ps map cfg root r) (hplaced : r.st.placed < P.eternParts) (t : Turn) (env : AddEnv)
    (stock : LocalStock) :
    ∃ r', (btDelegateTo ps map cfg env stock t r).1 = .ok r' ∧
      Delegation ps r (decide ((btDelegateTo ps map cfg env stock t r).2.result ≠ 0))
        (btDelegated ps map cfg t r) r' := by
  have hpath := (hr.spec hmap hroot).1
  -- Which packets are handed over does not depend on what becomes of them.
  have hsame : ∀ failed, btDelegated ps map cfg { t with addFails := failed } r =
      btDelegated ps map cfg t r := fun _ => rfl
  obtain ⟨r', hrun, hspec⟩ := btDelegateIfNeeded_delegated hmap hroot.grid hpath hr.allPlaced
    hplaced { t with addFails := decide ((btDelegateTo ps map cfg env stock t r).2.result ≠ 0) }
  rw [hsame] at hspec
  exact ⟨r', hrun, hspec⟩

theorem btDelegateTo_put (t : Turn) (env : AddEnv) (stock : LocalStock)
    (hne : btDelegated ps map cfg t r ≠ []) : (btDelegateTo ps map cfg env stock t r).2 =
      addPossibility env stock (btDelegated ps map cfg t r) :=
  if_pos (List.length_pos_iff.mpr hne)

end Joined

/-- In every reachable state delegation leaves each completion in one place, and nothing in two
when it fails, exactly when it hands over no packet or its call of `add_possibility` is all or
nothing. -/
theorem btDelegateTo_exact_iff {P : Puzzle} (ps : PieceSet P) (al : MapAllocs) (cfg : BtConfig)
    (root : Packet P) (hroot : root.WellFormed ps) (r : BtRun P)
    (hr : Reachable ps (prepareMapPart ps al) cfg root r) (hplaced : r.st.placed < P.eternParts)
    (t : Turn) (env : AddEnv) (stock : LocalStock) :
    ∃ r', (btDelegateTo ps (prepareMapPart ps al) cfg env stock t r).1 = .ok r' ∧
      (HandsOverExactly ps stock r (btDelegateTo ps (prepareMapPart ps al) cfg env stock t r).2 r' ↔
        btDelegated ps (prepareMapPart ps al) cfg t r = [] ∨
          AllOrNothing (fun q => q.completions ps = ∅) env stock
            (btDelegated ps (prepareMapPart ps al) cfg t r)) := by
  have hmap := mapOf_prepareMapPart ps al
  have hdisjoint := (hr.spec hmap hroot).2
  obtain ⟨r', hrun, hst, hrecorded, hhanded, hkept, hload⟩ :=
    btDelegateTo_delegation hmap hroot hr hplaced t env stock
  refine ⟨r', hrun, ?_⟩
  by_cases hne : btDelegated ps (prepareMapPart ps al) cfg t r = []
  · have hput : (btDelegateTo ps (prepareMapPart ps al) cfg env stock t r).2 = ⟨stock, [], 0⟩ :=
      if_neg (by simp [hne])
    rw [hput] at hload ⊢
    refine iff_of_true ⟨hdisjoint, ⟨[], by simp [hrecorded], fun b => ?_⟩, fun h => absurd rfl h⟩ (.inl hne)
    rw [hload rfl b, hne]
    simp
  rw [btDelegateTo_put t env stock hne] at hkept hload ⊢
  generalize btDelegated ps (prepareMapPart ps al) cfg t r = packets at hhanded hkept hload hne ⊢
  generalize hput : addPossibility env stock packets = put at hkept hload ⊢
  have hunchecked : ∀ q ∈ packets, q.checked ≠ 1 := fun q hq => by
    rw [(hhanded q hq).checked]
    decide
  obtain ⟨acked, stored, dropped, delivers, bounces, hacked, hfate, houtcome, hiff⟩ :=
    addPossibility_fate env stock hne hunchecked
  rw [hput] at hacked hfate houtcome
  have hboards := hfate.boards fun q hq => (hhanded q hq).encodable
  rw [hiff, or_iff_right hne]
  cases houtcome with
  | success result_eq lossless not_bounces =>
    have hload := hload (by simp [result_eq])
    rw [or_iff_left not_bounces, ← lossless, ← load_grids_eq_zero]
    constructor
    · rintro ⟨-, ⟨recorded, hrec, hall⟩, -⟩ b
      have hnil : recorded = [] := by simpa [hrecorded] using hrec
      have hb := hall b
      rw [hnil, hacked, load_perm hboards, load_append, hload b, hfate.load b] at hb
      simp only [List.map_nil, load_nil] at hb
      omega
    · intro hzero
      refine ⟨hdisjoint, ⟨[], by simp [hrecorded], fun b => ?_⟩, fun hfail => absurd result_eq hfail⟩
      have hb := hzero b
      rw [hacked, load_perm hboards, load_append, hload b, hfate.load b]
      simp only [List.map_nil, load_nil]
      omega
  | failure result_ne empty not_delivers =>
    have hstack := hkept (by simp [result_ne])
    have hremaining : r'.remaining = r.remaining := by rw [BtRun.remaining, BtRun.remaining, hst, hstack]
    rw [or_iff_right not_delivers, ← empty]
    constructor
    · rintro ⟨-, -, hfailed⟩
      obtain ⟨hnone, hperm⟩ := hfailed result_ne
      refine ⟨hacked.symm.trans hnone, ?_⟩
      have hlength := hperm.length_eq
      rw [hfate.records.length_eq, List.length_append] at hlength
      have hencodable : ∀ q ∈ stored, q.Encodable := fun q hq =>
        (hhanded q (hfate.split.mem_iff.mp (by simp [hq]))).encodable
      have hstored := (length_filterMap_recordOf stored).2.mpr hencodable
      exact List.eq_nil_of_length_eq_zero (by omega)
    · rintro ⟨rfl, rfl⟩
      have hrecords := hfate.records
      rw [List.filterMap_nil, List.append_nil] at hrecords
      refine ⟨hdisjoint, ⟨[], by simp [hrecorded], fun b => ?_⟩, fun _ => ⟨hacked, hrecords⟩⟩
      rw [hacked, load_perm hboards, hremaining]
      simp

/-! ## Two hand-overs on the frame set -/

namespace Frame

/-- The map of the sixteen-piece frame set. -/
def smallMap : MapBigArray := prepareMapPart (pieces .p16) ⟨false, fun _ => false, false, false⟩

/-- The solved frame without two inner pieces. -/
def twoShort : Packet .p16 := packet fun c => c.pos ≠ 5 ∧ c.pos ≠ 6

/-- A search that may delegate. -/
def delegating : BtConfig := ⟨0, true, false, false⟩

/-- A turn in which a thread may keep two siblings. -/
def keepTwo : Turn := { Turn.quiet with maxStockByThread := 2, delegateBuf := true }

/-- No server, and local pools that are free. -/
def noServer : AddEnv :=
  ⟨false, ⟨false, false, false, 0, false⟩, fun _ => ⟨false, false, false, 0, fun _ => true, fun _ => true⟩,
    fun _ => true, fun _ => true⟩

/-- A server whose connection breaks while the first chunk is sent, and local pools that are
free. -/
def breaking : AddEnv :=
  ⟨true, ⟨true, true, true, 0, true⟩, fun _ => ⟨true, true, false, 0, fun _ => true, fun _ => true⟩,
    fun _ => true, fun _ => true⟩

theorem mapOf_smallMap : MapOf (pieces .p16) smallMap := mapOf_prepareMapPart _ _

/-- The cells placed after one quiet turn, and the size of the batch then handed over. -/
def twoShortRun : Option (Nat × Nat) :=
  match searchPacketBacktrackingMrv (pieces .p16) smallMap delegating [.quiet] twoShort with
  | .continues r => some (r.st.placed, (btDelegated (pieces .p16) smallMap delegating keepTwo r).length)
  | _ => none

/-- After one placement the thread has two packets to hand over. -/
theorem delegated_twoShort : ∃ r, Reachable (pieces .p16) smallMap delegating twoShort r ∧
    r.st.placed < Puzzle.p16.eternParts ∧
    (btDelegated (pieces .p16) smallMap delegating keepTwo r).length = 2 := by
  have hrun : twoShortRun = some (15, 2) := by decide +kernel
  unfold twoShortRun at hrun
  split at hrun
  · rename_i r hreach
    simp only [Option.some.injEq, Prod.mk.injEq] at hrun
    refine ⟨r, ⟨_, hreach⟩, ?_, hrun.2⟩
    rw [hrun.1]
    decide
  · exact absurd hrun (by simp)

end Frame

/-- Without a server the two packets leave the stack for the local pools. -/
theorem btDelegateTo_exact_iff_local : ∃ r r',
    Reachable (Frame.pieces .p16) Frame.smallMap Frame.delegating Frame.twoShort r ∧
      (btDelegateTo (Frame.pieces .p16) Frame.smallMap Frame.delegating Frame.noServer .empty
        Frame.keepTwo r).1 = .ok r' ∧
      HandsOverExactly (Frame.pieces .p16) .empty r (btDelegateTo (Frame.pieces .p16) Frame.smallMap
        Frame.delegating Frame.noServer .empty Frame.keepTwo r).2 r' := by
  obtain ⟨r, hreach, hplaced, -⟩ := Frame.delegated_twoShort
  obtain ⟨r', hrun, hiff⟩ := btDelegateTo_exact_iff (Frame.pieces .p16) _ _ _ (Frame.packet_wellFormed _) r
    hreach hplaced Frame.keepTwo Frame.noServer .empty
  exact ⟨r, r', hreach, hrun, hiff.mpr (.inr fun _ => ⟨0, by decide, rfl⟩)⟩

/-- A connection that breaks during the first chunk: the two packets are in the local pools, and
the boards they were made of are still on the stack. -/
theorem btDelegateTo_breaking : ∃ r r',
    Reachable (Frame.pieces .p16) Frame.smallMap Frame.delegating Frame.twoShort r ∧
      (btDelegateTo (Frame.pieces .p16) Frame.smallMap Frame.delegating Frame.breaking .empty
        Frame.keepTwo r).1 = .ok r' ∧
      (btDelegateTo (Frame.pieces .p16) Frame.smallMap Frame.delegating Frame.breaking .empty
        Frame.keepTwo r).2.stock.records.length = 2 ∧
      r'.remaining = r.remaining ∧
      ¬ HandsOverExactly (Frame.pieces .p16) .empty r (btDelegateTo (Frame.pieces .p16) Frame.smallMap
        Frame.delegating Frame.breaking .empty Frame.keepTwo r).2 r' := by
  obtain ⟨r, hreach, hplaced, hlength⟩ := Frame.delegated_twoShort
  obtain ⟨r', hrun, hst, -, hhanded, hkept, -⟩ := btDelegateTo_delegation
    Frame.mapOf_smallMap (Frame.packet_wellFormed _) hreach hplaced Frame.keepTwo Frame.breaking .empty
  refine ⟨r, r', hreach, hrun, ?_⟩
  have hne : btDelegated (Frame.pieces .p16) Frame.smallMap Frame.delegating Frame.keepTwo r ≠ [] :=
    List.ne_nil_of_length_pos (by omega)
  rw [btDelegateTo_put Frame.keepTwo Frame.breaking .empty hne] at hkept ⊢
  generalize btDelegated (Frame.pieces .p16) Frame.smallMap Frame.delegating Frame.keepTwo r = packets at *
  have hunchecked : ∀ q ∈ packets, q.checked ≠ 1 := fun q hq => by
    rw [(hhanded q hq).checked]
    decide
  have hput : addPossibility Frame.breaking .empty packets =
      connectionLost (Frame.breaking.turn 0) packets .empty [] := by
    obtain ⟨p, q, rfl⟩ := List.length_eq_two.mp hlength
    rfl
  rw [hput] at hkept ⊢
  rcases addFate_putToLocal hne hunchecked .empty (Frame.breaking.turn 0).freeUnchecked
      (Frame.breaking.turn 0).freeChecked with ⟨-, hfate⟩ | ⟨hrefused, -⟩
  · have hencodable := fun q hq => (hhanded q hq).encodable
    have hrecords : (connectionLost (Frame.breaking.turn 0) packets .empty []).stock.records.length = 2 := by
      have hperm := hfate.records.length_eq
      rw [List.length_append, (length_filterMap_recordOf packets).2.mpr hencodable, hlength] at hperm
      exact hperm
    have hfails : (connectionLost (Frame.breaking.turn 0) packets .empty []).result ≠ 0 := connectionLost_result
    have hstack := hkept (by simp [hfails])
    refine ⟨hrecords, by rw [BtRun.remaining, BtRun.remaining, hst, hstack], fun h => ?_⟩
    have hsame := (h.failed hfails).2.length_eq
    rw [hrecords] at hsame
    exact absurd hsame (by decide)
  · exact absurd ⟨.inl rfl, 0, by decide, rfl⟩ hrefused
