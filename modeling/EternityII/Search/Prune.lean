-- SUMMARY: One packet under the pruner: forced placements, a bounded search, and what becomes of its completions.
import EternityII.Possibility.Forced
import EternityII.Search.Exhaustive

/-!
# Pruning a packet

A packet goes through the forced placements; a full board is recorded, a dead one removed,
and one that is alive but not yet checked may be explored within a budget. Its completions
are recorded, or it stays alive with all of them.
-/

open Cover

/-! ## One packet -/

/-- What becomes of a packet of the batch. -/
inductive PruneVerdict (P : Puzzle) where
  | solution
  | removed
  | alive (work : Packet P)

/-- The boards recorded while a packet was treated, and what became of it. -/
structure PruneFate (P : Puzzle) where
  recorded : List (Packet P)
  verdict : PruneVerdict P

/-- The treatment of a packet: decided, not yet over, or ended with the process. -/
inductive PruneCheck (P : Puzzle) where
  | decided (fate : PruneFate P)
  | running
  | exits

/-- The settings of a pruner. -/
structure PruneConfig where
  prunerDfsBudget : Int
  singletonConflictCheck : Bool
  stopOnSolution : Bool

section Check

variable {P : Puzzle} (ps : PieceSet P) (map : MapBigArray) (cfg : PruneConfig)

/-- `search_packet_backtracking_budgeted`. -/
def searchPacketBacktrackingBudgeted (turns : List Turn) (root : Packet P) : TurnResult P :=
  searchPacketBacktrackingMrv ps map
    ⟨cfg.prunerDfsBudget, false, cfg.singletonConflictCheck, cfg.stopOnSolution⟩ turns root

/-- The last test of the loop body: `work.checked || has_next`. -/
def pruneVerdict (work : Packet P) (hasNext : Bool) : PruneVerdict P :=
  if work.checked ≠ 0 ∨ hasNext then .alive { work with checked := 1 } else .removed

/-- The body of the loop of `autoprune_step` for one packet; `turns` are those of the bounded
search. -/
def pruneCheck (turns : List Turn) (possibility : Packet P) : PruneCheck P :=
  match possibilityAllHasANextCounted ps map (P.eternParts + 1) possibility with
  | none => .running
  | some scan =>
    let work := scan.packet
    if work.alloc.toNat ≥ P.eternParts then
      if cfg.stopOnSolution then .exits else .decided ⟨[work], .solution⟩
    else if work.checked = 0 ∧ scan.result ∧ cfg.prunerDfsBudget > 0 then
      match searchPacketBacktrackingBudgeted ps map cfg turns work with
      | .continues _ => .running
      | .exits _ => .exits
      | .returns .exhausted r => .decided ⟨r.recorded, .removed⟩
      | .returns _ r => .decided ⟨r.recorded, pruneVerdict work scan.result⟩
    else .decided ⟨[], pruneVerdict work scan.result⟩

end Check

/-! ## What becomes of a packet -/

/-- The completions of a packet are recorded or kept alive, and what is recorded are
completions of the packet. -/
structure FateSpec {P : Puzzle} (ps : PieceSet P) (q : Packet P) (fate : PruneFate P) : Prop where
  covered : ∀ b ∈ q.completions ps, (∃ s ∈ fate.recorded, s.grid = b) ∨
    ∃ work, fate.verdict = .alive work ∧ b ∈ work.completions ps
  sound : ∀ s ∈ fate.recorded, s.grid ∈ q.completions ps
  alive : ∀ work, fate.verdict = .alive work → work.WellFormed ps ∧ work.checked = 1 ∧
    work.completions ps = q.completions ps

/-- `alloc` does not claim a full board for one that is not. -/
def Packet.AllocHonest {P : Puzzle} (q : Packet P) : Prop :=
  q.alloc.toNat ≥ P.eternParts → ∀ c, q.grid c ≠ -2

section CheckSpec

variable {P : Puzzle} {ps : PieceSet P} {map : MapBigArray} {cfg : PruneConfig} {q : Packet P}

/-- Boards recorded by a search are completions of its root. -/
theorem Accounts.sound {recorded : List (Packet P)} {work : Packet P} {left : List (Grid P)}
    (h : Accounts ps [] recorded [work.grid] left) : ∀ s ∈ recorded, s.grid ∈ work.completions ps := by
  obtain ⟨l, hrecorded, hsolved, hload⟩ := h
  rw [List.nil_append] at hrecorded
  subst hrecorded
  intro s hs
  have hpos : 0 < Cover.load (Grid.completions ps) (recorded.map Packet.grid) s.grid := by
    rw [load_solved hsolved, List.count_pos_iff]
    exact List.mem_map_of_mem hs
  by_contra hnot
  have hzero : Cover.load (Grid.completions ps) [work.grid] s.grid = 0 := load_singleton_of_notMem hnot
  have heq := hload s.grid
  omega

/-- When nothing is left, every completion of the root has been recorded. -/
theorem Accounts.complete {recorded : List (Packet P)} {work : Packet P}
    (h : Accounts ps [] recorded [work.grid] []) :
    ∀ b ∈ work.completions ps, ∃ s ∈ recorded, s.grid = b := by
  obtain ⟨l, hrecorded, hsolved, hload⟩ := h
  rw [List.nil_append] at hrecorded
  subst hrecorded
  intro b hb
  have hone : Cover.load (Grid.completions ps) [work.grid] b = 1 := load_singleton_of_mem hb
  have heq := hload b
  rw [hone, load_solved hsolved, load_nil, Nat.add_zero] at heq
  have hpos : 0 < (recorded.map Packet.grid).count b := by omega
  obtain ⟨s, hs, hsb⟩ := List.mem_map.mp (List.count_pos_iff.mp hpos)
  exact ⟨s, hs, hsb⟩

/-- The last test keeps a packet alive or removes a dead one. -/
theorem pruneVerdict_spec {scan : ScanResult P} (h : AllHasANextSpec ps map q scan)
    {recorded : List (Packet P)} (hsound : ∀ s ∈ recorded, s.grid ∈ scan.packet.completions ps) :
    FateSpec ps q ⟨recorded, pruneVerdict scan.packet scan.result⟩ := by
  refine ⟨fun b hb => ?_, fun s hs => ?_, fun work hwork => ?_⟩
  · have hresult : scan.result = true := by
      by_contra hnot
      rw [h.dead (by simpa using hnot)] at hb
      exact hb
    refine .inr ⟨{ scan.packet with checked := 1 }, by simp [pruneVerdict, hresult], ?_⟩
    rw [← h.completions] at hb
    exact hb
  · rw [← h.completions]
    exact hsound s hs
  · dsimp only [pruneVerdict] at hwork
    split at hwork
    · obtain rfl := PruneVerdict.alive.inj hwork
      exact ⟨⟨h.wellFormed.grid, h.wellFormed.mask⟩, rfl, h.completions⟩
    · exact absurd hwork (by simp)

/-- The bounded search accounts for its root as the unbounded one does. -/
theorem searchPacketBacktrackingBudgeted_spec (cfg : PruneConfig) (hmap : MapOf ps map)
    (hq : q.WellFormed ps) (turns : List Turn) : TurnSpec ps map q.grid [] [q.grid]
      (searchPacketBacktrackingBudgeted ps map cfg turns q) := by
  unfold searchPacketBacktrackingBudgeted
  exact searchPacketBacktrackingMrv_spec hmap hq rfl turns

theorem pruneCheck_spec (hmap : MapOf ps map) (hq : q.WellFormed ps) (halloc : q.AllocHonest)
    {turns : List Turn} {fate : PruneFate P} (h : pruneCheck ps map cfg turns q = .decided fate) :
    FateSpec ps q fate := by
  obtain ⟨scan, hrun, hscan⟩ := possibilityAllHasANextCounted_spec hmap hq
  unfold pruneCheck at h
  rw [hrun _ (Nat.lt_succ_self _)] at h
  dsimp only at h
  split at h
  · rename_i hfull
    split at h
    · exact absurd h (by simp)
    · obtain rfl := PruneCheck.decided.inj h
      -- A count of `ETERN_PARTS` is that of the grid, or the packet came with it.
      have hgrid : ∀ c, scan.packet.grid c ≠ -2 := by
        have hcount : scan.packet.alloc.toNat = placedCount scan.packet.grid →
            ∀ c, scan.packet.grid c ≠ -2 := fun heq => by
          have hle := placedCount_le scan.packet.grid
          exact placedCount_eq_iff.mp (by omega)
        by_cases hsame : scan.packet.grid = q.grid
        · rcases hscan.same hsame with heq | heq
          · rw [heq] at hfull ⊢
            exact halloc hfull
          · exact hcount heq
        · exact hcount (hscan.alloc hsame)
      have hone : q.completions ps = {scan.packet.grid} := by
        rw [← hscan.completions]
        exact Grid.completions_of_full hscan.wellFormed.grid hgrid
      refine ⟨fun b hb => .inl ⟨scan.packet, List.mem_singleton_self _, ?_⟩, fun s hs => ?_, by simp⟩
      · rw [hone] at hb
        exact hb.symm
      · rw [List.mem_singleton.mp hs, hone]
        rfl
  · split at h
    · have hspec := searchPacketBacktrackingBudgeted_spec cfg hmap hscan.wellFormed turns
      split at h
      · exact absurd h (by simp)
      · exact absurd h (by simp)
      · rename_i r hsearch
        obtain rfl := PruneCheck.decided.inj h
        rw [hsearch] at hspec
        cases hspec with
        | interrupted hresult => exact absurd rfl hresult
        | exhausted accounts =>
          refine ⟨fun b hb => .inl ?_, fun s hs => ?_, by simp⟩
          · exact accounts.complete b (hscan.completions ▸ hb)
          · rw [← hscan.completions]
            exact accounts.sound s hs
      · rename_i result r hresult hsearch
        obtain rfl := PruneCheck.decided.inj h
        rw [hsearch] at hspec
        cases hspec with
        | interrupted _ _ accounts => exact pruneVerdict_spec hscan accounts.sound
        | exhausted accounts => exact pruneVerdict_spec hscan accounts.sound
    · obtain rfl := PruneCheck.decided.inj h
      exact pruneVerdict_spec hscan (by simp)

end CheckSpec
