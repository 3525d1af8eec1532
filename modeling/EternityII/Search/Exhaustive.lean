-- SUMMARY: A search without delegation that ends exhausted has recorded every completion of its root exactly once.
import EternityII.Search.Engine

open Cover

section Runs

variable {P : Puzzle} {fast : Bool} {ps : PieceSet P} {map : MapBigArray} {cfg : BtConfig} {root : Grid P}
  {r : BtRun P}

/-- A whole run accounts for all the work. -/
theorem btTurns_spec (hfast : fast = true → btMasksComplete P map = true) (hmap : MapOf ps map) (hroot : root.WellFormed ps)
    (hdelegate : cfg.allowDelegate = false) (rootDepth : Nat) (turns : List Turn)
    (h : r.OnPath ps map root) :
    TurnSpec ps map root r.recorded r.remaining (btTurns fast ps map cfg rootDepth turns r) := by
  induction turns generalizing r with
  | nil => exact .continues h (.of_sameLoad SameLoad.rfl)
  | cons t turns ih =>
    have hturn := btTurn_spec hfast hmap hroot h hdelegate rootDepth t
    rw [btTurns]
    generalize btTurn fast ps map cfg rootDepth t r = result at hturn
    cases hturn with
    | continues onPath accounts => exact .of_accounts accounts (ih onPath)
    | interrupted hresult onPath accounts => exact .interrupted hresult onPath accounts
    | exhausted accounts => exact .exhausted accounts
    | exits => exact .exits

/-- A list of solved boards covers each board as often as it holds it. -/
theorem load_solved {l : List (Packet P)} (h : ∀ q ∈ l, Solved ps q) (b : Grid P) :
    load (Grid.completions ps) (l.map Packet.grid) b = (l.map Packet.grid).count b := by
  rw [load, List.count]
  refine List.countP_congr fun g hg => ?_
  obtain ⟨q, hq, rfl⟩ := List.mem_map.mp hg
  rw [Grid.completions_of_full (h q hq).wellFormed.grid (h q hq).full]
  simp only [Set.mem_singleton_iff, decide_eq_true_eq, beq_iff_eq]
  exact eq_comm

/-- `search_packet_backtracking_mrv` without delegation: the run from a well-formed root. -/
theorem searchPacketBacktrackingMrv_spec (hmap : MapOf ps map) {root : Packet P}
    (hroot : root.WellFormed ps) (hdelegate : cfg.allowDelegate = false) (turns : List Turn) :
    TurnSpec ps map root.grid [] [root.grid] (searchPacketBacktrackingMrv ps map cfg turns root) :=
  btTurns_spec id hmap hroot.grid hdelegate _ turns (btStart_onPath hroot)

end Runs

/-- When the search returns exhausted, the boards handed to `record_solution` are exactly the
completions of the root, each of them once. -/
theorem searchPacketBacktrackingMrv_complete {P : Puzzle} (ps : PieceSet P) (al : MapAllocs)
    (cfg : BtConfig) (hdelegate : cfg.allowDelegate = false) (turns : List Turn) (root : Packet P)
    (hroot : root.WellFormed ps) (r : BtRun P)
    (h : searchPacketBacktrackingMrv ps (prepareMapPart ps al) cfg turns root = .returns .exhausted r) :
    (r.recorded.map Packet.grid).Nodup ∧
      ∀ b, b ∈ r.recorded.map Packet.grid ↔ Grid.IsCompletion ps root.grid b := by
  have hspec := searchPacketBacktrackingMrv_spec (mapOf_prepareMapPart ps al) hroot hdelegate turns
  rw [h] at hspec
  cases hspec with
  | interrupted hresult => exact absurd rfl hresult
  | exhausted accounts =>
    obtain ⟨l, hrecorded, hsolved, hload⟩ := accounts
    rw [List.nil_append] at hrecorded
    subst hrecorded
    have hcount : ∀ b, (r.recorded.map Packet.grid).count b =
        load (Grid.completions ps) [root.grid] b := fun b => by
      rw [hload b, load_solved hsolved, load_nil, Nat.add_zero]
    constructor
    · refine List.nodup_iff_count_le_one.mpr fun b => ?_
      rw [hcount b, load_cons, load_nil]
      split <;> omega
    · intro b
      rw [← List.count_pos_iff, hcount b, load_pos]
      simp

/-- A turn in which nothing happens outside the search. -/
def Turn.quiet : Turn := ⟨.continue_, .continue_, false, 0, 0, 0, false, false⟩

/-- The frame set without the piece of one inner cell: that piece fits there in each of its
four rotations. -/
theorem searchPacketBacktrackingMrv_complete_frame :
    ∃ r, searchPacketBacktrackingMrv (Frame.pieces .p16)
        (prepareMapPart (Frame.pieces .p16) ⟨false, fun _ => false, false, false⟩)
        ⟨0, false, false, false⟩ (List.replicate 5 .quiet) (Frame.packet fun c => c.pos ≠ 5) =
        .returns .exhausted r ∧
      r.recorded.length = 4 ∧ (r.recorded.map Packet.grid).Nodup ∧
      ∀ b, b ∈ r.recorded.map Packet.grid ↔
        Grid.IsCompletion (Frame.pieces .p16) (Frame.packet fun c => c.pos ≠ 5).grid b := by
  have hrun : (match searchPacketBacktrackingMrv (Frame.pieces .p16)
        (prepareMapPart (Frame.pieces .p16) ⟨false, fun _ => false, false, false⟩)
        ⟨0, false, false, false⟩ (List.replicate 5 .quiet) (Frame.packet fun c => c.pos ≠ 5) with
      | .returns .exhausted r => r.recorded.length
      | _ => 0) = 4 := by decide +kernel
  split at hrun
  · rename_i r heq
    exact ⟨r, heq, hrun, searchPacketBacktrackingMrv_complete _ _ _ rfl _ _ (Frame.packet_wellFormed _) r
      heq⟩
  · exact absurd hrun (by decide)
