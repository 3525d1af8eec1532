-- SUMMARY: In every reachable state of a delegating search, delegation, flush and abandoned root split the remaining completions exactly.
import EternityII.Search.Exhaustive

open Cover

/-- A run that stands at the head of the loop after some turns on the root. -/
def Reachable {P : Puzzle} (ps : PieceSet P) (map : MapBigArray) (cfg : BtConfig) (root : Packet P)
    (r : BtRun P) : Prop :=
  ∃ turns, searchPacketBacktrackingMrv ps map cfg turns root = .continues r

/-- The completions of `work` are the disjoint union of those of the packets sent, of the
boards recorded and of the boards that stay: no two boards of `work` share one, and each is
covered by exactly as many items as before. -/
structure SplitsInto {P : Puzzle} (ps : PieceSet P) (work : List (Grid P)) (out recorded : List (Packet P))
    (stay : List (Grid P)) : Prop where
  disjoint : ∀ b, load (Grid.completions ps) work b ≤ 1
  load : ∀ b, load (Grid.completions ps) work b = load (Grid.completions ps) (out.map Packet.grid) b +
    load (Grid.completions ps) (recorded.map Packet.grid) b + load (Grid.completions ps) stay b

section Reachable

variable {P : Puzzle} {fast : Bool} {ps : PieceSet P} {map : MapBigArray} {cfg : BtConfig} {root : Grid P}
  {r r' : BtRun P}

/-- A run that goes on stays on the path and never covers a completion more often. -/
theorem btTurns_continues (hfast : fast = true → btMasksComplete P map = true) (hmap : MapOf ps map)
    (hroot : root.WellFormed ps) {rootDepth : Nat} {turns : List Turn} (h : r.OnPath ps map root)
    (hrun : btTurns fast ps map cfg rootDepth turns r = .continues r') :
    r'.OnPath ps map root ∧
      ∀ b, load (Grid.completions ps) r'.remaining b ≤ load (Grid.completions ps) r.remaining b := by
  induction turns generalizing r with
  | nil =>
    obtain rfl := TurnResult.continues.inj hrun
    exact ⟨h, fun b => Nat.le_refl _⟩
  | cons t turns ih =>
    rw [btTurns] at hrun
    cases hturn : btTurn fast ps map cfg rootDepth t r with
    | continues r₁ =>
      rw [hturn] at hrun
      obtain ⟨hpath₁, hle₁⟩ := btTurn_continues hfast hmap hroot h hturn
      obtain ⟨hpath, hle⟩ := ih hpath₁ hrun
      exact ⟨hpath, fun b => (hle b).trans (hle₁ b)⟩
    | returns result r₁ => simp [hturn] at hrun
    | exits r₁ => simp [hturn] at hrun

/-- The boards that remain in a reachable state are pairwise disjoint. -/
theorem Reachable.spec (hmap : MapOf ps map) {root : Packet P} (hroot : root.WellFormed ps)
    (h : Reachable ps map cfg root r) :
    r.OnPath ps map root.grid ∧ ∀ b, load (Grid.completions ps) r.remaining b ≤ 1 := by
  obtain ⟨turns, hrun⟩ := h
  obtain ⟨hpath, hle⟩ := btTurns_continues id hmap hroot.grid (btStart_onPath hroot) hrun
  refine ⟨hpath, fun b => (hle b).trans ?_⟩
  show Cover.load _ [root.grid] b ≤ 1
  rw [load_cons, load_nil]
  split <;> omega

end Reachable

/-- Handing work over loses and doubles no completion. Delegation either leaves the stack as
it is or, when `add_possibility` has taken the packets, splits the completions between
them, the solutions recorded and the stack at its new positions. The flush on a stop and on
an abandoned root leave nothing behind. -/
theorem handOver_exact {P : Puzzle} (ps : PieceSet P) (al : MapAllocs) (cfg : BtConfig)
    (root : Packet P) (hroot : root.WellFormed ps) (r : BtRun P)
    (hr : Reachable ps (prepareMapPart ps al) cfg root r) (hplaced : r.st.placed < P.eternParts)
    (t : Turn) :
    (∀ r', btDelegateIfNeeded ps (prepareMapPart ps al) cfg t r = .ok r' →
      (∀ out, r'.sent = r.sent ++ [⟨out, false⟩] → ∃ recorded,
        r'.recorded = r.recorded ++ recorded ∧ SplitsInto ps r.remaining out recorded r'.remaining) ∧
      ((∀ out, r'.sent ≠ r.sent ++ [⟨out, false⟩]) → r'.stack = r.stack) ∧ r'.st = r.st) ∧
    ∀ r', btFlushPending ps (prepareMapPart ps al) cfg t r = .ok r' ∨
        btAbandonShallowRoot ps (prepareMapPart ps al) cfg t r = .ok r' →
      ∃ out recorded, r'.sent = r.sent ++ [⟨out, t.addFails⟩] ∧
        r'.recorded = r.recorded ++ recorded ∧ SplitsInto ps r.remaining out recorded [] := by
  have hmap := mapOf_prepareMapPart ps al
  obtain ⟨hpath, hdisjoint⟩ := hr.spec hmap hroot
  constructor
  · intro r' hrun
    obtain ⟨-, hst, -, hspec⟩ := btDelegateIfNeeded_spec hmap hroot.grid hpath hrun
    cases hspec with
    | kept recorded _ _ sent stack =>
      refine ⟨fun out hout => ?_, fun _ => stack, hst⟩
      rw [sent] at hout
      exact absurd hout (by simp)
    | failed recorded out' _ _ sent stack =>
      refine ⟨fun out hout => ?_, fun _ => stack, hst⟩
      rw [sent, List.append_cancel_left_eq] at hout
      exact absurd hout (by simp)
    | delegated recorded out' hrecorded _ sent _ hload =>
      refine ⟨fun out hout => ?_, fun hnot => absurd sent (hnot out'), hst⟩
      rw [sent, List.append_cancel_left_eq] at hout
      obtain rfl : out' = out := by simpa using hout
      exact ⟨recorded, hrecorded, hdisjoint, hload⟩
  · intro r' hrun
    have hrun : btFlushPending ps (prepareMapPart ps al) cfg t r = .ok r' := hrun.elim id id
    obtain ⟨out, recorded, hsent, hrecorded, -, -, hload⟩ :=
      btFlushPending_spec hmap hroot.grid hpath hplaced hrun
    exact ⟨out, recorded, hsent, hrecorded, hdisjoint, fun b => by rw [hload b, load_nil, Nat.add_zero]⟩

namespace Frame

/-- A delegation after one quiet turn: the cells placed and the batches sent before it, and the
size and outcome of every batch sent up to its end. -/
def handOverRun : Option (Nat × Nat × List (Nat × Bool)) :=
  match searchPacketBacktrackingMrv (Frame.pieces .p16)
      (prepareMapPart (Frame.pieces .p16) ⟨false, fun _ => false, false, false⟩) ⟨0, true, false, false⟩
      [.quiet] (Frame.packet fun c => c.pos ≠ 5 ∧ c.pos ≠ 6) with
  | .continues r =>
    match btDelegateIfNeeded (Frame.pieces .p16)
        (prepareMapPart (Frame.pieces .p16) ⟨false, fun _ => false, false, false⟩)
        ⟨0, true, false, false⟩ { Turn.quiet with maxStockByThread := 2, delegateBuf := true } r with
    | .ok r' => some (r.st.placed, r.sent.length, r'.sent.map fun call => (call.packets.length, call.failed))
    | .error _ => none
  | _ => none

end Frame

/-- The frame set without two inner pieces, after one placement: a thread that may keep two
siblings hands over two packets. -/
theorem handOver_exact_frame :
    ∃ r r' out recorded, Reachable (Frame.pieces .p16)
        (prepareMapPart (Frame.pieces .p16) ⟨false, fun _ => false, false, false⟩) ⟨0, true, false, false⟩
        (Frame.packet fun c => c.pos ≠ 5 ∧ c.pos ≠ 6) r ∧
      btDelegateIfNeeded (Frame.pieces .p16)
        (prepareMapPart (Frame.pieces .p16) ⟨false, fun _ => false, false, false⟩) ⟨0, true, false, false⟩
        { Turn.quiet with maxStockByThread := 2, delegateBuf := true } r = .ok r' ∧
      r'.sent = r.sent ++ [⟨out, false⟩] ∧ out.length = 2 ∧ r'.recorded = r.recorded ++ recorded ∧
      SplitsInto (Frame.pieces .p16) r.remaining out recorded r'.remaining := by
  have hrun : Frame.handOverRun = some (15, 0, [(2, false)]) := by decide +kernel
  unfold Frame.handOverRun at hrun
  split at hrun
  · rename_i r hreach
    split at hrun
    · rename_i r' hdelegate
      simp only [Option.some.injEq, Prod.mk.injEq] at hrun
      obtain ⟨hplaced, hnone, hsent⟩ := hrun
      obtain ⟨⟨out, failed⟩, hcall, hout⟩ := List.map_eq_singleton_iff.mp hsent
      simp only [Prod.mk.injEq] at hout
      obtain ⟨hlength, rfl⟩ := hout
      have hcall : r'.sent = r.sent ++ [⟨out, false⟩] := by
        rw [List.eq_nil_of_length_eq_zero hnone, hcall, List.nil_append]
      obtain ⟨hdelegation, -⟩ := handOver_exact (Frame.pieces .p16) _ _ _ (Frame.packet_wellFormed _) r
        ⟨_, hreach⟩ (by rw [hplaced]; decide)
        { Turn.quiet with maxStockByThread := 2, delegateBuf := true }
      obtain ⟨recorded, hrecorded, hsplit⟩ := (hdelegation r' hdelegate).1 out hcall
      exact ⟨r, r', out, recorded, ⟨_, hreach⟩, hdelegate, hcall, hlength, hrecorded, hsplit⟩
    · exact absurd hrun (by simp)
  · exact absurd hrun (by simp)
