-- SUMMARY: `compare_possibility` and `is_origin_of` on pointers: where the first is an equality, and the order of the second.
import EternityII.Stock.LeaseReclaim
import Mathlib.Order.Monotone.Defs

/-!
# Comparing packets through pointers

The purges of the stock delete records because of two relations between packets. `is_origin_of` is
meant as the strict inclusion of boards, and reads it off `alloc` and the filled cells of the first
packet, so that it is right where `alloc` counts the filled cells. `compare_possibility` tells
equality, but its two answers for null pointers are exchanged.
-/

/-! ## Boards by inclusion -/

/-- A grid, as a set of filled cells. -/
@[ext]
structure PartialBoard (P : Puzzle) where
  grid : Grid P

namespace PartialBoard

variable {P : Puzzle} {g h : PartialBoard P}

/-- A board is below those that have its pieces in its cells. -/
instance : LE (PartialBoard P) := ⟨fun g h => ∀ c, g.grid c ≠ -2 → h.grid c = g.grid c⟩

instance : PartialOrder (PartialBoard P) where
  le_refl _ _ _ := rfl
  le_trans g h k hgh hhk c hc := by
    have hsame := hgh c hc
    rw [hhk c (by rwa [hsame]), hsame]
  le_antisymm g h hgh hhg := by
    ext c
    by_cases hg : g.grid c = -2
    · by_cases hh : h.grid c = -2
      · rw [hg, hh]
      · exact hhg c hh
    · exact (hgh c hg).symm

/-- A board strictly below another one has an empty cell that the other one fills. -/
theorem exists_empty_of_lt (hlt : g < h) : ∃ c, g.grid c = -2 ∧ h.grid c ≠ -2 := by
  by_contra hnone
  push Not at hnone
  refine hlt.not_ge fun c hc => ?_
  by_cases hg : g.grid c = -2
  · exact absurd (hnone c hg) hc
  · exact (hlt.le c hg).symm

/-- The number of filled cells grows along inclusion. -/
theorem placedCount_mono (hle : g ≤ h) : placedCount g.grid ≤ placedCount h.grid := by
  refine List.countP_mono_left fun c _ hc => ?_
  have hfilled := of_decide_eq_true hc
  rw [hle c hfilled]
  exact hc

theorem placedCount_strictMono : StrictMono fun g : PartialBoard P => placedCount g.grid := by
  intro g h hlt
  obtain ⟨c, hg, hh⟩ := exists_empty_of_lt hlt
  -- `h` with that cell emptied is still above `g`, and has one piece less
  have hback : (h.grid.place c (-2)).place c (h.grid c) = h.grid := by
    rw [Grid.place, Grid.place, Function.update_idem, Function.update_eq_self]
  have hcount := placedCount_place (Grid.place_self h.grid c (-2)) hh
  have hbelow : g ≤ ⟨h.grid.place c (-2)⟩ := fun c' hc' => by
    have hne : c' ≠ c := fun heq => hc' (by rw [heq, hg])
    show h.grid.place c (-2) c' = g.grid c'
    rw [Grid.place_of_ne hne]
    exact hlt.le c' hc'
  have hle : placedCount g.grid ≤ placedCount (h.grid.place c (-2)) := placedCount_mono hbelow
  rw [hback] at hcount
  show placedCount g.grid < placedCount h.grid
  omega

/-- The fuller the board, the fewer the solutions. -/
theorem solutions_antitone (ps : PieceSet P) (hle : g ≤ h) : h.grid.solutions ps ⊆ g.grid.solutions ps := by
  rintro b ⟨hb, hextends⟩
  refine ⟨hb, fun c hc => ?_⟩
  have hsame := hle c hc
  rw [hextends c (by rwa [hsame]), hsame]

end PartialBoard

/-! ## Pointers -/

/-- A packet whose `alloc` is the number of its filled cells. -/
structure ExactPacket (P : Puzzle) where
  packet : Packet P
  exact : packet.alloc.toNat = placedCount packet.grid

section Pointers

variable {P : Puzzle}

/-- The board of a packet. -/
def ExactPacket.board (p : ExactPacket P) : PartialBoard P := ⟨p.packet.grid⟩

/-- `compare_possibility` on pointers; `none` is null. -/
def comparePossibilityPtr (packet otherPacket : Option (Packet P)) : Int :=
  match packet, otherPacket with
  | none, none => -1
  | none, some _ => 0
  | some _, none => 0
  | some packet, some otherPacket => comparePossibility packet otherPacket

/-- `is_origin_of` on pointers. -/
def isOriginOfPtr (packet otherPacket : Option (Packet P)) : Int :=
  match packet, otherPacket with
  | some packet, some otherPacket => isOriginOf packet otherPacket
  | _, _ => 0

variable {p q : ExactPacket P}

/-- With an exact `alloc`, `is_origin_of` is strict inclusion. -/
theorem ExactPacket.isOriginOf_iff : isOriginOf p.packet q.packet = 1 ↔ p.board < q.board := by
  rw [isOriginOf_eq_one, p.exact, q.exact]
  constructor
  · rintro ⟨hcount, hle⟩
    refine lt_of_le_of_ne hle fun heq => ?_
    have hsame : p.packet.grid = q.packet.grid := congrArg PartialBoard.grid heq
    rw [hsame] at hcount
    exact Nat.lt_irrefl _ hcount
  · intro hlt
    exact ⟨PartialBoard.placedCount_strictMono hlt, hlt.le⟩

/-- `compare_possibility` tells equality of what the pointers lead to exactly when none is null. -/
theorem comparePossibilityPtr_iff (a b : Option (Packet P)) :
    (comparePossibilityPtr a b = 0 ↔ a.map Packet.key = b.map Packet.key) ↔ a.isSome ∧ b.isSome := by
  cases a with
  | none =>
    refine iff_of_false (fun h => ?_) (by simp)
    cases b with
    | none => exact absurd (h.mpr rfl) (show (-1 : Int) ≠ 0 by decide)
    | some q => exact absurd (h.mp rfl) (by simp)
  | some p =>
    cases b with
    | none => exact iff_of_false (fun h => absurd (h.mp rfl) (by simp)) (by simp)
    | some q =>
      refine iff_of_true ?_ ⟨rfl, rfl⟩
      rw [Option.map_some, Option.map_some, Option.some.injEq]
      exact comparePossibility_eq_zero

/-- `compare_possibility` is right for two packets and wrong as soon as a pointer is null. Between
packets with an exact `alloc`, `is_origin_of` is a strict order that keeps apart what compares equal, and
what is below the descendant is below its origin. -/
theorem packetRelations_right (ps : PieceSet P) (a b : Option (Packet P)) :
    ((comparePossibilityPtr a b = 0 ↔ a.map Packet.key = b.map Packet.key) ↔ a.isSome ∧ b.isSome) ∧
      IsStrictOrder (ExactPacket P) (fun p q => isOriginOfPtr (some p.packet) (some q.packet) = 1) ∧
      (∀ p q : ExactPacket P, comparePossibilityPtr (some p.packet) (some q.packet) = 0 →
        isOriginOfPtr (some p.packet) (some q.packet) ≠ 1) ∧
      ∀ p q : ExactPacket P, isOriginOfPtr (some p.packet) (some q.packet) = 1 →
        q.packet.grid.solutions ps ⊆ p.packet.grid.solutions ps := by
  have horder : (fun p q : ExactPacket P => isOriginOfPtr (some p.packet) (some q.packet) = 1) =
      fun p q => p.board < q.board := funext fun p => funext fun q => propext ExactPacket.isOriginOf_iff
  refine ⟨comparePossibilityPtr_iff a b, ?_, fun p q hequal horigin => ?_, fun p q horigin => ?_⟩
  · rw [horder]
    exact { irrefl := fun p => lt_irrefl p.board, trans := fun p q r => lt_trans }
  · have hkey := comparePossibility_eq_zero.mp hequal
    have hboard : p.board = q.board := congrArg (fun k : PacketKey P => (⟨k.grid⟩ : PartialBoard P)) hkey
    have hlt := ExactPacket.isOriginOf_iff.mp horigin
    rw [hboard] at hlt
    exact lt_irrefl _ hlt
  · exact PartialBoard.solutions_antitone ps (ExactPacket.isOriginOf_iff.mp horigin).le

/-- Two null pointers are told apart, and a null pointer is told equal to a packet. -/
theorem comparePossibilityPtr_null :
    comparePossibilityPtr (none : Option (Packet .p16)) none = -1 ∧
      comparePossibilityPtr none (some (⟨0, 0, fun _ => -2, 0, 0, Words.zero, 0⟩ : Packet .p16)) = 0 ∧
      ¬ ∀ a b : Option (Packet .p16), comparePossibilityPtr a b = 0 ↔ a.map Packet.key = b.map Packet.key := by
  refine ⟨rfl, rfl, fun h => ?_⟩
  exact absurd ((h none none).mpr rfl) (by decide)

end Pointers
