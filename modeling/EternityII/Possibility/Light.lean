-- SUMMARY: Expansion of one packet: `search_possiblity_light` and its pruned variant.
import EternityII.Base.Cover
import EternityII.Possibility.Key

/-!
# Light expansion

`search_possiblity_light` chooses the empty cell with the fewest free candidates and puts
one child into the result file for every free candidate of that cell.
`search_possiblity_light_pruned` leaves out the children on which some constrained empty
cell has no free candidate, judged from four counts and a list of the parent's
single-candidate cells.
-/

/-! ## Counting and choosing -/

/-- The loop of `light_free_count`: `count` and `seen_last` so far. -/
def lightFreeCountLoop (used : Nat → Bool) (stopAt : Nat) : List PuzzlePart → Nat → Nat → Nat × Nat
  | [], count, seenLast => (count, seenLast)
  | p :: rest, count, seenLast =>
    if p.id = 0 || p.id = seenLast || used (p.id - 1) then
      lightFreeCountLoop used stopAt rest count seenLast
    else if stopAt > 0 && count + 1 ≥ stopAt then (count + 1, p.id)
    else lightFreeCountLoop used stopAt rest (count + 1) p.id

/-- `light_free_count`: the count and `*out_id`. -/
def lightFreeCount {P : Puzzle} (map : MapBigArray) (possiblity : Packet P) (key : KeyPart)
    (stopAt : Nat) : Nat × Nat :=
  lightFreeCountLoop (isFaceUsed possiblity.bFaceused) stopAt (map.getPartsBigarrayWithKey key) 0 0

section Choose

variable {P : Puzzle} (ps : PieceSet P) (map : MapBigArray)

/-- The loops of `light_choose_cell`. `best` holds `best_count` and its cell, `collect`
says whether the caller passed a buffer for the single-candidate cells. -/
def lightChooseLoop (possiblity : Packet P) (collect : Bool) :
    List (Cell P) → Option (Nat × Cell P) → Option (Cell P) → List (Cell P × Nat) →
      Option (Cell P × List (Cell P × Nat))
  | [], some best, _, singles => some (best.2, singles)
  | [], none, fallback, singles => fallback.map fun c => (c, singles)
  | c :: cells, best, fallback, singles =>
    if possiblity.grid c ≠ -2 then lightChooseLoop possiblity collect cells best fallback singles
    else
      let wsearch := packetKey ps map possiblity c
      if wsearch.isUnconstrained map.sizearrayM then
        lightChooseLoop possiblity collect cells best (fallback.or (some c)) singles
      else
        let count := lightFreeCount map possiblity wsearch 0
        if count.1 = 0 then none
        else
          let singles := if count.1 = 1 && collect then singles ++ [(c, count.2)] else singles
          let best :=
            match best with
            | none => (count.1, c)
            | some best => if count.1 < best.1 then (count.1, c) else best
          lightChooseLoop possiblity collect cells (some best) fallback singles

/-- `light_choose_cell`: the chosen cell and the single-candidate cells, `none` for 0. -/
def lightChooseCell (possiblity : Packet P) (collect : Bool) :
    Option (Cell P × List (Cell P × Nat)) :=
  lightChooseLoop ps map possiblity collect (Cell.all P) none none []

/-- `light_child_is_dead`. -/
def lightChildIsDead (child : Packet P) (c : Cell P) (id : Nat) (singles : List (Cell P × Nat)) : Bool :=
  (singles.any fun s => s.2 = id && s.1 ≠ c) ||
    Dir.all.any fun d =>
      match c.neighbor d with
      | none => false
      | some c' =>
        child.grid c' = -2 && (lightFreeCount map child (packetKey ps map child c') 1).1 = 0

/-! ## Expanding -/

/-- What `search_possiblity_light_impl` leaves behind: the result file, `*pruned`, the
return value, and the packet with which `checkIfResultFound` ends the process. -/
structure LightResult (P : Puzzle) where
  file : List (Packet P)
  pruned : Nat
  maxResult : UInt16
  solution : Option (Packet P)

/-- The child buffer with a candidate placed in `c`. -/
def Packet.putChild (child : Packet P) (c : Cell P) (childAlloc : UInt16) (e : PuzzlePart) : Packet P :=
  { child with
    grid := child.grid.place c (e.value P)
    bFaceused := setFaceUsed child.bFaceused (e.id - 1) true
    alloc := childAlloc
    minCandidats := possibilityMinCandidatsUnknown }

/-- The child buffer after `set_face_used(child.b_faceused, position, 0)`. -/
def Packet.takeBack (child : Packet P) (e : PuzzlePart) : Packet P :=
  { child with bFaceused := setFaceUsed child.bFaceused (e.id - 1) false }

/-- `pruned != NULL && light_child_is_dead(..)`; `singles` is `none` for a `NULL` counter. -/
def lightDropsChild (singles : Option (List (Cell P × Nat))) (child : Packet P) (c : Cell P)
    (id : Nat) : Bool :=
  match singles with
  | none => false
  | some singles => lightChildIsDead ps map child c id singles

/-- The candidate loop of `search_possiblity_light_impl` over `search->parts`; `last`
is the last child put into the file. -/
def lightLoop (possiblity : Packet P) (c : Cell P) (childAlloc : UInt16)
    (singles : Option (List (Cell P × Nat))) :
    List PuzzlePart → Packet P → List (Packet P) → Nat → Option (Packet P) →
      List (Packet P) × Nat × Option (Packet P)
  | [], _, file, pruned, last => (file, pruned, last)
  | e :: search, child, file, pruned, last =>
    if e.id = 0 then lightLoop possiblity c childAlloc singles search child file pruned last
    else if isFaceUsed possiblity.bFaceused (e.id - 1) then
      lightLoop possiblity c childAlloc singles search child file pruned last
    else
      let child := child.putChild c childAlloc e
      if lightDropsChild ps map singles child c e.id then
        lightLoop possiblity c childAlloc singles search (child.takeBack e) file (pruned + 1) last
      else
        lightLoop possiblity c childAlloc singles search (child.takeBack e) (file ++ [child]) pruned
          (some child)

/-- `search_possiblity_light_impl`; `prune` says whether `pruned` is not `NULL`. -/
def searchPossiblityLightImpl (result : List (Packet P)) (possiblity : Packet P) (prune : Bool)
    (pruned : Nat) : LightResult P :=
  match lightChooseCell ps map possiblity prune with
  | none => ⟨result, pruned, 0, none⟩
  | some (c, singles) =>
    let key := packetKey ps map possiblity c
    let childAlloc := UInt16.ofNat (placedCount possiblity.grid + 1)
    let (file, pruned, last) := lightLoop ps map possiblity c childAlloc
      (if prune then some singles else none) (map.getPartsBigarrayWithKey key) possiblity result
      pruned none
    match last with
    | none => ⟨file, pruned, 0, none⟩
    | some last =>
      ⟨file, pruned, last.alloc, if last.alloc.toNat ≥ P.eternParts then some last else none⟩

/-- `search_possiblity_light`. -/
def searchPossiblityLight (result : List (Packet P)) (possiblity : Packet P) : LightResult P :=
  searchPossiblityLightImpl ps map result possiblity false 0

/-- `search_possiblity_light_pruned`. -/
def searchPossiblityLightPruned (result : List (Packet P)) (possiblity : Packet P) (pruned : Nat) :
    LightResult P :=
  searchPossiblityLightImpl ps map result possiblity true pruned

end Choose

/-! ## What the counts say -/

section FreeCount

variable {used : Nat → Bool} {stopAt : Nat}

/-- Entries that are not free, or repeat the last identifier, leave the count alone. -/
private theorem lightFreeCountLoop_of_same {l : List PuzzlePart} {count seenLast : Nat}
    (h : ∀ p ∈ l, isFreeEntry used p = true → p.id = seenLast) :
    lightFreeCountLoop used stopAt l count seenLast = (count, seenLast) := by
  induction l with
  | nil => rfl
  | cons p l ih =>
    have hskip : (p.id = 0 || p.id = seenLast || used (p.id - 1)) = true := by
      have hp := h p List.mem_cons_self
      rw [isFreeEntry_iff] at hp
      by_cases hid : p.id = 0
      · simp [hid]
      · cases hu : used (p.id - 1)
        · simp [hp ⟨hid, hu⟩]
        · simp
    rw [lightFreeCountLoop, if_pos hskip]
    exact ih fun q hq => h q (List.mem_cons_of_mem _ hq)

private theorem le_lightFreeCountLoop (l : List PuzzlePart) (count seenLast : Nat) :
    count ≤ (lightFreeCountLoop used stopAt l count seenLast).1 := by
  induction l generalizing count seenLast with
  | nil => exact Nat.le_refl _
  | cons p l ih =>
    rw [lightFreeCountLoop]
    split
    · exact ih _ _
    · split
      · exact Nat.le_succ _
      · exact (Nat.le_succ _).trans (ih _ _)

/-- A free entry with another identifier than the last one is counted. -/
private theorem lt_lightFreeCountLoop (stopAt : Nat) {l : List PuzzlePart} {count seenLast : Nat}
    (h : ∃ p ∈ l, isFreeEntry used p = true ∧ p.id ≠ seenLast) :
    count < (lightFreeCountLoop used stopAt l count seenLast).1 := by
  induction l with
  | nil => obtain ⟨p, hp, -⟩ := h; exact absurd hp List.not_mem_nil
  | cons p l ih =>
    rw [lightFreeCountLoop]
    split
    · rename_i hskip
      refine ih ?_
      obtain ⟨q, hq, hfree, hid⟩ := h
      rcases List.mem_cons.mp hq with rfl | hq
      · rw [isFreeEntry_iff] at hfree
        simp [hfree.1, hfree.2, hid] at hskip
      · exact ⟨q, hq, hfree, hid⟩
    · split
      · exact Nat.lt_succ_self _
      · exact le_lightFreeCountLoop l _ _

theorem lightFreeCountLoop_eq_zero {l : List PuzzlePart} :
    (lightFreeCountLoop used stopAt l 0 0).1 = 0 ↔ l.filter (isFreeEntry used) = [] := by
  rw [List.filter_eq_nil_iff]
  constructor
  · intro h p hp hfree
    have hlt : 0 < (lightFreeCountLoop used stopAt l 0 0).1 :=
      lt_lightFreeCountLoop stopAt ⟨p, hp, hfree, (isFreeEntry_iff.mp hfree).1⟩
    omega
  · intro h
    rw [lightFreeCountLoop_of_same fun p hp hfree => absurd hfree (h p hp)]

/-- The count is 1, with identifier `id`, exactly when `id` is the only free one. -/
theorem lightFreeCountLoop_eq_one {l : List PuzzlePart} {id : Nat} :
    lightFreeCountLoop used 0 l 0 0 = (1, id) ↔
      l.filter (isFreeEntry used) ≠ [] ∧ ∀ p ∈ l.filter (isFreeEntry used), p.id = id := by
  induction l with
  | nil => simp [lightFreeCountLoop]
  | cons p l ih =>
    rw [lightFreeCountLoop]
    cases hp : isFreeEntry used p with
    | false =>
      have hskip : (p.id = 0 || p.id = 0 || used (p.id - 1)) = true := by
        rw [← Bool.not_eq_true, isFreeEntry_iff] at hp
        simpa [or_iff_not_imp_left] using hp
      rw [if_pos hskip, ih, List.filter_cons_of_neg (by simp [hp])]
    | true =>
      obtain ⟨hid, hu⟩ := isFreeEntry_iff.mp hp
      rw [if_neg (by simp [hid, hu]), if_neg (by simp), List.filter_cons_of_pos hp]
      simp only [ne_eq, reduceCtorEq, not_false_eq_true, true_and, List.forall_mem_cons]
      by_cases hsame : ∀ q ∈ l, isFreeEntry used q = true → q.id = p.id
      · rw [Nat.zero_add, lightFreeCountLoop_of_same hsame, Prod.mk.injEq, and_iff_right rfl]
        refine ⟨fun heq => ⟨heq, fun q hq => ?_⟩, fun h => h.1⟩
        rw [← heq]
        exact hsame q (List.mem_filter.mp hq).1 (List.mem_filter.mp hq).2
      · have hex : ∃ q ∈ l, isFreeEntry used q = true ∧ q.id ≠ p.id := by
          simpa only [not_forall, exists_prop] using hsame
        have hlt : 0 + 1 < (lightFreeCountLoop used 0 l (0 + 1) p.id).1 := lt_lightFreeCountLoop 0 hex
        refine ⟨fun heq => ?_, fun ⟨heq, h⟩ => ?_⟩
        · rw [heq] at hlt
          exact absurd hlt (by simp)
        · obtain ⟨q, hq, hfree, hne⟩ := hex
          exact absurd ((h q (List.mem_filter.mpr ⟨hq, hfree⟩)).trans heq.symm) hne

end FreeCount

section Counts

variable {P : Puzzle} {ps : PieceSet P} {map : MapBigArray}

theorem lightFreeCount_eq_zero {q : Packet P} {c : Cell P} {stopAt : Nat} :
    (lightFreeCount map q (packetKey ps map q c) stopAt).1 = 0 ↔ packetFree ps map q c = [] :=
  lightFreeCountLoop_eq_zero

theorem lightFreeCount_eq_one {q : Packet P} {c : Cell P} {id : Nat} :
    lightFreeCount map q (packetKey ps map q c) 0 = (1, id) ↔
      packetFree ps map q c ≠ [] ∧ ∀ p ∈ packetFree ps map q c, p.id = id :=
  lightFreeCountLoop_eq_one

end Counts

/-! ## What the choice says -/

section ChooseSpec

variable {P : Puzzle} {ps : PieceSet P} {map : MapBigArray} {q : Packet P}

/-- An empty constrained cell whose only free candidate is `id`. -/
def SingleCandidate (ps : PieceSet P) (map : MapBigArray) (q : Packet P) (c : Cell P) (id : Nat) : Prop :=
  q.constrainedEmpty ps map c = true ∧ packetFree ps map q c ≠ [] ∧
    ∀ p ∈ packetFree ps map q c, p.id = id

/-- The loop over `cells` fails on a dead cell, or when nothing at all is empty. -/
private theorem lightChooseLoop_eq_none {collect : Bool} {cells : List (Cell P)}
    {best : Option (Nat × Cell P)} {fallback : Option (Cell P)} {singles : List (Cell P × Nat)} :
    lightChooseLoop ps map q collect cells best fallback singles = none ↔
      (∃ c ∈ cells, q.constrainedEmpty ps map c = true ∧ packetFree ps map q c = []) ∨
        best = none ∧ fallback = none ∧ ∀ c ∈ cells, q.grid c ≠ -2 := by
  induction cells generalizing best fallback singles with
  | nil => cases best <;> simp [lightChooseLoop]
  | cons c cells ih =>
    simp only [List.mem_cons, exists_eq_or_imp, forall_eq_or_imp]
    rw [lightChooseLoop]
    by_cases hc : q.grid c = -2
    · rw [if_neg (by simp [hc])]
      by_cases hun : (packetKey ps map q c).isUnconstrained map.sizearrayM = true
      · have hcon : q.constrainedEmpty ps map c = false := by simp [Packet.constrainedEmpty, hun]
        simp only [hun, if_true, ih, hcon, hc]
        cases fallback <;> simp
      · have hcon : q.constrainedEmpty ps map c = true := by simp [Packet.constrainedEmpty, hun, hc]
        simp only [hun, Bool.false_eq_true, if_false]
        by_cases hzero : packetFree ps map q c = []
        · rw [if_pos (lightFreeCount_eq_zero.mpr hzero)]
          simp [hcon, hzero]
        · rw [if_neg (mt lightFreeCount_eq_zero.mp hzero), ih]
          simp [hzero, hc]
    · have hcon : q.constrainedEmpty ps map c = false := by simp [Packet.constrainedEmpty, hc]
      rw [if_pos hc, ih]
      simp [hcon, hc]

/-- The loop chooses an empty cell, and collects the single-candidate cells it met. -/
private theorem lightChooseLoop_eq_some {collect : Bool} {cells : List (Cell P)}
    {best : Option (Nat × Cell P)} {fallback : Option (Cell P)} {singles : List (Cell P × Nat)}
    {r : Cell P × List (Cell P × Nat)}
    (h : lightChooseLoop ps map q collect cells best fallback singles = some r)
    (hbest : ∀ b, best = some b → q.grid b.2 = -2) (hfall : ∀ c, fallback = some c → q.grid c = -2) :
    q.grid r.1 = -2 ∧ (collect = true → ∀ t, t ∈ r.2 ↔
      t ∈ singles ∨ t.1 ∈ cells ∧ SingleCandidate ps map q t.1 t.2) := by
  induction cells generalizing best fallback singles with
  | nil =>
    cases best with
    | none =>
      obtain ⟨c, hc, rfl⟩ := Option.map_eq_some_iff.mp h
      exact ⟨hfall c hc, fun _ t => by simp⟩
    | some b =>
      obtain rfl := Option.some.inj h
      exact ⟨hbest b rfl, fun _ t => by simp⟩
  | cons c cells ih =>
    rw [lightChooseLoop] at h
    by_cases hc : q.grid c = -2
    · rw [if_neg (by simp [hc])] at h
      by_cases hun : (packetKey ps map q c).isUnconstrained map.sizearrayM = true
      · have hcon : q.constrainedEmpty ps map c = false := by simp [Packet.constrainedEmpty, hun]
        simp only [hun, if_true] at h
        have hfall' : ∀ c', fallback.or (some c) = some c' → q.grid c' = -2 := by
          intro c' hc'
          obtain hold | ⟨-, hnew⟩ := Option.or_eq_some_iff.mp hc'
          · exact hfall c' hold
          · cases hnew
            exact hc
        obtain ⟨he, hs⟩ := ih h hbest hfall'
        refine ⟨he, fun hcol t => (hs hcol t).trans (or_congr_right ?_)⟩
        have hnot : ∀ id, ¬ SingleCandidate ps map q c id := fun id hs =>
          Bool.false_ne_true (hcon.symm.trans hs.1)
        grind
      · have hcon : q.constrainedEmpty ps map c = true := by simp [Packet.constrainedEmpty, hun, hc]
        simp only [hun, Bool.false_eq_true, if_false] at h
        split at h
        · exact absurd h (by simp)
        · obtain ⟨he, hs⟩ := ih h (fun b hb => by grind) hfall
          refine ⟨he, fun hcol t => (hs hcol t).trans ?_⟩
          have hsingle : ∀ id, SingleCandidate ps map q c id ↔
              lightFreeCount map q (packetKey ps map q c) 0 = (1, id) := fun id => by
            rw [lightFreeCount_eq_one, SingleCandidate, and_iff_right hcon]
          grind
    · have hcon : q.constrainedEmpty ps map c = false := by simp [Packet.constrainedEmpty, hc]
      rw [if_pos hc] at h
      obtain ⟨he, hs⟩ := ih h hbest hfall
      refine ⟨he, fun hcol t => (hs hcol t).trans (or_congr_right ?_)⟩
      have hnot : ∀ id, ¬ SingleCandidate ps map q c id := fun id hs =>
          Bool.false_ne_true (hcon.symm.trans hs.1)
      grind

/-- `light_choose_cell` fails exactly on dead packets and on full boards. -/
theorem lightChooseCell_eq_none {collect : Bool} :
    lightChooseCell ps map q collect = none ↔ q.hasDeadCell ps map = true ∨ ∀ c, q.grid c ≠ -2 := by
  rw [lightChooseCell, lightChooseLoop_eq_none, Packet.hasDeadCell_iff]
  simp

theorem lightChooseCell_eq_some {collect : Bool} {c : Cell P} {singles : List (Cell P × Nat)}
    (h : lightChooseCell ps map q collect = some (c, singles)) :
    q.grid c = -2 ∧
      (collect = true → ∀ c' id, (c', id) ∈ singles ↔ SingleCandidate ps map q c' id) := by
  obtain ⟨hc, hs⟩ := lightChooseLoop_eq_some h (by simp) (by simp)
  exact ⟨hc, fun hcol c' id => by simpa using hs hcol (c', id)⟩

private theorem lightChooseLoop_collect (cells : List (Cell P)) (best : Option (Nat × Cell P))
    (fallback : Option (Cell P)) (singles singles' : List (Cell P × Nat)) :
    (lightChooseLoop ps map q true cells best fallback singles).map Prod.fst =
      (lightChooseLoop ps map q false cells best fallback singles').map Prod.fst := by
  induction cells generalizing best fallback singles singles' with
  | nil => cases best <;> cases fallback <;> rfl
  | cons c cells ih =>
    simp only [lightChooseLoop]
    split
    · exact ih ..
    · split
      · exact ih ..
      · split
        · rfl
        · exact ih ..

/-- The choice does not depend on whether the single-candidate cells are collected. -/
theorem lightChooseCell_collect :
    (lightChooseCell ps map q true).map Prod.fst = (lightChooseCell ps map q false).map Prod.fst :=
  lightChooseLoop_collect ..

end ChooseSpec

/-! ## Dead children -/

section Child

variable {P : Puzzle} {ps : PieceSet P} {map : MapBigArray} {q child : Packet P} {c c' : Cell P}
  {e : PuzzlePart} (hq : q.WellFormed ps) (hmap : MapOf ps map) (hc : q.grid c = -2)
  (he : e ∈ packetFree ps map q c) (h : IsChild q c e child)
include hq hmap hc he h

/-- A cell next to the one just filled is constrained. -/
private theorem constrained_of_neighbor {d : Dir} (hn : c.neighbor d = some c')
    (hempty : child.grid c' = -2) : child.constrainedEmpty ps map c' = true := by
  have hchild := h.wellFormed hq hmap hc he
  rw [Packet.constrainedEmpty, Bool.and_eq_true, decide_eq_true_iff, Bool.not_eq_true',
    ← Bool.not_eq_true, isUnconstrained_packetKey hchild hmap]
  refine ⟨hempty, fun hall => ?_⟩
  obtain ⟨c₁, hn₁, he₁⟩ := hall d.opposite
  obtain rfl := Option.some.inj (hn₁.symm.trans (Cell.neighbor_opposite hn))
  rw [h.grid, Grid.place_self] at he₁
  exact (fits_of_mem_packetFree hq hmap he).piece.ne_empty he₁

/-- Constraints only grow. -/
private theorem constrained_of_parent (hne : c' ≠ c) (hcon : q.constrainedEmpty ps map c' = true) :
    child.constrainedEmpty ps map c' = true := by
  have hchild := h.wellFormed hq hmap hc he
  rw [Packet.constrainedEmpty, Bool.and_eq_true, decide_eq_true_iff, Bool.not_eq_true',
    ← Bool.not_eq_true, isUnconstrained_packetKey hchild hmap]
  rw [Packet.constrainedEmpty, Bool.and_eq_true, decide_eq_true_iff, Bool.not_eq_true',
    ← Bool.not_eq_true, isUnconstrained_packetKey hq hmap] at hcon
  refine ⟨by rw [h.grid, Grid.place_of_ne hne, hcon.1], fun hall => hcon.2 fun d => ?_⟩
  obtain ⟨c₁, hn, hempty⟩ := hall d
  have hne₁ : c₁ ≠ c := fun heq => by
    rw [heq, h.grid, Grid.place_self] at hempty
    exact (fits_of_mem_packetFree hq hmap he).piece.ne_empty hempty
  rw [h.grid, Grid.place_of_ne hne₁] at hempty
  exact ⟨c₁, hn, hempty⟩

/-- Away from the filled cell nothing changes about constraints. -/
private theorem constrained_of_child (hfar : ∀ d, c'.neighbor d ≠ some c)
    (hcon : child.constrainedEmpty ps map c' = true) : q.constrainedEmpty ps map c' = true := by
  have hchild := h.wellFormed hq hmap hc he
  rw [Packet.constrainedEmpty, Bool.and_eq_true, decide_eq_true_iff, Bool.not_eq_true',
    ← Bool.not_eq_true, isUnconstrained_packetKey hchild hmap] at hcon
  rw [Packet.constrainedEmpty, Bool.and_eq_true, decide_eq_true_iff, Bool.not_eq_true',
    ← Bool.not_eq_true, isUnconstrained_packetKey hq hmap]
  have hne : c' ≠ c := fun heq => by
    rw [heq, h.grid, Grid.place_self] at hcon
    exact (fits_of_mem_packetFree hq hmap he).piece.ne_empty hcon.1
  refine ⟨by rw [← hcon.1, h.grid, Grid.place_of_ne hne], fun hall => hcon.2 fun d => ?_⟩
  obtain ⟨c₁, hn, hempty⟩ := hall d
  have hne₁ : c₁ ≠ c := fun heq => hfar d (heq ▸ hn)
  exact ⟨c₁, hn, by rw [h.grid, Grid.place_of_ne hne₁, hempty]⟩

/-- A cell whose only candidate went elsewhere is dead. -/
private theorem free_of_single (hne : c' ≠ c) (hs : SingleCandidate ps map q c' e.id) :
    packetFree ps map child c' = [] := by
  have hchild := h.wellFormed hq hmap hc he
  have hfits := fits_of_mem_packetFree hq hmap he
  rw [packetFree_eq_nil hchild hmap]
  intro w hw
  have hw' : Grid.Fits ps (q.grid.place c (e.value P)) c' w := h.grid ▸ hw
  obtain ⟨e', he', rfl⟩ := List.mem_map.mp
    ((mem_packetFree hq hmap).mpr (Grid.Fits.of_place hq.grid hc hfits hne hw'))
  have hid := hs.2.2 e' he'
  refine hw'.free c ?_ ?_
  · rw [Grid.place_self]
    exact hfits.piece.ne_empty
  · rw [Grid.place_self, pieceId_of_mem_packetFree hq hmap he, pieceId_of_mem_packetFree hq hmap he',
      hid]

/-- A far cell that dies had the placed piece as its only candidate. -/
private theorem single_of_free (hlive : q.hasDeadCell ps map = false)
    (hfar : ∀ d, c'.neighbor d ≠ some c) (hcon : child.constrainedEmpty ps map c' = true)
    (hfree : packetFree ps map child c' = []) : SingleCandidate ps map q c' e.id := by
  have hchild := h.wellFormed hq hmap hc he
  have hfits := fits_of_mem_packetFree hq hmap he
  have hcon' := constrained_of_child hq hmap hc he h hfar hcon
  refine ⟨hcon', fun hnil => ?_, fun e' he' => ?_⟩
  · have hdead := Packet.hasDeadCell_iff.mpr ⟨c', hcon', hnil⟩
    rw [hlive] at hdead
    exact Bool.false_ne_true hdead
  · have hw := fits_of_mem_packetFree hq hmap he'
    have hnot := (packetFree_eq_nil hchild hmap).mp hfree (e'.value P)
    rw [h.grid, Grid.fits_place_iff hc hfits hfar] at hnot
    have hid : pieceId P (e'.value P) = pieceId P (e.value P) := by
      by_contra hne
      exact hnot ⟨hw, hne⟩
    rwa [pieceId_of_mem_packetFree hq hmap he, pieceId_of_mem_packetFree hq hmap he'] at hid

/-- The verdict of `light_child_is_dead` is that of a full scan of the child. -/
theorem lightChildIsDead_iff (hlive : q.hasDeadCell ps map = false)
    {singles : List (Cell P × Nat)}
    (hs : ∀ c' id, (c', id) ∈ singles ↔ SingleCandidate ps map q c' id) :
    lightChildIsDead ps map child c e.id singles = child.hasDeadCell ps map := by
  rw [Bool.eq_iff_iff, Packet.hasDeadCell_iff, lightChildIsDead, Bool.or_eq_true, List.any_eq_true,
    List.any_eq_true]
  constructor
  · rintro (⟨⟨c', id⟩, hmem, ht⟩ | ⟨d, -, hd⟩)
    · simp only [Bool.and_eq_true, decide_eq_true_iff] at ht
      obtain ⟨rfl, hne⟩ := ht
      have hsingle := (hs c' e.id).mp hmem
      exact ⟨c', constrained_of_parent hq hmap hc he h hne hsingle.1,
        free_of_single hq hmap hc he h hne hsingle⟩
    · cases hn : c.neighbor d with
      | none => simp [hn] at hd
      | some c' =>
        simp only [hn, Bool.and_eq_true, decide_eq_true_iff] at hd
        exact ⟨c', constrained_of_neighbor hq hmap hc he h hn hd.1, lightFreeCount_eq_zero.mp hd.2⟩
  · rintro ⟨c', hcon, hfree⟩
    by_cases hfar : ∀ d, c'.neighbor d ≠ some c
    · left
      have hne : c' ≠ c := fun heq => by
        rw [Packet.constrainedEmpty, Bool.and_eq_true, decide_eq_true_iff, heq, h.grid,
          Grid.place_self] at hcon
        exact (fits_of_mem_packetFree hq hmap he).piece.ne_empty hcon.1
      have hsingle := single_of_free hq hmap hc he h hlive hfar hcon hfree
      exact ⟨(c', e.id), (hs c' e.id).mpr hsingle, by simp [hne]⟩
    · right
      simp only [not_forall, not_not] at hfar
      obtain ⟨d, hd⟩ := hfar
      refine ⟨d.opposite, Dir.mem_all _, ?_⟩
      rw [Packet.constrainedEmpty, Bool.and_eq_true] at hcon
      simp only [Cell.neighbor_opposite hd, Bool.and_eq_true, decide_eq_true_iff]
      exact ⟨decide_eq_true_iff.mp hcon.1, lightFreeCount_eq_zero.mpr hfree⟩

end Child

/-! ## All children -/

section Children

variable {P : Puzzle} {ps : PieceSet P} {map : MapBigArray} {q : Packet P} {c : Cell P}

/-- The states of the child buffer at each free candidate, whether kept or not. -/
def lightChildren (q : Packet P) (c : Cell P) (childAlloc : UInt16) :
    List PuzzlePart → Packet P → List (PuzzlePart × Packet P)
  | [], _ => []
  | e :: search, child =>
    if isFreeEntry (isFaceUsed q.bFaceused) e then
      (e, child.putChild c childAlloc e) ::
        lightChildren q c childAlloc search ((child.putChild c childAlloc e).takeBack e)
    else lightChildren q c childAlloc search child

/-- The candidate loop appends the kept children in order and counts the others. -/
private theorem lightLoop_eq (ps : PieceSet P) (map : MapBigArray) (childAlloc : UInt16) (singles : Option (List (Cell P × Nat)))
    (search : List PuzzlePart) (child : Packet P) (file : List (Packet P)) (pruned : Nat)
    (last : Option (Packet P)) :
    (lightLoop ps map q c childAlloc singles search child file pruned last).1 =
        file ++ ((lightChildren q c childAlloc search child).filter fun k =>
          !lightDropsChild ps map singles k.2 c k.1.id).map Prod.snd ∧
      (lightLoop ps map q c childAlloc singles search child file pruned last).2.1 =
        pruned + (lightChildren q c childAlloc search child).countP fun k =>
          lightDropsChild ps map singles k.2 c k.1.id := by
  induction search generalizing child file pruned last with
  | nil => simp [lightChildren, lightLoop]
  | cons e search ih =>
    have hfree : isFreeEntry (isFaceUsed q.bFaceused) e = true ↔
        ¬ e.id = 0 ∧ ¬ isFaceUsed q.bFaceused (e.id - 1) = true := by
      rw [isFreeEntry_iff, Bool.not_eq_true]
    simp only [lightChildren, lightLoop]
    by_cases hid : e.id = 0
    · rw [if_pos hid, if_neg (by rw [hfree]; simp [hid])]
      exact ih child file pruned last
    · rw [if_neg hid]
      by_cases hu : isFaceUsed q.bFaceused (e.id - 1) = true
      · rw [if_pos hu, if_neg (by rw [hfree]; simp [hu])]
        exact ih child file pruned last
      · rw [if_neg hu, if_pos (hfree.mpr ⟨hid, hu⟩)]
        set kid := child.putChild c childAlloc e
        cases hd : lightDropsChild ps map singles kid c e.id with
        | true =>
          obtain ⟨h₁, h₂⟩ := ih (kid.takeBack e) file (pruned + 1) last
          rw [if_pos rfl, h₁, h₂, List.filter_cons_of_neg (by simp [hd]), List.countP_cons]
          simp only [hd, if_true]
          exact ⟨trivial, by omega⟩
        | false =>
          obtain ⟨h₁, h₂⟩ := ih (kid.takeBack e) (file ++ [kid]) pruned (some kid)
          rw [if_neg (by simp), h₁, h₂, List.filter_cons_of_pos (by simp [hd]), List.countP_cons]
          simp [hd]

/-- The buffer keeps the parent's grid outside `c` and the parent's mask. -/
private theorem lightChildren_spec (childAlloc : UInt16) {search : List PuzzlePart} {child : Packet P}
    (hgrid : ∀ c', c' ≠ c → child.grid c' = q.grid c')
    (hmask : ∀ j, isFaceUsed child.bFaceused j = isFaceUsed q.bFaceused j) :
    ((lightChildren q c childAlloc search child).map Prod.fst =
        search.filter (isFreeEntry (isFaceUsed q.bFaceused))) ∧
      ∀ k ∈ lightChildren q c childAlloc search child,
        IsChild q c k.1 k.2 ∧ k.2.alloc = childAlloc := by
  induction search generalizing child with
  | nil => simp [lightChildren]
  | cons e search ih =>
    rw [lightChildren]
    by_cases hfree : isFreeEntry (isFaceUsed q.bFaceused) e = true
    · rw [if_pos hfree, List.filter_cons_of_pos hfree]
      have hkid : IsChild q c e (child.putChild c childAlloc e) := by
        refine ⟨funext fun c' => ?_, fun j => ?_⟩
        · by_cases hne : c' = c
          · subst hne
            simp [Packet.putChild]
          · simp only [Packet.putChild]
            rw [Grid.place_of_ne hne, Grid.place_of_ne hne, hgrid c' hne]
        · simp only [Packet.putChild, isFaceUsed_setFaceUsed, hmask]
      have hback : ∀ j, isFaceUsed ((child.putChild c childAlloc e).takeBack e).bFaceused j =
          isFaceUsed q.bFaceused j := fun j => by
        rw [isFreeEntry_iff] at hfree
        simp only [Packet.takeBack, isFaceUsed_setFaceUsed, hkid.mask]
        by_cases hj : e.id - 1 = j
        · rw [if_pos hj, ← hj, hfree.2]
        · rw [if_neg hj, if_neg hj]
      have hgrid' : ∀ c', c' ≠ c → ((child.putChild c childAlloc e).takeBack e).grid c' = q.grid c' :=
        fun c' hne => by simp only [Packet.takeBack, hkid.grid, Grid.place_of_ne hne]
      obtain ⟨h₁, h₂⟩ := ih hgrid' hback
      refine ⟨by rw [List.map_cons, h₁], fun k hk => ?_⟩
      rcases List.mem_cons.mp hk with rfl | hk
      · exact ⟨hkid, rfl⟩
      · exact h₂ k hk
    · rw [if_neg hfree, List.filter_cons_of_neg hfree]
      exact ih hgrid hmask

/-- The children of `q` at `c`: one for each free candidate. -/
def Packet.children (ps : PieceSet P) (map : MapBigArray) (q : Packet P) (c : Cell P) :
    List (PuzzlePart × Packet P) :=
  lightChildren q c (UInt16.ofNat (placedCount q.grid + 1))
    (map.getPartsBigarrayWithKey (packetKey ps map q c)) q

theorem map_fst_children : (q.children ps map c).map Prod.fst = packetFree ps map q c :=
  (lightChildren_spec _ (fun _ _ => rfl) fun _ => rfl).1

theorem isChild_of_mem {k : PuzzlePart × Packet P} (hk : k ∈ q.children ps map c) :
    k.1 ∈ packetFree ps map q c ∧ IsChild q c k.1 k.2 ∧
      k.2.alloc = UInt16.ofNat (placedCount q.grid + 1) := by
  have hmem : k.1 ∈ (q.children ps map c).map Prod.fst := List.mem_map_of_mem hk
  rw [map_fst_children] at hmem
  exact ⟨hmem, (lightChildren_spec _ (fun _ _ => rfl) fun _ => rfl).2 k hk⟩

/-- The children of a well-formed packet at an empty cell are an exact cut. -/
theorem exactCut_children (hq : q.WellFormed ps) (hmap : MapOf ps map) (hc : q.grid c = -2) :
    Cover.ExactCut (Packet.completions ps) q ((q.children ps map c).map Prod.snd) := by
  have hvalue : ((q.children ps map c).map Prod.snd).map (fun child => child.grid c) =
      (packetFree ps map q c).map (PuzzlePart.value P) := by
    rw [← map_fst_children, List.map_map, List.map_map]
    refine List.map_congr_left fun k hk => ?_
    simp [(isChild_of_mem hk).2.1.grid]
  refine Cover.exactCut_of_key (fun b : Grid P => b c) (fun child => child.grid c) ?_ ?_ ?_
  · rw [hvalue]
    exact nodup_packetFree hq hmap
  · intro child hchild
    obtain ⟨k, hk, rfl⟩ := List.mem_map.mp hchild
    obtain ⟨he, hkid, -⟩ := isChild_of_mem hk
    exact hkid.completions hq hmap hc he
  · intro b hb
    rw [hvalue]
    exact (mem_packetFree hq hmap).mpr (Grid.IsCompletion.fits hb hc)

theorem children_wellFormed (hq : q.WellFormed ps) (hmap : MapOf ps map) (hc : q.grid c = -2)
    {child : Packet P} (h : child ∈ (q.children ps map c).map Prod.snd) :
    child.WellFormed ps ∧ child.alloc.toNat = placedCount child.grid := by
  obtain ⟨k, hk, rfl⟩ := List.mem_map.mp h
  obtain ⟨he, hkid, halloc⟩ := isChild_of_mem hk
  have hcount := hkid.placedCount hq hmap hc he
  have hle := placedCount_le k.2.grid
  have hparts := P.eternParts_le
  refine ⟨hkid.wellFormed hq hmap hc he, ?_⟩
  rw [halloc, ← hcount, UInt16.toNat_ofNat', Nat.mod_eq_of_lt (by omega)]

end Children

/-! ## The result file -/

section Results

variable {P : Puzzle} {ps : PieceSet P} {map : MapBigArray} {result : List (Packet P)} {q : Packet P}

/-- What the expansion does when no cell is chosen. -/
private theorem impl_of_none {prune : Bool} {pruned : Nat}
    (h : lightChooseCell ps map q prune = none) :
    (searchPossiblityLightImpl ps map result q prune pruned).file = result ∧
      (searchPossiblityLightImpl ps map result q prune pruned).pruned = pruned := by
  simp [searchPossiblityLightImpl, h]

/-- What the expansion does with the children of the chosen cell. -/
private theorem impl_of_some {prune : Bool} {pruned : Nat} {c : Cell P}
    {singles : List (Cell P × Nat)} (h : lightChooseCell ps map q prune = some (c, singles)) :
    (searchPossiblityLightImpl ps map result q prune pruned).file =
        result ++ ((q.children ps map c).filter fun k =>
          !lightDropsChild ps map (if prune then some singles else none) k.2 c k.1.id).map Prod.snd ∧
      (searchPossiblityLightImpl ps map result q prune pruned).pruned =
        pruned + (q.children ps map c).countP fun k =>
          lightDropsChild ps map (if prune then some singles else none) k.2 c k.1.id := by
  obtain ⟨h₁, h₂⟩ := lightLoop_eq ps map (UInt16.ofNat (placedCount q.grid + 1))
    (if prune then some singles else none) (map.getPartsBigarrayWithKey (packetKey ps map q c)) q result
    pruned none
  rw [Packet.children, ← h₁, ← h₂, searchPossiblityLightImpl, h]
  dsimp only
  split <;> exact ⟨rfl, rfl⟩

/-- The unpruned expansion puts every child of the chosen cell into the file. -/
theorem searchPossiblityLight_file {c : Cell P} {singles : List (Cell P × Nat)}
    (h : lightChooseCell ps map q false = some (c, singles)) :
    (searchPossiblityLight ps map result q).file = result ++ (q.children ps map c).map Prod.snd := by
  rw [searchPossiblityLight, (impl_of_some h).1]
  simp [lightDropsChild]

/-- The pruned expansion of a packet in which no cell is chosen. -/
theorem searchPossiblityLightPruned_none {pruned : Nat} (h : lightChooseCell ps map q true = none) :
    (searchPossiblityLightPruned ps map result q pruned).file = result := (impl_of_none h).1

/-- The pruned expansion drops the children of the chosen cell that it takes for dead. -/
theorem searchPossiblityLightPruned_file {pruned : Nat} {c : Cell P} {singles : List (Cell P × Nat)}
    (h : lightChooseCell ps map q true = some (c, singles)) :
    (searchPossiblityLightPruned ps map result q pruned).file = result ++ ((q.children ps map c).filter fun k =>
      !lightDropsChild ps map (some singles) k.2 c k.1.id).map Prod.snd := (impl_of_some h).1

/-- The children of a well-formed packet that is not full cut its completions exactly. -/
theorem searchPossiblityLight_exactCut (ps : PieceSet P) (al : MapAllocs) (result : List (Packet P))
    (p : Packet P) (hp : p.WellFormed ps) (hfull : ∃ c, p.grid c = -2) :
    ∃ children, (searchPossiblityLight ps (prepareMapPart ps al) result p).file = result ++ children ∧
      (∀ child ∈ children,
        child.WellFormed ps ∧ child.alloc.toNat = placedCount child.grid) ∧
      (∀ b ∈ p.completions ps, ∃! i : Fin children.length, b ∈ (children.get i).completions ps) ∧
      (∀ child ∈ children, child.completions ps ⊆ p.completions ps) ∧
      (p.hasDeadCell ps (prepareMapPart ps al) = true → children = [] ∧ p.completions ps = ∅) := by
  have hmap := mapOf_prepareMapPart ps al
  cases h : lightChooseCell ps (prepareMapPart ps al) p false with
  | none =>
    have hdead : p.hasDeadCell ps (prepareMapPart ps al) = true :=
      (lightChooseCell_eq_none.mp h).resolve_right fun hall => hfull.elim fun c hc => hall c hc
    have hempty := completions_of_hasDeadCell hp hmap hdead
    refine ⟨[], by rw [searchPossiblityLight, (impl_of_none h).1, List.append_nil], ?_⟩
    simp [hempty]
  | some r =>
    obtain ⟨c, singles⟩ := r
    have hc := (lightChooseCell_eq_some h).1
    have hcut := exactCut_children hp hmap hc
    refine ⟨_, searchPossiblityLight_file h, fun child hchild => children_wellFormed hp hmap hc hchild,
      fun b hb => hcut.existsUnique hb, fun child hchild => hcut.subset hchild, fun hdead => ?_⟩
    rw [lightChooseCell_eq_none.mpr (.inl hdead)] at h
    exact absurd h (by simp)

/-- Expanding a part of the frame set's solution. -/
theorem searchPossiblityLight_exactCut_frame :
    ∃ children, (searchPossiblityLight (Frame.pieces .p64)
        (prepareMapPart (Frame.pieces .p64) ⟨true, fun _ => true, true, true⟩) []
        (Frame.packet fun c => c.1.val < 3)).file = [] ++ children ∧
      (∀ child ∈ children, child.WellFormed (Frame.pieces .p64) ∧
        child.alloc.toNat = placedCount child.grid) ∧
      (∀ b ∈ (Frame.packet fun c => c.1.val < 3).completions (Frame.pieces .p64),
        ∃! i : Fin children.length, b ∈ (children.get i).completions (Frame.pieces .p64)) ∧
      (∀ child ∈ children, child.completions (Frame.pieces .p64) ⊆
        (Frame.packet fun c => c.1.val < 3).completions (Frame.pieces .p64)) ∧
      ((Frame.packet fun c => c.1.val < 3).hasDeadCell (Frame.pieces .p64)
        (prepareMapPart (Frame.pieces .p64) ⟨true, fun _ => true, true, true⟩) = true →
        children = [] ∧ (Frame.packet fun c => c.1.val < 3).completions (Frame.pieces .p64) = ∅) :=
  searchPossiblityLight_exactCut (Frame.pieces .p64) ⟨true, fun _ => true, true, true⟩ []
    (Frame.packet fun c => c.1.val < 3) (Frame.packet_wellFormed _)
    ⟨(⟨3, by decide⟩, ⟨0, by decide⟩), by rw [Frame.packet_grid, Frame.grid_eq_empty]; decide⟩

/-- A packet has no dead cell exactly when it is full or `light_choose_cell` finds a cell. -/
theorem hasDeadCell_eq_false {q : Packet P} : q.hasDeadCell ps map = false ↔
    (∀ c, q.grid c ≠ -2) ∨ (lightChooseCell ps map q false).isSome = true := by
  rw [Option.isSome_iff_ne_none, ne_eq, lightChooseCell_eq_none, not_or, Bool.not_eq_true]
  by_cases hfull : ∀ c, q.grid c ≠ -2
  · have hdead : q.hasDeadCell ps map = false := by
      rw [← Bool.not_eq_true, Packet.hasDeadCell_iff]
      rintro ⟨c, hc, -⟩
      rw [Packet.constrainedEmpty, Bool.and_eq_true, decide_eq_true_iff] at hc
      exact hfull c hc.1
    exact ⟨fun _ => .inl hfull, fun _ => hdead⟩
  · exact ⟨fun h => .inr ⟨h, hfull⟩, fun h => (h.resolve_left hfull).1⟩

/-- The pruned expansion drops exactly the children with a dead cell and counts them. -/
theorem searchPossiblityLightPruned_eq_filter (ps : PieceSet P) (al : MapAllocs)
    (result : List (Packet P)) (pruned : Nat) (p : Packet P) (hp : p.WellFormed ps) :
    let map := prepareMapPart ps al
    let children := (searchPossiblityLight ps map [] p).file
    let kept := children.filter fun child => !child.hasDeadCell ps map
    (searchPossiblityLight ps map result p).file = result ++ children ∧
      (searchPossiblityLightPruned ps map result p pruned).file = result ++ kept ∧
      (searchPossiblityLightPruned ps map result p pruned).pruned =
        pruned + (children.length - kept.length) ∧
      ∀ child ∈ children, child.hasDeadCell ps map = false ↔
        (∀ c, child.grid c ≠ -2) ∨ (lightChooseCell ps map child false).isSome = true := by
  intro map children kept
  have hmap : MapOf ps map := mapOf_prepareMapPart ps al
  have hsame : (lightChooseCell ps map p true).map Prod.fst =
      (lightChooseCell ps map p false).map Prod.fst := lightChooseCell_collect
  cases hfalse : lightChooseCell ps map p false with
  | none =>
    have htrue : lightChooseCell ps map p true = none := by
      rwa [hfalse, Option.map_none, Option.map_eq_none_iff] at hsame
    have hchildren : children = [] := (impl_of_none hfalse).1
    have hkept : kept = [] := by simp [kept, hchildren]
    refine ⟨?_, ?_, ?_, fun child _ => hasDeadCell_eq_false⟩
    · rw [searchPossiblityLight, (impl_of_none hfalse).1, hchildren, List.append_nil]
    · rw [searchPossiblityLightPruned, (impl_of_none htrue).1, hkept, List.append_nil]
    · rw [searchPossiblityLightPruned, (impl_of_none htrue).2, hchildren, hkept]
      rfl
  | some r =>
    obtain ⟨c, s⟩ := r
    obtain ⟨⟨c', singles⟩, htrue, hc'⟩ : ∃ r, lightChooseCell ps map p true = some r ∧ r.1 = c := by
      rwa [hfalse, Option.map_some, Option.map_eq_some_iff] at hsame
    obtain rfl : c' = c := hc'
    obtain ⟨hc, hsingles⟩ := lightChooseCell_eq_some htrue
    have hlive : p.hasDeadCell ps map = false := by
      rw [hasDeadCell_eq_false, hfalse]
      exact .inr rfl
    have hdrop : ∀ k ∈ p.children ps map c',
        lightDropsChild ps map (some singles) k.2 c' k.1.id = k.2.hasDeadCell ps map := fun k hk => by
      obtain ⟨he, hkid, -⟩ := isChild_of_mem hk
      exact lightChildIsDead_iff hp hmap hc he hkid hlive (hsingles rfl)
    have hfile : (searchPossiblityLight ps map [] p).file = [] ++ (p.children ps map c').map Prod.snd :=
      searchPossiblityLight_file hfalse
    have hchildren : children = (p.children ps map c').map Prod.snd := by
      rw [List.nil_append] at hfile
      exact hfile
    have hkept : kept = ((p.children ps map c').filter fun k =>
        !lightDropsChild ps map (some singles) k.2 c' k.1.id).map Prod.snd := by
      simp only [kept]
      rw [hchildren, List.filter_map]
      refine congrArg _ (List.filter_congr fun k hk => ?_)
      rw [hdrop k hk]
      rfl
    refine ⟨?_, ?_, ?_, fun child _ => hasDeadCell_eq_false⟩
    · rw [hchildren]
      exact searchPossiblityLight_file hfalse
    · rw [hkept]
      exact (impl_of_some htrue).1
    · rw [searchPossiblityLightPruned, (impl_of_some htrue).2, hchildren, hkept, List.length_map,
        List.length_map, if_pos rfl, ← List.countP_eq_length_filter]
      have hsplit : (p.children ps map c').length = _ + _ := List.length_eq_countP_add_countP
        fun k : PuzzlePart × Packet P => lightDropsChild ps map (some singles) k.2 c' k.1.id
      simp only [Bool.not_eq_true, Bool.decide_eq_false] at hsplit
      omega

/-- Expanding the empty board of the frame set. -/
theorem searchPossiblityLightPruned_eq_filter_frame :
    let map := prepareMapPart (Frame.pieces .p100) ⟨true, fun _ => true, true, true⟩
    let p := Frame.packet (P := .p100) fun _ => false
    let children := (searchPossiblityLight (Frame.pieces .p100) map [] p).file
    let kept := children.filter fun child => !child.hasDeadCell (Frame.pieces .p100) map
    (searchPossiblityLight (Frame.pieces .p100) map [] p).file = [] ++ children ∧
      (searchPossiblityLightPruned (Frame.pieces .p100) map [] p 0).file = [] ++ kept ∧
      (searchPossiblityLightPruned (Frame.pieces .p100) map [] p 0).pruned =
        0 + (children.length - kept.length) ∧
      ∀ child ∈ children, child.hasDeadCell (Frame.pieces .p100) map = false ↔
        (∀ c, child.grid c ≠ -2) ∨
          (lightChooseCell (Frame.pieces .p100) map child false).isSome = true :=
  searchPossiblityLightPruned_eq_filter (Frame.pieces .p100) ⟨true, fun _ => true, true, true⟩ [] 0
    (Frame.packet fun _ => false) (Frame.packet_wellFormed _)

end Results
