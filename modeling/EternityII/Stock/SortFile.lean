-- SUMMARY: The sorts of a file by placed pieces: they end, and leave the same elements in order.
import EternityII.Base.LandmarkSort
import EternityII.Stock.Lifo
import Mathlib.Order.OrderDual

/-!
# Sorting a file

The two sorts walk over the links of a file and move the elements out of order before landmarks,
the first elements seen with each number of placed pieces. They differ in the order they make
and in the landmarks they look for: the descending one never looks for that of an empty board.
-/

/-! ## The sorts -/

section Sorts

variable {ι : Type*} [DecidableEq ι] {P : Puzzle}

/-- The file, `currElement` and `orderedLair`. -/
structure SortState (ι : Type*) (P : Puzzle) where
  file : File ι P
  currElement : Option ι
  orderedLair : Nat → Option ι

/-- An element is remembered when it is the first one seen with its number of pieces. -/
def remember (orderedLair : Nat → Option ι) (alloc : Nat) (element : ι) : Nat → Option ι :=
  if orderedLair alloc = none then Function.update orderedLair alloc (some element) else orderedLair

/-- One turn of the loop of a sort on `currElement`; `outOfOrder` compares it with the next
element, and `lairs` are the landmarks looked for, in the order of the search. -/
def sortTurn (outOfOrder : Nat → Nat → Bool) (lairs : Nat → List Nat) (s : SortState ι P) (curr : ι) :
    SortState ι P :=
  let file := s.file
  let nextElement := file.links.next curr
  if (file.data curr).isEmpty then { s with currElement := nextElement }
  else
    let currAlloc := (file.data curr).placed.toNat
    let orderedLair := remember s.orderedLair currAlloc curr
    match nextElement with
    | none => ⟨file, none, orderedLair⟩
    | some next =>
      if (file.data next).isEmpty then ⟨file, some next, orderedLair⟩
      else
        let nextAlloc := (file.data next).placed.toNat
        let orderedLair := remember orderedLair nextAlloc next
        if outOfOrder currAlloc nextAlloc then
          let moved :=
            match (lairs currAlloc).findSome? orderedLair with
            | some target => file.moveBefore curr target
            | none => file.moveAfter curr file.links.last
          ⟨moved, if moved.links.first ≠ some next then moved.links.previous next else some next, orderedLair⟩
        else ⟨file, some next, orderedLair⟩

/-- The loop of a sort, `none` when it does not end within the fuel. -/
def sortLoop (outOfOrder : Nat → Nat → Bool) (lairs : Nat → List Nat) : Nat → SortState ι P → Option (File ι P)
  | 0, _ => none
  | fuel + 1, s =>
    match s.currElement with
    | none => some s.file
    | some curr => sortLoop outOfOrder lairs fuel (sortTurn outOfOrder lairs s curr)

/-- A sort. -/
def sortOneFile (outOfOrder : Nat → Nat → Bool) (lairs : Nat → List Nat) (fuel : Nat) (file : File ι P) :
    Option (File ι P) :=
  if file.links.first = none then some file
  else sortLoop outOfOrder lairs fuel ⟨file, file.links.first, fun _ => none⟩

/-- `sort_one_file_ascending`: the landmarks from `currAlloc + 1` up to `ETERN_PARTS`. -/
def sortOneFileAscending (fuel : Nat) (file : File ι P) : Option (File ι P) :=
  sortOneFile (fun currAlloc nextAlloc => decide (currAlloc > nextAlloc))
    (fun currAlloc => (List.range (P.eternParts + 1)).filter (currAlloc < ·)) fuel file

/-- `sort_one_file_descending`: the landmarks from `currAlloc - 1` down to 1. -/
def sortOneFileDescending (fuel : Nat) (file : File ι P) : Option (File ι P) :=
  sortOneFile (fun currAlloc nextAlloc => decide (currAlloc < nextAlloc))
    (fun currAlloc => ((List.range currAlloc).filter (0 < ·)).reverse) fuel file

end Sorts

/-! ## The scan of a sort -/

open LandmarkSort

section Simulation

variable {ι κ : Type*} [LinearOrder κ] {P : Puzzle}

/-- The order a sort makes of the elements of a file: each number of pieces is a level, an element
is out of order when it is above the next one, and the landmarks looked for are those of the
levels above, the nearest first. -/
structure SortOrder (file : File ι P) (l : List ι) (outOfOrder : Nat → Nat → Bool) (lairs : Nat → List Nat)
    (κ : Type*) [LinearOrder κ] where
  levels : Levels ι κ
  key : ℕ ≃ κ
  level : ∀ e ∈ l, levels.level e = key (file.data e).placed.toNat
  outOfOrder_iff : ∀ a b, outOfOrder a b = true ↔ key b < key a
  lairs_eq : ∀ e ∈ l, (lairs (file.data e).placed.toNat).map key =
    levels.marks.filter (key (file.data e).placed.toNat < ·)

variable {file : File ι P} {l : List ι} {outOfOrder : Nat → Nat → Bool} {lairs : Nat → List Nat}

/-- A sort is where a scan is. -/
structure Scans (O : SortOrder file l outOfOrder lairs κ) (s : SortState ι P) (scan : Scan ι κ) : Prop where
  chains : s.file.Chains scan.list
  data : s.file.data = file.data
  curr : s.currElement = scan.after.head?
  lair : ∀ a, scan.lair (O.key a) = s.orderedLair a

variable {O : SortOrder file l outOfOrder lairs κ} {s : SortState ι P} {scan scan' : Scan ι κ}
  {lair : κ → Option ι} {orderedLair : Nat → Option ι} {e : ι}

theorem register_eq_remember (he : e ∈ l) (h : ∀ a, lair (O.key a) = orderedLair a) :
    ∀ a, register O.levels lair e (O.key a) = remember orderedLair (file.data e).placed.toNat e a := by
  intro a
  unfold register remember
  rw [O.level e he, h]
  split
  · by_cases ha : a = (file.data e).placed.toNat
    · rw [ha, Function.update_self, Function.update_self]
    · rw [Function.update_of_ne ha, Function.update_of_ne (fun heq => ha (O.key.injective heq)), h]
  · exact h a

theorem target_eq_findSome (he : e ∈ l) (h : ∀ a, lair (O.key a) = orderedLair a) :
    target O.levels lair (O.levels.level e) = (lairs (file.data e).placed.toNat).findSome? orderedLair := by
  unfold target
  rw [O.level e he, ← O.lairs_eq e he, List.findSome?_map]
  exact congrArg₂ _ (funext h) rfl

variable [DecidableEq ι]

/-- Where a sort goes on after a move. -/
theorem nextElement_eq {links : Links ι} {before moved : List ι} {n : ι} (h : links.Spells (before ++ n :: moved)) :
    (if links.first ≠ some n then links.previous n else some n) = (before.getLast?.toList ++ n :: moved).head? := by
  rw [h.first, h.previous before n moved rfl]
  rcases List.eq_nil_or_concat before with rfl | ⟨b, p, rfl⟩
  · exact if_neg (not_not.mpr rfl)
  · have hne : (b.concat p ++ n :: moved).head? ≠ some n := by
      have hnodup := h.nodup
      rw [List.concat_eq_append] at hnodup ⊢
      intro heq
      refine List.disjoint_of_nodup_append hnodup ?_ List.mem_cons_self
      cases b with
      | nil =>
        obtain rfl := Option.some.inj heq
        exact List.mem_cons_self
      | cons x b =>
        obtain rfl := Option.some.inj heq
        exact List.mem_cons_self
    rw [if_pos hne]
    simp

omit [LinearOrder κ] in
/-- A turn of a sort on two elements that are not empty. -/
theorem sortTurn_eq {s : SortState ι P} {c n : ι} (hc : (s.file.data c).isEmpty = false)
    (hn : (s.file.data n).isEmpty = false) (hnext : s.file.links.next c = some n) {orderedLair : Nat → Option ι}
    (hlair : orderedLair = remember (remember s.orderedLair (s.file.data c).placed.toNat c)
      (s.file.data n).placed.toNat n) :
    sortTurn outOfOrder lairs s c =
      if outOfOrder (s.file.data c).placed.toNat (s.file.data n).placed.toNat then
        let moved :=
          match (lairs (s.file.data c).placed.toNat).findSome? orderedLair with
          | some target => s.file.moveBefore c target
          | none => s.file.moveAfter c s.file.links.last
        ⟨moved, if moved.links.first ≠ some n then moved.links.previous n else some n, orderedLair⟩
      else ⟨s.file, some n, orderedLair⟩ := by
  subst hlair
  unfold sortTurn
  simp only [hc, hn, hnext, Bool.false_eq_true, if_false]

theorem Scans.turn (h : Scans O s scan) (hinv : scan.Inv O.levels l) (hstep : step O.levels scan = some scan') :
    ∃ curr, s.currElement = some curr ∧ Scans O (sortTurn outOfOrder lairs s curr) scan' := by
  obtain ⟨before, after, lair⟩ := scan
  have hmem : ∀ e ∈ before ++ after, e ∈ l := fun e he => hinv.perm.mem_iff.mp he
  have hplaced : ∀ e, (s.file.data e).placed.toNat = (file.data e).placed.toNat := fun e => by rw [h.data]
  have hnext := h.chains.spells.next
  cases step_cases hstep with
  | @last c after =>
    cases after
    refine ⟨c, h.curr, ?_⟩
    have hturn : sortTurn outOfOrder lairs s c =
        ⟨s.file, none, remember s.orderedLair (s.file.data c).placed.toNat c⟩ := by
      unfold sortTurn
      simp only [h.chains.nonempty c (by simp [Scan.list]), hnext before c [] rfl, List.head?_nil,
        Bool.false_eq_true, if_false]
    rw [hturn, hplaced]
    exact ⟨by simpa [Scan.list] using h.chains, h.data, rfl, register_eq_remember (hmem c (by simp)) h.lair⟩
  | @forward c n rest after le =>
    cases after
    have hc := hmem c (by simp)
    have hn := hmem n (by simp)
    have hlair := register_eq_remember hn (register_eq_remember hc h.lair)
    refine ⟨c, h.curr, ?_⟩
    have hin : ¬ outOfOrder (file.data c).placed.toNat (file.data n).placed.toNat = true := by
      rw [O.outOfOrder_iff, ← O.level c hc, ← O.level n hn]
      exact le.not_gt
    rw [sortTurn_eq (h.chains.nonempty c (by simp [Scan.list])) (h.chains.nonempty n (by simp [Scan.list]))
      (hnext before c (n :: rest) rfl) rfl, hplaced, hplaced, if_neg hin]
    exact ⟨by simpa [Scan.list] using h.chains, h.data, rfl, hlair⟩
  | @move c n rest after lt =>
    cases after
    have hc := hmem c (by simp)
    have hn := hmem n (by simp)
    have hlair := register_eq_remember hn (register_eq_remember hc h.lair)
    have hout : outOfOrder (file.data c).placed.toNat (file.data n).placed.toNat = true := by
      rw [O.outOfOrder_iff, ← O.level c hc, ← O.level n hn]
      exact lt
    have htarget := target_eq_findSome hc hlair
    refine ⟨c, h.curr, ?_⟩
    rw [sortTurn_eq (h.chains.nonempty c (by simp [Scan.list])) (h.chains.nonempty n (by simp [Scan.list]))
      (hnext before c (n :: rest) rfl) rfl, hplaced, hplaced, if_pos hout, ← htarget]
    have hchains : File.Chains s.file (before ++ c :: (n :: rest)) := h.chains
    dsimp only
    cases ht : target O.levels (register O.levels (register O.levels lair c) n) (O.levels.level c) with
    | none =>
      have hmoved := hchains.moveAfter_end (List.cons_ne_nil n rest)
      have hlist : before ++ n :: rest ++ [c] = before ++ n :: place c none rest := by simp [place]
      rw [hlist] at hmoved
      refine ⟨?_, ?_, nextElement_eq hmoved.spells, hlair⟩
      · rw [list_move]
        exact hmoved
      · rw [File.data_moveAfter]
        exact h.data
    | some t =>
      obtain ⟨rest₁, rest₂, rfl, hfirst⟩ := List.eq_append_cons_of_mem (hinv.target_mem rfl lt ht)
      have hmoved := hchains.moveBefore (w := before ++ n :: rest₁) (t := t) (y := rest₂) (by simp)
      have hlist : before ++ n :: rest₁ ++ c :: t :: rest₂ = before ++ n :: place c (some t) (rest₁ ++ t :: rest₂) := by
        show _ = before ++ n :: placeBefore c t (rest₁ ++ t :: rest₂)
        rw [placeBefore_eq hfirst]
        simp
      rw [hlist] at hmoved
      refine ⟨?_, h.data, nextElement_eq hmoved.spells, hlair⟩
      rw [list_move]
      exact hmoved

omit [LinearOrder κ] in
theorem sortLoop_mono {fuel : Nat} {sorted : File ι P} (h : sortLoop outOfOrder lairs fuel s = some sorted) :
    ∀ fuel' ≥ fuel, sortLoop outOfOrder lairs fuel' s = some sorted := by
  induction fuel generalizing s with
  | zero => cases h
  | succ fuel ih =>
    intro fuel' hfuel
    obtain ⟨fuel', rfl⟩ := Nat.exists_eq_add_of_le' (Nat.lt_of_lt_of_le (Nat.succ_pos fuel) hfuel)
    unfold sortLoop at h ⊢
    split at h
    · exact h
    · exact ih h fuel' (Nat.le_of_succ_le_succ hfuel)

omit [LinearOrder κ] in
theorem sortOneFile_mono {fuel : Nat} {sorted : File ι P} (h : sortOneFile outOfOrder lairs fuel file = some sorted) :
    ∀ fuel' ≥ fuel, sortOneFile outOfOrder lairs fuel' file = some sorted := by
  intro fuel' hfuel
  unfold sortOneFile at h ⊢
  split_ifs at h ⊢
  · exact h
  · exact sortLoop_mono h fuel' hfuel

/-- A file after a sort: it has the same elements and the same counters, and they are in order. -/
structure SortedCopy (file : File ι P) (l : List ι) (r : Nat → Nat → Prop) (sorted : File ι P) : Prop where
  data : sorted.data = file.data
  size : sorted.size = file.size
  bytes : sorted.bytes = file.bytes
  ordered : ∃ l', l'.Perm l ∧ sorted.Chains l' ∧
    l'.Pairwise fun e f => r (file.data e).placed.toNat (file.data f).placed.toNat

omit [LinearOrder κ] [DecidableEq ι] in
theorem SortedCopy.of_chains {r : Nat → Nat → Prop} {sorted : File ι P} {l' : List ι} (h : file.Chains l)
    (hsorted : sorted.Chains l') (hdata : sorted.data = file.data) (hperm : l'.Perm l)
    (hordered : l'.Pairwise fun e f => r (file.data e).placed.toNat (file.data f).placed.toNat) :
    SortedCopy file l r sorted := by
  refine ⟨hdata, ?_, ?_, l', hperm, hsorted, hordered⟩
  · rw [hsorted.size, h.size, hperm.length_eq]
  · rw [hsorted.bytes, h.bytes, hdata]
    exact (hperm.map fun e => (file.data e).len).sum_nat

/-- A sort follows its scan to the end. -/
theorem Scans.exists_end (h : Scans O s scan) (hinv : scan.Inv O.levels l)
    (hrun : Relation.ReflTransGen (fun a b => step O.levels a = some b) scan scan')
    (hend : step O.levels scan' = none) :
    ∃ fuel sorted, sortLoop outOfOrder lairs fuel s = some sorted ∧ sorted.Chains scan'.list ∧ sorted.data = file.data := by
  induction hrun using Relation.ReflTransGen.head_induction_on generalizing s with
  | refl =>
    obtain ⟨hlist, -⟩ := hinv.sorted_of_end hend
    have hafter : scan'.after = [] := List.append_right_eq_self.mp hlist
    have hcurr := h.curr
    rw [hafter, List.head?_nil] at hcurr
    refine ⟨1, s.file, ?_, h.chains, h.data⟩
    unfold sortLoop
    rw [hcurr]
  | head hstep _ ih =>
    obtain ⟨curr, hcurr, hturn⟩ := h.turn hinv hstep
    obtain ⟨fuel, sorted, hloop, hsorted⟩ := ih hturn (inv_step hinv hstep)
    refine ⟨fuel + 1, sorted, ?_, hsorted⟩
    unfold sortLoop
    rw [hcurr]
    exact hloop

variable (O)

/-- A sort ends, with the elements in its order. -/
theorem sortOneFile_spec (h : file.Chains l) : ∃ fuel sorted,
    (∀ fuel' ≥ fuel, sortOneFile outOfOrder lairs fuel' file = some sorted) ∧
      SortedCopy file l (fun a b => O.key a ≤ O.key b) sorted := by
  cases l with
  | nil =>
    refine ⟨0, file, fun fuel' _ => if_pos h.spells.first, .of_chains h h rfl (.refl []) .nil⟩
  | cons e rest =>
    have hfirst : file.links.first = some e := h.spells.first
    have hinv : (⟨[], e :: rest, fun _ => none⟩ : Scan ι κ).Inv O.levels (e :: rest) :=
      ⟨.refl _, h.spells.nodup, List.pairwise_singleton _ _, nofun, nofun⟩
    have hscans : Scans O ⟨file, file.links.first, fun _ => none⟩ ⟨[], e :: rest, fun _ => none⟩ :=
      ⟨h, rfl, hfirst, fun _ => rfl⟩
    obtain ⟨scan', hrun, hend, hinv'⟩ := hinv.exists_end
    obtain ⟨fuel, sorted, hloop, hchains, hdata⟩ := hscans.exists_end hinv hrun hend
    obtain ⟨hlist, hsorted⟩ := hinv'.sorted_of_end hend
    refine ⟨fuel, sorted, fun fuel' hfuel => ?_, .of_chains h hchains hdata hinv'.perm ?_⟩
    · unfold sortOneFile
      rw [if_neg (by rw [hfirst]; exact Option.some_ne_none e)]
      exact sortLoop_mono hloop fuel' hfuel
    · rw [hlist]
      refine hsorted.imp_of_mem fun {a b} ha hb hle => ?_
      have hmem : ∀ x ∈ scan'.before, x ∈ e :: rest := fun x hx => hinv'.perm.mem_iff.mp (hlist ▸ hx)
      rwa [O.level a (hmem a ha), O.level b (hmem b hb)] at hle

end Simulation

/-! ## The two orders -/

section Orders

variable {ι : Type*} {P : Puzzle} {file : File ι P} {l : List ι}

/-- The numbers below a bound that are below another one. -/
theorem filter_lt_range {a n : Nat} (h : a ≤ n) : (List.range n).filter (· < a) = List.range a := by
  obtain ⟨m, rfl⟩ := Nat.exists_eq_add_of_le h
  have hlow : (List.range a).filter (· < a) = List.range a :=
    List.filter_eq_self.mpr fun x hx => decide_eq_true (List.mem_range.mp hx)
  have hhigh : ((List.range m).map (a + ·)).filter (· < a) = [] := by
    refine List.filter_eq_nil_iff.mpr fun x hx => ?_
    obtain ⟨y, -, rfl⟩ := List.mem_map.mp hx
    simp
  rw [List.range_add, List.filter_append, hlow, hhigh, List.append_nil]

variable (hplaced : ∀ e ∈ l, (file.data e).placed.toNat ≤ P.eternParts)

/-- The order of the ascending sort. -/
def ascendingOrder : SortOrder file l (fun currAlloc nextAlloc => decide (currAlloc > nextAlloc))
    (fun currAlloc => (List.range (P.eternParts + 1)).filter (currAlloc < ·)) ℕ where
  levels := {
    level := fun e => min (file.data e).placed.toNat P.eternParts
    marks := List.range (P.eternParts + 1)
    sorted := List.pairwise_lt_range
    top := fun _ => .inl (List.mem_range.mpr (Nat.lt_succ_of_le (Nat.min_le_right _ _))) }
  key := Equiv.refl ℕ
  level e he := Nat.min_eq_left (hplaced e he)
  outOfOrder_iff _ _ := decide_eq_true_iff
  lairs_eq _ _ := List.map_id _

/-- The landmarks of the descending sort, the fullest boards first; the empty board has none. -/
def descendingMarks (P : Puzzle) : List ℕᵒᵈ :=
  (((List.range (P.eternParts + 1)).filter (0 < ·)).reverse).map OrderDual.toDual

theorem descendingMarks_sorted (P : Puzzle) : (descendingMarks P).Pairwise (· < ·) := by
  have hrange : ((List.range (P.eternParts + 1)).filter (0 < ·)).Pairwise (· < ·) :=
    List.pairwise_lt_range.sublist List.filter_sublist
  exact List.pairwise_map.mpr (List.pairwise_reverse.mpr hrange)

theorem mem_descendingMarks {a : Nat} (h : a ≤ P.eternParts) : OrderDual.toDual a ∈ descendingMarks P ↔ 0 < a := by
  unfold descendingMarks
  rw [List.mem_map_of_injective OrderDual.toDual.injective, List.mem_reverse, List.mem_filter, List.mem_range,
    decide_eq_true_iff]
  exact ⟨And.right, fun hpos => ⟨Nat.lt_succ_of_le h, hpos⟩⟩

theorem filter_descendingMarks {a : Nat} (h : a ≤ P.eternParts) :
    (descendingMarks P).filter (OrderDual.toDual a < ·) =
      (((List.range a).filter (0 < ·)).reverse).map OrderDual.toDual := by
  unfold descendingMarks
  rw [List.filter_map, List.filter_reverse, List.filter_filter, ← filter_lt_range (Nat.le_succ_of_le h),
    List.filter_filter]
  refine congrArg (fun l => (List.reverse l).map OrderDual.toDual) (List.filter_congr fun b _ => ?_)
  exact Bool.and_comm ..

/-- The order of the descending sort. -/
def descendingOrder : SortOrder file l (fun currAlloc nextAlloc => decide (currAlloc < nextAlloc))
    (fun currAlloc => ((List.range currAlloc).filter (0 < ·)).reverse) ℕᵒᵈ where
  levels := {
    level := fun e => OrderDual.toDual (min (file.data e).placed.toNat P.eternParts)
    marks := descendingMarks P
    sorted := descendingMarks_sorted P
    top := fun e => by
      rcases Nat.eq_zero_or_pos (min (file.data e).placed.toNat P.eternParts) with hzero | hpos
      · exact .inr fun f => OrderDual.toDual_le_toDual.mpr (hzero ▸ Nat.zero_le _)
      · exact .inl ((mem_descendingMarks (Nat.min_le_right _ _)).mpr hpos) }
  key := OrderDual.toDual
  level e he := congrArg OrderDual.toDual (Nat.min_eq_left (hplaced e he))
  outOfOrder_iff _ _ := decide_eq_true_iff
  lairs_eq e he := (filter_descendingMarks (hplaced e he)).symm

variable [DecidableEq ι]

/-- Both sorts end on every file, and leave its elements in order of their placed pieces. -/
theorem sortOneFile_sorts (h : file.Chains l) (hplaced : ∀ e ∈ l, (file.data e).placed.toNat ≤ P.eternParts) :
    (∃ fuel sorted, (∀ fuel' ≥ fuel, sortOneFileAscending fuel' file = some sorted) ∧
      SortedCopy file l (· ≤ ·) sorted) ∧
    ∃ fuel sorted, (∀ fuel' ≥ fuel, sortOneFileDescending fuel' file = some sorted) ∧
      SortedCopy file l (· ≥ ·) sorted := by
  exact ⟨sortOneFile_spec (ascendingOrder hplaced) h, sortOneFile_spec (descendingOrder hplaced) h⟩

/-- Three packets with two, no and one piece. -/
def threeElements : File ℕ .p16 :=
  (((File.init fun e => .raw ⟨0, 0, fun _ => -2, [2, 0, 1].getD e 0, 0, Words.zero, 0⟩).appendElement 0).appendElement
    1).appendElement 2

theorem threeElements_chains : threeElements.Chains [0, 1, 2] :=
  (((File.init_chains _).appendElement (by decide) rfl).appendElement (by decide) rfl).appendElement (by decide) rfl

theorem sortOneFile_threeElements :
    (∃ fuel sorted, (∀ fuel' ≥ fuel, sortOneFileAscending fuel' threeElements = some sorted) ∧
      SortedCopy threeElements [0, 1, 2] (· ≤ ·) sorted) ∧
    ∃ fuel sorted, (∀ fuel' ≥ fuel, sortOneFileDescending fuel' threeElements = some sorted) ∧
      SortedCopy threeElements [0, 1, 2] (· ≥ ·) sorted :=
  sortOneFile_sorts threeElements_chains (by decide)

end Orders

/-! ## Sorting a list of records -/

section Records

variable {P : Puzzle} {file file' : PoolFile} {descending : Bool} {fuel : Nat}

variable (P) in
/-- A sort on the records of a file, laid out in memory and read back. -/
def sortRecords (descending : Bool) (fuel : Nat) (file : PoolFile) : Option PoolFile :=
  let memory : File ℕ P := File.ofElements (file.map Element.compact)
  let sorted := if descending then sortOneFileDescending fuel memory else sortOneFileAscending fuel memory
  sorted.map fun sorted => (sorted.links.walk sorted.size).filterMap fun i => file[i]?

/-- The number of pieces of a record, as `element_placed` reads it. -/
def recordPlaced (P : Puzzle) (record : List Byte) : Nat := (packetCodecPeekPlaced P record).toNat

/-- The order of a sort. -/
def sortRel (descending : Bool) (a b : Nat) : Prop := if descending then b ≤ a else a ≤ b

/-- A record that the sorts can take. -/
def Sortable (P : Puzzle) (record : List Byte) : Prop := record ≠ [] ∧ recordPlaced P record ≤ P.eternParts

theorem filterMap_getElem_range (l : List (List Byte)) : (List.range l.length).filterMap (l[·]?) = l := by
  have hmap : (List.range l.length).map (l[·]?) = l.map some := by
    refine List.ext_getElem (by simp) fun i h h' => ?_
    rw [List.getElem_map, List.getElem_map, List.getElem_range, List.getElem?_eq_getElem (by simpa using h')]
  have hcompose := congrArg (List.filterMap id) hmap
  rwa [List.filterMap_map, List.filterMap_map, Function.id_comp, Function.id_comp, List.filterMap_some] at hcompose

/-- The memory of a list of records. -/
theorem memory_chains (h : ∀ r ∈ file, Sortable P r) :
    (File.ofElements (file.map Element.compact) : File ℕ P).Chains (List.range file.length) ∧
      ∀ i, (hi : i < file.length) → ((File.ofElements (file.map Element.compact) : File ℕ P).data i).placed.toNat =
        recordPlaced P file[i] := by
  have hempty : ∀ r ∈ file, (Element.compact r : Element P).isEmpty = false := by
    intro r hr
    exact decide_eq_false fun hlen => (h r hr).1 (List.eq_nil_of_length_eq_zero hlen)
  obtain ⟨hchains, hdata⟩ := File.ofElements_chains
    fun e (he : e ∈ file.map (Element.compact (P := P))) => by
      obtain ⟨r, hr, rfl⟩ := List.mem_map.mp he
      exact hempty r hr
  rw [List.length_map] at hchains hdata
  refine ⟨hchains, fun i hi => ?_⟩
  rw [hdata i hi, List.getD_eq_getElem _ _ (by simpa using hi), List.getElem_map, Element.placed,
    if_neg (by rw [hempty _ (List.getElem_mem hi)]; exact Bool.false_ne_true)]
  rfl

/-- What is read back after a sort. -/
theorem sorted_records {r : Nat → Nat → Prop} {sorted : File ℕ P} (h : ∀ r ∈ file, Sortable P r)
    (hsorted : SortedCopy (File.ofElements (file.map Element.compact)) (List.range file.length) r sorted) :
    ((sorted.links.walk sorted.size).filterMap fun i => file[i]?).Perm file ∧
      ((sorted.links.walk sorted.size).filterMap fun i => file[i]?).Pairwise fun a b =>
        r (recordPlaced P a) (recordPlaced P b) := by
  obtain ⟨l', hperm, hchains, hordered⟩ := hsorted.ordered
  obtain ⟨-, hplaced⟩ := memory_chains h
  rw [hchains.size, hchains.spells.walk_eq]
  constructor
  · have hmap := hperm.filterMap (file[·]?)
    rwa [filterMap_getElem_range] at hmap
  · refine List.pairwise_filterMap.mpr (hordered.imp_of_mem fun {i j} hi hj hij a ha b hb => ?_)
    have hi' := List.mem_range.mp (hperm.mem_iff.mp hi)
    have hj' := List.mem_range.mp (hperm.mem_iff.mp hj)
    rw [hplaced i hi', hplaced j hj'] at hij
    rw [List.getElem?_eq_getElem hi'] at ha
    rw [List.getElem?_eq_getElem hj'] at hb
    cases ha
    cases hb
    exact hij

/-- A sort on records ends, and leaves them in its order. -/
theorem exists_sortRecords (descending : Bool) (h : ∀ r ∈ file, Sortable P r) :
    ∃ fuel file', (∀ fuel' ≥ fuel, sortRecords P descending fuel' file = some file') ∧ file'.Perm file ∧
      file'.Pairwise fun r r' => sortRel descending (recordPlaced P r) (recordPlaced P r') := by
  obtain ⟨hchains, hplaced⟩ := memory_chains h
  have hle : ∀ i ∈ List.range file.length,
      ((File.ofElements (file.map Element.compact) : File ℕ P).data i).placed.toNat ≤ P.eternParts := by
    intro i hi
    rw [hplaced i (List.mem_range.mp hi)]
    exact (h _ (List.getElem_mem _)).2
  cases descending with
  | false =>
    obtain ⟨fuel, sorted, hfuel, hsorted⟩ := sortOneFile_spec (ascendingOrder hle) hchains
    exact ⟨fuel, _, fun fuel' hle => congrArg (Option.map _) (hfuel fuel' hle), sorted_records h hsorted⟩
  | true =>
    obtain ⟨fuel, sorted, hfuel, hsorted⟩ := sortOneFile_spec (descendingOrder hle) hchains
    exact ⟨fuel, _, fun fuel' hle => congrArg (Option.map _) (hfuel fuel' hle), sorted_records h hsorted⟩

theorem sortRecords_mono (h : sortRecords P descending fuel file = some file') :
    ∀ fuel' ≥ fuel, sortRecords P descending fuel' file = some file' := by
  intro fuel' hfuel
  unfold sortRecords at h ⊢
  obtain ⟨sorted, hsort, rfl⟩ := Option.map_eq_some_iff.mp h
  refine Option.map_eq_some_iff.mpr ⟨sorted, ?_, rfl⟩
  cases descending with
  | false => exact sortOneFile_mono hsort fuel' hfuel
  | true => exact sortOneFile_mono hsort fuel' hfuel

theorem sortRecords_spec (hfile : ∀ r ∈ file, Sortable P r) (h : sortRecords P descending fuel file = some file') :
    file'.Perm file ∧ file'.Pairwise fun r r' => sortRel descending (recordPlaced P r) (recordPlaced P r') := by
  obtain ⟨fuel₀, file₀, hfuel, hspec⟩ := exists_sortRecords descending hfile
  have hmax := hfuel (max fuel fuel₀) (Nat.le_max_right ..)
  rw [sortRecords_mono h (max fuel fuel₀) (Nat.le_max_left ..)] at hmax
  obtain rfl := Option.some.inj hmax
  exact hspec

end Records
