-- SUMMARY: The duplicate check: how its threads share the pairs, and when its verdict is right.
import EternityII.Stock.CheckOrigin

/-!
# Looking for duplicates

`check_duplicate` takes the files of the two pools for one sequence of elements. Each of its threads
starts at an element and compares it, then the following ones, with every element behind, until it
has compared more pairs than its share. The start of the next thread comes from an estimate of the
pairs of the elements passed over.
-/

/-! ## The virtual sequence -/

/-- The files of the two pools. -/
structure DuplicateStock where
  nbFilePossibility : Nat
  filePossibility : Nat → PoolFile
  filePossibilityChecked : Nat → PoolFile

/-- A place in the sequence: a file, a position, and the element as its rank in the file. -/
structure DuplicateCursor where
  fp : Nat
  position : Nat
  currElement : Option Nat

/-- `start` of a file. -/
def fileStart (file : PoolFile) : Option Nat := if file = [] then none else some 0

/-- `next` of an element. -/
def fileNext (file : PoolFile) (i : Nat) : Option Nat := if i + 1 < file.length then some (i + 1) else none

namespace DuplicateStock

variable (s : DuplicateStock)

/-- `totalFiles`. -/
def totalFiles : Nat := 2 * s.nbFilePossibility

/-- `duplicate_pool_at`. -/
def duplicatePoolAt (vidx : Nat) : PoolFile :=
  if vidx < s.nbFilePossibility then s.filePossibility vidx
  else s.filePossibilityChecked (vidx - s.nbFilePossibility)

/-- The `while` loop of `duplicate_pool_skip_empty`, on the `n` last files. -/
def skipEmpty : Nat → Nat → Nat × Option Nat
  | 0, fp => (fp, none)
  | n + 1, fp =>
    if fileStart (s.duplicatePoolAt fp) = none then skipEmpty n (fp + 1)
    else (fp, fileStart (s.duplicatePoolAt fp))

/-- `duplicate_pool_skip_empty`: the file it stops at and the element it returns. -/
def duplicatePoolSkipEmpty (fp : Nat) : Nat × Option Nat := s.skipEmpty (s.totalFiles - fp) fp

/-- The elements of the sequence. -/
def elements : PoolFile := (List.range s.totalFiles).flatMap s.duplicatePoolAt

/-- `dataSize`. -/
def dataSize : Nat := ((List.range s.totalFiles).map fun f => (s.duplicatePoolAt f).length).sum

end DuplicateStock

/-! ## The threads -/

section Check

variable (P : Puzzle) (s : DuplicateStock)

/-- The two tests of a pair, the second one when the first fails. -/
def isDuplicatePair (currElement elementToCompare : List Byte) : Bool :=
  elementEqualsElement P currElement elementToCompare || elementHasOriginElement P currElement elementToCompare

/-- `duplicateCount`, `duplicateErrors` and `duplicateAnalyzed` of a thread. -/
structure DuplicateCounts where
  count : Nat
  errors : Nat
  analyzed : Nat

/-- The elements that a thread compares with the element `i` of the file `fp`: those behind it in its
file, then those of the files from there on. None of them is the element itself. -/
def toCompare (fp i : Nat) : PoolFile :=
  (s.duplicatePoolAt fp).drop (i + 1) ++ (List.range' (fp + 1) (s.totalFiles - (fp + 1))).flatMap s.duplicatePoolAt

/-- The place after an element, in `check_duplicate_thread`. -/
def DuplicateCursor.forward (c : DuplicateCursor) (i : Nat) : DuplicateCursor :=
  if c.position + 1 ≥ (s.duplicatePoolAt c.fp).length then
    let (fp, start) := s.duplicatePoolSkipEmpty (c.fp + 1)
    ⟨fp, 0, start⟩
  else ⟨c.fp, c.position + 1, fileNext (s.duplicatePoolAt c.fp) i⟩

/-- `check_duplicate_thread`, `none` when it does not end within the fuel. -/
def checkDuplicateThread (nbCombinations : Nat) : Nat → DuplicateCursor → DuplicateCounts → Option DuplicateCounts
  | 0, _, _ => none
  | fuel + 1, c, d =>
    match c.currElement with
    | none => some d
    | some i =>
      if d.analyzed ≤ nbCombinations then
        let compared := toCompare s c.fp i
        checkDuplicateThread nbCombinations fuel (c.forward s i)
          ⟨d.count + 1, d.errors + compared.countP (isDuplicatePair P ((s.duplicatePoolAt c.fp).getD i [])),
            d.analyzed + compared.length⟩
      else some d

/-- `count_combinations`. -/
def countCombinations (x : Nat) : Nat := ((List.range (x - 1)).map fun i => x - 1 - i).sum

/-- `nbDuplicateThread`. -/
def nbDuplicateThread : Nat := 8

/-- `nbByThread`. -/
def nbByThread : Nat := countCombinations s.dataSize / nbDuplicateThread

/-- The loop of `check_duplicate` that looks for the start of the next thread: the place, `remains` and
`allocatedToThread`. -/
def allocateLoop : Nat → DuplicateCursor → Nat → Nat → Option (DuplicateCursor × Nat × Nat)
  | 0, _, _, _ => none
  | fuel + 1, c, remains, allocatedToThread =>
    match c.currElement with
    | none => some (c, remains, allocatedToThread)
    | some i =>
      if allocatedToThread < nbByThread s then
        let remains := remains - 1
        let allocatedToThread := allocatedToThread + remains
        if c.position + 1 > (s.duplicatePoolAt c.fp).length then
          let (fp, start) := s.duplicatePoolSkipEmpty (c.fp + 1)
          match start with
          | none => some (⟨fp, 0, none⟩, remains, allocatedToThread)
          | some j => allocateLoop fuel ⟨fp, 0, some j⟩ remains allocatedToThread
        else allocateLoop fuel ⟨c.fp, c.position + 1, fileNext (s.duplicatePoolAt c.fp) i⟩ remains allocatedToThread
      else some (c, remains, allocatedToThread)

/-- `arg_duplicate_thread`. -/
structure DuplicateArgs where
  cursor : DuplicateCursor
  nbCombinations : Nat
  threadPosition : Nat

/-- The `last` of a thread. -/
def duplicateLast (t allocated : Nat) : Nat :=
  if t = nbDuplicateThread - 1 then countCombinations s.dataSize - allocated else nbByThread s

/-- The loop of `check_duplicate` over the threads, of which `n` are left. -/
def spawnLoop (fuel : Nat) : Nat → Nat → DuplicateCursor → Nat → Nat → Option (List DuplicateArgs)
  | 0, _, _, _, _ => some []
  | n + 1, t, c, remains, allocated =>
    if c.fp < s.totalFiles ∧ allocated < countCombinations s.dataSize then
      let args : DuplicateArgs := ⟨c, duplicateLast s t allocated, t⟩
      if t < nbDuplicateThread - 1 then
        (allocateLoop s fuel c remains (remains - 1)).bind fun next =>
          (spawnLoop fuel n (t + 1) next.1 next.2.1 (allocated + next.2.2)).map (args :: ·)
      else (spawnLoop fuel n (t + 1) c remains allocated).map (args :: ·)
    else some []

/-- The sum of the errors of the threads; a thread that cannot be created has none. -/
def sumErrors (created : Nat → Bool) (fuel : Nat) : List DuplicateArgs → Option Nat
  | [] => some 0
  | args :: threads =>
    (if created args.threadPosition then
        (checkDuplicateThread P s args.nbCombinations fuel args.cursor ⟨0, 0, 0⟩).map (·.errors)
      else some 0).bind fun errors =>
      (sumErrors created fuel threads).map (errors + ·)

/-- `check_duplicate`; `created` says which threads can be created. -/
def checkDuplicate (created : Nat → Bool) (fuel : Nat) : Option Int :=
  let (fp, currElement) := s.duplicatePoolSkipEmpty 0
  (spawnLoop s fuel nbDuplicateThread 0 ⟨fp, 0, currElement⟩ s.dataSize 0).bind fun threads =>
    (sumErrors P s created fuel threads).map fun errors => if errors > 0 then -1 else 0

end Check

/-! ## Places -/

namespace DuplicateStock

variable {s : DuplicateStock} {c : DuplicateCursor} {f fp k i : Nat}

/-- The number of elements before a file. -/
def offset (s : DuplicateStock) (f : Nat) : Nat := ((List.range f).flatMap s.duplicatePoolAt).length

theorem offset_succ (f : Nat) : s.offset (f + 1) = s.offset f + (s.duplicatePoolAt f).length := by
  unfold offset
  rw [List.range_succ, List.flatMap_append, List.length_append, List.flatMap_singleton]

theorem offset_mono {g : Nat} (h : f ≤ g) : s.offset f ≤ s.offset g := by
  induction g, h using Nat.le_induction with
  | base => exact le_rfl
  | succ g _ ih => exact ih.trans (offset_succ (s := s) g ▸ Nat.le_add_right _ _)

theorem dataSize_eq : s.dataSize = s.elements.length := by
  unfold dataSize elements
  rw [List.length_flatMap]

theorem offset_totalFiles : s.offset s.totalFiles = s.elements.length := rfl

/-- The sequence up to a file, and from there on. -/
theorem elements_eq (h : f ≤ s.totalFiles) : s.elements = (List.range f).flatMap s.duplicatePoolAt ++
    (List.range' f (s.totalFiles - f)).flatMap s.duplicatePoolAt := by
  have hrange : List.range s.totalFiles = List.range f ++ List.range' f (s.totalFiles - f) := by
    have happend := List.range'_append_1 (s := 0) (m := f) (n := s.totalFiles - f)
    rw [Nat.zero_add, Nat.add_sub_cancel' h] at happend
    rw [List.range_eq_range', List.range_eq_range', happend]
  rw [elements, hrange, List.flatMap_append]

theorem drop_offset (h : f ≤ s.totalFiles) :
    s.elements.drop (s.offset f) = (List.range' f (s.totalFiles - f)).flatMap s.duplicatePoolAt := by
  rw [elements_eq h]
  exact List.drop_left

/-- The cursor is at the element `k` of the sequence. -/
structure At (s : DuplicateStock) (c : DuplicateCursor) (k : Nat) : Prop where
  fp_lt : c.fp < s.totalFiles
  currElement : c.currElement = some c.position
  position_lt : c.position < (s.duplicatePoolAt c.fp).length
  index : k = s.offset c.fp + c.position

/-- The cursor is at the element `k`, or behind the last one. -/
def Reaches (s : DuplicateStock) (c : DuplicateCursor) (k : Nat) : Prop :=
  s.At c k ∨ c.currElement = none ∧ k = s.elements.length

theorem At.drop (h : s.At c k) : s.elements.drop k =
    (s.duplicatePoolAt c.fp).drop c.position ++
      (List.range' (c.fp + 1) (s.totalFiles - (c.fp + 1))).flatMap s.duplicatePoolAt := by
  have hfiles : s.totalFiles - c.fp = (s.totalFiles - (c.fp + 1)) + 1 := by have := h.fp_lt; omega
  rw [h.index, ← List.drop_drop, drop_offset h.fp_lt.le, hfiles, List.range'_succ, List.flatMap_cons,
    List.drop_append_of_le_length h.position_lt.le]

/-- The element of the cursor and those it is compared with are the end of the sequence. -/
theorem At.drop_cons (h : s.At c k) : s.elements.drop k =
    (s.duplicatePoolAt c.fp).getD c.position [] :: toCompare s c.fp c.position := by
  rw [h.drop, List.drop_eq_getElem_cons h.position_lt, List.getD_eq_getElem _ _ h.position_lt]
  rfl

theorem At.lt (h : s.At c k) : k < s.elements.length := by
  by_contra hle
  have hdrop := h.drop_cons
  rw [List.drop_eq_nil_of_le (Nat.le_of_not_lt hle)] at hdrop
  cases hdrop

theorem At.toCompare_eq (h : s.At c k) : toCompare s c.fp c.position = s.elements.drop (k + 1) := by
  rw [← List.drop_drop, h.drop_cons]
  rfl

/-- The files that are jumped over are empty. -/
theorem reaches_skipEmpty {n : Nat} (h : fp + n = s.totalFiles) :
    s.Reaches ⟨(s.skipEmpty n fp).1, 0, (s.skipEmpty n fp).2⟩ (s.offset fp) := by
  induction n generalizing fp with
  | zero =>
    obtain rfl : fp = s.totalFiles := h
    exact .inr ⟨rfl, offset_totalFiles⟩
  | succ n ih =>
    unfold skipEmpty
    by_cases hempty : s.duplicatePoolAt fp = []
    · have hstart : fileStart (s.duplicatePoolAt fp) = none := if_pos hempty
      rw [if_pos hstart]
      have hoffset : s.offset (fp + 1) = s.offset fp := by rw [offset_succ, hempty, List.length_nil, Nat.add_zero]
      rw [← hoffset]
      exact ih (by omega)
    · have hstart : fileStart (s.duplicatePoolAt fp) = some 0 := if_neg hempty
      rw [hstart, if_neg (by simp)]
      exact .inl ⟨by show fp < _; omega, rfl, List.length_pos_iff.mpr hempty, rfl⟩

theorem reaches_duplicatePoolSkipEmpty (h : fp ≤ s.totalFiles) :
    s.Reaches ⟨(s.duplicatePoolSkipEmpty fp).1, 0, (s.duplicatePoolSkipEmpty fp).2⟩ (s.offset fp) :=
  reaches_skipEmpty (by omega)

/-- A thread goes from an element to the next one. -/
theorem At.forward (h : s.At c k) : s.Reaches (c.forward s c.position) (k + 1) := by
  unfold DuplicateCursor.forward
  split
  · rename_i hlast
    have hoffset : s.offset (c.fp + 1) = k + 1 := by
      rw [offset_succ, h.index]
      have := h.position_lt
      omega
    rw [← hoffset]
    exact reaches_duplicatePoolSkipEmpty h.fp_lt
  · rename_i hinside
    have hlt : c.position + 1 < (s.duplicatePoolAt c.fp).length := by omega
    exact .inl ⟨h.fp_lt, if_pos hlt, hlt, by rw [h.index]; rfl⟩

end DuplicateStock

/-! ## What a thread compares -/

/-- The number of pairs whose first element is one of the `i` first of `n` elements. -/
def pairsOfFirst (n : Nat) : Nat → Nat
  | 0 => 0
  | i + 1 => pairsOfFirst n i + (n - 1 - i)

theorem pairsOfFirst_succ_succ (n i : Nat) : pairsOfFirst (n + 1) (i + 1) = n + pairsOfFirst n i := by
  induction i with
  | zero => simp [pairsOfFirst]
  | succ i ih =>
    rw [pairsOfFirst, ih, pairsOfFirst, Nat.add_assoc]
    congr 2
    omega

theorem pairsOfFirst_mono {n i j : Nat} (h : i ≤ j) : pairsOfFirst n i ≤ pairsOfFirst n j := by
  induction j, h using Nat.le_induction with
  | base => exact le_rfl
  | succ j _ ih => exact ih.trans (Nat.le_add_right _ _)

section Thread

variable {P : Puzzle} {s : DuplicateStock} {c : DuplicateCursor} {d : DuplicateCounts} {k fuel nbCombinations analyzed : Nat}

variable (P) in
/-- The errors of a thread on the end of a sequence: it goes on while it has not compared more pairs
than its share. -/
def threadErrors (nbCombinations : Nat) : Nat → PoolFile → Nat
  | _, [] => 0
  | analyzed, e :: rest =>
    if analyzed ≤ nbCombinations then
      rest.countP (isDuplicatePair P e) + threadErrors nbCombinations (analyzed + rest.length) rest
    else 0

variable (P nbCombinations d) in
theorem checkDuplicateThread_spec (h : s.Reaches c k) (hfuel : s.elements.length - k < fuel) :
    ∃ d', checkDuplicateThread P s nbCombinations fuel c d = some d' ∧
      d'.errors = d.errors + threadErrors P nbCombinations d.analyzed (s.elements.drop k) := by
  induction fuel generalizing c d k with
  | zero => exact absurd hfuel (Nat.not_lt_zero _)
  | succ fuel ih =>
    unfold checkDuplicateThread
    rcases h with h | ⟨hnone, rfl⟩
    · rw [h.currElement, h.drop_cons]
      dsimp only [threadErrors]
      have hlt := h.lt
      split
      · obtain ⟨d', hrun, herrors⟩ := ih (d := ⟨d.count + 1, d.errors + (toCompare s c.fp c.position).countP
            (isDuplicatePair P ((s.duplicatePoolAt c.fp).getD c.position [])),
          d.analyzed + (toCompare s c.fp c.position).length⟩) h.forward (by omega)
        refine ⟨d', hrun, ?_⟩
        rw [herrors, ← h.toCompare_eq, Nat.add_assoc]
      · exact ⟨d, rfl, rfl⟩
    · rw [hnone, List.drop_length]
      exact ⟨d, rfl, rfl⟩

/-- A thread finds an error when one of the elements that it takes up makes a pair with one behind. -/
theorem threadErrors_pos_iff {l : PoolFile} : 0 < threadErrors P nbCombinations analyzed l ↔
    ∃ i j a b, i < j ∧ l[i]? = some a ∧ l[j]? = some b ∧ analyzed + pairsOfFirst l.length i ≤ nbCombinations ∧
      isDuplicatePair P a b = true := by
  induction l generalizing analyzed with
  | nil => simp [threadErrors]
  | cons e rest ih =>
    unfold threadErrors
    split
    · rename_i hle
      rw [Nat.add_pos_iff_pos_or_pos, ih, List.countP_pos_iff]
      constructor
      · rintro (⟨b, hb, hpair⟩ | ⟨i, j, a, b, hlt, ha, hb, hshare, hpair⟩)
        · obtain ⟨j, hj⟩ := List.mem_iff_getElem?.mp hb
          exact ⟨0, j + 1, e, b, Nat.succ_pos j, rfl, hj, hle, hpair⟩
        · refine ⟨i + 1, j + 1, a, b, Nat.succ_lt_succ hlt, ha, hb, ?_, hpair⟩
          rwa [List.length_cons, pairsOfFirst_succ_succ, ← Nat.add_assoc]
      · rintro ⟨i, j, a, b, hlt, ha, hb, hshare, hpair⟩
        obtain ⟨j, rfl⟩ := Nat.exists_eq_succ_of_ne_zero (Nat.ne_of_gt (Nat.zero_lt_of_lt hlt))
        cases i with
        | zero =>
          cases ha
          exact .inl ⟨b, List.mem_iff_getElem?.mpr ⟨j, hb⟩, hpair⟩
        | succ i =>
          rw [List.length_cons, pairsOfFirst_succ_succ, ← Nat.add_assoc] at hshare
          exact .inr ⟨i, j, a, b, Nat.lt_of_succ_lt_succ hlt, ha, hb, hshare, hpair⟩
    · rename_i hgt
      refine iff_of_false (Nat.lt_irrefl 0) ?_
      rintro ⟨i, j, a, b, -, -, -, hshare, -⟩
      exact hgt ((Nat.le_add_right ..).trans hshare)

end Thread

/-! ## The shares -/

section Shares

/-- The estimate of the pairs that a thread has from the element `k` up to the element `k'`: those of
the elements before `k'`, and once more those of the first one. -/
def DuplicateStock.estimate (s : DuplicateStock) (k k' : Nat) : Nat :=
  s.elements.length - 1 - k + pairsOfFirst (s.elements.length - k) (k' - k)

/-- The thread `t` starts at the element `k` when `a` pairs are allocated: the first thread at the
first element, and the next one at the first element up to which the estimate makes a share, if
that is before the end of the file. -/
inductive Share (s : DuplicateStock) : Nat → Nat → Nat → Prop
  | first (nonempty : s.elements ≠ []) : Share s 0 0 0
  | next {t k a k' : Nat} (share : Share s t k a) (le : k ≤ k') (file : ∃ f, s.offset f ≤ k ∧ k' < s.offset (f + 1))
      (enough : nbByThread s ≤ s.estimate k k') (least : ∀ i, k ≤ i → i < k' → s.estimate k i < nbByThread s) :
      Share s (t + 1) k' (a + s.estimate k k')

variable {s : DuplicateStock} {c : DuplicateCursor} {t t' k k' a a' fuel : Nat}

theorem Share.unique (h : Share s t k a) (h' : Share s t k' a') : k = k' ∧ a = a' := by
  induction h generalizing k' a' with
  | first => cases h' with | first => exact ⟨rfl, rfl⟩
  | @next t k₀ a₀ k₁ _ le file enough least ih =>
    cases h' with
    | next share' le' file' enough' least' =>
      obtain ⟨rfl, rfl⟩ := ih share'
      have heq : k₁ = k' := by
        rcases Nat.lt_trichotomy k₁ k' with hlt | heq | hlt
        · exact absurd enough (Nat.not_le_of_lt (least' k₁ le hlt))
        · exact heq
        · exact absurd enough' (Nat.not_le_of_lt (least k' le' hlt))
      exact ⟨heq, by rw [heq]⟩

/-- The allocation grows from thread to thread. -/
theorem Share.allocated_le (h' : Share s t' k' a') (hle : t ≤ t') : ∃ k a, Share s t k a ∧ a ≤ a' := by
  induction h' with
  | first nonempty =>
    obtain rfl := Nat.le_zero.mp hle
    exact ⟨0, 0, .first nonempty, le_rfl⟩
  | next share le file enough least ih =>
    rcases Nat.le_succ_iff.mp hle with hle | rfl
    · obtain ⟨k, a, hshare, ha⟩ := ih hle
      exact ⟨k, a, hshare, ha.trans (Nat.le_add_right ..)⟩
    · exact ⟨_, _, .next share le file enough least, le_rfl⟩

theorem DuplicateStock.estimate_succ {m : Nat} (hk : k ≤ m) (hm : m < s.elements.length) :
    s.estimate k (m + 1) = s.estimate k m + (s.elements.length - m - 1) := by
  unfold estimate
  rw [Nat.succ_sub hk, pairsOfFirst]
  omega

/-- The look for the next start stays in its file, and gives up behind the last element. -/
theorem allocateLoop_spec {m : Nat} (h : s.At c m) (hk : k ≤ m) (hfuel : s.elements.length - m < fuel)
    (hbelow : ∀ i, k ≤ i → i < m → s.estimate k i < nbByThread s) :
    ∃ next, allocateLoop s fuel c (s.elements.length - m) (s.estimate k m) = some next ∧
      ((∃ m', k ≤ m' ∧ s.At next.1 m' ∧ next.1.fp = c.fp ∧ next.2 = (s.elements.length - m', s.estimate k m') ∧
          nbByThread s ≤ s.estimate k m' ∧ ∀ i, k ≤ i → i < m' → s.estimate k i < nbByThread s) ∨
        next.1.currElement = none ∧ ∀ i, k ≤ i → i < s.offset (c.fp + 1) → s.estimate k i < nbByThread s) := by
  induction fuel generalizing c m with
  | zero => exact absurd hfuel (Nat.not_lt_zero _)
  | succ fuel ih =>
    unfold allocateLoop
    rw [h.currElement]
    dsimp only
    split
    · rename_i hless
      have hposition := h.position_lt
      have hlt := h.lt
      rw [if_neg (by omega), ← DuplicateStock.estimate_succ hk hlt, Nat.sub_sub]
      have hbelow' : ∀ i, k ≤ i → i < m + 1 → s.estimate k i < nbByThread s := by
        intro i hi him
        rcases Nat.lt_succ_iff_lt_or_eq.mp him with him | rfl
        · exact hbelow i hi him
        · exact hless
      by_cases hinside : c.position + 1 < (s.duplicatePoolAt c.fp).length
      · have hnext : fileNext (s.duplicatePoolAt c.fp) c.position = some (c.position + 1) := if_pos hinside
        rw [hnext]
        exact ih (c := ⟨c.fp, c.position + 1, some (c.position + 1)⟩) ⟨h.fp_lt, rfl, hinside, by rw [h.index]; rfl⟩
          (Nat.le_succ_of_le hk) (by omega) hbelow'
      · have hnext : fileNext (s.duplicatePoolAt c.fp) c.position = none := if_neg hinside
        obtain ⟨fuel, rfl⟩ := Nat.exists_eq_succ_of_ne_zero (show fuel ≠ 0 by omega)
        rw [hnext]
        refine ⟨_, rfl, .inr ⟨rfl, fun i hi hend => hbelow' i hi ?_⟩⟩
        rw [DuplicateStock.offset_succ] at hend
        have := h.index
        omega
    · rename_i henough
      exact ⟨_, rfl, .inl ⟨m, hk, h, rfl, rfl, Nat.le_of_not_lt henough, hbelow⟩⟩

/-- The loop over the threads is at the thread `t`: at its start, or past the end of a file with no
start left. -/
def SpawnAt (s : DuplicateStock) (t : Nat) (c : DuplicateCursor) (remains allocated : Nat) : Prop :=
  (∃ k, s.At c k ∧ Share s t k allocated ∧ remains = s.elements.length - k) ∨
    c.currElement = none ∧ ∀ k a, ¬ Share s t k a

/-- The next thread. -/
theorem spawnAt_next {remains allocated : Nat} (h : SpawnAt s t c remains allocated) (hfuel : s.elements.length < fuel) :
    ∃ next, allocateLoop s fuel c remains (remains - 1) = some next ∧
      SpawnAt s (t + 1) next.1 next.2.1 (allocated + next.2.2) := by
  rcases h with ⟨k, hat, hshare, rfl⟩ | ⟨hnone, hno⟩
  · have hstart : s.estimate k k = s.elements.length - k - 1 := by
      unfold DuplicateStock.estimate
      rw [Nat.sub_self, pairsOfFirst]
      omega
    rw [← hstart]
    obtain ⟨next, hrun, hnext⟩ := allocateLoop_spec (k := k) hat le_rfl
      (show s.elements.length - k < fuel by omega) fun i hi hik => absurd hik (Nat.not_lt_of_le hi)
    refine ⟨next, hrun, ?_⟩
    have hbefore : s.offset c.fp ≤ k := hat.index ▸ Nat.le_add_right _ _
    have hbehind : k < s.offset (c.fp + 1) := by
      rw [DuplicateStock.offset_succ]
      have := hat.index
      have := hat.position_lt
      omega
    rcases hnext with ⟨m, hle, hat', hfp, hsnd, henough, hleast⟩ | ⟨hnone, hleast⟩
    · rw [hsnd]
      refine .inl ⟨m, hat', hshare.next hle ⟨c.fp, hbefore, ?_⟩ henough hleast, rfl⟩
      rw [DuplicateStock.offset_succ, ← hfp]
      have := hat'.index
      have := hat'.position_lt
      rw [hfp] at *
      omega
    · refine .inr ⟨hnone, fun k' a' hshare' => ?_⟩
      cases hshare' with
      | next share le file enough least =>
        obtain ⟨rfl, -⟩ := share.unique hshare
        obtain ⟨f, hf, hf'⟩ := file
        have hfile : f ≤ c.fp := Nat.le_of_not_lt fun hlt => by
          have hmono : s.offset (c.fp + 1) ≤ s.offset f := DuplicateStock.offset_mono hlt
          omega
        have hmono : s.offset (f + 1) ≤ s.offset (c.fp + 1) := DuplicateStock.offset_mono (Nat.succ_le_succ hfile)
        exact absurd enough (Nat.not_le_of_lt (hleast k' le (by omega)))
  · obtain ⟨fuel, rfl⟩ := Nat.exists_eq_succ_of_ne_zero (Nat.ne_of_gt (Nat.zero_lt_of_lt hfuel))
    unfold allocateLoop
    rw [hnone]
    refine ⟨_, rfl, .inr ⟨hnone, fun k a hshare => ?_⟩⟩
    cases hshare with
    | next share => exact hno _ _ share

theorem pairsOfFirst_add (n k i : Nat) : pairsOfFirst n (k + i) = pairsOfFirst n k + pairsOfFirst (n - k) i := by
  induction i with
  | zero => rfl
  | succ i ih =>
    rw [← Nat.add_assoc, pairsOfFirst, ih, pairsOfFirst, Nat.add_assoc]
    congr 2
    omega

theorem countCombinations_eq (n : Nat) : countCombinations n = pairsOfFirst n (n - 1) := by
  have hsum : ∀ i, ((List.range i).map fun m => n - 1 - m).sum = pairsOfFirst n i := by
    intro i
    induction i with
    | zero => rfl
    | succ i ih => rw [List.range_succ, List.map_append, List.sum_append, ih, List.map_singleton, List.sum_singleton]; rfl
  exact hsum (n - 1)

/-- The pairs before the start of a thread are at most its share for each thread before it. -/
theorem Share.pairs_le (h : Share s t k a) : pairsOfFirst s.elements.length k ≤ t * nbByThread s := by
  induction h with
  | first => exact Nat.zero_le _
  | @next t k a k' share le file enough least ih =>
    rw [Nat.succ_mul, ← Nat.add_sub_cancel' le, pairsOfFirst_add]
    refine Nat.add_le_add ih ?_
    rcases Nat.eq_or_lt_of_le le with rfl | hlt
    · rw [Nat.sub_self]
      exact Nat.zero_le _
    · have hbefore := least (k' - 1) (Nat.le_sub_one_of_lt hlt) (Nat.sub_one_lt_of_lt hlt)
      have hlast : k' - k = k' - 1 - k + 1 := by omega
      unfold DuplicateStock.estimate at hbefore
      rw [hlast, pairsOfFirst]
      omega

/-- After the first thread, the estimates count the pairs of the first element twice. -/
theorem Share.allocated_ge (h : Share s t k a) :
    t = 0 ∧ k = 0 ∧ a = 0 ∨ pairsOfFirst s.elements.length k + (s.elements.length - 1) ≤ a := by
  induction h with
  | first => exact .inl ⟨rfl, rfl, rfl⟩
  | @next t k a k' share le file enough least ih =>
    refine .inr ?_
    obtain ⟨d, rfl⟩ := Nat.exists_eq_add_of_le le
    unfold DuplicateStock.estimate
    rw [pairsOfFirst_add, Nat.add_sub_cancel_left]
    rcases ih with ⟨rfl, rfl, rfl⟩ | hge
    · rw [pairsOfFirst]
      omega
    · omega

/-- What the loop over the threads starts: a thread for every share that is still to be allocated,
and threads without an element. -/
theorem spawnLoop_spec {n remains allocated : Nat} (h : SpawnAt s t c remains allocated) (ht : t + n = nbDuplicateThread)
    (hfuel : s.elements.length < fuel) :
    ∃ threads, spawnLoop s fuel n t c remains allocated = some threads ∧
      (∀ args ∈ threads, args.cursor.currElement = none ∨ ∃ k a, s.At args.cursor k ∧ Share s args.threadPosition k a ∧
        args.threadPosition < nbDuplicateThread ∧ a < countCombinations s.dataSize ∧
        args.nbCombinations = duplicateLast s args.threadPosition a) ∧
      ∀ t' k a, t ≤ t' → t' < nbDuplicateThread → Share s t' k a → a < countCombinations s.dataSize →
        ∃ args ∈ threads, args.threadPosition = t' ∧ s.At args.cursor k ∧ args.nbCombinations = duplicateLast s t' a := by
  induction n generalizing t c remains allocated with
  | zero => exact ⟨[], rfl, nofun, fun t' k a hle hlt => absurd hlt (by omega)⟩
  | succ n ih =>
    unfold spawnLoop
    split
    · rename_i hstart
      -- The thread that is started.
      have hfirst : ∀ args : DuplicateArgs, args = ⟨c, duplicateLast s t allocated, t⟩ →
          args.cursor.currElement = none ∨ ∃ k a, s.At args.cursor k ∧ Share s args.threadPosition k a ∧
            args.threadPosition < nbDuplicateThread ∧ a < countCombinations s.dataSize ∧
            args.nbCombinations = duplicateLast s args.threadPosition a := by
        rintro args rfl
        rcases h with ⟨k, hat, hshare, -⟩ | ⟨hnone, -⟩
        · exact .inr ⟨k, allocated, hat, hshare, by show t < _; omega, hstart.2, rfl⟩
        · exact .inl hnone
      have hown : ∀ k a, Share s t k a → s.At c k ∧ a = allocated := by
        intro k a hshare
        rcases h with ⟨k', hat, hshare', -⟩ | ⟨-, hno⟩
        · obtain ⟨rfl, rfl⟩ := hshare.unique hshare'
          exact ⟨hat, rfl⟩
        · exact absurd hshare (hno k a)
      split
      · obtain ⟨next, halloc, hnext⟩ := spawnAt_next h hfuel
        obtain ⟨threads, hspawn, hthreads, hall⟩ := ih hnext (by omega)
        refine ⟨⟨c, duplicateLast s t allocated, t⟩ :: threads, ?_, fun args hargs => ?_, fun t' k a hle hlt hshare ha => ?_⟩
        · dsimp only
          rw [halloc, Option.bind_some, hspawn, Option.map_some]
        · rcases List.mem_cons.mp hargs with heq | hargs
          · exact hfirst args heq
          · exact hthreads args hargs
        · rcases Nat.eq_or_lt_of_le hle with rfl | hlt'
          · obtain ⟨hat, rfl⟩ := hown k a hshare
            exact ⟨_, List.mem_cons_self, rfl, hat, rfl⟩
          · obtain ⟨args, hargs, hspec⟩ := hall t' k a hlt' hlt hshare ha
            exact ⟨args, List.mem_cons_of_mem _ hargs, hspec⟩
      · rename_i hlast
        obtain rfl : n = 0 := by
          unfold nbDuplicateThread at hlast ht
          omega
        refine ⟨[⟨c, duplicateLast s t allocated, t⟩], rfl, fun args hargs => hfirst args (List.mem_singleton.mp hargs),
          fun t' k a hle hlt hshare ha => ?_⟩
        obtain rfl : t = t' := by omega
        obtain ⟨hat, rfl⟩ := hown k a hshare
        exact ⟨_, List.mem_cons_self, rfl, hat, rfl⟩
    · rename_i hstop
      refine ⟨[], rfl, nofun, fun t' k a hle hlt hshare ha => ?_⟩
      obtain ⟨k₀, a₀, hshare₀, ha₀⟩ := hshare.allocated_le hle
      rcases h with ⟨k', hat, hshare', -⟩ | ⟨-, hno⟩
      · obtain ⟨rfl, rfl⟩ := hshare₀.unique hshare'
        exact absurd ⟨hat.fp_lt, ha₀.trans_lt ha⟩ hstop
      · exact absurd hshare₀ (hno k₀ a₀)

end Shares

/-! ## The verdict -/

section Verdict

variable (P : Puzzle) (s : DuplicateStock)

/-- A thread that can be created takes up the element `i`: it is behind its start, and the pairs of
the elements from there on are within the share. -/
def TakenUp (created : Nat → Bool) (i : Nat) : Prop :=
  ∃ t k a, t < nbDuplicateThread ∧ created t = true ∧ Share s t k a ∧ a < countCombinations s.dataSize ∧ k ≤ i ∧
    pairsOfFirst (s.elements.length - k) (i - k) ≤ duplicateLast s t a

/-- Two elements of the stock are equal, or one is an origin of the other. -/
def HasDuplicate : Prop :=
  ∃ (i j : Nat) (a b : List Byte), i ≠ j ∧ s.elements[i]? = some a ∧ s.elements[j]? = some b ∧
    (elementEqualsElement P a b = true ∨ elementHasOriginElement P a b = true)

/-- An element that a thread takes up is equal to one behind it, or an origin of one behind it. -/
def HasFoundPair (created : Nat → Bool) : Prop :=
  ∃ (i j : Nat) (a b : List Byte), i < j ∧ s.elements[i]? = some a ∧ s.elements[j]? = some b ∧ TakenUp s created i ∧
    (elementEqualsElement P a b = true ∨ elementHasOriginElement P a b = true)

variable {P s} {created : Nat → Bool} {fuel : Nat}

theorem isDuplicatePair_iff {a b : List Byte} : isDuplicatePair P a b = true ↔
    elementEqualsElement P a b = true ∨ elementHasOriginElement P a b = true :=
  Bool.or_eq_true_iff

variable (P created)

/-- The threads together. -/
theorem sumErrors_spec {threads : List DuplicateArgs} (hfuel : s.elements.length < fuel)
    (hthreads : ∀ args ∈ threads, args.cursor.currElement = none ∨ ∃ k, s.At args.cursor k) :
    ∃ errors, sumErrors P s created fuel threads = some errors ∧
      (0 < errors ↔ ∃ args ∈ threads, created args.threadPosition = true ∧ ∃ k, s.At args.cursor k ∧
        0 < threadErrors P args.nbCombinations 0 (s.elements.drop k)) := by
  induction threads with
  | nil => exact ⟨0, rfl, by simp⟩
  | cons args threads ih =>
    obtain ⟨errors, hrest, hpos⟩ := ih fun args hargs => hthreads args (List.mem_cons_of_mem _ hargs)
    have hone : ∃ e, (if created args.threadPosition then
          (checkDuplicateThread P s args.nbCombinations fuel args.cursor ⟨0, 0, 0⟩).map (·.errors)
        else some 0) = some e ∧ (0 < e ↔ created args.threadPosition = true ∧ ∃ k, s.At args.cursor k ∧
          0 < threadErrors P args.nbCombinations 0 (s.elements.drop k)) := by
      cases hcreated : created args.threadPosition with
      | false => exact ⟨0, rfl, by simp⟩
      | true =>
        rcases hthreads args List.mem_cons_self with hnone | ⟨k, hat⟩
        · obtain ⟨d, hrun, herrors⟩ := checkDuplicateThread_spec P ⟨0, 0, 0⟩ args.nbCombinations
            (.inr ⟨hnone, rfl⟩) (show s.elements.length - s.elements.length < fuel by omega)
          refine ⟨d.errors, by rw [if_pos rfl, hrun]; rfl, ?_⟩
          rw [herrors, List.drop_length]
          refine iff_of_false (Nat.lt_irrefl 0) ?_
          rintro ⟨-, k, hat, -⟩
          exact absurd (hnone.symm.trans hat.currElement) (by simp)
        · obtain ⟨d, hrun, herrors⟩ := checkDuplicateThread_spec P ⟨0, 0, 0⟩ args.nbCombinations
            (.inl hat) (show s.elements.length - k < fuel by omega)
          refine ⟨d.errors, by rw [if_pos rfl, hrun]; rfl, ?_⟩
          rw [herrors, Nat.zero_add]
          constructor
          · exact fun h => ⟨rfl, k, hat, h⟩
          · rintro ⟨-, k', hat', h⟩
            rwa [hat.index, ← hat'.index]
    obtain ⟨e, he, hepos⟩ := hone
    refine ⟨e + errors, ?_, ?_⟩
    · unfold sumErrors
      rw [he, Option.bind_some, hrest, Option.map_some]
    · rw [Nat.add_pos_iff_pos_or_pos, hepos, hpos]
      simp only [List.mem_cons, exists_eq_or_imp]

variable {P created}

/-- The pair that a thread finds, in the whole sequence. -/
theorem threadErrors_drop_pos_iff {last k : Nat} : 0 < threadErrors P last 0 (s.elements.drop k) ↔
    ∃ i j a b, i < j ∧ s.elements[i]? = some a ∧ s.elements[j]? = some b ∧ k ≤ i ∧
      pairsOfFirst (s.elements.length - k) (i - k) ≤ last ∧ isDuplicatePair P a b = true := by
  rw [threadErrors_pos_iff]
  simp only [List.getElem?_drop, List.length_drop, Nat.zero_add]
  constructor
  · rintro ⟨i, j, a, b, hlt, ha, hb, hshare, hpair⟩
    exact ⟨k + i, k + j, a, b, by omega, ha, hb, by omega, by rwa [Nat.add_sub_cancel_left], hpair⟩
  · rintro ⟨i, j, a, b, hlt, ha, hb, hle, hshare, hpair⟩
    refine ⟨i - k, j - k, a, b, by omega, ?_, ?_, hshare, hpair⟩
    · rwa [Nat.add_sub_cancel' hle]
    · rwa [Nat.add_sub_cancel' (hle.trans hlt.le)]

variable (P created) in
/-- The check ends, and fails when a thread finds a pair. -/
theorem checkDuplicate_spec (hfuel : s.elements.length < fuel) :
    ∃ errors, checkDuplicate P s created fuel = some (if errors > 0 then -1 else 0) ∧
      (0 < errors ↔ HasFoundPair P s created) := by
  have hstart : SpawnAt s 0 ⟨(s.duplicatePoolSkipEmpty 0).1, 0, (s.duplicatePoolSkipEmpty 0).2⟩ s.dataSize 0 := by
    rcases DuplicateStock.reaches_duplicatePoolSkipEmpty (s := s) (Nat.zero_le _) with hat | ⟨hnone, hempty⟩
    · have hne : s.elements ≠ [] := List.length_pos_iff.mp (Nat.zero_lt_of_lt hat.lt)
      exact .inl ⟨0, hat, .first hne, by rw [DuplicateStock.dataSize_eq, Nat.sub_zero]⟩
    · refine .inr ⟨hnone, fun k a hshare => ?_⟩
      cases hshare with
      | first hne => exact hne (List.eq_nil_of_length_eq_zero hempty.symm)
  obtain ⟨threads, hspawn, hthreads, hall⟩ := spawnLoop_spec hstart (Nat.zero_add _) hfuel
  obtain ⟨errors, hsum, hpos⟩ := sumErrors_spec P created hfuel fun args hargs =>
    (hthreads args hargs).imp_right fun ⟨k, a, hat, _⟩ => ⟨k, hat⟩
  refine ⟨errors, ?_, ?_⟩
  · unfold checkDuplicate
    dsimp only
    rw [hspawn, Option.bind_some, hsum, Option.map_some]
  · rw [hpos]
    constructor
    · rintro ⟨args, hargs, hcreated, k, hat, herrors⟩
      obtain ⟨i, j, a, b, hlt, ha, hb, hle, hshare, hpair⟩ := threadErrors_drop_pos_iff.mp herrors
      rcases hthreads args hargs with hnone | ⟨k', a', hat', hshare', ht, hallocated, hlast⟩
      · exact absurd (hnone.symm.trans hat.currElement) (by simp)
      · obtain rfl : k = k' := by rw [hat.index, hat'.index]
        exact ⟨i, j, a, b, hlt, ha, hb, ⟨args.threadPosition, k, a', ht, hcreated, hshare', hallocated, hle, hlast ▸ hshare⟩,
          isDuplicatePair_iff.mp hpair⟩
    · rintro ⟨i, j, a, b, hlt, ha, hb, ⟨t, k, a', ht, hcreated, hshare, hallocated, hle, hpairs⟩, hpair⟩
      obtain ⟨args, hargs, rfl, hat, hlast⟩ := hall t k a' (Nat.zero_le t) ht hshare hallocated
      refine ⟨args, hargs, hcreated, k, hat, threadErrors_drop_pos_iff.mpr ⟨i, j, a, b, hlt, ha, hb, hle, ?_, ?_⟩⟩
      · rwa [hlast]
      · exact isDuplicatePair_iff.mpr hpair

/-- A pair that is found is one of the stock. -/
theorem HasFoundPair.hasDuplicate (h : HasFoundPair P s created) : HasDuplicate P s := by
  obtain ⟨i, j, a, b, hlt, ha, hb, -, hpair⟩ := h
  exact ⟨i, j, a, b, hlt.ne, ha, hb, hpair⟩

/-- The verdict does not depend on the fuel. -/
theorem exists_checkDuplicate (P : Puzzle) (s : DuplicateStock) (created : Nat → Bool) :
    ∃ r, (∀ fuel > s.elements.length, checkDuplicate P s created fuel = some r) ∧ (r = -1 ↔ HasFoundPair P s created) := by
  by_cases hfound : HasFoundPair P s created
  · refine ⟨-1, fun fuel hfuel => ?_, iff_of_true rfl hfound⟩
    obtain ⟨errors, hrun, hpos⟩ := checkDuplicate_spec P created hfuel
    rw [hrun, if_pos (hpos.mpr hfound)]
  · refine ⟨0, fun fuel hfuel => ?_, iff_of_false (by decide) hfound⟩
    obtain ⟨errors, hrun, hpos⟩ := checkDuplicate_spec P created hfuel
    rw [hrun, if_neg fun herrors => hfound (hpos.mp herrors)]

/-- Every pair of elements is compared: a thread takes up its first element. -/
def CoversPairs (s : DuplicateStock) (created : Nat → Bool) : Prop :=
  ∀ i j, i < j → j < s.elements.length → TakenUp s created i

/-- With three elements or more, no thread takes up the last but one. -/
theorem not_takenUp_last (h : 3 ≤ s.elements.length) : ¬ TakenUp s created (s.elements.length - 2) := by
  rintro ⟨t, k, a, ht, -, hshare, hallocated, hle, hpairs⟩
  rw [DuplicateStock.dataSize_eq] at hallocated
  have hlast : s.elements.length - 1 = s.elements.length - 2 + 1 := by omega
  have htotal : countCombinations s.elements.length =
      pairsOfFirst s.elements.length k + pairsOfFirst (s.elements.length - k) (s.elements.length - 2 - k) + 1 := by
    rw [countCombinations_eq, hlast, pairsOfFirst, ← Nat.add_sub_cancel' hle, pairsOfFirst_add, Nat.add_sub_cancel_left]
    omega
  have hge := hshare.allocated_ge
  unfold duplicateLast at hpairs
  rw [DuplicateStock.dataSize_eq] at hpairs
  split at hpairs
  · rename_i hlastThread
    rcases hge with ⟨rfl, -⟩ | hge
    · exact absurd hlastThread (by decide)
    · omega
  · rename_i hearlier
    have hbefore := hshare.pairs_le
    have hmul : t * nbByThread s ≤ 6 * nbByThread s := Nat.mul_le_mul_right _ (by unfold nbDuplicateThread at ht hearlier; omega)
    have hshares : 8 * nbByThread s ≤ countCombinations s.elements.length := by
      unfold nbByThread
      rw [DuplicateStock.dataSize_eq]
      exact Nat.mul_div_le _ _
    -- The number of pairs is 3, 6, or more than 8.
    have hcount : countCombinations s.elements.length = 3 ∨ countCombinations s.elements.length = 6 ∨
        9 ≤ countCombinations s.elements.length := by
      rcases (show s.elements.length = 3 ∨ s.elements.length = 4 ∨ 5 ≤ s.elements.length by omega) with h3 | h4 | h5
      · rw [h3]
        exact .inl rfl
      · rw [h4]
        exact .inr (.inl rfl)
      · refine .inr (.inr ?_)
        rw [countCombinations_eq]
        refine le_trans ?_ (pairsOfFirst_mono (show 3 ≤ s.elements.length - 1 by omega))
        simp only [pairsOfFirst]
        omega
    omega

/-- The threads cover the pairs of two elements only. -/
theorem coversPairs_iff : CoversPairs s created ↔
    s.elements.length ≤ 1 ∨ s.elements.length = 2 ∧ created 0 = true := by
  constructor
  · intro h
    rcases Nat.lt_or_ge 2 s.elements.length with hthree | htwo
    · exact absurd (h (s.elements.length - 2) (s.elements.length - 1) (by omega) (by omega)) (not_takenUp_last hthree)
    · rcases Nat.lt_or_ge 1 s.elements.length with hone | hone
      · have hlength : s.elements.length = 2 := by omega
        obtain ⟨t, k, a, -, hcreated, hshare, hallocated, -⟩ := h 0 1 Nat.one_pos (by omega)
        rw [DuplicateStock.dataSize_eq, hlength] at hallocated
        have hallocated : a < 1 := hallocated
        rcases hshare.allocated_ge with ⟨rfl, -⟩ | hge
        · exact .inr ⟨hlength, hcreated⟩
        · omega
      · exact .inl hone
  · rintro (hone | ⟨htwo, hcreated⟩) i j hlt hj
    · omega
    · obtain rfl : i = 0 := by omega
      refine ⟨0, 0, 0, by decide, hcreated, .first fun hnil => ?_, ?_, le_rfl, Nat.zero_le _⟩
      · rw [hnil] at htwo
        cases htwo
      · rw [DuplicateStock.dataSize_eq, htwo]
        decide

/-- The verdict of `check_duplicate` is right if and only if a stock with a duplicate has one that a
thread can find: the first of its elements is taken up, and is equal to the other or its origin. The
threads compare all the pairs of a stock of two elements at most. -/
theorem checkDuplicate_right_iff (P : Puzzle) (s : DuplicateStock) (created : Nat → Bool) :
    (∃ r, (∀ fuel > s.elements.length, checkDuplicate P s created fuel = some r) ∧
      ((r = -1 ↔ HasDuplicate P s) ↔ (HasDuplicate P s → HasFoundPair P s created))) ∧
    (CoversPairs s created ↔ s.elements.length ≤ 1 ∨ s.elements.length = 2 ∧ created 0 = true) := by
  obtain ⟨r, hrun, hfound⟩ := exists_checkDuplicate P s created
  refine ⟨⟨r, hrun, ?_⟩, coversPairs_iff⟩
  rw [hfound]
  exact ⟨fun h => h.mpr, fun h => ⟨HasFoundPair.hasDuplicate, h⟩⟩

/-- A stock with its elements in one file. -/
def singleFileStock (elements : PoolFile) : DuplicateStock := ⟨1, fun _ => elements, fun _ => []⟩

/-- Three elements of which the last two are equal, and an element before its origin. -/
theorem checkDuplicate_misses :
    let corner := (recordOf (Frame.packet fun c : Cell .p16 => c.pos = 0)).getD []
    let edge := (recordOf (Frame.packet fun c : Cell .p16 => c.pos = 0 ∨ c.pos = 1)).getD []
    (checkDuplicate .p16 (singleFileStock [edge, corner, corner]) (fun _ => true) 4 = some 0 ∧
      HasDuplicate .p16 (singleFileStock [edge, corner, corner])) ∧
    checkDuplicate .p16 (singleFileStock [edge, corner]) (fun _ => true) 4 = some 0 ∧
      HasDuplicate .p16 (singleFileStock [edge, corner]) := by
  intro corner edge
  refine ⟨⟨?_, 1, 2, corner, corner, by decide, rfl, rfl, .inl ?_⟩, ?_, 1, 0, corner, edge, by decide, rfl, rfl, .inr ?_⟩
  all_goals decide +kernel

end Verdict
