-- SUMMARY: Rebalancing the files of a pool: what a step moves, what it keeps, and which pools it ever leaves alone.
import EternityII.Stock.Canonical
import Mathlib.Algebra.Order.BigOperators.Group.Finset
import Mathlib.Logic.Function.Iterate

/-!
# Rebalancing a pool

A step moves records from the fullest file of a pool to the emptiest, as many as bring one of the
two to the target, the total divided by the number of files. A pool rests when no file is above
the target. The target is rounded down, so that this takes a total the number of files divides:
with a remainder some file is always above, and every step moves something.
-/

/-! ## Taking records off a file -/

/-- `scroll_sized`: the record at the tail, which stays when it does not fit. -/
def scrollSized (file : PoolFile) (destcap : Nat) : Option (List Byte × PoolFile) :=
  match file.getLast? with
  | none => none
  | some record => if record.length > destcap then none else some (record, file.dropLast)

/-- `pool_scroll`: an unreadable record is lost. -/
def poolScroll (P : Puzzle) (file : PoolFile) : Option (Packet P) × PoolFile :=
  match scrollSized file (packetCodecMaxBytes P) with
  | none => (none, file)
  | some (record, rest) => (recordPacket P record, rest)

/-- The loop that fills `buf`, up to `to_move` packets. -/
def scrollLoop (P : Puzzle) : Nat → PoolFile → List (Packet P) × PoolFile
  | 0, file => ([], file)
  | toMove + 1, file =>
    match poolScroll P file with
    | (none, rest) => ([], rest)
    | (some packet, rest) => (packet :: (scrollLoop P toMove rest).1, (scrollLoop P toMove rest).2)

/-! ## Steps -/

/-- The first index whose size no other is better than. -/
def extremeFile (better : Nat → Nat → Bool) (sizes : List Nat) : Nat :=
  (List.range sizes.length).foldl
    (fun best fp => if better (sizes.getD fp 0) (sizes.getD best 0) then fp else best) 0

/-- `fullest`. -/
def fullestFile (sizes : List Nat) : Nat := extremeFile (fun a b => decide (a > b)) sizes

/-- `emptiest`. -/
def emptiestFile (sizes : List Nat) : Nat := extremeFile (fun a b => decide (a < b)) sizes

/-- The pool with the file `fullest` cut to `rest` and the packets of `buf` put in `emptiest`. -/
def Pool.refile {P : Puzzle} (pool : Pool) (fullest emptiest : Nat) (rest : PoolFile) (buf : List (Packet P)) : Pool where
  files := (pool.files.set fullest rest).modify emptiest fun file => buf.foldl poolPut file
  rrPut := pool.rrPut
  files_pos := by rw [List.length_modify, List.length_set]; exact pool.files_pos

/-- `to_move`: what brings the fullest file down or the emptiest up to the target, one record when
both are there, at most the budget. -/
def moveAmount (fullest emptiest target : Nat) (maxPackets : Int) : Nat :=
  let surplus := fullest - target
  let deficit := if emptiest < target then target - emptiest else 1
  let toMove := if surplus < deficit then surplus else deficit
  let toMove := if toMove = 0 then 1 else toMove
  if (toMove : Int) > maxPackets then maxPackets.toNat else toMove

/-- `rebalance_pool_step` when no other thread holds a lock; `allocated` says whether `buf` can be
allocated. -/
def rebalancePoolStep (P : Puzzle) (allocated : Bool) (pool : Pool) (maxPackets : Int) : Pool × Nat :=
  if maxPackets ≤ 0 then (pool, 0)
  else
    let sizes := pool.files.map List.length
    let total := sizes.sum
    let fullest := fullestFile sizes
    let emptiest := emptiestFile sizes
    if fullest = emptiest ∨ total = 0 then (pool, 0)
    else
      let target := total / pool.files.length
      if sizes.getD fullest 0 ≤ target then (pool, 0)
      else
        let toMove := moveAmount (sizes.getD fullest 0) (sizes.getD emptiest 0) target maxPackets
        if !allocated then (pool, 0)
        else
          let scrolled := scrollLoop P toMove (pool.files.getD fullest [])
          (pool.refile fullest emptiest scrolled.2 scrolled.1, scrolled.1.length)

/-- The loop of `rebalance_pool_until_budget`, with the rounds that are left and those made. -/
def rebalanceRounds (P : Puzzle) (allocated : Nat → Bool) (maxPackets : Int) :
    Nat → Nat → Pool → Nat → Pool × Nat
  | 0, _, pool, movedTotal => (pool, movedTotal)
  | left + 1, rounds, pool, movedTotal =>
    if (movedTotal : Int) < maxPackets then
      let step := rebalancePoolStep P (allocated rounds) pool (maxPackets - movedTotal)
      if step.2 = 0 then (step.1, movedTotal)
      else rebalanceRounds P allocated maxPackets left (rounds + 1) step.1 (movedTotal + step.2)
    else (pool, movedTotal)

/-- `rebalance_pool_until_budget`. -/
def rebalancePoolUntilBudget (P : Puzzle) (allocated : Nat → Bool) (pool : Pool) (maxPackets : Int) : Pool × Nat :=
  rebalanceRounds P allocated maxPackets (pool.files.length * 2) 0 pool 0

/-- `datamanager_rebalance_step`. -/
def datamanagerRebalanceStep (P : Puzzle) (allocated : Bool → Nat → Bool) (stock : LocalStock) (maxPackets : Int) :
    LocalStock × Nat :=
  let unchecked := rebalancePoolUntilBudget P (allocated false) stock.unchecked maxPackets
  let checked := rebalancePoolUntilBudget P (allocated true) stock.checked maxPackets
  ({ stock with unchecked := unchecked.1, checked := checked.1 }, unchecked.2 + checked.2)

/-! ## Sizes -/

section Sizes

variable (better : Nat → Nat → Bool) (sizes : List Nat)

/-- The fold keeps an index no other seen so far is better than. -/
theorem foldl_extreme (hnegtrans : ∀ a b c, better a b = false → better b c = false → better a c = false)
    (hasymm : ∀ a b, better a b = true → better b a = false) (l : List Nat) (best : Nat) :
    let r := l.foldl (fun best fp => if better (sizes.getD fp 0) (sizes.getD best 0) then fp else best) best
    r ∈ best :: l ∧ ∀ i ∈ best :: l, better (sizes.getD i 0) (sizes.getD r 0) = false := by
  have hirrefl : ∀ a, better a a = false := by
    intro a
    by_contra h
    have htrue : better a a = true := by simpa using h
    rw [hasymm a a htrue] at htrue
    exact absurd htrue Bool.false_ne_true
  induction l generalizing best with
  | nil =>
    refine ⟨List.mem_cons_self, fun i hi => ?_⟩
    rw [List.mem_singleton.mp hi]
    exact hirrefl _
  | cons fp l ih =>
    dsimp only at ih ⊢
    rw [List.foldl_cons]
    split
    · rename_i hbetter
      obtain ⟨hmem, hbest⟩ := ih fp
      refine ⟨List.mem_cons_of_mem _ hmem, fun i hi => ?_⟩
      rcases List.mem_cons.mp hi with rfl | hi
      · exact hnegtrans _ _ _ (hasymm _ _ hbetter) (hbest fp List.mem_cons_self)
      · exact hbest i hi
    · rename_i hbetter
      obtain ⟨hmem, hbest⟩ := ih best
      refine ⟨?_, fun i hi => ?_⟩
      · rcases List.mem_cons.mp hmem with heq | hmem
        · exact List.mem_cons.mpr (.inl heq)
        · exact List.mem_cons_of_mem _ (List.mem_cons_of_mem _ hmem)
      · rcases List.mem_cons.mp hi with rfl | hi
        · exact hbest _ List.mem_cons_self
        · rcases List.mem_cons.mp hi with rfl | hi
          · exact hnegtrans _ _ _ (by simpa using hbetter) (hbest best List.mem_cons_self)
          · exact hbest i (List.mem_cons_of_mem _ hi)

theorem extremeFile_spec (hnegtrans : ∀ a b c, better a b = false → better b c = false → better a c = false)
    (hasymm : ∀ a b, better a b = true → better b a = false) (hpos : 0 < sizes.length) :
    extremeFile better sizes < sizes.length ∧
      ∀ i < sizes.length, better (sizes.getD i 0) (sizes.getD (extremeFile better sizes) 0) = false := by
  obtain ⟨hmem, hbest⟩ := foldl_extreme better sizes hnegtrans hasymm (List.range sizes.length) 0
  refine ⟨?_, fun i hi => hbest i (List.mem_cons_of_mem _ (List.mem_range.mpr hi))⟩
  rcases List.mem_cons.mp hmem with hzero | hmem
  · exact hzero.trans_lt hpos
  · exact List.mem_range.mp hmem

theorem fullestFile_spec (hpos : 0 < sizes.length) : fullestFile sizes < sizes.length ∧
    ∀ i < sizes.length, sizes.getD i 0 ≤ sizes.getD (fullestFile sizes) 0 := by
  have hspec := extremeFile_spec (fun a b => decide (a > b)) sizes (by simp; omega) (by simp; omega) hpos
  exact ⟨hspec.1, fun i hi => Nat.not_lt.mp (of_decide_eq_false (hspec.2 i hi))⟩

theorem emptiestFile_spec (hpos : 0 < sizes.length) : emptiestFile sizes < sizes.length ∧
    ∀ i < sizes.length, sizes.getD (emptiestFile sizes) 0 ≤ sizes.getD i 0 := by
  have hspec := extremeFile_spec (fun a b => decide (a < b)) sizes (by simp; omega) (by simp; omega) hpos
  exact ⟨hspec.1, fun i hi => Nat.not_lt.mp (of_decide_eq_false (hspec.2 i hi))⟩

end Sizes

/-! ## One step -/

section Step

variable {P : Puzzle} {file : PoolFile} {pool pool' : Pool} {allocated : Bool} {maxPackets : Int} {moved : Nat}

/-- The records of a pool are what `pool_put` wrote. -/
def Pool.Encoded (P : Puzzle) (pool : Pool) : Prop := ∀ file ∈ pool.files, ∀ record ∈ file, IsRecord P record

/-- The records of a pool. -/
def Pool.records (pool : Pool) : List (List Byte) := pool.files.flatten

/-- The size of a file. -/
def Pool.fileSize (pool : Pool) (fp : Nat) : Nat := (pool.files.getD fp []).length

/-- The total of the sizes. -/
def Pool.total (pool : Pool) : Nat := (pool.files.map List.length).sum

/-- The target of a step. -/
def Pool.target (pool : Pool) : Nat := pool.total / pool.files.length

theorem poolScroll_concat {record : List Byte} (h : IsRecord P record) (file : PoolFile) :
    ∃ packet, poolScroll P (file ++ [record]) = (some packet, file) ∧ recordOf packet = some record := by
  obtain ⟨packet, hdecode, hrecord⟩ := h.decode []
  rw [List.append_nil] at hdecode
  refine ⟨packet, ?_, hrecord⟩
  have hlen := h.length_le
  unfold poolScroll scrollSized
  rw [List.getLast?_concat]
  dsimp only
  rw [if_neg (Nat.not_lt.mpr hlen), List.dropLast_concat]
  dsimp only
  rw [recordPacket, hdecode]

/-- The loop takes as many packets as there are, from the tail, and their records are those taken. -/
theorem scrollLoop_spec (h : ∀ record ∈ file, IsRecord P record) (toMove : Nat) :
    (scrollLoop P toMove file).1.length = min toMove file.length ∧
      file = (scrollLoop P toMove file).2 ++ ((scrollLoop P toMove file).1.filterMap recordOf).reverse ∧
      ((scrollLoop P toMove file).1.filterMap recordOf).length = (scrollLoop P toMove file).1.length := by
  induction toMove generalizing file with
  | zero => exact ⟨(Nat.zero_min _).symm, (List.append_nil _).symm, rfl⟩
  | succ toMove ih =>
    rcases List.eq_nil_or_concat file with rfl | ⟨file, record, rfl⟩
    · exact ⟨rfl, rfl, rfl⟩
    · rw [List.concat_eq_append] at h ⊢
      obtain ⟨packet, hscroll, hrecord⟩ := poolScroll_concat (h record (by simp)) file
      obtain ⟨hlength, hsplit, hrecords⟩ := ih fun r hr => h r (List.mem_append_left _ hr)
      rw [scrollLoop, hscroll]
      dsimp only
      rw [List.filterMap_cons_some hrecord]
      refine ⟨?_, ?_, ?_⟩
      · rw [List.length_cons, hlength, List.length_append, List.length_singleton, Nat.add_min_add_right]
      · rw [List.reverse_cons, ← List.append_assoc, ← hsplit]
      · rw [List.length_cons, List.length_cons, hrecords]

/-- Records have moved from the tail of one file to another. -/
structure Moves (P : Puzzle) (pool : Pool) (fullest emptiest moved : Nat) (pool' : Pool) : Prop where
  length : pool'.files.length = pool.files.length
  encoded : pool'.Encoded P
  records : pool'.records.Perm pool.records
  from_fullest : pool'.fileSize fullest = pool.fileSize fullest - moved
  to_emptiest : pool'.fileSize emptiest = pool.fileSize emptiest + moved
  others : ∀ fp, fp ≠ fullest → fp ≠ emptiest → pool'.fileSize fp = pool.fileSize fp

/-- What a step does: nothing, or it takes records off a file above the target and puts them on the
emptiest. -/
inductive RebalanceSpec (P : Puzzle) (allocated : Bool) (pool : Pool) (maxPackets : Int) : Pool → Nat → Prop
  | idle (idle : maxPackets ≤ 0 ∨ allocated = false ∨ ∀ fp < pool.files.length, pool.fileSize fp ≤ pool.target) :
      RebalanceSpec P allocated pool maxPackets pool 0
  | moved {pool' : Pool} {moved fullest emptiest : Nat} (budget : 0 < maxPackets)
      (fullest_lt : fullest < pool.files.length) (emptiest_lt : emptiest < pool.files.length)
      (above : pool.target < pool.fileSize fullest) (distinct : fullest ≠ emptiest)
      (least : ∀ fp < pool.files.length, pool.fileSize emptiest ≤ pool.fileSize fp)
      (amount : moved = min (min (pool.fileSize fullest - pool.target)
        (if pool.fileSize emptiest < pool.target then pool.target - pool.fileSize emptiest else 1)) maxPackets.toNat)
      (moves : Moves P pool fullest emptiest moved pool') : RebalanceSpec P allocated pool maxPackets pool' moved

theorem Pool.sizes_getD (pool : Pool) (fp : Nat) : (pool.files.map List.length).getD fp 0 = pool.fileSize fp := by
  unfold Pool.fileSize
  rw [List.getD_eq_getElem?_getD, List.getD_eq_getElem?_getD, List.getElem?_map]
  cases pool.files[fp]? <;> rfl

theorem sum_lengths (files : List PoolFile) :
    (files.map List.length).sum = ∑ fp ∈ Finset.range files.length, (files.getD fp []).length := by
  induction files with
  | nil => rfl
  | cons file files ih =>
    rw [List.map_cons, List.sum_cons, ih, List.length_cons, Finset.sum_range_succ', Nat.add_comm]
    rfl

theorem Pool.total_eq (pool : Pool) : pool.total = ∑ fp ∈ Finset.range pool.files.length, pool.fileSize fp :=
  sum_lengths pool.files

theorem Pool.total_eq_length (pool : Pool) : pool.total = pool.records.length := List.length_flatten.symm

theorem Pool.fileSize_le_total {fp : Nat} (h : fp < pool.files.length) : pool.fileSize fp ≤ pool.total := by
  rw [pool.total_eq]
  exact Finset.single_le_sum (f := pool.fileSize) (fun _ _ => Nat.zero_le _) (Finset.mem_range.mpr h)

/-- Files that are all at most as large as `size` have at most that many records each. -/
theorem Pool.total_le {size : Nat} (h : ∀ fp < pool.files.length, pool.fileSize fp ≤ size) :
    pool.total ≤ pool.files.length * size := by
  rw [pool.total_eq]
  simpa using Finset.sum_le_card_nsmul (Finset.range pool.files.length) pool.fileSize size
    fun fp hfp => h fp (Finset.mem_range.mp hfp)

/-- A size no file is below is at most the target. -/
theorem Pool.le_target {size : Nat} (h : ∀ fp < pool.files.length, size ≤ pool.fileSize fp) : size ≤ pool.target := by
  refine (Nat.le_div_iff_mul_le pool.files_pos).mpr ?_
  rw [pool.total_eq, Nat.mul_comm]
  simpa using Finset.card_nsmul_le_sum (Finset.range pool.files.length) pool.fileSize size
    fun fp hfp => h fp (Finset.mem_range.mp hfp)

/-- Without a file above the target, the number of files divides the total. -/
theorem Pool.dvd_of_le_target (h : ∀ fp < pool.files.length, pool.fileSize fp ≤ pool.target) :
    pool.files.length ∣ pool.total := by
  have hle := Pool.total_le h
  have hge : pool.files.length * pool.target ≤ pool.total := Nat.mul_div_le _ _
  exact ⟨pool.target, Nat.le_antisymm hle hge⟩

/-- Where the number of files divides the total, a file above the target leaves another below. -/
theorem Pool.exists_below (hdvd : pool.files.length ∣ pool.total) {fullest : Nat} (hlt : fullest < pool.files.length)
    (habove : pool.target < pool.fileSize fullest) : ∃ fp < pool.files.length, pool.fileSize fp < pool.target := by
  by_contra hnone
  have htarget : pool.files.length * pool.target = pool.total := Nat.mul_div_cancel' hdvd
  have hlarger : ∑ _fp ∈ Finset.range pool.files.length, pool.target <
      ∑ fp ∈ Finset.range pool.files.length, pool.fileSize fp := by
    refine Finset.sum_lt_sum (fun fp hfp => ?_) ⟨fullest, Finset.mem_range.mpr hlt, habove⟩
    by_contra hbelow
    exact hnone ⟨fp, Finset.mem_range.mp hfp, Nat.not_le.mp hbelow⟩
  rw [← pool.total_eq, Finset.sum_const_nat fun _ _ => rfl, Finset.card_range, htarget] at hlarger
  exact Nat.lt_irrefl _ hlarger

theorem Pool.Encoded.getD (h : pool.Encoded P) (fp : Nat) : ∀ record ∈ pool.files.getD fp [], IsRecord P record := by
  intro record hrecord
  rw [List.getD_eq_getElem?_getD] at hrecord
  cases hfile : pool.files[fp]? with
  | none =>
    rw [hfile] at hrecord
    exact absurd hrecord List.not_mem_nil
  | some file =>
    rw [hfile] at hrecord
    exact h file (List.mem_of_getElem? hfile) record hrecord

/-- Records taken off the tail of one file and put on another are all still there. -/
theorem flatten_move_perm {α : Type*} {files : List (List α)} {i j : Nat} {rest tail : List α} (hi : i < files.length)
    (hj : j < files.length) (hsplit : files.getD i [] = rest ++ tail.reverse) :
    ((files.set i rest).modify j (· ++ tail)).flatten.Perm files.flatten := by
  have hlength : i < (files.set i rest).length := by rwa [List.length_set]
  have hback : (files.set i rest).modify i (· ++ tail.reverse) = files := by
    rw [List.modify_eq_set_getElem?, List.getElem?_set_self hi]
    show ((files.set i rest).set i (rest ++ tail.reverse)) = files
    rw [List.set_set, ← hsplit, List.getD_eq_getElem?_getD, List.getElem?_eq_getElem hi, Option.getD_some,
      List.set_getElem_self]
  have hput : ((files.set i rest).modify j (· ++ tail)).flatten.Perm ((files.set i rest).flatten ++ tail) :=
    flatten_modify_perm tail (by rwa [List.length_set])
  have hkept := flatten_modify_perm tail.reverse hlength
  rw [hback] at hkept
  exact hput.trans ((List.Perm.append_left _ (List.reverse_perm tail).symm).trans hkept.symm)

section Move

variable {α : Type*} {files : List (List α)} {i j : Nat} {rest tail : List α}

theorem getD_move_from (hi : i < files.length) (hij : i ≠ j) :
    ((files.set i rest).modify j (· ++ tail)).getD i [] = rest := by
  simp [hij.symm, hi]

theorem getD_move_to (hj : j < files.length) (hij : i ≠ j) :
    ((files.set i rest).modify j (· ++ tail)).getD j [] = files.getD j [] ++ tail := by
  simp [hj, List.getElem_set_ne hij]

theorem getD_move_other {fp : Nat} (hfi : fp ≠ i) (hfj : fp ≠ j) :
    ((files.set i rest).modify j (· ++ tail)).getD fp [] = files.getD fp [] := by
  simp [hfj.symm, List.getElem?_set_ne hfi.symm]

end Move

theorem moveAmount_eq (fullest emptiest target : Nat) (habove : target < fullest) (hbudget : 0 < maxPackets) :
    moveAmount fullest emptiest target maxPackets =
      min (min (fullest - target) (if emptiest < target then target - emptiest else 1)) maxPackets.toNat := by
  unfold moveAmount
  dsimp only
  split_ifs
  all_goals omega

/-- The records `pool_scroll` takes off one file and `pool_put` puts on another. -/
theorem moves_refile {fullest emptiest toMove : Nat} (h : pool.Encoded P) (hfullest : fullest < pool.files.length)
    (hemptiest : emptiest < pool.files.length) (hdistinct : fullest ≠ emptiest) (hle : toMove ≤ pool.fileSize fullest) :
    let scrolled := scrollLoop P toMove (pool.files.getD fullest [])
    scrolled.1.length = toMove ∧
      Moves P pool fullest emptiest scrolled.1.length (pool.refile fullest emptiest scrolled.2 scrolled.1) := by
  dsimp only
  obtain ⟨hlength, hsplit, hrecords⟩ := scrollLoop_spec (h.getD fullest) toMove
  generalize scrollLoop P toMove (pool.files.getD fullest []) = scrolled at hlength hsplit hrecords ⊢
  obtain ⟨buf, rest⟩ := scrolled
  dsimp only at hlength hsplit hrecords ⊢
  unfold Pool.fileSize at hle
  rw [Nat.min_eq_left hle] at hlength
  refine ⟨hlength, ?_⟩
  have hpool : (pool.refile fullest emptiest rest buf).files =
      (pool.files.set fullest rest).modify emptiest (· ++ buf.filterMap recordOf) := by
    simp only [Pool.refile, foldl_poolPut]
  generalize pool.refile fullest emptiest rest buf = pool' at hpool ⊢
  have hsize := congrArg List.length hsplit
  rw [List.length_append, List.length_reverse, hrecords] at hsize
  have hperm : pool'.records.Perm pool.records := by
    unfold Pool.records
    rw [hpool]
    exact flatten_move_perm hfullest hemptiest hsplit
  constructor
  · rw [hpool, List.length_modify, List.length_set]
  · intro file hfile record hrecord
    have hmem : record ∈ pool.records := hperm.mem_iff.mp (List.mem_flatten.mpr ⟨file, hfile, hrecord⟩)
    obtain ⟨file', hfile', hrecord'⟩ := List.mem_flatten.mp hmem
    exact h file' hfile' record hrecord'
  · exact hperm
  · unfold Pool.fileSize
    rw [hpool, getD_move_from hfullest hdistinct]
    omega
  · unfold Pool.fileSize
    rw [hpool, getD_move_to hemptiest hdistinct, List.length_append, hrecords]
  · intro fp hfull hempty
    unfold Pool.fileSize
    rw [hpool, getD_move_other hfull hempty]

theorem rebalancePoolStep_spec (allocated : Bool) (h : pool.Encoded P) (maxPackets : Int) :
    RebalanceSpec P allocated pool maxPackets (rebalancePoolStep P allocated pool maxPackets).1
      (rebalancePoolStep P allocated pool maxPackets).2 := by
  have hpos : 0 < (pool.files.map List.length).length := by
    rw [List.length_map]
    exact pool.files_pos
  obtain ⟨hfullest, hmost⟩ := fullestFile_spec _ hpos
  obtain ⟨hemptiest, hleast⟩ := emptiestFile_spec _ hpos
  rw [List.length_map] at hfullest hmost hemptiest hleast
  simp only [Pool.sizes_getD] at hmost hleast
  unfold rebalancePoolStep
  split
  · rename_i hnone
    exact .idle (.inl hnone)
  · rename_i hbudget
    dsimp only
    simp only [Pool.sizes_getD]
    generalize fullestFile (pool.files.map List.length) = fullest at hfullest hmost ⊢
    generalize emptiestFile (pool.files.map List.length) = emptiest at hemptiest hleast ⊢
    split
    · rename_i hsame
      refine .idle (.inr (.inr fun fp hfp => ?_))
      rcases hsame with hsame | hzero
      · rw [← hsame] at hleast
        exact Nat.le_trans (hmost fp hfp) (Pool.le_target hleast)
      · have hle : pool.fileSize fp ≤ 0 := hzero ▸ pool.fileSize_le_total hfp
        exact Nat.le_trans hle (Nat.zero_le _)
    · rename_i hsome
      split
      · rename_i hbelow
        exact .idle (.inr (.inr fun fp hfp => Nat.le_trans (hmost fp hfp) hbelow))
      · rename_i habove
        split
        · rename_i hmalloc
          exact .idle (.inr (.inl (by simpa using hmalloc)))
        · have hdistinct : fullest ≠ emptiest := fun hsame => hsome (.inl hsame)
          have hamount := moveAmount_eq (pool.fileSize fullest) (pool.fileSize emptiest) pool.target
            (Nat.not_le.mp habove) (Int.not_le.mp hbudget)
          have hle : moveAmount (pool.fileSize fullest) (pool.fileSize emptiest) pool.target maxPackets ≤
              pool.fileSize fullest := by
            rw [hamount]
            omega
          obtain ⟨hlength, hmoves⟩ := moves_refile h hfullest hemptiest hdistinct hle
          exact .moved (Int.not_le.mp hbudget) hfullest hemptiest (Nat.not_le.mp habove) hdistinct hleast
            (hlength.trans hamount) hmoves

end Step

/-! ## Runs -/

section Runs

variable {P : Puzzle} {pool pool' : Pool} {allocated : Nat → Bool} {maxPackets : Int}

/-- A call moves nothing and returns 0. -/
def Pool.Rests (P : Puzzle) (pool : Pool) (maxPackets : Int) : Prop := rebalancePoolStep P true pool maxPackets = (pool, 0)

/-- The sizes differ by at most one. -/
def Pool.Balanced (pool : Pool) : Prop :=
  ∀ i < pool.files.length, ∀ j < pool.files.length, pool.fileSize i ≤ pool.fileSize j + 1

/-- Calls of `rebalance_pool_step` one after the other. -/
def rebalanceSteps (P : Puzzle) (maxPackets : Int) : Nat → Pool → Pool
  | 0, pool => pool
  | n + 1, pool => rebalanceSteps P maxPackets n (rebalancePoolStep P true pool maxPackets).1

/-- The pool has the same records in as many files. -/
structure Pool.Keeps (P : Puzzle) (pool pool' : Pool) : Prop where
  encoded : pool'.Encoded P
  records : pool'.records.Perm pool.records
  length : pool'.files.length = pool.files.length

theorem Pool.Keeps.refl (h : pool.Encoded P) : pool.Keeps P pool := ⟨h, .refl _, rfl⟩

theorem Pool.Keeps.trans {pool'' : Pool} (h : pool.Keeps P pool') (h' : pool'.Keeps P pool'') : pool.Keeps P pool'' :=
  ⟨h'.encoded, h'.records.trans h.records, h'.length.trans h.length⟩

theorem Pool.Keeps.total (h : pool.Keeps P pool') : pool'.total = pool.total := by
  rw [pool'.total_eq_length, pool.total_eq_length, h.records.length_eq]

theorem Pool.Keeps.target (h : pool.Keeps P pool') : pool'.target = pool.target := by
  unfold Pool.target
  rw [h.total, h.length]

/-- A step keeps the records and stays within the budget. -/
theorem rebalancePoolStep_keeps (h : pool.Encoded P) (alloc : Bool) (maxPackets : Int) :
    pool.Keeps P (rebalancePoolStep P alloc pool maxPackets).1 ∧
      (rebalancePoolStep P alloc pool maxPackets).2 ≤ maxPackets.toNat := by
  have hspec := rebalancePoolStep_spec alloc h maxPackets
  generalize rebalancePoolStep P alloc pool maxPackets = step at hspec ⊢
  obtain ⟨pool', moved⟩ := step
  cases hspec with
  | idle _ => exact ⟨.refl h, Nat.zero_le _⟩
  | moved _ _ _ _ _ _ amount moves =>
    exact ⟨⟨moves.encoded, moves.records, moves.length⟩, amount ▸ Nat.min_le_right _ _⟩

theorem rebalanceRounds_keeps (left rounds : Nat) (h : pool.Encoded P) {movedTotal : Nat}
    (hbudget : movedTotal ≤ maxPackets.toNat) :
    pool.Keeps P (rebalanceRounds P allocated maxPackets left rounds pool movedTotal).1 ∧
      (rebalanceRounds P allocated maxPackets left rounds pool movedTotal).2 ≤ maxPackets.toNat := by
  induction left generalizing rounds pool movedTotal with
  | zero => exact ⟨.refl h, hbudget⟩
  | succ left ih =>
    rw [rebalanceRounds]
    split
    · obtain ⟨hkeeps, hmoved⟩ := rebalancePoolStep_keeps h (allocated rounds) (maxPackets - movedTotal)
      dsimp only
      split
      · exact ⟨hkeeps, hbudget⟩
      · have hsum : movedTotal + (rebalancePoolStep P (allocated rounds) pool (maxPackets - movedTotal)).2 ≤
            maxPackets.toNat := by omega
        obtain ⟨hkeeps', hbudget'⟩ := ih (rounds + 1) hkeeps.encoded hsum
        exact ⟨hkeeps.trans hkeeps', hbudget'⟩
    · exact ⟨.refl h, hbudget⟩

theorem rebalanceSteps_keeps (h : pool.Encoded P) (n : Nat) : pool.Keeps P (rebalanceSteps P maxPackets n pool) := by
  induction n generalizing pool with
  | zero => exact .refl h
  | succ n ih =>
    have hkeeps := (rebalancePoolStep_keeps h true maxPackets).1
    exact hkeeps.trans (ih hkeeps.encoded)

/-! ## Rest -/

/-- A pool rests within a budget exactly when no file is above the target. -/
theorem rests_iff (h : pool.Encoded P) (hbudget : 0 < maxPackets) :
    pool.Rests P maxPackets ↔ ∀ fp < pool.files.length, pool.fileSize fp ≤ pool.target := by
  have hspec := rebalancePoolStep_spec true h maxPackets
  unfold Pool.Rests
  generalize rebalancePoolStep P true pool maxPackets = step at hspec ⊢
  obtain ⟨pool', moved⟩ := step
  cases hspec with
  | idle idle =>
    refine iff_of_true rfl ?_
    rcases idle with hnone | hmalloc | hbelow
    · exact absurd hbudget (Int.not_lt.mpr hnone)
    · exact absurd hmalloc (by decide)
    · exact hbelow
  | moved budget fullest_lt emptiest_lt above distinct least amount moves =>
    refine iff_of_false (fun hrests => ?_) fun hbelow => absurd (hbelow _ fullest_lt) (Nat.not_le.mpr above)
    have hnone : moved = 0 := (Prod.mk.inj hrests).2
    rw [hnone] at amount
    split at amount
    all_goals omega

/-- The files that are not at the target. -/
def Pool.unsettled (pool : Pool) : Finset Nat :=
  (Finset.range pool.files.length).filter fun fp => pool.fileSize fp ≠ pool.target

/-- Where the number of files divides the total, a step with room in the budget settles a file. -/
theorem unsettled_ssubset {fullest emptiest moved : Nat} (hdvd : pool.files.length ∣ pool.total)
    (hbudget : (pool.total : Int) ≤ maxPackets) (hfullest : fullest < pool.files.length)
    (hemptiest : emptiest < pool.files.length) (habove : pool.target < pool.fileSize fullest)
    (hleast : ∀ fp < pool.files.length, pool.fileSize emptiest ≤ pool.fileSize fp)
    (hamount : moved = min (min (pool.fileSize fullest - pool.target)
      (if pool.fileSize emptiest < pool.target then pool.target - pool.fileSize emptiest else 1)) maxPackets.toNat)
    (hmoves : Moves P pool fullest emptiest moved pool') : pool'.unsettled ⊂ pool.unsettled := by
  have hkeeps : pool.Keeps P pool' := ⟨hmoves.encoded, hmoves.records, hmoves.length⟩
  obtain ⟨fp, hfp, hless⟩ := Pool.exists_below hdvd hfullest habove
  have hbelow : pool.fileSize emptiest < pool.target := Nat.lt_of_le_of_lt (hleast fp hfp) hless
  have hroom := pool.fileSize_le_total hfullest
  have hfrom := hmoves.from_fullest
  have hto := hmoves.to_emptiest
  rw [if_pos hbelow] at hamount
  have hmem : ∀ pool : Pool, ∀ fp, fp ∈ pool.unsettled ↔ fp < pool.files.length ∧ pool.fileSize fp ≠ pool.target := by
    intro pool fp
    unfold Pool.unsettled
    rw [Finset.mem_filter, Finset.mem_range]
  refine (Finset.ssubset_iff_of_subset ?_).mpr ?_
  · intro fp hfp
    rw [hmem, hkeeps.length, hkeeps.target] at hfp
    refine (hmem pool fp).mpr ⟨hfp.1, ?_⟩
    by_cases hfull : fp = fullest
    · exact hfull ▸ Nat.ne_of_gt habove
    · by_cases hempty : fp = emptiest
      · exact hempty ▸ Nat.ne_of_lt hbelow
      · exact hmoves.others fp hfull hempty ▸ hfp.2
  · rcases Nat.le_total (pool.fileSize fullest - pool.target) (pool.target - pool.fileSize emptiest) with hle | hle
    · refine ⟨fullest, (hmem pool fullest).mpr ⟨hfullest, Nat.ne_of_gt habove⟩, fun hin => ?_⟩
      rw [hmem, hkeeps.target] at hin
      exact hin.2 (by omega)
    · refine ⟨emptiest, (hmem pool emptiest).mpr ⟨hemptiest, Nat.ne_of_lt hbelow⟩, fun hin => ?_⟩
      rw [hmem, hkeeps.target] at hin
      exact hin.2 (by omega)

/-- Where the number of files divides the total, one call for each unsettled file is enough. -/
theorem exists_rests (h : pool.Encoded P) (hdvd : pool.files.length ∣ pool.total)
    (hbudget : (pool.total : Int) ≤ maxPackets) :
    ∃ n ≤ pool.unsettled.card, (rebalanceSteps P maxPackets n pool).Rests P maxPackets := by
  generalize hcard : pool.unsettled.card = left
  induction left using Nat.strong_induction_on generalizing pool with
  | _ left ih =>
    by_cases hrests : pool.Rests P maxPackets
    · exact ⟨0, Nat.zero_le _, hrests⟩
    · have hkeeps := (rebalancePoolStep_keeps h true maxPackets).1
      have hsmaller : (rebalancePoolStep P true pool maxPackets).1.unsettled.card < left := by
        have hspec := rebalancePoolStep_spec true h maxPackets
        unfold Pool.Rests at hrests
        generalize rebalancePoolStep P true pool maxPackets = step at hspec hrests ⊢
        obtain ⟨pool', moved⟩ := step
        cases hspec with
        | idle _ => exact absurd rfl hrests
        | moved _ fullest_lt emptiest_lt above _ least amount moves =>
          rw [← hcard]
          exact Finset.card_lt_card (unsettled_ssubset hdvd hbudget fullest_lt emptiest_lt above least amount moves)
      have hdvd' : (rebalancePoolStep P true pool maxPackets).1.files.length ∣
          (rebalancePoolStep P true pool maxPackets).1.total := by
        rw [hkeeps.length, hkeeps.total]
        exact hdvd
      obtain ⟨n, hn, hrest⟩ := ih _ hsmaller hkeeps.encoded hdvd' (hkeeps.total ▸ hbudget) rfl
      exact ⟨n + 1, by omega, hrest⟩

theorem card_unsettled_le (pool : Pool) : pool.unsettled.card ≤ pool.files.length := by
  have hle := Finset.card_filter_le (Finset.range pool.files.length) fun fp => pool.fileSize fp ≠ pool.target
  rwa [Finset.card_range] at hle

/-- With a remainder, every call moves something, whatever the calls before it. -/
theorem not_rests_of_not_dvd (h : pool.Encoded P) (hndvd : ¬ pool.files.length ∣ pool.total) (hbudget : 0 < maxPackets)
    (n : Nat) : ¬ (rebalanceSteps P maxPackets n pool).Rests P maxPackets := by
  have hkeeps : pool.Keeps P (rebalanceSteps P maxPackets n pool) := rebalanceSteps_keeps h n
  rw [rests_iff hkeeps.encoded hbudget]
  intro hbelow
  have hdvd := Pool.dvd_of_le_target hbelow
  rw [hkeeps.length, hkeeps.total] at hdvd
  exact hndvd hdvd

/-- A balanced pool whose number of files divides the total has no file above the target. -/
theorem Pool.Balanced.le_target (h : pool.Balanced) (hdvd : pool.files.length ∣ pool.total) :
    ∀ fp < pool.files.length, pool.fileSize fp ≤ pool.target := by
  intro fp hfp
  by_contra habove
  obtain ⟨fp', hfp', hless⟩ := Pool.exists_below hdvd hfp (Nat.not_le.mp habove)
  have := h fp hfp fp' hfp'
  omega

theorem rests_of_nonpos (hbudget : maxPackets ≤ 0) : pool.Rests P maxPackets := by
  unfold Pool.Rests rebalancePoolStep
  exact if_pos hbudget

end Runs

/-! ## Exactness -/

section Settling

variable {P : Puzzle}

/-- The records of both pools are what `pool_put` wrote. -/
def LocalStock.Encoded (P : Puzzle) (stock : LocalStock) : Prop := ∀ c, (stock.pool c).Encoded P

/-- Rebalancing a stock: the records of each pool stay, at most the budget moves in each, calls
with room in the budget come to rest after at most one call for each file, and a balanced pool is
left as it is. -/
structure RebalanceSettles (P : Puzzle) (stock : LocalStock) : Prop where
  keeps : ∀ allocated maxPackets c,
    ((datamanagerRebalanceStep P allocated stock maxPackets).1.pool c).records.Perm (stock.pool c).records
  budget : ∀ allocated maxPackets c, (rebalancePoolUntilBudget P allocated (stock.pool c) maxPackets).2 ≤ maxPackets.toNat
  converges : ∀ c (maxPackets : Int), ((stock.pool c).total : Int) ≤ maxPackets →
    ∃ n ≤ (stock.pool c).files.length, (rebalanceSteps P maxPackets n (stock.pool c)).Rests P maxPackets
  balanced : ∀ c (maxPackets : Int), (stock.pool c).Balanced → (stock.pool c).Rests P maxPackets

/-- Rebalancing settles exactly when the number of files divides the number of records of each
pool. -/
theorem rebalanceSettles_iff {stock : LocalStock} (h : stock.Encoded P) :
    RebalanceSettles P stock ↔ ∀ c, (stock.pool c).files.length ∣ (stock.pool c).total := by
  constructor
  · intro hsettles c
    by_contra hndvd
    have hpos : 0 < (stock.pool c).total := by
      rcases Nat.eq_zero_or_pos (stock.pool c).total with hzero | hpos
      · exact absurd (hzero ▸ dvd_zero _) hndvd
      · exact hpos
    obtain ⟨n, -, hrests⟩ := hsettles.converges c (stock.pool c).total (Int.le_refl _)
    exact not_rests_of_not_dvd (h c) hndvd (by omega) n hrests
  · intro hdvd
    constructor
    · intro allocated maxPackets c
      have hkeeps : (stock.pool c).Keeps P (rebalancePoolUntilBudget P (allocated c) (stock.pool c) maxPackets).1 :=
        (rebalanceRounds_keeps _ 0 (h c) (Nat.zero_le _)).1
      cases c
      · exact hkeeps.records
      · exact hkeeps.records
    · intro allocated maxPackets c
      exact (rebalanceRounds_keeps _ 0 (h c) (Nat.zero_le _)).2
    · intro c maxPackets hbudget
      obtain ⟨n, hn, hrests⟩ := exists_rests (h c) (hdvd c) hbudget
      exact ⟨n, Nat.le_trans hn (card_unsettled_le _), hrests⟩
    · intro c maxPackets hbalanced
      rcases Int.lt_or_le 0 maxPackets with hbudget | hbudget
      · exact (rests_iff (h c) hbudget).mpr (hbalanced.le_target (hdvd c))
      · exact rests_of_nonpos hbudget

/-- Two files in each pool, with the records of the unchecked one in the first. -/
def firstFileStock (records : List (List Byte)) : LocalStock where
  unchecked := ⟨[records, []], 0, Nat.two_pos⟩
  checked := ⟨[[], []], 0, Nat.two_pos⟩
  otherBytes := 0
  stockMaxRamBytes := 0

/-- The record of a packet with its frame alone. -/
def frameRecord : List Byte := (recordOf (Frame.packet fun c : Cell .p16 => c.pos = 0)).getD []

theorem frameRecord_isRecord : IsRecord .p16 frameRecord := by
  have hencodable : (Frame.packet fun c : Cell .p16 => c.pos = 0).Encodable :=
    codecValue_of_wellFormed (Frame.packet_wellFormed _).grid
  obtain ⟨record, hrecord, -⟩ := recordOf_of_encodable hencodable
  refine ⟨_, hrecord.trans ?_⟩
  rw [frameRecord, hrecord, Option.getD_some]

theorem firstFileStock_encoded {records : List (List Byte)} (h : ∀ record ∈ records, IsRecord .p16 record) :
    (firstFileStock records).Encoded .p16 := by
  intro c file hfile record hrecord
  cases c
  all_goals rcases List.mem_cons.mp hfile with rfl | hfile
  · exact h record hrecord
  · rw [List.mem_singleton.mp hfile] at hrecord
    exact absurd hrecord List.not_mem_nil
  · exact absurd hrecord List.not_mem_nil
  · rw [List.mem_singleton.mp hfile] at hrecord
    exact absurd hrecord List.not_mem_nil

/-- Two records in two files. -/
theorem rebalanceSettles_iff_two : RebalanceSettles .p16 (firstFileStock [frameRecord, frameRecord]) := by
  refine (rebalanceSettles_iff (firstFileStock_encoded fun record hrecord => ?_)).mpr fun c => ?_
  · have hframe : record = frameRecord := by simpa using hrecord
    exact hframe ▸ frameRecord_isRecord
  · cases c
    · exact ⟨1, rfl⟩
    · exact ⟨0, rfl⟩

/-- One record in two files: the pool is balanced, and a call moves the record all the same. -/
theorem firstFileStock_one : (firstFileStock [frameRecord]).unchecked.Balanced ∧
    ¬ (firstFileStock [frameRecord]).unchecked.Rests .p16 1000 ∧ ¬ RebalanceSettles .p16 (firstFileStock [frameRecord]) := by
  have hencoded : (firstFileStock [frameRecord]).Encoded .p16 :=
    firstFileStock_encoded fun record hrecord => List.mem_singleton.mp hrecord ▸ frameRecord_isRecord
  have hbalanced : (firstFileStock [frameRecord]).unchecked.Balanced := by
    intro i hi j hj
    have hsizes : ∀ fp < 2, (firstFileStock [frameRecord]).unchecked.fileSize fp ≤ 1 := by decide
    exact Nat.le_trans (hsizes i hi) (Nat.le_add_left 1 _)
  have hmoves : ¬ (firstFileStock [frameRecord]).unchecked.Rests .p16 1000 := by
    intro hrests
    have hbelow := (rests_iff (hencoded false) (show (0 : Int) < 1000 by decide)).mp hrests
    exact absurd (hbelow 0 Nat.two_pos) (by decide)
  exact ⟨hbalanced, hmoves, fun hsettles => hmoves (hsettles.balanced false 1000 hbalanced)⟩

end Settling
