-- SUMMARY: The cached sort direction of each file: which operations keep it true, and when the others do.
import EternityII.Base.Runs
import EternityII.Stock.Rebalance
import EternityII.Stock.SortFile

/-!
# The cached direction of a file

The periodic sort remembers with each file the direction in which it has sorted it, and passes over
the files that are sorted already. Every insertion makes the direction unknown again. Three kinds
of operations change a file without saying so: the splice of the verified files onto the others,
the sorts asked for by hand, and an expansion that returns its work.
-/

/-! ## Files with a direction -/

/-- `file_sort_state_t`. -/
inductive FileSortState where
  | unknown | asc | desc
  deriving DecidableEq, Repr

/-- `file_possibility_t`: a file and the last direction it was sorted in. -/
structure FilePossibility where
  file : PoolFile
  sortState : FileSortState

/-- The files of the two pools; the verified one is `true`. -/
structure SortedStock where
  nbFilePossibility : Nat
  segment : Bool → Nat → FilePossibility

section Operations

variable {P : Puzzle}

/-- `wanted`. -/
def wantedState (descending : Bool) : FileSortState := if descending then .desc else .asc

namespace SortedStock

/-- The stock with one of its files replaced. -/
def set (s : SortedStock) (isChecked : Bool) (file : Nat) (segment : FilePossibility) : SortedStock :=
  { s with segment := fun b f => if b = isChecked ∧ f = file then segment else s.segment b f }

/-- Packets put at the tail of a file, whose direction is not known any more. -/
def insert (s : SortedStock) (isChecked : Bool) (file : Nat) (packets : List (Packet P)) : SortedStock :=
  s.set isChecked file ⟨packets.foldl poolPut (s.segment isChecked file).file, .unknown⟩

/-- `put_to_pool` once the file `currfile` is locked. -/
def putToPool (s : SortedStock) (possibilities : List (Packet P)) (wantChecked : Bool) (currfile : Nat) : SortedStock :=
  if (routed possibilities wantChecked).length = 0 then s
  else s.insert wantChecked currfile (routed possibilities wantChecked)

/-- `put_back_to_stock` once the file `dest` is locked. -/
def putBackToStock (s : SortedStock) (pk : Packet P) (dest : Nat) : SortedStock :=
  s.insert (pk.checked != 0) dest [pk]

/-- `datamanager_pool_refill`: each packet and the file that took it. -/
def poolRefill (s : SortedStock) (isChecked : Bool) (input : List (Packet P × Nat)) : SortedStock :=
  input.foldl (fun s p => s.insert isChecked p.2 [p.1]) s

/-- `datamanager_pool_refill_compact` on the records of a block. -/
def poolRefillCompact (s : SortedStock) (isChecked : Bool) (fileIndex : Nat) (records : List (List Byte)) : SortedStock :=
  s.set isChecked fileIndex ⟨records.foldl putSized (s.segment isChecked fileIndex).file, .unknown⟩

/-- An element leaves its file: `scroll`, `scroll_fifo`, `file_remove_element`, or the unlinking of
`remove_possibilities_with_no_next`. -/
def removeElement (s : SortedStock) (isChecked : Bool) (file index : Nat) : SortedStock :=
  s.set isChecked file ⟨(s.segment isChecked file).file.eraseIdx index, (s.segment isChecked file).sortState⟩

/-- The `file_clear` loops of `restore` and `import_json`, on the pools of `pools`. -/
def clear (s : SortedStock) (pools : Bool → Bool) : SortedStock :=
  { s with
    segment := fun b f =>
      if pools b ∧ f < s.nbFilePossibility then ⟨[], (s.segment b f).sortState⟩ else s.segment b f }

variable (P) in
/-- `rebalance_pool_step` on the fullest file, and the files that took the packets. -/
def rebalancePoolStep (s : SortedStock) (isChecked : Bool) (fullest toMove : Nat) (dests : List Nat) : SortedStock :=
  let (buf, rest) := scrollLoop P toMove (s.segment isChecked fullest).file
  (s.set isChecked fullest ⟨rest, (s.segment isChecked fullest).sortState⟩).poolRefill isChecked (buf.zip dests)

/-- The loop of `regroup_pool_nolock` on one record: the file 0, and `packet`, which keeps its value
when the record cannot be read. -/
def regroupRecord (state : FilePossibility × Packet P) (record : List Byte) : FilePossibility × Packet P :=
  let packet := (recordPacket P record).getD state.2
  (⟨poolPut state.1.file packet, .unknown⟩, packet)

/-- `regroup_pool_nolock`: the files above 0 are emptied from their tails into the file 0. -/
def regroupPool (s : SortedStock) (packet : Packet P) (isChecked : Bool) : SortedStock :=
  let records := (List.range (s.nbFilePossibility - 1)).flatMap fun fp => (s.segment isChecked (fp + 1)).file.reverse
  let first := (records.foldl regroupRecord (s.segment isChecked 0, packet)).1
  { s with
    segment := fun b f =>
      if b = isChecked then
        if f = 0 then first
        else if f < s.nbFilePossibility then ⟨[], (s.segment b f).sortState⟩
        else s.segment b f
      else s.segment b f }

/-- `regroup_datas`. -/
def regroupDatas (s : SortedStock) (packet : Packet P) : SortedStock :=
  (s.regroupPool packet false).regroupPool packet true

/-- The loop of `split_pool_nolock` that fills a file up to the quotient. -/
def fillSegment (quotient : Nat) : List (Packet P) → FilePossibility → FilePossibility × List (Packet P)
  | [], segment => (segment, [])
  | p :: rest, segment =>
    if segment.file.length < quotient then fillSegment quotient rest ⟨poolPut segment.file p, .unknown⟩
    else (segment, p :: rest)

/-- The loops of `split_pool_nolock` over the files. -/
def fillLoop (isChecked : Bool) (quotient : Nat) : List Nat → SortedStock → List (Packet P) → SortedStock × List (Packet P)
  | [], s, packets => (s, packets)
  | f :: files, s, packets =>
    let filled := fillSegment quotient packets (s.segment isChecked f)
    fillLoop isChecked quotient files (s.set isChecked f filled.1) filled.2

/-- `split_pool_nolock`: everything in the file 0, then shared between the first `nbsplit` files, the
rest in the file 0 again. -/
def splitPool (s : SortedStock) (packet : Packet P) (isChecked : Bool) (nbsplit : Nat) : SortedStock :=
  let regrouped := s.regroupPool packet isChecked
  let packets := (regrouped.segment isChecked 0).file.filterMap (recordPacket P)
  let emptied := regrouped.set isChecked 0 ⟨[], (regrouped.segment isChecked 0).sortState⟩
  let quotient := (packets.length + nbsplit - 1) / nbsplit
  let (s, rest) := fillLoop isChecked quotient (List.range nbsplit) emptied packets
  if rest = [] then s else s.insert isChecked 0 rest

/-- The splice of `reset_checked_pool`. -/
def resetCheckedPool (s : SortedStock) : SortedStock :=
  { s with
    segment := fun b f =>
      if f < s.nbFilePossibility ∧ (s.segment true f).file ≠ [] then
        if b then ⟨[], (s.segment true f).sortState⟩
        else ⟨(s.segment false f).file ++ (s.segment true f).file.map (packetCodecPokeChecked · false),
          (s.segment false f).sortState⟩
      else s.segment b f }

variable (P)

/-- A sort of some files one after the other. -/
def sortSegments (descending : Bool) (fuel : Nat) : List (Bool × Nat) → SortedStock → Option SortedStock
  | [], s => some s
  | (b, f) :: segments, s =>
    (sortRecords P descending fuel (s.segment b f).file).bind fun file =>
      sortSegments descending fuel segments (s.set b f ⟨file, (s.segment b f).sortState⟩)

variable {P}

/-- `sort_ascending` and `sort_descending`: each pool in its file 0, which is sorted. -/
def sortRegrouped (s : SortedStock) (packet : Packet P) (descending : Bool) (fuel : Nat) : Option SortedStock :=
  (sortSegments P descending fuel [(false, 0)] (s.regroupPool packet false)).bind fun s =>
    sortSegments P descending fuel [(true, 0)] (s.regroupPool packet true)

/-- `sort_ascending`. -/
def sortAscending (s : SortedStock) (packet : Packet P) (fuel : Nat) : Option SortedStock :=
  s.sortRegrouped packet false fuel

/-- `sort_descending`. -/
def sortDescending (s : SortedStock) (packet : Packet P) (fuel : Nat) : Option SortedStock :=
  s.sortRegrouped packet true fuel

/-- The files in the order of the sorts, both pools of a file in turn. -/
def bothPools (nbFilePossibility : Nat) : List (Bool × Nat) :=
  (List.range nbFilePossibility).flatMap fun fp => [(false, fp), (true, fp)]

variable (P)

/-- `sort_ascending_files`. -/
def sortAscendingFiles (s : SortedStock) (fuel : Nat) : Option SortedStock :=
  sortSegments P false fuel (bothPools s.nbFilePossibility) s

/-- `sort_descending_files`. -/
def sortDescendingFiles (s : SortedStock) (fuel : Nat) : Option SortedStock :=
  sortSegments P true fuel (bothPools s.nbFilePossibility) s

/-- `sortdmthread`, whose threads each have a file of the pool that is not verified. -/
def sortdmthread (s : SortedStock) (fuel : Nat) : Option SortedStock :=
  sortSegments P true fuel ((List.range s.nbFilePossibility).map (false, ·)) s

/-- The rounds of `sort_descending_mthread`: the pool is split over fewer and fewer files, which are
sorted; there are at most as many rounds as files. -/
def mthreadRounds (packet : Packet P) (fuel : Nat) : Nat → Nat → Nat → SortedStock → Option SortedStock
  | 0, _, _, s => some s
  | rounds + 1, n, nbfile, s =>
    if n < nbfile then
      let nbfile := (nbfile + n - 1) / n
      (sortdmthread P (s.splitPool packet false nbfile) fuel).bind fun s =>
        mthreadRounds packet fuel rounds (n + 1) nbfile s
    else some s

variable {P}

/-- `sort_descending_mthread`. -/
def sortDescendingMthread (s : SortedStock) (packet : Packet P) (fuel : Nat) : Option SortedStock :=
  (mthreadRounds P packet fuel s.nbFilePossibility 1 s.nbFilePossibility s).bind fun s =>
    s.sortDescending packet fuel

variable (P)

/-- The loop of `sort_files_bounded`; `locked` says which files an attempt locks. -/
def sortBoundedLoop (descending : Bool) (locked : Bool → Nat → Bool) (fuel : Nat) :
    List (Bool × Nat) → SortedStock → Option SortedStock
  | [], s => some s
  | (b, f) :: segments, s =>
    if (s.segment b f).sortState = wantedState descending then sortBoundedLoop descending locked fuel segments s
    else if locked b f = false then sortBoundedLoop descending locked fuel segments s
    else
      (sortRecords P descending fuel (s.segment b f).file).bind fun file =>
        sortBoundedLoop descending locked fuel segments (s.set b f ⟨file, wantedState descending⟩)

/-- `sort_files_bounded`. -/
def sortFilesBounded (s : SortedStock) (descending : Bool) (locked : Bool → Nat → Bool) (fuel : Nat) :
    Option SortedStock :=
  sortBoundedLoop P descending locked fuel (bothPools s.nbFilePossibility) s

variable {P}

/-- `expand_return_work_to_pool`: the packets go to the tail of a file, whose direction stays. -/
def expandReturnWorkToPool (s : SortedStock) (packets : List (Packet P)) (fp : Nat) : SortedStock :=
  s.set false fp ⟨packets.foldl poolPut (s.segment false fp).file, (s.segment false fp).sortState⟩

end SortedStock

end Operations

/-! ## True directions -/

section Sound

variable (P : Puzzle)

/-- The records are in the order that the direction says. -/
def FileSortState.InOrder : FileSortState → PoolFile → Prop
  | .unknown, _ => True
  | .asc, file => file.Pairwise fun r r' => recordPlaced P r ≤ recordPlaced P r'
  | .desc, file => file.Pairwise fun r r' => recordPlaced P r' ≤ recordPlaced P r

/-- The direction of the file is true, and its records can be sorted. -/
structure FilePossibility.Sound (segment : FilePossibility) : Prop where
  order : segment.sortState.InOrder P segment.file
  sortable : ∀ r ∈ segment.file, Sortable P r

/-- The direction of every file is true. -/
def SortedStock.Sound (s : SortedStock) : Prop := ∀ b f, (s.segment b f).Sound P

/-- A sort by hand in a direction does not make the direction of the file untrue: it is not the
other one, or the records all have as many pieces. -/
def FilePossibility.CanSort (descending : Bool) (segment : FilePossibility) : Prop :=
  segment.sortState ≠ wantedState (!descending) ∨
    ∀ r ∈ segment.file, ∀ r' ∈ segment.file, recordPlaced P r = recordPlaced P r'

/-- The same for the file 0 once the others are in it, which makes its direction unknown unless the
others are empty. -/
def SortedStock.CanSortRegrouped (s : SortedStock) (isChecked descending : Bool) : Prop :=
  (∃ f, 0 < f ∧ f < s.nbFilePossibility ∧ (s.segment isChecked f).file ≠ []) ∨
    (s.segment isChecked 0).CanSort P descending

variable {P} {file file' : PoolFile} {state : FileSortState} {segment : FilePossibility} {s s' : SortedStock}
  {b descending : Bool} {f fuel : Nat} {packet p : Packet P} {packets : List (Packet P)} {record : List Byte}

theorem FileSortState.InOrder.sublist (h : state.InOrder P file) (hfile : file'.Sublist file) :
    state.InOrder P file' := by
  cases state with
  | unknown => exact trivial
  | asc => exact List.Pairwise.sublist hfile h
  | desc => exact List.Pairwise.sublist hfile h

theorem FilePossibility.Sound.sublist (h : segment.Sound P) (hfile : file'.Sublist segment.file) :
    FilePossibility.Sound P ⟨file', segment.sortState⟩ :=
  ⟨h.order.sublist hfile, fun r hr => h.sortable r (hfile.subset hr)⟩

theorem FileSortState.inOrder_wanted : (wantedState descending).InOrder P file ↔
    file.Pairwise fun r r' => sortRel descending (recordPlaced P r) (recordPlaced P r') := by
  cases descending <;> exact Iff.rfl

/-- A record of the codec can be sorted. -/
theorem IsRecord.sortable (h : IsRecord P record) : Sortable P record :=
  ⟨List.length_pos_iff.mp h.length_pos, h.placed_le⟩

theorem sortable_foldl_poolPut (hfile : ∀ r ∈ file, Sortable P r) : ∀ r ∈ packets.foldl poolPut file, Sortable P r := by
  intro r hr
  rw [foldl_poolPut] at hr
  rcases List.mem_append.mp hr with hr | hr
  · exact hfile r hr
  · obtain ⟨p, -, hp⟩ := List.mem_filterMap.mp hr
    exact IsRecord.sortable ⟨p, hp⟩

theorem sortable_poolPut (hfile : ∀ r ∈ file, Sortable P r) : ∀ r ∈ poolPut file p, Sortable P r :=
  fun r hr => sortable_foldl_poolPut hfile r (show r ∈ [p].foldl poolPut file from hr)

namespace SortedStock

theorem Sound.set (h : s.Sound P) (hsegment : segment.Sound P) : (s.set b f segment).Sound P := by
  intro b' f'
  show FilePossibility.Sound P (if b' = b ∧ f' = f then segment else s.segment b' f')
  split
  · exact hsegment
  · exact h b' f'

theorem Sound.insert (h : s.Sound P) (packets : List (Packet P)) : (s.insert b f packets).Sound P :=
  h.set ⟨trivial, sortable_foldl_poolPut (h b f).sortable⟩

theorem Sound.poolRefill (h : s.Sound P) (input : List (Packet P × Nat)) : (s.poolRefill b input).Sound P := by
  unfold SortedStock.poolRefill
  induction input generalizing s with
  | nil => exact h
  | cons p input ih => exact ih (h.insert [p.1])

theorem Sound.poolRefillCompact (h : s.Sound P) {records : List (List Byte)} (hrecords : ∀ r ∈ records, IsRecord P r) :
    (s.poolRefillCompact b f records).Sound P := by
  refine h.set ⟨trivial, ?_⟩
  have hsortable := (h b f).sortable
  generalize (s.segment b f).file = file at hsortable
  induction records generalizing file with
  | nil => exact hsortable
  | cons record records ih =>
    refine ih (fun r hr => hrecords r (List.mem_cons_of_mem _ hr)) _ fun r hr => ?_
    unfold putSized at hr
    split at hr
    · exact hsortable r hr
    · rcases List.mem_append.mp hr with hr | hr
      · exact hsortable r hr
      · exact List.mem_singleton.mp hr ▸ (hrecords record List.mem_cons_self).sortable

theorem Sound.removeElement (h : s.Sound P) (index : Nat) : (s.removeElement b f index).Sound P :=
  h.set ((h b f).sublist (List.eraseIdx_sublist ..))

theorem Sound.clear (h : s.Sound P) (pools : Bool → Bool) : (s.clear pools).Sound P := by
  intro b f
  show FilePossibility.Sound P (if pools b ∧ f < s.nbFilePossibility then ⟨[], (s.segment b f).sortState⟩ else s.segment b f)
  split
  · exact (h b f).sublist (List.nil_sublist _)
  · exact h b f

theorem scrollLoop_sublist (toMove : Nat) (file : PoolFile) : (scrollLoop P toMove file).2.Sublist file := by
  induction toMove generalizing file with
  | zero => exact List.Sublist.refl file
  | succ toMove ih =>
    have hscroll : (poolScroll P file).2.Sublist file := by
      unfold poolScroll scrollSized
      split
      · exact List.Sublist.refl file
      · rename_i record rest heq
        split at heq
        · cases heq
        · split at heq
          · cases heq
          · cases heq
            exact List.dropLast_sublist file
    unfold scrollLoop
    split
    · rename_i rest heq
      rw [heq] at hscroll
      exact hscroll
    · rename_i packet rest heq
      rw [heq] at hscroll
      exact (ih rest).trans hscroll

theorem Sound.rebalancePoolStep (h : s.Sound P) (toMove : Nat) (dests : List Nat) :
    (s.rebalancePoolStep P b f toMove dests).Sound P :=
  (h.set ((h b f).sublist (scrollLoop_sublist toMove _))).poolRefill _

theorem sound_foldl_regroupRecord {state : FilePossibility × Packet P} {records : List (List Byte)}
    (h : state.1.Sound P) : (records.foldl regroupRecord state).1.Sound P := by
  induction records generalizing state with
  | nil => exact h
  | cons record records ih => exact ih ⟨trivial, sortable_poolPut h.sortable⟩

theorem Sound.regroupPool (h : s.Sound P) : (s.regroupPool packet b).Sound P := by
  intro b' f'
  unfold SortedStock.regroupPool
  dsimp only
  split_ifs
  · exact sound_foldl_regroupRecord (h b 0)
  · exact (h b' f').sublist (List.nil_sublist _)
  · exact h b' f'
  · exact h b' f'

theorem Sound.fillLoop {quotient : Nat} {files : List Nat} (h : s.Sound P) :
    (fillLoop b quotient files s packets).1.Sound P := by
  have hfill : ∀ (packets : List (Packet P)) (segment : FilePossibility), segment.Sound P →
      (fillSegment quotient packets segment).1.Sound P := by
    intro packets
    induction packets with
    | nil => exact fun segment hsegment => hsegment
    | cons p packets ih =>
      intro segment hsegment
      unfold fillSegment
      split
      · exact ih _ ⟨trivial, sortable_poolPut hsegment.sortable⟩
      · exact hsegment
  induction files generalizing s packets with
  | nil => exact h
  | cons f files ih => exact ih (h.set (hfill packets _ (h b f)))

theorem Sound.splitPool {nbsplit : Nat} (h : s.Sound P) : (s.splitPool packet b nbsplit).Sound P := by
  have hregrouped : (s.regroupPool packet b).Sound P := h.regroupPool
  unfold SortedStock.splitPool
  dsimp only
  have hemptied := hregrouped.set (b := b) (f := 0) ((hregrouped b 0).sublist (List.nil_sublist _))
  split
  · exact hemptied.fillLoop
  · exact hemptied.fillLoop.insert _

theorem canSort_of_unknown (h : segment.sortState = .unknown) : segment.CanSort P descending := by
  refine .inl ?_
  rw [h]
  cases descending <;> decide

theorem canSort_of_nil (h : segment.file = []) : segment.CanSort P descending := by
  refine .inr fun r hr => ?_
  rw [h] at hr
  cases hr

/-- Elements that all have as many pieces can still be sorted in another order. -/
theorem canSort_perm (h : segment.CanSort P descending) (hperm : file'.Perm segment.file) :
    FilePossibility.CanSort P descending ⟨file', segment.sortState⟩ :=
  h.imp_right fun huniform r hr r' hr' => huniform r (hperm.mem_iff.mp hr) r' (hperm.mem_iff.mp hr')

/-- A file that can be sorted by hand keeps a true direction. -/
theorem sound_of_canSort (h : segment.Sound P) (hcan : segment.CanSort P descending)
    (hsort : sortRecords P descending fuel segment.file = some file') :
    FilePossibility.Sound P ⟨file', segment.sortState⟩ := by
  obtain ⟨hperm, hsorted⟩ := sortRecords_spec h.sortable hsort
  refine ⟨?_, fun r hr => h.sortable r (hperm.mem_iff.mp hr)⟩
  rcases hcan with hne | huniform
  · cases hstate : segment.sortState with
    | unknown => exact trivial
    | asc =>
      cases descending with
      | false => exact hsorted
      | true => exact absurd hstate hne
    | desc =>
      cases descending with
      | false => exact absurd hstate hne
      | true => exact hsorted
  · have hequal : ∀ r ∈ file', ∀ r' ∈ file', recordPlaced P r = recordPlaced P r' := fun r hr r' hr' =>
      huniform r (hperm.mem_iff.mp hr) r' (hperm.mem_iff.mp hr')
    cases segment.sortState with
    | unknown => exact trivial
    | asc => exact List.pairwise_of_forall_mem_list fun r hr r' hr' => (hequal r hr r' hr').le
    | desc => exact List.pairwise_of_forall_mem_list fun r hr r' hr' => (hequal r' hr' r hr).le

theorem sound_sortSegments {segments : List (Bool × Nat)} (h : s.Sound P)
    (hcan : ∀ x ∈ segments, (s.segment x.1 x.2).CanSort P descending)
    (hsort : sortSegments P descending fuel segments s = some s') : s'.Sound P := by
  induction segments generalizing s with
  | nil =>
    cases hsort
    exact h
  | cons x segments ih =>
    obtain ⟨b, f⟩ := x
    obtain ⟨file, hfile, hrest⟩ := Option.bind_eq_some_iff.mp hsort
    have hb := hcan (b, f) List.mem_cons_self
    refine ih (h.set (sound_of_canSort (h b f) hb hfile)) (fun x hx => ?_) hrest
    show FilePossibility.CanSort P descending (if x.1 = b ∧ x.2 = f then _ else _)
    split
    · exact canSort_perm hb (sortRecords_spec (h b f).sortable hfile).1
    · exact hcan x (List.mem_cons_of_mem _ hx)

/-- A sort by hand changes no direction, and no file that it is not asked for. -/
theorem segment_sortSegments {segments : List (Bool × Nat)} (hsort : sortSegments P descending fuel segments s = some s') :
    s'.nbFilePossibility = s.nbFilePossibility ∧ (∀ b f, (b, f) ∉ segments → s'.segment b f = s.segment b f) ∧
      ∀ b f, (s'.segment b f).sortState = (s.segment b f).sortState ∧
        ((s.segment b f).file = [] → (s'.segment b f).file = []) := by
  induction segments generalizing s with
  | nil =>
    cases hsort
    exact ⟨rfl, fun _ _ _ => rfl, fun _ _ => ⟨rfl, id⟩⟩
  | cons x segments ih =>
    obtain ⟨b, f⟩ := x
    obtain ⟨file, hfile, hrest⟩ := Option.bind_eq_some_iff.mp hsort
    obtain ⟨hnb, hothers, hstate⟩ := ih hrest
    have hset : ∀ b' f', (b', f') ≠ (b, f) →
        (s.set b f ⟨file, (s.segment b f).sortState⟩).segment b' f' = s.segment b' f' :=
      fun b' f' hne => if_neg fun heq => hne (Prod.ext heq.1 heq.2)
    have hself : (s.set b f ⟨file, (s.segment b f).sortState⟩).segment b f = ⟨file, (s.segment b f).sortState⟩ :=
      if_pos ⟨rfl, rfl⟩
    refine ⟨hnb, fun b' f' hnot => ?_, fun b' f' => ?_⟩
    · rw [List.mem_cons, not_or] at hnot
      rw [hothers b' f' hnot.2, hset b' f' hnot.1]
    · obtain ⟨hstate', hempty⟩ := hstate b' f'
      by_cases heq : (b', f') = (b, f)
      · obtain ⟨rfl, rfl⟩ := Prod.mk.inj heq
        rw [hself] at hstate' hempty
        refine ⟨hstate', fun hnil => hempty ?_⟩
        rw [hnil] at hfile
        exact List.perm_nil.mp (sortRecords_spec (by simp) hfile).1
      · rw [hset b' f' heq] at hstate' hempty
        exact ⟨hstate', hempty⟩

/-- A record that is regrouped makes the direction of the file 0 unknown. -/
theorem foldl_regroupRecord (state : FilePossibility × Packet P) (records : List (List Byte)) :
    (records = [] ∧ (records.foldl regroupRecord state).1 = state.1) ∨
      records ≠ [] ∧ (records.foldl regroupRecord state).1.sortState = .unknown := by
  rcases List.eq_nil_or_concat records with rfl | ⟨records, record, rfl⟩
  · exact .inl ⟨rfl, rfl⟩
  · refine .inr ⟨by simp, ?_⟩
    rw [List.concat_eq_append, List.foldl_append]
    rfl

/-- The file 0 after a regroupment. -/
theorem segment_regroupPool_zero (s : SortedStock) (packet : Packet P) (b : Bool) :
    ((∀ f, 0 < f → f < s.nbFilePossibility → (s.segment b f).file = []) ∧
        (s.regroupPool packet b).segment b 0 = s.segment b 0) ∨
      ((s.regroupPool packet b).segment b 0).sortState = .unknown := by
  have hzero : (s.regroupPool packet b).segment b 0 =
      (((List.range (s.nbFilePossibility - 1)).flatMap fun fp => (s.segment b (fp + 1)).file.reverse).foldl
        regroupRecord (s.segment b 0, packet)).1 := by
    unfold SortedStock.regroupPool
    dsimp only
    rw [if_pos rfl, if_pos rfl]
  rw [hzero]
  rcases foldl_regroupRecord (s.segment b 0, packet)
    ((List.range (s.nbFilePossibility - 1)).flatMap fun fp => (s.segment b (fp + 1)).file.reverse) with ⟨hnil, heq⟩ | ⟨-, h⟩
  · refine .inl ⟨fun f hpos hlt => ?_, heq⟩
    have hf := List.flatMap_eq_nil_iff.mp hnil (f - 1) (List.mem_range.mpr (by omega))
    rw [Nat.sub_add_cancel hpos] at hf
    exact List.reverse_eq_nil_iff.mp hf
  · exact .inr h

theorem canSort_regroupPool (h : s.CanSortRegrouped P b descending) :
    ((s.regroupPool packet b).segment b 0).CanSort P descending := by
  rcases segment_regroupPool_zero s packet b with ⟨hempty, heq⟩ | hunknown
  · rw [heq]
    refine h.resolve_left ?_
    rintro ⟨f, hpos, hlt, hne⟩
    exact hne (hempty f hpos hlt)
  · exact canSort_of_unknown hunknown

theorem segment_regroupPool_other (s : SortedStock) (packet : Packet P) {b b' : Bool} (hne : b' ≠ b) (f : Nat) :
    (s.regroupPool packet b).segment b' f = s.segment b' f :=
  if_neg hne

theorem Sound.sortRegrouped (h : s.Sound P) (hcan : ∀ b, s.CanSortRegrouped P b descending)
    (hsort : s.sortRegrouped packet descending fuel = some s') : s'.Sound P := by
  obtain ⟨t, hfirst, hsecond⟩ := Option.bind_eq_some_iff.mp hsort
  have hunchecked : ((s.regroupPool packet false).segment false 0).CanSort P descending := canSort_regroupPool (hcan false)
  have ht : t.Sound P := sound_sortSegments h.regroupPool (by simpa using hunchecked) hfirst
  obtain ⟨hnb, hothers, -⟩ := segment_sortSegments hfirst
  -- The verified pool is still what it was.
  have hsame : ∀ f, t.segment true f = s.segment true f := by
    intro f
    rw [hothers true f (by simp), segment_regroupPool_other s packet (by decide)]
  have hchecked : t.CanSortRegrouped P true descending := by
    have hcheck := hcan true
    unfold SortedStock.CanSortRegrouped at hcheck ⊢
    simp only [hsame]
    rwa [hnb]
  have hregrouped : ((t.regroupPool packet true).segment true 0).CanSort P descending := canSort_regroupPool hchecked
  exact sound_sortSegments ht.regroupPool (by simpa using hregrouped) hsecond

theorem Sound.sortBoundedLoop {locked : Bool → Nat → Bool} {segments : List (Bool × Nat)} (h : s.Sound P)
    (hsort : sortBoundedLoop P descending locked fuel segments s = some s') : s'.Sound P := by
  induction segments generalizing s with
  | nil =>
    cases hsort
    exact h
  | cons x segments ih =>
    obtain ⟨b, f⟩ := x
    unfold SortedStock.sortBoundedLoop at hsort
    split at hsort
    · exact ih h hsort
    · split at hsort
      · exact ih h hsort
      · obtain ⟨file, hfile, hrest⟩ := Option.bind_eq_some_iff.mp hsort
        obtain ⟨hperm, hsorted⟩ := sortRecords_spec (h b f).sortable hfile
        refine ih (h.set ⟨FileSortState.inOrder_wanted.mpr hsorted, fun r hr => ?_⟩) hrest
        exact (h b f).sortable r (hperm.mem_iff.mp hr)

/-- What a split leaves: a file that took a packet has no direction, and the others are empty. -/
def Settled (s : SortedStock) (b : Bool) : Prop :=
  ∀ f < s.nbFilePossibility, (s.segment b f).sortState = .unknown ∨ (s.segment b f).file = []

theorem fillSegment_settled {quotient : Nat} (h : segment.sortState = .unknown ∨ segment.file = []) :
    (fillSegment quotient packets segment).1.sortState = .unknown ∨ (fillSegment quotient packets segment).1.file = [] := by
  induction packets generalizing segment with
  | nil => exact h
  | cons p packets ih =>
    unfold fillSegment
    split
    · exact ih (.inl rfl)
    · exact h

theorem Settled.set (h : s.Settled b) (hsegment : segment.sortState = .unknown ∨ segment.file = []) :
    (s.set b f segment).Settled b := by
  intro f' hf'
  show FilePossibility.sortState (if b = b ∧ f' = f then segment else s.segment b f') = _ ∨
    FilePossibility.file (if b = b ∧ f' = f then segment else s.segment b f') = _
  split
  · exact hsegment
  · exact h f' hf'

theorem Settled.fillLoop {quotient : Nat} {files : List Nat} (h : s.Settled b)
    (hfiles : ∀ f ∈ files, f < s.nbFilePossibility) : (fillLoop b quotient files s packets).1.Settled b := by
  induction files generalizing s packets with
  | nil => exact h
  | cons f files ih =>
    refine ih (h.set (fillSegment_settled (h f (hfiles f List.mem_cons_self)))) fun f' hf' => ?_
    exact hfiles f' (List.mem_cons_of_mem f hf')

theorem settled_splitPool (s : SortedStock) (packet : Packet P) (b : Bool) {nbsplit : Nat} (hle : nbsplit ≤ s.nbFilePossibility) :
    (s.splitPool packet b nbsplit).Settled b := by
  have hemptied : ((s.regroupPool packet b).set b 0 ⟨[], ((s.regroupPool packet b).segment b 0).sortState⟩).Settled b := by
    intro f hf
    have hlt : f < s.nbFilePossibility := hf
    refine .inr ?_
    by_cases hzero : f = 0
    · simp [SortedStock.set, hzero]
    · simp [SortedStock.set, SortedStock.regroupPool, hzero, hlt]
  have hfilled : ∀ quotient (packets : List (Packet P)), (fillLoop b quotient (List.range nbsplit)
      ((s.regroupPool packet b).set b 0 ⟨[], ((s.regroupPool packet b).segment b 0).sortState⟩) packets).1.Settled b :=
    fun quotient packets => hemptied.fillLoop fun f hf => (List.mem_range.mp hf).trans_le hle
  unfold SortedStock.splitPool
  dsimp only
  split
  · exact hfilled _ _
  · exact (hfilled _ _).set (.inl rfl)

theorem splitPool_nb (s : SortedStock) (packet : Packet P) (b : Bool) (nbsplit : Nat) :
    (s.splitPool packet b nbsplit).nbFilePossibility = s.nbFilePossibility := by
  have hfill : ∀ (quotient : Nat) (files : List Nat) (t : SortedStock) (packets : List (Packet P)),
      (fillLoop b quotient files t packets).1.nbFilePossibility = t.nbFilePossibility := by
    intro quotient files
    induction files with
    | nil => exact fun _ _ => rfl
    | cons f files ih => exact fun t packets => ih _ _
  unfold SortedStock.splitPool
  dsimp only
  split
  · exact hfill ..
  · exact hfill ..

/-- A split stays in its pool. -/
theorem segment_splitPool_other (s : SortedStock) (packet : Packet P) {b b' : Bool} (hne : b' ≠ b) (nbsplit f : Nat) :
    (s.splitPool packet b nbsplit).segment b' f = s.segment b' f := by
  have hset : ∀ (t : SortedStock) (g : Nat) (segment : FilePossibility),
      (t.set b g segment).segment b' f = t.segment b' f := fun t g segment => if_neg fun h => hne h.1
  have hfill : ∀ (quotient : Nat) (files : List Nat) (t : SortedStock) (packets : List (Packet P)),
      (fillLoop b quotient files t packets).1.segment b' f = t.segment b' f := by
    intro quotient files
    induction files with
    | nil => exact fun _ _ => rfl
    | cons g files ih => exact fun t packets => (ih _ _).trans (hset t g _)
  have hemptied := (hset (s.regroupPool packet b) 0 ⟨[], ((s.regroupPool packet b).segment b 0).sortState⟩).trans
    (segment_regroupPool_other s packet hne f)
  unfold SortedStock.splitPool
  dsimp only
  split
  · exact (hfill ..).trans hemptied
  · exact (hset ..).trans ((hfill ..).trans hemptied)

theorem Settled.canSort (h : s.Settled b) (hf : f < s.nbFilePossibility) : (s.segment b f).CanSort P descending := by
  rcases h f hf with hunknown | hnil
  · exact canSort_of_unknown hunknown
  · exact canSort_of_nil hnil

/-- A round of the sort by several threads: whatever the directions were, a split forgets them. -/
theorem Sound.mthreadRound {nbfile : Nat} (h : s.Sound P) (hle : nbfile ≤ s.nbFilePossibility)
    (hsort : sortdmthread P (s.splitPool packet false nbfile) fuel = some s') :
    s'.Sound P ∧ s'.Settled false ∧ s'.nbFilePossibility = s.nbFilePossibility ∧
      ∀ f, s'.segment true f = s.segment true f := by
  have hsettled := settled_splitPool s packet false hle
  have hnb := splitPool_nb s packet false nbfile
  obtain ⟨hnb', hothers, hstate⟩ := segment_sortSegments hsort
  refine ⟨sound_sortSegments h.splitPool (fun x hx => ?_) hsort, fun f hf => ?_, hnb'.trans hnb, fun f => ?_⟩
  · obtain ⟨f, hf, rfl⟩ := List.mem_map.mp hx
    exact hsettled.canSort (List.mem_range.mp hf)
  · obtain ⟨hsame, hnil⟩ := hstate false f
    rw [hsame]
    exact (hsettled f (hnb' ▸ hf)).imp_right hnil
  · rw [hothers true f (by simp), segment_splitPool_other s packet (by decide)]

/-- The rounds keep the verified pool, and leave the other settled when there is one of them. -/
theorem Sound.mthreadRounds {rounds n nbfile : Nat} (h : s.Sound P) (hle : nbfile ≤ s.nbFilePossibility) (hn : 0 < n)
    (hsort : mthreadRounds P packet fuel rounds n nbfile s = some s') :
    s'.Sound P ∧ (s.Settled false ∨ 0 < rounds ∧ n < nbfile → s'.Settled false) ∧
      s'.nbFilePossibility = s.nbFilePossibility ∧ ∀ f, s'.segment true f = s.segment true f := by
  induction rounds generalizing s n nbfile with
  | zero =>
    cases hsort
    exact ⟨h, fun hsettled => hsettled.resolve_right (by omega), rfl, fun _ => rfl⟩
  | succ rounds ih =>
    unfold SortedStock.mthreadRounds at hsort
    split at hsort
    · rename_i hlt
      obtain ⟨t, hround, hrest⟩ := Option.bind_eq_some_iff.mp hsort
      have hquotient : (nbfile + n - 1) / n ≤ nbfile := by
        obtain ⟨k, rfl⟩ := Nat.exists_eq_add_of_lt hn
        obtain ⟨m, rfl⟩ := Nat.exists_eq_add_of_lt hlt
        refine Nat.div_le_of_le_mul ?_
        simp only [Nat.add_mul, Nat.mul_add]
        omega
      obtain ⟨ht, hsettled, hnb, hsame⟩ := h.mthreadRound (hquotient.trans hle) hround
      obtain ⟨hs', hkeeps, hnb', hsame'⟩ := ih ht (hnb ▸ hquotient.trans hle) (Nat.succ_pos n) hrest
      exact ⟨hs', fun _ => hkeeps (.inl hsettled), hnb'.trans hnb, fun f => (hsame' f).trans (hsame f)⟩
    · rename_i hge
      cases hsort
      exact ⟨h, fun hsettled => hsettled.resolve_right (by omega), rfl, fun _ => rfl⟩

variable (P) in
/-- The sort by several threads ends with a descending sort of the verified pool in its file 0, and
of the other one too; with two files or more, that one has been split before. -/
def CanSortMthread (s : SortedStock) : Prop :=
  s.CanSortRegrouped P true true ∧ (s.nbFilePossibility ≤ 1 → s.CanSortRegrouped P false true)

theorem canSortRegrouped_congr (hnb : s'.nbFilePossibility = s.nbFilePossibility)
    (hsame : ∀ f, s'.segment b f = s.segment b f) (h : s.CanSortRegrouped P b descending) :
    s'.CanSortRegrouped P b descending := by
  unfold SortedStock.CanSortRegrouped at h ⊢
  simp only [hsame]
  rwa [hnb]

theorem Sound.sortDescendingMthread (h : s.Sound P) (hcan : s.CanSortMthread P)
    (hsort : s.sortDescendingMthread packet fuel = some s') : s'.Sound P := by
  obtain ⟨t, hrounds, hlast⟩ := Option.bind_eq_some_iff.mp hsort
  obtain ⟨ht, hsettled, hnb, hsame⟩ := h.mthreadRounds le_rfl Nat.one_pos hrounds
  refine ht.sortRegrouped (fun b => ?_) hlast
  cases b with
  | true => exact canSortRegrouped_congr hnb hsame hcan.1
  | false =>
    by_cases hone : s.nbFilePossibility ≤ 1
    · have hround : t = s := by
        unfold SortedStock.mthreadRounds at hrounds
        split at hrounds
        · exact (Option.some.inj hrounds).symm
        · rw [if_neg (by omega)] at hrounds
          exact (Option.some.inj hrounds).symm
      exact hround ▸ hcan.2 hone
    · exact .inr ((hsettled (.inr ⟨by omega, by omega⟩)).canSort (by omega))

variable (P) in
/-- The verified files can be spliced behind the others: the direction of a file that takes packets
is true of all of them. -/
def CanReset (s : SortedStock) : Prop :=
  ∀ f < s.nbFilePossibility, (s.segment true f).file ≠ [] →
    (s.segment false f).sortState.InOrder P ((s.segment false f).file ++ (s.segment true f).file)

/-- The flag of a record is not in the part that the number of pieces is read from. -/
theorem recordPlaced_poke (record : List Byte) (checked : Bool) :
    recordPlaced P (packetCodecPokeChecked record checked) = recordPlaced P record := by
  unfold recordPlaced packetCodecPeekPlaced packetCodecPokeChecked
  split
  · rfl
  · rw [List.length_set, List.drop_set_of_lt (by decide)]

theorem sortable_poke (h : Sortable P record) (checked : Bool) : Sortable P (packetCodecPokeChecked record checked) := by
  refine ⟨?_, recordPlaced_poke record checked ▸ h.2⟩
  unfold packetCodecPokeChecked
  split
  · exact h.1
  · exact fun hnil => h.1 (by simpa using hnil)

/-- The order of a file depends on the numbers of pieces only. -/
theorem inOrder_map {change : List Byte → List Byte} (hchange : ∀ r, recordPlaced P (change r) = recordPlaced P r)
    (h : state.InOrder P (file ++ file')) : state.InOrder P (file ++ file'.map change) := by
  have hpairs : ∀ {R : Nat → Nat → Prop}, (file ++ file').Pairwise (fun r r' => R (recordPlaced P r) (recordPlaced P r')) →
      (file ++ file'.map change).Pairwise fun r r' => R (recordPlaced P r) (recordPlaced P r') := by
    intro R hR
    refine List.pairwise_map.mp ?_
    have hmap := List.pairwise_map (f := recordPlaced P) |>.mpr hR
    rw [List.map_append] at hmap ⊢
    rwa [List.map_map, show recordPlaced P ∘ change = recordPlaced P from funext hchange]
  cases state with
  | unknown => exact trivial
  | asc => exact hpairs (R := (· ≤ ·)) h
  | desc => exact hpairs (R := (· ≥ ·)) h

theorem Sound.resetCheckedPool (h : s.Sound P) (hcan : s.CanReset P) : s.resetCheckedPool.Sound P := by
  intro b f
  unfold SortedStock.resetCheckedPool
  dsimp only
  split
  · rename_i hspliced
    cases b with
    | true => exact (h true f).sublist (List.nil_sublist _)
    | false =>
      refine ⟨inOrder_map (recordPlaced_poke · false) (hcan f hspliced.1 hspliced.2), fun r hr => ?_⟩
      rcases List.mem_append.mp hr with hr | hr
      · exact (h false f).sortable r hr
      · obtain ⟨r', hr', rfl⟩ := List.mem_map.mp hr
        exact sortable_poke ((h true f).sortable r' hr') false
  · exact h b f

/-- The packets that come back from an expansion fit behind the file that takes them. -/
def CanReturn (s : SortedStock) (packets : List (Packet P)) (fp : Nat) : Prop :=
  (s.segment false fp).sortState.InOrder P ((s.segment false fp).file ++ packets.filterMap recordOf)

theorem Sound.expandReturnWorkToPool {fp : Nat} (h : s.Sound P) (hcan : s.CanReturn packets fp) :
    (s.expandReturnWorkToPool packets fp).Sound P := by
  refine h.set ⟨?_, sortable_foldl_poolPut (h false fp).sortable⟩
  rw [foldl_poolPut]
  exact hcan

/-- The bounded sort forgets no direction, and gives its own to every file that it locks. -/
theorem sortState_sortBoundedLoop {locked : Bool → Nat → Bool} {segments : List (Bool × Nat)}
    (hsort : sortBoundedLoop P descending locked fuel segments s = some s') :
    ∀ b f, (s.segment b f).sortState = wantedState descending ∨ (b, f) ∈ segments ∧ locked b f = true →
      (s'.segment b f).sortState = wantedState descending := by
  induction segments generalizing s with
  | nil =>
    cases hsort
    exact fun b f h => h.resolve_right fun hmem => List.not_mem_nil hmem.1
  | cons x segments ih =>
    obtain ⟨c, g⟩ := x
    intro b f h
    unfold SortedStock.sortBoundedLoop at hsort
    split at hsort
    · rename_i hstate
      refine ih hsort b f ?_
      rcases h with h | ⟨hmem, hlocked⟩
      · exact .inl h
      · rcases List.mem_cons.mp hmem with heq | hmem
        · cases heq
          exact .inl hstate
        · exact .inr ⟨hmem, hlocked⟩
    · split at hsort
      · rename_i hbusy
        refine ih hsort b f (h.imp_right fun ⟨hmem, hlocked⟩ => ⟨?_, hlocked⟩)
        rcases List.mem_cons.mp hmem with heq | hmem
        · cases heq
          exact absurd hlocked (by rw [hbusy]; exact Bool.false_ne_true)
        · exact hmem
      · obtain ⟨file, -, hrest⟩ := Option.bind_eq_some_iff.mp hsort
        refine ih hrest b f ?_
        by_cases heq : b = c ∧ f = g
        · exact .inl (congrArg FilePossibility.sortState (if_pos heq))
        · rw [show (s.set c g ⟨file, wantedState descending⟩).segment b f = s.segment b f from if_neg heq]
          refine h.imp_right fun ⟨hmem, hlocked⟩ => ⟨(List.mem_cons.mp hmem).resolve_left fun hself => heq ?_, hlocked⟩
          cases hself
          exact ⟨rfl, rfl⟩

/-- The bounded sort ends. -/
theorem exists_sortBoundedLoop (descending : Bool) (locked : Bool → Nat → Bool) {segments : List (Bool × Nat)} (h : s.Sound P) :
    ∃ fuel s', ∀ fuel' ≥ fuel, sortBoundedLoop P descending locked fuel' segments s = some s' := by
  induction segments generalizing s with
  | nil => exact ⟨0, s, fun _ _ => rfl⟩
  | cons x segments ih =>
    obtain ⟨b, f⟩ := x
    unfold SortedStock.sortBoundedLoop
    split
    · exact ih h
    · split
      · exact ih h
      · obtain ⟨fuel, file, hfile, hperm, hsorted⟩ := exists_sortRecords descending (h b f).sortable
        have hset : (s.set b f ⟨file, wantedState descending⟩).Sound P :=
          h.set ⟨FileSortState.inOrder_wanted.mpr hsorted, fun r hr => (h b f).sortable r (hperm.mem_iff.mp hr)⟩
        obtain ⟨fuel', s', hrest⟩ := ih hset
        refine ⟨max fuel fuel', s', fun fuel₀ hle => ?_⟩
        rw [hfile fuel₀ ((Nat.le_max_left ..).trans hle)]
        exact hrest fuel₀ ((Nat.le_max_right ..).trans hle)

end SortedStock

end Sound

/-! ## Runs -/

section Runs

variable {P : Puzzle}

/-- `init`: every file is empty, and its direction unknown. -/
def SortedStock.init (nbFilePossibility : Nat) : SortedStock := ⟨nbFilePossibility, fun _ _ => ⟨[], .unknown⟩⟩

variable (P) in
/-- What can happen to the files. The regroupments also take the packet that their buffer still
holds, and the sorts the number of turns that they are given. -/
inductive SortOp where
  | putToPool (possibilities : List (Packet P)) (wantChecked : Bool) (currfile : Nat)
  | putBackToStock (pk : Packet P) (dest : Nat)
  | poolRefill (isChecked : Bool) (input : List (Packet P × Nat))
  | poolRefillCompact (isChecked : Bool) (fileIndex : Nat) (records : List {r // IsRecord P r})
  | removeElement (isChecked : Bool) (file index : Nat)
  | clear (pools : Bool → Bool)
  | rebalancePoolStep (isChecked : Bool) (fullest toMove : Nat) (dests : List Nat)
  | regroupDatas (packet : Packet P)
  | resetCheckedPool
  | sortAscending (packet : Packet P) (fuel : Nat)
  | sortDescending (packet : Packet P) (fuel : Nat)
  | sortAscendingFiles (fuel : Nat)
  | sortDescendingFiles (fuel : Nat)
  | sortDescendingMthread (packet : Packet P) (fuel : Nat)
  | sortFilesBounded (descending : Bool) (locked : Bool → Nat → Bool) (fuel : Nat)
  | expandReturnWorkToPool (packets : List (Packet P)) (fp : Nat)

namespace SortedStock

/-- An operation on the files, that a sort without enough turns does not finish. -/
def step (s : SortedStock) : SortOp P → Option SortedStock
  | .putToPool possibilities wantChecked currfile => some (s.putToPool possibilities wantChecked currfile)
  | .putBackToStock pk dest => some (s.putBackToStock pk dest)
  | .poolRefill isChecked input => some (s.poolRefill isChecked input)
  | .poolRefillCompact isChecked fileIndex records => some (s.poolRefillCompact isChecked fileIndex (records.map (·.1)))
  | .removeElement isChecked file index => some (s.removeElement isChecked file index)
  | .clear pools => some (s.clear pools)
  | .rebalancePoolStep isChecked fullest toMove dests => some (s.rebalancePoolStep P isChecked fullest toMove dests)
  | .regroupDatas packet => some (s.regroupDatas packet)
  | .resetCheckedPool => some s.resetCheckedPool
  | .sortAscending packet fuel => s.sortAscending packet fuel
  | .sortDescending packet fuel => s.sortDescending packet fuel
  | .sortAscendingFiles fuel => s.sortAscendingFiles P fuel
  | .sortDescendingFiles fuel => s.sortDescendingFiles P fuel
  | .sortDescendingMthread packet fuel => s.sortDescendingMthread packet fuel
  | .sortFilesBounded descending locked fuel => s.sortFilesBounded P descending locked fuel
  | .expandReturnWorkToPool packets fp => some (s.expandReturnWorkToPool packets fp)

variable (P) in
/-- Every file can be sorted by hand. -/
def CanSortFiles (s : SortedStock) (descending : Bool) : Prop :=
  ∀ b, ∀ f < s.nbFilePossibility, (s.segment b f).CanSort P descending

/-- The operation keeps the directions true. -/
def Keeps (s : SortedStock) : SortOp P → Prop
  | .resetCheckedPool => s.CanReset P
  | .sortAscending _ _ => ∀ b, s.CanSortRegrouped P b false
  | .sortDescending _ _ => ∀ b, s.CanSortRegrouped P b true
  | .sortAscendingFiles _ => s.CanSortFiles P false
  | .sortDescendingFiles _ => s.CanSortFiles P true
  | .sortDescendingMthread _ _ => s.CanSortMthread P
  | .expandReturnWorkToPool packets fp => s.CanReturn packets fp
  | _ => True

theorem sound_init (nbFilePossibility : Nat) : (SortedStock.init nbFilePossibility).Sound P :=
  fun _ _ => ⟨trivial, fun _ hr => absurd hr List.not_mem_nil⟩

variable {s s' : SortedStock} {op : SortOp P} {descending : Bool} {fuel : Nat}

theorem Sound.sortFiles (h : s.Sound P) (hcan : s.CanSortFiles P descending)
    (hsort : sortSegments P descending fuel (bothPools s.nbFilePossibility) s = some s') : s'.Sound P := by
  refine sound_sortSegments h (fun x hx => ?_) hsort
  obtain ⟨f, hf, hx⟩ := List.mem_flatMap.mp hx
  have hlt := List.mem_range.mp hf
  rcases List.mem_cons.mp hx with rfl | hx
  · exact hcan false f hlt
  · obtain rfl := List.mem_singleton.mp hx
    exact hcan true f hlt

/-- One operation. -/
theorem Sound.step (h : s.Sound P) (hkeeps : s.Keeps op) (hstep : s.step op = some s') : s'.Sound P := by
  cases op with
  | putToPool possibilities wantChecked currfile =>
    cases hstep
    unfold SortedStock.putToPool
    split
    · exact h
    · exact h.insert _
  | putBackToStock pk dest =>
    cases hstep
    exact h.insert _
  | poolRefill isChecked input =>
    cases hstep
    exact h.poolRefill input
  | poolRefillCompact isChecked fileIndex records =>
    cases hstep
    refine h.poolRefillCompact fun r hr => ?_
    obtain ⟨record, -, rfl⟩ := List.mem_map.mp hr
    exact record.2
  | removeElement isChecked file index =>
    cases hstep
    exact h.removeElement index
  | clear pools =>
    cases hstep
    exact h.clear pools
  | rebalancePoolStep isChecked fullest toMove dests =>
    cases hstep
    exact h.rebalancePoolStep toMove dests
  | regroupDatas packet =>
    cases hstep
    exact h.regroupPool.regroupPool
  | resetCheckedPool =>
    cases hstep
    exact h.resetCheckedPool hkeeps
  | sortAscending packet fuel => exact h.sortRegrouped hkeeps hstep
  | sortDescending packet fuel => exact h.sortRegrouped hkeeps hstep
  | sortAscendingFiles fuel => exact h.sortFiles hkeeps hstep
  | sortDescendingFiles fuel => exact h.sortFiles hkeeps hstep
  | sortDescendingMthread packet fuel => exact h.sortDescendingMthread hkeeps hstep
  | sortFilesBounded descending locked fuel => exact h.sortBoundedLoop hstep
  | expandReturnWorkToPool packets fp =>
    cases hstep
    exact h.expandReturnWorkToPool hkeeps

/-- The bounded sort ends, and the files that it locks are sorted. -/
theorem Sound.sortFilesBounded (h : s.Sound P) (descending : Bool) (locked : Bool → Nat → Bool) :
    ∃ fuel s', s.sortFilesBounded P descending locked fuel = some s' ∧
      ∀ b, ∀ f < s.nbFilePossibility, locked b f = true →
        (s'.segment b f).file.Pairwise fun r r' => sortRel descending (recordPlaced P r) (recordPlaced P r') := by
  obtain ⟨fuel, s', hsort⟩ := exists_sortBoundedLoop descending locked h
  have hloop := hsort fuel le_rfl
  refine ⟨fuel, s', hloop, fun b f hf hlocked => FileSortState.inOrder_wanted.mp ?_⟩
  have hmem : (b, f) ∈ bothPools s.nbFilePossibility := by
    refine List.mem_flatMap.mpr ⟨f, List.mem_range.mpr hf, ?_⟩
    cases b <;> simp
  rw [← sortState_sortBoundedLoop hloop b f (.inr ⟨hmem, hlocked⟩)]
  exact (h.sortBoundedLoop hloop b f).order

/-- In a run whose operations keep the directions true, the direction of every file is that of its
records, and the bounded sort passes over no file that is not sorted. -/
theorem sortState_inOrder {nbFilePossibility : Nat}
    (hrun : Run (SortedStock.step (P := P)) SortedStock.Keeps (.init nbFilePossibility) s) :
    (∀ b f, (s.segment b f).sortState.InOrder P (s.segment b f).file) ∧
      ∀ descending locked, ∃ fuel s', s.sortFilesBounded P descending locked fuel = some s' ∧
        ∀ b, ∀ f < s.nbFilePossibility, locked b f = true →
          (s'.segment b f).file.Pairwise fun r r' => sortRel descending (recordPlaced P r) (recordPlaced P r') := by
  have hsound : s.Sound P := hrun.invariant (sound_init nbFilePossibility) Sound.step
  exact ⟨fun b f => (hsound b f).order, hsound.sortFilesBounded⟩

/-- A packet in each pool, the verified one with fewer pieces, and a bounded sort. -/
def sortedPools : List (SortOp .p16) :=
  [.putToPool [Frame.packet fun c => c.pos = 0] false 0,
   .putToPool [{ (Frame.packet fun _ => False) with checked := 1 }] true 0,
   .sortFilesBounded false (fun _ _ => true) 5]

theorem sortState_sortedPools : ∃ s : SortedStock, (s.segment false 0).sortState = .asc ∧
    (s.segment false 0).file.map (recordPlaced .p16) = [1] ∧ (∀ b f, (s.segment b f).sortState.InOrder .p16 (s.segment b f).file) := by
  have heval : ((Run.exec SortedStock.step (SortedStock.init 1) sortedPools).map fun s =>
      ((s.segment false 0).sortState, (s.segment false 0).file.map (recordPlaced .p16))) = some (.asc, [1]) := by
    decide +kernel
  obtain ⟨s, hexec, hview⟩ := Option.map_eq_some_iff.mp heval
  have hok : ∀ op ∈ sortedPools, ∀ t : SortedStock, t.Keeps op := by simp [sortedPools, Keeps]
  exact ⟨s, (Prod.mk.inj hview).1, (Prod.mk.inj hview).2, (sortState_inOrder (Run.of_exec hok hexec)).1⟩

/-- The splice puts the verified packet, which has fewer pieces, behind the other in a file that is
still said to be ascending, and the next sort passes over it. -/
theorem sortState_spliced : ∃ s s' : SortedStock,
    Run (SortedStock.step (P := .p16)) (fun _ _ => True) (.init 1) s ∧
      ¬ (s.segment false 0).sortState.InOrder .p16 (s.segment false 0).file ∧
      s.sortFilesBounded .p16 false (fun _ _ => true) 5 = some s' ∧
      ¬ (s'.segment false 0).file.Pairwise fun r r' => recordPlaced .p16 r ≤ recordPlaced .p16 r' := by
  have heval : ((Run.exec SortedStock.step (SortedStock.init 1) (sortedPools ++ [.resetCheckedPool])).bind fun s =>
      (s.sortFilesBounded .p16 false (fun _ _ => true) 5).map fun s' =>
        ((s.segment false 0).sortState, (s.segment false 0).file.map (recordPlaced .p16),
          (s'.segment false 0).file.map (recordPlaced .p16))) = some (.asc, [1, 0], [1, 0]) := by
    decide +kernel
  obtain ⟨s, hexec, hbind⟩ := Option.bind_eq_some_iff.mp heval
  obtain ⟨s', hsort, hview⟩ := Option.map_eq_some_iff.mp hbind
  obtain ⟨hstate, hview⟩ := Prod.mk.inj hview
  obtain ⟨hfile, hfile'⟩ := Prod.mk.inj hview
  have hunsorted : ∀ file : PoolFile, file.map (recordPlaced .p16) = [1, 0] →
      ¬ file.Pairwise fun r r' => recordPlaced .p16 r ≤ recordPlaced .p16 r' := by
    intro file hplaced hpairs
    have hmap := List.pairwise_map.mpr hpairs
    rw [hplaced] at hmap
    exact absurd hmap (by decide)
  refine ⟨s, s', Run.of_exec (fun _ _ _ => trivial) hexec, ?_, hsort, hunsorted _ hfile'⟩
  rw [hstate]
  exact hunsorted _ hfile

end SortedStock

end Runs
