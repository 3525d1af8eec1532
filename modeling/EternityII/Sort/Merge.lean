-- SUMMARY: The merge of the runs of the backup sort: its ranges, the parts they are written to, and the workers.
import EternityII.Sort.Run
import Mathlib.Data.List.Dedup

/-!
# Merging runs

The order is cut into ranges at keys taken from the indexes of the runs. Workers take the ranges one after
the other, and each merges what all runs have in it into a part of the output. The parts are then put
end to end behind the header of the file.
-/

open RangeMerge

/-! ## A part of the output -/

section Parts

variable (zstd : Option Zstd)

/-- `OUT_BLOCK_RAW`. -/
def outBlockRaw : Nat := 1024 * 1024

/-- `part_t`: the file, the bytes in `raw`, the record in `prev`, none when `prev_len` is 0, and the counts. -/
structure SortPart where
  fd : List Byte
  raw : List Byte
  prev : List Byte
  dups : Nat
  rawBytes : Nat
  records : Nat

/-- `part_flush`. The body of a compressed file is made of compressed blocks only. -/
def partFlush (p : SortPart) : Option SortPart :=
  if p.raw = [] then some p
  else
    let packed := blockPackEx zstd p.raw true
    if zstd.isSome = true ∧ packed.2 ≠ .zstd then none else some { p with fd := p.fd ++ packed.1, raw := [] }

/-- `part_put`. -/
def partPut (p : SortPart) (record : List Byte) : Option SortPart :=
  let p := { p with
    dups := if p.prev = record then p.dups + 1 else p.dups
    prev := record
    rawBytes := p.rawBytes + record.length
    records := p.records + 1 }
  (if p.raw.length + record.length > outBlockRaw then partFlush zstd p else some p).map fun p =>
    { p with raw := p.raw ++ record }

end Parts

/-! ## The merge -/

section MergeRuns

variable (P : Puzzle) (zstd : Option Zstd)

/-- The cursors that have a record in a range; `none` when one has failed. -/
def startedCursors : List (Advance Cursor) → Option (List Cursor)
  | [] => some []
  | .on cu :: rest => (startedCursors rest).map (cu :: ·)
  | .ended :: rest => startedCursors rest
  | .failed :: _ => none

/-- `merge_range`, with `cur_down` on its heap, for `fuel` records at most. -/
def mergeRange (fuel : Nat) (runs : List SortRun) (bounds : List (List Byte)) (r : Nat) (p : SortPart) : Option SortPart :=
  let lo := if r > 0 then bounds[r - 1]? else none
  let hi := bounds[r]?
  (startedCursors (runs.map (cursorStart P zstd fuel lo))).bind fun heap =>
    (mergeAll (Cursor.cur P) (cursorNext P zstd) (fun a b => refCmp (a.cur P) (b.cur P) == .lt)
      (fun record => hi.any fun hi => !beforeKey hi record) (partPut zstd) fuel heap
      { p with fd := [], raw := [], prev := [] }).bind (partFlush zstd)

/-- The turn of `merge_worker_main` with range `r`, which fails when the environment says so. -/
def workerTurn (fuel : Nat) (runs : List SortRun) (bounds : List (List Byte)) (fails : Nat → Bool)
    (st : SortPart × List (Nat × List Byte)) (r : Nat) : Option (SortPart × List (Nat × List Byte)) :=
  if fails r then none else (mergeRange P zstd fuel runs bounds r st.1).map fun p => (p, st.2 ++ [(r, p.fd)])

/-- `merge_worker_main` on the ranges that a worker takes: its counts, and the files of the parts. -/
def mergeWorkerMain (fuel : Nat) (runs : List SortRun) (bounds : List (List Byte)) (fails : Nat → Bool) (ranges : List Nat) :
    Option (SortPart × List (Nat × List Byte)) :=
  ranges.foldlM (workerTurn P zstd fuel runs bounds fails) (⟨[], [], [], 0, 0, 0⟩, [])

/-- `RANGES_PER_THREAD`. -/
def rangesPerThread : Nat := 4

/-- The loop of `choose_bounds` over its sorted sample. -/
def pushBound (bounds : List (List Byte)) (c : List Byte) : List (List Byte) :=
  match bounds.getLast? with
  | none => bounds ++ [c]
  | some last => if tkeyCmp last c == .lt then bounds ++ [c] else bounds

/-- `choose_bounds`: no bound when an index cannot be read. -/
def chooseBounds (runs : List SortRun) (want : Nat) : List (List Byte) :=
  let total := (runs.map SortRun.nblocks).sum
  let target := want * 64
  let step := if total > target then total / target else 1
  let cap := total / step + runs.length + 1
  match runs.mapM fun run => (List.range ((run.nblocks + step - 1) / step)).mapM fun i =>
      (run.idx[i * step]?).map IdxEntry.key with
  | none => []
  | some keys =>
    let sample := (keys.flatten.take cap).mergeSort fun a b => (tkeyCmp a b).isLE
    ((List.range' 1 (want - 1)).filterMap fun j => sample[j * sample.length / want]?).foldl pushBound []

/-- What the merge of the runs gives: `duplicates`, `raw_bytes` and the file. -/
structure MergedRuns where
  duplicates : Nat
  rawBytes : Nat
  file : List Byte

/-- What a merge depends on beside its runs: which thread takes each range, which ranges fail, and whether the
bounds are chosen and the output is written. -/
structure MergeEnv where
  worker : Nat → Nat
  rangeFails : Nat → Bool
  boundsFail : Bool
  outputFails : Bool

/-- The bounds of a merge. -/
def mergeBounds (env : MergeEnv) (threads : Nat) (runs : List SortRun) : List (List Byte) :=
  if env.boundsFail then [] else chooseBounds runs (threads * rangesPerThread)

/-- The ranges that a thread takes, of so many. -/
def workerRanges (env : MergeEnv) (threads nranges t : Nat) : List Nat :=
  (List.range nranges).filter fun r => decide (env.worker r % threads = t)

/-- `merge_runs`, for a sort that has read so many records. -/
def mergeRuns (env : MergeEnv) (threads : Nat) (flags : Byte) (records : Nat) (runs : List SortRun) : Option MergedRuns :=
  let bounds := mergeBounds env threads runs
  let nranges := bounds.length + 1
  ((List.range threads).mapM fun t =>
    mergeWorkerMain P zstd records runs bounds env.rangeFails (workerRanges env threads nranges t)).bind fun workers =>
      if (workers.map fun worker => worker.1.records).sum ≠ records ∨ env.outputFails = true then none
      else
        ((List.range nranges).mapM fun r =>
          ((workers.flatMap Prod.snd).find? fun part => part.1 == r).map Prod.snd).map fun parts =>
            { duplicates := (workers.map fun worker => worker.1.dups).sum
              rawBytes := (workers.map fun worker => worker.1.rawBytes).sum
              file := packetCodecWriteFileHeaderCodec P flags zstd.isSome ++ parts.flatten }

end MergeRuns

/-! ## What a part holds -/

section Repeats

variable {l l' : List (List Byte)} {prev x y : List Byte}

/-- How many records are the same as the one in front of them. -/
def repeats : List Byte → List (List Byte) → Nat
  | _, [] => 0
  | prev, record :: rest => (if prev = record then 1 else 0) + repeats record rest

theorem repeats_append (prev : List Byte) (l l' : List (List Byte)) :
    repeats prev (l ++ l') = repeats prev l + repeats (l.getLastD prev) l' := by
  induction l generalizing prev with
  | nil => simp [repeats]
  | cons x l ih =>
    rw [List.cons_append, repeats, ih, repeats, Nat.add_assoc, List.getLastD_cons]

theorem repeats_of_not_mem (hx : x ∉ l) (hy : y ∉ l) : repeats x l = repeats y l := by
  cases l with
  | nil => rfl
  | cons z l =>
    rw [List.mem_cons, not_or] at hx hy
    rw [repeats, repeats, if_neg hx.1, if_neg hy.1]

/-- In a sorted list the records that are not repeats are different. -/
theorem repeats_add_dedup (hsorted : (prev :: l).Pairwise (recordLe · ·)) :
    repeats prev l + (prev :: l).dedup.length = (prev :: l).length := by
  induction l generalizing prev with
  | nil => simp [repeats]
  | cons x l ih =>
    obtain ⟨hprev, hrest⟩ := List.pairwise_cons.mp hsorted
    have hx := ih hrest
    rw [repeats]
    by_cases heq : prev = x
    · rw [if_pos heq, heq, List.dedup_cons_of_mem List.mem_cons_self, List.length_cons]
      omega
    · have hfresh : prev ∉ x :: l := by
        intro hmem
        obtain rfl | hmem := List.mem_cons.mp hmem
        · exact heq rfl
        · exact heq (recordOrder.antisymm _ _ (hprev x List.mem_cons_self)
            (List.rel_of_pairwise_cons hrest hmem))
      have hlen : (prev :: x :: l).length = (x :: l).length + 1 := rfl
      rw [if_neg heq, List.dedup_cons_of_notMem hfresh, List.length_cons, hlen]
      omega

end Repeats

section Stored

variable {zstd : Option Zstd} {p p' : SortPart} {body : List Byte} {records : List (List Byte)}

/-- Bytes stored in blocks, compressed if the program compresses. -/
def StoredBody (zstd : Option Zstd) (file raw : List Byte) : Prop :=
  ∃ blocks : List (List Byte × List Byte), file = (blocks.map Prod.snd).flatten ∧ raw = (blocks.map Prod.fst).flatten ∧
    ∀ b ∈ blocks, match zstd with
      | none => b.2 = b.1
      | some zstd => zstd.compress b.1 = some b.2

theorem StoredBody.nil : StoredBody zstd [] [] := ⟨[], rfl, rfl, by simp⟩

theorem StoredBody.append {file raw file' raw' : List Byte} (h : StoredBody zstd file raw) (h' : StoredBody zstd file' raw') :
    StoredBody zstd (file ++ file') (raw ++ raw') := by
  obtain ⟨blocks, rfl, rfl, hblocks⟩ := h
  obtain ⟨blocks', rfl, rfl, hblocks'⟩ := h'
  refine ⟨blocks ++ blocks', by simp, by simp, fun b hb => ?_⟩
  obtain hb | hb := List.mem_append.mp hb
  · exact hblocks b hb
  · exact hblocks' b hb

/-- What is flushed is stored behind what the file has. -/
theorem partFlush_spec (hstored : StoredBody zstd p.fd body) (h : partFlush zstd p = some p') :
    StoredBody zstd p'.fd (body ++ p.raw) ∧ p' = { p with fd := p'.fd, raw := [] } := by
  unfold partFlush at h
  split at h
  · rename_i hempty
    obtain rfl := Option.some.inj h
    rw [hempty, List.append_nil]
    exact ⟨hstored, by rw [← hempty]⟩
  · dsimp only at h
    split at h
    · cases h
    · rename_i hcodec
      obtain rfl := Option.some.inj h
      refine ⟨hstored.append ⟨[(p.raw, (blockPackEx zstd p.raw true).1)], by simp, by simp, fun b hb => ?_⟩, rfl⟩
      obtain rfl := List.mem_singleton.mp hb
      unfold blockPackEx at hcodec ⊢
      cases zstd with
      | none => rfl
      | some z =>
        cases hz : z.compress p.raw with
        | none => simp [hz] at hcodec
        | some r => simp [hz, Option.filter]

/-- The records that are put follow what the part has. -/
theorem partPut_spec {record : List Byte} (hstored : StoredBody zstd p.fd body) (h : partPut zstd p record = some p') :
    ∃ body', StoredBody zstd p'.fd body' ∧ body' ++ p'.raw = body ++ p.raw ++ record ∧ p'.prev = record ∧
      p'.dups = p.dups + (if p.prev = record then 1 else 0) ∧ p'.rawBytes = p.rawBytes + record.length ∧
      p'.records = p.records + 1 := by
  obtain ⟨q, hq, rfl⟩ := Option.map_eq_some_iff.mp h
  have hdups : (if p.prev = record then p.dups + 1 else p.dups) = p.dups + (if p.prev = record then 1 else 0) := by
    split <;> rfl
  have hcounted : ∀ c : SortPart, (if c.raw.length + record.length > outBlockRaw then partFlush zstd c else some c) =
      some q → c.fd = p.fd → ∃ body', StoredBody zstd q.fd body' ∧ body' ++ q.raw = body ++ c.raw ∧
        q.prev = c.prev ∧ q.dups = c.dups ∧ q.rawBytes = c.rawBytes ∧ q.records = c.records := by
    intro c hq hfd
    rw [← hfd] at hstored
    split at hq
    · obtain ⟨hstored', hsame⟩ := partFlush_spec hstored hq
      refine ⟨_, hstored', ?_⟩
      rw [hsame]
      exact ⟨List.append_nil _, rfl, rfl, rfl, rfl⟩
    · obtain rfl := Option.some.inj hq
      exact ⟨body, hstored, rfl, rfl, rfl, rfl, rfl⟩
  obtain ⟨body', hstored', hbody, hprev, hdups', hbytes, hcount⟩ := hcounted _ hq rfl
  exact ⟨body', hstored', by rw [← List.append_assoc, hbody], hprev, hdups'.trans hdups, hbytes, hcount⟩

/-- What a part has after some records are put. -/
theorem foldlM_partPut (hstored : StoredBody zstd p.fd body) (h : records.foldlM (partPut zstd) p = some p') :
    ∃ body', StoredBody zstd p'.fd body' ∧ body' ++ p'.raw = body ++ p.raw ++ records.flatten ∧
      p'.dups = p.dups + repeats p.prev records ∧ p'.rawBytes = p.rawBytes + records.flatten.length ∧
      p'.records = p.records + records.length := by
  induction records generalizing p body with
  | nil =>
    obtain rfl : p = p' := by simpa using h
    exact ⟨body, hstored, by simp, rfl, rfl, rfl⟩
  | cons record records ih =>
    rw [List.foldlM_cons] at h
    obtain ⟨q, hq, hrest⟩ := Option.bind_eq_some_iff.mp h
    obtain ⟨body₁, hstored₁, hbody₁, hprev, hdups, hbytes, hcount⟩ := partPut_spec hstored hq
    obtain ⟨body', hstored', hbody', hdups', hbytes', hcount'⟩ := ih hstored₁ hrest
    refine ⟨body', hstored', ?_, ?_, ?_, ?_⟩
    · rw [hbody', hbody₁, List.flatten_cons, List.append_assoc]
    · rw [hdups', hdups, hprev, repeats, Nat.add_assoc]
    · rw [hbytes', hbytes, List.flatten_cons, List.length_append, Nat.add_assoc]
    · rw [hcount', hcount, List.length_cons]
      omega

end Stored

/-! ## One range -/

section Range

variable {P : Puzzle} {zstd : Option Zstd} {runs : List SortRun} {groups : List (List (List Byte))} {bounds : List (List Byte)}
variable {fuel r : Nat} {p p' : SortPart}

/-- The runs hold sorted records. -/
def RunsHold (P : Puzzle) (zstd : Option Zstd) (runs : List SortRun) (groups : List (List (List Byte))) : Prop :=
  List.Forall₂ (fun run records => records.Pairwise (recordLe · ·) ∧
    ∃ spans, spans.flatten = records ∧ run.Holds P zstd spans) runs groups

theorem startedCursors_spec {starts : List (Advance Cursor)} {ls : List (List (List Byte))}
    (h : List.Forall₂ (Starts (Cursor.cur P) (cursorNext P zstd)) starts ls) :
    ∃ heap ls', startedCursors starts = some heap ∧ List.Forall₂ (Reads (Cursor.cur P) (cursorNext P zstd)) heap ls' ∧
      ls'.flatten = ls.flatten ∧ ∀ l ∈ ls', l ∈ ls := by
  induction h with
  | nil => exact ⟨[], [], rfl, .nil, rfl, by simp⟩
  | @cons s l starts ls hs hrest ih =>
    obtain ⟨heap, ls', hheap, hreads, hflat, hmem⟩ := ih
    cases hs with
    | ended => exact ⟨heap, ls', hheap, hreads, hflat, fun l hl => List.mem_cons_of_mem _ (hmem l hl)⟩
    | @on cu _ hcu =>
      refine ⟨cu :: heap, l :: ls', by simp [startedCursors, hheap], .cons hcu hreads, by simp [hflat], fun l' hl' => ?_⟩
      obtain rfl | hl' := List.mem_cons.mp hl'
      · exact List.mem_cons_self
      · exact List.mem_cons_of_mem _ (hmem l' hl')

/-- In a range each cursor starts at the first record of its run that is not before the border. -/
theorem cursorStarts_spec (hruns : RunsHold P zstd runs groups) (hfuel : ∀ records ∈ groups, records.length ≤ fuel)
    (lo : Option (List Byte)) :
    List.Forall₂ (Starts (Cursor.cur P) (cursorNext P zstd)) (runs.map (cursorStart P zstd fuel lo))
      (groups.map (List.filter fun record => lo.all fun lo => !beforeKey lo record)) := by
  induction hruns with
  | nil => exact .nil
  | @cons run records runs groups hrun hrest ih =>
    obtain ⟨hsorted, spans, rfl, hholds⟩ := hrun
    exact .cons (cursorStart_starts hholds hsorted (hfuel _ List.mem_cons_self) lo)
      (ih fun records h => hfuel records (List.mem_cons_of_mem _ h))

theorem RunsHold.sorted (hruns : RunsHold P zstd runs groups) : ∀ records ∈ groups, records.Pairwise (recordLe · ·) := by
  induction hruns with
  | nil => simp
  | cons hrun _ ih => exact List.forall_mem_cons.mpr ⟨hrun.1, ih⟩

/-- The records of a range. -/
def rangeRecords (bounds : List (List Byte)) (records : List (List Byte)) (r : Nat) : List (List Byte) :=
  sortRefs (records.filter (inRange beforeKey bounds r))

/-- A range is merged into a part of the output. -/
theorem mergeRange_eq (hruns : RunsHold P zstd runs groups) (hfuel : groups.flatten.length ≤ fuel)
    (bounds : List (List Byte)) (r : Nat) (p : SortPart) :
    mergeRange P zstd fuel runs bounds r p =
      ((rangeRecords bounds groups.flatten r).foldlM (partPut zstd) { p with fd := [], raw := [], prev := [] }).bind
        (partFlush zstd) := by
  unfold mergeRange
  dsimp only
  generalize hlo : (if r > 0 then bounds[r - 1]? else none) = lo
  have hgroups : ∀ records ∈ groups, records.length ≤ fuel := by
    intro records hrecords
    exact Nat.le_trans (List.sublist_flatten_of_mem hrecords).length_le hfuel
  obtain ⟨heap, ls, hheap, hreads, hflat, hmem⟩ := startedCursors_spec (cursorStarts_spec hruns hgroups lo)
  have hsorted : ∀ l ∈ ls, l.Pairwise (recordLe · ·) := by
    intro l hl
    obtain ⟨records, hrecords, rfl⟩ := List.mem_map.mp (hmem l hl)
    exact (hruns.sorted records hrecords).filter _
  have hlen : ls.flatten.length ≤ fuel := by
    rw [hflat, ← List.filter_flatten]
    exact Nat.le_trans (List.length_filter_le _ _) hfuel
  have hpast : ∀ a b, recordLe a b = true → (bounds[r]?).any (fun hi => !beforeKey hi a) = true →
      (bounds[r]?).any (fun hi => !beforeKey hi b) = true := by
    intro a b hle ha
    cases hhi : bounds[r]? with
    | none => simp [hhi] at ha
    | some hi =>
      rw [hhi] at ha
      rw [Option.any_some] at ha ⊢
      cases hb : beforeKey hi b with
      | false => rfl
      | true => simp [beforeKey_mono hi a b hle hb] at ha
  have hrange : ∀ record, (!((bounds[r]?).any fun hi => !beforeKey hi record) && lo.all fun lo => !beforeKey lo record) =
      inRange beforeKey bounds r record := by
    intro record
    unfold inRange
    rw [← hlo, Bool.and_comm]
    congr 1
    · cases r with
      | zero => rfl
      | succ r => rfl
    · cases bounds[r]? <;> simp
  rw [hheap, Option.bind_some, mergeAll_eq _ (compares_head (Cursor.cur P)) recordOrder hpast hreads hsorted hlen, hflat,
    ← List.filter_flatten, List.filter_filter, funext hrange]
  rfl

/-- What a range adds to the counts of its worker, and its file. -/
structure PartHolds (zstd : Option Zstd) (p p' : SortPart) (file : List Byte) (records : List (List Byte)) : Prop where
  stored : StoredBody zstd file records.flatten
  dups : p'.dups = p.dups + repeats [] records
  rawBytes : p'.rawBytes = p.rawBytes + records.flatten.length
  records : p'.records = p.records + records.length

theorem mergeRange_holds (hruns : RunsHold P zstd runs groups) (hfuel : groups.flatten.length ≤ fuel)
    (h : mergeRange P zstd fuel runs bounds r p = some p') :
    PartHolds zstd p p' p'.fd (rangeRecords bounds groups.flatten r) := by
  rw [mergeRange_eq hruns hfuel] at h
  obtain ⟨q, hput, hflush⟩ := Option.bind_eq_some_iff.mp h
  obtain ⟨body, hstored, hbody, hdups, hbytes, hcount⟩ := foldlM_partPut StoredBody.nil hput
  obtain ⟨hflushed, hsame⟩ := partFlush_spec hstored hflush
  rw [hbody] at hflushed
  rw [hsame]
  exact ⟨hflushed, hdups, hbytes, hcount⟩

end Range

/-! ## All ranges -/

section Workers

variable {P : Puzzle} {zstd : Option Zstd} {runs : List SortRun} {groups : List (List (List Byte))} {bounds : List (List Byte)}
variable {fuel : Nat} {ranges : List Nat} {p p' : SortPart} {files : List (Nat × List Byte)}

/-- What some ranges add to the counts of their worker, and their files. -/
structure RangesHold (zstd : Option Zstd) (part : Nat → List (List Byte)) (ranges : List Nat) (p p' : SortPart)
    (files : List (Nat × List Byte)) : Prop where
  files : List.Forall₂ (fun r file => file.1 = r ∧ StoredBody zstd file.2 (part r).flatten) ranges files
  dups : p'.dups = p.dups + (ranges.map fun r => repeats [] (part r)).sum
  rawBytes : p'.rawBytes = p.rawBytes + (ranges.map fun r => (part r).flatten.length).sum
  records : p'.records = p.records + (ranges.map fun r => (part r).length).sum

theorem foldlM_workerTurn (hruns : RunsHold P zstd runs groups) (hfuel : groups.flatten.length ≤ fuel) {fails : Nat → Bool}
    {files' : List (Nat × List Byte)}
    (h : ranges.foldlM (workerTurn P zstd fuel runs bounds fails) (p, files) = some (p', files')) :
    ∃ new, files' = files ++ new ∧ RangesHold zstd (rangeRecords bounds groups.flatten) ranges p p' new := by
  induction ranges generalizing p files with
  | nil =>
    obtain ⟨rfl, rfl⟩ : p = p' ∧ files = files' := by simpa using h
    exact ⟨[], (List.append_nil _).symm, .nil, rfl, rfl, rfl⟩
  | cons r ranges ih =>
    rw [List.foldlM_cons] at h
    obtain ⟨⟨q, files₁⟩, hturn, hrest⟩ := Option.bind_eq_some_iff.mp h
    unfold workerTurn at hturn
    obtain ⟨-, hturn⟩ := Option.ite_none_left_eq_some.mp hturn
    obtain ⟨q, hrange, heq⟩ := Option.map_eq_some_iff.mp hturn
    obtain ⟨rfl, rfl⟩ := Prod.mk.inj heq
    have hpart := mergeRange_holds hruns hfuel hrange
    obtain ⟨new, rfl, hnew⟩ := ih hrest
    refine ⟨(r, q.fd) :: new, by rw [List.append_assoc]; rfl, ⟨.cons ⟨rfl, hpart.stored⟩ hnew.files, ?_, ?_, ?_⟩⟩
    · rw [hnew.dups, hpart.dups, List.map_cons, List.sum_cons, Nat.add_assoc]
    · rw [hnew.rawBytes, hpart.rawBytes, List.map_cons, List.sum_cons, Nat.add_assoc]
    · rw [hnew.records, hpart.records, List.map_cons, List.sum_cons, Nat.add_assoc]

theorem mergeWorkerMain_holds (hruns : RunsHold P zstd runs groups) (hfuel : groups.flatten.length ≤ fuel) {fails : Nat → Bool}
    {worker : SortPart × List (Nat × List Byte)} (h : mergeWorkerMain P zstd fuel runs bounds fails ranges = some worker) :
    RangesHold zstd (rangeRecords bounds groups.flatten) ranges ⟨[], [], [], 0, 0, 0⟩ worker.1 worker.2 := by
  have hturns : ranges.foldlM (workerTurn P zstd fuel runs bounds fails) (⟨[], [], [], 0, 0, 0⟩, []) =
      some (worker.1, worker.2) := h
  obtain ⟨new, hnew, hholds⟩ := foldlM_workerTurn hruns hfuel hturns
  rw [List.nil_append] at hnew
  rw [hnew]
  exact hholds

theorem forall₂_of_mapM {α β : Type} {f : α → Option β} {l : List α} {l' : List β} (h : l.mapM f = some l') :
    List.Forall₂ (fun x y => f x = some y) l l' := by
  induction l generalizing l' with
  | nil =>
    obtain rfl : [] = l' := by simpa using h
    exact .nil
  | cons x l ih =>
    rw [List.mapM_cons] at h
    obtain ⟨y, hy, rest, hrest, rfl⟩ : ∃ y, f x = some y ∧ ∃ rest, l.mapM f = some rest ∧ y :: rest = l' := by
      simpa [Option.bind_eq_some_iff] using h
    exact .cons hy (ih hrest)

/-- However the ranges are shared among the workers, each is counted once. -/
theorem sum_workers {threads : Nat} (hthreads : 0 < threads) (worker : Nat → Nat) (f : Nat → Nat) (n : Nat) :
    ((List.range threads).map fun t => (((List.range n).filter fun r => decide (worker r % threads = t)).map f).sum).sum =
      ((List.range n).map f).sum := by
  have hclasses := flatMap_classes_perm (fun r => worker r % threads) (List.range n) threads
  rw [List.filter_eq_self.mpr fun r _ => decide_eq_true (Nat.mod_lt _ hthreads)] at hclasses
  rw [← (hclasses.map f).sum_nat, List.map_flatMap, List.flatMap_def, List.sum_flatten, List.map_map]
  rfl

end Workers

section Bounds

variable {bounds : List (List Byte)} {all : List (List Byte)}

/-- A bound is behind those that are there. -/
theorem pushBound_pairwise (h : bounds.Pairwise fun a b => tkeyCmp a b = .lt) (c : List Byte) :
    (pushBound bounds c).Pairwise fun a b => tkeyCmp a b = .lt := by
  unfold pushBound
  cases hlast : bounds.getLast? with
  | none =>
    rw [List.getLast?_eq_none_iff.mp hlast]
    exact List.pairwise_singleton _ _
  | some last =>
    dsimp only
    split
    · rename_i hlt
      obtain ⟨init, rfl⟩ := List.getLast?_eq_some_iff.mp hlast
      refine List.pairwise_append.mpr ⟨h, List.pairwise_singleton _ _, fun b hb c' hc' => ?_⟩
      obtain rfl := List.mem_singleton.mp hc'
      have hlt := beq_iff_eq.mp hlt
      obtain hb | hb := List.mem_append.mp hb
      · have hbefore := (List.pairwise_append.mp h).2.2 b hb last (List.mem_singleton_self last)
        rw [tkeyCmp_eq] at hbefore hlt ⊢
        exact Std.TransCmp.lt_trans hbefore hlt
      · rw [List.mem_singleton.mp hb]
        exact hlt
    · exact h

theorem chooseBounds_ascending (runs : List SortRun) (want : Nat) : Ascending beforeKey (chooseBounds runs want) := by
  have hfold : ∀ (sample : List (List Byte)) (bounds : List (List Byte)), (bounds.Pairwise fun a b => tkeyCmp a b = .lt) →
      (sample.foldl pushBound bounds).Pairwise fun a b => tkeyCmp a b = .lt := by
    intro sample
    induction sample with
    | nil => exact fun bounds h => h
    | cons c sample ih => exact fun bounds h => ih _ (pushBound_pairwise h c)
  have hlt : (chooseBounds runs want).Pairwise fun a b => tkeyCmp a b = .lt := by
    unfold chooseBounds
    dsimp only
    split
    · exact .nil
    · exact hfold _ [] .nil
  exact hlt.imp fun {a b} h => beforeKey_ascending (Ordering.isLE_of_eq_lt h)

/-- The ranges one after the other are all records, sorted. -/
theorem flatMap_rangeRecords (hasc : Ascending beforeKey bounds) :
    (List.range (bounds.length + 1)).flatMap (rangeRecords bounds all) = sortRefs all :=
  flatMap_ranges recordOrder (fun b x y => beforeKey_mono b x y) hasc fun _ _ => rfl

theorem rangeOf_of_mem (hasc : Ascending beforeKey bounds) {j : Nat} (hj : j ≤ bounds.length) {x : List Byte}
    (hx : x ∈ rangeRecords bounds all j) : x ∈ all ∧ rangeOf beforeKey bounds x = j := by
  obtain ⟨hmem, hrange⟩ := List.mem_filter.mp ((sortRefs_perm _).mem_iff.mp hx)
  rw [inRange_eq_true hasc hj] at hrange
  exact ⟨hmem, of_decide_eq_true hrange⟩

/-- A record is never the same as one of another range. -/
theorem sum_repeats (hasc : Ascending beforeKey bounds) (hne : [] ∉ all) {k : Nat} (hk : k ≤ bounds.length + 1) :
    ((List.range k).map fun r => repeats [] (rangeRecords bounds all r)).sum =
      repeats [] ((List.range k).flatMap (rangeRecords bounds all)) := by
  induction k with
  | zero => rfl
  | succ k ih =>
    rw [List.range_succ, List.map_append, List.sum_append, ih (by omega), List.flatMap_append, repeats_append,
      List.flatMap_singleton, List.map_singleton, List.sum_singleton]
    congr 1
    refine repeats_of_not_mem (fun hmem => hne (rangeOf_of_mem hasc (by omega) hmem).1) fun hmem => ?_
    obtain ⟨hmem, hrange⟩ := rangeOf_of_mem hasc (by omega) hmem
    generalize hranges : (List.range k).flatMap (rangeRecords bounds all) = front at *
    cases hlast : front.getLast? with
    | none =>
      rw [List.getLastD_eq_getLast?, hlast] at hmem
      exact hne hmem
    | some last =>
      have hlastmem := List.mem_of_getLast? hlast
      rw [← hranges] at hlastmem
      obtain ⟨j, hj, hlastmem⟩ := List.mem_flatMap.mp hlastmem
      have hj := List.mem_range.mp hj
      have hlastrange := (rangeOf_of_mem hasc (by omega) hlastmem).2
      rw [List.getLastD_eq_getLast?, hlast, Option.getD_some] at hrange
      omega

/-- The records that are not repeats are different. -/
theorem repeats_sortRefs (hne : [] ∉ all) : repeats [] (sortRefs all) + all.dedup.length = all.length := by
  have hperm := sortRefs_perm all
  rw [← hperm.dedup.length_eq, ← hperm.length_eq]
  cases hsorted : sortRefs all with
  | nil => rfl
  | cons x rest =>
    have hx : [] ≠ x := by
      rintro rfl
      exact hne (hperm.mem_iff.mp (hsorted ▸ List.mem_cons_self))
    rw [repeats, if_neg hx, Nat.zero_add]
    exact repeats_add_dedup (hsorted ▸ sortRefs_sorted all)

end Bounds

/-! ## The merge of the runs -/

section Merged

variable {P : Puzzle} {zstd : Option Zstd} {env : MergeEnv} {threads : Nat} {flags : Byte} {records : Nat} {runs : List SortRun}
variable {groups : List (List (List Byte))} {merged : MergedRuns} {fuel : Nat} {p p' : SortPart}

theorem StoredBody.flatten {part : Nat → List (List Byte)} {rs : List Nat} {parts : List (List Byte)}
    (h : List.Forall₂ (fun r file => StoredBody zstd file (part r).flatten) rs parts) :
    StoredBody zstd parts.flatten (rs.flatMap part).flatten := by
  induction h with
  | nil => exact .nil
  | cons hpart _ ih =>
    rw [List.flatten_cons, List.flatMap_cons, List.flatten_append]
    exact hpart.append ih

theorem mergeBounds_ascending (env : MergeEnv) (threads : Nat) (runs : List SortRun) :
    Ascending beforeKey (mergeBounds env threads runs) := by
  unfold mergeBounds
  split
  · exact .nil
  · exact chooseBounds_ascending runs _

/-- The workers of a merge, each with what its ranges hold. -/
def WorkersHold (zstd : Option Zstd) (env : MergeEnv) (threads n : Nat) (part : Nat → List (List Byte))
    (workers : List (SortPart × List (Nat × List Byte))) : Prop :=
  List.Forall₂ (fun t worker => RangesHold zstd part (workerRanges env threads n t) ⟨[], [], [], 0, 0, 0⟩ worker.1 worker.2)
    (List.range threads) workers

variable {n : Nat} {part : Nat → List (List Byte)} {workers : List (SortPart × List (Nat × List Byte))}

/-- A count of the workers is that of all ranges. -/
theorem WorkersHold.sum (hthreads : 0 < threads) (h : WorkersHold zstd env threads n part workers)
    (count : SortPart → Nat) (f : Nat → Nat) (hcount : ∀ rs p' files, RangesHold zstd part rs ⟨[], [], [], 0, 0, 0⟩ p' files →
      count p' = (rs.map f).sum) : (workers.map fun worker => count worker.1).sum = ((List.range n).map f).sum := by
  rw [← sum_workers hthreads env.worker f n]
  congr 1
  have heq : List.Forall₂ (fun t worker => count worker.1 = ((workerRanges env threads n t).map f).sum)
      (List.range threads) workers := h.imp fun t worker hworker => hcount _ _ _ hworker
  clear h hcount
  generalize List.range threads = ts at heq ⊢
  induction heq with
  | nil => rfl
  | cons hworker _ ih => rw [List.map_cons, List.map_cons, hworker, ih]; rfl

theorem exists_of_forall₂ {α β : Type} {R : α → β → Prop} {l : List α} {l' : List β} (h : List.Forall₂ R l l') {x : α}
    (hx : x ∈ l) : ∃ y ∈ l', R x y := by
  induction h with
  | nil => cases hx
  | cons hxy _ ih =>
    obtain rfl | hx := List.mem_cons.mp hx
    · exact ⟨_, List.mem_cons_self, hxy⟩
    · obtain ⟨y, hy, hR⟩ := ih hx
      exact ⟨y, List.mem_cons_of_mem _ hy, hR⟩

theorem WorkersHold.file (h : WorkersHold zstd env threads n part workers) {r : Nat} {file : List Byte}
    (hmem : (r, file) ∈ workers.flatMap Prod.snd) : StoredBody zstd file (part r).flatten := by
  obtain ⟨worker, hworker, hfile⟩ := List.mem_flatMap.mp hmem
  obtain ⟨t, -, hholds⟩ := exists_of_forall₂ h.flip hworker
  obtain ⟨r', -, rfl, hstored⟩ := exists_of_forall₂ hholds.files.flip hfile
  exact hstored

theorem WorkersHold.exists_file (h : WorkersHold zstd env threads n part workers) (hthreads : 0 < threads) {r : Nat}
    (hr : r < n) : ∃ file, (r, file) ∈ workers.flatMap Prod.snd := by
  obtain ⟨worker, hworker, hholds⟩ := exists_of_forall₂ h (List.mem_range.mpr (Nat.mod_lt (env.worker r) hthreads))
  have hmem : r ∈ workerRanges env threads n (env.worker r % threads) :=
    List.mem_filter.mpr ⟨List.mem_range.mpr hr, decide_eq_true rfl⟩
  obtain ⟨file, hfile, rfl, -⟩ := exists_of_forall₂ hholds.files hmem
  exact ⟨file.2, List.mem_flatMap.mpr ⟨worker, hworker, hfile⟩⟩

/-- What a merge gives of its runs. -/
structure MergedRuns.Right (P : Puzzle) (zstd : Option Zstd) (flags : Byte) (all : List (List Byte)) (merged : MergedRuns) : Prop where
  file : ∃ body, merged.file = packetCodecWriteFileHeaderCodec P flags zstd.isSome ++ body ∧
    StoredBody zstd body (sortRefs all).flatten
  duplicates : merged.duplicates = repeats [] (sortRefs all)
  rawBytes : merged.rawBytes = all.flatten.length

/-- The merge of the runs is all their records, sorted, whatever the bounds and the worker of each range. -/
theorem mergeRuns_right (hthreads : 0 < threads) (hruns : RunsHold P zstd runs groups) (hrecords : groups.flatten.length ≤ records)
    (hne : [] ∉ groups.flatten) (h : mergeRuns P zstd env threads flags records runs = some merged) :
    merged.Right P zstd flags groups.flatten := by
  have hasc := mergeBounds_ascending env threads runs
  unfold mergeRuns at h
  dsimp only at h
  obtain ⟨workers, hworkers, h⟩ := Option.bind_eq_some_iff.mp h
  obtain ⟨-, h⟩ := Option.ite_none_left_eq_some.mp h
  obtain ⟨parts, hparts, rfl⟩ := Option.map_eq_some_iff.mp h
  generalize mergeBounds env threads runs = bounds at *
  have hholds : WorkersHold zstd env threads (bounds.length + 1) (rangeRecords bounds groups.flatten) workers :=
    (forall₂_of_mapM hworkers).imp fun t worker hworker => mergeWorkerMain_holds hruns hrecords hworker
  have hall : (List.range (bounds.length + 1)).flatMap (rangeRecords bounds groups.flatten) = sortRefs groups.flatten :=
    flatMap_rangeRecords hasc
  refine ⟨⟨parts.flatten, rfl, ?_⟩, ?_, ?_⟩
  · rw [← hall]
    refine StoredBody.flatten ((forall₂_of_mapM hparts).imp fun r file hfile => ?_)
    obtain ⟨found, hfound, rfl⟩ := Option.map_eq_some_iff.mp hfile
    obtain rfl : found.1 = r := beq_iff_eq.mp (List.find?_some (p := fun file : Nat × List Byte => file.1 == r) hfound)
    exact hholds.file (List.mem_of_find?_eq_some hfound)
  · have hsum := hholds.sum hthreads SortPart.dups (fun r => repeats [] (rangeRecords bounds groups.flatten r))
      fun rs p' files hranges => by rw [hranges.dups, Nat.zero_add]
    rw [← hall, ← sum_repeats hasc hne (Nat.le_refl _)]
    exact hsum
  · have hsum := hholds.sum hthreads SortPart.rawBytes
      (fun r => (rangeRecords bounds groups.flatten r).flatten.length) fun rs p' files hranges => by rw [hranges.rawBytes, Nat.zero_add]
    have hlen : ((List.range (bounds.length + 1)).map fun r => (rangeRecords bounds groups.flatten r).flatten.length).sum =
        groups.flatten.flatten.length := by
      rw [← (sortRefs_perm groups.flatten).flatten.length_eq, ← hall]
      generalize List.range (bounds.length + 1) = rs
      induction rs with
      | nil => rfl
      | cons r rs ih => rw [List.map_cons, List.sum_cons, ih, List.flatMap_cons, List.flatten_append, List.length_append]
    exact hsum.trans hlen

/-- The compressor never fails. -/
def Compresses (zstd : Option Zstd) : Prop := ∀ z, zstd = some z → ∀ raw, ∃ r, z.compress raw = some r

theorem partFlush_some (hcompress : Compresses zstd) (p : SortPart) : ∃ p', partFlush zstd p = some p' := by
  unfold partFlush
  split
  · exact ⟨p, rfl⟩
  · dsimp only
    rw [if_neg]
    · exact ⟨_, rfl⟩
    · rintro ⟨hsome, hcodec⟩
      obtain ⟨z, rfl⟩ := Option.isSome_iff_exists.mp hsome
      obtain ⟨r, hr⟩ := hcompress z rfl p.raw
      exact hcodec (by simp [blockPackEx, hr, Option.filter])

theorem partPut_some (hcompress : Compresses zstd) (p : SortPart) (record : List Byte) : ∃ p', partPut zstd p record = some p' := by
  unfold partPut
  dsimp only
  split
  · obtain ⟨q, hq⟩ := partFlush_some hcompress { p with
      dups := if p.prev = record then p.dups + 1 else p.dups
      prev := record
      rawBytes := p.rawBytes + record.length
      records := p.records + 1 }
    exact ⟨_, congrArg (Option.map _) hq⟩
  · exact ⟨_, rfl⟩

theorem foldlM_some {σ α : Type} {f : σ → α → Option σ} {l : List α} (h : ∀ s, ∀ x ∈ l, ∃ s', f s x = some s') (s : σ) :
    ∃ s', l.foldlM f s = some s' := by
  induction l generalizing s with
  | nil => exact ⟨s, rfl⟩
  | cons x l ih =>
    obtain ⟨s', hs'⟩ := h s x List.mem_cons_self
    rw [List.foldlM_cons, hs']
    exact ih (fun s y hy => h s y (List.mem_cons_of_mem _ hy)) s'

theorem mapM_some {α β : Type} {f : α → Option β} {l : List α} (h : ∀ x ∈ l, ∃ y, f x = some y) :
    ∃ l', l.mapM f = some l' := by
  induction l with
  | nil => exact ⟨[], rfl⟩
  | cons x l ih =>
    obtain ⟨y, hy⟩ := h x List.mem_cons_self
    obtain ⟨l', hl'⟩ := ih fun x hx => h x (List.mem_cons_of_mem _ hx)
    rw [List.mapM_cons, hy, hl']
    exact ⟨_, rfl⟩

/-- When nothing fails, the runs are merged. -/
theorem mergeRuns_some (flags : Byte) (hcompress : Compresses zstd) (hthreads : 0 < threads) (hruns : RunsHold P zstd runs groups)
    (hrecords : groups.flatten.length = records) (hranges : ∀ r, env.rangeFails r = false) (houtput : env.outputFails = false) :
    ∃ merged, mergeRuns P zstd env threads flags records runs = some merged := by
  have hasc := mergeBounds_ascending env threads runs
  unfold mergeRuns
  dsimp only
  generalize mergeBounds env threads runs = bounds at *
  have hworker : ∀ t ∈ List.range threads, ∃ worker, mergeWorkerMain P zstd records runs bounds env.rangeFails
      (workerRanges env threads (bounds.length + 1) t) = some worker := by
    intro t _
    refine foldlM_some (fun st r _ => ?_) _
    obtain ⟨q, hq⟩ := foldlM_some (l := rangeRecords bounds groups.flatten r) (fun p record _ => partPut_some hcompress p record)
      { st.1 with fd := [], raw := [], prev := [] }
    obtain ⟨q', hq'⟩ := partFlush_some hcompress q
    unfold workerTurn
    rw [if_neg (by simp [hranges r]), mergeRange_eq hruns (Nat.le_of_eq hrecords), hq, Option.bind_some, hq']
    exact ⟨_, rfl⟩
  obtain ⟨workers, hworkers⟩ := mapM_some hworker
  have hholds : WorkersHold zstd env threads (bounds.length + 1) (rangeRecords bounds groups.flatten) workers :=
    (forall₂_of_mapM hworkers).imp fun t worker h => mergeWorkerMain_holds hruns (Nat.le_of_eq hrecords) h
  have hcount : (workers.map fun worker => worker.1.records).sum = records := by
    rw [hholds.sum hthreads SortPart.records (fun r => (rangeRecords bounds groups.flatten r).length)
      fun rs p' files hranges => by rw [hranges.records, Nat.zero_add]]
    rw [← List.length_flatMap, flatMap_rangeRecords hasc, (sortRefs_perm _).length_eq, hrecords]
  have hparts : ∀ r ∈ List.range (bounds.length + 1), ∃ file,
      ((workers.flatMap Prod.snd).find? fun part => part.1 == r).map Prod.snd = some file := by
    intro r hr
    obtain ⟨file, hfile⟩ := hholds.exists_file hthreads (List.mem_range.mp hr)
    have hfound : ((workers.flatMap Prod.snd).find? fun file => file.1 == r).isSome = true :=
      List.find?_isSome.mpr ⟨(r, file), hfile, beq_self_eq_true r⟩
    obtain ⟨found, hfound⟩ := Option.isSome_iff_exists.mp hfound
    exact ⟨found.2, congrArg (Option.map Prod.snd) hfound⟩
  obtain ⟨parts, hparts⟩ := mapM_some hparts
  rw [hworkers, Option.bind_some, if_neg (by simp [hcount, houtput]), hparts]
  exact ⟨_, rfl⟩

end Merged
