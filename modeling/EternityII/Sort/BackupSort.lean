-- SUMMARY: The backup sort: batches sorted while the next is read, their runs merged, and the file that comes out.
import EternityII.Sort.Input
import EternityII.Sort.Merge

/-!
# Sorting a backup

The body of a backup is read into two batches in turn. While one is filled the other is sorted and
written to disk as a run, and at the end the runs are merged. When all records fit in one batch they are
written at once, without a run. The output goes to a file of its own, which takes its name at the end.
-/

open RangeMerge

/-! ## The sort -/

section Program

/-- `PACKET_CODEC_FILE_FLAG_COMPLETE`. -/
def packetCodecFileFlagComplete : Byte := 0x01#8

/-- `BACKUP_SORT_MEM_MB_DEFAULT`. -/
def backupSortMemMbDefault : Nat := 4096

/-- `BACKUP_SORT_THREADS_MAX`. -/
def backupSortThreadsMax : Nat := 64

/-- `BACKUP_SORT_THREADS_AUTO_MAX`. -/
def backupSortThreadsAutoMax : Nat := 16

/-- `backup_sort_options_t`, without the directory of the runs. -/
structure BackupSortOptions where
  memBytes : Nat
  threads : Int

/-- `backup_sort_stats_t`. -/
structure BackupSortStats where
  records : Nat
  runs : Nat
  duplicates : Nat
  rawBytes : Nat

/-- `BACKUP_SORT_ERR_INPUT`, `BACKUP_SORT_ERR_OUTPUT_EXISTS`, `BACKUP_SORT_ERR_INCOMPLETE` and `BACKUP_SORT_ERR_IO`. -/
inductive BackupSortError where
  | input | outputExists | incomplete | io

/-- What the machine does: the number of processors, the memory and the calls that fail, what the calls of the
parallel input return, and which jobs get a thread of their own. -/
structure BackupSortEnv where
  processors : Int
  noReader : Bool
  noFile : Bool
  noContext : Bool
  noPin : Bool
  pinReads : List (Option (List Byte))
  noBatches : Bool
  runNewFails : Nat → Bool
  writeRunFails : Nat → Bool
  jobThread : Nat → Bool
  writeDirectFails : Bool
  merge : MergeEnv
  renameFails : Bool

/-- `backup_sort_auto_threads`. -/
def backupSortAutoThreads (processors : Int) : Nat :=
  if processors < 1 then 1 else if processors > backupSortThreadsAutoMax then backupSortThreadsAutoMax else processors.toNat

/-- The memory of a sort. -/
def sortMemory (opts : Option BackupSortOptions) : Nat :=
  match opts with
  | some opts => if opts.memBytes > 0 then opts.memBytes else backupSortMemMbDefault * 2 ^ 20
  | none => backupSortMemMbDefault * 2 ^ 20

/-- The threads of a sort. -/
def sortThreads (opts : Option BackupSortOptions) (processors : Int) : Nat :=
  let threads :=
    match opts with
    | some opts => if opts.threads > 0 then opts.threads.toNat else backupSortAutoThreads processors
    | none => backupSortAutoThreads processors
  if threads > backupSortThreadsMax then backupSortThreadsMax else threads

variable (P : Puzzle)

/-- What `rc` becomes when a batch is not sorted or its run not written. -/
def rcOfJob : SortFailure → BackupSortError
  | .badRecord => .input
  | .failed => .io

/-- `run_job_main`. -/
def runJobMain (zstd : Option Zstd) (threads : Nat) (canon writeFails : Bool) (refs : List (List Byte)) : Except SortFailure SortRun :=
  match batchSort P threads canon refs with
  | .error failure => .error failure
  | .ok merged => if writeFails then .error .failed else .ok (writeRun zstd threads merged)

/-- The job under way has ended: its run is behind the others. -/
def joinJob (runs : List SortRun) : Option (Except SortFailure SortRun) → Except BackupSortError (List SortRun)
  | none => .ok runs
  | some (.ok run) => .ok (runs ++ [run])
  | some (.error failure) => .error (rcOfJob failure)

/-- A batch is handed to a job, on a thread of its own or not; a batch without a record is not. -/
def startJob (zstd : Option Zstd) (threads : Nat) (canon : Bool) (env : BackupSortEnv) (runs : List SortRun)
    (refs : List (List Byte)) : Except BackupSortError (List SortRun × Option (Except SortFailure SortRun)) :=
  if refs = [] then .ok (runs, none)
  else if env.runNewFails runs.length then .error .io
  else
    let job := runJobMain P zstd threads canon (env.writeRunFails runs.length) refs
    if env.jobThread runs.length then .ok (runs, some job) else (joinJob runs (some job)).map fun runs => (runs, none)

/-- What the loop of `backup_sort` leaves, with `st->records`: one batch, sorted, or runs. -/
inductive BatchesSorted where
  | direct (merged : List (List Byte)) (records : Nat)
  | runs (runs : List SortRun) (records : Nat)

variable {P} in
/-- The loop of `backup_sort`, for `fuel` batches at most: `rc`, or what it leaves. -/
def batchLoop (layout : RawLayout P) (zstd : Option Zstd) (size : BatchSize) (threads : Nat) (canon : Bool) (env : BackupSortEnv) :
    Nat → InReader → Nat → List SortRun → Option (Except SortFailure SortRun) → Option (Except BackupSortError BatchesSorted)
  | 0, _, _, _, _ => none
  | fuel + 1, r, records, runs, job =>
    match batchFill layout size r with
    | none => some (.error .input)
    | some filled =>
      let records := records + filled.refs.length
      if filled.more = false ∧ runs.isEmpty = true ∧ job.isNone = true then
        match batchSort P threads canon filled.refs with
        | .error failure => some (.error (rcOfJob failure))
        | .ok merged => some (.ok (.direct merged records))
      else
        match joinJob runs job with
        | .error rc => some (.error rc)
        | .ok runs =>
          match startJob P zstd threads canon env runs filled.refs with
          | .error rc => some (.error rc)
          | .ok (runs, job) =>
            if filled.more then batchLoop layout zstd size threads canon env fuel filled.reader records runs job
            else some ((joinJob runs job).map fun runs => .runs runs records)

/-- The loop of `write_direct` over the records: `duplicates`, `raw_bytes`, `prev` and the body. -/
def writeDirectLoop (merged : List (List Byte)) : Nat × Nat × Option (List Byte) × List Byte :=
  merged.foldl (fun st record =>
    ((if st.2.2.1 = some record then st.1 + 1 else st.1), st.2.1 + record.length, some record, st.2.2.2 ++ record))
    (0, 0, none, [])

/-- `write_direct`: `duplicates`, `raw_bytes` and the file. The stream is compressed when
`backup_stream_compresses()` says so. -/
def writeDirect (zstd : Option SortZstd) (compresses : Bool) (flags : Byte) (merged : List (List Byte)) : MergedRuns :=
  let written := writeDirectLoop merged
  let stream := zstd.filter fun _ => compresses
  { duplicates := written.1
    rawBytes := written.2.1
    file := packetCodecWriteFileHeaderCodec P flags stream.isSome ++ stream.elim written.2.2.2 fun z => z.write written.2.2.2 }

/-- What `backup_sort` returns, with the file that is then at the path of the output. The counts of a sort that
fails are left out. -/
structure BackupSortResult where
  rc : Except BackupSortError BackupSortStats
  out : Option (List Byte)

/-- The end of `backup_sort`: the output is written, and takes its name. -/
def finishSort (zstd : Option SortZstd) (compresses : Bool) (env : BackupSortEnv) (threads : Nat) (flags : Byte) :
    Except BackupSortError BatchesSorted → BackupSortResult
  | .error rc => ⟨.error rc, none⟩
  | .ok (.direct merged records) =>
    if env.writeDirectFails = true ∨ env.renameFails = true then ⟨.error .io, none⟩
    else
      let written := writeDirect P zstd compresses flags merged
      ⟨.ok ⟨records, 1, written.duplicates, written.rawBytes⟩, some written.file⟩
  | .ok (.runs runs records) =>
    match mergeRuns P (zstd.map SortZstd.block) env.merge threads flags records runs with
    | none => ⟨.error .io, none⟩
    | some written =>
      if env.renameFails then ⟨.error .io, none⟩
      else ⟨.ok ⟨records, runs.length, written.duplicates, written.rawBytes⟩, some written.file⟩

variable {P} in
/-- `backup_sort` of a file, with what is at the path of the output and whether the input has a `.spillcount`.
A build with zstd can be told not to compress its streams. -/
def backupSort (layout : RawLayout P) (zstd : Option SortZstd) (compresses : Bool) (opts : Option BackupSortOptions)
    (env : BackupSortEnv) (fuel : Nat) (raw : ByteStream) (out : Option (List Byte)) (sidecar : Bool) : Option BackupSortResult :=
  if out.isSome then some ⟨.error .outputExists, out⟩
  else if env.noReader then some ⟨.error .io, none⟩
  else
    match (if env.noFile then none else inOpen P zstd env.noContext env.noPin env.pinReads raw) with
    | none => some ⟨.error .input, none⟩
    | some (r, header) =>
      let flags := if r.legacy.isSome then 0 else packetCodecFileHeaderFlags header
      if flags &&& packetCodecFileFlagComplete = 0 ∧ sidecar = true then some ⟨.error .incomplete, none⟩
      else if env.noBatches then some ⟨.error .io, none⟩
      else
        let size := batchAlloc (sortMemory opts / 2)
        let threads := sortThreads opts env.processors
        (batchLoop layout (zstd.map SortZstd.block) size threads r.legacy.isNone env fuel r 0 [] none).map
          (finishSort P zstd compresses env threads flags)

end Program

/-! ## A body of records -/

section Bodies

variable {P : Puzzle} {s : ByteStream} {records refs : List (List Byte)} {record left : List Byte}

/-- A record that `packet_codec_canonicalize` takes. -/
def Canonicalizes (P : Puzzle) (record : List Byte) : Prop :=
  0 < record.length ∧ ∃ left placed,
    packetCodecCanonicalize P record possibilityMinCandidatsUnknown = .ok (record.length, left, placed)

theorem Canonicalizes.form (h : Canonicalizes P record) : ∃ form, canonicalForm P record = some form := by
  obtain ⟨-, form, placed, hcanon⟩ := h
  refine ⟨form, ?_⟩
  unfold canonicalForm
  rw [hcanon]
  exact if_pos rfl

theorem Canonicalizes.isCut (h : Canonicalizes P record) : IsCut P record := by
  obtain ⟨hpos, form, placed, hcanon⟩ := h
  obtain ⟨⟨q, hdecode⟩, -⟩ := decode_of_packetCodecCanonicalize hcanon hpos
  have hlen := packetCodecDecode_length hdecode
  have hcovers : packetCodecPrefix P ≤ record.length := by
    rw [hlen]
    exact Nat.le_add_right _ _
  exact ⟨hcovers, by rw [recLen_eq hcovers, hlen]⟩

theorem IsCut.canonicalizes (hcut : IsCut P record) {form : List Byte} (h : canonicalForm P record = some form) :
    Canonicalizes P record := by
  refine ⟨hcut.length_pos, ?_⟩
  unfold canonicalForm at h
  split at h
  · rename_i n left placed hcanon
    obtain ⟨rfl, -⟩ := Option.ite_none_right_eq_some.mp h
    exact ⟨left, placed, hcanon⟩
  · cases h

/-- The body is a sequence of records that `packet_codec_canonicalize` takes, and nothing fails behind them. -/
structure CanonicalBody (P : Puzzle) (body : ByteStream) (records : List (List Byte)) : Prop where
  bytes : body.bytes = records.flatten
  whole : body.fails = false
  canonical : ∀ record ∈ records, Canonicalizes P record

theorem CanonicalBody.isCut (h : CanonicalBody P s records) : ∀ record ∈ records, IsCut P record :=
  fun record hrecord => (h.canonical record hrecord).isCut

/-- Records that are cut from the front of a body are the first of its records. -/
theorem CanonicalBody.cut (h : CanonicalBody P s records) (hcut : ∀ record ∈ refs, IsCut P record)
    (hbytes : s.bytes = refs.flatten ++ left) : ∃ back, records = refs ++ back ∧ CanonicalBody P ⟨left, s.fails⟩ back := by
  obtain ⟨back, rfl, hback⟩ := exists_append_of_flatten h.isCut hcut (h.bytes.symm.trans hbytes)
  exact ⟨back, rfl, hback.symm, h.whole, fun record hrecord => h.canonical record (List.mem_append_right _ hrecord)⟩

/-- A body is a sequence of records in one way. -/
theorem CanonicalBody.unique {records' : List (List Byte)} (h : CanonicalBody P s records) (h' : CanonicalBody P s records') :
    records = records' := by
  have hbytes : s.bytes = records'.flatten ++ [] := by rw [List.append_nil, h'.bytes]
  obtain ⟨back, hback, hrest⟩ := h.cut h'.isCut hbytes
  cases back with
  | nil => rw [hback, List.append_nil]
  | cons record back =>
    have hpos := (hrest.isCut record List.mem_cons_self).length_pos
    have hlen := congrArg List.length hrest.bytes
    rw [List.flatten_cons, List.length_append] at hlen
    change 0 = _ at hlen
    omega

/-- The canonical form of a record that has one. -/
def formOf (P : Puzzle) (record : List Byte) : List Byte := (canonicalForm P record).getD []

theorem canonicalForm_eq_formOf (h : canonicalForm P record ≠ none) : canonicalForm P record = some (formOf P record) := by
  obtain ⟨form, hform⟩ := Option.ne_none_iff_exists'.mp h
  rw [formOf, hform, Option.getD_some]

end Bodies

/-! ## Batches and their jobs -/

section Jobs

variable {P : Puzzle} {zstd : Option Zstd} {threads : Nat} {env : BackupSortEnv} {refs last : List (List Byte)}
variable {runs : List SortRun} {batches : List (List (List Byte))} {job : Option (Except SortFailure SortRun)} {fault : Prop}

/-- Nothing fails. -/
structure BackupSortEnv.Quiet (env : BackupSortEnv) : Prop where
  noReader : env.noReader = false
  noFile : env.noFile = false
  noContext : env.noContext = false
  noPin : env.noPin = false
  pinReads : none ∉ env.pinReads
  noBatches : env.noBatches = false
  runNew : ∀ n, env.runNewFails n = false
  writeRun : ∀ n, env.writeRunFails n = false
  writeDirect : env.writeDirectFails = false
  ranges : ∀ r, env.merge.rangeFails r = false
  output : env.merge.outputFails = false
  rename : env.renameFails = false

/-- All records have a canonical form. -/
def AllForms (P : Puzzle) (refs : List (List Byte)) : Prop := ∀ record ∈ refs, canonicalForm P record ≠ none

/-- A run holds a batch in canonical form, sorted. -/
structure RunRight (P : Puzzle) (zstd : Option Zstd) (run : SortRun) (refs : List (List Byte)) : Prop where
  forms : AllForms P refs
  holds : ∃ spans, spans.flatten = sortRefs (refs.map (formOf P)) ∧ run.Holds P zstd spans

/-- A job has written the run of its batch, unless a call has failed or a record is refused. -/
def JobRight (P : Puzzle) (zstd : Option Zstd) (fault : Prop) (refs : List (List Byte)) :
    Option (Except SortFailure SortRun) → Prop
  | none => refs = []
  | some (.ok run) => RunRight P zstd run refs
  | some (.error _) => fault ∨ ¬ AllForms P refs

theorem batchSort_forms (P : Puzzle) (threads : Nat) (refs : List (List Byte)) :
    AllForms P refs ∧ batchSort P threads true refs = .ok (sortRefs (refs.map (formOf P))) ∨
      ¬ AllForms P refs ∧ batchSort P threads true refs = .error .badRecord := by
  obtain ⟨hbad, hgood⟩ := batchSort_eq P threads refs
  by_cases hforms : AllForms P refs
  · exact .inl ⟨hforms, hgood (formOf P) fun record hrecord => canonicalForm_eq_formOf (hforms record hrecord)⟩
  · refine .inr ⟨hforms, hbad ?_⟩
    unfold AllForms at hforms
    push Not at hforms
    exact hforms

theorem formOf_isCut (hcut : ∀ record ∈ refs, IsCut P record) (hforms : AllForms P refs) :
    ∀ form ∈ refs.map (formOf P), IsCut P form := by
  intro form hform
  obtain ⟨record, hrecord, rfl⟩ := List.mem_map.mp hform
  exact (canonicalForm_isCut (hcut record hrecord) (canonicalForm_eq_formOf (hforms record hrecord))).1

theorem runJobMain_right (hlaw : ∀ z, zstd = some z → z.Lawful) (hcut : ∀ record ∈ refs, IsCut P record) (writeFails : Bool) :
    JobRight P zstd (writeFails = true) refs (some (runJobMain P zstd threads true writeFails refs)) := by
  unfold runJobMain
  obtain ⟨hforms, hsort⟩ | ⟨hforms, hsort⟩ := batchSort_forms P threads refs
  · rw [hsort]
    dsimp only
    cases writeFails with
    | true => exact .inl rfl
    | false =>
      refine ⟨hforms, writeRun_holds hlaw threads fun form hform => ?_⟩
      exact formOf_isCut hcut hforms form ((sortRefs_perm _).mem_iff.mp hform)
  · rw [hsort]
    exact .inr hforms

theorem JobRight.mono {fault' : Prop} (h : JobRight P zstd fault refs job) (hfault : fault → fault') :
    JobRight P zstd fault' refs job := by
  match job with
  | none => exact h
  | some (.ok run) => exact h
  | some (.error _) => exact h.imp_left hfault

/-- The runs hold their batches. -/
def RunsRight (P : Puzzle) (zstd : Option Zstd) (runs : List SortRun) (batches : List (List (List Byte))) : Prop :=
  List.Forall₂ (RunRight P zstd) runs batches

theorem RunsRight.forms (h : RunsRight P zstd runs batches) : AllForms P batches.flatten := by
  intro record hrecord
  obtain ⟨refs, hrefs, hmem⟩ := List.mem_flatten.mp hrecord
  obtain ⟨run, -, hrun⟩ := exists_of_forall₂ h.flip hrefs
  exact hrun.forms record hmem

theorem RunsRight.runsHold (h : RunsRight P zstd runs batches) :
    RunsHold P zstd runs (batches.map fun refs => sortRefs (refs.map (formOf P))) := by
  unfold RunsHold
  rw [List.forall₂_map_right_iff]
  exact h.imp fun run refs hrun => ⟨sortRefs_sorted _, hrun.holds⟩

/-- When a job has ended, its batch is in the runs. -/
theorem joinJob_right (hruns : RunsRight P zstd runs batches) (hjob : JobRight P zstd fault last job) :
    (∀ runs', joinJob runs job = .ok runs' → ∃ batches', RunsRight P zstd runs' batches' ∧
      batches'.flatten = batches.flatten ++ last) ∧
    (∀ rc, joinJob runs job = .error rc → fault ∨ ¬ AllForms P last) := by
  match job with
  | none =>
    refine ⟨fun runs' h => ⟨batches, ?_, ?_⟩, fun rc h => by cases h⟩
    · obtain rfl : runs = runs' := Except.ok.inj h
      exact hruns
    · rw [show last = [] from hjob, List.append_nil]
  | some (.ok run) =>
    refine ⟨fun runs' h => ⟨batches ++ [last], ?_, by simp⟩, fun rc h => by cases h⟩
    obtain rfl : runs ++ [run] = runs' := Except.ok.inj h
    exact List.rel_append hruns (.cons hjob .nil)
  | some (.error _) => exact ⟨fun runs' h => (by cases h), fun rc _ => hjob⟩

/-- A batch that is handed to a job is in the runs, or in the job. -/
theorem startJob_right (threads : Nat) (env : BackupSortEnv) (hlaw : ∀ z, zstd = some z → z.Lawful) (hcut : ∀ record ∈ refs, IsCut P record)
    (hruns : RunsRight P zstd runs batches) :
    (∀ runs' job, startJob P zstd threads true env runs refs = .ok (runs', job) → ∃ batches' last,
      RunsRight P zstd runs' batches' ∧ JobRight P zstd (¬ env.Quiet) last job ∧
        batches'.flatten ++ last = batches.flatten ++ refs ∧ last ⊆ refs) ∧
    (∀ rc, startJob P zstd threads true env runs refs = .error rc → ¬ env.Quiet ∨ ¬ AllForms P refs) := by
  have hjob : JobRight P zstd (¬ env.Quiet) refs
      (some (runJobMain P zstd threads true (env.writeRunFails runs.length) refs)) := by
    refine (runJobMain_right hlaw hcut _).mono fun hfails hquiet => ?_
    rw [hquiet.writeRun] at hfails
    cases hfails
  unfold startJob
  split
  · rename_i hempty
    refine ⟨fun runs' job h => ⟨batches, [], ?_, ?_, by rw [hempty], List.nil_subset _⟩, fun rc h => by cases h⟩
    · obtain ⟨rfl, -⟩ := Prod.mk.inj (Except.ok.inj h)
      exact hruns
    · obtain ⟨-, rfl⟩ := Prod.mk.inj (Except.ok.inj h)
      rfl
  · split
    · rename_i hfails
      refine ⟨fun runs' job h => (by cases h), fun rc _ => .inl fun hquiet => ?_⟩
      rw [hquiet.runNew] at hfails
      cases hfails
    · dsimp only
      split
      · refine ⟨fun runs' job h => ⟨batches, refs, ?_, ?_, rfl, List.Subset.refl _⟩, fun rc h => by cases h⟩
        · obtain ⟨rfl, -⟩ := Prod.mk.inj (Except.ok.inj h)
          exact hruns
        · obtain ⟨-, rfl⟩ := Prod.mk.inj (Except.ok.inj h)
          exact hjob
      · obtain ⟨hok, herror⟩ := joinJob_right hruns hjob
        cases hjoin : joinJob runs (some (runJobMain P zstd threads true (env.writeRunFails runs.length) refs)) with
        | error rc => exact ⟨fun runs' job h => (by cases h), fun rc' _ => herror rc hjoin⟩
        | ok runs₁ =>
          obtain ⟨batches', hruns', hflat⟩ := hok runs₁ hjoin
          refine ⟨fun runs' job h => ⟨batches', [], ?_, ?_, by rw [List.append_nil, hflat], List.nil_subset _⟩,
            fun rc h => by cases h⟩
          · obtain ⟨rfl, -⟩ := Prod.mk.inj (Except.ok.inj h)
            exact hruns'
          · obtain ⟨-, rfl⟩ := Prod.mk.inj (Except.ok.inj h)
            rfl

end Jobs

/-! ## The loop over the batches -/

section Loop

variable {P : Puzzle} {layout : RawLayout P} {zstd : Option Zstd} {size : BatchSize} {threads : Nat} {env : BackupSortEnv}
variable {r : InReader} {s : ByteStream} {runs : List SortRun} {batches : List (List (List Byte))} {last : List (List Byte)}
variable {job : Option (Except SortFailure SortRun)} {fuel n : Nat}

theorem batchFill_right (layout : RawLayout P) (hcap : 64 ≤ size.refCap) (harena : 4 * sortReadChunk ≤ size.arenaCap) (hholds : r.Holds s) :
    (∀ filled, batchFill layout size r = some filled → filled.Right P r.reads s) ∧
      (batchFill layout size r = none → none ∈ r.reads ∨ ¬ ∃ records, CanonicalBody P s records) := by
  obtain ⟨hlegacy, tail, hbytes, htail⟩ := hholds
  have hfill : batchFill layout size r = batchFillLoop P size r.reads r.done [] r.carry.length r.carry := by
    unfold batchFill
    rw [hlegacy]
  have hnorefs : ∀ record ∈ ([] : List (List Byte)), IsCut P record := by simp
  have hused : r.carry.length = ([] : List (List Byte)).flatten.length + r.carry.length := by simp
  obtain ⟨hsome, hnone⟩ := batchFillLoop_right hcap harena htail hnorefs (Nat.zero_le _) hused
  rw [hfill]
  have hsame : (⟨([] : List (List Byte)).flatten ++ r.carry ++ tail, s.fails⟩ : ByteStream) = s := by
    rw [List.flatten_nil, List.nil_append, ← hbytes]
  rw [hsame] at hsome
  refine ⟨hsome, fun h => (hnone h).imp_right fun hcut => ?_⟩
  rintro ⟨records, hrecords⟩
  exact hcut ⟨records, hrecords.isCut, by rw [← hrecords.bytes, hbytes]; rfl⟩

/-- What the loop leaves holds all records in canonical form, sorted. -/
def BatchesSorted.Right (P : Puzzle) (zstd : Option Zstd) (all : List (List Byte)) : BatchesSorted → Prop
  | .direct merged records => AllForms P all ∧ merged = sortRefs (all.map (formOf P)) ∧ records = all.length
  | .runs runs records => ∃ batches, RunsRight P zstd runs batches ∧ batches.flatten = all ∧ records = all.length

theorem BatchesSorted.Right.forms {all : List (List Byte)} {left : BatchesSorted} (h : left.Right P zstd all) : AllForms P all := by
  cases left with
  | direct merged records => exact h.1
  | runs runs records =>
    obtain ⟨batches, hruns, rfl, -⟩ := h
    exact hruns.forms

/-- The loop ends, and it leaves all records; it fails only if a call does or the rest of the body is not a sequence
of canonical records. -/
theorem batchLoop_right (layout : RawLayout P) (threads : Nat) (hlaw : ∀ z, zstd = some z → z.Lawful) (hcap : 64 ≤ size.refCap)
    (harena : 4 * sortReadChunk ≤ size.arenaCap) (hholds : r.Holds s) (hfuel : s.bytes.length < fuel)
    (hruns : RunsRight P zstd runs batches) (hjob : JobRight P zstd (¬ env.Quiet) last job)
    (hcount : n = (batches.flatten ++ last).length) :
    ∃ result, batchLoop layout zstd size threads true env fuel r n runs job = some result ∧
      (∀ rc, result = .error rc → ¬ env.Quiet ∨ none ∈ r.reads ∨ ¬ AllForms P last ∨ ¬ ∃ records, CanonicalBody P s records) ∧
      (∀ left, result = .ok left → ∃ records, s.bytes = records.flatten ∧ s.fails = false ∧
        (∀ record ∈ records, IsCut P record) ∧ left.Right P zstd (batches.flatten ++ last ++ records)) := by
  induction fuel generalizing r s runs batches last job n with
  | zero => exact absurd hfuel (Nat.not_lt_zero _)
  | succ fuel ih =>
    obtain ⟨hfilled, hnone⟩ := batchFill_right layout hcap harena hholds
    unfold batchLoop
    cases hfill : batchFill layout size r with
    | none =>
      refine ⟨.error .input, rfl, fun rc _ => .inr ((hnone hfill).imp_right .inr), fun left h => by cases h⟩
    | some filled =>
      obtain ⟨hcut, ⟨rest, hbytes, hreader, hend⟩, hmore, hreads⟩ := hfilled filled hfill
      -- A record that is refused is a record of the body.
      have hrefused : ¬ AllForms P filled.refs → ¬ ∃ records, CanonicalBody P s records := by
        rintro hforms ⟨records, hrecords⟩
        obtain ⟨back, rfl, -⟩ := hrecords.cut hcut hbytes
        refine hforms fun record hrecord => ?_
        obtain ⟨form, hform⟩ := (hrecords.canonical record (List.mem_append_left _ hrecord)).form
        rw [hform]
        exact Option.some_ne_none _
      dsimp only
      split
      · rename_i hdirect
        obtain ⟨hlast, hempty, hnojob⟩ := hdirect
        obtain ⟨rfl, hfails⟩ := hend hlast
        obtain rfl := List.isEmpty_iff.mp hempty
        obtain rfl := Option.isNone_iff_eq_none.mp hnojob
        obtain rfl : last = [] := hjob
        cases hruns
        rw [List.append_nil] at hbytes
        obtain ⟨hforms, hsort⟩ | ⟨hforms, hsort⟩ := batchSort_forms P threads filled.refs
        · rw [hsort]
          refine ⟨_, rfl, fun rc h => (by cases h), fun left h => ?_⟩
          obtain rfl := Except.ok.inj h
          refine ⟨filled.refs, hbytes, hfails, hcut, hforms, rfl, ?_⟩
          rw [hcount]
          simp
        · rw [hsort]
          exact ⟨_, rfl, fun rc _ => .inr (.inr (.inr (hrefused hforms))), fun left h => by cases h⟩
      · obtain ⟨hjoined, hjoinfails⟩ := joinJob_right hruns hjob
        cases hjoin : joinJob runs job with
        | error rc =>
          refine ⟨_, rfl, fun rc' _ => ?_, fun left h => by cases h⟩
          exact (hjoinfails rc hjoin).imp_right fun h => .inr (.inl h)
        | ok runs₁ =>
          obtain ⟨batches₁, hruns₁, hflat₁⟩ := hjoined runs₁ hjoin
          obtain ⟨hstarted, hstartfails⟩ := startJob_right threads env hlaw hcut hruns₁
          dsimp only
          cases hstart : startJob P zstd threads true env runs₁ filled.refs with
          | error rc =>
            refine ⟨_, rfl, fun rc' _ => ?_, fun left h => by cases h⟩
            exact (hstartfails rc hstart).imp_right fun h => .inr (.inr (hrefused h))
          | ok started =>
            obtain ⟨runs₂, job₂⟩ := started
            obtain ⟨batches₂, last₂, hruns₂, hjob₂, hflat₂, hsub⟩ := hstarted runs₂ job₂ hstart
            have hcount₂ : n + filled.refs.length = (batches₂.flatten ++ last₂).length := by
              rw [hflat₂, List.length_append, hflat₁, hcount]
            have hrefused₂ : ¬ AllForms P last₂ → ¬ AllForms P filled.refs :=
              fun hforms hall => hforms fun record hrecord => hall record (hsub hrecord)
            dsimp only
            split
            · rename_i hgo
              have hlt : rest.length < fuel := by
                obtain ⟨first, others, hrefs⟩ := List.exists_cons_of_ne_nil (hmore hgo)
                have hpos := (hcut first (hrefs ▸ List.mem_cons_self)).length_pos
                have hlen := congrArg List.length hbytes
                rw [hrefs, List.flatten_cons, List.length_append, List.length_append] at hlen
                omega
              obtain ⟨result, hresult, herror, hok⟩ := ih (s := ⟨rest, s.fails⟩) hreader hlt hruns₂ hjob₂ hcount₂
              refine ⟨result, hresult, fun rc h => ?_, fun left h => ?_⟩
              · obtain hfault | hread | hforms | hbody := herror rc h
                · exact .inl hfault
                · exact .inr (.inl (hreads.subset hread))
                · exact .inr (.inr (.inr (hrefused (hrefused₂ hforms))))
                · refine .inr (.inr (.inr ?_))
                  rintro ⟨records, hrecords⟩
                  obtain ⟨back, -, hback⟩ := hrecords.cut hcut hbytes
                  exact hbody ⟨back, hback⟩
              · obtain ⟨records, hrest, hfails, hrecords, hright⟩ := hok left h
                refine ⟨filled.refs ++ records, ?_, hfails, fun record hrecord => ?_, ?_⟩
                · rw [hbytes, List.flatten_append, show rest = records.flatten from hrest]
                · obtain hrecord | hrecord := List.mem_append.mp hrecord
                  · exact hcut record hrecord
                  · exact hrecords record hrecord
                · rw [hflat₂, hflat₁, List.append_assoc, List.append_assoc] at hright
                  rw [List.append_assoc]
                  exact hright
            · rename_i hstop
              obtain ⟨rfl, hfails⟩ := hend (Bool.not_eq_true _ ▸ hstop)
              rw [List.append_nil] at hbytes
              obtain ⟨hjoined₂, hjoinfails₂⟩ := joinJob_right hruns₂ hjob₂
              cases hjoin₂ : joinJob runs₂ job₂ with
              | error rc =>
                refine ⟨_, rfl, fun rc' _ => ?_, fun left h => by cases h⟩
                exact (hjoinfails₂ rc hjoin₂).imp_right fun h => .inr (.inr (hrefused (hrefused₂ h)))
              | ok runs₃ =>
                obtain ⟨batches₃, hruns₃, hflat₃⟩ := hjoined₂ runs₃ hjoin₂
                refine ⟨_, rfl, fun rc h => (by cases h), fun left h => ?_⟩
                obtain rfl := Except.ok.inj h
                refine ⟨filled.refs, hbytes, hfails, hcut, batches₃, hruns₃, ?_, ?_⟩
                · rw [hflat₃, hflat₂, hflat₁]
                · have hlen : (batches.flatten ++ last ++ filled.refs).length = _ := List.length_append
                  rw [hcount, hlen]

end Loop

/-! ## The output -/

section Output

variable {P : Puzzle} {zstd : Option SortZstd} {flags : Byte} {stored body : List Byte} {l : List (List Byte)}

/-- A file is a compact backup with some flags and some body. -/
def OpensTo (P : Puzzle) (zstd : Option SortZstd) (file : List Byte) (flags : Byte) (body : List Byte) : Prop :=
  ∃ header, backupStreamOpenRead P (streamReaders zstd false) ⟨file, false⟩ = some (⟨body, false⟩, .packed, header) ∧
    packetCodecFileHeaderFlags header = flags

theorem opensTo_of_header (flags : Byte) (zstdBody : Bool)
    (hplain : zstdBody = false → stored = body)
    (hread : zstdBody = true → ∃ z, zstd = some z ∧ z.read ⟨stored, false⟩ = ⟨body, false⟩) :
    OpensTo P zstd (packetCodecWriteFileHeaderCodec P flags zstdBody ++ stored) flags body := by
  obtain ⟨hok, hflags, hcodec⟩ := packetCodecReadFileHeader_write (P := P) flags zstdBody
  have hlen : (packetCodecWriteFileHeaderCodec P flags zstdBody).length = packetCodecFileHeaderBytes :=
    length_packetCodecWriteFileHeaderCodec flags zstdBody
  have htake : (packetCodecWriteFileHeaderCodec P flags zstdBody ++ stored).take packetCodecFileHeaderBytes =
      packetCodecWriteFileHeaderCodec P flags zstdBody := List.take_left' hlen
  have hdrop : (packetCodecWriteFileHeaderCodec P flags zstdBody ++ stored).drop packetCodecFileHeaderBytes = stored :=
    List.drop_left' hlen
  have hmagic : (packetCodecWriteFileHeaderCodec P flags zstdBody).take 8 = packetCodecFileMagic := rfl
  refine ⟨packetCodecWriteFileHeaderCodec P flags zstdBody, ?_, hflags⟩
  unfold backupStreamOpenRead
  dsimp only
  rw [htake, hdrop, if_neg (by simp [hlen, hmagic]), if_neg (not_not.mpr hok), hcodec]
  cases zstdBody with
  | false => rw [if_pos rfl, hplain rfl]
  | true =>
    obtain ⟨z, rfl, hz⟩ := hread rfl
    rw [if_neg Bool.noConfusion]
    simp [streamReaders, hz]

/-- A body that is stored in blocks is read back. -/
theorem opensTo_of_stored (hlaw : ∀ z, zstd = some z → z.Lawful) (hstored : StoredBody (zstd.map SortZstd.block) stored body) :
    OpensTo P zstd (packetCodecWriteFileHeaderCodec P flags zstd.isSome ++ stored) flags body := by
  obtain ⟨blocks, rfl, rfl, hblocks⟩ := hstored
  cases zstd with
  | none =>
    refine opensTo_of_header flags false (fun _ => ?_) fun h => (by cases h)
    exact congrArg List.flatten (List.map_congr_left hblocks)
  | some z => exact opensTo_of_header flags true (fun h => (by cases h)) fun _ => ⟨z, rfl, (hlaw z rfl).frames blocks hblocks⟩

/-- A body that is written as a stream is read back. -/
theorem opensTo_of_stream (hlaw : ∀ z, zstd = some z → z.Lawful) (compresses : Bool) (flags : Byte) (body : List Byte) :
    OpensTo P zstd (packetCodecWriteFileHeaderCodec P flags (zstd.filter fun _ => compresses).isSome ++
      (zstd.filter fun _ => compresses).elim body fun z => z.write body) flags body := by
  cases hstream : zstd.filter fun _ => compresses with
  | none => exact opensTo_of_header flags false (fun _ => rfl) fun h => (by cases h)
  | some z =>
    have hz : zstd = some z := (Option.filter_eq_some_iff.mp hstream).1
    exact opensTo_of_header flags true (fun h => (by cases h)) fun _ => ⟨z, hz, (hlaw z hz).stream body⟩

theorem foldl_writeDirect (x : List Byte) (dups rawBytes : Nat) (body : List Byte) :
    l.foldl (fun st record =>
      ((if st.2.2.1 = some record then st.1 + 1 else st.1), st.2.1 + record.length, some record, st.2.2.2 ++ record))
      (dups, rawBytes, some x, body) =
        (dups + repeats x l, rawBytes + l.flatten.length, some (l.getLastD x), body ++ l.flatten) := by
  induction l generalizing x dups rawBytes body with
  | nil => simp [repeats]
  | cons record l ih =>
    rw [List.foldl_cons, ih, repeats, List.flatten_cons, List.length_append, List.getLastD_cons, List.append_assoc]
    by_cases heq : x = record
    · rw [if_pos heq, if_pos (congrArg some heq), Nat.add_assoc, Nat.add_assoc]
    · rw [if_neg heq, if_neg (by simpa using heq), Nat.zero_add, Nat.add_assoc]

theorem writeDirectLoop_eq (hne : [] ∉ l) :
    (writeDirectLoop l).1 = repeats [] l ∧ (writeDirectLoop l).2.1 = l.flatten.length ∧ (writeDirectLoop l).2.2.2 = l.flatten := by
  unfold writeDirectLoop
  cases l with
  | nil => exact ⟨rfl, rfl, rfl⟩
  | cons record l =>
    have hrecord : [] ≠ record := by
      rintro rfl
      exact hne List.mem_cons_self
    rw [List.foldl_cons, foldl_writeDirect, repeats, if_neg hrecord]
    simp

theorem sortRefs_congr {l' : List (List Byte)} (h : l.Perm l') : sortRefs l = sortRefs l' :=
  recordOrder.eq_mergeSort (sortRefs_sorted l) ((sortRefs_perm l).trans h)

end Output

/-! ## The sort of a compact backup -/

section Sorted

variable {P : Puzzle} {layout : RawLayout P} {zstd : Option SortZstd} {compresses : Bool} {opts : Option BackupSortOptions}
variable {env : BackupSortEnv} {fuel : Nat} {raw : ByteStream} {sidecar : Bool} {r : InReader} {header : List Byte}

/-- The header of a file. -/
def fileHeader (raw : ByteStream) : List Byte := raw.bytes.take packetCodecFileHeaderBytes

/-- The bytes behind the header. -/
def storedBody (raw : ByteStream) : List Byte := raw.bytes.drop packetCodecFileHeaderBytes

/-- The file is compact: it has a header, and its magic. -/
def CompactFile (raw : ByteStream) : Prop :=
  packetCodecFileHeaderBytes ≤ raw.bytes.length ∧ raw.bytes.take 8 = packetCodecFileMagic

/-- The header is of this geometry, and its body is one that the build can read. -/
def Readable (P : Puzzle) (zstd : Option SortZstd) (raw : ByteStream) : Prop :=
  packetCodecReadFileHeader P (fileHeader raw) = 0 ∧ (packetCodecFileHeaderIsZstd (fileHeader raw) = true → zstd.isSome = true)

/-- The decompressed body of a compact file. -/
def compactBody (zstd : Option SortZstd) (raw : ByteStream) : ByteStream :=
  match zstd.filter fun _ => packetCodecFileHeaderIsZstd (fileHeader raw) with
  | some z => pinBody (z.frames (storedBody raw))
  | none => ⟨storedBody raw, raw.fails⟩

/-- The calls of the parallel input return what it returns of the frames of the file. -/
def PinInput (zstd : Option SortZstd) (raw : ByteStream) (reads : List (Option (List Byte))) : Prop :=
  ∀ z, zstd = some z → packetCodecFileHeaderIsZstd (fileHeader raw) = true → PinReturns (z.frames (storedBody raw)) reads

theorem backupStreamOpenRead_compact (hcompact : CompactFile raw) (readers : Option (ByteStream → Option ByteStream)) :
    backupStreamOpenRead P readers raw =
      if packetCodecReadFileHeader P (fileHeader raw) ≠ 0 then none
      else if packetCodecFileHeaderIsZstd (fileHeader raw) = false then
        some (⟨storedBody raw, raw.fails⟩, .packed, fileHeader raw)
      else
        match readers with
        | none => none
        | some zsOpen => (zsOpen ⟨storedBody raw, raw.fails⟩).map fun f => (f, .packed, fileHeader raw) := by
  have hlen : (fileHeader raw).length = packetCodecFileHeaderBytes := List.length_take_of_le hcompact.1
  have hmagic : (fileHeader raw).take 8 = packetCodecFileMagic := by
    unfold fileHeader
    rw [List.take_take]
    exact hcompact.2
  unfold backupStreamOpenRead
  exact if_neg (by rw [not_or, not_not, not_not]; exact ⟨hlen, hmagic⟩)

/-- The reader of a compact file is at the front of its body. -/
theorem inOpen_holds (hcompact : CompactFile raw) {noContext noPin : Bool} {pinReads : List (Option (List Byte))}
    (hpin : PinInput zstd raw pinReads) (h : inOpen P zstd noContext noPin pinReads raw = some (r, header)) :
    header = fileHeader raw ∧ r.Holds (compactBody zstd raw) ∧
      (none ∈ r.reads → none ∈ pinReads ∨ (compactBody zstd raw).fails = true) := by
  unfold inOpen at h
  rw [backupStreamOpenRead_compact hcompact] at h
  by_cases hok : packetCodecReadFileHeader P (fileHeader raw) ≠ 0
  · rw [if_pos hok] at h
    cases h
  · rw [if_neg hok] at h
    cases hzstd : packetCodecFileHeaderIsZstd (fileHeader raw) with
    | false =>
      rw [hzstd, if_pos rfl] at h
      dsimp only at h
      rw [hzstd, if_neg (by simp)] at h
      obtain ⟨rfl, rfl⟩ := Prod.mk.inj (Option.some.inj h)
      have hbody : compactBody zstd raw = ⟨storedBody raw, raw.fails⟩ := by
        unfold compactBody
        rw [hzstd]
        simp
      rw [hbody]
      refine ⟨rfl, ⟨rfl, storedBody raw, rfl, ?_⟩, fun hread => .inr (none_mem_freadBody hread)⟩
      exact freadBody_reads ⟨storedBody raw, raw.fails⟩
    | true =>
      rw [hzstd, if_neg (by simp)] at h
      cases zstd with
      | none => cases h
      | some z =>
        simp only [streamReaders, Option.map_some] at h
        cases noContext with
        | true => cases h
        | false =>
          simp only [Bool.false_eq_true, if_false, Option.map_some, Option.isSome_some, hzstd, and_self, if_true] at h
          cases noPin with
          | true => cases h
          | false =>
            simp only [Bool.false_eq_true, if_false] at h
            obtain ⟨rfl, rfl⟩ := Prod.mk.inj (Option.some.inj h)
            have hbody : compactBody (some z) raw = pinBody (z.frames (storedBody raw)) := by
              unfold compactBody
              rw [hzstd]
              rfl
            rw [hbody]
            exact ⟨rfl, ⟨rfl, _, rfl, (hpin z rfl hzstd).bodyReads⟩, fun hread => .inl hread⟩

/-- When nothing fails, a compact file that is readable is opened. -/
theorem inOpen_some (hcompact : CompactFile raw) (hreadable : Readable P zstd raw) (pinReads : List (Option (List Byte))) :
    ∃ r, inOpen P zstd false false pinReads raw = some (r, fileHeader raw) := by
  obtain ⟨hok, hbuilt⟩ := hreadable
  unfold inOpen
  rw [backupStreamOpenRead_compact hcompact, if_neg (not_not.mpr hok)]
  cases hzstd : packetCodecFileHeaderIsZstd (fileHeader raw) with
  | false =>
    rw [if_pos rfl]
    simp [hzstd]
  | true =>
    obtain ⟨z, rfl⟩ := Option.isSome_iff_exists.mp (hbuilt hzstd)
    simp [streamReaders, hzstd]

/-- What a sort of records that returns `BACKUP_SORT_OK` gives. -/
structure SortedBackup (P : Puzzle) (zstd : Option SortZstd) (flags : Byte) (all : List (List Byte)) (stats : BackupSortStats)
    (out : Option (List Byte)) : Prop where
  forms : all.mapM (canonicalForm P) = some (all.map (formOf P))
  file : ∃ file, out = some file ∧ OpensTo P zstd file flags (sortRefs (all.map (formOf P))).flatten
  same : (sortRefs (all.map (formOf P))).Perm (all.map (formOf P))
  ordered : (sortRefs (all.map (formOf P))).Pairwise fun a b => backupSortRecordCmp a b ≠ .gt
  records : stats.records = all.length
  duplicates : stats.duplicates + (all.map (formOf P)).dedup.length = all.length

variable {flags : Byte} {all : List (List Byte)} {left : BatchesSorted} {stats : BackupSortStats} {threads : Nat}

theorem sortedBackup_of_file (hforms : AllForms P all) (hcut : ∀ record ∈ all, IsCut P record) {file : List Byte}
    (hfile : OpensTo P zstd file flags (sortRefs (all.map (formOf P))).flatten) (hrecords : stats.records = all.length)
    (hduplicates : stats.duplicates = repeats [] (sortRefs (all.map (formOf P)))) :
    SortedBackup P zstd flags all stats (some file) where
  forms := mapM_eq_some fun record hrecord => canonicalForm_eq_formOf (hforms record hrecord)
  file := ⟨file, rfl, hfile⟩
  same := sortRefs_perm _
  ordered := (sortRefs_sorted _).imp fun {a b} hle => by
    intro hgt
    unfold recordLe refCmp at hle
    rw [hgt] at hle
    cases hle
  records := hrecords
  duplicates := by
    have hne : [] ∉ all.map (formOf P) := fun hmem => absurd (formOf_isCut hcut hforms [] hmem).length_pos (Nat.lt_irrefl 0)
    rw [hduplicates, repeats_sortRefs hne, List.length_map]

/-- What the loop leaves is written as the output, unless a call fails. -/
theorem finishSort_right (hlaw : ∀ z, zstd = some z → z.Lawful) (hthreads : 0 < threads) (hcut : ∀ record ∈ all, IsCut P record)
    (hleft : left.Right P (zstd.map SortZstd.block) all) {result : BackupSortResult}
    (hresult : finishSort P zstd compresses env threads flags (.ok left) = result) :
    (∀ stats, result.rc = .ok stats → SortedBackup P zstd flags all stats result.out) ∧
      (∀ rc, result.rc = .error rc → result.out = none ∧ (env.Quiet → ¬ Compresses (zstd.map SortZstd.block))) := by
  have hforms : AllForms P all := hleft.forms
  have hne : [] ∉ all.map (formOf P) := fun hmem => absurd (formOf_isCut hcut hforms [] hmem).length_pos (Nat.lt_irrefl 0)
  subst hresult
  cases left with
  | direct merged records =>
    obtain ⟨-, rfl, rfl⟩ := hleft
    unfold finishSort
    dsimp only
    split
    · rename_i hfails
      refine ⟨fun stats h => (by cases h), fun rc _ => ⟨rfl, fun hquiet => ?_⟩⟩
      rw [hquiet.writeDirect, hquiet.rename] at hfails
      simp at hfails
    · refine ⟨fun stats h => ?_, fun rc h => by cases h⟩
      obtain rfl := Except.ok.inj h
      have hmem : [] ∉ sortRefs (all.map (formOf P)) := fun hmem => hne ((sortRefs_perm _).mem_iff.mp hmem)
      obtain ⟨hdups, -, hbody⟩ := writeDirectLoop_eq hmem
      refine sortedBackup_of_file hforms hcut ?_ rfl hdups
      unfold writeDirect
      dsimp only
      rw [hbody]
      exact opensTo_of_stream hlaw compresses flags _
  | runs runs records =>
    obtain ⟨batches, hruns, rfl, rfl⟩ := hleft
    have hhold := hruns.runsHold
    have hperm : (batches.map fun refs => sortRefs (refs.map (formOf P))).flatten.Perm (batches.flatten.map (formOf P)) := by
      rw [List.map_flatten]
      refine List.Perm.flatten_congr ?_
      rw [List.forall₂_map_left_iff, List.forall₂_map_right_iff]
      exact List.forall₂_same.mpr fun refs _ => sortRefs_perm _
    have hlen : (batches.map fun refs => sortRefs (refs.map (formOf P))).flatten.length = batches.flatten.length := by
      rw [hperm.length_eq, List.length_map]
    unfold finishSort
    dsimp only
    cases hmerge : mergeRuns P (zstd.map SortZstd.block) env.merge threads flags batches.flatten.length runs with
    | none =>
      refine ⟨fun stats h => (by cases h), fun rc _ => ⟨rfl, fun hquiet hcompress => ?_⟩⟩
      obtain ⟨written, hwritten⟩ := mergeRuns_some flags hcompress hthreads hhold hlen hquiet.ranges hquiet.output
      cases hmerge.symm.trans hwritten
    | some written =>
      dsimp only
      split
      · rename_i hfails
        refine ⟨fun stats h => (by cases h), fun rc _ => ⟨rfl, fun hquiet => ?_⟩⟩
        rw [hquiet.rename] at hfails
        cases hfails
      · refine ⟨fun stats h => ?_, fun rc h => by cases h⟩
        obtain rfl := Except.ok.inj h
        have hmem : [] ∉ (batches.map fun refs => sortRefs (refs.map (formOf P))).flatten :=
          fun hmem => hne (hperm.mem_iff.mp hmem)
        obtain ⟨⟨body, hfile, hstored⟩, hdups, -⟩ := mergeRuns_right hthreads hhold (Nat.le_of_eq hlen) hmem hmerge
        rw [sortRefs_congr hperm] at hstored hdups
        refine sortedBackup_of_file hforms hcut ?_ rfl hdups
        rw [hfile, Option.isSome_map]
        exact opensTo_of_stored hlaw hstored

theorem sortThreads_pos (opts : Option BackupSortOptions) (processors : Int) : 0 < sortThreads opts processors := by
  have hauto : 0 < backupSortAutoThreads processors := by
    unfold backupSortAutoThreads backupSortThreadsAutoMax
    split
    · exact Nat.one_pos
    · split <;> omega
  have hcapped : ∀ threads : Nat, 0 < threads →
      0 < if threads > backupSortThreadsMax then backupSortThreadsMax else threads := by
    intro threads hpos
    unfold backupSortThreadsMax
    split <;> omega
  unfold sortThreads
  refine hcapped _ ?_
  cases opts with
  | none => exact hauto
  | some opts =>
    dsimp only
    split
    · omega
    · exact hauto

theorem batchAlloc_sizes (budget : Nat) : 64 ≤ (batchAlloc budget).refCap ∧ 4 * sortReadChunk ≤ (batchAlloc budget).arenaCap :=
  ⟨Nat.le_max_right _ _, Nat.le_max_right _ _⟩

/-- What a sort of a compact backup does: with the records of the body, their canonical forms come out in order; without, or
when a call fails, nothing does. -/
structure BackupSortRight (P : Puzzle) (zstd : Option SortZstd) (env : BackupSortEnv) (raw : ByteStream)
    (out : Option (List Byte)) (sidecar : Bool) (result : BackupSortResult) : Prop where
  sorted : ∀ records stats, CanonicalBody P (compactBody zstd raw) records → result.rc = .ok stats →
    SortedBackup P zstd (packetCodecFileHeaderFlags (fileHeader raw)) records stats result.out
  refused : (¬ ∃ records, CanonicalBody P (compactBody zstd raw) records) → ∃ rc, result.rc = .error rc
  kept : ∀ rc, result.rc = .error rc → result.out = out
  succeeds : out = none → env.Quiet → Compresses (zstd.map SortZstd.block) → Readable P zstd raw →
    (sidecar = true → packetCodecFileHeaderFlags (fileHeader raw) &&& packetCodecFileFlagComplete ≠ 0) →
    (∃ records, CanonicalBody P (compactBody zstd raw) records) → ∃ stats, result.rc = .ok stats

/-- A result that is an error before the loop. -/
theorem BackupSortRight.of_error {rc : BackupSortError} {out : Option (List Byte)}
    (h : out = none → env.Quiet → Readable P zstd raw →
      (sidecar = true → packetCodecFileHeaderFlags (fileHeader raw) &&& packetCodecFileFlagComplete ≠ 0) → False) :
    BackupSortRight P zstd env raw out sidecar ⟨.error rc, out⟩ where
  sorted := fun records stats _ hok => by cases hok
  refused := fun _ => ⟨rc, rfl⟩
  kept := fun _ _ => rfl
  succeeds := fun hout hquiet _ hreadable hsidecar _ => (h hout hquiet hreadable hsidecar).elim

/-- A compact backup is sorted: for every budget, number of threads and choice of runs, with every failure of a call. -/
theorem backupSort_right (layout : RawLayout P) (hlaw : ∀ z, zstd = some z → z.Lawful) (compresses : Bool)
    (opts : Option BackupSortOptions) (hcompact : CompactFile raw) (hpin : PinInput zstd raw env.pinReads)
    (hfuel : (compactBody zstd raw).bytes.length < fuel) (out : Option (List Byte)) (sidecar : Bool) :
    ∃ result, backupSort layout zstd compresses opts env fuel raw out sidecar = some result ∧
      BackupSortRight P zstd env raw out sidecar result := by
  unfold backupSort
  cases out with
  | some file => exact ⟨_, rfl, .of_error fun hout => by cases hout⟩
  | none =>
    rw [if_neg (by simp)]
    cases hreader : env.noReader with
    | true => exact ⟨_, rfl, .of_error fun _ hquiet => by rw [hquiet.noReader] at hreader; cases hreader⟩
    | false =>
      rw [if_neg Bool.false_ne_true]
      cases hopen : (if env.noFile then none else inOpen P zstd env.noContext env.noPin env.pinReads raw) with
      | none =>
        refine ⟨_, rfl, .of_error fun _ hquiet hreadable _ => ?_⟩
        obtain ⟨r, hr⟩ := inOpen_some hcompact hreadable env.pinReads
        rw [hquiet.noFile, hquiet.noContext, hquiet.noPin, if_neg Bool.false_ne_true, hr] at hopen
        cases hopen
      | some opened =>
        obtain ⟨r, header⟩ := opened
        obtain ⟨-, hopen⟩ := Option.ite_none_left_eq_some.mp hopen
        obtain ⟨rfl, hholds, hread⟩ := inOpen_holds hcompact hpin hopen
        dsimp only
        rw [hholds.1, Option.isSome_none, if_neg Bool.false_ne_true, Option.isNone_none]
        split
        · rename_i hrefused
          exact ⟨_, rfl, .of_error fun _ _ _ hsidecar => hsidecar hrefused.2 hrefused.1⟩
        · cases hbatches : env.noBatches with
          | true => exact ⟨_, rfl, .of_error fun _ hquiet => by rw [hquiet.noBatches] at hbatches; cases hbatches⟩
          | false =>
            rw [if_neg Bool.false_ne_true]
            obtain ⟨hcap, harena⟩ := batchAlloc_sizes (sortMemory opts / 2)
            have hblocks : ∀ z, zstd.map SortZstd.block = some z → z.Lawful := by
              intro block hblock
              obtain ⟨z, hz, rfl⟩ := Option.map_eq_some_iff.mp hblock
              exact (hlaw z hz).block
            have hnojob : JobRight P (zstd.map SortZstd.block) (¬ env.Quiet) [] none := rfl
            have hnoruns : RunsRight P (zstd.map SortZstd.block) [] [] := .nil
            have hcount : 0 = (([] : List (List (List Byte))).flatten ++ ([] : List (List Byte))).length := rfl
            obtain ⟨result, hresult, herror, hok⟩ := batchLoop_right layout (sortThreads opts env.processors) hblocks hcap harena
              hholds hfuel hnoruns hnojob hcount
            rw [hresult, Option.map_some]
            refine ⟨_, rfl, ?_⟩
            cases result with
            | error rc =>
              refine
                { sorted := fun records stats _ h => (by cases h), refused := fun _ => ⟨rc, rfl⟩, kept := fun _ _ => rfl
                  succeeds := ?_ }
              rintro - hquiet - - - ⟨records, hrecords⟩
              obtain hfault | hnone | hforms | hbody := herror rc rfl
              · exact absurd hquiet hfault
              · obtain hnone | hfails := hread hnone
                · exact absurd hnone hquiet.pinReads
                · cases hrecords.whole.symm.trans hfails
              · exact absurd (fun record hrecord => by cases hrecord) hforms
              · exact absurd ⟨records, hrecords⟩ hbody
            | ok left =>
              obtain ⟨records, hbytes, hwhole, hcut, hright⟩ := hok left rfl
              change left.Right P _ records at hright
              have hbody : CanonicalBody P (compactBody zstd raw) records := by
                refine ⟨hbytes, hwhole, fun record hrecord => ?_⟩
                exact (hcut record hrecord).canonicalizes (canonicalForm_eq_formOf (hright.forms record hrecord))
              obtain ⟨hsorted, hfailed⟩ := finishSort_right hlaw (sortThreads_pos opts env.processors) hcut hright rfl
              exact
                { sorted := fun records' stats hrecords' hrc => hrecords'.unique hbody ▸ hsorted stats hrc
                  refused := fun hnone => absurd ⟨records, hbody⟩ hnone
                  kept := fun rc hrc => (hfailed rc hrc).1
                  succeeds := fun _ hquiet hcompress _ _ _ => by
                    cases hrc : (finishSort P zstd compresses env (sortThreads opts env.processors) _ (.ok left)).rc with
                    | ok stats => exact ⟨stats, rfl⟩
                    | error rc => exact absurd hcompress ((hfailed rc hrc).2 hquiet) }

/-- A library that keeps the bytes it is given, a body as one frame. -/
def plainZstd : SortZstd where
  block := ⟨some, fun z n => if z.length = n then some z else none⟩
  write := id
  read := id
  frames body := [⟨.known body.length, true, body, none⟩]

theorem plainZstd_lawful : plainZstd.Lawful where
  block :=
    { decompress_compress := fun raw z h => by
        obtain rfl := Option.some.inj h
        exact if_pos rfl
      length_decompress := fun z n raw h => by
        obtain ⟨hlen, hz⟩ := Option.ite_none_right_eq_some.mp h
        obtain rfl := Option.some.inj hz
        exact hlen }
  frames blocks h := by
    have hsame : blocks.map Prod.snd = blocks.map Prod.fst :=
      List.map_congr_left fun b hb => (Option.some.inj (h b hb)).symm
    exact congrArg (fun l => (⟨List.flatten l, false⟩ : ByteStream)) hsame
  stream _ := rfl

/-- A machine with one processor, on which no call fails; the parallel input returns two empty boards. -/
def calmSort : BackupSortEnv where
  processors := 1
  noReader := false
  noFile := false
  noContext := false
  noPin := false
  pinReads := [some (List.replicate 16 0#8), some []]
  noBatches := false
  runNewFails _ := false
  writeRunFails _ := false
  jobThread _ := true
  writeDirectFails := false
  merge := ⟨id, fun _ => false, false, false⟩
  renameFails := false

/-- Raw packets of 56 bytes, each read as an empty board. -/
def emptyBoards : RawLayout .p16 := ⟨56, fun _ => ⟨0, 0, fun _ => -2, 0, 0, Words.zero, 0⟩, by decide⟩

/-- The record of an empty board, twice, in a compressed file that is complete. -/
def repeatedBackup : ByteStream :=
  ⟨packetCodecWriteFileHeaderCodec .p16 packetCodecFileFlagComplete true ++ List.replicate 16 0#8, false⟩

theorem pinReturns_repeated : PinReturns (plainZstd.frames (List.replicate 16 0#8)) calmSort.pinReads where
  run := by
    obtain ⟨p, hexec, hresults⟩ : ∃ p, Run.exec (Pin.step 32 1 fun _ => false)
        (Pin.start (plainZstd.frames (List.replicate 16 0#8)))
        [.split, .reserve, .publish true, .take 0, .call sortReadChunk, .finish 0 true [], .look, .copy, .release, .split,
          .reserve, .publish true, .look, .call sortReadChunk, .look] = some p ∧
        p.results = calmSort.pinReads.map fun result => (sortReadChunk, result) := ⟨_, rfl, rfl⟩
    exact ⟨_, _, _, p, Run.of_exec (fun _ _ _ => trivial) hexec, hresults⟩
  ends := .inr (List.mem_cons_of_mem _ List.mem_cons_self)

theorem backupSort_right_repeated : ∃ result stats,
    backupSort emptyBoards (some plainZstd) true none calmSort 17 repeatedBackup none true = some result ∧
      result.rc = .ok stats ∧ stats.records = 2 ∧ stats.duplicates = 1 := by
  have hcompact : CompactFile repeatedBackup := ⟨by decide, rfl⟩
  have hbody : compactBody (some plainZstd) repeatedBackup = ⟨List.replicate 16 0#8, false⟩ := rfl
  have hfuel : (compactBody (some plainZstd) repeatedBackup).bytes.length < 17 := by decide
  have hlaw : ∀ z, some plainZstd = some z → z.Lawful := fun z h => Option.some.inj h ▸ plainZstd_lawful
  have hpin : PinInput (some plainZstd) repeatedBackup calmSort.pinReads := fun z h _ => Option.some.inj h ▸ pinReturns_repeated
  obtain ⟨result, hresult, hright⟩ := backupSort_right emptyBoards hlaw true none hcompact hpin hfuel none true
  have hblank : Canonicalizes .p16 (List.replicate 8 0#8) := ⟨by decide, _, _, rfl⟩
  have hrecords : CanonicalBody .p16 (compactBody (some plainZstd) repeatedBackup) (List.replicate 2 (List.replicate 8 0#8)) := by
    refine ⟨rfl, rfl, fun record hrecord => ?_⟩
    rw [List.eq_of_mem_replicate hrecord]
    exact hblank
  have hquiet : calmSort.Quiet := by
    constructor <;> intros <;> first | rfl | decide
  have hreadable : Readable .p16 (some plainZstd) repeatedBackup := ⟨by decide, fun _ => rfl⟩
  have hcompresses : Compresses ((some plainZstd).map SortZstd.block) := fun z h raw => Option.some.inj h ▸ ⟨raw, rfl⟩
  obtain ⟨stats, hstats⟩ := hright.succeeds rfl hquiet hcompresses hreadable (fun _ => by decide) ⟨_, hrecords⟩
  have hsorted := hright.sorted _ stats hrecords hstats
  refine ⟨result, stats, hresult, hstats, hsorted.records, ?_⟩
  have hduplicates := hsorted.duplicates
  rw [List.map_replicate, List.replicate_dedup (by decide)] at hduplicates
  simpa using hduplicates

end Sorted
