-- SUMMARY: A batch of the backup sort: cut out of what is read, sorted in slices, and the slices merged by ranges.
import EternityII.Sort.RecordOrder
import EternityII.Stock.BackupStream

/-!
# A batch of records

The body of a backup is read piece by piece into a buffer and cut into records by their bitmaps; what is
left of the last piece goes to the next buffer. A buffer is sorted in slices, one for each thread, that
are put in canonical form there, and the slices are merged in ranges, again one for each thread. A
thread writes to its own slice, or to its own part of the result.
-/

open RangeMerge

/-! ## Cutting records -/

section Cut

variable (P : Puzzle)

/-- `SORT_READ_CHUNK`. -/
def sortReadChunk : Nat := 2 ^ 20

/-- `sizeof(rec_ref_t)`. -/
def recRefBytes : Nat := 16

/-- `rec_len`. -/
def recLen (record : List Byte) : Nat :=
  packetCodecPrefix P +
    packetCodecValueBytes P (packetCodecPeekPlaced P (record.take (packetCodecPrefix P))).toNat

/-- `batch_alloc`: `ref_cap` and `arena_cap`. -/
structure BatchSize where
  refCap : Nat
  arenaCap : Nat

/-- `batch_alloc`. -/
def batchAlloc (budget : Nat) : BatchSize :=
  let refCap := max (budget / 3 / (2 * recRefBytes)) 64
  { refCap
    arenaCap :=
      max (if budget > 2 * refCap * recRefBytes then budget - 2 * refCap * recRefBytes else 0) (4 * sortReadChunk) }

/-- `in_reader_t`: the stream of raw packets of a file that is not compact, or what the next calls of
`body_read` return, `none` for an error, with `carry` and `done`. -/
structure InReader where
  legacy : Option ByteStream
  reads : List (Option (List Byte))
  carry : List Byte
  done : Bool

/-- The inner loop of `batch_fill`: the records in front, `room` of them at most, and what is left. -/
def cutRecords : Nat → List Byte → List (List Byte) × List Byte
  | 0, rest => ([], rest)
  | room + 1, rest =>
    if rest.length < packetCodecPrefix P then ([], rest)
    else if rest.length < recLen P rest then ([], rest)
    else
      let cut := cutRecords room (rest.drop (recLen P rest))
      (rest.take (recLen P rest) :: cut.1, cut.2)

/-- What `batch_fill` leaves: `refs`, the reader, and whether the input goes on. -/
structure Filled where
  refs : List (List Byte)
  reader : InReader
  more : Bool

/-- The loop of `batch_fill` on a compact file; `none` for -1. -/
def batchFillLoop (size : BatchSize) : List (Option (List Byte)) → Bool → List (List Byte) → Nat → List Byte → Option Filled
  | reads, done, refs, used, rest =>
    let cut := cutRecords P (size.refCap - refs.length) rest
    let refs := refs ++ cut.1
    if refs.length = size.refCap ∨ done = true ∨ size.arenaCap - used < sortReadChunk then
      if done = true ∧ refs.length < size.refCap then
        if cut.2 = [] then some ⟨refs, ⟨none, reads, [], done⟩, false⟩ else none
      else some ⟨refs, ⟨none, reads, cut.2, done⟩, true⟩
    else
      match reads with
      | [] => none
      | none :: _ => none
      | some [] :: reads => batchFillLoop size reads true refs used cut.2
      | some (b :: bytes) :: reads =>
        batchFillLoop size reads false refs (used + (b :: bytes).length) (cut.2 ++ b :: bytes)

variable {P} in
/-- The loop of `batch_fill` on a file of raw packets, which are given what `import` would give them. -/
def batchFillLegacy (layout : RawLayout P) (size : BatchSize) : Nat → ByteStream → Nat → Option Filled
  | 0, f, _ => some ⟨[], ⟨some f, [], [], false⟩, true⟩
  | room + 1, f, used =>
    if size.arenaCap - used < packetCodecMaxBytes P then some ⟨[], ⟨some f, [], [], false⟩, true⟩
    else if f.bytes.length < layout.size then
      if f.fails then none else some ⟨[], ⟨some f, [], [], false⟩, false⟩
    else
      let p := layout.read (f.bytes.take layout.size)
      let p : Packet P := { p with
        checked := if p.checked ≠ 1 then 0 else p.checked
        alloc := UInt16.ofNat (placedCount p.grid)
        minCandidats := possibilityMinCandidatsUnknown }
      (packetCodecEncode p (packetCodecMaxBytes P)).bind fun record =>
        (batchFillLegacy layout size room { f with bytes := f.bytes.drop layout.size } (used + record.length)).map
          fun filled => { filled with refs := record :: filled.refs }

variable {P} in
/-- `batch_fill`. -/
def batchFill (layout : RawLayout P) (size : BatchSize) (r : InReader) : Option Filled :=
  match r.legacy with
  | some f => batchFillLegacy layout size size.refCap f 0
  | none => batchFillLoop P size r.reads r.done [] r.carry.length r.carry

end Cut

/-! ## Sorting a batch -/

section SortBatch

variable (P : Puzzle)

/-- A record in canonical form, as `slice_sort_main` puts it there; `none` for one that is refused. -/
def canonicalForm (record : List Byte) : Option (List Byte) :=
  match packetCodecCanonicalize P record possibilityMinCandidatsUnknown with
  | .ok (n, left, _) => if n = record.length then some left else none
  | _ => none

/-- `qsort` with `ref_cmp`. -/
def sortRefs (refs : List (List Byte)) : List (List Byte) := refs.mergeSort recordLe

/-- `slice_sort_main`; `none` when `bad` is set. -/
def sliceSortMain (canon : Bool) (slice : List (List Byte)) : Option (List (List Byte)) :=
  (if canon then slice.mapM (canonicalForm P) else some slice).map sortRefs

/-- What is shared among threads: the same number to each, and the rest to the last. -/
def shares {α : Type} (l : List α) (threads : Nat) : List (List α) :=
  (List.range threads).map fun t =>
    let rest := l.drop (t * (l.length / threads))
    if t = threads - 1 then rest else rest.take (l.length / threads)

/-- `PER`. -/
def samplesPerSlice : Nat := 64

/-- The sample of `merge_slices_parallel`, sorted. -/
def sliceSample (slices : List (List (List Byte))) : List (List Byte) :=
  sortRefs (slices.flatMap fun slice =>
    (List.range samplesPerSlice).filterMap fun i => slice[i * slice.length / samplesPerSlice]?)

/-- `lower_bound`. -/
def lowerBound (slice : List (List Byte)) (key : List Byte) : Option Nat :=
  bisect (fun m => (slice[m]?).map (beforeRecord key)) slice.length 0 slice.length

/-- `hi[t]` of range `j` before it is compared with `lo[t]`. -/
def rangeEnd (sample : List (List Byte)) (k j : Nat) (slice : List (List Byte)) : Option Nat :=
  if j = k - 1 then some slice.length
  else (sample[(j + 1) * sample.length / k]?).bind (lowerBound slice)

/-- `lo[t]` and `hi[t]` of range `j`. -/
def rangeBounds (sample : List (List Byte)) (k : Nat) (slice : List (List Byte)) : Nat → Option (Nat × Nat)
  | 0 => (rangeEnd sample k 0 slice).map fun hi => (0, hi)
  | j + 1 =>
    (rangeBounds sample k slice j).bind fun before =>
      (rangeEnd sample k (j + 1) slice).map fun hi => (before.2, max hi before.2)

/-- What a slice has in a range. -/
def rangePart (sample : List (List Byte)) (k j : Nat) (slice : List (List Byte)) : Option (List (List Byte)) :=
  (rangeBounds sample k slice j).map fun bounds => (slice.take bounds.2).drop bounds.1

/-- Where a slice is after its first record. -/
def sliceNext (slice : List (List Byte)) : Advance (List (List Byte)) :=
  match slice.tail with
  | [] => .ended
  | record :: rest => .on (record :: rest)

/-- The first record of a slice. -/
def sliceHead (slice : List (List Byte)) : List Byte := slice.headD []

/-- `range_merge_main`, with `slices_down` on its heap. -/
def rangeMergeMain (parts : List (List (List Byte))) : Option (List (List Byte)) :=
  mergeAll sliceHead sliceNext (fun a b => refCmp (sliceHead a) (sliceHead b) == .lt) (fun _ => false)
    (fun out record => some (out ++ [record])) parts.flatten.length (parts.filter (!List.isEmpty ·)) []

/-- `merge_slices_parallel`, `none` for -1. -/
def mergeSlicesParallel (slices : List (List (List Byte))) : Option (List (List Byte)) :=
  let total := (slices.map List.length).sum
  if total = 0 then some []
  else
    let k := slices.length
    ((List.range k).mapM fun j => slices.mapM (rangePart (sliceSample slices) k j)).bind fun ranges =>
      (ranges.mapM rangeMergeMain).bind fun out =>
        if ((ranges.map List.flatten).map List.length).sum = total then some out.flatten else none

/-- Why a batch is not sorted: `BACKUP_SORT_BAD_RECORD`, or -1. -/
inductive SortFailure where
  | badRecord | failed
  deriving DecidableEq

/-- `batch_sort`. -/
def batchSort (threads : Nat) (canon : Bool) (refs : List (List Byte)) : Except SortFailure (List (List Byte)) :=
  let threads := min (max threads 1) (refs.length / 4096 + 1)
  match (shares refs threads).mapM (sliceSortMain P canon) with
  | none => .error .badRecord
  | some slices =>
    match mergeSlicesParallel slices with
    | none => .error .failed
    | some merged => .ok merged

end SortBatch

/-! ## What is cut -/

section Records

variable {P : Puzzle} {record rest left : List Byte} {refs : List (List Byte)} {room : Nat}

theorem recLen_eq (h : packetCodecPrefix P ≤ record.length) : recLen P record = packetCodecSizeFor P (announced P record) := by
  have hlen : (record.take (packetCodecPrefix P)).length = packetCodecPrefix P := by
    rw [List.length_take, Nat.min_eq_left h]
  have hsmall := announced_le (P := P) record
  unfold recLen packetCodecPeekPlaced
  rw [if_neg (by omega), announced_take, UInt16.toNat_ofNat_of_lt' (Nat.lt_of_le_of_lt hsmall (by decide))]
  rfl

theorem recLen_le (record : List Byte) : recLen P record ≤ 2 ^ 14 := by
  have hplaced : (packetCodecPeekPlaced P (record.take (packetCodecPrefix P))).toNat ≤ 2048 := by
    unfold packetCodecPeekPlaced
    split
    · exact Nat.zero_le _
    · rw [announced_take]
      have hsmall := announced_le (P := P) record
      rw [UInt16.toNat_ofNat_of_lt' (Nat.lt_of_le_of_lt hsmall (by decide))]
      exact hsmall
  have hvalues := packetCodecValueBytes_mono P hplaced
  have hbound : packetCodecPrefix P + packetCodecValueBytes P 2048 ≤ 2 ^ 14 := by cases P <;> decide
  unfold recLen
  omega

/-- The record says its own length. -/
def IsCut (P : Puzzle) (record : List Byte) : Prop :=
  packetCodecPrefix P ≤ record.length ∧ recLen P record = record.length

theorem IsCut.length_pos (h : IsCut P record) : 0 < record.length := by
  have hcovers := h.1
  unfold packetCodecPrefix packetCodecHeaderBytes at hcovers
  omega

theorem recLen_append (h : packetCodecPrefix P ≤ record.length) (rest : List Byte) :
    recLen P (record ++ rest) = recLen P record := by
  unfold recLen
  rw [List.take_append_of_le_length h]

/-- No record is in front. -/
def NoRecord (P : Puzzle) (rest : List Byte) : Prop := rest.length < packetCodecPrefix P ∨ rest.length < recLen P rest

theorem NoRecord.length_lt (h : NoRecord P rest) : rest.length < 2 ^ 14 := by
  obtain h | h := h
  · exact Nat.lt_of_lt_of_le h (Nat.le_trans (Nat.le_add_right _ _) (recLen_le (P := P) rest))
  · exact Nat.lt_of_lt_of_le h (recLen_le rest)

theorem cutRecords_spec (P : Puzzle) (room : Nat) (rest : List Byte) :
    rest = (cutRecords P room rest).1.flatten ++ (cutRecords P room rest).2 ∧
      (∀ r ∈ (cutRecords P room rest).1, IsCut P r) ∧ (cutRecords P room rest).1.length ≤ room ∧
      ((cutRecords P room rest).1.length = room ∨ NoRecord P (cutRecords P room rest).2) := by
  induction room generalizing rest with
  | zero => exact ⟨rfl, by simp [cutRecords], Nat.le_refl 0, .inl rfl⟩
  | succ room ih =>
    unfold cutRecords
    split
    · rename_i hshort
      exact ⟨rfl, by simp, Nat.zero_le _, .inr (.inl hshort)⟩
    · rename_i hcovers
      split
      · rename_i hshort
        exact ⟨rfl, by simp, Nat.zero_le _, .inr (.inr hshort)⟩
      · rename_i hlen
        obtain ⟨hflat, hcut, hle, hstop⟩ := ih (rest.drop (recLen P rest))
        have htake : (rest.take (recLen P rest)).length = recLen P rest := by
          rw [List.length_take, Nat.min_eq_left (Nat.not_lt.mp hlen)]
        have hhead : IsCut P (rest.take (recLen P rest)) := by
          have hfront : packetCodecPrefix P ≤ (rest.take (recLen P rest)).length := by
            rw [htake]
            exact Nat.le_add_right _ _
          refine ⟨hfront, ?_⟩
          rw [← recLen_append hfront (rest.drop (recLen P rest)), List.take_append_drop, htake]
        dsimp only
        refine ⟨?_, ?_, by simpa using hle, ?_⟩
        · rw [List.flatten_cons, List.append_assoc, ← hflat, List.take_append_drop]
        · intro r hr
          obtain rfl | hr := List.mem_cons.mp hr
          · exact hhead
          · exact hcut r hr
        · obtain hfull | hnone := hstop
          · exact .inl (by simp [hfull])
          · exact .inr hnone

/-- Records in front of some bytes are in front of every way to cut them. -/
theorem exists_append_of_flatten {records front : List (List Byte)} (h : ∀ r ∈ records, IsCut P r)
    (hfront : ∀ r ∈ front, IsCut P r) (heq : records.flatten = front.flatten ++ left) :
    ∃ back, records = front ++ back ∧ back.flatten = left := by
  induction front generalizing records with
  | nil => exact ⟨records, rfl, heq⟩
  | cons r front ih =>
    have hr := hfront r List.mem_cons_self
    cases records with
    | nil =>
      have hpos := hr.length_pos
      have hlen := congrArg List.length heq
      rw [List.flatten_nil, List.flatten_cons, List.length_append, List.length_append, List.length_nil] at hlen
      omega
    | cons r' records =>
      have hr' := h r' List.mem_cons_self
      rw [List.flatten_cons, List.flatten_cons, List.append_assoc] at heq
      have hlength : r'.length = r.length := by
        rw [← hr.2, ← hr'.2, ← recLen_append hr.1 (front.flatten ++ left), ← recLen_append hr'.1 records.flatten, heq]
      obtain ⟨rfl, hrest⟩ := List.append_inj heq hlength
      obtain ⟨back, hback, hleft⟩ := ih (fun r hr => h r (List.mem_cons_of_mem _ hr))
        (fun r hr => hfront r (List.mem_cons_of_mem _ hr)) hrest
      exact ⟨back, by rw [hback, List.cons_append], hleft⟩

/-- Bytes without a record in front are not cut into records. -/
theorem NoRecord.eq_nil {records : List (List Byte)} (hnone : NoRecord P rest) (h : ∀ r ∈ records, IsCut P r)
    (heq : records.flatten = rest) : records = [] := by
  cases records with
  | nil => rfl
  | cons r records =>
    obtain ⟨hcovers, hlen⟩ := h r List.mem_cons_self
    have hfront : recLen P rest = r.length := by rw [← heq, List.flatten_cons, recLen_append hcovers, hlen]
    have hle : r.length ≤ rest.length := by
      rw [← heq, List.flatten_cons, List.length_append]
      exact Nat.le_add_right _ _
    obtain hshort | hshort := hnone <;> omega

end Records

/-! ## Filling a batch -/

section Fill

variable {P : Puzzle} {layout : RawLayout P} {size : BatchSize} {reads : List (Option (List Byte))} {s : ByteStream}

/-- What the calls of `body_read` return on a body, whatever they take at a time: its bytes in order, and
then its end. Any call can return an error. -/
inductive BodyReads : ByteStream → List (Option (List Byte)) → Prop
  | error (s : ByteStream) (reads : List (Option (List Byte))) : BodyReads s (none :: reads)
  | fin (reads : List (Option (List Byte))) : BodyReads ⟨[], false⟩ (some [] :: reads)
  | bytes {b : Byte} {bytes rest : List Byte} {fails : Bool} {reads : List (Option (List Byte))}
      (hrest : BodyReads ⟨rest, fails⟩ reads) : BodyReads ⟨b :: bytes ++ rest, fails⟩ (some (b :: bytes) :: reads)

/-- What the calls to come return of the rest of a body. -/
def TailReads (done : Bool) (tail : ByteStream) (reads : List (Option (List Byte))) : Prop :=
  if done = true then tail = ⟨[], false⟩ else BodyReads tail reads

/-- The reader of a compact file is in a body, with the bytes that it has kept in front. -/
def InReader.Holds (r : InReader) (s : ByteStream) : Prop :=
  r.legacy = none ∧ ∃ tail, s.bytes = r.carry ++ tail ∧ TailReads r.done ⟨tail, s.fails⟩ r.reads

/-- A batch holds the records in front of a body, and the reader is behind them. -/
structure Filled.Right (P : Puzzle) (reads : List (Option (List Byte))) (s : ByteStream) (filled : Filled) : Prop where
  cut : ∀ r ∈ filled.refs, IsCut P r
  rest : ∃ left, s.bytes = filled.refs.flatten ++ left ∧ filled.reader.Holds ⟨left, s.fails⟩ ∧
    (filled.more = false → left = [] ∧ s.fails = false)
  some : filled.more = true → filled.refs ≠ []
  reads : filled.reader.reads <:+ reads

/-- A batch and the bytes behind it, after a turn of the loop. -/
structure FillTurn (P : Puzzle) (size : BatchSize) (refs : List (List Byte)) (used : Nat) (rest : List Byte) : Prop where
  cut : ∀ r ∈ refs, IsCut P r
  room : refs.length ≤ size.refCap
  used : used = refs.flatten.length + rest.length
  stop : refs.length = size.refCap ∨ NoRecord P rest

/-- The records in front of what is read are cut. -/
theorem FillTurn.of_cut {refs : List (List Byte)} {used : Nat} {rest : List Byte} (hcut : ∀ r ∈ refs, IsCut P r)
    (hroom : refs.length ≤ size.refCap) (hused : used = refs.flatten.length + rest.length) :
    let cut := cutRecords P (size.refCap - refs.length) rest
    (refs ++ cut.1).flatten ++ cut.2 = refs.flatten ++ rest ∧ FillTurn P size (refs ++ cut.1) used cut.2 := by
  obtain ⟨hflat, hnew, hle, hstop⟩ := cutRecords_spec P (size.refCap - refs.length) rest
  generalize cutRecords P (size.refCap - refs.length) rest = cut at *
  dsimp only
  have hsame : (refs ++ cut.1).flatten ++ cut.2 = refs.flatten ++ rest := by
    rw [List.flatten_append, List.append_assoc, ← hflat]
  refine ⟨hsame, ⟨fun r hr => ?_, ?_, ?_, ?_⟩⟩
  · obtain hr | hr := List.mem_append.mp hr
    · exact hcut r hr
    · exact hnew r hr
  · rw [List.length_append]
    omega
  · have hlen := congrArg List.length hsame
    rw [List.length_append, List.length_append] at hlen
    omega
  · obtain hfull | hnone := hstop
    · refine .inl ?_
      rw [List.length_append]
      omega
    · exact .inr hnone

/-- A batch ends with the input or goes on, or there are bytes behind the last record. -/
theorem FillTurn.stops {refs : List (List Byte)} {used : Nat} {rest tail : List Byte} {done fails : Bool}
    (h : FillTurn P size refs used rest) (hcap : 64 ≤ size.refCap) (harena : 4 * sortReadChunk ≤ size.arenaCap)
    (htail : TailReads done ⟨tail, fails⟩ reads)
    (hstop : refs.length = size.refCap ∨ done = true ∨ size.arenaCap - used < sortReadChunk) {result : Option Filled}
    (hresult : result = if done = true ∧ refs.length < size.refCap then
        if rest = [] then some ⟨refs, ⟨none, reads, [], done⟩, false⟩ else none
      else some ⟨refs, ⟨none, reads, rest, done⟩, true⟩) :
    (∀ filled, result = some filled → filled.Right P reads ⟨refs.flatten ++ rest ++ tail, fails⟩) ∧
      (result = none → none ∈ reads ∨ ¬ ∃ records : List (List Byte), (∀ r ∈ records, IsCut P r) ∧
        records.flatten = refs.flatten ++ rest ++ tail) := by
  by_cases hend : done = true ∧ refs.length < size.refCap
  · obtain ⟨hdone, hlt⟩ := hend
    obtain ⟨rfl, rfl⟩ : tail = [] ∧ fails = false := by
      unfold TailReads at htail
      rw [if_pos hdone] at htail
      exact ⟨congrArg ByteStream.bytes htail, congrArg ByteStream.fails htail⟩
    have hnone : NoRecord P rest := by
      obtain hfull | hnone := h.stop
      · omega
      · exact hnone
    rw [if_pos ⟨hdone, hlt⟩] at hresult
    by_cases hrest : rest = []
    · rw [if_pos hrest] at hresult
      refine ⟨fun filled hfilled => ?_, fun hnone => absurd (hresult.symm.trans hnone) (by simp)⟩
      obtain rfl := Option.some.inj (hresult.symm.trans hfilled)
      exact ⟨h.cut, ⟨[], by simp [hrest], ⟨rfl, [], rfl, htail⟩, fun _ => ⟨rfl, rfl⟩⟩, fun hmore => absurd hmore (by simp),
        List.suffix_refl _⟩
    · rw [if_neg hrest] at hresult
      refine ⟨fun filled hfilled => absurd (hresult.symm.trans hfilled) (by simp), fun _ => .inr ?_⟩
      rintro ⟨records, hcut, hflat⟩
      rw [List.append_nil] at hflat
      obtain ⟨back, rfl, hback⟩ := exists_append_of_flatten hcut h.cut hflat
      have hnil : back = [] := hnone.eq_nil (fun r hr => hcut r (List.mem_append_right _ hr)) hback
      exact hrest (by rw [← hback, hnil]; rfl)
  · rw [if_neg hend] at hresult
    refine ⟨fun filled hfilled => ?_, fun hnone => absurd (hresult.symm.trans hnone) (by simp)⟩
    obtain rfl := Option.some.inj (hresult.symm.trans hfilled)
    refine ⟨h.cut, ⟨rest ++ tail, List.append_assoc _ _ _, ⟨rfl, tail, rfl, htail⟩, fun hmore => absurd hmore (by simp)⟩,
      fun _ hnil => ?_, List.suffix_refl _⟩
    -- A batch without a record is not full, and what is behind its records is short.
    change refs = [] at hnil
    subst hnil
    have hshort : NoRecord P rest := by
      obtain hfull | hnone := h.stop
      · rw [List.length_nil] at hfull
        omega
      · exact hnone
    have hlt := hshort.length_lt
    have hused := h.used
    rw [List.flatten_nil, List.length_nil] at hused
    obtain hfull | hdone | harena' := hstop
    · rw [List.length_nil] at hfull
      omega
    · exact hend ⟨hdone, by rw [List.length_nil]; omega⟩
    · unfold sortReadChunk at harena harena'
      omega

theorem batchFillLoop_right (hcap : 64 ≤ size.refCap) (harena : 4 * sortReadChunk ≤ size.arenaCap) {done : Bool}
    {refs : List (List Byte)} {used : Nat} {rest tail : List Byte} {fails : Bool}
    (htail : TailReads done ⟨tail, fails⟩ reads) (hcut : ∀ r ∈ refs, IsCut P r) (hroom : refs.length ≤ size.refCap)
    (hused : used = refs.flatten.length + rest.length) :
    (∀ filled, batchFillLoop P size reads done refs used rest = some filled →
      filled.Right P reads ⟨refs.flatten ++ rest ++ tail, fails⟩) ∧
    (batchFillLoop P size reads done refs used rest = none → none ∈ reads ∨
      ¬ ∃ records : List (List Byte), (∀ r ∈ records, IsCut P r) ∧ records.flatten = refs.flatten ++ rest ++ tail) := by
  induction reads generalizing done refs used rest tail with
  | nil =>
    obtain ⟨hflat, hturn⟩ := FillTurn.of_cut hcut hroom hused
    rw [← hflat, batchFillLoop.eq_def]
    dsimp only
    generalize cutRecords P (size.refCap - refs.length) rest = cut at *
    split
    · rename_i hstop
      exact hturn.stops hcap harena htail hstop rfl
    · rename_i hgo
      rw [not_or, not_or] at hgo
      unfold TailReads at htail
      rw [if_neg hgo.2.1] at htail
      cases htail
  | cons result reads ih =>
    obtain ⟨hflat, hturn⟩ := FillTurn.of_cut hcut hroom hused
    rw [← hflat, batchFillLoop.eq_def]
    dsimp only
    generalize cutRecords P (size.refCap - refs.length) rest = cut at *
    split
    · rename_i hstop
      exact hturn.stops hcap harena htail hstop rfl
    · rename_i hgo
      rw [not_or, not_or] at hgo
      unfold TailReads at htail
      rw [if_neg hgo.2.1] at htail
      have hlater : ∀ {bytes : List Byte} {filled : Filled} {s : ByteStream}, filled.Right P reads s →
          filled.Right P (some bytes :: reads) s := fun h => { h with reads := h.reads.trans (List.suffix_cons _ _) }
      cases htail with
      | error => exact ⟨fun filled hfilled => absurd hfilled (by simp), fun _ => .inl List.mem_cons_self⟩
      | fin =>
        obtain ⟨hsome, hnone⟩ := ih (show TailReads true ⟨[], false⟩ reads from rfl) hturn.cut hturn.room hturn.used
        exact ⟨fun filled hfilled => hlater (hsome filled hfilled),
          fun hfilled => (hnone hfilled).imp (List.mem_cons_of_mem _) id⟩
      | @bytes b bytes tail _ _ hrest =>
        obtain ⟨hsome, hnone⟩ := ih (show TailReads false ⟨tail, fails⟩ reads from hrest) hturn.cut hturn.room
          (show used + (b :: bytes).length = (refs ++ cut.1).flatten.length + (cut.2 ++ b :: bytes).length by
            rw [hturn.used, Nat.add_assoc, ← List.length_append])
        have hsame : (refs ++ cut.1).flatten ++ (cut.2 ++ b :: bytes) ++ tail =
            (refs ++ cut.1).flatten ++ cut.2 ++ (b :: bytes ++ tail) := by simp only [List.append_assoc]
        rw [hsame] at hsome hnone
        exact ⟨fun filled hfilled => hlater (hsome filled hfilled),
          fun hfilled => (hnone hfilled).imp (List.mem_cons_of_mem _) id⟩

end Fill

/-! ## A batch sorted -/

section Canonical

variable {P : Puzzle} {record form : List Byte}

/-- The canonical form of a record has its length, and says it. -/
theorem canonicalForm_isCut (hcut : IsCut P record) (h : canonicalForm P record = some form) :
    IsCut P form ∧ form.length = record.length := by
  unfold canonicalForm at h
  split at h
  · rename_i n left placed hcanon
    obtain ⟨hn, rfl⟩ : n = record.length ∧ left = form := by
      split at h
      · rename_i hn
        exact ⟨hn, Option.some.inj h⟩
      · cases h
    have hpos : 0 < n := hn ▸ hcut.length_pos
    obtain ⟨⟨q, hdecode⟩, hclean⟩ := decode_of_packetCodecCanonicalize hcanon hpos
    have hleft := (packetCodecCanonicalize_of_decode hdecode hclean).symm.trans hcanon
    obtain ⟨-, hpair⟩ := Prod.mk.inj (Outcome.ok.inj hleft)
    obtain ⟨rfl, -⟩ := Prod.mk.inj hpair
    obtain ⟨⟨q', hdecode'⟩, -⟩ := decode_of_packetCodecCanonicalize
      (canonicalRecord_idempotent hdecode hclean : packetCodecCanonicalize P
        (canonicalRecord P record possibilityMinCandidatsUnknown) possibilityMinCandidatsUnknown = _) hpos
    have hlength : (canonicalRecord P record possibilityMinCandidatsUnknown).length = record.length := length_canonicalRecord
    have hcovers : packetCodecPrefix P ≤ (canonicalRecord P record possibilityMinCandidatsUnknown).length :=
      hlength ▸ hcut.1
    refine ⟨⟨hcovers, ?_⟩, hlength⟩
    rw [recLen_eq hcovers, ← packetCodecDecode_length hdecode', hn, hlength]
  · cases h

end Canonical

section Sorted

variable {α β : Type} {f : α → Option β} {g : α → β} {l : List α}

theorem mapM_eq_some (h : ∀ x ∈ l, f x = some (g x)) : l.mapM f = some (l.map g) := by
  induction l with
  | nil => rfl
  | cons x l ih =>
    rw [List.mapM_cons, h x List.mem_cons_self, ih fun x hx => h x (List.mem_cons_of_mem _ hx)]
    rfl

theorem mapM_eq_none {x : α} (hx : x ∈ l) (hnone : f x = none) : l.mapM f = none := by
  induction l with
  | nil => cases hx
  | cons y l ih =>
    rw [List.mapM_cons]
    obtain rfl | hx := List.mem_cons.mp hx
    · rw [hnone]
      rfl
    · rw [ih hx]
      cases f y <;> rfl

/-- Nothing is lost among the threads. -/
theorem flatten_shares {threads : Nat} (hthreads : 0 < threads) (l : List α) : (shares l threads).flatten = l := by
  have hupto : ∀ t ≤ threads - 1, ((List.range t).map fun t => (l.drop (t * (l.length / threads))).take
      (l.length / threads)).flatten = l.take (t * (l.length / threads)) := by
    intro t
    induction t with
    | zero => simp
    | succ t ih =>
      intro ht
      rw [List.range_succ, List.map_append, List.flatten_append, ih (by omega), Nat.succ_mul, List.take_add]
      simp
  obtain ⟨n, rfl⟩ := Nat.exists_eq_add_of_le' hthreads
  unfold shares
  rw [List.range_succ, List.map_append, List.flatten_append, List.map_congr_left fun t ht => ?_, hupto n (by omega)]
  · simp
  · exact if_neg (by have := List.mem_range.mp ht; omega)

end Sorted

section Slices

variable {slices parts : List (List (List Byte))} {slice : List (List Byte)} {k j : Nat}

theorem sortRefs_sorted (refs : List (List Byte)) : (sortRefs refs).Pairwise (recordLe · ·) :=
  List.pairwise_mergeSort recordOrder.trans recordOrder.total refs

theorem sortRefs_perm (refs : List (List Byte)) : (sortRefs refs).Perm refs := List.mergeSort_perm refs recordLe

/-- A slice is read from its first record on. -/
theorem reads_slice (h : slice ≠ []) : Reads sliceHead sliceNext slice slice := by
  induction slice with
  | nil => exact absurd rfl h
  | cons record rest ih =>
    cases rest with
    | nil => exact .last rfl
    | cons next rest => exact .cons rfl (ih (List.cons_ne_nil _ _))

theorem foldlM_append (l out : List (List Byte)) :
    l.foldlM (fun out record => some (out ++ [record])) out = some (out ++ l) := by
  induction l generalizing out with
  | nil => simp
  | cons record l ih => simp [ih]

theorem compares_head {σ : Type} (head : σ → List Byte) :
    Compares head (fun a b => refCmp (head a) (head b) == .lt) recordLe where
  le_of_less := fun a b h => Ordering.isLE_of_eq_lt (beq_iff_eq.mp h)
  le_of_not_less := fun a b h => by
    have hswap : refCmp (head b) (head a) = (refCmp (head a) (head b)).swap := Std.OrientedCmp.eq_swap
    unfold recordLe
    rw [hswap]
    cases hcmp : refCmp (head a) (head b) with
    | lt => rw [hcmp] at h; cases h
    | eq | gt => rfl

theorem rangeMergeMain_eq (hsorted : ∀ part ∈ parts, part.Pairwise (recordLe · ·)) :
    rangeMergeMain parts = some (sortRefs parts.flatten) := by
  have hflat : (parts.filter (!List.isEmpty ·)).flatten = parts.flatten := by
    induction parts with
    | nil => rfl
    | cons part parts ih =>
      have ih := ih fun part h => hsorted part (List.mem_cons_of_mem _ h)
      cases part with
      | nil => simpa using ih
      | cons record part => simpa using ih
  have hreads : List.Forall₂ (Reads sliceHead sliceNext) (parts.filter (!List.isEmpty ·)) (parts.filter (!List.isEmpty ·)) := by
    refine List.forall₂_same.mpr fun part hpart => reads_slice ?_
    simpa using (List.mem_filter.mp hpart).2
  unfold rangeMergeMain
  rw [mergeAll_eq _ (compares_head sliceHead) recordOrder (by simp) hreads
    (fun part hpart => hsorted part (List.mem_filter.mp hpart).1) (by rw [hflat]), foldlM_append, hflat,
    List.filter_eq_self.mpr (by simp), List.nil_append]
  rfl

/-- The borders of the ranges of `k` slices. -/
def sliceBorders (sample : List (List Byte)) (k : Nat) : List (List Byte) :=
  (List.range (k - 1)).map fun j => sample.getD ((j + 1) * sample.length / k) []

/-- A record is before the end of a range. -/
def beforeEnd (borders : List (List Byte)) (j : Nat) (record : List Byte) : Bool :=
  (borders[j]?).all fun border => beforeRecord border record

variable {sample borders : List (List Byte)}

theorem border_index {ns : Nat} (hns : 0 < ns) (hj : j + 1 < k) : (j + 1) * ns / k < ns := by
  rw [Nat.div_lt_iff_lt_mul (by omega), Nat.mul_comm ns k]
  exact Nat.mul_lt_mul_of_pos_right hj hns

theorem sliceBorders_ascending (hsample : sample.Pairwise (recordLe · ·)) (hns : 0 < sample.length) :
    Ascending beforeRecord (sliceBorders sample k) := by
  refine List.pairwise_map.mpr ((List.pairwise_lt_range (n := k - 1)).imp_of_mem fun {i j} hi hj hij => ?_)
  have hi := List.mem_range.mp hi
  have hj := List.mem_range.mp hj
  have hlti : (i + 1) * sample.length / k < sample.length := border_index hns (by omega)
  have hltj : (j + 1) * sample.length / k < sample.length := border_index hns (by omega)
  have hle : (i + 1) * sample.length / k ≤ (j + 1) * sample.length / k :=
    Nat.div_le_div_right (Nat.mul_le_mul_right _ (by omega))
  rw [List.getD_eq_getElem?_getD, List.getD_eq_getElem?_getD, List.getElem?_eq_getElem hlti,
    List.getElem?_eq_getElem hltj, Option.getD_some, Option.getD_some]
  refine beforeRecord_ascending ?_
  obtain heq | hlt := Nat.eq_or_lt_of_le hle
  · simp only [heq]
    exact recordOrder.refl _
  · exact List.pairwise_iff_getElem.mp hsample _ _ hlti hltj hlt

theorem beforeEnd_mono (j : Nat) (hsorted : slice.Pairwise (recordLe · ·)) :
    slice.Pairwise fun x y => beforeEnd borders j y = true → beforeEnd borders j x = true := by
  refine hsorted.imp fun {x y} hle hy => ?_
  unfold beforeEnd at hy ⊢
  cases hget : borders[j]? with
  | none => rfl
  | some border =>
    rw [hget] at hy
    exact beforeRecord_mono border x y hle hy

/-- What is before the end of a range is before the end of the next one. -/
theorem beforeEnd_succ (hasc : Ascending beforeRecord borders) {record : List Byte}
    (h : beforeEnd borders j record = true) : beforeEnd borders (j + 1) record = true := by
  unfold beforeEnd at h ⊢
  cases hnext : borders[j + 1]? with
  | none => rfl
  | some border' =>
    obtain ⟨hlt, rfl⟩ := List.getElem?_eq_some_iff.mp hnext
    have hget : borders[j]? = some borders[j] := List.getElem?_eq_getElem (by omega)
    rw [hget] at h
    exact List.pairwise_iff_getElem.mp hasc j (j + 1) (by omega) hlt (by omega) record h

/-- The end of a range in a slice. -/
theorem rangeEnd_eq (hns : 0 < sample.length) (hsorted : slice.Pairwise (recordLe · ·)) (hj : j < k) :
    rangeEnd sample k j slice = some (slice.countP (beforeEnd (sliceBorders sample k) j)) := by
  unfold rangeEnd beforeEnd sliceBorders
  split
  · rename_i hlast
    rw [List.getElem?_eq_none (by rw [List.length_map, List.length_range, hlast])]
    simp
  · rename_i hj'
    have hlt : (j + 1) * sample.length / k < sample.length := border_index hns (by omega)
    rw [List.getElem?_eq_getElem hlt, List.getElem?_map, List.getElem?_range (by omega), Option.map_some,
      List.getD_eq_getElem?_getD, List.getElem?_eq_getElem hlt, Option.getD_some, Option.bind_some]
    exact bisect_list (hsorted.imp fun {x y} hle hy => beforeRecord_mono _ x y hle hy)

theorem rangeBounds_eq (hns : 0 < sample.length) (hsorted : slice.Pairwise (recordLe · ·))
    (hasc : Ascending beforeRecord (sliceBorders sample k)) (hj : j < k) :
    rangeBounds sample k slice j = some
      (slice.countP (fun record => decide (j ≠ 0) && beforeEnd (sliceBorders sample k) (j - 1) record),
        slice.countP (beforeEnd (sliceBorders sample k) j)) := by
  induction j with
  | zero => simp [rangeBounds, rangeEnd_eq hns hsorted hj]
  | succ j ih =>
    have hle : slice.countP (beforeEnd (sliceBorders sample k) j) ≤ slice.countP (beforeEnd (sliceBorders sample k) (j + 1)) :=
      List.countP_mono_left fun record _ h => beforeEnd_succ hasc h
    rw [rangeBounds, ih (by omega), Option.bind_some, rangeEnd_eq hns hsorted hj]
    simp [Nat.max_eq_left hle]

/-- What a slice has in a range is what it has between the borders. -/
theorem rangePart_eq (hns : 0 < sample.length) (hsorted : slice.Pairwise (recordLe · ·))
    (hasc : Ascending beforeRecord (sliceBorders sample k)) (hj : j < k) :
    rangePart sample k j slice = some (slice.filter (inRange beforeRecord (sliceBorders sample k) j)) := by
  have hlower : slice.Pairwise fun x y =>
      (decide (j ≠ 0) && beforeEnd (sliceBorders sample k) (j - 1) y) = true →
        (decide (j ≠ 0) && beforeEnd (sliceBorders sample k) (j - 1) x) = true := by
    have hmono : slice.Pairwise fun x y => beforeEnd (sliceBorders sample k) (j - 1) y = true →
        beforeEnd (sliceBorders sample k) (j - 1) x = true := beforeEnd_mono (j - 1) hsorted
    refine hmono.imp fun {x y} hxy hy => ?_
    rw [Bool.and_eq_true] at hy ⊢
    exact ⟨hy.1, hxy hy.2⟩
  have hle : ∀ x ∈ slice, (decide (j ≠ 0) && beforeEnd (sliceBorders sample k) (j - 1) x) = true →
      beforeEnd (sliceBorders sample k) j x = true := by
    intro x _ hx
    obtain ⟨hpos, hx⟩ := Bool.and_eq_true_iff.mp hx
    obtain ⟨j, rfl⟩ := Nat.exists_eq_succ_of_ne_zero (of_decide_eq_true hpos)
    exact beforeEnd_succ hasc hx
  unfold rangePart
  rw [rangeBounds_eq hns hsorted hasc hj, Option.map_some, drop_take_countP hlower (beforeEnd_mono j hsorted) hle]
  congr 1
  refine List.filter_congr fun x _ => ?_
  unfold inRange
  change _ = (_ && beforeEnd (sliceBorders sample k) j x)
  congr 1
  cases j with
  | zero => rfl
  | succ j =>
    have hbound : j < (sliceBorders sample k).length := by
      simp [sliceBorders]
      omega
    have hget : (sliceBorders sample k)[j]? = some (sliceBorders sample k)[j] := List.getElem?_eq_getElem _
    simp [beforeEnd, hget]

theorem length_sliceSample_pos (h : slices.flatten ≠ []) : 0 < (sliceSample slices).length := by
  obtain ⟨record, hrecord⟩ := List.exists_mem_of_ne_nil _ h
  obtain ⟨slice, hslice, hmem⟩ := List.mem_flatten.mp hrecord
  obtain ⟨first, rest, rfl⟩ := List.exists_cons_of_ne_nil (List.ne_nil_of_mem hmem)
  refine List.length_pos_of_mem (a := first) (List.mem_mergeSort.mpr (List.mem_flatMap.mpr ⟨_, hslice, ?_⟩))
  refine List.mem_filterMap.mpr ⟨0, List.mem_range.mpr (by decide), ?_⟩
  rw [Nat.zero_mul, Nat.zero_div]
  rfl

/-- Sorted slices are merged into one list. -/
theorem mergeSlicesParallel_eq (hsorted : ∀ slice ∈ slices, slice.Pairwise (recordLe · ·)) :
    mergeSlicesParallel slices = some (sortRefs slices.flatten) := by
  have hlength : (slices.map List.length).sum = slices.flatten.length := List.length_flatten.symm
  unfold mergeSlicesParallel
  dsimp only
  rw [hlength]
  split
  · rename_i hzero
    rw [List.length_eq_zero_iff.mp hzero]
    simp [sortRefs]
  · rename_i hpos
    have hns : 0 < (sliceSample slices).length := length_sliceSample_pos (mt List.length_eq_zero_iff.mpr hpos)
    have hk : 0 < slices.length := by
      refine List.length_pos_iff.mpr fun hnil => hpos ?_
      rw [hnil]
      rfl
    have hasc : Ascending beforeRecord (sliceBorders (sliceSample slices) slices.length) :=
      sliceBorders_ascending (sortRefs_sorted _) hns
    have hborders : (sliceBorders (sliceSample slices) slices.length).length + 1 = slices.length := by
      unfold sliceBorders
      rw [List.length_map, List.length_range]
      omega
    let borders := sliceBorders (sliceSample slices) slices.length
    let parts := fun j => slices.map (List.filter (inRange beforeRecord borders j))
    have hparts : ((List.range slices.length).mapM fun j => slices.mapM (rangePart (sliceSample slices) slices.length j)) =
        some ((List.range slices.length).map parts) :=
      mapM_eq_some fun j hj => mapM_eq_some fun slice hslice =>
        rangePart_eq hns (hsorted slice hslice) hasc (List.mem_range.mp hj)
    have hmerged : ((List.range slices.length).map parts).mapM rangeMergeMain =
        some (((List.range slices.length).map parts).map fun part => sortRefs part.flatten) := by
      refine mapM_eq_some fun part hpart => rangeMergeMain_eq fun slice hslice => ?_
      obtain ⟨j, -, rfl⟩ := List.mem_map.mp hpart
      obtain ⟨slice, hmem, rfl⟩ := List.mem_map.mp hslice
      exact (hsorted slice hmem).filter _
    have hall : (((List.range slices.length).map parts).map fun part => sortRefs part.flatten).flatten =
        sortRefs slices.flatten := by
      rw [List.map_map, ← List.flatMap_def, ← hborders]
      refine flatMap_ranges recordOrder (fun b x y => beforeRecord_mono b x y) hasc fun j _ => ?_
      change sortRefs (slices.map (List.filter (inRange beforeRecord borders j))).flatten = _
      rw [← List.filter_flatten]
      rfl
    have hsum : ((((List.range slices.length).map parts).map List.flatten).map List.length).sum = slices.flatten.length := by
      have hlen := congrArg List.length hall
      rw [List.length_flatten, List.map_map, List.map_map, (sortRefs_perm _).length_eq] at hlen
      rw [List.map_map, List.map_map, ← hlen]
      congr 1
      exact List.map_congr_left fun j _ => (sortRefs_perm _).length_eq.symm
    rw [hparts, Option.bind_some, hmerged, Option.bind_some, if_pos hsum, hall]

end Slices

section Batches

variable {P : Puzzle} {refs forms : List (List Byte)}

/-- A batch is sorted in canonical form, on any number of threads, unless one of its records is refused. -/
theorem batchSort_eq (P : Puzzle) (threads : Nat) (refs : List (List Byte)) :
    ((∃ r ∈ refs, canonicalForm P r = none) → batchSort P threads true refs = .error .badRecord) ∧
      ∀ form : List Byte → List Byte, (∀ r ∈ refs, canonicalForm P r = some (form r)) →
        batchSort P threads true refs = .ok (sortRefs (refs.map form)) := by
  have hthreads : 0 < min (max threads 1) (refs.length / 4096 + 1) := by omega
  have hshares := flatten_shares hthreads refs
  unfold batchSort
  dsimp only
  generalize shares refs (min (max threads 1) (refs.length / 4096 + 1)) = slices at *
  constructor
  · rintro ⟨r, hr, hnone⟩
    rw [← hshares] at hr
    obtain ⟨slice, hslice, hmem⟩ := List.mem_flatten.mp hr
    have hbad : sliceSortMain P true slice = none := by
      unfold sliceSortMain
      rw [if_pos rfl, mapM_eq_none hmem hnone]
      rfl
    rw [mapM_eq_none hslice hbad]
  · intro form hform
    have hslices : slices.mapM (sliceSortMain P true) = some (slices.map fun slice => sortRefs (slice.map form)) := by
      refine mapM_eq_some fun slice hslice => ?_
      have hforms : slice.mapM (canonicalForm P) = some (slice.map form) :=
        mapM_eq_some fun r hr => hform r (by rw [← hshares]; exact List.mem_flatten.mpr ⟨slice, hslice, hr⟩)
      unfold sliceSortMain
      rw [if_pos rfl, hforms]
      rfl
    have hsorted : ∀ slice ∈ slices.map fun slice => sortRefs (slice.map form), slice.Pairwise (recordLe · ·) := by
      intro slice hslice
      obtain ⟨slice, -, rfl⟩ := List.mem_map.mp hslice
      exact sortRefs_sorted _
    have hsame : sortRefs (slices.map fun slice => sortRefs (slice.map form)).flatten = sortRefs (refs.map form) := by
      refine recordOrder.eq_mergeSort (sortRefs_sorted _) ((sortRefs_perm _).trans ?_)
      rw [← hshares, List.map_flatten]
      refine List.Perm.flatten_congr ?_
      rw [List.forall₂_map_left_iff, List.forall₂_map_right_iff]
      exact List.forall₂_same.mpr fun slice _ => sortRefs_perm _
    rw [hslices]
    dsimp only
    rw [mergeSlicesParallel_eq hsorted]
    dsimp only
    rw [hsame]

end Batches
