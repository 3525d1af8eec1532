-- SUMMARY: Reading the unverified stacks from the bottom for an expansion pass, segment by segment.
import EternityII.Spill.Reset

/-!
# Segments for an expansion pass

A pass develops what was in the stock when it began. It takes the segments from the bottom of each
unverified stack up to the one that was the top then, of which only the first frames are old. A
segment is read to its end before it is removed; what fails on the way is left on disk.
-/

section Model

variable (P : Puzzle) (tier : TierCodec) {σ : Type*}

/-- `packet_codec_peek_min_candidats`. -/
def packetCodecPeekMinCandidats (bytes : List Byte) : Int16 :=
  if bytes.length < packetCodecHeaderBytes then possibilityMinCandidatsUnknown
  else Int16.ofBitVec (getU16 (bytes.getD 4 0) (bytes.getD 5 0))

/-- The loop of `expansion_deliver_records`, `none` for `EXPANSION_KEEP_MIN_CANDIDATS`: the state of
the sink, and the number of records it has taken unless one was refused or is not a record. -/
def expansionDeliverLoop (sink : σ → List Byte → Bool → σ × Bool) (minCandidats : Option Int16) (develop : Bool) :
    Nat → List Byte → Nat → σ → σ × Option Nat
  | _, [], n, st => (st, some n)
  | 0, _, _, st => (st, none)
  | fuel + 1, raw, n, st =>
    match packetCodecCanonicalize P raw (minCandidats.getD (packetCodecPeekMinCandidats raw)) with
    | .ok (len, record, _) =>
      if len = 0 then (st, none)
      else
        let taken := sink st (record.take len) develop
        if taken.2 then
          expansionDeliverLoop sink minCandidats develop fuel (raw.drop len) (n + 1) taken.1
        else (taken.1, none)
    | _ => (st, none)

/-- `expansion_deliver_records`. -/
def expansionDeliverRecords (sink : σ → List Byte → Bool → σ × Bool) (raw : List Byte) (records : Nat)
    (minCandidats : Option Int16) (develop : Bool) (st : σ) : σ × Bool :=
  let delivered := expansionDeliverLoop P sink minCandidats develop raw.length raw 0 st
  (delivered.1, delivered.2 = some records)

/-- `spill_for_each_frame` with `spill_expansion_frame`, on frames from an offset on. -/
def spillExpansionFrames (sink : σ → List Byte → Bool → σ × Bool) (oldBytes : Nat) :
    List StoredFrame → Nat → σ → σ × Bool
  | [], _, st => (st, true)
  | fr :: frames, offset, st =>
    match stockTierUnpack P tier fr.info.codec fr.stored fr.info.rawBytes fr.info.records with
    | none => (st, false)
    | some raw =>
      let delivered := expansionDeliverRecords P sink raw fr.info.records (some possibilityMinCandidatsUnknown)
        (decide (offset < oldBytes)) st
      if delivered.2 then spillExpansionFrames sink oldBytes frames (offset + spillFrameBytes fr.info) delivered.1
      else (delivered.1, false)

/-- The disk part of a pass: `g_expand_active`, `g_expand_boundary_seq` and
`g_expand_boundary_tail`. -/
structure DiskExpansion where
  active : Bool
  boundarySeq : Nat → Nat
  boundaryTail : Nat → Nat

/-- The disk part of `stock_spill_expansion_begin`. -/
def diskExpansionBegin (s : Spill) : DiskExpansion where
  active := true
  boundarySeq f := if f < s.nbFiles then (s.desc false f).lastSeq else 0
  boundaryTail f := if f < s.nbFiles then (s.desc false f).tailBytes else 0

/-- What `spill_expansion_pick` finds. -/
structure ExpansionPick where
  file : Nat
  seq : Nat
  bytes : Option Nat
  top : Bool
  oldBytes : Nat

/-- A stack that has a segment for the pass. -/
def expansionReady (s : Spill) (e : DiskExpansion) (f : Nat) : Bool :=
  let desc := s.desc false f
  decide (desc.lastSeq ≠ 0 ∧ e.boundarySeq f ≠ 0 ∧ desc.firstSeq ≤ e.boundarySeq f)

/-- `spill_expansion_pick`. -/
def spillExpansionPick (s : Spill) (e : DiskExpansion) : Option ExpansionPick :=
  ((List.range s.nbFiles).find? (expansionReady s e)).map fun f =>
    let desc := s.desc false f
    let top := decide (desc.firstSeq = desc.lastSeq)
    let bytes := if top then some desc.tailBytes else (s.fs.read (.live false f desc.firstSeq)).map List.length
    { file := f
      seq := desc.firstSeq
      bytes := bytes
      top := top
      oldBytes := if desc.firstSeq < e.boundarySeq f then bytes.getD 0 else e.boundaryTail f }

/-- What a take returns. -/
inductive DiskTake where
  | nothing
  | failed
  | noRoom
  | taken (records : Nat)
  deriving DecidableEq, Repr

/-- A segment a take goes on to read: its bytes and its records. -/
structure DiskTakeScan where
  pick : ExpansionPick
  bytes : Nat
  records : Nat

/-- `stock_spill_disk_expansion_take` up to its read. -/
def diskTakeScan (s : Spill) (e : DiskExpansion) (maxRecords : Nat) (opens : Bool) : DiskTake ⊕ DiskTakeScan :=
  if !e.active then .inl .nothing
  else
    match spillExpansionPick s e with
    | none => .inl .nothing
    | some pick =>
      match pick.bytes, if opens then s.fs.read (.live false pick.file pick.seq) else none with
      | some bytes, some content =>
        let scan := spillScanSegment content (some bytes)
        if !scan.2 then .inl .failed
        else if scan.1 > maxRecords then .inl .noRoom
        else .inr ⟨pick, bytes, scan.1⟩
      | _, _ => .inl .failed

/-- The read. -/
def diskTakeRead (sink : σ → List Byte → Bool → σ × Bool) (fs : SpillFs) (scan : DiskTakeScan) (opens : Bool) (st : σ) :
    σ × Bool :=
  match if opens then fs.read (.live false scan.pick.file scan.pick.seq) else none with
  | none => (st, false)
  | some content =>
    let frames := spillForEachStoredFrame content (some scan.bytes)
    let read := spillExpansionFrames P tier sink scan.pick.oldBytes frames.1 0 st
    (read.1, read.2 && frames.2)

/-- The commit, once all is at the sink. -/
def diskTakeCommit (s : Spill) (e : DiskExpansion) (scan : DiskTakeScan) : Spill × DiskExpansion :=
  let f := scan.pick.file
  let seq := scan.pick.seq
  let desc := s.desc false f
  let packets := subU64 desc.packets scan.records
  (s.put false f (s.fs.unlink (.live false f seq))
    (if seq = desc.lastSeq then
      { desc with firstSeq := 0, lastSeq := 0, tailBytes := 0, tailRecords := 0, packets := packets }
    else { desc with firstSeq := desc.firstSeq + 1, packets := packets }),
  if seq = e.boundarySeq f then { e with boundarySeq := Function.update e.boundarySeq f 0 } else e)

/-- `stock_spill_disk_expansion_take` run alone. -/
def stockSpillDiskExpansionTake (sink : σ → List Byte → Bool → σ × Bool) (s : Spill) (e : DiskExpansion)
    (maxRecords : Nat) (opensScan opensRead : Bool) (st : σ) : Spill × DiskExpansion × σ × DiskTake :=
  match diskTakeScan s e maxRecords opensScan with
  | .inl r => (s, e, st, r)
  | .inr scan =>
    let read := diskTakeRead P tier sink s.fs scan opensRead st
    if read.2 then
      let committed := diskTakeCommit s e scan
      (committed.1, committed.2, read.1, .taken scan.records)
    else (s, e, read.1, .failed)

end Model

section Spec

variable {P : Puzzle} {tier : TierCodec} {σ : Type*} {sink : σ → List Byte → Bool → σ × Bool} {s : Spill}
  {e : DiskExpansion} {scan : DiskTakeScan} {maxRecords : Nat} {opens opensScan opensRead : Bool} {st : σ}
  {counted : Prop} {kept : Nat → List StoredFrame} {seg : List StoredFrame} {rest : List (List StoredFrame)}

theorem diskTakeScan_ne_taken {n : Nat} (h : diskTakeScan s e maxRecords opens = .inl (.taken n)) : False := by
  unfold diskTakeScan at h
  split at h
  · simp at h
  · split at h
    · simp at h
    · split at h
      · dsimp only at h
        split at h
        · simp at h
        · split at h <;> simp at h
      · simp at h

/-- A segment found is the bottom of its stack, and all its frames are scanned. -/
structure DiskTakeScan.Finds (scan : DiskTakeScan) (s : Spill) (e : DiskExpansion) (seg : List StoredFrame)
    (rest : List (List StoredFrame)) : Prop where
  file_lt : scan.pick.file < s.nbFiles
  seq : scan.pick.seq = (s.desc false scan.pick.file).firstSeq
  bytes : scan.bytes = (framesBytes seg).length
  records : scan.records = framesRecords seg
  top : scan.pick.top = true ↔ rest = []
  boundary : 0 < e.boundarySeq scan.pick.file ∧ scan.pick.seq ≤ e.boundarySeq scan.pick.file
  oldBytes : scan.pick.oldBytes =
    if scan.pick.seq < e.boundarySeq scan.pick.file then scan.bytes else e.boundaryTail scan.pick.file

theorem diskTakeScan_spec {segs : Nat → List (List StoredFrame)}
    (h : ∀ f, Holds (segmentFiles s.fs false f) (s.desc false f) (segs f))
    (hscan : diskTakeScan s e maxRecords opens = .inr scan) :
    scan.records ≤ maxRecords ∧ ∃ seg rest, segs scan.pick.file = seg :: rest ∧ scan.Finds s e seg rest := by
  unfold diskTakeScan at hscan
  split at hscan
  · exact absurd hscan (by simp)
  · split at hscan
    · exact absurd hscan (by simp)
    · rename_i pick hpick
      obtain ⟨f, hfind, rfl⟩ := Option.map_eq_some_iff.mp hpick
      have hmem := List.mem_of_find?_eq_some hfind
      have hready := List.find?_some hfind
      unfold expansionReady at hready
      obtain ⟨hlast, hboundary, hfirst⟩ := of_decide_eq_true hready
      have hholds := h f
      obtain ⟨seg, rest, hsegs⟩ := List.exists_cons_of_ne_nil (mt hholds.lastSeq_eq_zero.mpr hlast)
      rw [hsegs] at hholds
      have hvalid : ∀ fr ∈ seg, fr.Valid := hholds.valid seg List.mem_cons_self
      obtain ⟨junk, hread, hlimit⟩ := hholds.bottom_limit
      have hseqs := hholds.seqs (by simp)
      rw [List.length_cons] at hseqs
      dsimp only at hscan
      rw [hlimit, hread] at hscan
      split at hscan
      · rename_i bytes content hbytes hcontent
        obtain rfl := Option.some.inj hbytes
        obtain rfl : framesBytes seg ++ junk = content := by
          split at hcontent
          · exact Option.some.inj hcontent
          · exact absurd hcontent (by simp)
        unfold spillScanSegment at hscan
        rw [spillForEachStoredFrame_framesBytes hvalid] at hscan
        dsimp only at hscan
        rw [if_neg (by simp)] at hscan
        split at hscan
        · exact absurd hscan (by simp)
        · rename_i hroom
          obtain rfl := Sum.inr.inj hscan
          refine ⟨Nat.le_of_not_lt hroom, seg, rest, hsegs, List.mem_range.mp hmem, rfl, rfl, rfl, ?_,
            ⟨Nat.pos_of_ne_zero hboundary, hfirst⟩, rfl⟩
          rw [decide_eq_true_iff, ← List.length_eq_zero_iff]
          omega
      · exact absurd hscan (by simp)

/-- The bottom segment goes. -/
theorem diskTakeCommit_spec (h : Holds (segmentFiles s.fs false scan.pick.file) (s.desc false scan.pick.file)
      (seg :: rest)) (hcounts : counted → CountsTail (s.desc false scan.pick.file) (seg :: rest))
    (hseq : scan.pick.seq = (s.desc false scan.pick.file).firstSeq) (hrecords : scan.records = framesRecords seg) :
    Holds (segmentFiles (diskTakeCommit s e scan).1.fs false scan.pick.file)
        ((diskTakeCommit s e scan).1.desc false scan.pick.file) rest ∧
      (counted → CountsTail ((diskTakeCommit s e scan).1.desc false scan.pick.file) rest) := by
  have hsum := h.packets
  rw [List.flatten_cons, framesRecords_append] at hsum
  have hpackets : subU64 (s.desc false scan.pick.file).packets scan.records + framesRecords seg =
      (s.desc false scan.pick.file).packets := by
    rw [hrecords, subU64, if_pos (by omega)]
    omega
  unfold diskTakeCommit
  dsimp only
  rw [Spill.put_desc_self, Spill.put_fs, hseq]
  exact h.pop_bottom hcounts hpackets

theorem diskTakeCommit_desc_of_ne {c : Bool} {f : Nat} (h : ¬ (c = false ∧ f = scan.pick.file)) :
    (diskTakeCommit s e scan).1.desc c f = s.desc c f := Spill.put_desc_of_ne h

end Spec
