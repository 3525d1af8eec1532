-- SUMMARY: The disk part of the stock: segment files, their descriptors, and the operations on them when calls may fail.
import EternityII.Base.FileSystem
import EternityII.Spill.Frame
import EternityII.Stock.LocalStock

/-!
# Segments

Each pool and file of the stock has a stack of segments on disk. Only the top can be written, and
it has a logical top: reading back moves that down and leaves the file alone, so that a segment
is cut before anything is appended to it. A segment that a snapshot links is not cut in place but
copied first. Every call that can fail is given its outcome by an environment.
-/

/-- The files of the spill directory: a segment of a pool and file, its `.cow` and `.tmp`
companions, and a segment of the snapshot directory. -/
inductive SpillName where
  | live (isChecked : Bool) (file seq : Nat)
  | cow (isChecked : Bool) (file seq : Nat)
  | tmp (isChecked : Bool) (file seq : Nat)
  | snap (isChecked : Bool) (file seq : Nat)
  deriving DecidableEq, Repr

/-- The segments of two files have different names. -/
theorem SpillName.live_ne_live {c c' : Bool} {f f' seq seq' : Nat} (hne : ¬ (c' = c ∧ f' = f)) :
    live c' f' seq ≠ live c f seq' := fun heq => hne ⟨(live.inj heq).1, (live.inj heq).2.1⟩

abbrev SpillFs : Type := FileSystem SpillName Byte

/-- `stock_spill_descriptor_t`. -/
structure SpillDescriptor where
  firstSeq : Nat
  lastSeq : Nat
  packets : Nat
  tailBytes : Nat
  tailRecords : Nat
  drops : Nat
  deriving DecidableEq, Repr

/-- The directory and the descriptors: `g_spill_checked`, `g_spill_unchecked`, `g_spill_nb_files`,
`spill_segment_records()` and `g_spill_generation`. -/
structure Spill where
  fs : SpillFs
  desc : Bool → Nat → SpillDescriptor
  nbFiles : Nat
  segmentRecords : Nat
  generation : Nat

/-- Other files, and the descriptor of a pool and file replaced. -/
def Spill.put (s : Spill) (isChecked : Bool) (file : Nat) (fs : SpillFs) (desc : SpillDescriptor) : Spill :=
  { s with
    fs := fs
    desc := Function.update s.desc isChecked (Function.update (s.desc isChecked) file desc) }

/-- Unsigned subtraction on 64 bits. -/
def subU64 (a b : Nat) : Nat := if b ≤ a then a - b else a + 2 ^ 64 - b

namespace Spill

variable {s : Spill} {c c' : Bool} {f f' : Nat} {fs : SpillFs} {desc : SpillDescriptor}

@[simp] theorem put_fs : (s.put c f fs desc).fs = fs := rfl

@[simp] theorem put_desc_self : (s.put c f fs desc).desc c f = desc := by
  unfold put
  simp

theorem put_desc_of_ne (h : ¬ (c' = c ∧ f' = f)) : (s.put c f fs desc).desc c' f' = s.desc c' f' := by
  unfold put
  by_cases hc : c' = c
  · subst hc
    simp [Function.update_of_ne fun hf => h ⟨rfl, hf⟩]
  · simp [Function.update_of_ne hc]

@[simp] theorem put_self : s.put c f s.fs (s.desc c f) = s := by
  unfold put
  simp

end Spill

/-! ## What the calls of an operation do -/

/-- A copy: whether both files open, and after how many bytes a write fails. -/
structure CopyEnv where
  opensSrc : Bool
  opensDst : Bool
  failsAfter : Option Nat

/-- A trim: `truncate`, or the copy and its `rename`. -/
structure TrimEnv where
  truncates : Bool
  copy : CopyEnv
  renames : Bool

/-- A frame of an append: the close before a roll and how many pending bytes a failed one leaves,
the two trims, the open, and after how many bytes writing the frame fails. -/
structure FrameEnv where
  closes : Bool
  closeKeeps : Nat
  trimsOld : TrimEnv
  trims : TrimEnv
  opens : Bool
  failsAfter : Option Nat

/-- An append: its frames, and the last close. -/
structure AppendEnv where
  frame : Nat → FrameEnv
  closes : Bool
  closeKeeps : Nat

/-- A reload: the opens of the scans of `spill_load_top_locked` before the read and at the commit,
and the open of the read. -/
structure ReloadEnv where
  scans : Nat → Bool
  opens : Bool
  commitScans : Bool

/-! ## Files -/

/-- `spill_copy_file` of at most `maxBytes` bytes. The destination is emptied before the source is
read. -/
def spillCopyFile (fs : SpillFs) (src dst : SpillName) (maxBytes : Option Nat) (env : CopyEnv) :
    SpillFs × Bool :=
  match fs.read src with
  | none => (fs, false)
  | some _ =>
    if !env.opensSrc || !env.opensDst then (fs, false)
    else
      let opened := fs.overwrite dst []
      let bytes := (opened.read src).getD []
      let wanted := bytes.take (maxBytes.getD bytes.length)
      match env.failsAfter with
      | none => (opened.overwrite dst wanted, true)
      | some k => ((opened.overwrite dst (wanted.take k)).unlink dst, false)

/-- `spill_trim_segment_to_tail`. -/
def spillTrimSegmentToTail (fs : SpillFs) (isChecked : Bool) (file seq tailBytes : Nat) (env : TrimEnv) :
    SpillFs × Bool :=
  let path := SpillName.live isChecked file seq
  let tmp := SpillName.cow isChecked file seq
  match fs.inode path with
  | none => (fs, true)
  | some i =>
    if (fs.content i).length ≤ tailBytes then (fs, true)
    else if fs.nlink i ≤ 1 then
      (if env.truncates then (fs.truncate path tailBytes, true) else (fs, false))
    else
      let copied := spillCopyFile fs path tmp (some tailBytes) env.copy
      if !copied.2 then (copied.1, false)
      else if env.renames then
        match copied.1.rename tmp path with
        | some renamed => (renamed, true)
        | none => (copied.1, false)
      else (copied.1.unlink tmp, false)

/-- `spill_load_top_locked`; `scans` says whether the file opens for the scan. -/
def spillLoadTop (fs : SpillFs) (isChecked : Bool) (file : Nat) (desc : SpillDescriptor) (scans : Bool) :
    SpillDescriptor :=
  match fs.read (.live isChecked file desc.lastSeq) with
  | none => { desc with tailBytes := 0, tailRecords := 0 }
  | some bytes => { desc with
      tailBytes := bytes.length
      tailRecords := if scans then (spillScanSegment bytes (some bytes.length)).1 else 0 }

/-- `spill_drop_top_locked`. -/
def spillDropTop (fs : SpillFs) (isChecked : Bool) (file : Nat) (desc : SpillDescriptor) (scans : Bool) :
    SpillFs × SpillDescriptor :=
  let fs' := fs.unlink (.live isChecked file desc.lastSeq)
  let desc' := { desc with lastSeq := desc.lastSeq - 1, drops := desc.drops + 1 }
  if desc'.lastSeq < desc'.firstSeq then
    (fs', { desc' with firstSeq := 0, lastSeq := 0, tailBytes := 0, tailRecords := 0 })
  else (fs', spillLoadTop fs' isChecked file desc' scans)

/-- `spill_prepare_top_locked`, `none` when the segment that is left cannot be cut. -/
def spillPrepareTop (fs : SpillFs) (isChecked : Bool) (file : Nat) (desc : SpillDescriptor)
    (segmentRecords records : Nat) (env : TrimEnv) : SpillFs × Option SpillDescriptor :=
  if desc.lastSeq = 0 then
    (fs, some { desc with firstSeq := 1, lastSeq := 1, tailBytes := 0, tailRecords := 0 })
  else if desc.tailRecords > 0 ∧ desc.tailRecords + records > segmentRecords then
    let trimmed := spillTrimSegmentToTail fs isChecked file desc.lastSeq desc.tailBytes env
    if trimmed.2 then
      (trimmed.1, some { desc with lastSeq := desc.lastSeq + 1, tailBytes := 0, tailRecords := 0 })
    else (trimmed.1, none)
  else (fs, some desc)

/-! ## Appending -/

/-- An append under way: the descriptor, the one as of the last synced frame and the number of
synced frames, and the bytes written to the open segment since it was opened. -/
structure AppendState where
  fs : SpillFs
  desc : SpillDescriptor
  committedDesc : SpillDescriptor
  committed : Nat
  handle : Option (List Byte)
  ok : Bool

/-- `spill_close_synced`: when it fails, some of the pending bytes may have been written. -/
def spillCloseSynced (fs : SpillFs) (name : SpillName) (pending : List Byte) (closes : Bool) (keeps : Nat) :
    SpillFs × Bool :=
  if closes then (fs.append name pending, true) else (fs.append name (pending.take keeps), false)

/-- The segment of the loop of `spill_append_frames_locked` that opens the top for a frame. -/
def spillOpenTop (isChecked : Bool) (file : Nat) (env : FrameEnv) (st : AppendState) : AppendState :=
  match st.handle with
  | some _ => st
  | none =>
    let trimmed := spillTrimSegmentToTail st.fs isChecked file st.desc.lastSeq st.desc.tailBytes env.trims
    if trimmed.2 && env.opens then
      { st with
        fs := trimmed.1.append (.live isChecked file st.desc.lastSeq) []
        handle := some [] }
    else { st with fs := trimmed.1, ok := false }

/-- The frame written to the open segment. -/
def spillWriteFrame (fr : StoredFrame) (env : FrameEnv) (st : AppendState) : AppendState :=
  let pending := st.handle.getD []
  match env.failsAfter with
  | some k => { st with handle := some (pending ++ fr.bytes.take k), ok := false }
  | none => { st with
      handle := some (pending ++ fr.bytes)
      desc := { st.desc with
        tailBytes := st.desc.tailBytes + spillFrameBytes fr.info
        tailRecords := st.desc.tailRecords + fr.info.records
        packets := st.desc.packets + fr.info.records } }

/-- The close before the top rolls. -/
def spillCloseBeforeRoll (isChecked : Bool) (file segmentRecords i : Nat) (fr : StoredFrame) (env : FrameEnv)
    (st : AppendState) : AppendState :=
  let rolls := st.desc.lastSeq ≠ 0 ∧ st.desc.tailRecords > 0 ∧
    st.desc.tailRecords + fr.info.records > segmentRecords
  match st.handle with
  | none => st
  | some pending =>
    if rolls then
      let closed := spillCloseSynced st.fs (.live isChecked file st.desc.lastSeq) pending env.closes env.closeKeeps
      if closed.2 then
        { st with fs := closed.1, handle := none, committed := i, committedDesc := st.desc }
      else { st with fs := closed.1, handle := none, ok := false }
    else st

/-- The loop of `spill_append_frames_locked` from frame `i` on. -/
def spillAppendLoop (isChecked : Bool) (file segmentRecords : Nat) (env : AppendEnv) :
    List StoredFrame → Nat → AppendState → AppendState
  | [], _, st => st
  | fr :: frames, i, st =>
    let closed := spillCloseBeforeRoll isChecked file segmentRecords i fr (env.frame i) st
    if !closed.ok then closed
    else
      match spillPrepareTop closed.fs isChecked file closed.desc segmentRecords fr.info.records
          (env.frame i).trimsOld with
      | (fs, none) => { closed with fs := fs, ok := false }
      | (fs, some desc) =>
        let opened := spillOpenTop isChecked file (env.frame i) { closed with fs := fs, desc := desc }
        if !opened.ok then opened
        else
          let written := spillWriteFrame fr (env.frame i) opened
          if !written.ok then written
          else spillAppendLoop isChecked file segmentRecords env frames (i + 1) written

/-- The end of `spill_append_frames_locked`: the last close, and what a failure takes back. -/
def spillAppendEnd (isChecked : Bool) (file n : Nat) (env : AppendEnv) (st : AppendState) :
    SpillFs × SpillDescriptor × Nat :=
  let closed :=
    match st.handle with
    | none => st
    | some pending =>
      let closed := spillCloseSynced st.fs (.live isChecked file st.desc.lastSeq) pending env.closes env.closeKeeps
      if closed.2 && st.ok then { st with fs := closed.1, committed := n, committedDesc := st.desc }
      else { st with fs := closed.1, ok := false }
  if closed.ok then (closed.fs, closed.desc, closed.committed)
  else
    let fs :=
      if closed.desc.lastSeq ≠ closed.committedDesc.lastSeq ∧ closed.desc.lastSeq ≠ 0 then
        closed.fs.unlink (.live isChecked file closed.desc.lastSeq)
      else closed.fs
    (fs, closed.committedDesc, closed.committed)

/-- `spill_append_frames_locked`: the files, the descriptor, and how many frames are in. -/
def spillAppendFrames (fs : SpillFs) (isChecked : Bool) (file : Nat) (desc : SpillDescriptor)
    (segmentRecords : Nat) (frames : List StoredFrame) (env : AppendEnv) : SpillFs × SpillDescriptor × Nat :=
  spillAppendEnd isChecked file frames.length env
    (spillAppendLoop isChecked file segmentRecords env frames 0 ⟨fs, desc, desc, 0, none, true⟩)

/-! ## Reading back -/

/-- `tier_decode_block` with room for `max` packets. -/
def tierDecodeBlock (P : Puzzle) (raw : List Byte) (max : Nat) : Option (List (Packet P)) :=
  match tierRecords P raw with
  | none => none
  | some records => if records.length > max then none else records.mapM (recordPacket P)

/-- The loop at the start of `stock_spill_reload` and of `spill_reset_commit_locked` over empty
tops. -/
def spillDropEmptyTops (isChecked : Bool) (file : Nat) (scans : Nat → Bool) :
    Nat → SpillFs → SpillDescriptor → SpillFs × SpillDescriptor
  | 0, fs, desc => (fs, desc)
  | fuel + 1, fs, desc =>
    if desc.lastSeq ≠ 0 ∧ desc.tailBytes = 0 then
      let dropped := spillDropTop fs isChecked file desc (scans desc.lastSeq)
      spillDropEmptyTops isChecked file scans fuel dropped.1 dropped.2
    else (fs, desc)

/-- What a reload has read: the segment and its logical top, where the frames start, how many
records they hold, and the packets. -/
structure ReloadPlan (P : Puzzle) where
  seq : Nat
  tail : Nat
  start : Nat
  take : Nat
  packets : List (Packet P)

/-- The read of `stock_spill_reload`, of the frames at the top of one segment. -/
def spillReadTop (P : Puzzle) (tier : TierCodec) (fs : SpillFs) (isChecked : Bool) (file : Nat)
    (desc : SpillDescriptor) (maxPackets : Nat) (opens : Bool) : Option (ReloadPlan P) :=
  match if opens then fs.read (.live isChecked file desc.lastSeq) else none with
  | none => none
  | some content =>
    match spillBackLoop content maxPackets (desc.tailBytes + 1) desc.tailBytes 0 with
    | none => none
    | some (start, take) =>
      let bytes := (content.drop start).take (desc.tailBytes - start)
      if bytes.length ≠ desc.tailBytes - start then none
      else
        match spillWalkFrames P tier bytes with
        | none => none
        | some raws =>
          match raws.mapM fun raw => tierDecodeBlock P raw take with
          | none => none
          | some packets =>
            if packets.flatten.length = take then
              some ⟨desc.lastSeq, desc.tailBytes, start, take, packets.flatten⟩
            else none

/-- The first critical section of `stock_spill_reload`. -/
def reloadRead (P : Puzzle) (tier : TierCodec) (s : Spill) (isChecked : Bool) (file maxPackets : Nat)
    (env : ReloadEnv) : Spill × Option (ReloadPlan P) :=
  let dropped := spillDropEmptyTops isChecked file env.scans ((s.desc isChecked file).lastSeq + 1) s.fs
    (s.desc isChecked file)
  let s' := s.put isChecked file dropped.1 dropped.2
  if dropped.2.packets = 0 ∨ dropped.2.lastSeq = 0 then (s', none)
  else (s', spillReadTop P tier dropped.1 isChecked file dropped.2 maxPackets env.opens)

/-- The second one, after the packets are in the list. -/
def reloadCommit {P : Puzzle} (s : Spill) (isChecked : Bool) (file : Nat) (plan : ReloadPlan P)
    (env : ReloadEnv) : Spill :=
  let desc := s.desc isChecked file
  let desc' := { desc with
    tailBytes := plan.start
    tailRecords := if desc.tailRecords > plan.take then desc.tailRecords - plan.take else 0
    packets := subU64 desc.packets plan.take }
  let dropped :=
    if plan.start = 0 then spillDropTop s.fs isChecked file desc' env.commitScans else (s.fs, desc')
  s.put isChecked file dropped.1 dropped.2

/-- `stock_spill_reload` run alone: the packets it puts into the list, with their score unknown. -/
def stockSpillReload (P : Puzzle) (tier : TierCodec) (s : Spill) (isChecked : Bool) (file maxPackets : Nat)
    (env : ReloadEnv) : Spill × List (Packet P) :=
  match reloadRead P tier s isChecked file maxPackets env with
  | (s', none) => (s', [])
  | (s', some plan) => (reloadCommit s' isChecked file plan env,
      plan.packets.map fun p => { p with minCandidats := possibilityMinCandidatsUnknown })
