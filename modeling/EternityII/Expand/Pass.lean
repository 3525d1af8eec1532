-- SUMMARY: The passes of an expansion: the threads that develop the unverified stock, level by level.
import EternityII.App.BackupFreeze
import EternityII.Search.ShortProof
import EternityII.Stock.PutToPool

/-!
# The passes of an expansion

A pass drains the unverified pool into a queue and develops each packet below the target level by one
piece. Its threads take batches from the queue, under the lock of the pass, and one of them reads the next
segment when the queue runs low. Children go to the RAM tier in blocks, or one by one into the pools; a packet
that is refused waits for room. The tier and the disk are the source of the pass: what they held when it began
is under its border, and what comes after that is above. A board found complete ends the process.
-/

/-! ## Batches -/

/-- `EXPAND_BATCH`. -/
def expandBatch : Nat := 512

/-- `EXPAND_PREFETCH_BATCHES_PER_THREAD`. -/
def expandPrefetchBatchesPerThread : Nat := 2

/-- `DATAMANAGER_RAM_RELIEF_BLOCK`. -/
def datamanagerRamReliefBlock : Nat := 4096

/-- `expand_record_bytes`. -/
def expandRecordBytes (len : Nat) : Nat := len + elementOverheadBytes

/-- `expand_batch_size`. -/
def expandBatchSize (left threads max : Nat) : Nat :=
  let share := left / (2 * if threads > 0 then threads else 1)
  let share := if share < 1 then 1 else share
  if share < max then share else max

/-- The loops of `expand_take_batch` over `scroll_sized`. -/
def scrollRecords (P : Puzzle) : Nat → PoolFile → List (List Byte) × PoolFile
  | 0, file => ([], file)
  | want + 1, file =>
    match scrollSized file (packetCodecMaxBytes P) with
    | none => ([], file)
    | some (record, rest) => (record :: (scrollRecords P want rest).1, (scrollRecords P want rest).2)

/-- The decoding of the records of a batch, with their lengths. -/
def decodeBatch (P : Puzzle) (records : List (List Byte)) : List (Nat × Packet P) :=
  records.filterMap fun record => (recordPacket P record).map (record.length, ·)

/-- The bytes of some records as `expand_work_sync` and `expand_take_batch` count them. -/
def workBytesOf (records : List (List Byte)) : Nat := (records.map fun record => expandRecordBytes record.length).sum

/-! ## The state -/

/-- The waiting of `add_possibility_waiting_for_room`: `waited`, `*waited_reason`, `retried_after_idle_relief`. -/
structure RoomWait where
  waited : Bool
  reason : AddStatus
  retried : Bool

/-- Where a thread goes on when it has stored a packet: with its batch, with the children of a packet, or
with a block that was refused, before which a record may wait. -/
inductive StoreNext where
  | batch | child
  | block (pending : Option (List Byte))

/-- What `take` of the source says: records delivered, `0`, `DATAMANAGER_DISK_TAKE_NO_ROOM` or `-1`. -/
inductive SourceTake where
  | taken (n : Nat)
  | nothing | noRoom | failed
  deriving DecidableEq

/-- A thread of a pass: before the lock of `expand_take_batch`, in its loop, and waiting there; in
`expand_refill_unlocked` before and after the source is read; before a batch is decoded, over the batch, over
the children of a packet; where a block goes to the tier, and over a block that was refused; in the insertion
of a packet, after a refusal, and before it gives packets of the queue back; and at its end. -/
inductive ExpandStage (P : Puzzle) where
  | entering | looping
  | waiting (since : Nat)
  | refilling (prefetch : Bool)
  | publishing (prefetch : Bool) (r : SourceTake)
  | decoding | working | developing
  | flushing (pending : Option (List Byte))
  | restoring (pending : Option (List Byte))
  | storing (packet : Packet P) (wait : RoomWait) (next : StoreNext)
  | refused (packet : Packet P) (status : AddStatus) (wait : RoomWait) (next : StoreNext)
  | returning (packet : Packet P) (status : AddStatus) (wait : RoomWait) (next : StoreNext)
  | ended

/-- The local variables of `expand_pass_worker` and of what it calls: `fresh` and `freshHold` are the private
files of a reading, with what they have published, and `batch` keeps the lengths of the records. -/
structure ExpandWorker (P : Puzzle) where
  stage : ExpandStage P
  isHold : Bool
  holding : Bool
  max : Nat
  blockCap : Nat
  fresh : PoolFile
  freshHold : PoolFile
  freshPublished : Nat
  drawn : List (List Byte)
  batch : List (Nat × Packet P)
  children : List (Packet P)
  inserted : Nat
  block : List (List Byte)
  unstored : List (List Byte)

/-- `expand_work_t`. -/
structure ExpandWork where
  file : PoolFile
  hold : PoolFile
  published : Nat
  returned : Nat

/-- The flags of `expand_pass_t`. -/
structure ExpandFlags where
  capReached : Bool
  aborted : Bool
  ramWait : Bool
  ramSlowed : Bool
  busyWait : Bool
  shallowDeferred : Bool
  shallowProduced : Bool
  expandedAny : Bool

/-- The counters of `expand_pass_t`. -/
structure ExpandCounts where
  produced : Nat
  fromDisk : Nat
  expanded : Nat
  dead : Nat
  reinjected : Nat
  children : Nat
  pruned : Nat
  proved : Nat

/-- The unverified tier and disk: the segments and blocks under the border of the pass, each with what has come
on top of it since, the records above, and how many have gone above without being developed. -/
structure SpillSource where
  below : List (List (List Byte) × List (List Byte))
  above : List (List Byte)
  prepassDeferred : Nat

/-- Between two passes; after the drain; with the border set; in a pass; and after the last one, which the
expansion ended itself or not. -/
inductive ExpandPhase where
  | between
  | drained (stalled : Bool)
  | bordered (stalled : Bool)
  | passing
  | stopped (byItself : Bool)
  deriving DecidableEq

/-- An expansion: the stock, whose `otherBytes` are those of the tier, the state of the pass, and what other threads
have taken from the stock and put into it. -/
structure Expansion (P : Puzzle) where
  phase : ExpandPhase
  rounds : Nat
  uncounted : Nat
  stock : LocalStock
  source : SpillSource
  workBytes : Nat
  work : ExpandWork
  nbWorkers : Nat
  workers : Nat → ExpandWorker P
  busy : Nat
  refilling : Bool
  wakes : Nat
  diskPhase : Bool
  diskLeft : Bool
  diskRecourse : Bool
  flags : ExpandFlags
  counts : ExpandCounts
  solution : Option (Packet P)
  served : List (Packet P)
  added : List (Packet P)

/-- The arguments and settings of an expansion: `disk`, `relief` and `proof` say whether the source and the two
hooks are set. -/
structure ExpandConfig where
  targetLevel : UInt16
  threads : Nat
  maxStock : Nat
  maxLevels : Nat
  disk : Bool
  relief : Bool
  proof : Bool
  singletonConflictCheck : Bool
  stopOnSolution : Bool

/-- What the threads can do. The environment says how many packets a drain has memory for, how the source is cut
into segments and blocks, which of them is read and with how much room, whether a block is taken, which locks are
free, whether the relief moved anything and whether a stop has been requested. Other threads send records to the
tier or the disk, below the border or not, take packets from the stock and add some. -/
inductive ExpandLabel (P : Puzzle) where
  | drain (room : Nat)
  | border (cut : List (List (List Byte)))
  | start (recourse : Bool) (threads : List (Nat × Nat))
  | take (i : Nat) (spurious : Bool)
  | source (i k room : Nat) (fails again : Bool) (tierBytes : Nat)
  | publish (i : Nat)
  | decode (i : Nat)
  | treat (i : Nat)
  | child (i : Nat) (turns : List Turn)
  | flush (i : Nat) (pushed : Bool) (tierBytes : Nat)
  | restore (i : Nat)
  | store (i : Nat) (freeUnchecked freeChecked : Nat → Bool)
  | react (i : Nat) (stop moved : Bool)
  | giveBack (i fp : Nat)
  | finish (stop : Bool)
  | evict (f n : Nat) (top : Option Nat) (tierBytes : Nat)
  | defer (k : Nat) (top : Option Nat) (tierBytes : Nat)
  | serve (wantChecked : Bool) (f : Nat)
  | add (packet : Packet P) (freeUnchecked freeChecked : Nat → Bool)

/-! ## The parts of a step -/

/-- A thread that has just been created. -/
def ExpandWorker.create {P : Puzzle} (max blockCap : Nat) : ExpandWorker P where
  stage := .entering
  isHold := false
  holding := false
  max := max
  blockCap := blockCap
  fresh := []
  freshHold := []
  freshPublished := 0
  drawn := []
  batch := []
  children := []
  inserted := 0
  block := []
  unstored := []

/-- A thread begins to insert a packet. -/
def ExpandWorker.beginStore {P : Puzzle} (w : ExpandWorker P) (packet : Packet P) (next : StoreNext) : ExpandWorker P :=
  { w with stage := .storing packet ⟨false, .ok, false⟩ next }

/-- `add_possibility_waiting_for_room` after a refusal that nothing has made room for: it tries at once, or waits. -/
def ExpandWorker.keepTrying {P : Puzzle} (w : ExpandWorker P) (packet : Packet P) (status : AddStatus) (wait : RoomWait)
    (next : StoreNext) :
    ExpandWorker P :=
  if status = .refusedRamCap ∧ wait.retried = false then { w with stage := .storing packet { wait with retried := true } next }
  else
    let reason := if wait.waited = true ∧ (status = .refusedRamCap ∨ wait.reason = .ok) then status else wait.reason
    { w with stage := .storing packet ⟨true, reason, false⟩ next }

/-- A thread goes on after an insertion. -/
def ExpandWorker.goOn {P : Puzzle} (w : ExpandWorker P) : StoreNext → ExpandWorker P
  | .batch => { w with stage := .working }
  | .child => { w with stage := .developing, inserted := w.inserted + 1 }
  | .block pending => { w with stage := .restoring pending }

/-- The records of a source. -/
def SpillSource.records (source : SpillSource) : List (List Byte) :=
  (source.below.flatMap fun part => part.1 ++ part.2) ++ source.above

/-- Records go above the border, or on top of a segment under it. -/
def SpillSource.place (source : SpillSource) (top : Option Nat) (records : List (List Byte)) : Option SpillSource :=
  match top with
  | none => some { source with above := source.above ++ records }
  | some k =>
    if k < source.below.length then
      some { source with below := source.below.modify k fun part => (part.1, part.2 ++ records) }
    else none

namespace Expansion

variable {P : Puzzle} (s : Expansion P)

/-- A thread replaced. -/
def setWorker (i : Nat) (w : ExpandWorker P) : Expansion P := { s with workers := Function.update s.workers i w }

/-- `expand_work_sync` on the queue of the pass. -/
def workSync : Expansion P :=
  let now := workBytesOf s.work.file + workBytesOf s.work.hold
  { s with
    workBytes :=
      if now > s.work.published then s.workBytes + (now - s.work.published) else s.workBytes - (s.work.published - now)
    work := { s.work with published := now } }

/-- The stock with the bytes of the queues, as `put_to_pool` measures it. -/
def measured : LocalStock := { s.stock with otherBytes := s.stock.otherBytes + s.workBytes }

/-- `expand_take_batch` has nothing for the thread, which puts its block away. -/
def leave (i : Nat) (w : ExpandWorker P) : Expansion P := s.workSync.setWorker i { w with stage := .flushing none }

/-- The block of a thread is empty: a record that waits comes into it, or the thread is at its end. -/
def flushed (i : Nat) (w : ExpandWorker P) : Option (List Byte) → Expansion P
  | none => s.setWorker i { w with stage := .ended }
  | some record =>
    { s.setWorker i { w with stage := .developing, block := w.block ++ [record], inserted := w.inserted + 1 } with
      counts := { s.counts with produced := s.counts.produced + 1 } }

/-- The packet of a thread is stored, or given up: `expand_note_wait`, and what `expand_pass_insert` and its callers
count. -/
def stored (i : Nat) (w : ExpandWorker P) (wait : RoomWait) (next : StoreNext) (aborts : Bool) : Expansion P :=
  { s.setWorker i (w.goOn next) with
    flags := { s.flags with
      aborted := s.flags.aborted || aborts
      ramSlowed := s.flags.ramSlowed || (wait.reason = .refusedRamCap && s.diskRecourse)
      ramWait := s.flags.ramWait || (wait.reason = .refusedRamCap && !s.diskRecourse)
      busyWait := s.flags.busyWait || wait.reason = .refusedPoolLocked }
    counts :=
      match next with
      | .batch => { s.counts with produced := s.counts.produced + 1, reinjected := s.counts.reinjected + 1 }
      | .child => { s.counts with produced := s.counts.produced + 1 }
      | .block _ => s.counts }

end Expansion

/-! ## The steps -/

namespace Expansion

section Steps

variable {P : Puzzle} (ps : PieceSet P) (map : MapBigArray) (cfg : ExpandConfig) (s : Expansion P) (i : Nat) (w : ExpandWorker P)

/-- `expand_drain_unchecked_pool` at the start of a pass. -/
def drainStep (room : Nat) : Expansion P :=
  let drained := drainFiles P room s.stock.unchecked.files
  { s with
    phase := .drained (drained.2.any fun file => !file.isEmpty)
    stock := { s.stock with
      unchecked := { s.stock.unchecked with
        files := drained.2
        files_pos := by rw [length_drainFiles]; exact s.stock.unchecked.files_pos } }
    work := ⟨drained.1.foldl poolPut [], [], 0, 0⟩ }.workSync

/-- `begin` of the source: all that it holds is under the border. -/
def borderStep (cut : List (List (List Byte))) (stalled : Bool) : Option (Expansion P) :=
  if cfg.disk then
    if cut.flatten.isPerm s.source.records && cut.all fun part => !part.isEmpty then
      some { s with
        phase := .bordered stalled
        source := ⟨cut.map fun part => (part, []), [], 0⟩ }
    else none
  else some { s with phase := .bordered stalled }

/-- The start of the threads: the caller, and as many more as could be created. -/
def startStep (recourse : Bool) (threads : List (Nat × Nat)) (stalled : Bool) : Option (Expansion P) :=
  if 0 < threads.length ∧ threads.length ≤ max cfg.threads 1 ∧ ∀ t ∈ threads, t.1 = expandBatch ∨ t.1 = 1 then
    some { s with
      phase := .passing
      source := { s.source with prepassDeferred := 0 }
      nbWorkers := threads.length
      workers := fun i => let t := threads.getD i (0, 0); .create t.1 t.2
      busy := 0
      refilling := false
      diskPhase := cfg.disk
      diskLeft := false
      diskRecourse := cfg.disk && recourse
      flags := ⟨s.flags.capReached, false, false, false, false, false, stalled, false⟩
      counts := ⟨0, 0, 0, 0, 0, 0, 0, 0⟩ }
  else none

/-- A batch leaves the queue for the thread, which may read the next segment first. -/
def draw (isHold : Bool) (drawn : List (List Byte)) (work : ExpandWork) : Expansion P :=
  let low := cfg.threads * expandBatch * expandPrefetchBatchesPerThread
  let prefetch := cfg.threads > 1 && s.diskPhase && !s.refilling && !s.flags.capReached && !s.flags.ramWait &&
    work.file.length + work.hold.length < low
  let synced := { s with work }.workSync
  { synced.setWorker i { w with
      stage := if prefetch then .refilling true else .decoding
      isHold
      holding := true
      drawn } with
    busy := s.busy + 1
    refilling := s.refilling || prefetch
    workBytes := synced.workBytes + workBytesOf drawn }

/-- The loop of `expand_take_batch`. -/
def takeLoop : Expansion P :=
  if s.flags.aborted then s.leave i w
  else
    let hold := scrollRecords P (expandBatchSize s.work.hold.length cfg.threads w.max) s.work.hold
    if hold.1 ≠ [] then s.draw cfg i w true hold.1 { s.work with hold := hold.2 }
    else
      let file := scrollRecords P (expandBatchSize s.work.file.length cfg.threads w.max) s.work.file
      if file.1 ≠ [] then s.draw cfg i w false file.1 { s.work with file := file.2 }
      else if !s.diskPhase || s.flags.capReached then s.leave i w
      else if s.refilling then s.setWorker i { w with stage := .waiting s.wakes }
      else if s.flags.ramWait then
        -- A room of 0 asks whether something is left, and reads nothing.
        { s with diskLeft := !s.source.below.isEmpty, diskPhase := false }.leave i w
      else { s.setWorker i { w with stage := .refilling false } with refilling := true }

/-- `expand_take_batch`: the batch before is done. -/
def takeStep (spurious : Bool) : Option (Expansion P) :=
  match w.stage with
  | .entering =>
    if w.holding then
      some ({ s with busy := s.busy - 1, wakes := s.wakes + 1 }.takeLoop cfg i { w with holding := false })
    else some (s.takeLoop cfg i w)
  | .looping => some (s.takeLoop cfg i w)
  | .waiting since => if since < s.wakes ∨ spurious then some (s.takeLoop cfg i w) else none
  | _ => none

/-- `take` of the source in `expand_refill_from_disk`: what a reading that fails has delivered is undone. -/
def sourceStep (k room : Nat) (fails again : Bool) (tierBytes : Nat) : Option (Expansion P) :=
  match w.stage with
  | .refilling prefetch =>
    match s.source.below[k]? with
    | none =>
      if s.source.below = [] then some (s.setWorker i { w with stage := .publishing prefetch .nothing }) else none
    | some part =>
      let n := part.1.length + part.2.length
      if n > room then
        some (s.setWorker i { w with stage := if again && cfg.relief then .refilling prefetch else .publishing prefetch .noRoom })
      else if fails then some (s.setWorker i { w with stage := .publishing prefetch .failed })
      else
        let bytes := workBytesOf part.1 + workBytesOf part.2
        some { s.setWorker i { w with
            stage := .publishing prefetch (.taken n)
            fresh := part.1
            freshHold := part.2
            freshPublished := bytes } with
          source := { s.source with below := s.source.below.eraseIdx k }
          stock := { s.stock with otherBytes := tierBytes }
          workBytes := s.workBytes + bytes }
  | _ => none

/-- The end of `expand_refill_unlocked`, and what `expand_take_batch` makes of it. -/
def publishStep : Option (Expansion P) :=
  match w.stage with
  | .publishing prefetch r =>
    let published := { s with
      work := { s.work with file := s.work.file ++ w.fresh, hold := s.work.hold ++ w.freshHold }
      workBytes := s.workBytes - w.freshPublished
      refilling := false
      wakes := s.wakes + 1
      counts := { s.counts with fromDisk := s.counts.fromDisk + match r with | .taken n => n | _ => 0 } }.workSync
    let w := { w with fresh := [], freshHold := [], freshPublished := 0 }
    if prefetch then some (published.setWorker i { w with stage := .decoding })
    else
      match r with
      | .taken _ => some (published.setWorker i { w with stage := .looping })
      | r =>
        if r = .noRoom ∧ s.busy > 0 then some (published.setWorker i { w with stage := .waiting published.wakes })
        else some ({ published with diskPhase := false, diskLeft := decide (r ≠ SourceTake.nothing) }.leave i w)
  | _ => none

/-- The decoding of a batch: a record that is not one is lost. -/
def decodeStep : Option (Expansion P) :=
  match w.stage with
  | .decoding =>
    let lost := w.drawn.filter fun record => (recordPacket P record).isNone
    some { s.setWorker i { w with
        stage := .working
        drawn := []
        batch := decodeBatch P w.drawn } with
      workBytes := s.workBytes - workBytesOf lost }
  | _ => none

/-- The next packet of a batch: it goes back to the stock, or it is developed (`expand_pass_develop`). -/
def treatStep : Option (Expansion P) :=
  match w.stage with
  | .working =>
    match w.batch with
    | [] => some (s.setWorker i { w with stage := .entering })
    | (len, packet) :: rest =>
      if s.flags.aborted then
        some { s.setWorker i { w with stage := .entering, batch := [] } with
          workBytes := s.workBytes - (w.batch.map fun p => expandRecordBytes p.1).sum }
      else
        let shallow := decide (packet.alloc < cfg.targetLevel)
        let stores := ({ w with batch := rest } : ExpandWorker P).beginStore packet .batch
        if w.isHold then
          some { s.setWorker i stores with
            workBytes := s.workBytes - expandRecordBytes len
            flags := { s.flags with shallowProduced := s.flags.shallowProduced || shallow } }
        else if !shallow || s.flags.capReached || s.flags.ramWait then
          some { s.setWorker i stores with
            workBytes := s.workBytes - expandRecordBytes len
            flags := { s.flags with
              shallowDeferred := s.flags.shallowDeferred || (shallow && !s.flags.capReached) } }
        else
          let result := searchPossiblityLightPruned ps map [] packet 0
          some { s.setWorker i { w with stage := .developing, batch := rest, children := result.file.reverse, inserted := 0 } with
            workBytes := s.workBytes - expandRecordBytes len
            flags := { s.flags with expandedAny := true }
            counts := { s.counts with
              expanded := s.counts.expanded + 1
              pruned := s.counts.pruned + result.pruned }
            solution := result.solution }
  | _ => none

/-- `expand_proof_hook`, as far as a sequence of turns takes it. -/
def closes (turns : List Turn) (child : Packet P) : Option Bool :=
  if cfg.proof = true ∧ child.alloc.toNat < P.eternParts then
    (etiiExpandShortProof ps map cfg.singletonConflictCheck cfg.stopOnSolution turns child).map fun r => decide (r.1 ≠ 0)
  else some false

/-- The next child of `expand_pass_develop`, with `expand_block_add`. -/
def childStep (turns : List Turn) : Option (Expansion P) :=
  match w.stage with
  | .developing =>
    match w.children with
    | [] =>
      some { s.setWorker i { w with stage := .working } with
        flags := { s.flags with capReached := s.flags.capReached || decide (s.counts.produced ≥ cfg.maxStock) }
        counts := { s.counts with
          children := s.counts.children + w.inserted
          dead := s.counts.dead + if w.inserted = 0 then 1 else 0 } }
    | child :: rest =>
      if s.flags.aborted then some (s.setWorker i { w with children := [] })
      else
        match closes ps map cfg turns child with
        | none => none
        | some true =>
          some { s.setWorker i { w with children := rest } with counts := { s.counts with proved := s.counts.proved + 1 } }
        | some false =>
          let flags := { s.flags with
            shallowProduced := s.flags.shallowProduced || decide (child.alloc < cfg.targetLevel) }
          match if w.blockCap = 0 ∨ child.checked = 1 then none else recordOf child with
          | none => some { s.setWorker i (({ w with children := rest } : ExpandWorker P).beginStore child .child) with flags }
          | some record =>
            if w.block.flatten.length + record.length > w.blockCap then
              some { s.setWorker i { w with stage := .flushing (some record), children := rest } with flags }
            else
              some { s.setWorker i { w with
                  children := rest
                  block := w.block ++ [record]
                  inserted := w.inserted + 1 } with
                flags
                counts := { s.counts with produced := s.counts.produced + 1 } }
  | _ => none

/-- `expand_block_flush` up to the answer of the tier. -/
def flushStep (pushed : Bool) (tierBytes : Nat) : Option (Expansion P) :=
  match w.stage with
  | .flushing pending =>
    if w.block = [] ∨ s.flags.aborted = true then some (s.flushed i { w with block := [] } pending)
    else if pushed then
      some ({ s with
        source := { s.source with above := s.source.above ++ w.block }
        stock := { s.stock with otherBytes := tierBytes } }.flushed i { w with block := [] } pending)
    else some (s.setWorker i { w with stage := .restoring pending, block := [], unstored := w.block })
  | _ => none

/-- The next record of a block that was refused; one that does not decode ends the block. -/
def restoreStep : Option (Expansion P) :=
  match w.stage with
  | .restoring pending =>
    match w.unstored with
    | [] => some (s.flushed i w pending)
    | record :: rest =>
      if s.flags.aborted then some (s.flushed i { w with unstored := [] } pending)
      else
        match recordPacket P record with
        | none => some (s.flushed i { w with unstored := [] } pending)
        | some packet =>
          some (s.setWorker i (({ w with unstored := rest } : ExpandWorker P).beginStore packet (.block pending)))
  | _ => none

/-- An attempt of `add_possibility_waiting_for_room`. -/
def storeStep (freeUnchecked freeChecked : Nat → Bool) : Option (Expansion P) :=
  match w.stage with
  | .storing packet wait next =>
    let put := putToLocal s.measured [packet] freeUnchecked freeChecked
    let left := { s with stock := { put.1 with otherBytes := s.stock.otherBytes } }
    if put.2 = .ok then some (left.stored i w wait next false)
    else some (left.setWorker i { w with stage := .refused packet put.2 wait next })
  | _ => none

/-- `expand_return_work_to_pool`: packets go from the end of the queue to a file of the pool. -/
def returnWork (fp : Nat) : Expansion P :=
  let scrolled := scrollLoop P datamanagerRamReliefBlock s.work.file
  { s with
    stock := { s.stock with
      unchecked := { s.stock.unchecked with
        files := s.stock.unchecked.files.modify (fp % s.stock.unchecked.files.length) fun file => scrolled.1.foldl poolPut file
        files_pos := by rw [List.length_modify]; exact s.stock.unchecked.files_pos } }
    work := { s.work with file := scrolled.2, returned := s.work.returned + scrolled.1.length } }.workSync

/-- What `add_possibility_waiting_for_room` does after a refusal, and whether the pools are empty then. -/
def reactStep (stop moved : Bool) : Option (Expansion P) :=
  match w.stage with
  | .refused packet status wait next =>
    if stop then some (s.stored i w wait next true)
    else if status = .refusedRamCap ∧ cfg.relief = true ∧ moved = true then
      some (s.setWorker i { w with stage := .storing packet { wait with retried := false } next })
    else if status = .refusedRamCap ∧ s.stock.records = [] then
      some (s.setWorker i { w with stage := .returning packet status wait next })
    else some (s.setWorker i (w.keepTrying packet status wait next))
  | _ => none

/-- The call of `expand_return_work_to_pool`. -/
def giveBackStep (fp : Nat) : Option (Expansion P) :=
  match w.stage with
  | .returning packet status wait next =>
    let w :=
      if (scrollLoop P datamanagerRamReliefBlock s.work.file).1 = [] then w.keepTrying packet status wait next
      else { w with stage := .storing packet { wait with retried := false } next }
    some ((s.returnWork fp).setWorker i w)
  | _ => none

/-- The end of a pass, and whether there is another. -/
def finishStep (stop : Bool) : Option (Expansion P) :=
  if ∀ i < s.nbWorkers, (s.workers i).stage matches .ended then
    let capReached := s.flags.capReached
    let left := s.diskLeft && !capReached
    let deferred := s.flags.shallowDeferred || left || decide (s.source.prepassDeferred > 0) || decide (s.work.returned > 0)
    let waits := s.flags.ramWait && !capReached && !s.flags.aborted && decide (s.rounds + 1 < cfg.maxLevels)
    let aborted := s.flags.aborted || (waits && stop)
    let slowed := s.flags.ramWait || s.flags.ramSlowed || left || decide (s.work.returned > 0) ||
      decide (s.source.prepassDeferred > 0)
    let uncounts := slowed && s.flags.expandedAny && !capReached && !aborted
    let rounds := s.rounds + if !uncounts && (s.flags.expandedAny || deferred) then 1 else 0
    let byItself := !s.flags.shallowProduced && !deferred
    let work := if s.flags.aborted then { s.work with file := [], hold := [] } else s.work
    some { ({ s with work } : Expansion P).workSync with
      phase :=
        if byItself then .stopped true
        else if rounds < cfg.maxLevels ∧ capReached = false ∧ aborted = false then .between
        else .stopped false
      rounds
      uncounted := s.uncounted + if uncounts then 1 else 0
      flags := { s.flags with aborted }
      nbWorkers := 0
      source := { s.source with below := [], above := s.source.records } }
  else none

/-- The head of a list goes to the tier or the disk. -/
def evictStep (f n : Nat) (top : Option Nat) (tierBytes : Nat) : Option (Expansion P) :=
  let file := s.stock.unchecked.files.getD f []
  (s.source.place top (file.take n)).map fun source =>
    { s with
      source
      stock := { s.stock with
        otherBytes := tierBytes
        unchecked := { s.stock.unchecked with
          files := s.stock.unchecked.files.set f (file.drop n)
          files_pos := by rw [List.length_set]; exact s.stock.unchecked.files_pos } } }

/-- What was under the border goes above it, to make room. -/
def deferStep (k : Nat) (top : Option Nat) (tierBytes : Nat) : Option (Expansion P) :=
  match s.source.below[k]? with
  | none => none
  | some part =>
    (({ s.source with below := s.source.below.eraseIdx k } : SpillSource).place top (part.1 ++ part.2)).map fun source =>
      { s with
        source := { source with prepassDeferred := source.prepassDeferred + (part.1 ++ part.2).length }
        stock := { s.stock with otherBytes := tierBytes } }

/-- A packet is taken from the end of a file. -/
def serveStep (wantChecked : Bool) (f : Nat) : Expansion P :=
  let scrolled := s.stock.scrollAt P wantChecked f 1
  { s with stock := scrolled.2, served := s.served ++ scrolled.1 }

/-- A packet is added. -/
def addStep (packet : Packet P) (freeUnchecked freeChecked : Nat → Bool) : Expansion P :=
  let put := putToLocal s.measured [packet] freeUnchecked freeChecked
  { s with
    stock := { put.1 with otherBytes := s.stock.otherBytes }
    added := s.added ++ if put.2 = .ok then [packet] else [] }

/-- A step of a thread of the pass. -/
def workerStep : ExpandLabel P → Option (Expansion P)
  | .take _ spurious => s.takeStep cfg i w spurious
  | .source _ k room fails again tierBytes => s.sourceStep cfg i w k room fails again tierBytes
  | .publish _ => s.publishStep i w
  | .decode _ => s.decodeStep i w
  | .treat _ => s.treatStep ps map cfg i w
  | .child _ turns => s.childStep ps map cfg i w turns
  | .flush _ pushed tierBytes => s.flushStep i w pushed tierBytes
  | .restore _ => s.restoreStep i w
  | .store _ freeUnchecked freeChecked => s.storeStep i w freeUnchecked freeChecked
  | .react _ stop moved => s.reactStep cfg i w stop moved
  | .giveBack _ fp => s.giveBackStep i w fp
  | _ => none

end Steps

end Expansion

/-- The thread that a step is of. -/
def ExpandLabel.thread {P : Puzzle} : ExpandLabel P → Option Nat
  | .take i _ | .source i _ _ _ _ _ | .publish i | .decode i | .treat i | .child i _ | .flush i _ _ | .restore i | .store i _ _
  | .react i _ _ | .giveBack i _ => some i
  | _ => none

namespace Expansion

variable {P : Puzzle} (ps : PieceSet P) (map : MapBigArray) (cfg : ExpandConfig)

/-- A step of the threads of the pass, of its caller, or of the others; none is left when a complete board has been found. -/
def step (s : Expansion P) (label : ExpandLabel P) : Option (Expansion P) :=
  if s.solution.isSome then none
  else
    match label.thread with
    | some i =>
      match s.phase with
      | .passing => if i < s.nbWorkers then s.workerStep ps map cfg i (s.workers i) label else none
      | _ => none
    | none =>
      match label, s.phase with
      | .drain room, .between => if s.rounds < cfg.maxLevels then some (s.drainStep room) else none
      | .border cut, .drained stalled => s.borderStep cfg cut stalled
      | .start recourse threads, .bordered stalled => s.startStep cfg recourse threads stalled
      | .finish stop, .passing => s.finishStep cfg stop
      | .evict f n top tierBytes, _ => s.evictStep f n top tierBytes
      | .defer k top tierBytes, _ => s.deferStep k top tierBytes
      | .serve wantChecked f, _ => some (s.serveStep wantChecked f)
      | .add packet freeUnchecked freeChecked, _ => some (s.addStep packet freeUnchecked freeChecked)
      | _, _ => none

end Expansion
