-- SUMMARY: What each step of a thread of an expansion pass does to the stock, the queue, the locks and the levels.
import EternityII.Expand.Ledger

/-!
# The steps of a thread

Whatever a thread does, the records and packets that it takes from one place are in another, what they weigh is
counted in the bytes of the expansion, and a thread that waits will be woken. A packet below the target level that
goes back to the stock raises a flag.
-/

/-! ## The stages -/

section Stages

variable {P : Puzzle}

/-- The thread is over its batch when the packet is stored. -/
@[simp] def StoreNext.Treats : StoreNext → Prop
  | .block pending => pending.isSome
  | _ => True

/-- The thread is over the children of a packet when the packet is stored. -/
@[simp] def StoreNext.Develops : StoreNext → Prop
  | .batch => False
  | .child => True
  | .block pending => pending.isSome

/-- The thread is over a block that was refused. -/
@[simp] def StoreNext.Restores : StoreNext → Prop
  | .block _ => True
  | _ => False

namespace ExpandStage

/-- The thread waits in the loop of `expand_take_batch`. -/
@[simp] def Waits : ExpandStage P → Prop
  | .waiting _ => True
  | _ => False

/-- The thread reads the source. -/
@[simp] def Reads : ExpandStage P → Prop
  | .refilling _ | .publishing _ _ => True
  | _ => False

/-- The thread reads the source because the queue is empty. -/
@[simp] def Refills : ExpandStage P → Prop
  | .refilling prefetch | .publishing prefetch _ => prefetch = false
  | _ => False

/-- The thread has found nothing in the source. -/
@[simp] def Exhausts : ExpandStage P → Prop
  | .publishing _ .nothing => True
  | _ => False

/-- The thread has records of the source. -/
@[simp] def Publishes : ExpandStage P → Prop
  | .publishing _ (.taken _) => True
  | _ => False

/-- The thread has a batch that is not decoded. -/
@[simp] def Draws : ExpandStage P → Prop
  | .refilling prefetch | .publishing prefetch _ => prefetch = true
  | .decoding => True
  | _ => False

/-- The thread is over its batch. -/
@[simp] def Treats : ExpandStage P → Prop
  | .working | .developing => True
  | .flushing pending | .restoring pending => pending.isSome
  | .storing _ _ next | .refused _ _ _ next | .returning _ _ _ next => next.Treats
  | _ => False

/-- The thread is over the children of a packet. -/
@[simp] def Develops : ExpandStage P → Prop
  | .developing => True
  | .flushing pending | .restoring pending => pending.isSome
  | .storing _ _ next | .refused _ _ _ next | .returning _ _ _ next => next.Develops
  | _ => False

/-- The thread is over a block that was refused. -/
@[simp] def Restores : ExpandStage P → Prop
  | .restoring _ => True
  | .storing _ _ next | .refused _ _ _ next | .returning _ _ _ next => next.Restores
  | _ => False

/-- The block of the thread is empty. -/
@[simp] def Empties : ExpandStage P → Prop
  | .restoring _ | .ended => True
  | .storing _ _ next | .refused _ _ _ next | .returning _ _ _ next => next.Restores
  | _ => False

/-- The thread takes no more batches. -/
@[simp] def Leaves : ExpandStage P → Prop
  | .flushing pending | .restoring pending => ¬ pending.isSome
  | .storing _ _ next | .refused _ _ _ next | .returning _ _ _ next => ¬ next.Treats
  | .ended => True
  | _ => False

/-- The thread may count as busy. -/
@[simp] def Holds : ExpandStage P → Prop
  | .entering => True
  | stage => stage.Draws ∨ stage.Treats

/-- From a stage a thread comes to another that waits for nobody and reads, and takes batches, as before. -/
structure Follows (stage stage' : ExpandStage P) : Prop where
  reads : stage'.Reads ↔ stage.Reads
  waits : ¬ stage'.Waits
  refills : stage'.Refills → stage.Refills
  exhausts : stage'.Exhausts → stage.Exhausts
  leaves : stage'.Leaves → stage.Leaves

instance (stage : ExpandStage P) : Decidable stage.Reads := by
  cases stage <;> unfold Reads <;> infer_instance

end ExpandStage

namespace ExpandWorker

/-- The bytes that are counted for a thread. -/
def bytes (w : ExpandWorker P) : Nat :=
  w.freshPublished + workBytesOf w.drawn + (w.batch.map fun p => expandRecordBytes p.1).sum

/-- What the thread adds to `busy`. -/
def held (w : ExpandWorker P) : Nat := if w.holding then 1 else 0

/-- What the thread adds to the number of readings. -/
def reading (w : ExpandWorker P) : Nat := if w.stage.Reads then 1 else 0

/-- What a thread has at a place in the code is what the place is about. -/
structure FitsAt (w : ExpandWorker P) (stage : ExpandStage P) : Prop where
  fresh : ¬ stage.Publishes → w.fresh = [] ∧ w.freshHold = []
  drawn : ¬ stage.Draws → w.drawn = []
  batch : ¬ stage.Treats → w.batch = []
  children : ¬ stage.Develops → w.children = []
  unstored : ¬ stage.Restores → w.unstored = []
  block : stage.Empties → w.block = []
  holding : w.holding = true → stage.Holds
  published : w.freshPublished = workBytesOf w.fresh + workBytesOf w.freshHold
  max : 0 < w.max

abbrev Fits (w : ExpandWorker P) : Prop := w.FitsAt w.stage

/-- A thread has no batch, and may have a block. -/
structure Free (w : ExpandWorker P) : Prop where
  fresh : w.fresh = [] ∧ w.freshHold = []
  drawn : w.drawn = []
  batch : w.batch = []
  children : w.children = []
  unstored : w.unstored = []
  holding : w.holding = false
  published : w.freshPublished = 0
  max : 0 < w.max
  pending : w.stage.pending = none
  packet : w.stage.packet = none
  reads : ¬ w.stage.Reads

end ExpandWorker

theorem ExpandStage.Follows.reading {w w' : ExpandWorker P} (h : w.stage.Follows w'.stage) : w'.reading = w.reading := by
  unfold ExpandWorker.reading
  simp only [h.reads]

end Stages

/-! ## The levels -/

section Levels

variable {P : Puzzle} (cfg : ExpandConfig)

/-- What is read from a record is at the target level. -/
def DeepRecord (P : Puzzle) (record : List Byte) : Prop := ∀ p : Packet P, recordPacket P record = some p → ¬ p.alloc < cfg.targetLevel

theorem deepRecord_of_good {ps : PieceSet P} {cfg : ExpandConfig} {p : Packet P} {record : List Byte} (hp : p.Good ps)
    (hrecord : recordOf p = some record) (hdeep : ¬ p.alloc < cfg.targetLevel) : DeepRecord cfg P record := by
  intro q hq
  obtain ⟨record', hrecord', -, ⟨q', hread, halloc⟩, -⟩ := hp.wellFormed.exists_record
  obtain rfl := Option.some.inj (hrecord'.symm.trans hrecord)
  obtain rfl := Option.some.inj (hread.symm.trans hq)
  have hsame : q'.alloc = p.alloc := UInt16.toNat_inj.mp (halloc.trans hp.alloc.symm)
  rwa [hsame]

/-- What a thread puts into the stock is at the target level. -/
structure ExpandWorker.Deep (w : ExpandWorker P) : Prop where
  records : ∀ r ∈ w.block ++ w.unstored ++ w.stage.pending.toList, DeepRecord cfg P r
  packet : ∀ p ∈ w.stage.packet.toList, ¬ p.alloc < cfg.targetLevel

/-- A block and the records behind it stay as they are, and no packet is on its way. -/
theorem ExpandWorker.Deep.of_records {cfg : ExpandConfig} {w w' : ExpandWorker P} (h : w.Deep cfg)
    (hrecords : ∀ r ∈ w'.block ++ w'.unstored ++ w'.stage.pending.toList, r ∈ w.block ++ w.unstored ++ w.stage.pending.toList)
    (hpacket : w'.stage.packet = none) : w'.Deep cfg where
  records r hr := h.records r (hrecords r hr)
  packet p hp := by
    rw [hpacket] at hp
    exact absurd hp List.not_mem_nil

theorem ExpandWorker.Deep.of_stage {cfg : ExpandConfig} {w w' : ExpandWorker P} (h : w.Deep cfg) (hblock : w'.block = w.block)
    (hunstored : w'.unstored = w.unstored) (hpending : w'.stage.pending = none) (hpacket : w'.stage.packet = none) : w'.Deep cfg := by
  refine h.of_records (fun r hr => ?_) hpacket
  rw [hblock, hunstored, hpending, Option.toList_none, List.append_nil] at hr
  exact List.mem_append_left _ hr

/-- Outside the queue, what is not under the border is at the target level; without a disk the source counts for nothing. -/
structure Expansion.Risen (s : Expansion P) : Prop where
  lists : ∀ r ∈ s.stock.unchecked.files.flatten, DeepRecord cfg P r
  source : cfg.disk = true → ∀ r ∈ s.source.below.flatMap Prod.snd ++ s.source.above, DeepRecord cfg P r

/-- No flag says that a packet has been put back below the target level. -/
structure ExpandFlags.Low (flags : ExpandFlags) : Prop where
  aborted : flags.aborted = false
  capReached : flags.capReached = false
  shallowDeferred : flags.shallowDeferred = false
  shallowProduced : flags.shallowProduced = false

/-- Nothing has been put back below the target level, or put off. -/
structure Expansion.Quiet (s : Expansion P) : Prop where
  flags : s.flags.Low
  returned : s.work.returned = 0
  prepassDeferred : s.source.prepassDeferred = 0

/-- No flag is taken back. -/
structure ExpandFlags.Raises (flags flags' : ExpandFlags) : Prop where
  aborted : flags.aborted = true → flags'.aborted = true
  capReached : flags.capReached = true → flags'.capReached = true
  shallowDeferred : flags.shallowDeferred = true → flags'.shallowDeferred = true
  shallowProduced : flags.shallowProduced = true → flags'.shallowProduced = true

theorem ExpandFlags.Raises.refl (flags : ExpandFlags) : flags.Raises flags := ⟨id, id, id, id⟩

/-- No flag has been taken back since nothing was put back below the level. -/
theorem ExpandFlags.Raises.low {flags flags' : ExpandFlags} (h : flags.Raises flags') (hlow : flags'.Low) : flags.Low := by
  have hfalse : ∀ {a b : Bool}, (a = true → b = true) → b = false → a = false := fun h hb =>
    Bool.eq_false_iff.mpr fun ha => Bool.false_ne_true (hb.symm.trans (h ha))
  exact ⟨hfalse h.aborted hlow.aborted, hfalse h.capReached hlow.capReached, hfalse h.shallowDeferred hlow.shallowDeferred,
    hfalse h.shallowProduced hlow.shallowProduced⟩

end Levels

/-! ## What a thread does -/

section Threads

variable {P : Puzzle} (ps : PieceSet P) (cfg : ExpandConfig)

/-- What a thread of a pass finds: good packets, its own variables as its place in the code has them, the bytes
of the queue counted, the queue empty when it reads the source for that, and nothing under the border when it has
found nothing. -/
structure Ready (s : Expansion P) (w : ExpandWorker P) : Prop where
  records : ∀ r ∈ s.records, GoodRecord ps r
  worker : w.Good ps
  fits : w.Fits
  synced : s.work.published = workBytesOf s.work.file + workBytesOf s.work.hold
  empty : w.stage.Refills → s.work.file = [] ∧ s.work.hold = []
  nothing : w.stage.Exhausts → s.source.below = []

/-- What a step of a thread keeps: the packets, the bytes, the threads that count as busy or read, that a thread that
waits will be woken, that the queue is left to nobody only when it is empty, and the levels. -/
structure ThreadStep (s s' : Expansion P) (i : Nat) (w w' : ExpandWorker P) : Prop where
  nbWorkers : s'.nbWorkers = s.nbWorkers := by rfl
  workers : s'.workers = Function.update s.workers i w' := by rfl
  phase : s'.phase = s.phase := by rfl
  added : s'.added = s.added := by rfl
  carries : Carries ps s s' w w'
  flags : s.flags.Raises s'.flags := by exact .refl _
  synced : s'.work.published = workBytesOf s'.work.file + workBytesOf s'.work.hold := by rfl
  fits : w'.Fits
  bytes : s.work.published + w.bytes ≤ s.workBytes →
    s'.workBytes + (s.work.published + w.bytes) = s.workBytes + (s'.work.published + w'.bytes)
  busy : w.held ≤ s.busy → s'.busy + w.held = s.busy + w'.held := by exact fun _ => rfl
  refilling : w.reading ≤ s.refilling.toNat → s'.refilling.toNat + w.reading = s.refilling.toNat + w'.reading
  wakes : s.wakes ≤ s'.wakes ∧ (s'.busy < s.busy ∨ s'.refilling.toNat < s.refilling.toNat → s.wakes < s'.wakes) := by
    exact ⟨Nat.le_refl _, fun h => h.elim (absurd · (Nat.lt_irrefl _)) (absurd · (Nat.lt_irrefl _))⟩
  waits : ∀ since, w'.stage = .waiting since → since ≤ s'.wakes ∧ (s'.refilling = true ∨ 0 < s'.busy) := by
    exact fun since h => by cases h
  queue : s'.work.file ≠ [] ∨ s'.work.hold ≠ [] →
    (s.work.file ≠ [] ∨ s.work.hold ≠ []) ∨ (w.stage.Reads ∧ ¬ w'.stage.Leaves) := by exact .inl
  empty : w'.stage.Refills → s'.work.file = [] ∧ s'.work.hold = [] := by exact False.elim
  nothing : w'.stage.Exhausts → s'.source.below = [] := by exact False.elim
  leaves : w'.stage.Leaves → w.stage.Leaves ∨ s'.flags.aborted = true ∨
    (s'.work.file = [] ∧ s'.work.hold = [] ∧ (s'.flags.capReached = true ∨ s'.diskPhase = false))
  below : s'.source.below ≠ [] → s.source.below ≠ [] := by exact id
  nonempty : (∀ part ∈ s.source.below, part.1 ≠ []) → ∀ part ∈ s'.source.below, part.1 ≠ [] := by exact id
  diskPhase : s'.diskPhase = true → s.diskPhase = true := by exact id
  diskLeft : s'.diskPhase = false →
    (s.diskPhase = false ∧ s'.diskLeft = s.diskLeft) ∨ s'.diskLeft = true ∨ s'.source.below = [] := by
    exact fun h => .inl ⟨h, rfl⟩
  returned : s.work.returned ≤ s'.work.returned := by exact Nat.le_refl _
  prepassDeferred : s'.source.prepassDeferred = s.source.prepassDeferred := by rfl
  levels : s'.Quiet → w.Deep cfg → s.Risen cfg → w'.Deep cfg ∧ s'.Risen cfg

/-- What is asked of the others: the locks of an insertion are not found free at its very last attempt, and a packet
that another thread adds is good. -/
def Expansion.Allowed (s : Expansion P) : ExpandLabel P → Prop
  | .store _ freeUnchecked freeChecked =>
    NotLast (trylockMaxSweeps * s.stock.unchecked.files.length) freeUnchecked ∧
      NotLast (trylockMaxSweeps * s.stock.checked.files.length) freeChecked
  | .add packet freeUnchecked freeChecked =>
    packet.Good ps ∧ NotLast (trylockMaxSweeps * s.stock.unchecked.files.length) freeUnchecked ∧
      NotLast (trylockMaxSweeps * s.stock.checked.files.length) freeChecked
  | _ => True

end Threads
