-- SUMMARY: The threads of a direct import: blocks are handed to workers in rings, which link them to the tier.
import EternityII.Base.Dispatch
import EternityII.Base.RingBuffer
import EternityII.Spill.StackOrder
import Mathlib.Algebra.Order.BigOperators.Group.Finset
import Mathlib.Algebra.Order.BigOperators.Group.List

/-!
# The workers of an import

A direct import hands each block to the worker of its file. The block is copied into a slot of the
worker's ring, without the lock; the worker compresses it and links it to the tier. The room that a
block may need is reserved before. When there is none, the importer sends blocks to disk or waits for
those under way, and at the end it waits for all. The other threads move blocks all the time.
-/

/-! ## The state -/

/-- `IMPORT_WORKERS_MAX`. -/
def importWorkersMax : Nat := 16

/-- `IMPORT_QUEUE_DEPTH`. -/
def importQueueDepth : Nat := 8

/-- `stock_tier_block_cost_bound`. -/
def stockTierBlockCostBound (rawBytes : Nat) : Nat := 40 + rawBytes + 16

/-- `import_job_t`, with the stack of its pool and file. -/
structure ImportJob where
  id : StackId
  reserved : Nat
  raw : List Byte

/-- A worker waits, holds the slot at the head, has put its block into the lists and not given the
reservation back, has a slot to give back, or is at its end. -/
inductive WorkerStage where
  | waiting | holding | listed | settled | ended
  deriving DecidableEq

/-- `import_worker_t`. -/
structure ImportWorker where
  ring : RingBuffer ImportJob
  stop : Bool
  stage : WorkerStage

/-- The importer: between two calls; in `tier_hook_import_push` at the head of the loop, with `inflight`
read, with no room, after a try of the disk that moved nothing, in `import_wait_inflight`, where it refuses
the block and where it takes it; in `import_enqueue` before the reservation, with it, with a slot, and with
the block in the slot; and in the two loops of `tier_hook_import_finish`. -/
inductive Importer where
  | idle
  | looking (job : ImportJob)
  | seen (job : ImportJob) (inflight : Nat)
  | full (job : ImportJob) (inflight occupied : Nat)
  | missed (job : ImportJob) (inflight occupied : Nat)
  | waiting (job : ImportJob) (start : Nat)
  | refusing (job : ImportJob)
  | placed (job : ImportJob)
  | direct (job : ImportJob)
  | enqueuing (job : ImportJob)
  | queued (job : ImportJob)
  | writing (job : ImportJob) (slot : Nat)
  | written (job : ImportJob) (slot : Nat)
  | stopping (i : Nat)
  | joining (i : Nat)

/-- What became of a block: it is linked, its records go to the lists, those that `put` stored, or they are
lost. -/
inductive ImportFate where
  | linked
  | listed (stored : List Bool)
  | lost
  deriving DecidableEq

/-- The records of a block that have come to the stock. -/
def ImportFate.kept (fate : ImportFate) (records : List (List Byte)) : List (List Byte) :=
  match fate with
  | .linked => records
  | .listed stored => ((records.zip stored).filter Prod.snd).map Prod.fst
  | .lost => []

/-- The stock, the workers, `g_import_inflight` and the importer; and the blocks that were taken and those
that were dealt with, in their order. -/
structure ImportSystem where
  store : TieredStore
  nbWorkers : Nat
  workers : Nat → ImportWorker
  inflight : Nat
  importer : Importer
  given : List ImportJob
  settled : List (ImportJob × ImportFate)

/-- What the threads can do. The environment says whether a try of the disk moved anything, how many workers
start, whether a block is allocated, and otherwise, if there is a buffer, to which files its packets go; there is
no file for a packet whose node cannot be allocated. -/
inductive ImportLabel where
  | push (id : StackId) (raw : List Byte)
  | go
  | tried (moved : Bool)
  | start (started : Nat)
  | linkHere (built : Bool)
  | scribble (job : ImportJob)
  | finish
  | work (i : Nat)
  | settle (i : Nat) (built : Bool) (files : Option (Nat → Option Nat))
  | others (call : TierCall)

/-! ## The steps -/

/-- `tier_link_locked`. -/
def TieredStore.link (s : TieredStore) (id : StackId) (fr : { fr : StoredFrame // fr.Valid }) : TieredStore where
  store := s.store.link id fr
  count := s.count.link id fr

/-- `datamanager_resident_bytes`; no expansion is under way. -/
def TieredStore.residentBytes (s : TieredStore) : Nat :=
  s.poolResidentBytes false + s.poolResidentBytes true + s.count.ramTierBytes

section Steps

variable (P : Puzzle) (tier : TierCodec) (cap : Nat) (spillEnabled tierActive : Bool)

/-- A turn of `datamanager_pool_refill`: the packet goes to the first file that can be locked, and what
`pool_put` returns is ignored. -/
def Store.refillOne (c : Bool) (files : Nat → Option Nat) (store : Store) (p : Packet P × Nat) : Store :=
  match files p.2 with
  | none => store
  | some file => store.insert c (file % store.spill.nbFiles) p.1

/-- `datamanager_pool_refill`. -/
def TieredStore.refill (s : TieredStore) (c : Bool) (packets : List (Packet P)) (files : Nat → Option Nat) : TieredStore :=
  { s with store := packets.zipIdx.foldl (Store.refillOne P c files) s.store }

/-- `import_build_and_link` before it gives the reservation back: the stock, and what became of the block. -/
def settleBlock (s : TieredStore) (job : ImportJob) (built : Bool) (files : Option (Nat → Option Nat)) :
    TieredStore × ImportFate :=
  match if built then stockTierBlockBuild P tier job.raw else none with
  | some fr => (s.link job.id fr, .linked)
  | none =>
    match files, tierDecodeBlock P job.raw ((stockTierCountRecords P job.raw).getD 0) with
    | some files, some packets =>
      (s.refill P job.id.1 packets files, .listed (packets.zipIdx.map fun p => (files p.2).isSome))
    | _, _ => (s, .lost)

namespace ImportSystem

variable (s : ImportSystem)

/-- A worker replaced. -/
def setWorker (i : Nat) (w : ImportWorker) : ImportSystem := { s with workers := Function.update s.workers i w }

/-- The worker of a file: `file_index % g_import_nb_workers`. -/
def owner (id : StackId) : Nat := id.2 % s.nbWorkers

/-- `import_workers_start`, when so many could be started. -/
def startWorkers (started : Nat) : ImportSystem :=
  { s with
    nbWorkers := started
    workers := fun _ => ⟨⟨fun _ => ⟨(false, 0), 0, []⟩, 0, 0⟩, false, .waiting⟩ }

/-- The steps of the importer that depend on the state only. -/
def goStep : Importer → Option ImportSystem
  | .looking job => some { s with importer := .seen job s.inflight }
  | .seen job inflight =>
    let occupied := s.store.residentBytes + s.inflight
    some { s with
      importer := if occupied + job.reserved ≤ tierImportSoftLimit cap then .placed job else .full job inflight occupied }
  | .missed job inflight occupied =>
    if inflight = 0 then
      some { s with importer := if spillEnabled = true ∧ occupied = 0 then .placed job else .refusing job }
    else some { s with importer := .waiting job s.inflight }
  | .waiting job start =>
    if s.inflight > 0 ∧ s.inflight = start then none else some { s with importer := .looking job }
  | .refusing _ => if s.inflight > 0 then none else some { s with importer := .idle }
  | .placed job => if s.nbWorkers = 0 then none else some { s with importer := .enqueuing job }
  | .enqueuing job =>
    some { s with
      inflight := s.inflight + job.reserved
      given := s.given ++ [job]
      importer := .queued job }
  | .queued job =>
    let ring := (s.workers (s.owner job.id)).ring
    if ring.count ≥ importQueueDepth then none
    else some { s with importer := .writing job ((ring.head + ring.count) % importQueueDepth) }
  | .writing job slot =>
    let w := s.workers (s.owner job.id)
    some { s.setWorker (s.owner job.id) { w with ring.cells := Function.update w.ring.cells slot job } with
      importer := .written job slot }
  | .written job _ =>
    let w := s.workers (s.owner job.id)
    some { s.setWorker (s.owner job.id) { w with ring.count := w.ring.count + 1 } with importer := .idle }
  | .stopping i =>
    if i < s.nbWorkers then
      some { s.setWorker i { s.workers i with stop := true } with importer := .stopping (i + 1) }
    else some { s with importer := .joining 0 }
  | .joining i =>
    if i < s.nbWorkers then
      if (s.workers i).stage = .ended then some { s with importer := .joining (i + 1) } else none
    else some { s with nbWorkers := 0, importer := .idle }
  | _ => none

/-- The start of `tier_hook_import_push`, up to its loop; a block that is not taken is the caller's. -/
def pushStep (id : StackId) (raw : List Byte) : ImportSystem :=
  if tierActive = false ∨ cap = 0 ∨ id.2 ≥ s.store.store.spill.nbFiles then s
  else
    match stockTierCountRecords P raw with
    | none => s
    | some _ => { s with importer := .looking ⟨id, stockTierBlockCostBound raw.length, raw⟩ }

/-- `tier_push_locked`, where no worker has been started. -/
def linkHereStep (job : ImportJob) (built : Bool) : ImportSystem :=
  match if built then stockTierBlockBuild P tier job.raw else none with
  | some fr =>
    { s with
      store := s.store.link job.id fr
      given := s.given ++ [job]
      settled := s.settled ++ [(job, .linked)]
      importer := .idle }
  | none => { s with importer := .idle }

/-- The steps of the importer. -/
def importerStep : Importer → ImportLabel → Option ImportSystem
  | .idle, .push id raw => some (s.pushStep P cap tierActive id raw)
  | .idle, .finish => some { s with importer := .stopping 0 }
  | .full job inflight occupied, .tried moved =>
    if moved then (if spillEnabled then some { s with importer := .looking job } else none)
    else some { s with importer := .missed job inflight occupied }
  | .placed job, .start started =>
    if s.nbWorkers = 0 ∧ started ≤ importWorkersMax then
      some { s.startWorkers started with importer := if started = 0 then .direct job else .enqueuing job }
    else none
  | .direct job, .linkHere built => some (s.linkHereStep P tier job built)
  | .writing job slot, .scribble other =>
    let w := s.workers (s.owner job.id)
    some (s.setWorker (s.owner job.id) { w with ring.cells := Function.update w.ring.cells slot other })
  | importer, .go => s.goStep cap spillEnabled importer
  | _, _ => none

/-- The steps of `import_worker_main` but the treatment of the block. -/
def workStep (i : Nat) : Option ImportSystem :=
  let w := s.workers i
  match w.stage with
  | .waiting =>
    if w.ring.count > 0 then some (s.setWorker i { w with stage := .holding })
    else if w.stop then some (s.setWorker i { w with stage := .ended })
    else none
  | .listed => some { s.setWorker i { w with stage := .settled } with inflight := s.inflight - w.ring.front.reserved }
  | .settled => some (s.setWorker i { w with ring := w.ring.pop importQueueDepth, stage := .waiting })
  | _ => none

/-- `import_build_and_link` in a worker: a block is linked and its reservation given back at once. -/
def settleStep (i : Nat) (built : Bool) (files : Option (Nat → Option Nat)) : Option ImportSystem :=
  let w := s.workers i
  if w.stage = .holding then
    let job := w.ring.front
    let r := settleBlock P tier s.store job built files
    let left := { s with store := r.1, settled := s.settled ++ [(job, r.2)] }
    if r.2 = .linked then
      some { left.setWorker i { w with stage := .settled } with inflight := s.inflight - job.reserved }
    else some (left.setWorker i { w with stage := .listed })
  else none

/-- A step of the threads. -/
def step (s : ImportSystem) : ImportLabel → Option ImportSystem
  | .work i => if i < s.nbWorkers then s.workStep i else none
  | .settle i built files => if i < s.nbWorkers then s.settleStep P tier i built files else none
  | .others call => some { s with store := s.store.call P tier call }
  | label => s.importerStep P tier cap spillEnabled tierActive s.importer label

end ImportSystem

end Steps

/-! ## The rings -/

/-- The jobs of a worker that are not dealt with. -/
def ImportWorker.unsettled (w : ImportWorker) : List ImportJob :=
  match w.stage with
  | .listed | .settled => (w.ring.toList importQueueDepth).tail
  | _ => w.ring.toList importQueueDepth

/-- The jobs of a worker whose reservations stand. -/
def ImportWorker.reserving (w : ImportWorker) : List ImportJob :=
  match w.stage with
  | .settled => (w.ring.toList importQueueDepth).tail
  | _ => w.ring.toList importQueueDepth

/-- A worker that has a job has a slot, and one that is at its end has none. -/
structure ImportWorker.Fits (w : ImportWorker) : Prop where
  head : w.ring.head < importQueueDepth
  count : w.ring.count ≤ importQueueDepth
  busy : w.stage = .holding ∨ w.stage = .listed ∨ w.stage = .settled → 0 < w.ring.count
  ended : w.stage = .ended → w.ring.count = 0 ∧ w.stop = true

namespace Importer

/-- The job that has its reservation and is not in a ring. -/
def inHand : Importer → Option ImportJob
  | .queued job | .writing job _ | .written job _ => some job
  | _ => none

/-- The importer is in `tier_hook_import_finish`. -/
def Finishes : Importer → Prop
  | .stopping _ | .joining _ => True
  | _ => False

/-- The slot that the importer writes is behind the last job of its worker, and what it has told the workers they know. -/
def Right (nbWorkers : Nat) (workers : Nat → ImportWorker) : Importer → Prop
  | .direct _ => nbWorkers = 0
  | .enqueuing _ | .queued _ => 0 < nbWorkers
  | .writing job slot =>
    let ring := (workers (job.id.2 % nbWorkers)).ring
    0 < nbWorkers ∧ ring.count < importQueueDepth ∧ slot = (ring.head + ring.count) % importQueueDepth
  | .written job slot =>
    let ring := (workers (job.id.2 % nbWorkers)).ring
    0 < nbWorkers ∧ ring.count < importQueueDepth ∧ slot = (ring.head + ring.count) % importQueueDepth ∧ ring.cells slot = job
  | .stopping k => ∀ i < k, (workers i).stop = true
  | .joining k => (∀ i < nbWorkers, (workers i).stop = true) ∧ ∀ i < k, i < nbWorkers → (workers i).stage = .ended
  | _ => True

end Importer

namespace ImportSystem

/-- The jobs that a worker has to deal with, and the one that comes to it. -/
def queue (s : ImportSystem) (i : Nat) : List ImportJob :=
  if i < s.nbWorkers then (s.workers i).unsettled ++ (s.importer.inHand.filter fun job => s.owner job.id = i).toList else []

/-- The jobs as they are dispatched. -/
def dispatch (s : ImportSystem) : Dispatch Nat ImportJob := ⟨s.queue, s.given, s.settled.map Prod.fst⟩

/-- The bytes that are reserved. -/
def reservedBytes (s : ImportSystem) : Nat :=
  ∑ i ∈ Finset.range s.nbWorkers, ((s.workers i).reserving.map ImportJob.reserved).sum +
    (s.importer.inHand.map ImportJob.reserved).getD 0

/-- What the rings, the reservations and the importer have to do with one another. -/
structure Rings (s : ImportSystem) : Prop where
  fits : ∀ i < s.nbWorkers, (s.workers i).Fits
  ordered : Dispatch.Ordered ImportJob.id s.owner s.dispatch
  inflight : s.inflight = s.reservedBytes
  importer : s.importer.Right s.nbWorkers s.workers
  running : ¬ s.importer.Finishes → ∀ i < s.nbWorkers, (s.workers i).stop = false

section Rings

variable {s s' : ImportSystem} {i : Nat} {w : ImportWorker} {importer : Importer} {job : ImportJob}

/-- The importer goes on with no job in hand, before and after. -/
theorem Rings.goOn (h : s.Rings) (hinHand : s.importer.inHand = none) (hinHand' : importer.inHand = none)
    (hright : importer.Right s.nbWorkers s.workers) (hfinishes : s.importer.Finishes → importer.Finishes) :
    Rings { s with importer } := by
  have hdispatch : dispatch { s with importer } = s.dispatch := by
    unfold dispatch queue
    rw [hinHand, hinHand']
    rfl
  refine ⟨h.fits, ?_, ?_, hright, fun hnot => h.running fun hfin => hnot (hfinishes hfin)⟩
  · rw [hdispatch]
    exact h.ordered
  · unfold reservedBytes
    rw [hinHand', ← hinHand]
    exact h.inflight

/-- What is right of a worker that changes and of the others is right of all. -/
theorem forall_update {p : ImportWorker → Prop} {f : Nat → ImportWorker} {n : Nat} (hw : i < n → p w)
    (hothers : ∀ j < n, j ≠ i → p (f j)) : ∀ j < n, p (Function.update f i w j) := by
  intro j hj
  by_cases heq : j = i
  · rw [heq, Function.update_self]
    exact hw (heq ▸ hj)
  · rw [Function.update_of_ne heq]
    exact hothers j hj heq

/-- What a worker keeps when it changes is as it was for all. -/
theorem update_same {β : Type} {f : Nat → ImportWorker} {g : ImportWorker → β} (h : g w = g (f i)) (j : Nat) :
    g (Function.update f i w j) = g (f j) := by
  by_cases heq : j = i
  · rw [heq, Function.update_self, h]
  · rw [Function.update_of_ne heq]

/-- A worker changes its stage, takes its oldest job out of those to deal with, or gives its reservation back. -/
structure WorkerChange (s s' : ImportSystem) (i : Nat) (w : ImportWorker) : Prop where
  lt : i < s.nbWorkers
  nbWorkers : s'.nbWorkers = s.nbWorkers
  workers : s'.workers = Function.update s.workers i w
  importer : s'.importer = s.importer
  given : s'.given = s.given
  fits : w.Fits
  stop : w.stop = (s.workers i).stop
  ended : (s.workers i).stage = .ended → w.stage = .ended
  cells : w.ring.cells = (s.workers i).ring.cells
  count : w.ring.count ≤ (s.workers i).ring.count
  next : (w.ring.head + w.ring.count) % importQueueDepth =
    ((s.workers i).ring.head + (s.workers i).ring.count) % importQueueDepth
  settles : (w.unsettled = (s.workers i).unsettled ∧ s'.settled = s.settled) ∨
    ∃ job fate, (s.workers i).unsettled = job :: w.unsettled ∧ s'.settled = s.settled ++ [(job, fate)]
  reserves : (w.reserving = (s.workers i).reserving ∧ s'.inflight = s.inflight) ∨
    ∃ job, (s.workers i).reserving = job :: w.reserving ∧ s'.inflight = s.inflight - job.reserved

theorem WorkerChange.right (h : WorkerChange s s' i w) (hright : s.importer.Right s.nbWorkers s.workers) :
    s'.importer.Right s'.nbWorkers s'.workers := by
  have hstop : ∀ j, (s'.workers j).stop = (s.workers j).stop := by
    rw [h.workers]
    exact update_same h.stop
  have hended : ∀ j, (s.workers j).stage = .ended → (s'.workers j).stage = .ended := by
    intro j hj
    rw [h.workers]
    by_cases heq : j = i
    · rw [heq, Function.update_self]
      exact h.ended (heq ▸ hj)
    · rwa [Function.update_of_ne heq]
  have hslot : ∀ j, (s'.workers j).ring.cells = (s.workers j).ring.cells ∧
      (s'.workers j).ring.count ≤ (s.workers j).ring.count ∧
      ((s'.workers j).ring.head + (s'.workers j).ring.count) % importQueueDepth =
        ((s.workers j).ring.head + (s.workers j).ring.count) % importQueueDepth := by
    intro j
    rw [h.workers]
    by_cases heq : j = i
    · rw [heq, Function.update_self]
      exact ⟨h.cells, h.count, h.next⟩
    · rw [Function.update_of_ne heq]
      exact ⟨rfl, Nat.le_refl _, rfl⟩
  rw [h.importer, h.nbWorkers]
  cases himporter : s.importer <;> rw [himporter] at hright <;> dsimp only [Importer.Right] at hright ⊢
  case direct job => exact hright
  case enqueuing job => exact hright
  case queued job => exact hright
  case writing job slot =>
    obtain ⟨hpos, hcount, hnext⟩ := hright
    obtain ⟨-, hle, hsame⟩ := hslot (job.id.2 % s.nbWorkers)
    exact ⟨hpos, Nat.lt_of_le_of_lt hle hcount, by rw [hnext, hsame]⟩
  case written job slot =>
    obtain ⟨hpos, hcount, hnext, hcell⟩ := hright
    obtain ⟨hcells, hle, hsame⟩ := hslot (job.id.2 % s.nbWorkers)
    exact ⟨hpos, Nat.lt_of_le_of_lt hle hcount, by rw [hnext, hsame], by rw [hcells, hcell]⟩
  case stopping k =>
    intro j hj
    rw [hstop, hright j hj]
  case joining k =>
    exact ⟨fun j hj => by rw [hstop, hright.1 j hj], fun j hj hlt => hended j (hright.2 j hj hlt)⟩

theorem Rings.change (hs : s.Rings) (h : WorkerChange s s' i w) : s'.Rings := by
  have howner : s'.owner = s.owner := by
    unfold owner
    rw [h.nbWorkers]
  have hqueue : s'.queue = Function.update s.queue i (w.unsettled ++
      (s.importer.inHand.filter fun job => s.owner job.id = i).toList) := by
    funext j
    unfold queue
    rw [h.nbWorkers, h.workers, h.importer, howner]
    by_cases heq : j = i
    · subst heq
      rw [Function.update_self, Function.update_self, if_pos h.lt]
    · rw [Function.update_of_ne heq, Function.update_of_ne heq]
  have hself : s.queue i = (s.workers i).unsettled ++ (s.importer.inHand.filter fun job => s.owner job.id = i).toList :=
    if_pos h.lt
  refine ⟨?_, ?_, ?_, h.right hs.importer, fun hnot => ?_⟩
  · rw [h.nbWorkers, h.workers]
    exact forall_update (fun _ => h.fits) fun j hj _ => hs.fits j hj
  · rw [howner]
    obtain ⟨hsame, hsettled⟩ | ⟨job, fate, hjob, hsettled⟩ := h.settles
    · have hdispatch : s'.dispatch = s.dispatch := by
        unfold dispatch
        rw [hqueue, h.given, hsettled, hsame, ← hself, Function.update_eq_self]
      rw [hdispatch]
      exact hs.ordered
    · have hdispatch : s'.dispatch = s.dispatch.finish i := by
        unfold dispatch Dispatch.finish
        dsimp only
        rw [hqueue, h.given, hsettled, hself, hjob, List.map_append]
        rfl
      rw [hdispatch]
      exact hs.ordered.finish i
  · have hrest : ∑ j ∈ (Finset.range s.nbWorkers).erase i, ((s'.workers j).reserving.map ImportJob.reserved).sum =
        ∑ j ∈ (Finset.range s.nbWorkers).erase i, ((s.workers j).reserving.map ImportJob.reserved).sum := by
      refine Finset.sum_congr rfl fun j hj => ?_
      rw [h.workers, Function.update_of_ne (Finset.ne_of_mem_erase hj)]
    have hmem : i ∈ Finset.range s.nbWorkers := Finset.mem_range.mpr h.lt
    have hinflight := hs.inflight
    unfold reservedBytes at hinflight ⊢
    rw [h.nbWorkers, h.importer, ← Finset.add_sum_erase _ _ hmem, hrest, h.workers, Function.update_self]
    rw [← Finset.add_sum_erase _ _ hmem] at hinflight
    obtain ⟨hsame, hsum⟩ | ⟨job, hjob, hsum⟩ := h.reserves
    · rw [hsum, hsame, hinflight]
    · rw [hjob, List.map_cons, List.sum_cons] at hinflight
      rw [hsum]
      omega
  · rw [h.importer] at hnot
    rw [h.nbWorkers, h.workers]
    exact forall_update (p := fun w => w.stop = false) (fun hi => h.stop.trans (hs.running hnot i hi)) fun j hj _ => hs.running hnot j hj

/-- The steps of a worker but the treatment of its block. -/
theorem workStep_change (hs : s.Rings) (hi : i < s.nbWorkers) (h : s.workStep i = some s') :
    (∃ w, WorkerChange s s' i w) ∧ s'.store = s.store ∧ s'.settled = s.settled ∧ s'.inflight ≤ s.inflight := by
  have hfits := hs.fits i hi
  unfold workStep at h
  dsimp only at h
  cases hstage : (s.workers i).stage with
  | waiting =>
    simp only [hstage] at h
    split at h
    · rename_i hcount
      obtain rfl := Option.some.inj h
      exact ⟨⟨_, hi, rfl, rfl, rfl, rfl, ⟨hfits.head, hfits.count, fun _ => hcount, by simp⟩, rfl,
        fun hend => absurd (hstage.symm.trans hend) nofun, rfl, Nat.le_refl _, rfl,
        .inl ⟨by simp [ImportWorker.unsettled, hstage], rfl⟩, .inl ⟨by simp [ImportWorker.reserving, hstage], rfl⟩⟩,
        rfl, rfl, Nat.le_refl _⟩
    · rename_i hcount
      split at h
      · rename_i hstop
        obtain rfl := Option.some.inj h
        have hzero : (s.workers i).ring.count = 0 := Nat.eq_zero_of_not_pos hcount
        exact ⟨⟨_, hi, rfl, rfl, rfl, rfl, ⟨hfits.head, hfits.count, by simp, fun _ => ⟨hzero, hstop⟩⟩, rfl,
          fun _ => rfl, rfl, Nat.le_refl _, rfl,
          .inl ⟨by simp [ImportWorker.unsettled, hstage], rfl⟩, .inl ⟨by simp [ImportWorker.reserving, hstage], rfl⟩⟩,
          rfl, rfl, Nat.le_refl _⟩
      · cases h
  | holding => simp [hstage] at h
  | listed =>
    simp only [hstage] at h
    obtain rfl := Option.some.inj h
    have hpos := hfits.busy (.inr (.inl hstage))
    have hfront := RingBuffer.toList_pop hfits.head hpos
    refine ⟨⟨_, hi, rfl, rfl, rfl, rfl, ⟨hfits.head, hfits.count, fun _ => hpos, by simp⟩, rfl,
      fun hend => absurd (hstage.symm.trans hend) nofun, rfl, Nat.le_refl _, rfl,
      .inl ⟨by simp [ImportWorker.unsettled, hstage], rfl⟩, .inr ⟨(s.workers i).ring.front, ?_, rfl⟩⟩,
      rfl, rfl, Nat.sub_le _ _⟩
    simp only [ImportWorker.reserving, hstage]
    rw [hfront, List.tail_cons]
  | settled =>
    simp only [hstage] at h
    obtain rfl := Option.some.inj h
    have hpos := hfits.busy (.inr (.inr hstage))
    have hfront := RingBuffer.toList_pop hfits.head hpos
    refine ⟨⟨_, hi, rfl, rfl, rfl, rfl, ⟨Nat.mod_lt _ (by decide), ?_, by simp, by simp⟩, rfl,
      fun hend => absurd (hstage.symm.trans hend) nofun, rfl, Nat.sub_le _ _, RingBuffer.next_pop hpos,
      .inl ⟨?_, rfl⟩, .inl ⟨?_, rfl⟩⟩, rfl, rfl, Nat.le_refl _⟩
    · exact Nat.le_trans (Nat.sub_le _ _) hfits.count
    · simp only [ImportWorker.unsettled, hstage]
      rw [hfront, List.tail_cons]
    · simp only [ImportWorker.reserving, hstage]
      rw [hfront, List.tail_cons]
  | ended => simp [hstage] at h

/-- A worker deals with its oldest job. -/
structure SettlesBlock (P : Puzzle) (tier : TierCodec) (s s' : ImportSystem) (i : Nat) (built : Bool)
    (files : Option (Nat → Option Nat)) (job : ImportJob) : Prop where
  change : ∃ w, WorkerChange s s' i w
  mem : job ∈ (s.workers i).unsettled
  store : s'.store = (settleBlock P tier s.store job built files).1
  settled : s'.settled = s.settled ++ [(job, (settleBlock P tier s.store job built files).2)]
  inflight : s'.inflight = if (settleBlock P tier s.store job built files).2 = .linked then s.inflight - job.reserved else s.inflight
  reserved : job.reserved ≤ s.inflight

/-- What is reserved for a worker is in flight. -/
theorem Rings.reserved_le (hs : s.Rings) (hi : i < s.nbWorkers) (hjob : job ∈ (s.workers i).reserving) :
    job.reserved ≤ s.inflight := by
  rw [hs.inflight]
  have hmem : i ∈ Finset.range s.nbWorkers := Finset.mem_range.mpr hi
  have hone : job.reserved ≤ ((s.workers i).reserving.map ImportJob.reserved).sum :=
    List.le_sum_of_mem (List.mem_map_of_mem hjob)
  have hall : ((s.workers i).reserving.map ImportJob.reserved).sum ≤
      ∑ j ∈ Finset.range s.nbWorkers, ((s.workers j).reserving.map ImportJob.reserved).sum :=
    Finset.single_le_sum (f := fun j => ((s.workers j).reserving.map ImportJob.reserved).sum) (fun _ _ => Nat.zero_le _) hmem
  unfold reservedBytes
  omega

theorem settleStep_settles {P : Puzzle} {tier : TierCodec} {built : Bool} {files : Option (Nat → Option Nat)} (hs : s.Rings)
    (hi : i < s.nbWorkers) (h : s.settleStep P tier i built files = some s') :
    ∃ job, SettlesBlock P tier s s' i built files job := by
  have hfits := hs.fits i hi
  unfold settleStep at h
  obtain ⟨hstage, h⟩ := Option.ite_none_right_eq_some.mp h
  have hpos := hfits.busy (.inl hstage)
  have hfront := RingBuffer.toList_pop hfits.head hpos
  have hmem : (s.workers i).ring.front ∈ (s.workers i).ring.toList importQueueDepth := by
    rw [hfront]
    exact List.mem_cons_self
  have hnot : (s.workers i).stage = .ended → False := fun hend => by
    rw [hstage] at hend
    cases hend
  have hunsettled : (s.workers i).unsettled = (s.workers i).ring.toList importQueueDepth := by
    simp only [ImportWorker.unsettled, hstage]
  have hreserving : (s.workers i).reserving = (s.workers i).ring.toList importQueueDepth := by
    simp only [ImportWorker.reserving, hstage]
  have hreserved : (s.workers i).ring.front.reserved ≤ s.inflight :=
    hs.reserved_le hi (by rw [hreserving]; exact hmem)
  refine ⟨(s.workers i).ring.front, ?_⟩
  dsimp only at h
  split at h
  · rename_i hlinked
    obtain rfl := Option.some.inj h
    refine ⟨⟨_, hi, rfl, rfl, rfl, rfl, ⟨hfits.head, hfits.count, fun _ => hpos, by simp⟩, rfl,
      fun hend => (hnot hend).elim, rfl, Nat.le_refl _, rfl, .inr ⟨(s.workers i).ring.front, _, ?_, rfl⟩,
      .inr ⟨(s.workers i).ring.front, ?_, rfl⟩⟩, by rw [hunsettled]; exact hmem, rfl, rfl, by rw [if_pos hlinked], hreserved⟩
    · rw [hunsettled]
      simp only [ImportWorker.unsettled]
      rw [hfront, List.tail_cons]
    · rw [hreserving]
      simp only [ImportWorker.reserving]
      rw [hfront, List.tail_cons]
  · rename_i hnotLinked
    obtain rfl := Option.some.inj h
    refine ⟨⟨_, hi, rfl, rfl, rfl, rfl, ⟨hfits.head, hfits.count, fun _ => hpos, by simp⟩, rfl,
      fun hend => (hnot hend).elim, rfl, Nat.le_refl _, rfl, .inr ⟨(s.workers i).ring.front, _, ?_, rfl⟩,
      .inl ⟨?_, rfl⟩⟩, by rw [hunsettled]; exact hmem, rfl, rfl, by rw [if_neg hnotLinked]; rfl, hreserved⟩
    · rw [hunsettled]
      simp only [ImportWorker.unsettled]
      rw [hfront, List.tail_cons]
    · rw [hreserving]
      simp only [ImportWorker.reserving]

/-- The importer writes the ring of the worker of its job, in the cell behind the last job, and goes on with the same job. -/
theorem Rings.write (hs : s.Rings) (hpos : 0 < s.nbWorkers) {a : ImportJob} {slot : Nat} (hinHand : s.importer.inHand = some job)
    (hinHand' : importer.inHand = some job) (hcount : (s.workers (s.owner job.id)).ring.count < importQueueDepth)
    (hslot : slot = ((s.workers (s.owner job.id)).ring.head + (s.workers (s.owner job.id)).ring.count) % importQueueDepth)
    (himporter : importer = .writing job slot ∨ (importer = .written job slot ∧ a = job)) :
    Rings { s.setWorker (s.owner job.id) { s.workers (s.owner job.id) with
      ring.cells := Function.update (s.workers (s.owner job.id)).ring.cells slot a } with importer } := by
  have hlt : s.owner job.id < s.nbWorkers := Nat.mod_lt _ hpos
  have hlist : RingBuffer.toList importQueueDepth { (s.workers (s.owner job.id)).ring with
      cells := Function.update (s.workers (s.owner job.id)).ring.cells slot a } =
        (s.workers (s.owner job.id)).ring.toList importQueueDepth := by
    rw [hslot]
    exact RingBuffer.toList_write hcount a
  generalize hi : s.owner job.id = i at *
  set w' : ImportWorker := { s.workers i with ring.cells := Function.update (s.workers i).ring.cells slot a }
  have hlist : w'.ring.toList importQueueDepth = (s.workers i).ring.toList importQueueDepth := hlist
  have hunsettled : ∀ j, (Function.update s.workers i w' j).unsettled = (s.workers j).unsettled := by
    refine update_same ?_
    unfold ImportWorker.unsettled
    rw [hlist]
  have hreserving : ∀ j, (Function.update s.workers i w' j).reserving = (s.workers j).reserving := by
    refine update_same ?_
    unfold ImportWorker.reserving
    rw [hlist]
  have hnot : ¬ s.importer.Finishes := by
    intro hfin
    cases himp : s.importer <;> rw [himp] at hfin hinHand <;> first | exact hfin | cases hinHand
  refine ⟨?_, ?_, ?_, ?_, fun _ => ?_⟩
  · obtain ⟨hhead, hcount, hbusy, hended⟩ := hs.fits i hlt
    exact forall_update (fun _ => ⟨hhead, hcount, hbusy, hended⟩) fun j hj _ => hs.fits j hj
  · have hdispatch : dispatch { s.setWorker i w' with importer } = s.dispatch := by
      unfold dispatch queue setWorker owner
      dsimp only
      simp only [hunsettled, hinHand, hinHand']
    rw [hdispatch]
    exact hs.ordered
  · have hinflight := hs.inflight
    unfold reservedBytes at hinflight ⊢
    dsimp only [setWorker]
    simp only [hreserving]
    rw [hinHand', ← hinHand]
    exact hinflight
  · have howner : job.id.2 % s.nbWorkers = i := hi
    dsimp only [setWorker]
    obtain rfl | ⟨rfl, rfl⟩ := himporter
    · dsimp only [Importer.Right]
      rw [howner, Function.update_self]
      exact ⟨hpos, hcount, hslot⟩
    · dsimp only [Importer.Right]
      rw [howner, Function.update_self]
      exact ⟨hpos, hcount, hslot, Function.update_self ..⟩
  · exact forall_update (p := fun w => w.stop = false) (hs.running hnot i) fun j hj _ => hs.running hnot j hj

/-- The job in the slot becomes the last of the ring. -/
theorem Rings.publish {slot : Nat} (hs : s.Rings) (himporter : s.importer = .written job slot) :
    Rings { s.setWorker (s.owner job.id) { s.workers (s.owner job.id) with
      ring.count := (s.workers (s.owner job.id)).ring.count + 1 } with importer := .idle } := by
  have hright := hs.importer
  have hrunning := hs.running
  rw [himporter] at hright hrunning
  obtain ⟨hpos, hcount, hslot, hcell⟩ := hright
  have hinHand : s.importer.inHand = some job := by rw [himporter]; rfl
  have hlt : s.owner job.id < s.nbWorkers := Nat.mod_lt _ hpos
  have hlist : RingBuffer.toList importQueueDepth { (s.workers (s.owner job.id)).ring with
      count := (s.workers (s.owner job.id)).ring.count + 1 } =
        (s.workers (s.owner job.id)).ring.toList importQueueDepth ++ [job] := by
    have hlast : (s.workers (s.owner job.id)).ring.cells (((s.workers (s.owner job.id)).ring.head +
        (s.workers (s.owner job.id)).ring.count) % importQueueDepth) = job := (congrArg _ hslot.symm).trans hcell
    rw [RingBuffer.toList_publish]
    exact congrArg (fun last => _ ++ [last]) hlast
  have howner : job.id.2 % s.nbWorkers = s.owner job.id := rfl
  rw [howner] at hcount
  generalize hi : s.owner job.id = i at *
  set w' : ImportWorker := { s.workers i with ring.count := (s.workers i).ring.count + 1 }
  have hlist : w'.ring.toList importQueueDepth = (s.workers i).ring.toList importQueueDepth ++ [job] := hlist
  have hsame : w'.stage = (s.workers i).stage := rfl
  have hne : (s.workers i).stage = .listed ∨ (s.workers i).stage = .settled →
      (s.workers i).ring.toList importQueueDepth ≠ [] := by
    intro hstage hnil
    have hlen : ((s.workers i).ring.toList importQueueDepth).length = (s.workers i).ring.count := RingBuffer.length_toList
    rw [hnil] at hlen
    have hbusy := (hs.fits i hlt).busy (.inr hstage)
    rw [← hlen] at hbusy
    exact absurd hbusy (by simp)
  have hunsettled : w'.unsettled = (s.workers i).unsettled ++ [job] := by
    unfold ImportWorker.unsettled
    rw [hlist, hsame]
    split <;> rename_i hstage
    · exact List.tail_append_of_ne_nil (hne (.inl hstage))
    · exact List.tail_append_of_ne_nil (hne (.inr hstage))
    · rfl
  have hreserving : w'.reserving = (s.workers i).reserving ++ [job] := by
    unfold ImportWorker.reserving
    rw [hlist, hsame]
    split <;> rename_i hstage
    · exact List.tail_append_of_ne_nil (hne (.inr hstage))
    · rfl
  refine ⟨?_, ?_, ?_, trivial, fun _ => ?_⟩
  · obtain ⟨hhead, -, hbusy, hended⟩ := hs.fits i hlt
    refine forall_update (fun _ => ⟨hhead, hcount, fun _ => Nat.succ_pos _, fun hend => ?_⟩) fun j hj _ => hs.fits j hj
    have hstop := hrunning id i hlt
    rw [(hended hend).2] at hstop
    cases hstop
  · have hdispatch : dispatch { s.setWorker i w' with importer := .idle } = s.dispatch := by
      have hqueue : queue { s.setWorker i w' with importer := .idle } = s.queue := by
        funext j
        unfold queue setWorker
        dsimp only
        rw [hinHand]
        by_cases heq : j = i
        · subst heq
          rw [Function.update_self, if_pos hlt, if_pos hlt, hunsettled, Option.filter_some, if_pos (decide_eq_true hi)]
          exact List.append_nil _
        · have hother : ¬ s.owner job.id = j := fun h => heq (by rw [← h, hi])
          rw [Function.update_of_ne heq]
          simp only [Option.filter_some, decide_eq_false hother, Bool.false_eq_true, if_false]
          rfl
      unfold dispatch
      rw [hqueue]
      rfl
    rw [hdispatch]
    exact hs.ordered
  · have hmem : i ∈ Finset.range s.nbWorkers := Finset.mem_range.mpr hlt
    have hinflight := hs.inflight
    unfold reservedBytes at hinflight ⊢
    dsimp only [setWorker]
    rw [hinHand, ← Finset.add_sum_erase _ _ hmem] at hinflight
    rw [← Finset.add_sum_erase _ _ hmem, Function.update_self, hreserving, List.map_append, List.sum_append]
    have hrest : ∑ j ∈ (Finset.range s.nbWorkers).erase i, ((Function.update s.workers i w' j).reserving.map ImportJob.reserved).sum =
        ∑ j ∈ (Finset.range s.nbWorkers).erase i, ((s.workers j).reserving.map ImportJob.reserved).sum := by
      refine Finset.sum_congr rfl fun j hj => ?_
      rw [Function.update_of_ne (Finset.ne_of_mem_erase hj)]
    rw [hrest, hinflight]
    simp only [List.map_cons, List.map_nil, List.sum_cons, List.sum_nil, Option.map_some, Option.getD_some, Importer.inHand,
      Option.map_none, Option.getD_none]
    omega
  · exact forall_update (p := fun w => w.stop = false) (hrunning id i) fun j hj _ => hrunning id j hj

/-- The reservation of a block is taken, and the block is given to its worker. -/
theorem Rings.reserve (hs : s.Rings) (himporter : s.importer = .enqueuing job) :
    Rings { s with inflight := s.inflight + job.reserved, given := s.given ++ [job], importer := .queued job } := by
  have hpos := hs.importer
  rw [himporter] at hpos
  have hlt : s.owner job.id < s.nbWorkers := Nat.mod_lt _ hpos
  have hinHand : s.importer.inHand = none := by rw [himporter]; rfl
  refine ⟨hs.fits, ?_, ?_, hpos, fun hnot => hs.running (by rw [himporter]; exact id)⟩
  · set s' : ImportSystem := { s with inflight := s.inflight + job.reserved, given := s.given ++ [job], importer := .queued job }
    have hqueue : s'.queue = Function.update s.queue (s.owner job.id) (s.queue (s.owner job.id) ++ [job]) := by
      funext j
      have hself : s.queue j = if j < s.nbWorkers then (s.workers j).unsettled else [] := by
        unfold queue
        rw [hinHand, Option.filter_none, Option.toList_none, List.append_nil]
      have hfilter : ((some job).filter fun job => decide (s.owner job.id = j)).toList =
          if j = s.owner job.id then [job] else [] := by
        rw [Option.filter_some]
        by_cases heq : j = s.owner job.id
        · rw [if_pos (decide_eq_true heq.symm), if_pos heq]
          rfl
        · rw [if_neg fun h => heq (of_decide_eq_true h).symm, if_neg heq]
          rfl
      show (if j < s.nbWorkers then (s.workers j).unsettled ++
        ((some job).filter fun job => decide (s.owner job.id = j)).toList else []) = _
      rw [hfilter]
      by_cases heq : j = s.owner job.id
      · rw [heq, Function.update_self, if_pos rfl, if_pos hlt, ← heq, hself, if_pos (heq ▸ hlt)]
      · rw [Function.update_of_ne heq, hself, if_neg heq, List.append_nil]
    have hdispatch : s'.dispatch = s.dispatch.give ImportJob.id s.owner job := by
      unfold dispatch Dispatch.give
      rw [hqueue]
    rw [hdispatch]
    exact hs.ordered.give job
  · have hinflight := hs.inflight
    unfold reservedBytes at hinflight ⊢
    rw [hinHand] at hinflight
    dsimp only
    rw [hinflight]
    simp only [Option.map_none, Option.getD_none, Importer.inHand, Option.map_some, Option.getD_some, Nat.add_zero]

theorem Rings.queue_of_none (hnone : s.nbWorkers = 0) (j : Nat) : s.queue j = [] := by
  unfold queue
  rw [hnone, if_neg (Nat.not_lt_zero j)]

theorem Rings.inHand_of_none (hs : s.Rings) (hnone : s.nbWorkers = 0) : s.importer.inHand = none := by
  have hright := hs.importer
  rw [hnone] at hright
  cases himp : s.importer with
  | queued job =>
    rw [himp] at hright
    exact absurd hright (Nat.lt_irrefl 0)
  | writing job slot | written job slot =>
    rw [himp] at hright
    exact absurd hright.1 (Nat.lt_irrefl 0)
  | _ => rfl

theorem Rings.inflight_of_none (hs : s.Rings) (hnone : s.nbWorkers = 0) : s.inflight = 0 := by
  rw [hs.inflight]
  unfold reservedBytes
  rw [hnone, Finset.range_zero, Finset.sum_empty, hs.inHand_of_none hnone]
  rfl

theorem Rings.start (hs : s.Rings) (hnone : s.nbWorkers = 0) {started : Nat} (hinHand : importer.inHand = none)
    (hright : importer.Right started (s.startWorkers started).workers) : Rings { s.startWorkers started with importer } := by
  have hempty : ∀ j, queue { s.startWorkers started with importer } j = [] := by
    intro j
    unfold queue
    split
    · rw [hinHand, Option.filter_none, Option.toList_none, List.append_nil]
      rfl
    · rfl
  refine ⟨fun j hj => ?_, ?_, ?_, hright, fun _ j hj => rfl⟩
  · exact ⟨show 0 < importQueueDepth by decide, Nat.zero_le _, by simp [startWorkers], by simp [startWorkers]⟩
  · exact hs.ordered.reroute (queue_of_none hnone) _ hempty rfl rfl
  · have hzero := hs.inflight_of_none hnone
    show s.inflight = _
    rw [hzero]
    unfold reservedBytes
    rw [hinHand]
    symm
    exact Nat.add_eq_zero_iff.mpr ⟨Finset.sum_eq_zero fun j _ => rfl, rfl⟩

/-- A block is linked by the importer itself, where no worker runs. -/
theorem Rings.linkHere (hs : s.Rings) (hnone : s.nbWorkers = 0) (store : TieredStore) (fate : ImportFate) :
    Rings { s with store, given := s.given ++ [job], settled := s.settled ++ [(job, fate)], importer := .idle } := by
  set s' : ImportSystem :=
    { s with store, given := s.given ++ [job], settled := s.settled ++ [(job, fate)], importer := .idle }
  have hnone' : s'.nbWorkers = 0 := hnone
  refine ⟨fun j hj => absurd hj (by rw [hnone']; exact Nat.not_lt_zero j), ?_, ?_, trivial,
    fun _ j hj => absurd hj (by rw [hnone']; exact Nat.not_lt_zero j)⟩
  · have hgiven := (hs.ordered.give job).finish (s.owner job.id)
    have hqueues : ((s.dispatch.give ImportJob.id s.owner job).finish (s.owner job.id)).queues =
        s'.queue := by
      funext j
      rw [queue_of_none hnone']
      unfold Dispatch.give Dispatch.finish dispatch
      dsimp only
      rw [Function.update_self, queue_of_none hnone]
      by_cases heq : j = s.owner job.id
      · rw [heq, Function.update_self]
        rfl
      · rw [Function.update_of_ne heq, Function.update_of_ne heq, queue_of_none hnone]
    have hdone : ((s.dispatch.give ImportJob.id s.owner job).finish (s.owner job.id)).done =
        (s.settled ++ [(job, fate)]).map Prod.fst := by
      unfold Dispatch.give Dispatch.finish dispatch
      dsimp only
      rw [Function.update_self, queue_of_none hnone, List.map_append]
      rfl
    have hdispatch : s'.dispatch = (s.dispatch.give ImportJob.id s.owner job).finish (s.owner job.id) := by
      unfold dispatch at hqueues hdone ⊢
      rw [← hqueues, ← hdone]
      rfl
    rw [hdispatch]
    exact hgiven
  · have hinflight := hs.inflight
    unfold reservedBytes at hinflight ⊢
    rw [hs.inHand_of_none hnone] at hinflight
    exact hinflight

theorem Rings.stop (hs : s.Rings) {k : Nat} (himporter : s.importer = .stopping k) :
    Rings { s.setWorker k { s.workers k with stop := true } with importer := .stopping (k + 1) } := by
  have hright := hs.importer
  rw [himporter] at hright
  have hinHand : s.importer.inHand = none := by rw [himporter]; rfl
  have hunsettled : ∀ j, (Function.update s.workers k { s.workers k with stop := true } j).unsettled = (s.workers j).unsettled :=
    update_same rfl
  have hreserving : ∀ j, (Function.update s.workers k { s.workers k with stop := true } j).reserving = (s.workers j).reserving :=
    update_same rfl
  refine ⟨?_, ?_, ?_, fun j hj => ?_, fun hnot => absurd trivial hnot⟩
  · refine forall_update (fun hk => ?_) fun j hj _ => hs.fits j hj
    obtain ⟨hhead, hcount, hbusy, hended⟩ := hs.fits k hk
    exact ⟨hhead, hcount, hbusy, fun hend => ⟨(hended hend).1, rfl⟩⟩
  · have hdispatch : dispatch { s.setWorker k { s.workers k with stop := true } with importer := .stopping (k + 1) } =
        s.dispatch := by
      unfold dispatch queue setWorker owner
      dsimp only
      simp only [hunsettled, hinHand]
      rfl
    rw [hdispatch]
    exact hs.ordered
  · have hinflight := hs.inflight
    unfold reservedBytes at hinflight ⊢
    rw [hinHand] at hinflight
    dsimp only [setWorker]
    simp only [hreserving]
    exact hinflight
  · dsimp only [setWorker]
    by_cases heq : j = k
    · rw [heq, Function.update_self]
    · rw [Function.update_of_ne heq]
      exact hright j (by omega)

/-- The queue of a worker at its end is empty. -/
theorem Rings.unsettled_of_ended (hs : s.Rings) (hi : i < s.nbWorkers) (hended : (s.workers i).stage = .ended) :
    (s.workers i).unsettled = [] ∧ (s.workers i).reserving = [] := by
  have hzero := ((hs.fits i hi).ended hended).1
  have hnil : (s.workers i).ring.toList importQueueDepth = [] := by
    rw [← List.length_eq_zero_iff, RingBuffer.length_toList, hzero]
  unfold ImportWorker.unsettled ImportWorker.reserving
  rw [hended]
  exact ⟨hnil, hnil⟩

/-- All workers have ended, and the import is at its end. -/
theorem Rings.finish (hs : s.Rings) {k : Nat} (himporter : s.importer = .joining k) (hk : ¬ k < s.nbWorkers) :
    Rings { s with nbWorkers := 0, importer := .idle } := by
  have hright := hs.importer
  rw [himporter] at hright
  have hinHand : s.importer.inHand = none := by rw [himporter]; rfl
  have hended : ∀ j < s.nbWorkers, (s.workers j).stage = .ended := fun j hj => hright.2 j (by omega) hj
  have hempty : ∀ j, s.queue j = [] := by
    intro j
    unfold queue
    split
    · rename_i hj
      rw [(hs.unsettled_of_ended hj (hended j hj)).1, hinHand]
      rfl
    · rfl
  refine ⟨fun j hj => absurd hj (Nat.not_lt_zero j), ?_, ?_, trivial, fun _ j hj => absurd hj (Nat.not_lt_zero j)⟩
  · exact hs.ordered.reroute hempty _ (queue_of_none (s := { s with nbWorkers := 0, importer := .idle }) rfl) rfl rfl
  · have hinflight := hs.inflight
    unfold reservedBytes at hinflight ⊢
    rw [hinHand, Finset.sum_eq_zero fun j hj => ?_] at hinflight
    · exact hinflight
    · have hj := Finset.mem_range.mp hj
      rw [(hs.unsettled_of_ended hj (hended j hj)).2]
      rfl

theorem Rings.slot (hs : s.Rings) (himporter : s.importer = .queued job)
    (hroom : ¬ (s.workers (s.owner job.id)).ring.count ≥ importQueueDepth) :
    Rings { s with importer := .writing job (((s.workers (s.owner job.id)).ring.head +
      (s.workers (s.owner job.id)).ring.count) % importQueueDepth) } := by
  have hright := hs.importer
  rw [himporter] at hright
  -- The ring is written only later: this step is the write of what the slot holds.
  have hinHand : s.importer.inHand = some job := by rw [himporter]; rfl
  have hinHand' : ∀ slot, (Importer.writing job slot).inHand = some job := fun _ => rfl
  have hwrite := hs.write hright hinHand (hinHand' _) (Nat.lt_of_not_le hroom) rfl (.inl rfl)
    (a := (s.workers (s.owner job.id)).ring.cells (((s.workers (s.owner job.id)).ring.head +
      (s.workers (s.owner job.id)).ring.count) % importQueueDepth))
  rw [Function.update_eq_self] at hwrite
  have hself : s.setWorker (s.owner job.id) (s.workers (s.owner job.id)) = s := by
    unfold setWorker
    rw [Function.update_eq_self]
  dsimp only at hwrite
  rw [hself] at hwrite
  exact hwrite

theorem goStep_rings {cap : Nat} {spillEnabled : Bool} (hs : s.Rings) (h : s.goStep cap spillEnabled s.importer = some s') :
    s'.Rings := by
  obtain ⟨store, nbWorkers, workers, inflight, importer, given, settled⟩ := s
  have hright := hs.importer
  cases importer with
  | idle | full job inflight occupied | direct job =>
    cases h
  | looking job =>
    obtain rfl := Option.some.inj h
    exact hs.goOn rfl rfl trivial id
  | seen job inflight =>
    obtain rfl := Option.some.inj h
    refine hs.goOn rfl ?_ ?_ False.elim <;> split <;> trivial
  | missed job inflight occupied =>
    dsimp only [goStep] at h
    split at h
    · obtain rfl := Option.some.inj h
      refine hs.goOn rfl ?_ ?_ False.elim <;> split <;> trivial
    · obtain rfl := Option.some.inj h
      exact hs.goOn rfl rfl trivial id
  | waiting job start =>
    obtain ⟨-, h⟩ := Option.ite_none_left_eq_some.mp h
    obtain rfl := Option.some.inj h
    exact hs.goOn rfl rfl trivial id
  | refusing job =>
    obtain ⟨-, h⟩ := Option.ite_none_left_eq_some.mp h
    obtain rfl := Option.some.inj h
    exact hs.goOn rfl rfl trivial id
  | placed job =>
    obtain ⟨hsome, h⟩ := Option.ite_none_left_eq_some.mp h
    obtain rfl := Option.some.inj h
    exact hs.goOn rfl rfl (Nat.pos_of_ne_zero hsome) id
  | enqueuing job =>
    obtain rfl := Option.some.inj h
    exact hs.reserve rfl
  | queued job =>
    obtain ⟨hroom, h⟩ := Option.ite_none_left_eq_some.mp h
    obtain rfl := Option.some.inj h
    exact hs.slot rfl hroom
  | writing job slot =>
    obtain rfl := Option.some.inj h
    obtain ⟨hpos, hcount, hslot⟩ := hright
    exact hs.write hpos rfl rfl hcount hslot (.inr ⟨rfl, rfl⟩)
  | written job slot =>
    obtain rfl := Option.some.inj h
    exact hs.publish rfl
  | stopping k =>
    dsimp only [goStep] at h
    split at h
    · obtain rfl := Option.some.inj h
      exact hs.stop rfl
    · rename_i hk
      obtain rfl := Option.some.inj h
      exact hs.goOn rfl rfl ⟨fun j (hj : j < nbWorkers) => hright j (by omega), fun j hj => absurd hj (Nat.not_lt_zero j)⟩
        fun _ => trivial
  | joining k =>
    dsimp only [goStep] at h
    split at h
    · obtain ⟨hended, h⟩ := Option.ite_none_right_eq_some.mp h
      obtain rfl := Option.some.inj h
      refine hs.goOn rfl rfl ⟨hright.1, fun j hj hlt => ?_⟩ fun _ => trivial
      obtain hj | rfl := Nat.lt_succ_iff_lt_or_eq.mp hj
      · exact hright.2 j hj hlt
      · exact hended
    · rename_i hk
      obtain rfl := Option.some.inj h
      exact hs.finish rfl hk

end Rings

/-! ## The steps of the threads -/

section Steps

variable {P : Puzzle} {tier : TierCodec} {cap : Nat} {spillEnabled tierActive : Bool} {s s' : ImportSystem} {label : ImportLabel}

theorem step_go : s.step P tier cap spillEnabled tierActive .go = s.goStep cap spillEnabled s.importer := by
  change s.importerStep P tier cap spillEnabled tierActive s.importer .go = _
  cases s.importer <;> rfl

theorem step_rings (hs : s.Rings) (h : s.step P tier cap spillEnabled tierActive label = some s') : s'.Rings := by
  obtain ⟨store, nbWorkers, workers, inflight, importer, given, settled⟩ := s
  cases label with
  | work i =>
    obtain ⟨hi, h⟩ := Option.ite_none_right_eq_some.mp h
    obtain ⟨⟨w, hchange⟩, -⟩ := workStep_change hs hi h
    exact hs.change hchange
  | settle i built files =>
    obtain ⟨hi, h⟩ := Option.ite_none_right_eq_some.mp h
    obtain ⟨job, hsettles⟩ := settleStep_settles hs hi h
    obtain ⟨w, hchange⟩ := hsettles.change
    exact hs.change hchange
  | others call =>
    obtain rfl := Option.some.inj h
    exact ⟨hs.fits, hs.ordered, hs.inflight, hs.importer, hs.running⟩
  | go => exact goStep_rings hs (step_go.symm.trans h)
  | push id raw =>
    cases importer <;> try cases h
    unfold pushStep
    split
    · exact hs
    · split
      · exact hs
      · exact hs.goOn rfl rfl trivial False.elim
  | tried moved =>
    cases importer <;> try cases h
    dsimp only [step, importerStep] at h
    split at h
    · obtain ⟨-, h⟩ := Option.ite_none_right_eq_some.mp h
      obtain rfl := Option.some.inj h
      exact hs.goOn rfl rfl trivial id
    · obtain rfl := Option.some.inj h
      exact hs.goOn rfl rfl trivial id
  | start started =>
    cases importer <;> try cases h
    obtain ⟨⟨hnone, -⟩, h⟩ := Option.ite_none_right_eq_some.mp h
    obtain rfl := Option.some.inj h
    refine hs.start hnone ?_ ?_ <;> split
    · rfl
    · rfl
    · rename_i hzero
      exact hzero
    · rename_i hstarted
      exact Nat.pos_of_ne_zero hstarted
  | linkHere built =>
    cases importer <;> try cases h
    have hnone := hs.importer
    unfold linkHereStep
    split
    · exact hs.linkHere hnone _ _
    · exact hs.goOn rfl rfl trivial id
  | scribble other =>
    cases importer <;> try cases h
    obtain ⟨hpos, hcount, hslot⟩ := hs.importer
    exact hs.write hpos rfl rfl hcount hslot (.inl rfl)
  | finish =>
    cases importer <;> try cases h
    exact hs.goOn rfl rfl (fun j hj => absurd hj (Nat.not_lt_zero j)) fun _ => trivial

end Steps

end ImportSystem
