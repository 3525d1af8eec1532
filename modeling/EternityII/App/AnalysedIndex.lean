-- SUMMARY: The analysed files with their hash indexes, node by node, and the nine operations on them.
import EternityII.App.WorkConnection
import EternityII.Base.ChainedIndex
import EternityII.Stock.Lifo

/-!
# The index of the analysed files

Each analysed file has a hash table of nodes that point at its elements. Two structures are kept by
hand: some operations find a node by the content of its element, others by the pointer, and others
empty the table with the file. A node left behind would point at memory that is free, and an element
without a node would never be acknowledged.
-/

/-! ## Elements -/

namespace Element

variable {P : Puzzle}

/-- `element_hash`. -/
def hash (e : Element P) : UInt64 :=
  match e with
  | raw packet => hashPossibilityKey packet
  | compact _ => (e.load.map hashPossibilityKey).getD 0

/-- `element_equals`. -/
def equals (e : Element P) (key : Packet P) : Bool :=
  match e with
  | raw packet => comparePossibility packet key = 0
  | compact _ => e.load.any fun packet => comparePossibility packet key = 0

/-- `element_is_descendant_of_any`. -/
def isDescendantOf (origins : List (Packet P)) (e : Element P) : Bool := e.load.any (isDescendantOfAny origins)

end Element

/-! ## The index of a file -/

/-- `AnalysedIndexNode`; the chain it is in gives `next`. -/
structure IndexNode (ι : Type*) where
  hash : UInt64
  element : ι
  lease : AnalysedNode

/-- `file_possibility_analysed[f]->file` and `analysed_index[f]`. -/
structure IndexedSegment (ι : Type*) (P : Puzzle) where
  file : File ι P
  index : Nat → List (IndexNode ι)

/-- `malloc`: an address at which there is nothing. -/
structure Allocator (ι : Type*) where
  malloc : List ι → ι
  fresh : ∀ used, malloc used ∉ used

/-- The bucket of a hash. -/
def analysedBucket (hash : UInt64) : Nat := hash.toNat % analysedIndexBuckets

namespace IndexedSegment

variable {ι : Type*} [DecidableEq ι] {P : Puzzle} (seg : IndexedSegment ι P)

/-- `element_hash` of an element of the file. -/
def hashOf (e : ι) : UInt64 := (seg.file.data e).hash

/-- `analysed_index_add`; the flag is that a node may be missing. -/
def indexAdd (e : ι) (lease : AnalysedNode) (memory : Bool) : IndexedSegment ι P × Bool :=
  if memory then
    let b := analysedBucket (seg.hashOf e)
    ({ seg with index := Function.update seg.index b (⟨seg.hashOf e, e, lease⟩ :: seg.index b) }, false)
  else (seg, true)

/-- `analysed_index_find_and_remove`. -/
def indexFindAndRemove (key : Packet P) : Option (ι × IndexedSegment ι P) :=
  let h := hashPossibilityKey key
  let b := analysedBucket h
  (unlinkFirst (fun node => node.hash = h && (seg.file.data node.element).equals key) (seg.index b)).map fun found =>
    (found.1.element, { seg with index := Function.update seg.index b found.2 })

/-- `analysed_index_remove_element` on an element that is not `NULL`, and `analysed_index_forget_element`. -/
def indexRemoveElement (victim : ι) : IndexedSegment ι P :=
  let b := analysedBucket (seg.hashOf victim)
  match unlinkFirst (fun node => node.element = victim) (seg.index b) with
  | none => seg
  | some found => { seg with index := Function.update seg.index b found.2 }

/-- `analysed_index_clear`. -/
def indexClear : IndexedSegment ι P := { seg with index := fun _ => [] }

/-- `put`, and `analysed_index_add` where it succeeds. -/
def put (a : Allocator ι) (possibility : Packet P) (lease : AnalysedNode) (element node : Bool) :
    IndexedSegment ι P × Bool :=
  let e := a.malloc seg.file.elements
  let added := seg.file.put e (.raw possibility) element
  if added.2 then IndexedSegment.indexAdd { seg with file := added.1 } e lease node else (seg, false)

/-- The body of the loop that drains the file: the node of the last element, then the element. -/
def indexScroll : Option (Option (Packet P) × IndexedSegment ι P) :=
  seg.file.links.last.bind fun e =>
    (seg.indexRemoveElement e).file.scroll.map fun taken =>
      ((seg.file.data e).load, { seg.indexRemoveElement e with file := taken.2 })

/-- The search over the elements from the start, when a node may be missing. -/
def find (key : Packet P) : Option ι := seg.file.elements.find? fun e => (seg.file.data e).equals key

/-- `remove_possibility_analysed` on a file that it has locked: `none` when it has no such possibility. -/
def remove (mayBeIncomplete : Bool) (possibility : Packet P) : Option (IndexedSegment ι P) :=
  match seg.indexFindAndRemove possibility with
  | some (e, seg) => some { seg with file := seg.file.removeElement e }
  | none =>
    if mayBeIncomplete then
      (seg.find possibility).map fun e => { seg with file := seg.file.removeElement e }
    else none

/-! ## Draining -/

/-- The loop that drains at most `cap` possibilities. -/
def drain : Nat → IndexedSegment ι P → List (Packet P) × IndexedSegment ι P
  | 0, seg => ([], seg)
  | cap + 1, seg =>
    match seg.indexScroll with
    | none => ([], seg)
    | some (packet, rest) => (packet.toList ++ (drain cap rest).1, (drain cap rest).2)

/-- The loop that puts a slice back, from its packet `i` on; no one owns what is put back. -/
def putBack (a : Allocator ι) (t : AnalysedTurn) : Nat → List (Packet P) → IndexedSegment ι P → IndexedSegment ι P × Bool
  | _, [], seg => (seg, false)
  | i, p :: buf, seg =>
    let added := seg.put a p ⟨false, [], 0⟩ (t.element i) (t.node i)
    let rest := putBack a t (i + 1) buf added.1
    (rest.1, added.2 || rest.2)

/-- The loop of `send_possibility_analysed` over the slices, `none` when it does not end within the fuel. -/
def sendLoop (a : Allocator ι) (turn : Nat → AnalysedTurn) (cap : Nat) :
    Nat → Nat → IndexedSegment ι P → Option (IndexedSegment ι P × Bool)
  | 0, _, _ => none
  | fuel + 1, n, seg =>
    let drained := drain cap seg
    if drained.1.length = 0 then some (drained.2, false)
    else if (turn n).accepted = false then some (putBack a (turn n) 0 drained.1 drained.2)
    else if drained.1.length = cap then sendLoop a turn cap fuel (n + 1) drained.2
    else some (drained.2, false)

/-- `send_possibility_analysed`; `remote` says whether there is a server. -/
def send (a : Allocator ι) (remote : Bool) (s : AnalysedSend) : Option (IndexedSegment ι P × Bool) :=
  if remote = false then
    if s.lock = true ∧ seg.file.links.first ≠ none then
      some (IndexedSegment.indexClear { seg with file := seg.file.clear }, false)
    else some (seg, false)
  else if checkAndConnectToServer s.connection ≠ .connected then some (seg, false)
  else if s.lock = true ∧ seg.file.links.first ≠ none ∧ s.buffer = true then
    sendLoop a s.turn s.cap (seg.file.size + 1) 0 seg
  else some (seg, false)

/-! ## Sweeping -/

/-- The lease of a node has expired and its owner is not alive. -/
def expired (now : Int) (ownerAlive : Option (List Byte → Bool)) (lease : AnalysedNode) : Bool :=
  lease.hasOwner && analysedLeaseIsExpired lease.leaseDeadline now && !(ownerAlive.any (· lease.ownerUid))

/-- The loop of a reclaim over the nodes of a bucket: those that stay, the file, and the packets copied. -/
def sweep (now : Int) (ownerAlive : Option (List Byte → Bool)) :
    List (IndexNode ι) → File ι P → List (IndexNode ι) × File ι P × List (Packet P)
  | [], file => ([], file, [])
  | node :: nodes, file =>
    if expired now ownerAlive node.lease then
      let rest := sweep now ownerAlive nodes (file.removeElement node.element)
      (rest.1, rest.2.1, (file.data node.element).load.toList ++ rest.2.2)
    else
      let rest := sweep now ownerAlive nodes file
      (node :: rest.1, rest.2.1, rest.2.2)

/-- The loop of a reclaim over the buckets from `b` on. -/
def sweepBuckets (now : Int) (ownerAlive : Option (List Byte → Bool)) :
    Nat → Nat → IndexedSegment ι P → IndexedSegment ι P × List (Packet P)
  | 0, _, seg => (seg, [])
  | n + 1, b, seg =>
    let swept := sweep now ownerAlive (seg.index b) seg.file
    let rest := sweepBuckets now ownerAlive n (b + 1) ⟨swept.2.1, Function.update seg.index b swept.1⟩
    (rest.1, swept.2.2 ++ rest.2)

/-- What `datamanager_reclaim_expired_leases` does to a file while it holds its lock. -/
def reclaim (now : Int) (ownerAlive : Option (List Byte → Bool)) (buffer : Bool) :
    IndexedSegment ι P × List (Packet P) :=
  if seg.file.size > 0 ∧ buffer = true then sweepBuckets now ownerAlive analysedIndexBuckets 0 seg else (seg, [])

/-- The loop of a purge over the elements, from `e` on: what is left and how many it has removed. -/
def purgeLoop (origins : List (Packet P)) : Nat → Option ι → IndexedSegment ι P → IndexedSegment ι P × Nat
  | 0, _, seg => (seg, 0)
  | fuel + 1, e, seg =>
    match e with
    | none => (seg, 0)
    | some e =>
      let next := seg.file.links.next e
      if (seg.file.data e).isDescendantOf origins then
        let forgotten := seg.indexRemoveElement e
        let rest := purgeLoop origins fuel next { forgotten with file := forgotten.file.removeElement e }
        (rest.1, rest.2 + 1)
      else purgeLoop origins fuel next seg

/-- The first half of `datamanager_purge_descendants_of` on a file. -/
def purge (origins : List (Packet P)) : IndexedSegment ι P × Nat :=
  purgeLoop origins seg.file.size seg.file.links.first seg

/-- The loop of `restock_analysed` that empties a file. -/
def scrollAll : Nat → File ι P → List (Packet P) × File ι P
  | 0, file => ([], file)
  | count + 1, file =>
    match file.scroll with
    | none => ([], file)
    | some (e, rest) => ((file.data e).load.toList ++ (scrollAll count rest).1, (scrollAll count rest).2)

/-- What `restock_analysed` does to a file while it holds its lock. -/
def restock : IndexedSegment ι P × List (Packet P) :=
  if seg.file.size = 0 then (seg, [])
  else
    let drained := scrollAll seg.file.size seg.file
    (IndexedSegment.indexClear { seg with file := drained.2 }, drained.1)

end IndexedSegment

/-! ## The pool -/

/-- The analysed files with their indexes, `analysed_index_may_be_incomplete`, `max_result`, and the stock
that a reclaim gives back to. -/
structure IndexedPool (ι : Type*) (P : Puzzle) where
  segment : Nat → IndexedSegment ι P
  mayBeIncomplete : Bool
  maxResult : Nat
  stock : LocalStock

namespace IndexedPool

variable {ι : Type*} [DecidableEq ι] {P : Puzzle} (nbFilePossibility : Nat) (pool : IndexedPool ι P)

/-- Nothing is in the files nor in the tables. -/
def start (data : ι → Element P) (maxResult : Nat) (stock : LocalStock) : IndexedPool ι P :=
  ⟨fun _ => ⟨File.init data, fun _ => []⟩, false, maxResult, stock⟩

/-- A file and its index replaced. -/
def setSegment (f : Nat) (seg : IndexedSegment ι P) : IndexedPool ι P :=
  { pool with segment := Function.update pool.segment f seg }

/-- The file that `add_possibility_analysed_impl` locks, unless it gives up; `free i` says whether the
attempt `i` locks its file. -/
def addFile (thread : Int) (free : Nat → Bool) : Option Nat :=
  if thread ≥ 0 then (firstFree free trylockMaxSweeps 0).map fun _ => thread.toNat
  else (firstFree free (trylockMaxSweeps * nbFilePossibility) 0).map (· % nbFilePossibility)

/-- `add_possibility_analysed_impl`, for `add_possibility_analysed` without an owner and for
`add_possibility_analysed_owned` with one; whether there is memory for the element and for the node. -/
def add (a : Allocator ι) (possibility : Packet P) (thread : Int) (lease : AnalysedNode) (free : Nat → Bool)
    (element node : Bool) : IndexedPool ι P × Int :=
  match addFile nbFilePossibility thread free with
  | none => (pool, -1)
  | some f =>
    let added := (pool.segment f).put a possibility lease element node
    ({ pool.setSegment f added.1 with
       mayBeIncomplete := pool.mayBeIncomplete || added.2
       maxResult := max pool.maxResult possibility.alloc.toNat }, 0)

/-- The file that an acknowledgement looks at: that of its thread, or the next one from `scan_start` on. -/
def currFile (thread : Int) (scanStart step : Nat) : Nat :=
  if thread ≥ 0 then thread.toNat else (scanStart + step) % nbFilePossibility

/-- The loop of `remove_possibility_analysed`. Every turn ends a file or a wait, which bounds the fuel. -/
def removeLoop (possibility : Packet P) (thread : Int) (scanStart : Nat) (free : Nat → Bool) :
    Nat → Nat → Nat → Nat → IndexedPool ι P × Int
  | 0, _, _, _ => (pool, -1)
  | fuel + 1, i, step, waits =>
    let currfile := currFile nbFilePossibility thread scanStart step
    if free i then
      match (pool.segment currfile).remove pool.mayBeIncomplete possibility with
      | some seg => (pool.setSegment currfile seg, 0)
      | none =>
        if thread ≥ 0 ∨ step + 1 ≥ nbFilePossibility then (pool, 1)
        else removeLoop possibility thread scanStart free fuel (i + 1) (step + 1) waits
    else if waits + 1 ≥ trylockMaxSweeps then (pool, -1)
    else removeLoop possibility thread scanStart free fuel (i + 1) step (waits + 1)

/-- `remove_possibility_analysed`. -/
def remove (possibility : Packet P) (thread preferredFile : Int) (free : Nat → Bool) : IndexedPool ι P × Int :=
  let scanStart := if preferredFile ≥ 0 ∧ preferredFile < nbFilePossibility then preferredFile.toNat else 0
  removeLoop nbFilePossibility pool possibility thread scanStart free (trylockMaxSweeps + nbFilePossibility) 0 0 0

/-- `send_possibility_analysed` of a thread. -/
def send (a : Allocator ι) (thread : Nat) (remote : Bool) (s : AnalysedSend) : Option (IndexedPool ι P) :=
  ((pool.segment thread).send a remote s).map fun sent =>
    { pool.setSegment thread sent.1 with mayBeIncomplete := pool.mayBeIncomplete || sent.2 }

/-- The first half of `datamanager_purge_descendants_of`, on the files below `n`. -/
def purgeSegments (origins : List (Packet P)) : Nat → IndexedPool ι P × Nat
  | 0 => (pool, 0)
  | n + 1 =>
    let before := purgeSegments origins n
    let purged := (before.1.segment n).purge origins
    (before.1.setSegment n purged.1, before.2 + purged.2)

/-- `datamanager_purge_descendants_of`. -/
def purgeDescendantsOf (origins : List (Packet P)) : IndexedPool ι P × Nat :=
  if origins.length = 0 then (pool, 0)
  else
    let analysed := purgeSegments pool origins nbFilePossibility
    let stock := { pool.stock with
      unchecked := pool.stock.unchecked.purge origins
      checked := pool.stock.checked.purge origins }
    ({ analysed.1 with stock }, analysed.2 + (pool.stock.records.length - stock.records.length))

/-- `put_back_to_stock` on some packets; `dest` says which file of the stock each is put in. -/
def putBackAll (dest : Packet P → Nat) (buf : List (Packet P)) : IndexedPool ι P :=
  { pool with
    stock := buf.foldl (fun stock pk => putBackToStock stock pk (dest pk)) pool.stock
    maxResult := buf.foldl (fun result pk => max result pk.alloc.toNat) pool.maxResult }

/-- What a reclaim reads: the clock, the owners alive, the memory for the copies of each file and for all
of them, and the files of the stock. -/
structure Reclaim (P : Puzzle) where
  now : Int
  ownerAlive : Option (List Byte → Bool)
  buffer : Nat → Bool
  grow : Nat → Bool
  dest : Packet P → Nat

/-- Where a reclaim is: `reclaimed_all`, `accumulation_ok` and `reclaimed_total`. -/
structure Reclaimed (ι : Type*) (P : Puzzle) where
  pool : IndexedPool ι P
  reclaimedAll : List (Packet P)
  accumulationOk : Bool
  reclaimedTotal : Nat

/-- A turn of `datamanager_reclaim_expired_leases`, on a file. -/
def reclaimFile (r : Reclaim P) (s : Reclaimed ι P) (f : Nat) : Reclaimed ι P :=
  let swept := (s.pool.segment f).reclaim r.now r.ownerAlive (r.buffer f)
  let accumulates := decide (swept.2.length > 0) && s.accumulationOk
  { pool := (s.pool.setSegment f swept.1).putBackAll r.dest swept.2
    reclaimedAll := if accumulates && r.grow f then s.reclaimedAll ++ swept.2 else s.reclaimedAll
    accumulationOk := if accumulates then r.grow f else s.accumulationOk
    reclaimedTotal := s.reclaimedTotal + swept.2.length }

/-- The loop of `datamanager_reclaim_expired_leases` over the files below `n`. -/
def reclaimFiles (r : Reclaim P) : Nat → Reclaimed ι P
  | 0 => ⟨pool, [], true, 0⟩
  | n + 1 => reclaimFile r (reclaimFiles r n) n

/-- `datamanager_reclaim_expired_leases`. -/
def reclaimExpiredLeases (r : Reclaim P) : IndexedPool ι P × Nat :=
  let s := reclaimFiles pool r nbFilePossibility
  (if s.accumulationOk = true ∧ s.reclaimedAll.length > 0 then
      (s.pool.purgeDescendantsOf nbFilePossibility s.reclaimedAll).1
    else s.pool, s.reclaimedTotal)

/-- `restock_analysed` on the files below `n`. -/
def restockFiles (dest : Packet P → Nat) : Nat → IndexedPool ι P
  | 0 => pool
  | f + 1 =>
    let before := restockFiles dest f
    let drained := (before.segment f).restock
    (before.setSegment f drained.1).putBackAll dest drained.2

/-- `restock_analysed`. -/
def restockAnalysed (dest : Packet P → Nat) : IndexedPool ι P := restockFiles pool dest nbFilePossibility

end IndexedPool

/-- The operations on the analysed pool, each with what it reads. -/
inductive AnalysedCall (ι : Type*) (P : Puzzle) where
  | add (a : Allocator ι) (possibility : Packet P) (thread : Int) (owner : Option (List Byte)) (leaseSeconds : Int)
      (now : Nat) (free : Nat → Bool) (element node : Bool)
  | remove (possibility : Packet P) (thread preferredFile : Int) (free : Nat → Bool)
  | send (a : Allocator ι) (thread : Nat) (remote : Bool) (s : AnalysedSend)
  | reclaim (r : IndexedPool.Reclaim P)
  | purge (origins : List (Packet P))
  | restock (dest : Packet P → Nat)

/-- The state after an operation, `none` when it does not end. -/
def IndexedPool.step {ι : Type*} [DecidableEq ι] {P : Puzzle} (nbFilePossibility : Nat) (pool : IndexedPool ι P) :
    AnalysedCall ι P → Option (IndexedPool ι P)
  | .add a possibility thread owner leaseSeconds now free element node =>
    some (pool.add nbFilePossibility a possibility thread (analysedNode leaseSeconds owner now) free element node).1
  | .remove possibility thread preferredFile free =>
    some (pool.remove nbFilePossibility possibility thread preferredFile free).1
  | .send a thread remote s => pool.send a thread remote s
  | .reclaim r => some (pool.reclaimExpiredLeases nbFilePossibility r).1
  | .purge origins => some (pool.purgeDescendantsOf nbFilePossibility origins).1
  | .restock dest => some (pool.restockAnalysed nbFilePossibility dest)

/-- No allocation of an element or of a node fails. -/
def AnalysedCall.Allocates {ι : Type*} {P : Puzzle} : AnalysedCall ι P → Prop
  | .add _ _ _ _ _ _ _ element node => element = true ∧ node = true
  | .send _ _ _ s => ∀ n i, (s.turn n).element i = true ∧ (s.turn n).node i = true
  | _ => True
