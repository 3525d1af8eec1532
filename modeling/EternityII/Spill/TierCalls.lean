-- SUMMARY: The calls that move records between lists, tier and disk, and the counters the tier keeps of its blocks.
import EternityII.Spill.Flags

/-!
# Moving records

A call moves the records of one pool and file until it has moved as many as it is asked for: from the
head of the list to a new block at the top of the tier, from the bottom of the tier to disk, and from
the top of either to the end of the list. The tier counts what its blocks hold, for each stack, for
each pool and in all. Nothing else runs, so that the locks of the lists are free.
-/

/-! ## The counters of the tier -/

/-- `block_cost`: `sizeof(stock_tier_block_t)`, the stored bytes and `STOCK_TIER_MALLOC_OVERHEAD`. -/
def blockCost (fr : StoredFrame) : Nat := 40 + fr.info.storedBytes + 16

/-- The counters of `stock_tier_stack_t`. -/
structure StackCount where
  records : Nat
  bytes : Nat
  blocks : Nat
  rawBytes : Nat
  deriving DecidableEq, Repr

/-- The end of `stock_tier_link`. -/
def StackCount.link (n : StackCount) (fr : StoredFrame) : StackCount where
  records := n.records + fr.info.records
  bytes := n.bytes + blockCost fr
  blocks := n.blocks + 1
  rawBytes := n.rawBytes + fr.info.rawBytes

/-- The end of `stock_tier_unlink`. -/
def StackCount.unlink (n : StackCount) (fr : StoredFrame) : StackCount where
  records := subU64 n.records fr.info.records
  bytes := subU64 n.bytes (blockCost fr)
  blocks := subU64 n.blocks 1
  rawBytes := subU64 n.rawBytes fr.info.rawBytes

/-- The counters of the stacks, `g_tier_records`, `g_tier_records_pool`, `g_tier_bytes_pool`,
`g_tier_raw_pool`, and `ram_tier_bytes`. -/
structure TierCount where
  stack : StackId → StackCount
  records : Nat
  recordsPool : Bool → Nat
  bytesPool : Bool → Nat
  rawPool : Bool → Nat
  ramTierBytes : Nat

/-- The counters of `tier_push_locked` and `tier_link_locked`. -/
def TierCount.link (n : TierCount) (id : StackId) (fr : StoredFrame) : TierCount :=
  let before := n.stack id
  let after := before.link fr
  { stack := Function.update n.stack id after
    records := n.records + fr.info.records
    recordsPool := Function.update n.recordsPool id.1 (n.recordsPool id.1 + fr.info.records)
    bytesPool := Function.update n.bytesPool id.1 (n.bytesPool id.1 + subU64 after.bytes before.bytes)
    rawPool := Function.update n.rawPool id.1 (n.rawPool id.1 + subU64 after.rawBytes before.rawBytes)
    ramTierBytes := n.ramTierBytes + subU64 after.bytes before.bytes }

/-- The counters of `tier_remove_locked`. -/
def TierCount.remove (n : TierCount) (id : StackId) (fr : StoredFrame) : TierCount :=
  let before := n.stack id
  let after := before.unlink fr
  { stack := Function.update n.stack id after
    records := subU64 n.records fr.info.records
    recordsPool := Function.update n.recordsPool id.1 (subU64 (n.recordsPool id.1) fr.info.records)
    bytesPool := Function.update n.bytesPool id.1 (subU64 (n.bytesPool id.1) (subU64 before.bytes after.bytes))
    rawPool := Function.update n.rawPool id.1 (subU64 (n.rawPool id.1) (subU64 before.rawBytes after.rawBytes))
    ramTierBytes := subU64 n.ramTierBytes (subU64 before.bytes after.bytes) }

/-! ## The calls -/

/-- The stock with the counters of the tier. -/
structure TieredStore where
  store : Store
  count : TierCount

namespace TieredStore

/-- `pool_list_count`. -/
def poolListCount (s : TieredStore) (c : Bool) : Nat :=
  ∑ f ∈ Finset.range s.store.spill.nbFiles, (s.store.lists (c, f)).length

/-- `datamanager_pool_resident_bytes`. -/
def poolResidentBytes (s : TieredStore) (c : Bool) : Nat :=
  ∑ f ∈ Finset.range s.store.spill.nbFiles,
    (((s.store.lists (c, f)).map List.length).sum + (s.store.lists (c, f)).length * elementOverheadBytes)

/-- What a round of a call leaves, how many records it moved, and whether another one follows. -/
structure Round where
  store : TieredStore
  moved : Nat
  goesOn : Bool

/-- The loop of the calls; a round is told how many records have moved before it. As a round that
another one follows moves a record, `fuel` rounds are enough when it is the number asked for. -/
def moveLoop (round : TieredStore → Nat → Round) (maxPackets : Nat) : Nat → Nat → TieredStore → TieredStore × Nat
  | 0, moved, s => (s, moved)
  | fuel + 1, moved, s =>
    if moved < maxPackets then
      let r := round s moved
      if r.goesOn then moveLoop round maxPackets fuel (moved + r.moved) r.store else (r.store, moved + r.moved)
    else (s, moved)

section Calls

variable (P : Puzzle) (tier : TierCodec)

/-- A round of `tier_evict`. -/
def evictRound (id : StackId) (maxPackets : Nat) (s : TieredStore) (moved : Nat) : Round :=
  let drained := (drainHead (maxPackets - moved) stockTierBlockBytes (s.store.lists id)).1
  let left := { s with store := s.store.evict P tier id (maxPackets - moved) }
  match if drained = [] then none else stockTierBlockBuild P tier drained.flatten with
  | none => ⟨left, 0, false⟩
  | some fr =>
    let linked := { left with count := s.count.link id fr }
    if fr.val.info.records = drained.length then ⟨linked, drained.length, true⟩ else ⟨linked, 0, false⟩

/-- `tier_evict`. -/
def evict (s : TieredStore) (id : StackId) (maxPackets : Nat) : TieredStore × Nat :=
  moveLoop (evictRound P tier id maxPackets) maxPackets maxPackets 0 s

/-- A round of `tier_reload`, with the rest of the condition of its loop. -/
def reloadRound (id : StackId) (stopCount stopBytes : Nat) (s : TieredStore) : Round :=
  if s.poolListCount id.1 < stopCount ∧ s.poolResidentBytes id.1 < stopBytes then
    match if id.2 < s.store.spill.nbFiles then (s.store.tier id).blocks.getLast? else none with
    | none => ⟨s, 0, false⟩
    | some top =>
      match (frameRaw P tier top.frame).bind (tierRecords P) with
      | none => ⟨s, 0, false⟩
      | some records => ⟨⟨s.store.tierReload P tier id, s.count.remove id top.frame⟩, records.length, true⟩
  else ⟨s, 0, false⟩

/-- `tier_reload`. -/
def reload (s : TieredStore) (id : StackId) (maxPackets stopCount stopBytes : Nat) : TieredStore × Nat :=
  moveLoop (fun s _ => reloadRound P tier id stopCount stopBytes s) maxPackets maxPackets 0 s

/-- The blocks that a round of `tier_to_disk` writes. -/
def diskBatch (s : TieredStore) (id : StackId) (expandActive allowPrepass : Bool) (wanted : Nat) : List TierBlock :=
  match tierDiskCandidate id.1 expandActive allowPrepass (s.store.tier id) with
  | none => []
  | some seq => tierDiskBatch tierDiskBatchBlocks wanted ((s.store.tier id).blocks.dropWhile fun b => decide (b.seq ≠ seq))

/-- A round of `tier_to_disk`. -/
def toDiskRound (id : StackId) (expandActive allowPrepass : Bool) (maxPackets : Nat) (env : Nat → AppendEnv)
    (s : TieredStore) (moved : Nat) : Round :=
  let wanted := maxPackets - moved
  let batch := s.diskBatch id expandActive allowPrepass wanted
  let written := (tierToDisk s.store.spill (s.store.tier id) id.1 id.2 expandActive allowPrepass wanted (env moved)).2.2
  let gone := batch.take written
  ⟨⟨s.store.toDisk id expandActive allowPrepass wanted (env moved),
      gone.foldl (fun n b => n.remove id b.frame) s.count⟩,
    framesRecords (gone.map TierBlock.frame), decide (batch ≠ [] ∧ written = batch.length)⟩

/-- `tier_to_disk`; `env` has what the calls of a round do, by the records moved before it. -/
def toDisk (s : TieredStore) (id : StackId) (expandActive allowPrepass : Bool) (maxPackets : Nat)
    (env : Nat → AppendEnv) : TieredStore × Nat :=
  moveLoop (toDiskRound id expandActive allowPrepass maxPackets env) maxPackets maxPackets 0 s

/-- `stock_spill_reload`. -/
def spillReload (s : TieredStore) (id : StackId) (maxPackets : Nat) (env : ReloadEnv) : TieredStore × Nat :=
  ({ s with store := s.store.diskReload P tier id maxPackets env },
    (stockSpillReload P tier s.store.spill id.1 id.2 maxPackets env).2.length)

end Calls

end TieredStore
