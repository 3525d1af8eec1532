-- SUMMARY: Lists, blocks and disk as one stock of records, and what insertions, evictions and transfers do to it.
import EternityII.Spill.Records

/-!
# The stock of records

Each pool and file has a list, a stack of blocks in the RAM tier and a stack of segments on disk. A
record enters by the list or in a block that is already built, goes from the head of the list into a
block on the tier, and from the tier to disk. On this way its bytes stay what they are.
-/

/-! ## The stock -/

/-- `file_possibility` and `file_possibility_checked`, `g_tier_unchecked` and `g_tier_checked`, and
the spill. -/
structure Store where
  lists : StackId → PoolFile
  tier : StackId → TierStack
  spill : Spill

/-- The stacks of a pool. -/
def poolStacks (nbFiles : Nat) (c : Bool) : Finset StackId := (allStacks nbFiles).filter fun id => id.1 = c

theorem mem_poolStacks {nbFiles : Nat} {c : Bool} {id : StackId} :
    id ∈ poolStacks nbFiles c ↔ id.2 < nbFiles ∧ id.1 = c := by
  unfold poolStacks
  rw [Finset.mem_filter, mem_allStacks]

/-- The loop of `datamanager_pool_drain_head_compact` with room for `max` records of `cap` bytes:
what is drained from the head, and what stays. -/
def drainHead : Nat → Nat → PoolFile → List (List Byte) × PoolFile
  | _, _, [] => ([], [])
  | 0, _, file => ([], file)
  | max + 1, cap, record :: file =>
    if record.length > cap then ([], record :: file)
    else
      let drained := drainHead max (cap - record.length) file
      (record :: drained.1, drained.2)

namespace Store

section Model

variable (P : Puzzle) (tier : TierCodec) (s : Store)

/-- The records of a stack: in its list, on the tier and on disk. -/
def stackRecords (id : StackId) : Multiset (List Byte) :=
  (s.lists id : Multiset (List Byte)) + framesRecs P tier (s.tier id).frames + framesRecs P tier (diskFrames s.spill id)

/-- The records of a pool. -/
def records (c : Bool) : Multiset (List Byte) := ∑ id ∈ poolStacks s.spill.nbFiles c, s.stackRecords P tier id

/-- `datamanager_pool_refill` of one packet, which takes the first file that it can lock. -/
def insert {P : Puzzle} (s : Store) (c : Bool) (dest : Nat) (p : Packet P) : Store :=
  { s with lists := Function.update s.lists (c, dest) (poolPut (s.lists (c, dest)) p) }

/-- `tier_link_locked`. -/
def link (id : StackId) (fr : { fr : StoredFrame // fr.Valid }) : Store :=
  { s with tier := Function.update s.tier id ((s.tier id).link fr fr.property) }

/-- The end of `tier_evict` when no block is linked: what has been drained is decoded and goes to the
end of the list. -/
def evictBack (id : StackId) (drained : List (List Byte)) (file : PoolFile) : Store :=
  match tierDecodeBlock P drained.flatten drained.length with
  | some packets =>
    if packets.length = drained.length then
      { s with lists := Function.update s.lists id (packets.foldl poolPut file) }
    else { s with lists := Function.update s.lists id file }
  | none => { s with lists := Function.update s.lists id file }

/-- A round of `tier_evict`, which takes `max` records still. -/
def evict (id : StackId) (max : Nat) : Store :=
  let drained := drainHead max stockTierBlockBytes (s.lists id)
  if drained.1 = [] then s
  else
    match stockTierBlockBuild P tier drained.1.flatten with
    | none => s.evictBack P id drained.1 drained.2
    | some fr =>
      let linked := s.link id fr
      if fr.val.info.records = drained.1.length then
        { linked with lists := Function.update s.lists id drained.2 }
      else linked.evictBack P id drained.1 drained.2

/-- A round of `tier_to_disk`. -/
def toDisk (s : Store) (id : StackId) (expandActive allowPrepass : Bool) (wanted : Nat) (env : AppendEnv) : Store :=
  let r := tierToDisk s.spill (s.tier id) id.1 id.2 expandActive allowPrepass wanted env
  { s with
    spill := r.1
    tier := Function.update s.tier id r.2.1 }

/-- What the overflow thread does between two steps of another operation. -/
inductive Move where
  | evict (id : StackId) (max : Nat)
  | toDisk (id : StackId) (expandActive allowPrepass : Bool) (wanted : Nat) (env : AppendEnv)

/-- A move; there are stacks for the files of the stock only. -/
def move (s : Store) : Move → Store
  | .evict id max => if id.2 < s.spill.nbFiles then s.evict P tier id max else s
  | .toDisk id expandActive allowPrepass wanted env =>
    if id.2 < s.spill.nbFiles then s.toDisk id expandActive allowPrepass wanted env else s

end Model

/-! ## What the stock keeps -/

section Sound

variable {P : Puzzle} {tier : TierCodec} {s s' : Store} {c : Bool} {f : Nat} {id : StackId}

/-- The lists hold records, and the files and descriptors hold stacks of segments. -/
structure Sound (P : Puzzle) (s : Store) : Prop where
  lists : ∀ id, ∀ record ∈ s.lists id, IsRecord P record
  spill : ∃ segs, SpillSegs s.spill segs

/-- Stocks with the same records in each stack. -/
structure Same (P : Puzzle) (tier : TierCodec) (s s' : Store) : Prop where
  nbFiles : s'.spill.nbFiles = s.spill.nbFiles
  each : ∀ id, s'.stackRecords P tier id = s.stackRecords P tier id

theorem Same.refl (s : Store) : Same P tier s s := ⟨rfl, fun _ => rfl⟩

theorem Same.trans {s'' : Store} (h : Same P tier s s') (h' : Same P tier s' s'') : Same P tier s s'' :=
  ⟨h'.nbFiles.trans h.nbFiles, fun id => (h'.each id).trans (h.each id)⟩

theorem Same.records (h : Same P tier s s') (c : Bool) : s'.records P tier c = s.records P tier c := by
  unfold Store.records
  rw [h.nbFiles]
  exact Finset.sum_congr rfl fun id _ => h.each id

/-- A pool when one of its stacks gets something more. -/
theorem records_add {m : Multiset (List Byte)} (hid : id.2 < s.spill.nbFiles)
    (hnb : s'.spill.nbFiles = s.spill.nbFiles) (hself : s'.stackRecords P tier id = s.stackRecords P tier id + m)
    (hothers : ∀ id', id' ≠ id → s'.stackRecords P tier id' = s.stackRecords P tier id') (c : Bool) :
    s'.records P tier c = s.records P tier c + if id.1 = c then m else 0 := by
  unfold Store.records
  rw [hnb]
  split
  · rename_i hc
    have hmem : id ∈ poolStacks s.spill.nbFiles c := mem_poolStacks.mpr ⟨hid, hc⟩
    rw [← Finset.add_sum_erase _ _ hmem, ← Finset.add_sum_erase _ (fun id => s.stackRecords P tier id) hmem, hself,
      Finset.sum_congr rfl fun id' hid' => hothers id' (Finset.ne_of_mem_erase hid')]
    abel
  · rename_i hc
    rw [add_zero]
    refine Finset.sum_congr rfl fun id' hid' => hothers id' fun heq => hc ?_
    rw [← heq]
    exact (mem_poolStacks.mp hid').2

theorem insert_stackRecords {p : Packet P} {dest : Nat} (id : StackId) :
    (s.insert c dest p).stackRecords P tier id =
      s.stackRecords P tier id + if id = (c, dest) then ((recordOf p).toList : Multiset (List Byte)) else 0 := by
  unfold stackRecords Store.insert
  dsimp only
  by_cases heq : id = (c, dest)
  · rw [if_pos heq, heq, Function.update_self, poolPut_eq, ← Multiset.coe_add]
    abel
  · rw [if_neg heq, Function.update_of_ne heq, add_zero]

/-- An insertion adds the record of the packet. -/
theorem insert_records {p : Packet P} {dest : Nat} (hdest : dest < s.spill.nbFiles) (c' : Bool) :
    (s.insert c dest p).records P tier c' =
      s.records P tier c' + if c = c' then ((recordOf p).toList : Multiset (List Byte)) else 0 := by
  have hnb : (s.insert c dest p).spill.nbFiles = s.spill.nbFiles := rfl
  have hself : (s.insert c dest p).stackRecords P tier (c, dest) =
      s.stackRecords P tier (c, dest) + ((recordOf p).toList : Multiset (List Byte)) := by
    rw [insert_stackRecords, if_pos rfl]
  refine records_add hdest hnb hself (fun id' hne => ?_) c'
  rw [insert_stackRecords, if_neg hne, add_zero]

theorem Sound.insert (h : s.Sound P) (c : Bool) (dest : Nat) (p : Packet P) : (s.insert c dest p).Sound P := by
  refine ⟨fun id record hrecord => ?_, h.spill⟩
  unfold Store.insert at hrecord
  dsimp only at hrecord
  by_cases heq : id = (c, dest)
  · rw [heq, Function.update_self, poolPut_eq] at hrecord
    rcases List.mem_append.mp hrecord with hrecord | hrecord
    · exact h.lists _ record hrecord
    · exact ⟨p, Option.mem_toList.mp hrecord⟩
  · rw [Function.update_of_ne heq] at hrecord
    exact h.lists id record hrecord

theorem frames_link (stack : TierStack) (fr : { fr : StoredFrame // fr.Valid }) :
    (stack.link fr fr.property).frames = stack.frames ++ [fr.val] := by
  unfold TierStack.frames TierStack.link
  rw [List.map_append]
  rfl

theorem link_stackRecords {fr : { fr : StoredFrame // fr.Valid }} (id' : StackId) :
    (s.link id fr).stackRecords P tier id' =
      s.stackRecords P tier id' + if id' = id then (frameRecs P tier fr : Multiset (List Byte)) else 0 := by
  unfold stackRecords Store.link
  dsimp only
  by_cases heq : id' = id
  · rw [if_pos heq, heq, Function.update_self, frames_link, framesRecs_append, framesRecs_singleton]
    abel
  · rw [if_neg heq, Function.update_of_ne heq, add_zero]

/-- A block linked adds its records. -/
theorem link_records {fr : { fr : StoredFrame // fr.Valid }} (hid : id.2 < s.spill.nbFiles) (c : Bool) :
    (s.link id fr).records P tier c =
      s.records P tier c + if id.1 = c then (frameRecs P tier fr : Multiset (List Byte)) else 0 := by
  have hnb : (s.link id fr).spill.nbFiles = s.spill.nbFiles := rfl
  refine records_add (P := P) (s := s) hid hnb ?_ (fun id' hne => ?_) c
  · rw [link_stackRecords, if_pos rfl]
  · rw [link_stackRecords, if_neg hne, add_zero]

theorem Sound.link (h : s.Sound P) (id : StackId) (fr : { fr : StoredFrame // fr.Valid }) : (s.link id fr).Sound P :=
  ⟨h.lists, h.spill⟩

theorem drainHead_spec (max cap : Nat) (file : PoolFile) :
    file = (drainHead max cap file).1 ++ (drainHead max cap file).2 ∧ (drainHead max cap file).1.flatten.length ≤ cap := by
  induction file generalizing max cap with
  | nil =>
    unfold drainHead
    exact ⟨rfl, Nat.zero_le _⟩
  | cons record file ih =>
    cases max with
    | zero => exact ⟨rfl, Nat.zero_le _⟩
    | succ max =>
      rw [drainHead]
      split
      · exact ⟨rfl, Nat.zero_le _⟩
      · rename_i hfits
        obtain ⟨hfile, hlen⟩ := ih max (cap - record.length)
        refine ⟨congrArg (record :: ·) hfile, ?_⟩
        dsimp only
        rw [List.flatten_cons, List.length_append]
        omega

/-- An eviction of records takes them to the tier: what it drains makes a block of as many. -/
theorem evict_spec (hlaw : ∀ zstd, tier.zstd = some zstd → zstd.Lawful) (h : s.Sound P) (id : StackId) (max : Nat) :
    (s.evict P tier id max).Sound P ∧ Same P tier s (s.evict P tier id max) ∧
      (s.evict P tier id max).spill = s.spill := by
  obtain ⟨hfile, hsize⟩ := drainHead_spec max stockTierBlockBytes (s.lists id)
  unfold evict
  dsimp only
  generalize drainHead max stockTierBlockBytes (s.lists id) = drained at hfile hsize ⊢
  split
  · exact ⟨h, Same.refl s, rfl⟩
  · rename_i hne
    have hdrained : ∀ r ∈ drained.1, IsRecord P r := fun r hr => h.lists id r (by
      rw [hfile]
      exact List.mem_append_left _ hr)
    obtain ⟨fr, hbuild⟩ := stockTierBlockBuild_flatten hdrained hne hsize
    obtain ⟨-, records, hrecords, hrecs, hcount⟩ := stockTierBlockBuild_spec hlaw hbuild
    obtain rfl : drained.1 = records := Option.some.inj ((tierRecords_flatten hdrained).symm.trans hrecords)
    split
    · rename_i hnone
      rw [hbuild] at hnone
      exact absurd hnone (by simp)
    · rename_i fr' hbuild'
      obtain rfl : fr = fr' := Option.some.inj (hbuild.symm.trans hbuild')
      rw [if_pos hcount]
      refine ⟨⟨fun id' record hrecord => ?_, h.spill⟩, ⟨rfl, fun id' => ?_⟩, rfl⟩
      · dsimp only at hrecord
        by_cases heq : id' = id
        · rw [heq, Function.update_self] at hrecord
          refine h.lists id record ?_
          rw [hfile]
          exact List.mem_append_right _ hrecord
        · rw [Function.update_of_ne heq] at hrecord
          exact h.lists id' record hrecord
      · unfold stackRecords Store.link
        dsimp only
        by_cases heq : id' = id
        · rw [heq, Function.update_self, Function.update_self, frames_link, framesRecs_append, framesRecs_singleton,
            hrecs]
          conv_rhs => rw [hfile, ← Multiset.coe_add]
          abel
        · rw [Function.update_of_ne heq, Function.update_of_ne heq]

/-- A transfer takes blocks from the tier to the disk. -/
theorem toDisk_spec (h : s.Sound P) (id : StackId) (expandActive allowPrepass : Bool) (wanted : Nat) (env : AppendEnv) :
    (s.toDisk id expandActive allowPrepass wanted env).Sound P ∧
      Same P tier s (s.toDisk id expandActive allowPrepass wanted env) ∧
      (s.toDisk id expandActive allowPrepass wanted env).lists = s.lists := by
  obtain ⟨segs, hsegs⟩ := h.spill
  obtain ⟨pre, gone, post, segs', hmoved, -⟩ :=
    tierToDisk_spec hsegs (s.tier id) id.1 id.2 expandActive allowPrepass wanted env
  unfold Store.toDisk
  generalize tierToDisk s.spill (s.tier id) id.1 id.2 expandActive allowPrepass wanted env = r at hmoved
  refine ⟨⟨h.lists, _, hmoved.segs⟩, ⟨hmoved.config.1, fun id' => ?_⟩, rfl⟩
  unfold stackRecords
  dsimp only
  rw [hmoved.segs.diskFrames_eq, hsegs.diskFrames_eq]
  by_cases heq : id' = id
  · rw [heq, Function.update_self, Function.update_self, hmoved.grown.flatten]
    unfold TierStack.frames
    rw [hmoved.left, hmoved.blocks]
    simp only [List.map_append, framesRecs_append]
    abel
  · rw [Function.update_of_ne heq, Function.update_of_ne heq]

/-- A move leaves every record in its stack. -/
theorem move_spec (hlaw : ∀ zstd, tier.zstd = some zstd → zstd.Lawful) (h : s.Sound P) (m : Move) :
    (s.move P tier m).Sound P ∧ Same P tier s (s.move P tier m) := by
  cases m with
  | evict id max =>
    rw [move]
    split
    · obtain ⟨hsound, hsame, -⟩ := evict_spec hlaw h id max
      exact ⟨hsound, hsame⟩
    · exact ⟨h, Same.refl s⟩
  | toDisk id expandActive allowPrepass wanted env =>
    rw [move]
    split
    · obtain ⟨hsound, hsame, -⟩ := toDisk_spec h id expandActive allowPrepass wanted env
      exact ⟨hsound, hsame⟩
    · exact ⟨h, Same.refl s⟩

/-- Moves one after the other. -/
theorem moves_spec (hlaw : ∀ zstd, tier.zstd = some zstd → zstd.Lawful) (h : s.Sound P) (moves : List Move) :
    (moves.foldl (move P tier) s).Sound P ∧ Same P tier s (moves.foldl (move P tier) s) := by
  induction moves generalizing s with
  | nil => exact ⟨h, Same.refl s⟩
  | cons m moves ih =>
    obtain ⟨hsound, hsame⟩ := move_spec hlaw h m
    obtain ⟨hsound', hsame'⟩ := ih hsound
    exact ⟨hsound', hsame.trans hsame'⟩

end Sound

end Store
