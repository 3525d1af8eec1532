-- SUMMARY: The runs of a direct import: each block is linked once, in order and within its room.
import EternityII.Spill.Backup
import EternityII.Spill.ImportWorkers

/-!
# The runs of an import

The blocks of a file are dealt with in the order in which they were handed over, however the threads take
turns, and each pool gets their records. As long as the other threads only send blocks to disk and every block
can be allocated, the stacks grow by the records of their blocks in this order, and the RAM stays within the
target of the import.
-/

/-! ## What a block adds to the stock -/

section Stock

variable (P : Puzzle) (tier : TierCodec)

/-- A record as the packet it stands for, up to its score. -/
def packetView (record : List Byte) : Option (Packet P) := (recordPacket P record).map Packet.unscored

/-- What a pool has of some records that are in another, or in it. -/
def viewsIn (of : Bool) (records : List (List Byte)) (c : Bool) : Multiset (Option (Packet P)) :=
  if of = c then (records.map (packetView P) : List (Option (Packet P))) else 0

/-- The packets of a pool up to their scores. -/
def TieredStore.poolContents (s : TieredStore) (c : Bool) : Multiset (Option (Packet P)) :=
  ∑ id ∈ poolStacks s.store.spill.nbFiles c, (s.contents P tier id : Multiset (Option (Packet P)))

/-- The records of a stack on disk and on the tier, from the bottom to the top. -/
def TieredStore.stacked (s : TieredStore) (id : StackId) : List (List Byte) :=
  frameSeq P tier (diskFrames s.store.spill id) ++ frameSeq P tier (s.store.tier id).frames

variable {P tier} {s s' : TieredStore} {id : StackId} {records : List (List Byte)}

/-- A pool when one of its stacks gets something more. -/
theorem TieredStore.poolContents_add (hid : id.2 < s.store.spill.nbFiles)
    (hnb : s'.store.spill.nbFiles = s.store.spill.nbFiles) {m : List (Option (Packet P))}
    (hself : (s'.contents P tier id).Perm (s.contents P tier id ++ m))
    (hothers : ∀ id', id' ≠ id → s'.contents P tier id' = s.contents P tier id') (c : Bool) :
    s'.poolContents P tier c = s.poolContents P tier c + if id.1 = c then (m : Multiset (Option (Packet P))) else 0 := by
  unfold TieredStore.poolContents
  rw [hnb]
  split
  · rename_i hc
    have hmem : id ∈ poolStacks s.store.spill.nbFiles c := mem_poolStacks.mpr ⟨hid, hc⟩
    have hsum : (s'.contents P tier id : Multiset (Option (Packet P))) = s.contents P tier id + m := by
      rw [Multiset.coe_add]
      exact Multiset.coe_eq_coe.mpr hself
    rw [← Finset.add_sum_erase _ _ hmem,
      ← Finset.add_sum_erase _ (fun id => (s.contents P tier id : Multiset (Option (Packet P)))) hmem, hsum,
      Finset.sum_congr rfl fun id' hid' => congrArg _ (hothers id' (Finset.ne_of_mem_erase hid'))]
    abel
  · rename_i hc
    rw [add_zero]
    refine Finset.sum_congr rfl fun id' hid' => congrArg _ (hothers id' fun heq => hc ?_)
    rw [← heq]
    exact (mem_poolStacks.mp hid').2

/-- A call that keeps the contents of the stacks keeps those of the pools. -/
theorem TieredStore.Keeps.poolContents (h : TieredStore.Keeps P tier List.Perm s s') (c : Bool) :
    s'.poolContents P tier c = s.poolContents P tier c := by
  unfold TieredStore.poolContents
  rw [h.nbFiles]
  exact Finset.sum_congr rfl fun id _ => Multiset.coe_eq_coe.mpr (h.each id)

/-- What a linked block changes. -/
structure LinksBlock (P : Puzzle) (tier : TierCodec) (s s' : TieredStore) (id : StackId) (records : List (List Byte)) : Prop where
  sound : s'.Sound P tier
  nbFiles : s'.store.spill.nbFiles = s.store.spill.nbFiles
  lists : s'.store.lists = s.store.lists
  stacked : ∀ id', s'.stacked P tier id' = s.stacked P tier id' ++ if id' = id then records else []

theorem LinksBlock.poolContents (h : LinksBlock P tier s s' id records) (hid : id.2 < s.store.spill.nbFiles) (c : Bool) :
    s'.poolContents P tier c = s.poolContents P tier c + viewsIn P id.1 records c := by
  have hcontents : ∀ id', s'.contents P tier id' = ((s.stacked P tier id' ++ if id' = id then records else []) ++
      s.store.lists id').map (packetView P) := by
    intro id'
    rw [← h.stacked, ← h.lists]
    rfl
  refine TieredStore.poolContents_add hid h.nbFiles ?_ (fun id' hne => ?_) c
  · have hbefore : s.contents P tier id = (s.stacked P tier id ++ s.store.lists id).map (packetView P) := rfl
    rw [hcontents, hbefore, if_pos rfl, List.append_assoc, List.map_append, List.map_append, List.map_append, List.append_assoc]
    exact List.Perm.append_left _ List.perm_append_comm
  · rw [hcontents, if_neg hne, List.append_nil]
    rfl

theorem TieredStore.link_links (h : s.Sound P tier) (hid : id.2 < s.store.spill.nbFiles)
    {fr : { fr : StoredFrame // fr.Valid }} (hpacks : fr.val.Packs P tier records) :
    LinksBlock P tier s (s.link id fr) id records := by
  have hframes : ∀ id', ((s.link id fr).store.tier id').frames =
      Function.update (fun id' => (s.store.tier id').frames) id ((s.store.tier id).frames ++ [fr.val]) id' := by
    intro id'
    dsimp only [TieredStore.link, Store.link]
    by_cases heq : id' = id
    · rw [heq, Function.update_self, Function.update_self, Store.frames_link]
    · rw [Function.update_of_ne heq, Function.update_of_ne heq]
  refine ⟨⟨h.lists, fun id' fr' hfr' => ?_, h.disk, h.diskPacks, ?_⟩, rfl, rfl, fun id' => ?_⟩
  · rw [hframes] at hfr'
    by_cases heq : id' = id
    · rw [heq, Function.update_self] at hfr'
      obtain hfr' | hfr' := List.mem_append.mp hfr'
      · exact h.tierPacks id fr' hfr'
      · rw [List.mem_singleton.mp hfr']
        exact ⟨records, hpacks⟩
    · rw [Function.update_of_ne heq] at hfr'
      exact h.tierPacks id' fr' hfr'
  · rw [funext hframes]
    exact h.count.link hid hpacks
  · unfold TieredStore.stacked
    rw [hframes]
    by_cases heq : id' = id
    · rw [heq, Function.update_self, if_pos rfl, frameSeq_append, frameSeq_singleton, hpacks.frameRecs_eq, ← List.append_assoc]
      rfl
    · rw [Function.update_of_ne heq, if_neg heq, List.append_nil]
      rfl

/-- A packet goes into a list as the record it was read from. -/
theorem insert_spec {record : List Byte} {q : Packet P} {c : Bool} {dest : Nat} (h : s.Sound P tier)
    (hdest : dest < s.store.spill.nbFiles) (hrecord : IsRecord P record) (hread : recordPacket P record = some q)
    (hs' : s' = { s with store := s.store.insert c dest q }) :
    s'.Sound P tier ∧ ∀ c', s'.poolContents P tier c' = s.poolContents P tier c' + viewsIn P c [record] c' := by
  obtain ⟨q', -, hq, hagain⟩ := hrecord.front false []
  obtain rfl : q' = q := Option.some.inj (hq.symm.trans hread)
  have hlists : s'.store.lists = Function.update s.store.lists (c, dest) (s.store.lists (c, dest) ++ [record]) := by
    rw [hs']
    dsimp only [Store.insert]
    rw [poolPut_eq, hagain, Option.toList_some]
  have hself : s'.contents P tier (c, dest) = s.contents P tier (c, dest) ++ [packetView P record] := by
    unfold TieredStore.contents TieredStore.sequence
    rw [hlists, Function.update_self, ← List.append_assoc, List.map_append, hs']
    rfl
  have hothers : ∀ id', id' ≠ (c, dest) → s'.contents P tier id' = s.contents P tier id' := by
    intro id' hne
    unfold TieredStore.contents TieredStore.sequence
    rw [hlists, Function.update_of_ne hne, hs']
    rfl
  refine ⟨⟨fun id' r hr => ?_, ?_, ?_, ?_, ?_⟩, fun c' => ?_⟩
  · rw [hlists] at hr
    by_cases heq : id' = (c, dest)
    · rw [heq, Function.update_self] at hr
      obtain hr | hr := List.mem_append.mp hr
      · exact h.lists _ r hr
      · rw [List.mem_singleton.mp hr]
        exact hrecord
    · rw [Function.update_of_ne heq] at hr
      exact h.lists id' r hr
  · rw [hs']
    exact h.tierPacks
  · rw [hs']
    exact h.disk
  · rw [hs']
    exact h.diskPacks
  · rw [hs']
    exact h.count
  · have hnb : s'.store.spill.nbFiles = s.store.spill.nbFiles := by rw [hs']; rfl
    exact TieredStore.poolContents_add hdest hnb (List.Perm.of_eq hself) hothers c'

/-- Packets go into the lists as the records they were read from, but those for which there is no node. -/
theorem refillLoop_spec (hnb : 0 < s.store.spill.nbFiles) (c : Bool) (files : Nat → Option Nat)
    (hrecords : ∀ r ∈ records, IsRecord P r) {packets : List (Packet P)}
    (hread : records.mapM (recordPacket P) = some packets) (n : Nat) (h : s.Sound P tier)
    (hs' : s' = { s with store := (packets.zipIdx n).foldl (Store.refillOne P c files) s.store }) :
    s'.Sound P tier ∧ s'.store.spill.nbFiles = s.store.spill.nbFiles ∧ ∀ c', s'.poolContents P tier c' =
      s.poolContents P tier c' +
        viewsIn P c ((ImportFate.listed ((packets.zipIdx n).map fun p => (files p.2).isSome)).kept records) c' := by
  induction records generalizing s packets n with
  | nil =>
    obtain rfl : [] = packets := by simpa using hread
    subst hs'
    refine ⟨h, rfl, fun c' => ?_⟩
    rw [viewsIn, ImportFate.kept, List.zip_nil_left, List.filter_nil, List.map_nil, List.map_nil, Multiset.coe_nil, ite_self,
      add_zero]
    rfl
  | cons record records ih =>
    rw [List.mapM_cons] at hread
    obtain ⟨first, hfirst, rest, hrest, rfl⟩ : ∃ first, recordPacket P record = some first ∧
        ∃ rest, records.mapM (recordPacket P) = some rest ∧ first :: rest = packets := by
      simpa [Option.bind_eq_some_iff] using hread
    have hall : ∀ r ∈ records, IsRecord P r := fun r hr => hrecords r (List.mem_cons_of_mem _ hr)
    rw [List.zipIdx_cons, List.foldl_cons] at hs'
    rw [List.zipIdx_cons, List.map_cons]
    cases hfile : files n with
    | none =>
      have hstays : Store.refillOne P c files s.store (first, n) = s.store := by
        unfold Store.refillOne
        rw [hfile]
      rw [hstays] at hs'
      exact ih hnb hall hrest (n + 1) h hs'
    | some file =>
      have hput : Store.refillOne P c files s.store (first, n) = s.store.insert c (file % s.store.spill.nbFiles) first := by
        unfold Store.refillOne
        rw [hfile]
      rw [hput] at hs'
      obtain ⟨hinserted, hgained⟩ := insert_spec (c := c) h (Nat.mod_lt file hnb) (hrecords record List.mem_cons_self) hfirst rfl
      obtain ⟨hsound, hnb', hpools⟩ :=
        ih (s := { s with store := s.store.insert c (file % s.store.spill.nbFiles) first }) hnb hall hrest (n + 1) hinserted hs'
      refine ⟨hsound, hnb', fun c' => ?_⟩
      rw [hpools, hgained, add_assoc]
      congr 1
      unfold viewsIn
      split
      · rw [Multiset.coe_add, ← List.map_append, List.singleton_append]
        rfl
      · rfl

end Stock

/-! ## Dealing with a block -/

section Blocks

variable {P : Puzzle} {tier : TierCodec} {s s' : TieredStore} {job : ImportJob}

variable (P) in
/-- The records of a block. -/
def ImportJob.records (job : ImportJob) : List (List Byte) := (tierRecords P job.raw).getD []

/-- A job has a file of the stock, records that fit in a block, and the room that it may need. -/
structure ImportJob.Sound (P : Puzzle) (nbFiles : Nat) (job : ImportJob) : Prop where
  file : job.id.2 < nbFiles
  reserved : job.reserved = stockTierBlockCostBound job.raw.length
  size : 0 < job.raw.length ∧ job.raw.length ≤ stockTierBlockBytes
  isRecord : ∀ r ∈ job.records P, IsRecord P r
  flatten : (job.records P).flatten = job.raw

/-- The block of a job can be built, and takes no more than its room. -/
theorem ImportJob.Sound.build (h : job.Sound P s.store.spill.nbFiles) (tier : TierCodec) :
    ∃ fr, stockTierBlockBuild P tier job.raw = some fr ∧ blockCost fr.val ≤ job.reserved := by
  have hne : job.records P ≠ [] := by
    intro hnil
    have hflat := h.flatten
    rw [hnil] at hflat
    have hsize := h.size.1
    rw [← hflat] at hsize
    exact absurd hsize (Nat.lt_irrefl 0)
  obtain ⟨fr, hbuild⟩ : ∃ fr, stockTierBlockBuild P tier (job.records P).flatten = some fr :=
    stockTierBlockBuild_flatten h.isRecord hne (by rw [h.flatten]; exact h.size.2)
  rw [h.flatten] at hbuild
  refine ⟨fr, hbuild, ?_⟩
  rw [h.reserved]
  unfold stockTierBlockBuild at hbuild
  split at hbuild
  · cases hbuild
  · rename_i codec stored n hpack
    obtain rfl := Option.some.inj hbuild
    have hle : stored.length ≤ job.raw.length := by
      obtain ⟨-, ⟨-, rfl⟩ | ⟨-, -, hlt, -⟩⟩ := stockTierPack_spec hpack
      · exact Nat.le_refl _
      · exact Nat.le_of_lt hlt
    unfold blockCost stockTierBlockCostBound
    dsimp only
    omega

/-- A block that is built is linked with its records, within its room. -/
theorem link_spec (hlaw : ∀ zstd, tier.zstd = some zstd → zstd.Lawful) (h : s.Sound P tier)
    (hjob : job.Sound P s.store.spill.nbFiles) {fr : { fr : StoredFrame // fr.Valid }}
    (hbuild : stockTierBlockBuild P tier job.raw = some fr) :
    LinksBlock P tier s (s.link job.id fr) job.id (job.records P) ∧
      (s.link job.id fr).residentBytes ≤ s.residentBytes + job.reserved := by
  obtain ⟨fr', hbuild', hcost⟩ := hjob.build tier
  obtain rfl : fr = fr' := Option.some.inj (hbuild.symm.trans hbuild')
  have hpacks : fr.val.Packs P tier (job.records P) :=
    stockTierBlockBuild_packs hlaw hjob.isRecord (by rw [hjob.flatten]; exact hbuild)
  refine ⟨TieredStore.link_links h hjob.file hpacks, ?_⟩
  have hgrown : (s.link job.id fr).count.ramTierBytes = s.count.ramTierBytes + blockCost fr.val := by
    dsimp only [TieredStore.link, TierCount.link]
    exact congrArg _ (subU64_add_left _ _)
  have hpools : ∀ c, (s.link job.id fr).poolResidentBytes c = s.poolResidentBytes c := fun c => rfl
  unfold TieredStore.residentBytes
  rw [hgrown, hpools, hpools]
  omega

/-- The records of a block come to its pool but those that are lost; a block that is allocated is linked. -/
theorem settleBlock_spec (hlaw : ∀ zstd, tier.zstd = some zstd → zstd.Lawful) (h : s.Sound P tier)
    (hjob : job.Sound P s.store.spill.nbFiles) (built : Bool) (files : Option (Nat → Option Nat)) {fate : ImportFate}
    (hsettle : settleBlock P tier s job built files = (s', fate)) :
    s'.Sound P tier ∧ s'.store.spill.nbFiles = s.store.spill.nbFiles ∧
      (∀ c, s'.poolContents P tier c = s.poolContents P tier c + viewsIn P job.id.1 (fate.kept (job.records P)) c) ∧
      (fate = .linked → LinksBlock P tier s s' job.id (job.records P) ∧ s'.residentBytes ≤ s.residentBytes + job.reserved) ∧
      (built = true → fate = .linked) := by
  obtain ⟨fr, hbuild, -⟩ := hjob.build tier
  unfold settleBlock at hsettle
  cases built with
  | true =>
    rw [if_pos rfl, hbuild] at hsettle
    obtain ⟨rfl, rfl⟩ := Prod.mk.inj hsettle
    obtain ⟨hlinks, hroom⟩ := link_spec hlaw h hjob hbuild
    exact ⟨hlinks.sound, hlinks.nbFiles, hlinks.poolContents hjob.file, fun _ => ⟨hlinks, hroom⟩, fun _ => rfl⟩
  | false =>
    rw [if_neg Bool.false_ne_true] at hsettle
    dsimp only at hsettle
    split at hsettle
    · rename_i files packets hdecode
      obtain ⟨rfl, rfl⟩ := Prod.mk.inj hsettle
      have hread : (job.records P).mapM (recordPacket P) = some packets := by
        unfold tierDecodeBlock at hdecode
        have hrecords : tierRecords P job.raw = some (job.records P) := by
          rw [← hjob.flatten]
          exact tierRecords_flatten hjob.isRecord
        rw [hrecords] at hdecode
        exact (Option.ite_none_left_eq_some.mp hdecode).2
      obtain ⟨hsound, hnb, hpools⟩ := refillLoop_spec (Nat.zero_lt_of_lt hjob.file) job.id.1 files hjob.isRecord hread 0 h rfl
      exact ⟨hsound, hnb, hpools, nofun, nofun⟩
    · obtain ⟨rfl, rfl⟩ := Prod.mk.inj hsettle
      have hnone : ∀ c, viewsIn P job.id.1 (ImportFate.lost.kept (job.records P)) c = 0 := fun c => ite_self 0
      exact ⟨h, rfl, fun c => by rw [hnone, add_zero], nofun, nofun⟩

/-- What a transfer to disk leaves as it is, and that it makes room. -/
structure Lowered (P : Puzzle) (tier : TierCodec) (s s' : TieredStore) : Prop where
  sound : s'.Sound P tier
  nbFiles : s'.store.spill.nbFiles = s.store.spill.nbFiles
  lists : s'.store.lists = s.store.lists
  stacked : ∀ id, s'.stacked P tier id = s.stacked P tier id
  resident : s'.residentBytes ≤ s.residentBytes

theorem Lowered.refl (h : s.Sound P tier) : Lowered P tier s s := ⟨h, rfl, rfl, fun _ => rfl, Nat.le_refl _⟩

theorem Lowered.trans {s'' : TieredStore} (h : Lowered P tier s s') (h' : Lowered P tier s' s'') : Lowered P tier s s'' :=
  ⟨h'.sound, h'.nbFiles.trans h.nbFiles, h'.lists.trans h.lists, fun id => (h'.stacked id).trans (h.stacked id),
    Nat.le_trans h'.resident h.resident⟩

theorem Lowered.of_bottom {id : StackId} {gone left : List TierBlock} (h : TieredStore.BottomMoved id s s' gone left)
    (hs : s.Sound P tier) (hid : id.2 < s.store.spill.nbFiles) : Lowered P tier s s' := by
  have hkeeps := h.keeps hs hid
  have hstacked : ∀ id', s'.stacked P tier id' = s.stacked P tier id' := by
    intro id'
    have hbefore : (s.store.tier id).frames = (gone ++ left).map TierBlock.frame := by rw [TierStack.frames, h.blocks]
    have hafter : (s'.store.tier id).frames = left.map TierBlock.frame := by rw [TierStack.frames, h.left]
    unfold TieredStore.stacked
    rw [h.grown]
    by_cases heq : id' = id
    · rw [if_pos heq, heq, hafter, hbefore, List.map_append, frameSeq_append, frameSeq_append, List.append_assoc]
    · rw [if_neg heq, List.append_nil, h.others id' heq]
  refine ⟨hkeeps.sound, h.nbFiles, h.lists, hstacked, ?_⟩
  have hpools : ∀ c, s'.poolResidentBytes c = s.poolResidentBytes c := by
    intro c
    unfold TieredStore.poolResidentBytes
    rw [h.lists, h.nbFiles]
  have hbytes : s'.count.ramTierBytes ≤ s.count.ramTierBytes := by
    rw [hkeeps.sound.count.ramTierBytes, hs.count.ramTierBytes, h.nbFiles]
    refine Finset.sum_le_sum fun id' _ => ?_
    by_cases heq : id' = id
    · rw [heq, TierStack.frames, TierStack.frames, h.left, h.blocks, List.map_append]
      obtain ⟨-, hsum, -⟩ := stackCount_append P tier (gone.map TierBlock.frame) (left.map TierBlock.frame)
      rw [hsum]
      exact Nat.le_add_left _ _
    · rw [h.others id' heq]
  unfold TieredStore.residentBytes
  rw [hpools, hpools]
  omega

theorem toDiskLoop_lowered {id : StackId} (allowPrepass : Bool) (maxPackets : Nat) (env : Nat → AppendEnv) (h : s.Sound P tier)
    (hid : id.2 < s.store.spill.nbFiles) (fuel moved : Nat) :
    Lowered P tier s (TieredStore.moveLoop (TieredStore.toDiskRound id false allowPrepass maxPackets env) maxPackets fuel moved s).1 := by
  induction fuel generalizing s moved with
  | zero => exact .refl h
  | succ fuel ih =>
    rw [TieredStore.moveLoop]
    split
    · obtain ⟨gone, left, hmoved⟩ : ∃ gone left, TieredStore.BottomMoved id s
          (TieredStore.toDiskRound id false allowPrepass maxPackets env s moved).store gone left :=
        TieredStore.toDiskRound_moved h allowPrepass env
      have hfirst := Lowered.of_bottom hmoved h hid
      dsimp only
      split
      · exact hfirst.trans (ih hfirst.sound (hfirst.nbFiles.symm ▸ hid) _)
      · exact hfirst
    · exact .refl h

end Blocks

/-! ## What a step does -/

namespace Importer

/-- The job that the importer is about. -/
def job : Importer → Option ImportJob
  | .looking job | .seen job _ | .full job _ _ | .missed job _ _ | .waiting job _ | .refusing job | .placed job | .direct job
  | .enqueuing job | .queued job | .writing job _ | .written job _ => some job
  | _ => none

/-- The bytes of a block for which there is room, and which is not yet reserved. -/
def granted : Importer → Nat
  | .placed job | .direct job | .enqueuing job => job.reserved
  | _ => 0

/-- The occupation that left no room for a block. -/
def occupied : Importer → Option Nat
  | .full _ _ occupied | .missed _ _ occupied => some occupied
  | _ => none

end Importer

namespace ImportSystem

section Steps

variable {P : Puzzle} {tier : TierCodec} {cap : Nat} {spillEnabled tierActive : Bool} {s s' : ImportSystem} {label : ImportLabel}

/-- The room after a step: no more is granted, or there is room under the target, or there is nothing in RAM. -/
inductive RoomStep (cap : Nat) (s s' : ImportSystem) : Prop
  | fewer (room : s'.inflight + s'.importer.granted ≤ s.inflight + s.importer.granted)
      (occupied : ∀ n, s'.importer.occupied = some n →
        s'.inflight ≤ s.inflight ∧ (s.importer.occupied = some n ∨ n = s.store.residentBytes + s.inflight))
  | fits {job} (inflight : s'.inflight = s.inflight) (importer : s'.importer = .placed job)
      (room : s.store.residentBytes + s.inflight + job.reserved ≤ tierImportSoftLimit cap)
  | first {job} (inflight : s'.inflight = s.inflight) (importer : s'.importer = .placed job) (about : s.importer.job = some job)
      (nothing : s.importer.occupied = some 0)

theorem forall_of_eq_none {α : Type*} {p : α → Prop} {o : Option α} (h : o = none) : ∀ a, o = some a → p a :=
  fun a ha => absurd (h.symm.trans ha) (Option.some_ne_none a).symm

/-- A step after which no block is without room. -/
theorem RoomStep.still (hroom : s'.inflight + s'.importer.granted ≤ s.inflight + s.importer.granted)
    (hoccupied : s'.importer.occupied = none) : RoomStep cap s s' :=
  .fewer hroom (forall_of_eq_none hoccupied)

/-- A step of the importer that leaves the stock as it is. -/
structure Goes (P : Puzzle) (cap : Nat) (s s' : ImportSystem) (label : ImportLabel) : Prop where
  store : s'.store = s.store
  settled : s'.settled = s.settled
  given : s'.given = s.given ∨ ∃ job, s.importer.job = some job ∧ s'.given = s.given ++ [job]
  job : ∀ job, s'.importer.job = some job → s.importer.job = some job ∨ ∃ id raw n, label = .push id raw ∧
    id.2 < s.store.store.spill.nbFiles ∧ stockTierCountRecords P raw = some n ∧ job = ⟨id, stockTierBlockCostBound raw.length, raw⟩
  room : RoomStep cap s s'

/-- What a step does to the stock: nothing, a block that the importer or a worker deals with, or a call of another thread. -/
inductive StockStep (P : Puzzle) (tier : TierCodec) (cap : Nat) (s s' : ImportSystem) : ImportLabel → Prop
  | goes {label : ImportLabel} (goes : Goes P cap s s' label) : StockStep P tier cap s s' label
  | here {job built} (importer : s.importer = .direct job)
      (result : s' = s.linkHereStep P tier job built) : StockStep P tier cap s s' (.linkHere built)
  | work {i} (store : s'.store = s.store) (settled : s'.settled = s.settled) (given : s'.given = s.given)
      (importer : s'.importer = s.importer) (inflight : s'.inflight ≤ s.inflight) : StockStep P tier cap s s' (.work i)
  | settle {i built files job} (settles : SettlesBlock P tier s s' i built files job) : StockStep P tier cap s s' (.settle i built files)
  | others {call} (result : s' = { s with store := s.store.call P tier call }) : StockStep P tier cap s s' (.others call)

/-- The importer goes from one place to another with its job. -/
theorem Goes.of_importer {importer : Importer} (hjob : ∀ job, importer.job = some job → s.importer.job = some job)
    (hroom : RoomStep cap s { s with importer }) : Goes P cap s { s with importer } label :=
  ⟨rfl, rfl, .inl rfl, fun job h => .inl (hjob job h), hroom⟩

theorem goStep_goes (h : s.goStep cap spillEnabled s.importer = some s') : Goes P cap s s' .go := by
  obtain ⟨store, nbWorkers, workers, inflight, importer, given, settled⟩ := s
  cases importer with
  | idle | full job inflight occupied | direct job =>
    cases h
  | looking job =>
    obtain rfl := Option.some.inj h
    exact .of_importer (fun _ => id) (.still (Nat.le_refl _) rfl)
  | seen job inflight =>
    obtain rfl := Option.some.inj h
    split
    · rename_i hroom
      exact .of_importer (fun _ => id) (.fits rfl rfl hroom)
    · refine .of_importer (fun _ => id) (.fewer (Nat.le_refl _) fun n hn => ?_)
      exact ⟨Nat.le_refl _, .inr (Option.some.inj hn).symm⟩
  | missed job inflight occupied =>
    dsimp only [goStep] at h
    split at h
    · obtain rfl := Option.some.inj h
      split
      · rename_i hnothing
        refine .of_importer (fun _ => id) (.first rfl rfl rfl ?_)
        rw [Importer.occupied, hnothing.2]
      · exact .of_importer (fun _ => id) (.still (Nat.le_refl _) rfl)
    · obtain rfl := Option.some.inj h
      exact .of_importer (fun _ => id) (.still (Nat.le_refl _) rfl)
  | waiting job start =>
    obtain ⟨-, h⟩ := Option.ite_none_left_eq_some.mp h
    obtain rfl := Option.some.inj h
    exact .of_importer (fun _ => id) (.still (Nat.le_refl _) rfl)
  | refusing job =>
    obtain ⟨-, h⟩ := Option.ite_none_left_eq_some.mp h
    obtain rfl := Option.some.inj h
    exact .of_importer (forall_of_eq_none rfl) (.still (Nat.le_refl _) rfl)
  | placed job =>
    obtain ⟨-, h⟩ := Option.ite_none_left_eq_some.mp h
    obtain rfl := Option.some.inj h
    exact .of_importer (fun _ => id) (.still (Nat.le_refl _) rfl)
  | enqueuing job =>
    obtain rfl := Option.some.inj h
    exact ⟨rfl, rfl, .inr ⟨job, rfl, rfl⟩, fun _ => .inl,
      .still (Nat.le_refl _) rfl⟩
  | queued job =>
    obtain ⟨-, h⟩ := Option.ite_none_left_eq_some.mp h
    obtain rfl := Option.some.inj h
    exact .of_importer (fun _ => id) (.still (Nat.le_refl _) rfl)
  | writing job slot =>
    obtain rfl := Option.some.inj h
    exact ⟨rfl, rfl, .inl rfl, fun _ => .inl, .still (Nat.le_refl _) rfl⟩
  | written job slot =>
    obtain rfl := Option.some.inj h
    exact ⟨rfl, rfl, .inl rfl, forall_of_eq_none rfl, .still (Nat.le_refl _) rfl⟩
  | stopping k =>
    dsimp only [goStep] at h
    split at h <;> obtain rfl := Option.some.inj h <;>
      exact ⟨rfl, rfl, .inl rfl, forall_of_eq_none rfl, .still (Nat.le_refl _) rfl⟩
  | joining k =>
    dsimp only [goStep] at h
    split at h
    · obtain ⟨-, h⟩ := Option.ite_none_right_eq_some.mp h
      obtain rfl := Option.some.inj h
      exact .of_importer (forall_of_eq_none rfl) (.still (Nat.le_refl _) rfl)
    · obtain rfl := Option.some.inj h
      exact ⟨rfl, rfl, .inl rfl, forall_of_eq_none rfl, .still (Nat.le_refl _) rfl⟩

/-- Everything that a step can do to the stock. -/
theorem step_cases (hs : s.Rings) (h : s.step P tier cap spillEnabled tierActive label = some s') :
    StockStep P tier cap s s' label := by
  obtain ⟨store, nbWorkers, workers, inflight, importer, given, settled⟩ := s
  cases label with
  | work i =>
    obtain ⟨hi, h⟩ := Option.ite_none_right_eq_some.mp h
    obtain ⟨⟨w, hchange⟩, hstore, hsettled, hinflight⟩ := workStep_change hs hi h
    exact .work hstore hsettled hchange.given hchange.importer hinflight
  | settle i built files =>
    obtain ⟨hi, h⟩ := Option.ite_none_right_eq_some.mp h
    obtain ⟨job, hsettles⟩ := settleStep_settles hs hi h
    exact .settle hsettles
  | others call => exact .others (Option.some.inj h).symm
  | go => exact .goes (goStep_goes (step_go.symm.trans h))
  | push id raw =>
    cases importer <;> try cases h
    have hstays : ∀ s : ImportSystem, Goes P cap s s (.push id raw) := fun s =>
      ⟨rfl, rfl, .inl rfl, fun job hjob => .inl hjob, .fewer (Nat.le_refl _) fun n hn => ⟨Nat.le_refl _, .inl hn⟩⟩
    refine .goes ?_
    unfold pushStep
    split
    · exact hstays _
    · rename_i hguard
      split
      · exact hstays _
      · rename_i n hcount
        refine ⟨rfl, rfl, .inl rfl, fun job hjob => .inr ⟨id, raw, n, rfl, ?_, hcount, (Option.some.inj hjob).symm⟩,
          .still (Nat.le_refl _) rfl⟩
        rw [not_or, not_or] at hguard
        exact Nat.lt_of_not_le hguard.2.2
  | tried moved =>
    cases importer <;> try cases h
    dsimp only [step, importerStep] at h
    refine .goes ?_
    split at h
    · obtain ⟨-, h⟩ := Option.ite_none_right_eq_some.mp h
      obtain rfl := Option.some.inj h
      exact .of_importer (fun _ => id) (.still (Nat.le_refl _) rfl)
    · obtain rfl := Option.some.inj h
      refine .of_importer (fun _ => id) (.fewer (Nat.le_refl _) fun n hn => ?_)
      exact ⟨Nat.le_refl _, .inl hn⟩
  | start started =>
    cases importer <;> try cases h
    obtain ⟨-, h⟩ := Option.ite_none_right_eq_some.mp h
    obtain rfl := Option.some.inj h
    refine .goes ⟨rfl, rfl, .inl rfl, fun j hj => .inl ?_, .fewer ?_ ?_⟩
    · dsimp only at hj
      split at hj <;> exact hj
    · dsimp only
      split <;> exact Nat.le_refl _
    · dsimp only
      split <;> exact forall_of_eq_none rfl
  | linkHere built =>
    cases importer <;> try cases h
    exact .here rfl rfl
  | scribble other =>
    cases importer <;> try cases h
    exact .goes ⟨rfl, rfl, .inl rfl, fun job hjob => .inl hjob, .fewer (Nat.le_refl _) fun n hn => ⟨Nat.le_refl _, .inl hn⟩⟩
  | finish =>
    cases importer <;> try cases h
    exact .goes (.of_importer (forall_of_eq_none rfl) (.still (Nat.le_refl _) rfl))

end Steps

end ImportSystem

/-! ## The invariants -/

section Invariants

variable (P : Puzzle) (tier : TierCodec)

/-- The steps of the importer in a call, and those of the workers. -/
def ImportLabel.Own : ImportLabel → Prop
  | .go | .tried _ | .start _ | .linkHere _ | .work _ | .settle _ _ _ => True
  | _ => False

/-- What a pool has got of the blocks that are dealt with. -/
def settledViews (settled : List (ImportJob × ImportFate)) (c : Bool) : Multiset (Option (Packet P)) :=
  (settled.map fun p => viewsIn P p.1.id.1 (p.2.kept (p.1.records P)) c).sum

/-- The records of the blocks of a stack that are dealt with, in their order. -/
def settledRecords (settled : List (ImportJob × ImportFate)) (id : StackId) : List (List Byte) :=
  (settled.filter fun p => p.1.id = id).flatMap fun p => p.1.records P

namespace ImportSystem

/-- The importer is between two calls, no worker is started, and no block has been taken. -/
structure Fresh (s : ImportSystem) : Prop where
  importer : s.importer = .idle
  nbWorkers : s.nbWorkers = 0
  inflight : s.inflight = 0
  given : s.given = []
  settled : s.settled = []

/-- A block that is handed over is made of records, and the other threads make the calls that they may make. -/
def Allowed (s : ImportSystem) : ImportLabel → Prop
  | .push _ raw => ∃ records : List (List Byte), (∀ r ∈ records, IsRecord P r) ∧ raw = records.flatten
  | .others call => s.store.Allowed call
  | _ => True

/-- Every block is allocated, and the other threads only send blocks to disk. -/
def Calm (s : ImportSystem) : ImportLabel → Prop
  | .push _ raw => ∃ records : List (List Byte), (∀ r ∈ records, IsRecord P r) ∧ raw = records.flatten
  | .linkHere built | .settle _ built _ => built = true
  | .others (.toDisk id _ _ _) => id.2 < s.store.store.spill.nbFiles
  | .others _ => False
  | _ => True

/-- The jobs are right, and each pool has what it had and the records that the blocks dealt with have brought. -/
structure Fills (start s : ImportSystem) : Prop where
  rings : s.Rings
  sound : s.store.Sound P tier
  nbFiles : s.store.store.spill.nbFiles = start.store.store.spill.nbFiles
  given : ∀ job ∈ s.given, job.Sound P start.store.store.spill.nbFiles
  job : ∀ job, s.importer.job = some job → job.Sound P start.store.store.spill.nbFiles
  pools : ∀ c, s.store.poolContents P tier c = start.store.poolContents P tier c + settledViews P s.settled c

/-- Each stack has what it had and then the records of its blocks, and the RAM is within the target. -/
structure Stacks (cap : Nat) (start s : ImportSystem) : Prop where
  lists : s.store.store.lists = start.store.store.lists
  stacked : ∀ id, s.store.stacked P tier id = start.store.stacked P tier id ++ settledRecords P s.settled id
  linked : ∀ p ∈ s.settled, p.2 = .linked
  room : s.store.residentBytes + s.inflight + s.importer.granted ≤
    max start.store.residentBytes (max (tierImportSoftLimit cap) (stockTierBlockCostBound stockTierBlockBytes))
  occupied : ∀ n, s.importer.occupied = some n → s.store.residentBytes + s.inflight ≤ n

variable {P tier} {cap : Nat} {spillEnabled tierActive : Bool} {start s s' : ImportSystem} {label : ImportLabel} {job : ImportJob}

theorem Calm.allowed (h : s.Calm P label) : s.Allowed P label := by
  cases label with
  | push id raw => exact h
  | others call =>
    cases call with
    | toDisk id allowPrepass maxPackets env => exact h
    | _ => exact h.elim
  | _ => trivial

theorem Fresh.rings (h : s.Fresh) : s.Rings := by
  have hnot : ∀ i, ¬ i < s.nbWorkers := fun i hi => absurd (h.nbWorkers ▸ hi) (Nat.not_lt_zero i)
  refine ⟨fun i hi => absurd hi (hnot i), ⟨fun i job hjob => ?_, fun id => ?_⟩, ?_, ?_, fun _ i hi => absurd hi (hnot i)⟩
  · have hnil : s.dispatch.queues i = [] := Rings.queue_of_none h.nbWorkers i
    rw [hnil] at hjob
    exact absurd hjob List.not_mem_nil
  · have hnil : s.dispatch.queues (s.owner id) = [] := Rings.queue_of_none h.nbWorkers _
    have hgiven : s.dispatch.given = [] := h.given
    have hdone : s.dispatch.done = [] := by
      unfold dispatch
      rw [h.settled, List.map_nil]
    rw [hnil, hgiven, hdone]
    rfl
  · rw [h.inflight]
    unfold reservedBytes
    rw [h.nbWorkers, h.importer, Finset.range_zero, Finset.sum_empty]
    rfl
  · rw [h.importer]
    trivial

theorem Fresh.fills (h : start.Fresh) (hsound : start.store.Sound P tier) : Fills P tier start start := by
  refine ⟨h.rings, hsound, rfl, fun job hjob => ?_, fun job hjob => ?_, fun c => ?_⟩
  · rw [h.given] at hjob
    exact absurd hjob List.not_mem_nil
  · rw [h.importer] at hjob
    cases hjob
  · rw [h.settled, settledViews, List.map_nil, List.sum_nil, add_zero]

theorem Fresh.stacks (h : start.Fresh) : Stacks P tier cap start start := by
  refine ⟨rfl, fun id => ?_, fun p hp => ?_, ?_, fun n hn => ?_⟩
  · rw [h.settled, settledRecords, List.filter_nil, List.flatMap_nil, List.append_nil]
  · rw [h.settled] at hp
    exact absurd hp List.not_mem_nil
  · rw [h.inflight, h.importer]
    exact Nat.le_max_left _ _
  · rw [h.importer] at hn
    cases hn

theorem settledViews_append (settled : List (ImportJob × ImportFate)) (job : ImportJob) (fate : ImportFate) (c : Bool) :
    settledViews P (settled ++ [(job, fate)]) c =
      settledViews P settled c + viewsIn P job.id.1 (fate.kept (job.records P)) c := by
  unfold settledViews
  rw [List.map_append, List.sum_append, List.map_singleton, List.sum_singleton]

theorem settledRecords_append (settled : List (ImportJob × ImportFate)) (job : ImportJob) (fate : ImportFate) (id : StackId) :
    settledRecords P (settled ++ [(job, fate)]) id =
      settledRecords P settled id ++ if id = job.id then job.records P else [] := by
  unfold settledRecords
  rw [List.filter_append, List.flatMap_append]
  congr 1
  by_cases heq : id = job.id
  · simp [heq]
  · have hne : ¬ job.id = id := fun h => heq h.symm
    simp [heq, hne]

/-- A job that is not dealt with has been taken. -/
theorem Rings.given_of_unsettled (hs : s.Rings) {i : Nat} (hi : i < s.nbWorkers) (hjob : job ∈ (s.workers i).unsettled) :
    job ∈ s.given := by
  have hqueue : job ∈ s.queue i := by
    unfold queue
    rw [if_pos hi]
    exact List.mem_append_left _ hjob
  have howner : s.owner job.id = i := hs.ordered.routed i job hqueue
  have hin : job ∈ (s.queue (s.owner job.id)).filter fun a => a.id = job.id :=
    List.mem_filter.mpr ⟨howner.symm ▸ hqueue, decide_eq_true rfl⟩
  have hgiven : job ∈ s.given.filter fun a => a.id = job.id := by
    have horder := hs.ordered.inOrder job.id
    unfold dispatch at horder
    rw [horder]
    exact List.mem_append_right _ hin
  exact (List.mem_filter.mp hgiven).1

/-- The job of a block that is taken is right. -/
theorem Allowed.sound {id : StackId} {raw : List Byte} {n nbFiles : Nat} (h : s.Allowed P (.push id raw)) (hid : id.2 < nbFiles)
    (hcount : stockTierCountRecords P raw = some n) :
    ImportJob.Sound P nbFiles ⟨id, stockTierBlockCostBound raw.length, raw⟩ := by
  obtain ⟨records, hrecords, rfl⟩ := h
  obtain ⟨hpos, hle, -⟩ := size_of_countRecords hcount
  have hread : ImportJob.records P ⟨id, stockTierBlockCostBound records.flatten.length, records.flatten⟩ = records := by
    unfold ImportJob.records
    rw [tierRecords_flatten hrecords, Option.getD_some]
  exact ⟨hid, rfl, ⟨hpos, hle⟩, fun r hr => hrecords r (hread ▸ hr), by rw [hread]⟩

theorem Fills.jobs_of_goes (hf : Fills P tier start s) (hallowed : s.Allowed P label) (h : Goes P cap s s' label) :
    (∀ job ∈ s'.given, job.Sound P start.store.store.spill.nbFiles) ∧
      ∀ job, s'.importer.job = some job → job.Sound P start.store.store.spill.nbFiles := by
  refine ⟨fun job hjob => ?_, fun job hjob => ?_⟩
  · obtain hgiven | ⟨new, hnew, hgiven⟩ := h.given
    · exact hf.given job (hgiven ▸ hjob)
    · rw [hgiven] at hjob
      obtain hjob | hjob := List.mem_append.mp hjob
      · exact hf.given job hjob
      · rw [List.mem_singleton.mp hjob]
        exact hf.job new hnew
  · obtain hold | ⟨id, raw, n, rfl, hid, hcount, rfl⟩ := h.job job hjob
    · exact hf.job job hold
    · exact hallowed.sound (hf.nbFiles ▸ hid) hcount

/-- A block that is dealt with where it is taken is linked, or it stays with the caller. -/
theorem linkHereStep_spec (hlaw : ∀ zstd, tier.zstd = some zstd → zstd.Lawful) (h : s.store.Sound P tier)
    (hjob : job.Sound P s.store.store.spill.nbFiles) (built : Bool) :
    (built = false ∧ s.linkHereStep P tier job built = { s with importer := .idle }) ∨
      ∃ store, LinksBlock P tier s.store store job.id (job.records P) ∧
        store.residentBytes ≤ s.store.residentBytes + job.reserved ∧
        s.linkHereStep P tier job built =
          { s with store, given := s.given ++ [job], settled := s.settled ++ [(job, .linked)], importer := .idle } := by
  unfold linkHereStep
  cases built with
  | true =>
    obtain ⟨fr, hbuild, -⟩ := hjob.build tier
    obtain ⟨hlinks, hroom⟩ := link_spec hlaw h hjob hbuild
    rw [if_pos rfl, hbuild]
    exact .inr ⟨_, hlinks, hroom, rfl⟩
  | false =>
    rw [if_neg Bool.false_ne_true]
    exact .inl ⟨rfl, rfl⟩

/-- Every step keeps what the pools have. -/
theorem Fills.step (hf : Fills P tier start s) (hlaw : ∀ zstd, tier.zstd = some zstd → zstd.Lawful) (hallowed : s.Allowed P label)
    (h : s.step P tier cap spillEnabled tierActive label = some s') : Fills P tier start s' := by
  have hrings := step_rings hf.rings h
  cases step_cases hf.rings h with
  | goes goes =>
    obtain ⟨hgiven, hjob⟩ := hf.jobs_of_goes hallowed goes
    refine ⟨hrings, ?_, ?_, hgiven, hjob, ?_⟩
    · rw [goes.store]
      exact hf.sound
    · rw [goes.store]
      exact hf.nbFiles
    · rw [goes.store, goes.settled]
      exact hf.pools
  | @here job built importer result =>
    have hjob : job.Sound P s.store.store.spill.nbFiles := hf.nbFiles ▸ hf.job job (by rw [importer]; rfl)
    obtain ⟨-, hstays⟩ | ⟨store, hlinks, -, hlinked⟩ := linkHereStep_spec hlaw hf.sound hjob built
    · rw [result, hstays] at hrings ⊢
      exact ⟨hrings, hf.sound, hf.nbFiles, hf.given, forall_of_eq_none rfl, hf.pools⟩
    · rw [result, hlinked] at hrings ⊢
      refine ⟨hrings, hlinks.sound, hlinks.nbFiles.trans hf.nbFiles, fun job' hjob' => ?_, forall_of_eq_none rfl, fun c => ?_⟩
      · obtain hjob' | hjob' := List.mem_append.mp hjob'
        · exact hf.given job' hjob'
        · rw [List.mem_singleton.mp hjob']
          exact hf.nbFiles ▸ hjob
      · dsimp only
        rw [hlinks.poolContents hjob.file, hf.pools, settledViews_append, add_assoc]
        rfl
  | work store settled given importer inflight =>
    refine ⟨hrings, ?_, ?_, ?_, ?_, ?_⟩
    · rw [store]
      exact hf.sound
    · rw [store]
      exact hf.nbFiles
    · rw [given]
      exact hf.given
    · rw [importer]
      exact hf.job
    · rw [store, settled]
      exact hf.pools
  | @settle i built files job settles =>
    obtain ⟨w, hchange⟩ := settles.change
    have hmem : job ∈ s.given := hf.rings.given_of_unsettled hchange.lt settles.mem
    have hjob : job.Sound P s.store.store.spill.nbFiles := hf.nbFiles ▸ hf.given job hmem
    obtain ⟨hsound, hnb, hpools, -⟩ := settleBlock_spec hlaw hf.sound hjob built files Prod.mk.eta.symm
    refine ⟨hrings, ?_, ?_, ?_, ?_, fun c => ?_⟩
    · rw [settles.store]
      exact hsound
    · rw [settles.store]
      exact hnb.trans hf.nbFiles
    · rw [hchange.given]
      exact hf.given
    · rw [hchange.importer]
      exact hf.job
    · rw [settles.store, settles.settled, hpools, hf.pools, settledViews_append, add_assoc]
  | others result =>
    subst result
    obtain ⟨hkeeps, -⟩ := TieredStore.call_keeps hlaw hf.sound hallowed
    refine ⟨hrings, hkeeps.sound, hkeeps.nbFiles.trans hf.nbFiles, hf.given, hf.job, fun c => ?_⟩
    rw [← hf.pools]
    exact hkeeps.poolContents c

/-- A block that is linked is stacked, and counted behind those that were. -/
theorem Stacks.links (hs : Stacks P tier cap start s) (hlinks : LinksBlock P tier s.store s'.store job.id (job.records P))
    (hsettled : s'.settled = s.settled ++ [(job, .linked)])
    (hroom : s'.store.residentBytes + s'.inflight + s'.importer.granted ≤ s.store.residentBytes + s.inflight + s.importer.granted)
    (hoccupied : ∀ n, s'.importer.occupied = some n → s'.store.residentBytes + s'.inflight ≤ n) :
    Stacks P tier cap start s' := by
  refine ⟨hlinks.lists.trans hs.lists, fun id => ?_, fun p hp => ?_, hroom.trans hs.room, hoccupied⟩
  · rw [hsettled, hlinks.stacked, hs.stacked, settledRecords_append, List.append_assoc]
  · rw [hsettled] at hp
    obtain hp | hp := List.mem_append.mp hp
    · exact hs.linked p hp
    · rw [List.mem_singleton.mp hp]

/-- A step of the importer that reserves no more than what is left, or the first block. -/
theorem Stacks.goes (hs : Stacks P tier cap start s) (hf : Fills P tier start s) (goes : Goes P cap s s' label) :
    Stacks P tier cap start s' := by
  have hroom := hs.room
  refine ⟨?_, ?_, ?_, ?_, fun n hn => ?_⟩
  · rw [goes.store]
    exact hs.lists
  · rw [goes.store, goes.settled]
    exact hs.stacked
  · rw [goes.settled]
    exact hs.linked
  · rw [goes.store]
    cases goes.room with
    | fewer room occupied => omega
    | @fits job inflight importer room =>
      rw [inflight, importer]
      exact Nat.le_trans room (Nat.le_trans (Nat.le_max_left _ _) (Nat.le_max_right _ _))
    | @first job inflight importer about nothing =>
      have hjob := hf.job job about
      have hnone := hs.occupied 0 nothing
      have hcost : job.reserved ≤ stockTierBlockCostBound stockTierBlockBytes := by
        rw [hjob.reserved]
        exact Nat.add_le_add_right (Nat.add_le_add_left hjob.size.2 _) _
      rw [inflight, importer]
      have hgranted : (Importer.placed job).granted = job.reserved := rfl
      refine Nat.le_trans ?_ (Nat.le_trans (Nat.le_max_right _ _) (Nat.le_max_right _ _))
      omega
  · rw [goes.store]
    cases goes.room with
    | fewer room occupied =>
      obtain ⟨hle, hsame | hnow⟩ := occupied n hn
      · exact Nat.le_trans (Nat.add_le_add_left hle _) (hs.occupied n hsame)
      · rw [hnow]
        exact Nat.add_le_add_left hle _
    | fits inflight importer room =>
      rw [importer] at hn
      cases hn
    | first inflight importer about nothing =>
      rw [importer] at hn
      cases hn

/-- Every step of a calm import keeps the order of the stacks and stays within the target. -/
theorem Stacks.step (hs : Stacks P tier cap start s) (hf : Fills P tier start s)
    (hlaw : ∀ zstd, tier.zstd = some zstd → zstd.Lawful) (hcalm : s.Calm P label)
    (h : s.step P tier cap spillEnabled tierActive label = some s') : Stacks P tier cap start s' := by
  have hroom := hs.room
  cases step_cases hf.rings h with
  | goes goes => exact hs.goes hf goes
  | @here job built importer result =>
    have hjob : job.Sound P s.store.store.spill.nbFiles := hf.nbFiles ▸ hf.job job (by rw [importer]; rfl)
    obtain ⟨hfalse, -⟩ | ⟨store, hlinks, hbytes, hlinked⟩ := linkHereStep_spec hlaw hf.sound hjob built
    · exact absurd (hfalse.symm.trans hcalm) Bool.false_ne_true
    · rw [result, hlinked]
      refine hs.links hlinks rfl ?_ (forall_of_eq_none rfl)
      have hgranted : (Importer.direct job).granted = job.reserved := rfl
      have hidle : Importer.idle.granted = 0 := rfl
      dsimp only
      rw [importer, hgranted, hidle]
      omega
  | work store settled given importer inflight =>
    refine ⟨?_, ?_, ?_, ?_, fun n hn => ?_⟩
    · rw [store]
      exact hs.lists
    · rw [store, settled]
      exact hs.stacked
    · rw [settled]
      exact hs.linked
    · rw [store, importer]
      omega
    · rw [importer] at hn
      rw [store]
      exact Nat.le_trans (Nat.add_le_add_left inflight _) (hs.occupied n hn)
  | @settle i built files job settles =>
    obtain ⟨w, hchange⟩ := settles.change
    have hjob : job.Sound P s.store.store.spill.nbFiles :=
      hf.nbFiles ▸ hf.given job (hf.rings.given_of_unsettled hchange.lt settles.mem)
    obtain ⟨-, -, -, hlinks, hfate⟩ := settleBlock_spec hlaw hf.sound hjob built files Prod.mk.eta.symm
    have hlinked := hfate hcalm
    obtain ⟨hlinks, hbytes⟩ := hlinks hlinked
    have hinflight := settles.inflight
    have hreserved := settles.reserved
    have hsettled := settles.settled
    rw [if_pos hlinked] at hinflight
    rw [hlinked] at hsettled
    rw [← settles.store] at hlinks hbytes
    refine hs.links hlinks hsettled ?_ fun n hn => ?_
    · rw [hchange.importer]
      omega
    · rw [hchange.importer] at hn
      have hbefore := hs.occupied n hn
      omega
  | @others call result =>
    subst result
    cases call with
    | toDisk id allowPrepass maxPackets env =>
      have hlowered : Lowered P tier s.store (s.store.call P tier (.toDisk id allowPrepass maxPackets env)) :=
        toDiskLoop_lowered allowPrepass maxPackets env hf.sound hcalm _ _
      have hbytes := hlowered.resident
      refine ⟨hlowered.lists.trans hs.lists, fun id' => ?_, hs.linked, ?_, fun n hn => ?_⟩
      · dsimp only
        rw [hlowered.stacked, hs.stacked]
      · dsimp only
        omega
      · exact Nat.le_trans (Nat.add_le_add_right hbytes _) (hs.occupied n hn)
    | _ => exact hcalm.elim

/-- A worker that has a job, or has been told to stop, has a step to take. -/
theorem worker_moves {i : Nat} (hi : i < s.nbWorkers) (hready : 0 < (s.workers i).ring.count ∨ (s.workers i).stop = true)
    (hended : (s.workers i).stage ≠ .ended) :
    ∃ label, label.Own ∧ (s.step P tier cap spillEnabled tierActive label).isSome := by
  have hwork : s.step P tier cap spillEnabled tierActive (.work i) = s.workStep i := if_pos hi
  have hsettle : s.step P tier cap spillEnabled tierActive (.settle i false none) = s.settleStep P tier i false none := if_pos hi
  cases hstage : (s.workers i).stage with
  | waiting =>
    refine ⟨.work i, trivial, ?_⟩
    rw [hwork]
    unfold workStep
    simp only [hstage]
    split
    · rfl
    · rename_i hcount
      rw [if_pos (hready.resolve_left hcount)]
      rfl
  | holding =>
    refine ⟨.settle i false none, trivial, ?_⟩
    rw [hsettle]
    unfold settleStep
    simp only [if_pos hstage]
    split <;> rfl
  | listed =>
    refine ⟨.work i, trivial, ?_⟩
    rw [hwork]
    unfold workStep
    simp only [hstage, Option.isSome_some]
  | settled =>
    refine ⟨.work i, trivial, ?_⟩
    rw [hwork]
    unfold workStep
    simp only [hstage, Option.isSome_some]
  | ended => exact absurd hstage hended

/-- When bytes are reserved and no job is in hand, a worker has a job. -/
theorem Rings.exists_busy (hs : s.Rings) (hinHand : s.importer.inHand = none) (hpos : 0 < s.inflight) :
    ∃ i < s.nbWorkers, 0 < (s.workers i).ring.count := by
  rw [hs.inflight] at hpos
  unfold reservedBytes at hpos
  rw [hinHand, Option.map_none, Option.getD_none, add_zero] at hpos
  obtain ⟨i, hi, hsum⟩ := Finset.exists_ne_zero_of_sum_ne_zero (Nat.ne_of_gt hpos)
  refine ⟨i, Finset.mem_range.mp hi, Nat.pos_of_ne_zero fun hzero => hsum ?_⟩
  have hnil : (s.workers i).ring.toList importQueueDepth = [] := by
    rw [← List.length_eq_zero_iff, RingBuffer.length_toList, hzero]
  unfold ImportWorker.reserving
  rw [hnil]
  cases (s.workers i).stage <;> rfl

/-- The importer never waits for ever: while it is in a call, it or a worker has a step to take. -/
theorem Rings.progress (hs : s.Rings) (hbusy : s.importer ≠ .idle) :
    ∃ label, label.Own ∧ (s.step P tier cap spillEnabled tierActive label).isSome := by
  have hwaits : s.importer.inHand = none → 0 < s.inflight →
      ∃ label, label.Own ∧ (s.step P tier cap spillEnabled tierActive label).isSome := by
    intro hinHand hpos
    obtain ⟨i, hi, hcount⟩ := hs.exists_busy hinHand hpos
    refine worker_moves hi (.inl hcount) fun hended => ?_
    rw [((hs.fits i hi).ended hended).1] at hcount
    exact Nat.lt_irrefl 0 hcount
  have hgoes : (s.goStep cap spillEnabled s.importer).isSome →
      ∃ label, label.Own ∧ (s.step P tier cap spillEnabled tierActive label).isSome := by
    intro hgo
    refine ⟨.go, trivial, ?_⟩
    rw [step_go]
    exact hgo
  have hright := hs.importer
  obtain ⟨store, nbWorkers, workers, inflight, importer, given, settled⟩ := s
  cases importer with
  | idle => exact absurd rfl hbusy
  | looking job | seen job inflight | enqueuing job | writing job slot | written job slot => exact hgoes rfl
  | missed job inflight occupied =>
    refine hgoes ?_
    dsimp only [goStep]
    split <;> rfl
  | stopping k =>
    refine hgoes ?_
    dsimp only [goStep]
    split <;> rfl
  | full job inflight occupied => exact ⟨.tried false, trivial, rfl⟩
  | direct job =>
    refine ⟨.linkHere false, trivial, ?_⟩
    rfl
  | waiting job start =>
    by_cases hwait : inflight > 0 ∧ inflight = start
    · exact hwaits rfl hwait.1
    · refine hgoes ?_
      rw [goStep, if_neg hwait]
      rfl
  | refusing job =>
    by_cases hwait : inflight > 0
    · exact hwaits rfl hwait
    · refine hgoes ?_
      rw [goStep, if_neg hwait]
      rfl
  | placed job =>
    by_cases hnone : nbWorkers = 0
    · refine ⟨.start 0, trivial, ?_⟩
      change (importerStep P tier cap spillEnabled tierActive _ (.placed job) (.start 0)).isSome
      rw [importerStep, if_pos ⟨hnone, Nat.zero_le _⟩]
      rfl
    · refine hgoes ?_
      rw [goStep, if_neg hnone]
      rfl
  | queued job =>
    by_cases hfull : (workers (job.id.2 % nbWorkers)).ring.count ≥ importQueueDepth
    · have hcount : 0 < (workers (job.id.2 % nbWorkers)).ring.count := Nat.lt_of_lt_of_le (by decide) hfull
      have howner : job.id.2 % nbWorkers < nbWorkers := Nat.mod_lt _ hright
      refine worker_moves howner (.inl hcount) fun hended => ?_
      rw [((hs.fits _ howner).ended hended).1] at hcount
      exact Nat.lt_irrefl 0 hcount
    · exact hgoes (Option.isSome_iff_exists.mpr ⟨_, if_neg hfull⟩)
  | joining k =>
    by_cases hk : k < nbWorkers
    · by_cases hended : (workers k).stage = .ended
      · refine hgoes ?_
        rw [goStep, if_pos hk, if_pos hended]
        rfl
      · exact worker_moves hk (.inr (hright.1 k hk)) hended
    · refine hgoes ?_
      rw [goStep, if_neg hk]
      rfl

theorem run_fills (hlaw : ∀ zstd, tier.zstd = some zstd → zstd.Lawful) (hfresh : start.Fresh) (hsound : start.store.Sound P tier)
    (hrun : Run (ImportSystem.step P tier cap spillEnabled tierActive) (Allowed P) start s) : Fills P tier start s :=
  hrun.invariant (hfresh.fills hsound) fun hf hallowed hstep => hf.step hlaw hallowed hstep

theorem run_stacks (hlaw : ∀ zstd, tier.zstd = some zstd → zstd.Lawful) (hfresh : start.Fresh) (hsound : start.store.Sound P tier)
    (hrun : Run (ImportSystem.step P tier cap spillEnabled tierActive) (Calm P) start s) :
    Fills P tier start s ∧ Stacks P tier cap start s :=
  hrun.invariant (I := fun s => Fills P tier start s ∧ Stacks P tier cap start s) ⟨hfresh.fills hsound, hfresh.stacks⟩
    fun hs hcalm hstep => ⟨hs.1.step hlaw hcalm.allowed hstep, hs.2.step hs.1 hlaw hcalm hstep⟩

theorem Rings.all_settled (hs : s.Rings) (hnone : s.nbWorkers = 0) (id : StackId) :
    s.given.filter (fun job => job.id = id) = (s.settled.map Prod.fst).filter fun job => job.id = id :=
  hs.ordered.of_empty (fun i => Rings.queue_of_none hnone i) id

/-- An import that has not begun, over two records in a list. -/
def importStart : ImportSystem where
  store := TieredStore.twoListedIn 2
  nbWorkers := 0
  workers := fun _ => ⟨⟨fun _ => ⟨(false, 0), 0, []⟩, 0, 0⟩, false, .waiting⟩
  inflight := 0
  importer := .idle
  given := []
  settled := []

/-- A block of one record goes through a worker and to disk, one of two records for the other file goes through
another worker, and the import is finished. In a calm run the second block is linked; otherwise only its first
record comes to a list. -/
def importLabels (calm : Bool) : List ImportLabel :=
  [.push (false, 0) TieredStore.firstRecord, .go, .go, .start 2, .go, .go, .go, .go, .work 0, .settle 0 true none, .work 0,
    .push (false, 1) (TieredStore.firstRecord ++ TieredStore.secondRecord), .go, .go, .go, .go,
    .others (.toDisk (false, 0) true 1 fun _ => allOpen), .go, .go, .go, .work 1] ++
  (if calm then [.settle 1 true none] else [.settle 1 false (some fun n => if n = 0 then some 1 else none), .work 1]) ++
  [.work 1, .finish, .go, .go, .go, .work 0, .work 1, .go, .go, .go]

/-- What these labels do is allowed. -/
def importTest (calm : Bool) (s : ImportSystem) : ImportLabel → Bool
  | .push _ raw => raw = TieredStore.firstRecord || raw = TieredStore.firstRecord ++ TieredStore.secondRecord
  | .linkHere built | .settle _ built _ => built || !calm
  | .others (.toDisk id _ _ _) => id.2 < s.store.store.spill.nbFiles
  | .others _ => false
  | _ => true

/-- The import after them. -/
def imported (calm : Bool) : ImportSystem :=
  (Run.exec (Run.guarded (importTest calm) (ImportSystem.step .p16 ⟨none, false⟩ 10000 true true)) importStart
    (importLabels calm)).getD importStart

theorem importStart_fresh : importStart.Fresh := ⟨rfl, rfl, rfl, rfl, rfl⟩

theorem importTest_records {raw : List Byte}
    (h : raw = TieredStore.firstRecord ∨ raw = TieredStore.firstRecord ++ TieredStore.secondRecord) :
    ∃ records : List (List Byte), (∀ r ∈ records, IsRecord .p16 r) ∧ raw = records.flatten := by
  rcases h with rfl | rfl
  · exact ⟨[TieredStore.firstRecord], by simpa using TieredStore.isRecord_first, by simp⟩
  · exact ⟨[TieredStore.firstRecord, TieredStore.secondRecord],
      by simpa using ⟨TieredStore.isRecord_first, TieredStore.isRecord_second⟩, by simp⟩

theorem imported_run {ok : ImportSystem → ImportLabel → Prop} {calm : Bool}
    (hok : ∀ s label, importTest calm s label = true → ok s label) :
    Run (ImportSystem.step .p16 ⟨none, false⟩ 10000 true true) ok importStart (imported calm) := by
  have hsome : (Run.exec (Run.guarded (importTest calm) (ImportSystem.step .p16 ⟨none, false⟩ 10000 true true)) importStart
      (importLabels calm)).isSome := by
    cases calm <;> decide +kernel
  obtain ⟨s, hs⟩ := Option.isSome_iff_exists.mp hsome
  unfold imported
  rw [hs, Option.getD_some]
  exact Run.of_exec_guarded hok hs

/-- Whatever the threads do, the blocks of a file are dealt with in the order in which they are taken, and all
of them are when the import is over; the pools have got their records and nothing else, the counters are
right, and the importer never waits for ever. -/
theorem import_right (hlaw : ∀ zstd, tier.zstd = some zstd → zstd.Lawful) (hfresh : start.Fresh)
    (hsound : start.store.Sound P tier)
    (hrun : Run (ImportSystem.step P tier cap spillEnabled tierActive) (Allowed P) start s) :
    (∀ id, s.given.filter (fun job => job.id = id) = (s.settled.map Prod.fst).filter (fun job => job.id = id) ++
        (s.queue (s.owner id)).filter fun job => job.id = id) ∧
      (s.nbWorkers = 0 → ∀ id,
        s.given.filter (fun job => job.id = id) = (s.settled.map Prod.fst).filter fun job => job.id = id) ∧
      (∀ c, s.store.poolContents P tier c = start.store.poolContents P tier c + settledViews P s.settled c) ∧
      s.store.Accounted P tier ∧
      (s.importer ≠ .idle → ∃ label, label.Own ∧ (s.step P tier cap spillEnabled tierActive label).isSome) := by
  have hfills := run_fills hlaw hfresh hsound hrun
  exact ⟨hfills.rings.ordered.inOrder, hfills.rings.all_settled, hfills.pools, hfills.sound.accounted, hfills.rings.progress⟩

/-- Two blocks of two files, of which the second is not allocated and loses a record. -/
theorem import_right_two : (imported false).settled.map Prod.snd = [.linked, .listed [true, false]] ∧
    (∀ id, (imported false).given.filter (fun job => job.id = id) =
      ((imported false).settled.map Prod.fst).filter fun job => job.id = id) ∧
    ∀ c, (imported false).store.poolContents .p16 ⟨none, false⟩ c =
      importStart.store.poolContents .p16 ⟨none, false⟩ c + settledViews .p16 (imported false).settled c := by
  have hlaw : ∀ zstd, (⟨none, false⟩ : TierCodec).zstd = some zstd → zstd.Lawful := fun zstd h => absurd h (by simp)
  have hrun : Run (ImportSystem.step .p16 ⟨none, false⟩ 10000 true true) (Allowed .p16) importStart (imported false) := by
    refine imported_run fun s label htest => ?_
    cases label with
    | push id raw => exact importTest_records (by simpa [importTest] using htest)
    | others call =>
      cases call with
      | toDisk id allowPrepass maxPackets env => simpa [importTest, Allowed, TieredStore.Allowed] using htest
      | _ => cases htest
    | _ => trivial
  obtain ⟨-, hsettled, hpools, -⟩ := import_right hlaw importStart_fresh (TieredStore.twoListedIn_sound 2 _) hrun
  exact ⟨by decide +kernel, hsettled (by decide +kernel), hpools⟩

/-- While every block is allocated and the other threads only send blocks to disk, each stack grows by the
records of its blocks, in the order in which they are dealt with, and the RAM stays within the target of the
import, or within one block where that is more. -/
theorem import_calm (hlaw : ∀ zstd, tier.zstd = some zstd → zstd.Lawful) (hfresh : start.Fresh)
    (hsound : start.store.Sound P tier)
    (hrun : Run (ImportSystem.step P tier cap spillEnabled tierActive) (Calm P) start s) :
    (∀ id, s.store.stacked P tier id = start.store.stacked P tier id ++ settledRecords P s.settled id) ∧
      (s.nbWorkers = 0 → ∀ id, s.store.stacked P tier id = start.store.stacked P tier id ++
        (s.given.filter fun job => job.id = id).flatMap fun job => job.records P) ∧
      s.store.store.lists = start.store.store.lists ∧ (∀ p ∈ s.settled, p.2 = .linked) ∧
      s.store.residentBytes + s.inflight ≤
        max start.store.residentBytes (max (tierImportSoftLimit cap) (stockTierBlockCostBound stockTierBlockBytes)) := by
  obtain ⟨hfills, hstacks⟩ := run_stacks hlaw hfresh hsound hrun
  refine ⟨hstacks.stacked, fun hnone id => ?_, hstacks.lists, hstacks.linked, Nat.le_trans (Nat.le_add_right _ _) hstacks.room⟩
  rw [hstacks.stacked, hfills.rings.all_settled hnone, List.filter_map, List.flatMap_map]
  rfl

/-- Two blocks of two files, of which the first goes to disk before the second is taken. -/
theorem import_calm_two :
    frameSeq .p16 ⟨none, false⟩ (diskFrames (imported true).store.store.spill (false, 0)) = [TieredStore.firstRecord] ∧
    (imported true).store.stacked .p16 ⟨none, false⟩ (false, 0) = [TieredStore.firstRecord] ∧
    (imported true).store.stacked .p16 ⟨none, false⟩ (false, 1) = [TieredStore.firstRecord, TieredStore.secondRecord] ∧
    (imported true).store.store.lists (false, 0) = [TieredStore.firstRecord, TieredStore.secondRecord] := by
  have hlaw : ∀ zstd, (⟨none, false⟩ : TierCodec).zstd = some zstd → zstd.Lawful := fun zstd h => absurd h (by simp)
  have hrun : Run (ImportSystem.step .p16 ⟨none, false⟩ 10000 true true) (Calm .p16) importStart (imported true) := by
    refine imported_run fun s label htest => ?_
    cases label with
    | push id raw => exact importTest_records (by simpa [importTest] using htest)
    | linkHere built | settle i built files => exact (Bool.or_eq_true_iff.mp htest).resolve_right Bool.false_ne_true
    | others call =>
      cases call with
      | toDisk id allowPrepass maxPackets env => simpa [importTest, Calm] using htest
      | _ => cases htest
    | _ => trivial
  obtain ⟨hstacked, -, hlists, -⟩ := import_calm hlaw importStart_fresh (TieredStore.twoListedIn_sound 2 _) hrun
  refine ⟨by decide +kernel, ?_, ?_, ?_⟩
  · rw [hstacked]
    decide +kernel
  · rw [hstacked]
    decide +kernel
  · rw [hlists]
    rfl

end ImportSystem

end Invariants
