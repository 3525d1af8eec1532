-- SUMMARY: Moves between list, tier and disk keep the order of the records, unless a reload takes more than one block.
import EternityII.Spill.TierCounts

/-!
# The order of a stack

From the bottom of the disk over the tier to the end of the list, the records of a pool and file are
one sequence. What a call takes at one end of a container it puts at the neighbouring end of another,
so that the sequence stays. A reload takes the blocks of the tier from the top and puts each behind
the one before: it keeps the order when it takes one, and turns the blocks round when it takes more.
-/

/-! ## The sequence of records -/

section Sequence

variable (P : Puzzle) (tier : TierCodec)

namespace TieredStore

/-- The records of a pool and file: on disk and on the tier from the bottom to the top, in the list
from the head to the end. -/
def sequence (s : TieredStore) (id : StackId) : List (List Byte) :=
  frameSeq P tier (diskFrames s.store.spill id) ++ frameSeq P tier (s.store.tier id).frames ++ s.store.lists id

/-- The packets of the records up to their scores. -/
def contents (s : TieredStore) (id : StackId) : List (Option (Packet P)) :=
  (s.sequence P tier id).map fun record => (recordPacket P record).map Packet.unscored

/-- The lists and the frames hold records, and the counters count them. -/
structure Sound (s : TieredStore) : Prop where
  lists : ∀ id, ∀ r ∈ s.store.lists id, IsRecord P r
  tierPacks : ∀ id, ∀ fr ∈ (s.store.tier id).frames, ∃ records, fr.Packs P tier records
  disk : SpillRefines True s.store.spill fun c f => diskFrames s.store.spill (c, f)
  diskPacks : ∀ id, ∀ fr ∈ diskFrames s.store.spill id, ∃ records, fr.Packs P tier records
  count : s.count.Counts P tier s.store.spill.nbFiles fun id => (s.store.tier id).frames

end TieredStore

end Sequence

/-! ## What a round keeps -/

namespace TieredStore

/-- A step keeps what the counters say, and the contents up to a relation. -/
structure Keeps (P : Puzzle) (tier : TierCodec) (rel : List (Option (Packet P)) → List (Option (Packet P)) → Prop)
    (s s' : TieredStore) : Prop where
  sound : s'.Sound P tier
  nbFiles : s'.store.spill.nbFiles = s.store.spill.nbFiles
  each : ∀ id, rel (s'.contents P tier id) (s.contents P tier id)

section Rounds

variable {P : Puzzle} {tier : TierCodec} {s s' s'' : TieredStore} {id : StackId} {maxPackets moved nbFiles : Nat}
  {lower : List TierBlock} {top : TierBlock} {records : List (List Byte)}
  {rel : List (Option (Packet P)) → List (Option (Packet P)) → Prop}

theorem Keeps.refl (hrel : Equivalence rel) (h : s.Sound P tier) : Keeps P tier rel s s := ⟨h, rfl, fun _ => hrel.refl _⟩

theorem Keeps.trans (hrel : Equivalence rel) (h : Keeps P tier rel s s') (h' : Keeps P tier rel s' s'') :
    Keeps P tier rel s s'' :=
  ⟨h'.sound, h'.nbFiles.trans h.nbFiles, fun id => hrel.trans (h'.each id) (h.each id)⟩

theorem Keeps.perm (h : Keeps P tier Eq s s') : Keeps P tier List.Perm s s' :=
  ⟨h.sound, h.nbFiles, fun id => by rw [h.each id]⟩

theorem Keeps.of_sequence (sound : s'.Sound P tier) (nbFiles : s'.store.spill.nbFiles = s.store.spill.nbFiles)
    (each : ∀ id, s'.sequence P tier id = s.sequence P tier id) : Keeps P tier Eq s s' :=
  ⟨sound, nbFiles, fun id => by rw [contents, each, contents]⟩

/-- The frames when one stack is replaced. -/
theorem frames_update (tiers : StackId → TierStack) (id : StackId) (stack : TierStack) :
    (fun id' => (Function.update tiers id stack id').frames) =
      Function.update (fun id' => (tiers id').frames) id stack.frames := by
  funext id'
  by_cases heq : id' = id
  · rw [heq, Function.update_self, Function.update_self]
  · rw [Function.update_of_ne heq, Function.update_of_ne heq]

/-- What every round keeps, a call keeps. -/
theorem moveLoop_keeps (hrel : Equivalence rel) {round : TieredStore → Nat → Round}
    (hround : ∀ s moved, s.Sound P tier → s.store.spill.nbFiles = nbFiles → Keeps P tier rel s (round s moved).store)
    (h : s.Sound P tier) (hnb : s.store.spill.nbFiles = nbFiles) (fuel moved : Nat) :
    Keeps P tier rel s (moveLoop round maxPackets fuel moved s).1 := by
  induction fuel generalizing moved s with
  | zero => exact .refl hrel h
  | succ fuel ih =>
    rw [moveLoop]
    split
    · have hfirst := hround s moved h hnb
      dsimp only
      split
      · exact hfirst.trans hrel (ih hfirst.sound (hfirst.nbFiles.trans hnb) _)
      · exact hfirst
    · exact .refl hrel h

/-- A round of `tier_evict` takes the head of the list to the top of the tier. -/
theorem evictRound_keeps (hlaw : ∀ zstd, tier.zstd = some zstd → zstd.Lawful) (h : s.Sound P tier)
    (hid : id.2 < s.store.spill.nbFiles) : Keeps P tier Eq s (evictRound P tier id maxPackets s moved).store := by
  obtain ⟨hfile, hsize⟩ := Store.drainHead_spec (maxPackets - moved) stockTierBlockBytes (s.store.lists id)
  unfold evictRound Store.evict
  dsimp only
  generalize drainHead (maxPackets - moved) stockTierBlockBytes (s.store.lists id) = drained at hfile hsize ⊢
  by_cases hnone : drained.1 = []
  · simp only [if_pos hnone]
    exact .of_sequence h rfl fun _ => rfl
  · have hdrained : ∀ r ∈ drained.1, IsRecord P r := fun r hr => h.lists id r (by
      rw [hfile]
      exact List.mem_append_left _ hr)
    obtain ⟨fr, hbuild⟩ : ∃ fr, stockTierBlockBuild P tier drained.1.flatten = some fr :=
      stockTierBlockBuild_flatten hdrained hnone hsize
    have hpacks := stockTierBlockBuild_packs hlaw hdrained hbuild
    simp only [if_neg hnone, hbuild, hpacks.count, if_true]
    refine .of_sequence ⟨fun id' r hr => ?_, fun id' fr' hfr' => ?_, h.disk, h.diskPacks, ?_⟩ rfl fun id' => ?_
    · dsimp only [Store.link] at hr
      by_cases heq : id' = id
      · rw [heq, Function.update_self] at hr
        refine h.lists id r ?_
        rw [hfile]
        exact List.mem_append_right _ hr
      · rw [Function.update_of_ne heq] at hr
        exact h.lists id' r hr
    · dsimp only [Store.link] at hfr'
      by_cases heq : id' = id
      · rw [heq, Function.update_self, Store.frames_link] at hfr'
        rcases List.mem_append.mp hfr' with hfr' | hfr'
        · exact h.tierPacks id fr' hfr'
        · rw [List.mem_singleton.mp hfr']
          exact ⟨_, hpacks⟩
      · rw [Function.update_of_ne heq] at hfr'
        exact h.tierPacks id' fr' hfr'
    · dsimp only [Store.link]
      rw [frames_update, Store.frames_link]
      exact h.count.link hid hpacks
    · unfold sequence
      dsimp only [Store.link]
      by_cases heq : id' = id
      · rw [heq, Function.update_self, Function.update_self, Store.frames_link, frameSeq_append, frameSeq_singleton,
          hpacks.frameRecs_eq]
        conv_rhs => rw [hfile]
        simp only [List.append_assoc]
      · rw [Function.update_of_ne heq, Function.update_of_ne heq]

/-- The top block goes to the end of the list. -/
structure TopMoved (P : Puzzle) (tier : TierCodec) (id : StackId) (s s' : TieredStore) (lower : List TierBlock) (top : TierBlock)
    (records : List (List Byte)) : Prop where
  blocks : (s.store.tier id).blocks = lower ++ [top]
  packs : top.frame.Packs P tier records
  lists : s'.store.lists = Function.update s.store.lists id (s.store.lists id ++ records)
  tier : s'.store.tier = Function.update s.store.tier id ((s.store.tier id).remove top.seq)
  spill : s'.store.spill = s.store.spill
  count : s'.count = s.count.remove id top.frame

/-- A round of `tier_reload` moves the top block, or nothing. -/
theorem reloadRound_cases (h : s.Sound P tier) (hid : id.2 < s.store.spill.nbFiles) (stopCount stopBytes : Nat) :
    reloadRound P tier id stopCount stopBytes s = ⟨s, 0, false⟩ ∨
      ∃ s' lower top records, reloadRound P tier id stopCount stopBytes s = ⟨s', records.length, true⟩ ∧
        TopMoved P tier id s s' lower top records := by
  unfold reloadRound Store.tierReload
  by_cases hgo : s.poolListCount id.1 < stopCount ∧ s.poolResidentBytes id.1 < stopBytes
  · rw [if_pos hgo, if_pos hid]
    cases htop : (s.store.tier id).blocks.getLast? with
    | none => exact .inl rfl
    | some top =>
      obtain ⟨lower, hblocks⟩ := List.getLast?_eq_some_iff.mp htop
      obtain ⟨records, hpacks⟩ := h.tierPacks id top.frame (List.mem_map.mpr ⟨top, by rw [hblocks]; simp, rfl⟩)
      dsimp only
      rw [hpacks.records_eq]
      exact .inr ⟨_, lower, top, records, rfl, hblocks, hpacks, rfl, rfl, rfl, rfl⟩
  · rw [if_neg hgo]
    exact .inl rfl

theorem TopMoved.left (h : TopMoved P tier id s s' lower top records) : (s'.store.tier id).blocks = lower := by
  have hordered := (s.store.tier id).ordered
  rw [h.blocks] at hordered
  rw [h.tier, Function.update_self]
  show eraseSeq top.seq (s.store.tier id).blocks = lower
  rw [h.blocks, eraseSeq_split hordered, List.append_nil]

/-- The sequence then has the records of the block behind those of the list. -/
theorem TopMoved.sequence (h : TopMoved P tier id s s' lower top records) (id' : StackId) :
    if id' = id then
      s.sequence P tier id = frameSeq P tier (diskFrames s.store.spill id) ++ frameSeq P tier (lower.map TierBlock.frame) ++
          (records ++ s.store.lists id) ∧
        s'.sequence P tier id = frameSeq P tier (diskFrames s.store.spill id) ++ frameSeq P tier (lower.map TierBlock.frame) ++
          (s.store.lists id ++ records)
    else s'.sequence P tier id' = s.sequence P tier id' := by
  split
  · refine ⟨?_, ?_⟩
    · unfold TieredStore.sequence TierStack.frames
      rw [h.blocks, List.map_append, List.map_singleton, frameSeq_append, frameSeq_singleton, h.packs.frameRecs_eq]
      simp only [List.append_assoc]
    · unfold TieredStore.sequence TierStack.frames
      rw [h.left, h.spill, h.lists, Function.update_self]
  · rename_i hne
    unfold TieredStore.sequence
    rw [h.spill, h.lists, h.tier, Function.update_of_ne hne, Function.update_of_ne hne]

theorem TopMoved.sound (h : TopMoved P tier id s s' lower top records) (hs : s.Sound P tier)
    (hid : id.2 < s.store.spill.nbFiles) : s'.Sound P tier := by
  refine ⟨fun id' r hr => ?_, fun id' fr hfr => ?_, ?_, ?_, ?_⟩
  · rw [h.lists] at hr
    by_cases heq : id' = id
    · rw [heq, Function.update_self] at hr
      rcases List.mem_append.mp hr with hr | hr
      · exact hs.lists id r hr
      · exact h.packs.isRecord r hr
    · rw [Function.update_of_ne heq] at hr
      exact hs.lists id' r hr
  · by_cases heq : id' = id
    · refine hs.tierPacks id fr ?_
      obtain ⟨b, hb, rfl⟩ := List.mem_map.mp hfr
      rw [heq, h.left] at hb
      exact List.mem_map.mpr ⟨b, by rw [h.blocks]; exact List.mem_append_left _ hb, rfl⟩
    · rw [h.tier, Function.update_of_ne heq] at hfr
      exact hs.tierPacks id' fr hfr
  · rw [h.spill]
    exact hs.disk
  · rw [h.spill]
    exact hs.diskPacks
  · have hframes : (s.store.tier id).frames = lower.map TierBlock.frame ++ top.frame :: [] := by
      unfold TierStack.frames
      rw [h.blocks, List.map_append, List.map_singleton]
    have hleft : ((s.store.tier id).remove top.seq).frames = lower.map TierBlock.frame ++ [] := by
      have hblocks := h.left
      rw [h.tier, Function.update_self] at hblocks
      unfold TierStack.frames
      rw [hblocks, List.append_nil]
    rw [h.count, h.spill, h.tier, frames_update, hleft]
    exact hs.count.remove hid h.packs hframes

/-- A block moved behind the list turns the two round. -/
theorem TopMoved.keeps_perm (h : TopMoved P tier id s s' lower top records) (hs : s.Sound P tier)
    (hid : id.2 < s.store.spill.nbFiles) : Keeps P tier List.Perm s s' := by
  refine ⟨h.sound hs hid, by rw [h.spill], fun id' => List.Perm.map _ ?_⟩
  have hsequence := h.sequence id'
  by_cases heq : id' = id
  · rw [if_pos heq] at hsequence
    obtain ⟨hbefore, hafter⟩ := hsequence
    rw [heq, hbefore, hafter]
    exact List.Perm.append_left _ List.perm_append_comm
  · rw [if_neg heq] at hsequence
    rw [hsequence]

/-- A block moved to an empty list stays where it was. -/
theorem TopMoved.keeps (h : TopMoved P tier id s s' lower top records) (hs : s.Sound P tier)
    (hid : id.2 < s.store.spill.nbFiles) (hempty : s.store.lists id = []) : Keeps P tier Eq s s' := by
  refine .of_sequence (h.sound hs hid) (by rw [h.spill]) fun id' => ?_
  have hsequence := h.sequence id'
  by_cases heq : id' = id
  · rw [if_pos heq] at hsequence
    obtain ⟨hbefore, hafter⟩ := hsequence
    rw [heq, hbefore, hafter, hempty, List.append_nil, List.nil_append]
  · rw [if_neg heq] at hsequence
    exact hsequence

/-- Outside a pass, a batch is taken from the bottom. -/
theorem exists_diskBatch (s : TieredStore) (id : StackId) (allowPrepass : Bool) (wanted : Nat) :
    ∃ rest, (s.store.tier id).blocks = s.diskBatch id false allowPrepass wanted ++ rest := by
  unfold diskBatch
  cases hcandidate : tierDiskCandidate id.1 false allowPrepass (s.store.tier id) with
  | none => exact ⟨_, (List.nil_append _).symm⟩
  | some seq =>
    have hhead : (s.store.tier id).blocks.head?.map TierBlock.seq = some seq := by
      rw [← hcandidate, tierDiskCandidate, if_pos (by simp)]
    obtain ⟨b, hb, rfl⟩ := Option.map_eq_some_iff.mp hhead
    obtain ⟨post, hblocks⟩ := List.head?_eq_some_iff.mp hb
    have hordered := (s.store.tier id).ordered
    rw [hblocks, ← List.nil_append (b :: post)] at hordered
    have hdrop : (s.store.tier id).blocks.dropWhile (fun b' => decide (b'.seq ≠ b.seq)) = (s.store.tier id).blocks := by
      rw [hblocks]
      exact dropWhile_split hordered
    obtain ⟨rest, hrest⟩ := tierDiskBatch_prefix tierDiskBatchBlocks wanted (s.store.tier id).blocks
    dsimp only
    rw [hdrop]
    exact ⟨rest, hrest.symm⟩

/-- The blocks that are written go from the tier to the disk. -/
structure BottomMoved (id : StackId) (s s' : TieredStore) (gone left : List TierBlock) : Prop where
  blocks : (s.store.tier id).blocks = gone ++ left
  left : (s'.store.tier id).blocks = left
  others : ∀ id', id' ≠ id → s'.store.tier id' = s.store.tier id'
  lists : s'.store.lists = s.store.lists
  disk : SpillRefines True s'.store.spill fun c f => diskFrames s'.store.spill (c, f)
  grown : ∀ id', diskFrames s'.store.spill id' =
    diskFrames s.store.spill id' ++ if id' = id then gone.map TierBlock.frame else []
  nbFiles : s'.store.spill.nbFiles = s.store.spill.nbFiles
  count : s'.count = gone.foldl (fun n b => n.remove id b.frame) s.count

/-- The frames on disk are those of the stacks that the spill refines. -/
theorem diskFrames_of_refines {counted : Prop} {spill : Spill} {st : Stacks} (h : SpillRefines counted spill st) :
    (fun c f => diskFrames spill (c, f)) = st := by
  funext c f
  obtain ⟨segs, hflat, hholds, -⟩ := h.kept c f
  exact (Holds.diskFrames_eq hholds).trans hflat

theorem toDiskRound_moved (h : s.Sound P tier) (allowPrepass : Bool) (env : Nat → AppendEnv) :
    ∃ gone left, BottomMoved id s (toDiskRound id false allowPrepass maxPackets env s moved).store gone left := by
  obtain ⟨rest, hblocks⟩ := exists_diskBatch s id allowPrepass (maxPackets - moved)
  unfold toDiskRound Store.toDisk tierToDisk
  unfold diskBatch at hblocks ⊢
  rcases Option.eq_none_or_eq_some (tierDiskCandidate id.1 false allowPrepass (s.store.tier id)) with
    hcandidate | ⟨seq, hcandidate⟩
  · simp only [hcandidate] at hblocks ⊢
    refine ⟨[], (s.store.tier id).blocks, rfl, by simp, fun id' hne => by simp [Function.update_of_ne hne], rfl, h.disk,
      fun id' => ?_, rfl, rfl⟩
    by_cases heq : id' = id
    · rw [if_pos heq]
      simp
    · rw [if_neg heq]
      simp
  · simp only [hcandidate] at hblocks ⊢
    generalize tierDiskBatch tierDiskBatchBlocks (maxPackets - moved)
      ((s.store.tier id).blocks.dropWhile fun b => decide (b.seq ≠ seq)) = batch at hblocks ⊢
    have hvalid : ∀ fr ∈ batch.map TierBlock.frame, fr.Valid := by
      intro fr hfr
      obtain ⟨b, -, rfl⟩ := List.mem_map.mp hfr
      exact b.valid
    obtain ⟨st', hstep, hdisk⟩ := @spillStep_refines P tier True s.store.spill _ h.disk
      (.append id.1 id.2 (batch.map TierBlock.frame) hvalid (env moved)) fun _ => trivial
    unfold spillStep at hstep hdisk
    dsimp only at hstep hdisk
    generalize spillAppendFrames s.store.spill.fs id.1 id.2 (s.store.spill.desc id.1 id.2) s.store.spill.segmentRecords
      (batch.map TierBlock.frame) (env moved) = r at hstep hdisk ⊢
    generalize hresult : (SpillResult.committed r.2.2 : SpillResult P) = result at hstep
    cases hstep with
    | append hle =>
      have hn := SpillResult.committed.inj hresult
      subst hn
      have hsplit : (s.store.tier id).blocks = [] ++ batch.take r.2.2 ++ (batch.drop r.2.2 ++ rest) := by
        rw [hblocks, List.nil_append, ← List.append_assoc, List.take_append_drop]
      obtain ⟨hleft, -, -⟩ := foldl_remove hsplit
      have hframes := diskFrames_of_refines hdisk
      refine ⟨batch.take r.2.2, batch.drop r.2.2 ++ rest, hsplit, ?_, fun id' hne => Function.update_of_ne hne _ _, rfl,
        ?_, fun id' => ?_, rfl, rfl⟩
      · dsimp only
        rw [Function.update_self, hleft, List.nil_append]
      · rw [hframes]
        exact hdisk
      · refine (congrFun (congrFun hframes id'.1) id'.2).trans ?_
        by_cases heq : id' = id
        · rw [heq, Stacks.set_self, if_pos rfl, List.map_take]
        · rw [Stacks.set_of_ne _ _ fun hand => heq (Prod.ext hand.1 hand.2), if_neg heq, List.append_nil]

/-- Counters when blocks are removed from the bottom one by one. -/
theorem counts_foldl_remove {gone left : List TierBlock} {n : TierCount} {frames : StackId → List StoredFrame}
    (h : n.Counts P tier nbFiles frames) (hid : id.2 < nbFiles) (hframes : frames id = (gone ++ left).map TierBlock.frame)
    (hpacks : ∀ fr ∈ frames id, ∃ records, fr.Packs P tier records) :
    (gone.foldl (fun n b => n.remove id b.frame) n).Counts P tier nbFiles
      (Function.update frames id (left.map TierBlock.frame)) := by
  induction gone generalizing n frames with
  | nil =>
    rw [List.nil_append] at hframes
    rw [← hframes, Function.update_eq_self]
    exact h
  | cons b gone ih =>
    have hcons : frames id = [] ++ b.frame :: (gone ++ left).map TierBlock.frame := by
      rw [hframes, List.cons_append, List.map_cons, List.nil_append]
    obtain ⟨records, hpacks₁⟩ := hpacks b.frame (by rw [hcons]; simp)
    have hnext := ih (h.remove hid hpacks₁ hcons) (by rw [Function.update_self, List.nil_append]) fun fr hfr => by
      rw [Function.update_self, List.nil_append] at hfr
      exact hpacks fr (by rw [hcons]; exact List.mem_cons_of_mem _ hfr)
    rw [Function.update_idem] at hnext
    exact hnext

theorem BottomMoved.frames {gone left : List TierBlock} (h : BottomMoved id s s' gone left) :
    (fun id' => (s'.store.tier id').frames) =
      Function.update (fun id' => (s.store.tier id').frames) id (left.map TierBlock.frame) := by
  funext id'
  by_cases heq : id' = id
  · rw [heq, Function.update_self, TierStack.frames, h.left]
  · rw [Function.update_of_ne heq, h.others id' heq]

/-- What is written stays in its place: it goes from the bottom of the tier to the top of the disk. -/
theorem BottomMoved.keeps {gone left : List TierBlock} (h : BottomMoved id s s' gone left) (hs : s.Sound P tier)
    (hid : id.2 < s.store.spill.nbFiles) : Keeps P tier Eq s s' := by
  have hbefore : (s.store.tier id).frames = (gone ++ left).map TierBlock.frame := by
    rw [TierStack.frames, h.blocks]
  have hafter : (s'.store.tier id).frames = left.map TierBlock.frame := by
    rw [TierStack.frames, h.left]
  refine .of_sequence ⟨fun id' r hr => ?_, fun id' fr hfr => ?_, h.disk, fun id' fr hfr => ?_, ?_⟩ h.nbFiles fun id' => ?_
  · rw [h.lists] at hr
    exact hs.lists id' r hr
  · by_cases heq : id' = id
    · refine hs.tierPacks id fr ?_
      rw [heq, hafter] at hfr
      rw [hbefore, List.map_append]
      exact List.mem_append_right _ hfr
    · rw [h.others id' heq] at hfr
      exact hs.tierPacks id' fr hfr
  · rw [h.grown] at hfr
    rcases List.mem_append.mp hfr with hfr | hfr
    · exact hs.diskPacks id' fr hfr
    · obtain ⟨heq, hfr⟩ : id' = id ∧ fr ∈ gone.map TierBlock.frame := by
        by_cases heq : id' = id
        · rw [if_pos heq] at hfr
          exact ⟨heq, hfr⟩
        · rw [if_neg heq] at hfr
          exact absurd hfr List.not_mem_nil
      refine hs.tierPacks id fr ?_
      rw [hbefore, List.map_append]
      exact List.mem_append_left _ hfr
  · rw [h.count, h.nbFiles, h.frames]
    exact counts_foldl_remove hs.count hid hbefore (hs.tierPacks id)
  · unfold TieredStore.sequence
    rw [h.grown, h.lists]
    by_cases heq : id' = id
    · rw [if_pos heq, heq, hafter, hbefore, List.map_append, frameSeq_append, frameSeq_append]
      simp only [List.append_assoc]
    · rw [if_neg heq, List.append_nil, h.others id' heq]

end Rounds

end TieredStore

/-! ## Records that are read and written again -/

section Reread

variable {P : Puzzle} {tier : TierCodec} {p q : Packet P} {record : List Byte} {records : List (List Byte)}

/-- The canonical form of a packet and that of what it is read as differ in the score only. -/
theorem Canonical.unscored_eq {q' : Packet P} (h : Canonical p q) (h' : Canonical q.unscored q') :
    q'.unscored = q.unscored := by
  have halloc : q'.alloc = q.alloc := UInt16.toNat_inj.mp (by rw [h'.alloc, h.alloc, ← h.grid]; rfl)
  have hgrid : q'.grid = q.grid := h'.grid
  have hx : q'.x = q.x := h'.x
  have hy : q'.y = q.y := h'.y
  have hchecked : q'.checked = q.checked := by
    have hflag : q'.checked = if q.checked ≠ 0 then 1 else 0 := h'.checked
    rw [hflag, h.checked]
    by_cases hzero : p.checked = 0 <;> simp [hzero]
  have hfaces : q'.bFaceused = q.bFaceused := by
    refine Words.eq_of_bit (by decide) fun i => ?_
    have hface := h'.faceUsed i
    rw [show q.unscored.grid = p.grid from h.grid, ← h.faceUsed i] at hface
    exact Bool.eq_iff_iff.mpr hface
  unfold Packet.unscored
  rw [halloc, hgrid, hx, hy, hchecked, hfaces]

/-- A record read and encoded again without its score is read as the same packet. -/
theorem IsRecord.reread (h : IsRecord P record) (hread : recordPacket P record = some q) :
    ∃ record', recordOf q.unscored = some record' ∧ IsRecord P record' ∧
      (recordPacket P record').map Packet.unscored = some q.unscored := by
  obtain ⟨p, hp⟩ := h
  have hencodable : p.Encodable := encodable_iff.mpr (by rw [hp]; rfl)
  obtain ⟨record₁, q₁, hrecord₁, hread₁, hcanonical⟩ := recordPacket_recordOf hencodable
  obtain rfl : record₁ = record := Option.some.inj (hrecord₁.symm.trans hp)
  obtain rfl : q₁ = q := Option.some.inj (hread₁.symm.trans hread)
  have hagain : q₁.unscored.Encodable := hencodable.of_grid hcanonical.grid
  obtain ⟨record', q', hrecord', hread', hcanonical'⟩ := recordPacket_recordOf hagain
  refine ⟨record', hrecord', ⟨_, hrecord'⟩, ?_⟩
  rw [hread', Option.map_some, hcanonical.unscored_eq hcanonical']

/-- Packets read from records go into a list as records of the same packets. -/
theorem relisted (h : ∀ r ∈ records, IsRecord P r) {packets : List (Packet P)}
    (hread : records.mapM (recordPacket P) = some packets) :
    (∀ r ∈ (packets.map Packet.unscored).filterMap recordOf, IsRecord P r) ∧
      ((packets.map Packet.unscored).filterMap recordOf).map (fun r => (recordPacket P r).map Packet.unscored) =
        records.map fun r => (recordPacket P r).map Packet.unscored := by
  induction records generalizing packets with
  | nil =>
    obtain rfl : [] = packets := by simpa using hread
    exact ⟨fun r hr => absurd hr List.not_mem_nil, rfl⟩
  | cons record records ih =>
    rw [List.mapM_cons] at hread
    obtain ⟨first, hfirst, rest, hrest, rfl⟩ : ∃ first, recordPacket P record = some first ∧
        ∃ rest, records.mapM (recordPacket P) = some rest ∧ first :: rest = packets := by
      simpa [Option.bind_eq_some_iff] using hread
    obtain ⟨record', hrecord', hisRecord, hagain⟩ := (h record List.mem_cons_self).reread hfirst
    obtain ⟨hall, hsame⟩ := ih (fun r hr => h r (List.mem_cons_of_mem _ hr)) hrest
    rw [List.map_cons, List.filterMap_cons_some hrecord', List.map_cons, List.map_cons, hagain, hsame, hfirst]
    exact ⟨List.forall_mem_cons.mpr ⟨hisRecord, hall⟩, rfl⟩

/-- The packets of frames are those of their records. -/
theorem mapM_frameSeq {frames : List StoredFrame} {packets : List (Packet P)}
    (hpacks : ∀ fr ∈ frames, ∃ records, fr.Packs P tier records) (h : framesPackets P tier frames = some packets) :
    (frameSeq P tier frames).mapM (recordPacket P) = some packets := by
  induction frames generalizing packets with
  | nil =>
    obtain rfl := Option.some.inj (framesPackets_nil.symm.trans h)
    rfl
  | cons fr frames ih =>
    obtain ⟨first, rest, hfirst, hrest, rfl⟩ := framesPackets_cons h
    obtain ⟨records, hrecords⟩ := hpacks fr List.mem_cons_self
    have htail := ih (fun fr' hfr' => hpacks fr' (List.mem_cons_of_mem _ hfr')) hrest
    have hhead : (frameRecs P tier fr).mapM (recordPacket P) = some first := by
      obtain ⟨raw, hraw, hdecode⟩ := Option.bind_eq_some_iff.mp hfirst
      obtain rfl : raw = records.flatten := Option.some.inj (hraw.symm.trans hrecords.raw)
      obtain ⟨records', hrecords', hpackets⟩ := Option.bind_eq_some_iff.mp hdecode
      obtain rfl : records = records' :=
        Option.some.inj ((tierRecords_flatten hrecords.isRecord).symm.trans hrecords')
      rw [hrecords.frameRecs_eq]
      exact hpackets
    have hsplit : frameSeq P tier (fr :: frames) = frameRecs P tier fr ++ frameSeq P tier frames := rfl
    rw [hsplit, List.mapM_append, hhead, htail]
    rfl

end Reread

/-! ## What a call keeps -/

namespace TieredStore

section Calls

variable {P : Puzzle} {tier : TierCodec} {s s' : TieredStore} {id : StackId} {maxPackets stopCount stopBytes : Nat}

theorem stockSpillReload_nbFiles {spill : Spill} {c : Bool} {f : Nat} {env : ReloadEnv} :
    (stockSpillReload P tier spill c f maxPackets env).1.nbFiles = spill.nbFiles := by
  have hread : (reloadRead P tier spill c f maxPackets env).1.nbFiles = spill.nbFiles := by
    unfold reloadRead
    dsimp only
    split <;> rfl
  unfold stockSpillReload
  cases hplan : reloadRead P tier spill c f maxPackets env with
  | mk spill' plan =>
    rw [hplan] at hread
    cases plan with
    | none => exact hread
    | some plan => exact hread

/-- A reload from disk into an empty list, under an empty tier, keeps the contents. -/
theorem spillReload_keeps (h : s.Sound P tier) {env : ReloadEnv} (hscans : env.commitScans = true)
    (hlist : s.store.lists id = []) (htier : (s.store.tier id).blocks = []) :
    Keeps P tier Eq s (s.spillReload P tier id maxPackets env).1 := by
  obtain ⟨st', hstep, hdisk⟩ := @spillStep_refines P tier True s.store.spill _ h.disk
    (.reload id.1 id.2 maxPackets env) fun _ => hscans
  have hnb : (stockSpillReload P tier s.store.spill id.1 id.2 maxPackets env).1.nbFiles = s.store.spill.nbFiles :=
    stockSpillReload_nbFiles
  unfold spillReload Store.diskReload
  unfold spillStep at hstep hdisk
  dsimp only at hstep hdisk ⊢
  generalize stockSpillReload P tier s.store.spill id.1 id.2 maxPackets env = r at hstep hdisk hnb ⊢
  generalize hresult : (SpillResult.reloaded r.2 : SpillResult P) = result at hstep
  cases hstep with
  | reload hst htaken =>
    rename_i kept taken packets
    have hlisted : r.2 = packets.map Packet.unscored := SpillResult.reloaded.inj hresult
    have hframes := diskFrames_of_refines hdisk
    have hsplit : diskFrames s.store.spill id = kept ++ taken := hst
    have hpacks : ∀ fr ∈ taken, ∃ records, fr.Packs P tier records := fun fr hfr =>
      h.diskPacks id fr (by rw [hsplit]; exact List.mem_append_right _ hfr)
    have hread := mapM_frameSeq hpacks htaken
    have hrecords : ∀ r ∈ frameSeq P tier taken, IsRecord P r := by
      intro r hr
      obtain ⟨fr, hfr, hr⟩ := List.mem_flatMap.mp hr
      obtain ⟨records, hrecords⟩ := hpacks fr hfr
      exact hrecords.isRecord_frameRecs r hr
    obtain ⟨hall, hsame⟩ := relisted hrecords hread
    have hdiskOf : ∀ id', diskFrames r.1 id' = if id' = id then kept else diskFrames s.store.spill id' := by
      intro id'
      refine (congrFun (congrFun hframes id'.1) id'.2).trans ?_
      by_cases heq : id' = id
      · rw [heq, Stacks.set_self, if_pos rfl]
      · rw [Stacks.set_of_ne _ _ fun hand => heq (Prod.ext hand.1 hand.2), if_neg heq]
    refine ⟨⟨fun id' r' hr' => ?_, h.tierPacks, ?_, fun id' fr hfr => ?_, ?_⟩, hnb, fun id' => ?_⟩
    · dsimp only at hr'
      by_cases heq : id' = id
      · rw [heq, Function.update_self, foldl_poolPut, hlisted] at hr'
        rcases List.mem_append.mp hr' with hr' | hr'
        · exact h.lists id r' hr'
        · exact hall r' hr'
      · rw [Function.update_of_ne heq] at hr'
        exact h.lists id' r' hr'
    · dsimp only
      rw [hframes]
      exact hdisk
    · dsimp only at hfr
      rw [hdiskOf] at hfr
      by_cases heq : id' = id
      · rw [if_pos heq] at hfr
        exact h.diskPacks id fr (by rw [hsplit]; exact List.mem_append_left _ hfr)
      · rw [if_neg heq] at hfr
        exact h.diskPacks id' fr hfr
    · dsimp only
      rw [hnb]
      exact h.count
    · unfold contents sequence
      dsimp only
      rw [hdiskOf]
      by_cases heq : id' = id
      · have hnone : (s.store.tier id).frames = [] := by rw [TierStack.frames, htier, List.map_nil]
        rw [if_pos heq, heq, Function.update_self, foldl_poolPut, hlisted, hlist, hnone, hsplit, frameSeq_append,
          List.nil_append, List.append_nil]
        simp only [List.map_append, hsame, frameSeq, List.flatMap_nil, List.append_nil]
      · rw [if_neg heq, Function.update_of_ne heq]

theorem fileBytes_eq (file : PoolFile) :
    (file.map List.length).sum + file.length * elementOverheadBytes = (file.map recordBytes).sum := by
  have hfile := sum_fileBytes [file]
  simpa using hfile

/-- The pool has the block more in its lists. -/
theorem TopMoved.pool {lower : List TierBlock} {top : TierBlock} {records : List (List Byte)}
    (h : TopMoved P tier id s s' lower top records) (hid : id.2 < s.store.spill.nbFiles) :
    s'.poolListCount id.1 = s.poolListCount id.1 + records.length ∧
      s'.poolResidentBytes id.1 = s.poolResidentBytes id.1 + (records.map recordBytes).sum := by
  have hlists : (fun f => s'.store.lists (id.1, f)) =
      Function.update (fun f => s.store.lists (id.1, f)) id.2 (s.store.lists id ++ records) := by
    funext f
    rw [h.lists]
    by_cases heq : f = id.2
    · rw [heq, Function.update_self, Function.update_self]
    · rw [Function.update_of_ne heq, Function.update_of_ne fun hpair => heq (congrArg Prod.snd hpair)]
  have hmem := Finset.mem_range.mpr hid
  unfold poolListCount poolResidentBytes
  simp only [fileBytes_eq]
  rw [h.spill]
  refine ⟨?_, ?_⟩
  · have hsum := sum_update_of_add hmem List.length (fun f => s.store.lists (id.1, f)) (a := s.store.lists id ++ records)
      (m := records.length) List.length_append
    rw [← hlists] at hsum
    exact hsum
  · have hsum := sum_update_of_add hmem (fun file => (file.map recordBytes).sum) (fun f => s.store.lists (id.1, f))
      (a := s.store.lists id ++ records) (m := (records.map recordBytes).sum) (by rw [List.map_append, List.sum_append])
    rw [← hlists] at hsum
    exact hsum

theorem moveLoop_stop {round : TieredStore → Nat → Round} {moved : Nat} (h : round s moved = ⟨s, 0, false⟩) (fuel : Nat) :
    (moveLoop round maxPackets fuel moved s).1 = s := by
  cases fuel with
  | zero => rfl
  | succ fuel =>
    rw [moveLoop, h]
    split <;> rfl

theorem reloadRound_stop (h : stopCount ≤ s.poolListCount id.1 ∨ stopBytes ≤ s.poolResidentBytes id.1 ∨
    (s.store.tier id).blocks = []) : reloadRound P tier id stopCount stopBytes s = ⟨s, 0, false⟩ := by
  unfold reloadRound
  by_cases hgo : s.poolListCount id.1 < stopCount ∧ s.poolResidentBytes id.1 < stopBytes
  · have hempty : (s.store.tier id).blocks = [] := by
      rcases h with h | h | h
      · exact absurd hgo.1 (Nat.not_lt.mpr h)
      · exact absurd hgo.2 (Nat.not_lt.mpr h)
      · exact h
    rw [if_pos hgo, hempty]
    split
    · rfl
    · rename_i hsome
      exact absurd hsome (by simp)
  · exact if_neg hgo

/-- A reload of the tier takes no more than one block: there is not another one, or the call then has
what it asks for, or the pool what it stops at. -/
def ReloadsOne (P : Puzzle) (tier : TierCodec) (s : TieredStore) (id : StackId) (maxPackets stopCount stopBytes : Nat) :
    Prop :=
  ∀ lower top, (s.store.tier id).blocks = lower ++ [top] → lower = [] ∨ maxPackets ≤ top.frame.info.records ∨
    stopCount ≤ s.poolListCount id.1 + top.frame.info.records ∨
    stopBytes ≤ s.poolResidentBytes id.1 + ((frameRecs P tier top.frame).map recordBytes).sum

/-- A reload of one block into an empty list keeps the contents. -/
theorem reload_keeps (h : s.Sound P tier) (hid : id.2 < s.store.spill.nbFiles) (hlist : s.store.lists id = [])
    (hone : s.ReloadsOne P tier id maxPackets stopCount stopBytes) :
    Keeps P tier Eq s (s.reload P tier id maxPackets stopCount stopBytes).1 := by
  unfold reload
  cases maxPackets with
  | zero => exact .of_sequence h rfl fun _ => rfl
  | succ n =>
    rw [moveLoop, if_pos (Nat.succ_pos n)]
    rcases reloadRound_cases h hid stopCount stopBytes with hstop | ⟨s', lower, top, records, hround, hmoved⟩
    · rw [hstop]
      exact .of_sequence h rfl fun _ => rfl
    · rw [hround]
      dsimp only
      obtain ⟨hcount, hbytes⟩ := hmoved.pool hid
      have hstay : (moveLoop (fun s _ => reloadRound P tier id stopCount stopBytes s) (n + 1) n (0 + records.length) s').1 =
          s' := by
        have hreloads := hone lower top hmoved.blocks
        rw [hmoved.packs.count, hmoved.packs.frameRecs_eq, ← hcount, ← hbytes] at hreloads
        rcases hreloads with hlower | hmax | hstop
        · exact moveLoop_stop (reloadRound_stop (.inr (.inr (hmoved.left.trans hlower)))) n
        · cases n with
          | zero => rfl
          | succ n => rw [moveLoop, if_neg (by omega)]
        · exact moveLoop_stop (reloadRound_stop (hstop.imp_right .inl)) n
      rw [if_pos rfl, hstay]
      exact hmoved.keeps h hid hlist

/-- A reload of the tier neither loses nor duplicates a record, whatever it takes. -/
theorem reload_perm (h : s.Sound P tier) (hid : id.2 < s.store.spill.nbFiles) :
    Keeps P tier List.Perm s (s.reload P tier id maxPackets stopCount stopBytes).1 := by
  refine moveLoop_keeps (List.Perm.eqv _) (fun s' _ hs hnb => ?_) h rfl _ _
  rcases reloadRound_cases hs (hnb ▸ hid) stopCount stopBytes with hstop | ⟨s'', lower, top, records, hround, hmoved⟩
  · rw [hstop]
    exact .refl (List.Perm.eqv _) hs
  · rw [hround]
    exact hmoved.keeps_perm hs (hnb ▸ hid)

end Calls

end TieredStore

/-! ## Runs of calls -/

/-- A call outside a pass, with what its calls of the system do. -/
inductive TierCall where
  | evict (id : StackId) (maxPackets : Nat)
  | toDisk (id : StackId) (allowPrepass : Bool) (maxPackets : Nat) (env : Nat → AppendEnv)
  | reload (id : StackId) (maxPackets stopCount stopBytes : Nat)
  | spillReload (id : StackId) (maxPackets : Nat) (env : ReloadEnv)

namespace TieredStore

/-- The stock after a call. -/
def call (P : Puzzle) (tier : TierCodec) (s : TieredStore) : TierCall → TieredStore
  | .evict id maxPackets => (s.evict P tier id maxPackets).1
  | .toDisk id allowPrepass maxPackets env => (s.toDisk id false allowPrepass maxPackets env).1
  | .reload id maxPackets stopCount stopBytes => (s.reload P tier id maxPackets stopCount stopBytes).1
  | .spillReload id maxPackets env => (s.spillReload P tier id maxPackets env).1

/-- The reloads are made while the list is empty, that from disk while the tier is empty too, and the
scan of a segment that becomes the top again finds its file. -/
def Allowed (s : TieredStore) : TierCall → Prop
  | .evict id _ => id.2 < s.store.spill.nbFiles
  | .toDisk id _ _ _ => id.2 < s.store.spill.nbFiles
  | .reload id _ _ _ => id.2 < s.store.spill.nbFiles ∧ s.store.lists id = []
  | .spillReload id _ env => id.2 < s.store.spill.nbFiles ∧ s.store.lists id = [] ∧ (s.store.tier id).blocks = [] ∧
      env.commitScans = true

/-- A call that is a reload of the tier takes one block. -/
def TakesOne (P : Puzzle) (tier : TierCodec) (s : TieredStore) : TierCall → Prop
  | .reload id maxPackets stopCount stopBytes => s.ReloadsOne P tier id maxPackets stopCount stopBytes
  | _ => True

/-- The counters of the tier and of the disk are those of the contents. -/
structure Accounted (P : Puzzle) (tier : TierCodec) (s : TieredStore) : Prop where
  count : s.count.Counts P tier s.store.spill.nbFiles fun id => (s.store.tier id).frames
  disk : ∀ id, SpillStack s.store.spill id.1 id.2 (diskFrames s.store.spill id)
  packets : ∀ id, (s.store.spill.desc id.1 id.2).packets = (frameSeq P tier (diskFrames s.store.spill id)).length

section Runs

variable {P : Puzzle} {tier : TierCodec} {s s' : TieredStore}

theorem framesRecords_eq {frames : List StoredFrame} (h : ∀ fr ∈ frames, ∃ records, fr.Packs P tier records) :
    framesRecords frames = (frameSeq P tier frames).length := by
  induction frames with
  | nil => rfl
  | cons fr frames ih =>
    obtain ⟨records, hrecords⟩ := h fr List.mem_cons_self
    have hrest := ih fun fr' hfr' => h fr' (List.mem_cons_of_mem _ hfr')
    have hsplit : frameSeq P tier (fr :: frames) = frameRecs P tier fr ++ frameSeq P tier frames := rfl
    rw [hsplit, List.length_append, ← hrest, hrecords.frameRecs_eq, ← hrecords.count]
    unfold framesRecords
    rw [List.map_cons, List.sum_cons]

theorem Sound.accounted (h : s.Sound P tier) : s.Accounted P tier := by
  have hstack : ∀ id : StackId, SpillStack s.store.spill id.1 id.2 (diskFrames s.store.spill id) :=
    fun id => (h.disk.kept id.1 id.2).spillStack
  refine ⟨h.count, hstack, fun id => ?_⟩
  rw [(hstack id).packets, framesRecords_eq (h.diskPacks id)]

/-- A call keeps the contents if it takes no more than one block up, and else their records. -/
theorem call_keeps (hlaw : ∀ zstd, tier.zstd = some zstd → zstd.Lawful) (h : s.Sound P tier) {a : TierCall}
    (hallowed : s.Allowed a) :
    Keeps P tier List.Perm s (s.call P tier a) ∧ (s.TakesOne P tier a → Keeps P tier Eq s (s.call P tier a)) := by
  cases a with
  | evict id maxPackets =>
    have hkeeps : Keeps P tier Eq s (s.evict P tier id maxPackets).1 :=
      moveLoop_keeps eq_equivalence (fun s' moved hs hnb => evictRound_keeps hlaw hs (hnb.symm ▸ hallowed)) h rfl _ _
    exact ⟨hkeeps.perm, fun _ => hkeeps⟩
  | toDisk id allowPrepass maxPackets env =>
    have hkeeps : Keeps P tier Eq s (s.toDisk id false allowPrepass maxPackets env).1 := by
      refine moveLoop_keeps eq_equivalence (fun s' moved hs hnb => ?_) h rfl _ _
      obtain ⟨gone, left, hmoved⟩ := toDiskRound_moved hs allowPrepass env
      exact hmoved.keeps hs (hnb.symm ▸ hallowed)
    exact ⟨hkeeps.perm, fun _ => hkeeps⟩
  | reload id maxPackets stopCount stopBytes =>
    exact ⟨reload_perm h hallowed.1, reload_keeps h hallowed.1 hallowed.2⟩
  | spillReload id maxPackets env =>
    obtain ⟨-, hlist, htier, hscans⟩ := hallowed
    have hkeeps : Keeps P tier Eq s (s.spillReload P tier id maxPackets env).1 := spillReload_keeps h hscans hlist htier
    exact ⟨hkeeps.perm, fun _ => hkeeps⟩

theorem run_keeps (hlaw : ∀ zstd, tier.zstd = some zstd → zstd.Lawful) (h : s.Sound P tier)
    (hrun : Run (fun s a => some (s.call P tier a)) Allowed s s') : Keeps P tier List.Perm s s' := by
  induction hrun with
  | refl => exact .refl (List.Perm.eqv _) h
  | tail _ hallowed hnext ih =>
    obtain rfl := Option.some.inj hnext
    exact ih.trans (List.Perm.eqv _) (call_keeps hlaw ih.sound hallowed).1

theorem run_keeps_order (hlaw : ∀ zstd, tier.zstd = some zstd → zstd.Lawful) (h : s.Sound P tier)
    (hrun : Run (fun s a => some (s.call P tier a)) (fun s a => s.Allowed a ∧ s.TakesOne P tier a) s s') :
    Keeps P tier Eq s s' := by
  induction hrun with
  | refl => exact .refl eq_equivalence h
  | tail _ hallowed hnext ih =>
    obtain rfl := Option.some.inj hnext
    exact ih.trans eq_equivalence ((call_keeps hlaw ih.sound hallowed.1).2 hallowed.2)

/-- Whatever calls are made, no record is lost or duplicated and the counters are those of the
contents; and the records keep their order along every run in which a reload of the tier takes no more
than one block. -/
theorem run_contents (hlaw : ∀ zstd, tier.zstd = some zstd → zstd.Lawful) (h : s.Sound P tier) :
    (∀ s', Run (fun s a => some (s.call P tier a)) Allowed s s' →
      s'.Accounted P tier ∧ ∀ id, (s'.contents P tier id).Perm (s.contents P tier id)) ∧
    ∀ s', Run (fun s a => some (s.call P tier a)) (fun s a => s.Allowed a ∧ s.TakesOne P tier a) s s' →
      ∀ id, s'.contents P tier id = s.contents P tier id := by
  refine ⟨fun s' hrun => ?_, fun s' hrun => (run_keeps_order hlaw h hrun).each⟩
  have hkeeps := run_keeps hlaw h hrun
  exact ⟨hkeeps.sound.accounted, hkeeps.each⟩

end Runs

end TieredStore

/-! ## Two blocks -/

namespace TieredStore

/-- Records of the empty board with the cursor at its start and one further. -/
def firstRecord : List Byte := List.replicate 8 0#8

def secondRecord : List Byte := 1#8 :: List.replicate 7 0#8

/-- A stock with these two in a list. -/
def twoListedIn (nbFiles : Nat) : TieredStore where
  store := {
    lists := fun id => if id = (false, 0) then [firstRecord, secondRecord] else []
    tier := fun _ => .init
    spill := freshSpill nbFiles 1 }
  count := ⟨fun _ => ⟨0, 0, 0, 0⟩, 0, fun _ => 0, fun _ => 0, fun _ => 0, 0⟩

/-- This stock with one file. -/
def twoListed : TieredStore := twoListedIn 1

theorem freshSpill_diskFrames (nbFiles segmentRecords : Nat) (id : StackId) :
    diskFrames (freshSpill nbFiles segmentRecords) id = [] :=
  congrFun (congrFun (diskFrames_of_refines (SpillRefines.fresh True nbFiles segmentRecords)) id.1) id.2

theorem isRecord_first : IsRecord .p16 firstRecord := ⟨⟨0, 0, fun _ => -2, 0, 0, Words.zero, 0⟩, by decide +kernel⟩

theorem isRecord_second : IsRecord .p16 secondRecord := ⟨⟨1, 0, fun _ => -2, 0, 0, Words.zero, 0⟩, by decide +kernel⟩

theorem twoListedIn_sound (nbFiles : Nat) (tier : TierCodec) : (twoListedIn nbFiles).Sound .p16 tier := by
  have hdisk : ∀ id, diskFrames (twoListedIn nbFiles).store.spill id = [] := freshSpill_diskFrames nbFiles 1
  have hcount : TierCount.Counts .p16 tier (twoListedIn nbFiles).count nbFiles fun id =>
      ((twoListedIn nbFiles).store.tier id).frames := by
    refine ⟨fun _ => rfl, ?_, ?_, ?_, ?_, ?_⟩ <;> simp [twoListedIn, TierStack.frames, TierStack.init, stackCount]
  refine ⟨fun id r hr => ?_, fun id fr hfr => absurd hfr List.not_mem_nil, ?_, fun id fr hfr => ?_, hcount⟩
  · unfold twoListedIn at hr
    dsimp only at hr
    split at hr
    · rcases List.mem_cons.mp hr with rfl | hr
      · exact isRecord_first
      · rw [List.mem_singleton.mp hr]
        exact isRecord_second
    · exact absurd hr List.not_mem_nil
  · have hfresh := SpillRefines.fresh True nbFiles 1
    rw [← diskFrames_of_refines hfresh] at hfresh
    exact hfresh
  · rw [hdisk] at hfr
    exact absurd hfr List.not_mem_nil

/-- The records go to the tier in two blocks. -/
def twoBlocks : TieredStore :=
  (twoListed.call .p16 ⟨none, false⟩ (.evict (false, 0) 1)).call .p16 ⟨none, false⟩ (.evict (false, 0) 1)

theorem twoBlocks_run {ok : TieredStore → TierCall → Prop}
    (hok : ∀ s, s.store.spill.nbFiles = 1 → ok s (.evict (false, 0) 1)) :
    Run (fun s a => some (s.call .p16 ⟨none, false⟩ a)) ok twoListed twoBlocks := by
  have hfirst : Run (fun s a => some (s.call .p16 ⟨none, false⟩ a)) ok twoListed
      (twoListed.call .p16 ⟨none, false⟩ (.evict (false, 0) 1)) := .tail .refl (hok twoListed rfl) rfl
  exact hfirst.tail (hok _ (by decide +kernel)) rfl

theorem twoBlocks_allowed (maxPackets : Nat) : twoBlocks.Allowed (.reload (false, 0) maxPackets 9 999) := by
  have hid : 0 < twoBlocks.store.spill.nbFiles := by decide +kernel
  have hlist : twoBlocks.store.lists (false, 0) = [] := by decide +kernel
  exact ⟨hid, hlist⟩

/-- One block goes back to where it was. -/
theorem run_contents_one : (twoBlocks.call .p16 ⟨none, false⟩ (.reload (false, 0) 1 9 999)).Accounted .p16 ⟨none, false⟩ ∧
    ∀ id, (twoBlocks.call .p16 ⟨none, false⟩ (.reload (false, 0) 1 9 999)).contents .p16 ⟨none, false⟩ id =
      twoListed.contents .p16 ⟨none, false⟩ id := by
  have hlaw : ∀ zstd, (⟨none, false⟩ : TierCodec).zstd = some zstd → zstd.Lawful := fun zstd h => absurd h (by simp)
  obtain ⟨hall, hordered⟩ := run_contents hlaw (twoListedIn_sound 1 ⟨none, false⟩)
  have hone : twoBlocks.ReloadsOne .p16 ⟨none, false⟩ (false, 0) 1 9 999 := fun lower top _ => .inr (.inl top.valid.records_pos)
  refine ⟨(hall _ ((twoBlocks_run fun s hs => ?_).tail (twoBlocks_allowed 1) rfl)).1,
    hordered _ ((twoBlocks_run fun s hs => ⟨?_, trivial⟩).tail ⟨twoBlocks_allowed 1, hone⟩ rfl)⟩
  · exact hs.symm ▸ Nat.one_pos
  · exact hs.symm ▸ Nat.one_pos

/-- Two blocks go back the other way round. -/
theorem run_contents_turned : ¬ ∀ (P : Puzzle) (tier : TierCodec) (s s' : TieredStore),
    (∀ zstd, tier.zstd = some zstd → zstd.Lawful) → s.Sound P tier →
      Run (fun s a => some (s.call P tier a)) Allowed s s' → ∀ id, s'.contents P tier id = s.contents P tier id := by
  intro hall
  have hlaw : ∀ zstd, (⟨none, false⟩ : TierCodec).zstd = some zstd → zstd.Lawful := fun zstd h => absurd h (by simp)
  have hrun : Run (fun s a => some (s.call .p16 ⟨none, false⟩ a)) Allowed twoListed
      (twoBlocks.call .p16 ⟨none, false⟩ (.reload (false, 0) 2 9 999)) :=
    (twoBlocks_run fun s hs => hs.symm ▸ Nat.one_pos).tail (twoBlocks_allowed 2) rfl
  have hsame := congrArg (List.map (Option.map Packet.x)) (hall _ _ _ _ hlaw (twoListedIn_sound _ _) hrun (false, 0))
  exact absurd hsame (by decide +kernel)

end TieredStore
