-- SUMMARY: What blocks hold, and that the counters of the tier stay equal to it when blocks are linked and removed.
import EternityII.Spill.TierCalls

/-! ## Records of frames, and the counters -/

section Content

variable (P : Puzzle) (tier : TierCodec)

/-- The records of some frames, in their order. -/
def frameSeq (frames : List StoredFrame) : List (List Byte) := frames.flatMap (frameRecs P tier)

/-- The frame holds these records. -/
structure StoredFrame.Packs (fr : StoredFrame) (records : List (List Byte)) : Prop where
  isRecord : ∀ r ∈ records, IsRecord P r
  raw : frameRaw P tier fr = some records.flatten
  rawBytes : fr.info.rawBytes = records.flatten.length

/-- What the counters of a stack say when it has these frames. -/
def stackCount (frames : List StoredFrame) : StackCount where
  records := (frames.map fun fr => (frameRecs P tier fr).length).sum
  bytes := (frames.map blockCost).sum
  blocks := frames.length
  rawBytes := (frames.map fun fr => (frameRecs P tier fr).flatten.length).sum

/-- The counters say what the stacks have. -/
structure TierCount.Counts (n : TierCount) (nbFiles : Nat) (frames : StackId → List StoredFrame) : Prop where
  stack : ∀ id, n.stack id = stackCount P tier (frames id)
  records : n.records = ∑ id ∈ allStacks nbFiles, (stackCount P tier (frames id)).records
  recordsPool : n.recordsPool = fun c => ∑ id ∈ poolStacks nbFiles c, (stackCount P tier (frames id)).records
  bytesPool : n.bytesPool = fun c => ∑ id ∈ poolStacks nbFiles c, (stackCount P tier (frames id)).bytes
  rawPool : n.rawPool = fun c => ∑ id ∈ poolStacks nbFiles c, (stackCount P tier (frames id)).rawBytes
  ramTierBytes : n.ramTierBytes = ∑ id ∈ allStacks nbFiles, (stackCount P tier (frames id)).bytes

end Content

/-! ## Frames and their records -/

section Frames

variable {P : Puzzle} {tier : TierCodec} {fr : StoredFrame} {frames frames' : List StoredFrame} {records : List (List Byte)}

@[simp] theorem frameSeq_append (frames frames' : List StoredFrame) :
    frameSeq P tier (frames ++ frames') = frameSeq P tier frames ++ frameSeq P tier frames' := List.flatMap_append

@[simp] theorem frameSeq_singleton (fr : StoredFrame) : frameSeq P tier [fr] = frameRecs P tier fr := List.flatMap_singleton ..

theorem StoredFrame.Packs.records_eq (h : fr.Packs P tier records) :
    (frameRaw P tier fr).bind (tierRecords P) = some records := by
  rw [h.raw, Option.bind_some, tierRecords_flatten h.isRecord]

theorem StoredFrame.Packs.frameRecs_eq (h : fr.Packs P tier records) : frameRecs P tier fr = records := by
  unfold frameRecs
  rw [h.records_eq, Option.getD_some]

/-- A block says how many records it has. -/
theorem StoredFrame.Packs.count (h : fr.Packs P tier records) : fr.info.records = records.length := by
  have hraw := h.raw
  unfold frameRaw stockTierUnpack at hraw
  split at hraw
  · exact absurd hraw (by simp)
  · dsimp only at hraw
    split at hraw
    · exact absurd hraw (by simp)
    · rename_i raw _
      obtain ⟨hcount, hraw⟩ := Option.ite_none_right_eq_some.mp hraw
      obtain rfl : raw = records.flatten := Option.some.inj hraw
      unfold stockTierCountRecords at hcount
      split at hcount
      · exact absurd hcount (by simp)
      · rw [tierRecords_flatten h.isRecord] at hcount
        exact (Option.some.inj hcount).symm

/-- Every record of a frame is one. -/
theorem StoredFrame.Packs.isRecord_frameRecs (h : fr.Packs P tier records) : ∀ r ∈ frameRecs P tier fr, IsRecord P r := by
  rw [h.frameRecs_eq]
  exact h.isRecord

/-- A block that is built packs what it is built from. -/
theorem stockTierBlockBuild_packs (hlaw : ∀ zstd, tier.zstd = some zstd → zstd.Lawful) (hrecords : ∀ r ∈ records, IsRecord P r)
    {block : { fr : StoredFrame // fr.Valid }} (h : stockTierBlockBuild P tier records.flatten = some block) :
    block.val.Packs P tier records := by
  refine ⟨hrecords, (stockTierBlockBuild_spec hlaw h).1, ?_⟩
  unfold stockTierBlockBuild at h
  split at h
  · exact absurd h (by simp)
  · obtain rfl := Option.some.inj h
    rfl

end Frames

/-! ## What the counters say -/

section Counters

variable {P : Puzzle} {tier : TierCodec} {n : TierCount} {nbFiles : Nat} {frames : StackId → List StoredFrame} {id : StackId}
  {fr : StoredFrame} {records : List (List Byte)} {pre post : List StoredFrame}

theorem subU64_add_left (a b : Nat) : subU64 (a + b) a = b := by
  rw [subU64, if_pos (Nat.le_add_right a b), Nat.add_sub_cancel_left]

theorem subU64_add_right (a b : Nat) : subU64 (a + b) b = a := by
  rw [subU64, if_pos (Nat.le_add_left b a), Nat.add_sub_cancel]

/-- The totals of the pools when a stack gets something more. -/
theorem pool_sum_add {α : Type*} (hid : id.2 < nbFiles) (g : α → Nat) (x : StackId → α) {a : α} {m : Nat}
    (ha : g a = g (x id) + m) :
    (fun c => ∑ j ∈ poolStacks nbFiles c, g (Function.update x id a j)) =
      Function.update (fun c => ∑ j ∈ poolStacks nbFiles c, g (x j)) id.1
        ((∑ j ∈ poolStacks nbFiles id.1, g (x j)) + m) := by
  funext c
  by_cases hc : c = id.1
  · rw [hc, Function.update_self]
    exact sum_update_of_add (mem_poolStacks.mpr ⟨hid, rfl⟩) g x ha
  · rw [Function.update_of_ne hc]
    refine Finset.sum_congr rfl fun j hj => ?_
    have hne : j ≠ id := fun heq => hc (by rw [← (mem_poolStacks.mp hj).2, heq])
    rw [Function.update_of_ne hne]

/-- The totals of the pools when a stack loses something. -/
theorem pool_sum_sub {α : Type*} (hid : id.2 < nbFiles) (g : α → Nat) (x : StackId → α) {a : α} {m : Nat}
    (ha : g (x id) = g a + m) :
    (fun c => ∑ j ∈ poolStacks nbFiles c, g (Function.update x id a j)) =
      Function.update (fun c => ∑ j ∈ poolStacks nbFiles c, g (x j)) id.1
        (subU64 (∑ j ∈ poolStacks nbFiles id.1, g (x j)) m) := by
  have hback := pool_sum_add hid g (Function.update x id a) (a := x id) (m := m) (by rw [Function.update_self, ha])
  rw [Function.update_idem, Function.update_eq_self] at hback
  have hself : (∑ j ∈ poolStacks nbFiles id.1, g (x j)) =
      (∑ j ∈ poolStacks nbFiles id.1, g (Function.update x id a j)) + m := by
    simpa only [Function.update_self] using congrFun hback id.1
  rw [hself, subU64_add_right, hback, Function.update_idem]
  exact (Function.update_eq_self _ _).symm

theorem stackCount_append (P : Puzzle) (tier : TierCodec) (frames frames' : List StoredFrame) :
    (stackCount P tier (frames ++ frames')).records =
        (stackCount P tier frames).records + (stackCount P tier frames').records ∧
      (stackCount P tier (frames ++ frames')).bytes =
        (stackCount P tier frames).bytes + (stackCount P tier frames').bytes ∧
      (stackCount P tier (frames ++ frames')).blocks =
        (stackCount P tier frames).blocks + (stackCount P tier frames').blocks ∧
      (stackCount P tier (frames ++ frames')).rawBytes =
        (stackCount P tier frames).rawBytes + (stackCount P tier frames').rawBytes := by
  unfold stackCount
  simp only [List.map_append, List.sum_append, List.length_append, and_self]

theorem stackCount_singleton (h : fr.Packs P tier records) :
    stackCount P tier [fr] = ⟨fr.info.records, blockCost fr, 1, fr.info.rawBytes⟩ := by
  unfold stackCount
  rw [List.map_singleton, List.map_singleton, List.map_singleton, List.sum_singleton, List.sum_singleton,
    List.sum_singleton, h.frameRecs_eq, h.count, h.rawBytes]
  rfl

theorem stackCount_link (h : fr.Packs P tier records) (frames : List StoredFrame) :
    stackCount P tier (frames ++ [fr]) = (stackCount P tier frames).link fr := by
  obtain ⟨hrecords, hbytes, hblocks, hraw⟩ := stackCount_append P tier frames [fr]
  rw [stackCount_singleton h] at hrecords hbytes hblocks hraw
  unfold StackCount.link
  rw [← hrecords, ← hbytes, ← hblocks, ← hraw]

theorem stackCount_unlink (h : fr.Packs P tier records) (pre post : List StoredFrame) :
    (stackCount P tier (pre ++ fr :: post)).unlink fr = stackCount P tier (pre ++ post) ∧
      stackCount P tier (pre ++ fr :: post) = (stackCount P tier (pre ++ post)).link fr := by
  have hlink : stackCount P tier (pre ++ fr :: post) = (stackCount P tier (pre ++ post)).link fr := by
    obtain ⟨hrecords, hbytes, hblocks, hraw⟩ := stackCount_append P tier pre ([fr] ++ post)
    obtain ⟨hrecords₁, hbytes₁, hblocks₁, hraw₁⟩ := stackCount_append P tier [fr] post
    obtain ⟨hrecords₂, hbytes₂, hblocks₂, hraw₂⟩ := stackCount_append P tier pre post
    rw [stackCount_singleton h] at hrecords₁ hbytes₁ hblocks₁ hraw₁
    unfold StackCount.link
    rw [← List.singleton_append]
    rw [hrecords₂, hbytes₂, hblocks₂, hraw₂, Nat.add_assoc, Nat.add_assoc, Nat.add_assoc, Nat.add_assoc,
      Nat.add_comm _ fr.info.records, Nat.add_comm _ (blockCost fr), Nat.add_comm _ 1, Nat.add_comm _ fr.info.rawBytes,
      ← hrecords₁, ← hbytes₁, ← hblocks₁, ← hraw₁, ← hrecords, ← hbytes, ← hblocks, ← hraw]
  refine ⟨?_, hlink⟩
  rw [hlink]
  unfold StackCount.unlink StackCount.link
  simp only [subU64_add_right]

/-- A block linked is counted. -/
theorem TierCount.Counts.link (h : n.Counts P tier nbFiles frames) (hid : id.2 < nbFiles) (hpacks : fr.Packs P tier records) :
    (n.link id fr).Counts P tier nbFiles (Function.update frames id (frames id ++ [fr])) := by
  have hstack : stackCount P tier (frames id ++ [fr]) = (n.stack id).link fr := by
    rw [h.stack, stackCount_link hpacks]
  have hrecords : (stackCount P tier (frames id ++ [fr])).records =
      (stackCount P tier (frames id)).records + fr.info.records := by
    rw [stackCount_link hpacks]
    rfl
  have hbytes : (stackCount P tier (frames id ++ [fr])).bytes = (stackCount P tier (frames id)).bytes + blockCost fr := by
    rw [stackCount_link hpacks]
    rfl
  have hraw : (stackCount P tier (frames id ++ [fr])).rawBytes =
      (stackCount P tier (frames id)).rawBytes + fr.info.rawBytes := by
    rw [stackCount_link hpacks]
    rfl
  have hall := mem_allStacks.mpr hid
  have hgrew : subU64 ((n.stack id).link fr).bytes (n.stack id).bytes = blockCost fr := subU64_add_left _ _
  have hgrewRaw : subU64 ((n.stack id).link fr).rawBytes (n.stack id).rawBytes = fr.info.rawBytes := subU64_add_left _ _
  unfold TierCount.link
  dsimp only
  rw [hgrew, hgrewRaw]
  refine ⟨fun id' => ?_, ?_, ?_, ?_, ?_, ?_⟩
  · dsimp only
    by_cases heq : id' = id
    · rw [heq, Function.update_self, Function.update_self, hstack]
    · rw [Function.update_of_ne heq, Function.update_of_ne heq, h.stack]
  · dsimp only
    rw [h.records, sum_update_of_add hall (fun frames => (stackCount P tier frames).records) frames hrecords]
  · dsimp only
    rw [h.recordsPool, pool_sum_add hid (fun frames => (stackCount P tier frames).records) frames hrecords]
  · dsimp only
    rw [h.bytesPool, pool_sum_add hid (fun frames => (stackCount P tier frames).bytes) frames hbytes]
  · dsimp only
    rw [h.rawPool, pool_sum_add hid (fun frames => (stackCount P tier frames).rawBytes) frames hraw]
  · dsimp only
    rw [h.ramTierBytes, sum_update_of_add hall (fun frames => (stackCount P tier frames).bytes) frames hbytes]

/-- A block removed is counted no more. -/
theorem TierCount.Counts.remove (h : n.Counts P tier nbFiles frames) (hid : id.2 < nbFiles) (hpacks : fr.Packs P tier records)
    (hframes : frames id = pre ++ fr :: post) :
    (n.remove id fr).Counts P tier nbFiles (Function.update frames id (pre ++ post)) := by
  obtain ⟨hunlink, hlink⟩ := stackCount_unlink hpacks pre post
  have hrecords : (stackCount P tier (frames id)).records =
      (stackCount P tier (pre ++ post)).records + fr.info.records := by
    rw [hframes, hlink]
    rfl
  have hbytes : (stackCount P tier (frames id)).bytes = (stackCount P tier (pre ++ post)).bytes + blockCost fr := by
    rw [hframes, hlink]
    rfl
  have hraw : (stackCount P tier (frames id)).rawBytes =
      (stackCount P tier (pre ++ post)).rawBytes + fr.info.rawBytes := by
    rw [hframes, hlink]
    rfl
  have hstack : (n.stack id).unlink fr = stackCount P tier (pre ++ post) := by
    rw [h.stack, hframes, hunlink]
  have hshrank : subU64 (n.stack id).bytes ((n.stack id).unlink fr).bytes = blockCost fr := by
    rw [hstack, h.stack, hbytes, subU64_add_left]
  have hshrankRaw : subU64 (n.stack id).rawBytes ((n.stack id).unlink fr).rawBytes = fr.info.rawBytes := by
    rw [hstack, h.stack, hraw, subU64_add_left]
  have hall := mem_allStacks.mpr hid
  unfold TierCount.remove
  dsimp only
  rw [hshrank, hshrankRaw]
  refine ⟨fun id' => ?_, ?_, ?_, ?_, ?_, ?_⟩
  · dsimp only
    by_cases heq : id' = id
    · rw [heq, Function.update_self, Function.update_self, hstack]
    · rw [Function.update_of_ne heq, Function.update_of_ne heq, h.stack]
  · dsimp only
    rw [h.records, ← sum_update_of_sub hall (fun frames => (stackCount P tier frames).records) frames hrecords,
      subU64_add_right]
  · dsimp only
    rw [h.recordsPool, pool_sum_sub hid (fun frames => (stackCount P tier frames).records) frames hrecords]
  · dsimp only
    rw [h.bytesPool, pool_sum_sub hid (fun frames => (stackCount P tier frames).bytes) frames hbytes]
  · dsimp only
    rw [h.rawPool, pool_sum_sub hid (fun frames => (stackCount P tier frames).rawBytes) frames hraw]
  · dsimp only
    rw [h.ramTierBytes, ← sum_update_of_sub hall (fun frames => (stackCount P tier frames).bytes) frames hbytes,
      subU64_add_right]

end Counters
