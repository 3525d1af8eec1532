-- SUMMARY: The records in blocks and frames: what a block is built from comes out of it again.
import EternityII.Spill.Contents
import EternityII.Stock.Canonical

/-!
# Records in blocks

The lists hold records one by one, a block holds them side by side, and a frame on disk is a block.
Here the three are compared by the bytes of their records.
-/

/-! ## Records side by side -/

section Paved

variable {P : Puzzle} {record rest : List Byte} {records : List (List Byte)} {raw : List Byte}

/-- A record says where the next one starts. -/
theorem IsRecord.recordLen (h : IsRecord P record) (rest : List Byte) :
    stockTierRecordLen P (record ++ rest) = record.length := by
  obtain ⟨-, hsize⟩ := h.clean rest
  have hlen : packetCodecSizeFor P (announced P (record ++ rest)) ≤ (record ++ rest).length := by
    rw [hsize, List.length_append]
    exact Nat.le_add_right _ _
  have hprefix : packetCodecPrefix P ≤ (record ++ rest).length := Nat.le_trans (Nat.le_add_right _ _) hlen
  unfold stockTierRecordLen
  rw [if_neg (Nat.not_lt.mpr hprefix)]
  exact (if_pos hlen).trans hsize

theorem tierRecordsLoop_flatten {fuel : Nat} (h : ∀ r ∈ records, IsRecord P r) (hfuel : records.length ≤ fuel) :
    tierRecordsLoop P fuel records.flatten = some records := by
  induction records generalizing fuel with
  | nil => cases fuel <;> rfl
  | cons record records ih =>
    obtain ⟨fuel, rfl⟩ := Nat.exists_eq_add_of_le' (Nat.lt_of_lt_of_le (Nat.succ_pos records.length) hfuel)
    have hrecord := h record List.mem_cons_self
    have hpos := hrecord.length_pos
    have hne : (record :: records).flatten ≠ [] := by
      rw [List.flatten_cons]
      exact List.append_ne_nil_of_left_ne_nil (List.ne_nil_of_length_pos hpos) _
    obtain ⟨b, bytes, hbytes⟩ := List.exists_cons_of_ne_nil hne
    rw [hbytes, tierRecordsLoop, ← hbytes, List.flatten_cons, hrecord.recordLen,
      if_neg (Nat.pos_iff_ne_zero.mp hpos), List.drop_left, List.take_left,
      ih (fun r hr => h r (List.mem_cons_of_mem _ hr)) (Nat.le_of_succ_le_succ hfuel)]
    · rfl
    · exact List.cons_ne_nil b bytes

theorem length_le_flatten (h : ∀ r ∈ records, IsRecord P r) : records.length ≤ records.flatten.length := by
  induction records with
  | nil => exact Nat.le_refl 0
  | cons record records ih =>
    have hpos := (h record List.mem_cons_self).length_pos
    have hrest := ih fun r hr => h r (List.mem_cons_of_mem _ hr)
    rw [List.flatten_cons, List.length_append, List.length_cons]
    omega

/-- Records side by side are taken apart again. -/
theorem tierRecords_flatten (h : ∀ r ∈ records, IsRecord P r) : tierRecords P records.flatten = some records :=
  tierRecordsLoop_flatten h (length_le_flatten h)

theorem flatten_of_tierRecordsLoop {fuel : Nat} (h : tierRecordsLoop P fuel raw = some records) :
    records.flatten = raw := by
  induction fuel generalizing raw records with
  | zero =>
    cases raw with
    | nil =>
      obtain rfl : [] = records := by simpa [tierRecordsLoop] using h
      rfl
    | cons b raw => exact absurd h (by simp [tierRecordsLoop])
  | succ fuel ih =>
    cases raw with
    | nil =>
      obtain rfl : [] = records := by simpa [tierRecordsLoop] using h
      rfl
    | cons b raw =>
      rw [tierRecordsLoop] at h
      split at h
      · exact absurd h (by simp)
      · obtain ⟨rest, hrest, rfl⟩ := Option.map_eq_some_iff.mp h
        rw [List.flatten_cons, ih hrest, List.take_append_drop]
      · simp

/-- The records of a block are all of it. -/
theorem flatten_of_tierRecords (h : tierRecords P raw = some records) : records.flatten = raw :=
  flatten_of_tierRecordsLoop h

end Paved

/-! ## Blocks -/

section Blocks

variable {P : Puzzle} {tier : TierCodec} {raw : List Byte} {records : List (List Byte)}

variable (P tier) in
/-- The raw bytes of a frame: `stock_tier_block_unpack`. -/
def frameRaw (fr : StoredFrame) : Option (List Byte) :=
  stockTierUnpack P tier fr.info.codec fr.stored fr.info.rawBytes fr.info.records

variable (P tier) in
/-- The records of a frame; one that does not unpack has none. -/
def frameRecs (fr : StoredFrame) : List (List Byte) := ((frameRaw P tier fr).bind (tierRecords P)).getD []

variable (P tier) in
/-- The records of some frames. -/
def framesRecs (frames : List StoredFrame) : Multiset (List Byte) :=
  (frames.map fun fr => (frameRecs P tier fr : Multiset (List Byte))).sum

@[simp] theorem framesRecs_nil : framesRecs P tier [] = 0 := rfl

@[simp] theorem framesRecs_append (frames frames' : List StoredFrame) :
    framesRecs P tier (frames ++ frames') = framesRecs P tier frames + framesRecs P tier frames' := by
  unfold framesRecs
  rw [List.map_append, List.sum_append]

theorem framesRecs_singleton (fr : StoredFrame) : framesRecs P tier [fr] = (frameRecs P tier fr : Multiset (List Byte)) := by
  unfold framesRecs
  rw [List.map_singleton, List.sum_singleton]

variable (P tier) in
/-- `stock_tier_block_build`: the block with its count, `none` when the bytes are not records. -/
def stockTierBlockBuild (raw : List Byte) : Option { fr : StoredFrame // fr.Valid } :=
  match h : stockTierPack P tier raw (stockTierPackBound tier raw.length) with
  | none => none
  | some (codec, stored, n) => some ⟨⟨⟨codec, n, raw.length, stored.length⟩, stored⟩, .of_pack h⟩

/-- A block gives back what it is built from. -/
theorem stockTierBlockBuild_spec (hlaw : ∀ zstd, tier.zstd = some zstd → zstd.Lawful)
    {fr : { fr : StoredFrame // fr.Valid }} (h : stockTierBlockBuild P tier raw = some fr) :
    frameRaw P tier fr = some raw ∧ ∃ records, tierRecords P raw = some records ∧ frameRecs P tier fr = records ∧
      fr.val.info.records = records.length := by
  unfold stockTierBlockBuild at h
  split at h
  · exact absurd h (by simp)
  · rename_i codec stored n hpack
    obtain rfl := Option.some.inj h
    have hraw : frameRaw P tier ⟨⟨codec, n, raw.length, stored.length⟩, stored⟩ = some raw :=
      stockTierUnpack_pack hlaw hpack
    obtain ⟨hcount, -⟩ := stockTierPack_spec hpack
    unfold stockTierCountRecords at hcount
    split at hcount
    · exact absurd hcount (by simp)
    · obtain ⟨records, hrecords, rfl⟩ := Option.map_eq_some_iff.mp hcount
      refine ⟨hraw, records, hrecords, ?_, rfl⟩
      unfold frameRecs
      dsimp only
      rw [hraw, Option.bind_some, hrecords, Option.getD_some]

/-- Records that are not too many make a block. -/
theorem stockTierBlockBuild_flatten (h : ∀ r ∈ records, IsRecord P r) (hne : records ≠ [])
    (hsize : records.flatten.length ≤ stockTierBlockBytes) :
    ∃ fr, stockTierBlockBuild P tier records.flatten = some fr := by
  have hrecords := tierRecords_flatten h
  have hpos : 0 < records.flatten.length := by
    obtain ⟨record, rest, rfl⟩ := List.exists_cons_of_ne_nil hne
    have := (h record List.mem_cons_self).length_pos
    rw [List.flatten_cons, List.length_append]
    omega
  have hcount : stockTierCountRecords P records.flatten = some records.length := by
    unfold stockTierCountRecords
    rw [if_neg (by omega), hrecords, Option.map_some]
  have hbound : ¬ stockTierPackBound tier records.flatten.length < records.flatten.length := by
    unfold stockTierPackBound
    split <;> omega
  have hpack : ∃ r, stockTierPack P tier records.flatten (stockTierPackBound tier records.flatten.length) = some r := by
    unfold stockTierPack
    rw [hcount]
    dsimp only
    rw [if_neg hbound]
    repeat' split
    all_goals exact ⟨_, rfl⟩
  obtain ⟨r, hr⟩ := hpack
  unfold stockTierBlockBuild
  split
  · rename_i hnone
    rw [hr] at hnone
    exact absurd hnone (by simp)
  · exact ⟨_, rfl⟩

end Blocks
