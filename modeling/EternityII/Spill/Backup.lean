-- SUMMARY: What a backup writes of the lists and the tier, and that a restore puts each record back into its pool.
import EternityII.Spill.Flags

/-!
# A backup and its restore

The body of a backup is the records of the lists as they are, and the blocks of the tier with the flag of
each record made that of its stack. A restore routes by the flag. Where each record is in the pool of its
flag, each comes back to its pool.
-/

/-! ## A backup and its restore -/

section Backup

variable (P : Puzzle) (tier : TierCodec)

/-- `spill_embed_stored_block`: the bytes of a block, its flags made those of the stack. -/
def spillEmbedStoredBlock (isChecked : Bool) (fr : StoredFrame) : Option (List Byte) :=
  ((frameRaw P tier fr).bind (tierRecords P)).map fun records =>
    (records.map fun record =>
      if record.getD 2 0 = (if isChecked then 1#8 else 0#8) then record
      else packetCodecPokeChecked record isChecked).flatten

/-- The blocks in the order of `tier_hook_write`. -/
def tierBlocks (s : Store) : List (Bool × StoredFrame) :=
  (List.range s.spill.nbFiles).flatMap fun f =>
    (s.tier (false, f)).frames.map (Prod.mk false) ++ (s.tier (true, f)).frames.map (Prod.mk true)

/-- `tier_hook_write`. -/
def tierHookWrite (s : Store) : Option (List Byte) :=
  ((tierBlocks s).mapM fun block => spillEmbedStoredBlock P tier block.1 block.2).map List.flatten

/-- The records of the lists in the order of `backup`. -/
def listedRecords (s : Store) : List (List Byte) :=
  (List.range s.spill.nbFiles).flatMap fun f => s.lists (false, f) ++ s.lists (true, f)

/-- What `backup` writes behind the header; `none` for a block that does not unpack. -/
def backupBody (s : Store) : Option (List Byte) :=
  (tierHookWrite P tier s).map fun blocks => (listedRecords s).flatten ++ blocks

/-- The records of a pool in memory. -/
def Store.residents (s : Store) (c : Bool) : Multiset (List Byte) :=
  ∑ id ∈ poolStacks s.spill.nbFiles c, ((s.lists id : Multiset (List Byte)) + framesRecs P tier (s.tier id).frames)

variable {tier} in
/-- The record of the same packet without its score. -/
def unscoredRecord (record : List Byte) : Option (List Byte) :=
  (recordPacket P record).bind fun p => recordOf p.unscored

end Backup

section BackupSpec

variable {P : Puzzle} {tier : TierCodec} {s : Store} {c : Bool} {records : List (List Byte)} {record : List Byte}

theorem sum_poolStacks (n : Nat) (g : StackId → Multiset (List Byte)) :
    ∑ id ∈ poolStacks n c, g id = ∑ f ∈ Finset.range n, g (c, f) := by
  refine (Finset.sum_bij (fun f _ => (c, f)) (fun f hf => ?_) (fun f _ f' _ heq => (Prod.mk.inj heq).2)
    (fun id hid => ?_) fun f _ => rfl).symm
  · exact mem_poolStacks.mpr ⟨Finset.mem_range.mp hf, rfl⟩
  · obtain ⟨hlt, rfl⟩ := mem_poolStacks.mp hid
    exact ⟨id.2, Finset.mem_range.mpr hlt, rfl⟩

theorem coe_flatMap_range (n : Nat) (g : Nat → List (List Byte)) :
    ((List.range n).flatMap g : Multiset (List Byte)) = ∑ f ∈ Finset.range n, (g f : Multiset (List Byte)) := by
  induction n with
  | zero => rfl
  | succ n ih =>
    rw [List.range_succ, List.flatMap_append, Finset.sum_range_succ, ← ih, List.flatMap_singleton, Multiset.coe_add]

theorem coe_flatMap_frameRecs (frames : List StoredFrame) :
    (frames.flatMap (frameRecs P tier) : Multiset (List Byte)) = framesRecs P tier frames := by
  induction frames with
  | nil => rfl
  | cons fr frames ih =>
    rw [List.flatMap_cons, ← Multiset.coe_add, ih]
    unfold framesRecs
    rw [List.map_cons, List.sum_cons]

/-- The records of a stack of the pool, and none of those of the other pool. -/
theorem filter_fits (h : ∀ r ∈ records, Fits P c r) (c' : Bool) :
    (records.filter fun r => decide (decide (r.getD 2 0 = 1#8) = c')) = if c = c' then records else [] := by
  split
  · rename_i hc
    exact List.filter_eq_self.mpr fun r hr => decide_eq_true ((h r hr).2.trans hc)
  · rename_i hc
    exact List.filter_eq_nil_iff.mpr fun r hr hkept => hc ((h r hr).2.symm.trans (of_decide_eq_true hkept))

/-- A record of its pool is written as it is. -/
theorem embed_eq (h : Fits P c record) :
    (if record.getD 2 0 = (if c then 1#8 else 0#8) then record else packetCodecPokeChecked record c) = record := by
  obtain ⟨⟨p, hp⟩, hflag⟩ := h
  refine if_pos ?_
  have hbyte := recordOf_flag hp
  cases c with
  | true => exact of_decide_eq_true hflag
  | false =>
    have hne : ¬ record.getD 2 0 = 1#8 := of_decide_eq_false hflag
    rw [hbyte] at hne ⊢
    by_cases hzero : p.checked ≠ 0
    · exact absurd (if_pos hzero) hne
    · exact if_neg hzero

theorem mapM_eq_map {α β : Type*} {g : α → Option β} {k : α → β} {as : List α} {bs : List β}
    (h : ∀ a ∈ as, ∀ b, g a = some b → b = k a) (hmap : as.mapM g = some bs) : bs = as.map k := by
  induction as generalizing bs with
  | nil =>
    obtain rfl : [] = bs := by simpa using hmap
    rfl
  | cons a as ih =>
    rw [List.mapM_cons] at hmap
    obtain ⟨b, hb, rest, hrest, rfl⟩ : ∃ b, g a = some b ∧ ∃ rest, as.mapM g = some rest ∧ b :: rest = bs := by
      simpa [Option.bind_eq_some_iff] using hmap
    rw [List.map_cons, ← h a List.mem_cons_self b hb, ← ih (fun a ha => h a (List.mem_cons_of_mem _ ha)) hrest]

/-- The body of a backup is the records in memory, those of each pool with its flag. -/
theorem backupBody_spec (h : s.Flagged P tier) {body : List Byte} (hbody : backupBody P tier s = some body) :
    ∃ records : List (List Byte), body = records.flatten ∧ (∀ r ∈ records, IsRecord P r) ∧ ∀ c,
      ((records.filter fun r => decide (decide (r.getD 2 0 = 1#8) = c)) : Multiset (List Byte)) = s.residents P tier c := by
  have hlisted : ∀ id : StackId, id.2 < s.spill.nbFiles → ∀ r ∈ s.lists id, Fits P id.1 r := by
    intro id hid r hr
    refine h id.1 r (mem_records.mpr ⟨id, hid, rfl, ?_⟩)
    unfold Store.stackRecords
    exact Multiset.mem_add.mpr (.inl (Multiset.mem_add.mpr (.inl (Multiset.mem_coe.mpr hr))))
  have hblock : ∀ id : StackId, id.2 < s.spill.nbFiles → ∀ fr ∈ (s.tier id).frames, ∀ r ∈ frameRecs P tier fr, Fits P id.1 r := by
    intro id hid fr hfr r hr
    refine h id.1 r (mem_records.mpr ⟨id, hid, rfl, ?_⟩)
    unfold Store.stackRecords
    refine Multiset.mem_add.mpr (.inl (Multiset.mem_add.mpr (.inr ?_)))
    rw [← coe_flatMap_frameRecs]
    exact Multiset.mem_coe.mpr (List.mem_flatMap.mpr ⟨fr, hfr, hr⟩)
  have hblocks : ∀ block ∈ tierBlocks s, ∀ r ∈ frameRecs P tier block.2, Fits P block.1 r := by
    intro block hmem
    obtain ⟨f, hf, hmem⟩ := List.mem_flatMap.mp hmem
    have hf := List.mem_range.mp hf
    rcases List.mem_append.mp hmem with hmem | hmem
    · obtain ⟨fr, hfr, rfl⟩ := List.mem_map.mp hmem
      exact hblock (false, f) hf fr hfr
    · obtain ⟨fr, hfr, rfl⟩ := List.mem_map.mp hmem
      exact hblock (true, f) hf fr hfr
  unfold backupBody tierHookWrite at hbody
  obtain ⟨blocks, hwritten, rfl⟩ := Option.map_eq_some_iff.mp hbody
  obtain ⟨written, hmapped, rfl⟩ := Option.map_eq_some_iff.mp hwritten
  have hwritten : written = (tierBlocks s).map fun block => (frameRecs P tier block.2).flatten := by
    refine mapM_eq_map (fun block hmem bytes hbytes => ?_) hmapped
    unfold spillEmbedStoredBlock at hbytes
    obtain ⟨records, hrecords, rfl⟩ := Option.map_eq_some_iff.mp hbytes
    have hrecs : frameRecs P tier block.2 = records := by
      unfold frameRecs
      rw [hrecords, Option.getD_some]
    have hfits := hblocks block hmem
    rw [hrecs] at hfits ⊢
    rw [List.map_congr_left fun r hr => embed_eq (hfits r hr), List.map_id']
  refine ⟨listedRecords s ++ (tierBlocks s).flatMap fun block => frameRecs P tier block.2, ?_, fun r hr => ?_, fun c => ?_⟩
  · rw [List.flatten_append, hwritten, List.flatMap_def, List.flatten_flatten, List.map_map]
    rfl
  · rcases List.mem_append.mp hr with hr | hr
    · obtain ⟨f, hf, hr⟩ := List.mem_flatMap.mp hr
      have hf := List.mem_range.mp hf
      rcases List.mem_append.mp hr with hr | hr
      · exact (hlisted (false, f) hf r hr).1
      · exact (hlisted (true, f) hf r hr).1
    · obtain ⟨block, hmem, hr⟩ := List.mem_flatMap.mp hr
      exact (hblocks block hmem r hr).1
  · have hstacks : ∀ (g : StackId → List (List Byte)), (∀ id : StackId, id.2 < s.spill.nbFiles → ∀ r ∈ g id, Fits P id.1 r) →
        ((((List.range s.spill.nbFiles).flatMap fun f => g (false, f) ++ g (true, f)).filter fun r =>
          decide (decide (r.getD 2 0 = 1#8) = c)) : Multiset (List Byte)) =
          ∑ f ∈ Finset.range s.spill.nbFiles, (g (c, f) : Multiset (List Byte)) := by
      intro g hg
      rw [List.filter_flatMap, ← coe_flatMap_range]
      refine congrArg _ (List.flatMap_congr fun f hf => ?_)
      have hf := List.mem_range.mp hf
      rw [List.filter_append, filter_fits (hg (false, f) hf), filter_fits (hg (true, f) hf)]
      cases c with
      | false => exact List.append_nil _
      | true => exact List.nil_append _
    have htier : (tierBlocks s).flatMap (fun block => frameRecs P tier block.2) = (List.range s.spill.nbFiles).flatMap
        fun f => (s.tier (false, f)).frames.flatMap (frameRecs P tier) ++
          (s.tier (true, f)).frames.flatMap (frameRecs P tier) := by
      unfold tierBlocks
      rw [List.flatMap_assoc]
      refine List.flatMap_congr fun f _ => ?_
      rw [List.flatMap_append, List.flatMap_map, List.flatMap_map]
    have hframes : ∀ id : StackId, id.2 < s.spill.nbFiles → ∀ r ∈ (s.tier id).frames.flatMap (frameRecs P tier),
        Fits P id.1 r := by
      intro id hid r hr
      obtain ⟨fr, hfr, hr⟩ := List.mem_flatMap.mp hr
      exact hblock id hid fr hfr r hr
    unfold Store.residents listedRecords
    rw [List.filter_append, ← Multiset.coe_add, htier, hstacks _ hlisted, sum_poolStacks,
      hstacks (fun id => (s.tier id).frames.flatMap (frameRecs P tier)) hframes, ← Finset.sum_add_distrib]
    refine Finset.sum_congr rfl fun f _ => ?_
    rw [coe_flatMap_frameRecs]

end BackupSpec

/-! ## Reading the records back -/

section ReadBack

variable {P : Puzzle} {tier : TierCodec} {env : ImportEnv P} {records : List (List Byte)} {record : List Byte}

/-- A record at the front is read as it is read alone. -/
theorem IsRecord.front (h : IsRecord P record) (strict : Bool) (rest : List Byte) :
    ∃ q, frontPacket P strict (record ++ rest) = some (q, record.length) ∧ recordPacket P record = some q ∧
      recordOf q = some record := by
  obtain ⟨q, hdecode, hrecord⟩ := h.decode rest
  obtain ⟨hclean, hsize⟩ := h.clean rest
  have halone : packetCodecDecode P record = .ok (q, record.length) := by
    have hlen : packetCodecSizeFor P (announced P (record ++ rest)) ≤ (record ++ rest).length := by
      rw [hsize, List.length_append]
      exact Nat.le_add_right _ _
    have htake := packetCodecDecode_take hlen
    rw [hsize, List.take_left, hdecode] at htake
    exact htake
  refine ⟨q, frontPacket_eq_some.mpr ⟨hdecode, fun hpad => hclean hpad.2⟩, ?_, hrecord⟩
  unfold recordPacket
  rw [halone]

/-- The score of a record can be dropped. -/
theorem unscoredRecord_isSome (h : IsRecord P record) : (unscoredRecord P record).isSome := by
  obtain ⟨q, -, hread, hrecord⟩ := h.front false []
  unfold unscoredRecord
  rw [hread, Option.bind_some]
  have hencodable : q.Encodable := encodable_iff.mpr (by rw [hrecord]; rfl)
  have hunscored : q.unscored.Encodable := hencodable.of_grid rfl
  exact encodable_iff.mp hunscored

/-- The packets read from records side by side, each in the pool of its flag. -/
theorem poolRecords_readAll (h : ∀ r ∈ records, IsRecord P r) (strict : Bool) (c : Bool) :
    poolRecords ((readAll (frontPacket P strict) records.flatten).map importedPacket) c =
      ((records.filter fun r => decide (decide (r.getD 2 0 = 1#8) = c)).filterMap (unscoredRecord P) :
        List (List Byte)) := by
  induction records with
  | nil => rfl
  | cons record records ih =>
    have hrecord := h record List.mem_cons_self
    obtain ⟨q, hfront, hread, hencoded⟩ := hrecord.front strict records.flatten
    have hbyte : q.checked = 0 ∨ q.checked = 1 := by
      unfold recordPacket at hread
      split at hread
      · rename_i q' n hdecode
        obtain rfl := Option.some.inj hread
        exact packetCodecDecode_byte hdecode
      · exact absurd hread (by simp)
    have hchecked : (importedPacket q).checked = q.checked := by
      unfold importedPacket
      rcases hbyte with hbyte | hbyte <;> rw [hbyte] <;> rfl
    have hunscored : unscoredRecord P record = recordOf (importedPacket q) := by
      unfold unscoredRecord
      rw [hread, Option.bind_some, recordOf_importedPacket hbyte]
      rfl
    have hroute : decide (record.getD 2 0 = 1#8) = decide ((importedPacket q).checked = 1) := by
      rw [hchecked]
      exact recordOf_flag_eq hencoded hbyte
    rw [List.flatten_cons, readAll_of_some (fun _ _ _ => frontPacket_length) hfront, List.drop_left, List.map_cons,
      poolRecords_cons, ih fun r hr => h r (List.mem_cons_of_mem _ hr), poolRecords_singleton, List.filter_cons, hroute]
    split
    · rename_i hc
      rw [if_pos (decide_eq_true hc), List.filterMap_cons, hunscored]
      cases recordOf (importedPacket q) <;> rfl
    · rename_i hc
      rw [if_neg (by simpa using hc), zero_add]

/-- A body of records is readable at all its places. -/
theorem bodyReadable_flatten (h : ∀ r ∈ records, IsRecord P r) : BodyReadable P .packed records.flatten := by
  rintro - rest hplace
  induction records with
  | nil =>
    have hempty : CodecReadable P ([] : List Byte) := by
      left
      unfold packetCodecPrefix packetCodecHeaderBytes
      exact Nat.lt_of_lt_of_le (Nat.succ_pos 5) (Nat.le_add_right _ _)
    cases hplace with
    | here => exact hempty
    | next hfront _ =>
      have hlen := frontPacket_length hfront
      exact absurd (Nat.lt_of_lt_of_le hlen.1 hlen.2) (Nat.lt_irrefl 0)
  | cons record records ih =>
    have hrecord := h record List.mem_cons_self
    rw [List.flatten_cons] at hplace
    cases hplace with
    | here => exact .inr (.inl (hrecord.clean _).1)
    | next hfront hplace =>
      obtain ⟨q, hfirst, -, -⟩ := hrecord.front false records.flatten
      obtain ⟨-, rfl⟩ := Prod.mk.inj (Option.some.inj (hfirst.symm.trans hfront))
      rw [List.drop_left] at hplace
      exact ih (fun r hr => h r (List.mem_cons_of_mem _ hr)) hplace

end ReadBack

section Restored

variable {P : Puzzle} {tier : TierCodec} {env : ImportEnv P} {s t : Store} {layout : RawLayout P}
variable (hlaw : ∀ zstd, tier.zstd = some zstd → zstd.Lawful) (hprompt : ∀ n, Prompt (env.rounds n))

include hlaw hprompt

/-- A backup that is restored puts each record of memory back into its pool, without its score. -/
theorem restore_backupBody (h : s.Flagged P tier) {body : List Byte} (hbody : backupBody P tier s = some body)
    (ht : t.Sound P) (hpos : 0 < t.spill.nbFiles) {file : BackupFile} {header : List Byte}
    (hopened : file.opened P = some (⟨body, false⟩, .packed, header)) :
    (∀ c, ∀ record ∈ s.residents P tier c, (unscoredRecord P record).isSome) ∧
      ∃ r, restore tier env layout file file t = .ok r ∧
        ((r.rc = -1 ∧ ∃ n, Stopped (env.rounds n)) ∨
          (r.rc = 0 ∧ ∀ c, r.store.records P tier c =
            t.cleared.records P tier c + (s.residents P tier c).filterMap (unscoredRecord P))) := by
  obtain ⟨records, rfl, hrecords, hpools⟩ := backupBody_spec h hbody
  refine ⟨fun c record hrecord => ?_, ?_⟩
  · rw [← hpools c, Multiset.mem_coe] at hrecord
    exact unscoredRecord_isSome (hrecords record (List.mem_of_mem_filter hrecord))
  · unfold restore
    rw [hopened]
    dsimp only
    have hspec : (¬ BodyReadable P .packed records.flatten ∧ importFile tier env layout file t.cleared = .overflow) ∨ _ :=
      importFile_spec hlaw hprompt ht.cleared hpos hopened
    rcases hspec with ⟨hbody, -⟩ | ⟨r, hr, hstopped | ⟨hrc, packets, -, hall, hheld⟩⟩
    · exact absurd (bodyReadable_flatten hrecords) hbody
    · exact ⟨r, hr, .inl hstopped⟩
    · refine ⟨r, hr, .inr ⟨hrc, fun c => ?_⟩⟩
      have hread : readable env layout .packed ⟨records.flatten, false⟩ = readAll (frontPacket P env.direct) records.flatten :=
        rfl
      rw [hheld c, hall rfl, hread, poolRecords_readAll hrecords, ← hpools c]
      rfl

end Restored

/-- The pool of a stored record and the flag written in it agree for every packet that is put back or
imported, and for a packet given to `put_to_pool` if and only if its byte is 0 or 1. Along the runs whose
batches have such bytes they always agree, and a backup that is restored then leaves each record in its
pool. -/
theorem storedFlag_agrees {P : Puzzle} {tier : TierCodec} (hlaw : ∀ zstd, tier.zstd = some zstd → zstd.Lawful) :
    (∀ (s : Store), s.Sound P → 0 < s.spill.nbFiles → s.Flagged P tier →
      (∀ (packets : List (Packet P)) (wantChecked : Bool) (currfile : Nat),
        (s.putToPool packets wantChecked (some currfile)).1.Flagged P tier ↔
          ∀ p ∈ packets, p.Encodable → decide (p.checked = 1) = wantChecked → p.checked = 0 ∨ p.checked = 1) ∧
      (∀ (pk : Packet P) (dest : Nat), (s.insert (putBackPool pk) dest pk).Flagged P tier) ∧
      ∀ (env : ImportEnv P) (layout : RawLayout P) (file : BackupFile) (r : ImportResult Store),
        importFile tier env layout file s = .ok r → r.store.Flagged P tier) ∧
    (∀ s s' : FlagState P, s.store.Sound P → 0 < s.store.spill.nbFiles → s.store.Flagged P tier → s.held = [] →
      Run (FlagState.step tier) (fun _ a => a.Clean) s s' → s'.store.Flagged P tier) ∧
    ∀ (s t : Store) (env : ImportEnv P) (layout : RawLayout P) (body header : List Byte) (file : BackupFile),
      s.Flagged P tier → backupBody P tier s = some body → t.Sound P → 0 < t.spill.nbFiles →
      (∀ n, Prompt (env.rounds n)) → file.opened P = some (⟨body, false⟩, .packed, header) →
      (∀ c, ∀ record ∈ s.residents P tier c, (unscoredRecord P record).isSome) ∧
        ∃ r, restore tier env layout file file t = .ok r ∧
          ((r.rc = -1 ∧ ∃ n, Stopped (env.rounds n)) ∨
            (r.rc = 0 ∧ ∀ c, r.store.records P tier c =
              t.cleared.records P tier c + (s.residents P tier c).filterMap (unscoredRecord P))) := by
  refine ⟨fun s hs hpos h => ⟨Store.putToPool_flagged_iff h hs hpos, fun pk dest => ?_, fun env layout file r hr => ?_⟩,
    fun s s' hs hpos h hheld hrun => ?_, fun s t env layout body header file h hbody ht hpos hprompt hopened => ?_⟩
  · exact h.insert fun record hrecord => (fits_recordOf hrecord).mpr rfl
  · exact (importFile_keeps hlaw h hs hpos hr).flagged
  · have hsound : s.Sound tier := ⟨hs, hpos, h, fun x hx => absurd (hheld ▸ hx) List.not_mem_nil⟩
    exact (FlagState.run_sound hlaw hrun hsound).flagged
  · exact restore_backupBody hlaw hprompt h hbody ht hpos hopened

/-! ## A byte of 2 -/

/-- A stock that holds nothing. -/
def noneListed : Store := oneListed.cleared

theorem noneListed_sound : noneListed.Sound .p16 := oneListed_sound.cleared

theorem noneListed_flagged : noneListed.Flagged .p16 ⟨none, false⟩ := by
  intro c record hrecord
  obtain ⟨id, -, -, hmem⟩ := mem_records.mp hrecord
  have hempty : noneListed.stackRecords .p16 ⟨none, false⟩ id = 0 := rfl
  rw [hempty] at hmem
  exact absurd hmem (Multiset.notMem_zero record)

/-- The packet of an empty board with a byte of 2. -/
def twoPacket : Packet .p16 := { emptyPacket with checked := 2 }

/-- The packet with a byte of 2 is put back where its record says. -/
theorem storedFlag_agrees_two : (noneListed.insert (putBackPool twoPacket) 0 twoPacket).Flagged .p16 ⟨none, false⟩ :=
  ((storedFlag_agrees fun zstd h => absurd h (by simp)).1 noneListed noneListed_sound Nat.one_pos
    noneListed_flagged).2.1 twoPacket 0

/-- `put_to_local` stores it as not verified, and its record says that it is. -/
theorem storedFlag_two : ¬ ∀ (P : Puzzle) (tier : TierCodec) (s : Store) (p : Packet P) (currfile : Nat),
    s.Sound P → 0 < s.spill.nbFiles → s.Flagged P tier →
      (s.putToLocal [p] (some currfile) (some currfile)).1.Flagged P tier := by
  intro hall
  have hflagged := hall .p16 ⟨none, false⟩ noneListed twoPacket 0 noneListed_sound Nat.one_pos noneListed_flagged
  have hput : (noneListed.putToLocal [twoPacket] (some 0) (some 0)).1 = (noneListed.putToPool [twoPacket] false (some 0)).1 :=
    rfl
  rw [hput, Store.putToPool_flagged_iff noneListed_flagged noneListed_sound Nat.one_pos] at hflagged
  have hencodable : twoPacket.Encodable := encodable_iff.mpr (by decide +kernel)
  rcases hflagged twoPacket List.mem_cons_self hencodable rfl with hbyte | hbyte
  · exact absurd hbyte (by decide)
  · exact absurd hbyte (by decide)
