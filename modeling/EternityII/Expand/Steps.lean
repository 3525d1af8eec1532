-- SUMMARY: The steps of a thread of an expansion pass: each of them keeps what the pass is about.
import EternityII.Expand.Threads

/-! ## Steps of one kind -/

section Kinds

variable {P : Puzzle} {ps : PieceSet P} {cfg : ExpandConfig} {s : Expansion P} {i : Nat} {w w' : ExpandWorker P}
  {flags : ExpandFlags} {counts : ExpandCounts} {workBytes : Nat} {solution : Option (Packet P)}

/-- A step that leaves the queue, the border and the locks as they are. -/
theorem ThreadStep.of_shared {stock : LocalStock} {above : List (List Byte)} (hready : Ready ps s w)
    (hcarries : Carries ps s
      { s.setWorker i w' with stock, source := { s.source with above }, flags, counts, workBytes, solution } w w')
    (hflags : s.flags.Raises flags) (hfits : w'.Fits)
    (hbytes : s.work.published + w.bytes ≤ s.workBytes → workBytes + w.bytes = s.workBytes + w'.bytes)
    (hheld : w'.held = w.held) (hnext : w.stage.Follows w'.stage)
    (hlevels : flags.Low → w.Deep cfg → s.Risen cfg → w'.Deep cfg ∧
      ({ s with stock, source := { s.source with above } } : Expansion P).Risen cfg) :
    ThreadStep ps cfg s
      { s.setWorker i w' with stock, source := { s.source with above }, flags, counts, workBytes, solution } i w w' where
  carries := hcarries
  flags := hflags
  synced := hready.synced
  fits := hfits
  bytes h := by
    have hbytes : workBytes + w.bytes = s.workBytes + w'.bytes := hbytes h
    change workBytes + (s.work.published + w.bytes) = s.workBytes + (s.work.published + w'.bytes)
    omega
  busy _ := by rw [hheld]; rfl
  refilling _ := by rw [hnext.reading]; rfl
  waits since h := absurd (by rw [h]; trivial) hnext.waits
  empty h := hready.empty (hnext.refills h)
  nothing h := hready.nothing (hnext.exhausts h)
  leaves h := .inl (hnext.leaves h)
  levels hquiet hw hrisen := (hlevels hquiet.flags hw hrisen).imp_right fun h => ⟨h.lists, h.source⟩

/-- A step that only changes what the thread has in hand. -/
theorem ThreadStep.of_hands (hready : Ready ps s w) (hgood : w'.Good ps)
    (hload : flags.aborted = false → solution = none → ∀ b, w'.load ps b = w.load ps b)
    (hflags : s.flags.Raises flags) (hfits : w'.Fits)
    (hbytes : s.work.published + w.bytes ≤ s.workBytes → workBytes + w.bytes = s.workBytes + w'.bytes)
    (hheld : w'.held = w.held) (hnext : w.stage.Follows w'.stage) (hdeep : flags.Low → w.Deep cfg → w'.Deep cfg) :
    ThreadStep ps cfg s { s.setWorker i w' with flags, counts, workBytes, solution } i w w' := by
  refine .of_shared hready ⟨hready.records, id, hgood, fun haborted hsolution b => ?_⟩ hflags hfits hbytes hheld hnext
    fun hlow hw hrisen => ⟨hdeep hlow hw, hrisen.lists, hrisen.source⟩
  rw [hload haborted hsolution b]
  rfl

/-- A step that only moves what the thread has in hand. -/
theorem ThreadStep.of_moved (hready : Ready ps s w) (hrecords : w'.records.Perm w.records) (hpackets : w'.packets.Perm w.packets)
    (hflags : s.flags.Raises flags) (hfits : w'.Fits)
    (hbytes : s.work.published + w.bytes ≤ s.workBytes → workBytes + w.bytes = s.workBytes + w'.bytes)
    (hheld : w'.held = w.held) (hnext : w.stage.Follows w'.stage) (hdeep : flags.Low → w.Deep cfg → w'.Deep cfg) :
    ThreadStep ps cfg s { s.setWorker i w' with flags, counts, workBytes, solution } i w w' := by
  refine .of_hands hready (hready.worker.of_subset hrecords.subset hpackets.subset) (fun _ _ b => ?_) hflags hfits hbytes hheld
    hnext hdeep
  unfold ExpandWorker.load
  rw [recordLoad_perm hrecords, packetLoad_perm hpackets]

end Kinds

/-! ## A batch -/

section Batches

variable {P : Puzzle} {ps : PieceSet P} {al : MapAllocs} {cfg : ExpandConfig} {s s' : Expansion P} {i : Nat} {w : ExpandWorker P}

/-- Good records decode, one packet for each, and count as many bytes as before. -/
theorem decodeBatch_spec {records : List (List Byte)} (h : ∀ r ∈ records, GoodRecord ps r) :
    ((decodeBatch P records).map fun p => expandRecordBytes p.1).sum = workBytesOf records ∧
      (decodeBatch P records).map Prod.snd = records.filterMap (recordPacket P) ∧
      (records.filter fun record => (recordPacket P record).isNone) = [] := by
  induction records with
  | nil => exact ⟨rfl, rfl, rfl⟩
  | cons record records ih =>
    obtain ⟨-, q, hread, -⟩ := (h record List.mem_cons_self).read
    obtain ⟨hbytes, hpackets, hlost⟩ := ih fun r hr => h r (List.mem_cons_of_mem _ hr)
    have hcons : decodeBatch P (record :: records) = (record.length, q) :: decodeBatch P records := by
      unfold decodeBatch
      rw [List.filterMap_cons, hread]
      rfl
    refine ⟨?_, ?_, ?_⟩
    · rw [hcons, List.map_cons, List.sum_cons, hbytes]
      rfl
    · rw [hcons, List.map_cons, hpackets, List.filterMap_cons_some hread]
    · rw [List.filter_cons_of_neg (by rw [hread]; exact Bool.false_ne_true), hlost]

theorem good_of_decoded {records : List (List Byte)} (h : ∀ r ∈ records, GoodRecord ps r) :
    ∀ p ∈ records.filterMap (recordPacket P), p.Good ps := by
  intro p hp
  obtain ⟨r, hr, hread⟩ := List.mem_filterMap.mp hp
  obtain ⟨-, q, hq, hgood, -⟩ := (h r hr).read
  obtain rfl := Option.some.inj (hread.symm.trans hq)
  exact hgood

theorem decodeStep_spec (hready : Ready ps s w) (h : s.decodeStep i w = some s') : ∃ w', ThreadStep ps cfg s s' i w w' := by
  unfold Expansion.decodeStep at h
  split at h
  swap
  · cases h
  rename_i hstage
  have hf : w.FitsAt .decoding := hstage ▸ hready.fits
  obtain ⟨hfresh, hfreshHold⟩ := hf.fresh id
  have hbatch := hf.batch id
  have hdrawn : ∀ r ∈ w.drawn, GoodRecord ps r := fun r hr => hready.worker.records r (by simp [ExpandWorker.records, hr])
  obtain ⟨hbytes, hpackets, hlost⟩ := decodeBatch_spec hdrawn
  rw [hlost] at h
  cases h
  refine ⟨_, .of_hands hready ⟨fun r hr => ?_, ?_⟩ (fun _ _ b => ?_) (.refl _) ?_ (fun _ => ?_) rfl
    (by rw [hstage]; exact ⟨.rfl, id, id, id, id⟩) fun _ hdeep => hdeep.of_stage rfl rfl rfl rfl⟩
  · exact hready.worker.records r (by simp_all [ExpandWorker.records])
  · intro p hp
    obtain hp | hp : p ∈ w.drawn.filterMap (recordPacket P) ∨ p ∈ w.children := by
      simpa [ExpandWorker.packets, hpackets] using hp
    · exact good_of_decoded hdrawn p hp
    · rw [hf.children id] at hp
      cases hp
  · rw [ExpandWorker.load_eq, ExpandWorker.load_eq, hbatch, hstage]
    simp only [hpackets, packetLoad_filterMap hdrawn]
    simp [recordLoad_nil, packetLoad_nil]
    omega
  · exact ⟨fun _ => ⟨hfresh, hfreshHold⟩, fun _ => rfl, fun h => absurd trivial h, fun _ => hf.children id,
      fun _ => hf.unstored id, False.elim, fun _ => Or.inr trivial, hf.published, hf.max⟩
  · unfold ExpandWorker.bytes
    rw [hbytes, hbatch]
    simp [workBytesOf]

theorem packets_of_batch {len : Nat} {packet : Packet P} {rest : List (Nat × Packet P)} (hstage : w.stage = .working)
    (hbatch : w.batch = (len, packet) :: rest) : w.packets = packet :: (rest.map Prod.snd ++ w.children) := by
  simp [ExpandWorker.packets, hbatch, hstage]

theorem bytes_of_batch {len : Nat} {packet : Packet P} {rest : List (Nat × Packet P)} (hbatch : w.batch = (len, packet) :: rest) :
    w.bytes = expandRecordBytes len +
      (w.freshPublished + workBytesOf w.drawn + (rest.map fun p => expandRecordBytes p.1).sum) := by
  dsimp only [ExpandWorker.bytes]
  rw [hbatch, List.map_cons, List.sum_cons]
  dsimp only
  omega

/-- The packet goes back to the stock, as it is. -/
theorem packetStored_spec (hready : Ready ps s w) (hstage : w.stage = .working) {len : Nat} {packet : Packet P}
    {rest : List (Nat × Packet P)} (hbatch : w.batch = (len, packet) :: rest) {flags : ExpandFlags} (hflags : s.flags.Raises flags)
    (hdeep : flags.Low → ¬ packet.alloc < cfg.targetLevel) :
    ThreadStep ps cfg s { s.setWorker i (({ w with batch := rest } : ExpandWorker P).beginStore packet .batch) with
      flags, workBytes := s.workBytes - expandRecordBytes len } i w
      (({ w with batch := rest } : ExpandWorker P).beginStore packet .batch) := by
  have hf : w.FitsAt .working := hstage ▸ hready.fits
  refine .of_moved hready (.of_eq ?_) ?_ hflags ?_ (fun h => ?_) rfl
    (by rw [hstage]; exact ⟨.rfl, id, id, id, fun h => absurd trivial h⟩) fun hlow hw => ⟨?_, ?_⟩
  · simp [ExpandWorker.records, ExpandWorker.beginStore, hstage]
  · rw [packets_of_batch hstage hbatch]
    exact List.perm_append_singleton _ _
  · exact ⟨fun _ => hf.fresh id, fun _ => hf.drawn id, fun h => absurd trivial h, fun _ => hf.children id,
      fun _ => hf.unstored id, False.elim, fun _ => Or.inr trivial, hf.published, hf.max⟩
  · rw [bytes_of_batch hbatch] at h ⊢
    dsimp only [ExpandWorker.bytes, ExpandWorker.beginStore]
    omega
  · intro r hr
    exact hw.records r (by simpa [ExpandWorker.beginStore, hstage] using hr)
  · intro p hp
    rw [List.mem_singleton.mp hp]
    exact hdeep hlow

theorem treatStep_spec (hready : Ready ps s w) (htarget : cfg.targetLevel.toNat ≤ P.eternParts)
    (h : s.treatStep ps (prepareMapPart ps al) cfg i w = some s') : ∃ w', ThreadStep ps cfg s s' i w w' := by
  unfold Expansion.treatStep at h
  split at h
  swap
  · cases h
  rename_i hstage
  have hf : w.FitsAt .working := hstage ▸ hready.fits
  obtain ⟨hfresh, hfreshHold⟩ := hf.fresh id
  split at h
  · -- The batch is done.
    rename_i hbatch
    cases h
    exact ⟨_, .of_moved hready (.of_eq (by simp [ExpandWorker.records, hstage])) (.of_eq (by simp [ExpandWorker.packets, hstage])) (.refl _)
      ⟨fun _ => ⟨hfresh, hfreshHold⟩, fun _ => hf.drawn id, fun _ => hbatch, fun _ => hf.children id,
        fun _ => hf.unstored id, False.elim, fun _ => trivial, hf.published, hf.max⟩ (fun _ => rfl) rfl
      (by rw [hstage]; exact ⟨.rfl, id, id, id, id⟩) fun _ hdeep => hdeep.of_stage rfl rfl rfl rfl⟩
  · rename_i len packet rest hbatch
    have hpackets := packets_of_batch hstage hbatch
    have hpacket : packet.Good ps := hready.worker.packets packet (by rw [hpackets]; exact List.mem_cons_self)
    have hbytes := bytes_of_batch hbatch
    dsimp only at h
    split at h
    · -- A stop has been requested.
      rename_i haborted
      cases h
      refine ⟨_, .of_hands hready (hready.worker.of_subset ?_ ?_) (fun h => absurd (haborted.symm.trans h) (by decide)) (.refl _) ?_
        (fun h => ?_) rfl (by rw [hstage]; exact ⟨.rfl, id, id, id, id⟩) fun _ hdeep => hdeep.of_stage rfl rfl rfl rfl⟩
      · exact fun r hr => by simpa [ExpandWorker.records, hstage] using hr
      · intro p hp
        rw [hpackets]
        exact List.mem_cons_of_mem _ (List.mem_append_right _ (by simpa [ExpandWorker.packets] using hp))
      · exact ⟨fun _ => ⟨hfresh, hfreshHold⟩, fun _ => hf.drawn id, fun _ => rfl, fun _ => hf.children id,
          fun _ => hf.unstored id, False.elim, fun _ => trivial, hf.published, hf.max⟩
      · dsimp only [ExpandWorker.bytes] at h ⊢
        rw [List.map_nil, List.sum_nil]
        omega
    · split at h
      · -- A child of this pass, read again.
        cases h
        refine ⟨_, packetStored_spec hready hstage hbatch ⟨id, id, id, fun h => ?_⟩ fun hlow => ?_⟩
        · rw [h]
          rfl
        · exact of_decide_eq_false (Bool.or_eq_false_iff.mp hlow.shallowProduced).2
      · split at h
        · -- At the target level, or the pass does not develop any more.
          rename_i hback
          cases h
          refine ⟨_, packetStored_spec hready hstage hbatch ⟨id, id, fun h => ?_, id⟩ fun hlow hshallow => ?_⟩
          · rw [h]
            rfl
          · have hcap : s.flags.capReached = false := hlow.capReached
            have hdeferred := (Bool.or_eq_false_iff.mp hlow.shallowDeferred).2
            rw [hcap, decide_eq_true hshallow] at hdeferred
            cases hdeferred
        · rename_i hback
          have hshallow : packet.alloc < cfg.targetLevel := by
            by_contra hdeep
            exact hback (by rw [decide_eq_false hdeep]; rfl)
          have hfull : ∃ c, packet.grid c = -2 := by
            by_contra hall
            have hplaced := placedCount_eq_iff.mpr fun c hc => hall ⟨c, hc⟩
            have halloc := hpacket.alloc
            have hlt : packet.alloc.toNat < cfg.targetLevel.toNat := hshallow
            omega
          obtain ⟨hchildren, hload⟩ := searchPossiblityLightPruned_load al hpacket.wellFormed hfull
          cases h
          refine ⟨_, .of_hands hready ⟨?_, ?_⟩ (fun _ _ b => ?_) ⟨id, id, id, id⟩ ?_ (fun h => ?_) rfl
            (by rw [hstage]; exact ⟨.rfl, id, id, id, id⟩) fun _ hdeep => hdeep.of_stage rfl rfl rfl rfl⟩
          · intro r hr
            exact hready.worker.records r (by simpa [ExpandWorker.records, hstage] using hr)
          · intro p hp
            obtain hp | hp := List.mem_append.mp (List.mem_append.mp hp |>.resolve_right List.not_mem_nil)
            · exact hready.worker.packets p (by rw [hpackets]; exact List.mem_cons_of_mem _ (List.mem_append_left _ hp))
            · exact hchildren p (List.mem_reverse.mp hp)
          · have hreverse : packetLoad ps (searchPossiblityLightPruned ps (prepareMapPart ps al) [] packet 0).file.reverse b =
                packetLoad ps [packet] b := (packetLoad_perm (List.reverse_perm _)).trans (hload b)
            have hcons : packetLoad ps (packet :: rest.map Prod.snd) b =
                packetLoad ps [packet] b + packetLoad ps (rest.map Prod.snd) b := packetLoad_append [packet] _
            rw [ExpandWorker.load_eq, ExpandWorker.load_eq, hstage, hbatch, hf.children id, List.map_cons, hcons]
            dsimp only [ExpandStage.pending, ExpandStage.packet, Option.toList]
            rw [hreverse, packetLoad_nil]
            omega
          · exact ⟨fun _ => ⟨hfresh, hfreshHold⟩, fun _ => hf.drawn id, fun h => absurd trivial h, fun h => absurd trivial h,
              fun _ => hf.unstored id, False.elim, fun _ => Or.inr trivial, hf.published, hf.max⟩
          · rw [hbytes] at h ⊢
            dsimp only [ExpandWorker.bytes]
            omega

/-- A thread over its children stays there with other children and another block. -/
theorem ExpandWorker.FitsAt.developing (hf : w.FitsAt .developing) (hstage : w.stage = .developing) (children : List (Packet P))
    (block : List (List Byte)) (inserted : Nat) : ({ w with children, block, inserted } : ExpandWorker P).Fits := by
  have hfits : ({ w with children, block, inserted } : ExpandWorker P).FitsAt .developing :=
    ⟨hf.fresh, hf.drawn, hf.batch, fun h => absurd trivial h, hf.unstored, False.elim, hf.holding, hf.published, hf.max⟩
  rwa [← hstage] at hfits

theorem packets_subset {children : List (Packet P)} (hsub : children ⊆ w.children) :
    ({ w with children } : ExpandWorker P).packets ⊆ w.packets := by
  intro p hp
  simp only [ExpandWorker.packets, List.mem_append] at hp ⊢
  exact hp.imp_left (Or.imp_right (hsub ·))

section Child

variable {child : Packet P} {rest : List (Packet P)} {record : List Byte} {flags : ExpandFlags}

/-- A child that is inserted by itself. -/
theorem childAlone_spec (hready : Ready ps s w) (hstage : w.stage = .developing) (hchildren : w.children = child :: rest)
    (hraises : s.flags.Raises flags) (hdeep : flags.Low → ¬ child.alloc < cfg.targetLevel) :
    ∃ w', ThreadStep ps cfg s
      { s.setWorker i (({ w with children := rest } : ExpandWorker P).beginStore child .child) with flags } i w w' := by
  have hf : w.FitsAt .developing := hstage ▸ hready.fits
  refine ⟨_, .of_moved hready (.of_eq ?_) ?_ hraises ?_ (fun _ => rfl) rfl
    (by rw [hstage]; exact ⟨.rfl, id, id, id, fun h => absurd trivial h⟩) fun hlow hw => ⟨?_, ?_⟩⟩
  · simp [ExpandWorker.records, ExpandWorker.beginStore, hstage]
  · unfold ExpandWorker.packets ExpandWorker.beginStore
    rw [hchildren, hstage]
    exact (List.perm_append_singleton _ _).trans ((List.perm_middle).symm.trans (.of_eq (List.append_nil _).symm))
  · exact ⟨fun _ => hf.fresh id, fun _ => hf.drawn id, fun h => absurd trivial h, fun h => absurd trivial h,
      fun _ => hf.unstored id, False.elim, fun _ => Or.inr trivial, hf.published, hf.max⟩
  · intro r hr
    exact hw.records r (by simpa [ExpandWorker.beginStore, hstage] using hr)
  · intro p hp
    rw [List.mem_singleton.mp hp]
    exact hdeep hlow

/-- A child with a record, which waits for the block to be stored or comes into it. -/
theorem childRecord_spec (hready : Ready ps s w) (hstage : w.stage = .developing) (hchildren : w.children = child :: rest)
    (hrecord : recordOf child = some record) (hraises : s.flags.Raises flags)
    (hdeep : flags.Low → ¬ child.alloc < cfg.targetLevel) :
    (∃ w', ThreadStep ps cfg s
      { s.setWorker i { w with stage := .flushing (some record), children := rest } with flags } i w w') ∧
    ∀ counts, ∃ w', ThreadStep ps cfg s
      { s.setWorker i { w with children := rest, block := w.block ++ [record], inserted := w.inserted + 1 } with
        flags, counts } i w w' := by
  have hf : w.FitsAt .developing := hstage ▸ hready.fits
  have hchild : child.Good ps := hready.worker.packets child (by simp [ExpandWorker.packets, hchildren])
  obtain ⟨_, hrecord', hgood, -, hload⟩ := hchild.wellFormed.exists_record
  obtain rfl := Option.some.inj (hrecord.symm.trans hrecord')
  have hcons : ∀ b, packetLoad ps (child :: rest) b = packetLoad ps [child] b + packetLoad ps rest b :=
    fun b => packetLoad_append [child] _
  have hrest : rest ⊆ w.children := by
    rw [hchildren]
    exact List.subset_cons_self _ _
  have hdeepRecord : ¬ child.alloc < cfg.targetLevel → DeepRecord cfg P record := deepRecord_of_good hchild hrecord
  constructor
  · -- The block has no room for it.
    refine ⟨_, .of_hands hready ⟨fun r hr => ?_, fun p hp => ?_⟩ (fun _ _ b => ?_) hraises ?_ (fun h => rfl) rfl
      (by rw [hstage]; exact ⟨.rfl, id, id, id, fun h => absurd rfl h⟩)
      fun hlow hw => ⟨fun r hr => ?_, fun _ hp => absurd hp List.not_mem_nil⟩⟩
    · obtain hr | rfl : r ∈ w.records ∨ r = record := by
        simpa [ExpandWorker.records, hstage, or_assoc] using hr
      · exact hready.worker.records r hr
      · exact hgood
    · exact hready.worker.packets p (packets_subset hrest (by simpa [ExpandWorker.packets, hstage] using hp))
    · rw [ExpandWorker.load_eq, ExpandWorker.load_eq, hchildren, hcons, hstage]
      dsimp only [ExpandStage.pending, ExpandStage.packet, Option.toList]
      rw [hload, recordLoad_nil]
      omega
    · exact ⟨fun _ => hf.fresh id, fun _ => hf.drawn id, fun h => absurd rfl h, fun h => absurd rfl h,
        fun _ => hf.unstored id, False.elim, fun _ => Or.inr rfl, hf.published, hf.max⟩
    · obtain hr | rfl : r ∈ w.block ++ w.unstored ++ w.stage.pending.toList ∨ r = record := by
        simpa [hstage, or_assoc] using hr
      · exact hw.records r hr
      · exact hdeepRecord (hdeep hlow)
  · -- The child comes into the block.
    refine fun _ => ⟨_, .of_hands hready ⟨fun r hr => ?_, fun p hp => ?_⟩ (fun _ _ b => ?_) hraises (hf.developing hstage _ _ _)
      (fun h => rfl) rfl (by rw [hstage]; exact ⟨.rfl, id, id, id, id⟩) fun hlow hw => ⟨fun r hr => ?_, hw.packet⟩⟩
    · obtain hr | rfl : r ∈ w.records ∨ r = record := by
        simp only [ExpandWorker.records, List.mem_append, List.mem_singleton] at hr ⊢
        tauto
      · exact hready.worker.records r hr
      · exact hgood
    · exact hready.worker.packets p (packets_subset hrest hp)
    · rw [ExpandWorker.load_eq, ExpandWorker.load_eq, hchildren, hcons, recordLoad_append, hload]
      dsimp only
      omega
    · obtain hr | rfl : r ∈ w.block ++ w.unstored ++ w.stage.pending.toList ∨ r = record := by
        simp only [List.mem_append, List.mem_singleton] at hr ⊢
        tauto
      · exact hw.records r hr
      · exact hdeepRecord (hdeep hlow)

theorem childStep_spec (hready : Ready ps s w) {turns : List Turn}
    (h : s.childStep ps (prepareMapPart ps al) cfg i w turns = some s') : ∃ w', ThreadStep ps cfg s s' i w w' := by
  unfold Expansion.childStep at h
  split at h
  swap
  · cases h
  rename_i hstage
  have hf : w.FitsAt .developing := hstage ▸ hready.fits
  split at h
  · -- The children are done.
    rename_i hchildren
    cases h
    refine ⟨_, .of_moved hready (.of_eq ?_) (.of_eq ?_) ⟨id, fun h => ?_, id, id⟩ ?_ (fun _ => rfl) rfl
      (by rw [hstage]; exact ⟨.rfl, id, id, id, id⟩) fun _ hdeep => hdeep.of_stage rfl rfl rfl rfl⟩
    · simp [ExpandWorker.records, hstage]
    · simp [ExpandWorker.packets, hstage]
    · rw [h]
      rfl
    · exact ⟨fun _ => hf.fresh id, fun _ => hf.drawn id, fun h => absurd trivial h, fun _ => hchildren,
        fun _ => hf.unstored id, False.elim, fun _ => Or.inr trivial, hf.published, hf.max⟩
  · rename_i child rest hchildren
    have hchild : child.Good ps := hready.worker.packets child (by simp [ExpandWorker.packets, hchildren])
    have hnext : w.stage.Follows w.stage := by
      rw [hstage]
      exact ⟨.rfl, id, id, id, id⟩
    split at h
    · -- A stop has been requested.
      rename_i haborted
      cases h
      refine ⟨_, .of_hands hready (hready.worker.of_subset (fun r hr => hr) (packets_subset (List.nil_subset _)))
        (fun h => absurd (haborted.symm.trans h) (by decide)) (.refl _) (hf.developing hstage _ _ _) (fun h => rfl) rfl hnext
        fun _ hdeep => ⟨hdeep.records, hdeep.packet⟩⟩
    · split at h
      · cases h
      · -- The child is refuted.
        rename_i hcloses
        cases h
        have hsub : rest ⊆ w.children := by
          rw [hchildren]
          exact List.subset_cons_self _ _
        refine ⟨_, .of_hands hready (hready.worker.of_subset (fun r hr => hr) (packets_subset hsub)) (fun _ _ b => ?_) (.refl _)
          (hf.developing hstage _ _ _) (fun h => rfl) rfl hnext fun _ hdeep => ⟨hdeep.records, hdeep.packet⟩⟩
        have hempty := completions_of_closes al hchild.wellFormed hcloses
        have hzero : packetLoad ps [child] b = 0 := Cover.sameLoad_nil_of_empty hempty b
        have hcons : packetLoad ps (child :: rest) b = packetLoad ps [child] b + packetLoad ps rest b :=
          packetLoad_append [child] _
        rw [ExpandWorker.load_eq, ExpandWorker.load_eq, hchildren, hcons, hzero, Nat.zero_add]
      · have hraises : s.flags.Raises { s.flags with
            shallowProduced := s.flags.shallowProduced || decide (child.alloc < cfg.targetLevel) } := by
          refine ⟨id, id, id, fun h => ?_⟩
          rw [h]
          rfl
        have hdeep : ({ s.flags with
            shallowProduced := s.flags.shallowProduced || decide (child.alloc < cfg.targetLevel) } : ExpandFlags).Low →
            ¬ child.alloc < cfg.targetLevel :=
          fun hlow => of_decide_eq_false (Bool.or_eq_false_iff.mp hlow.shallowProduced).2
        dsimp only at h
        split at h
        · cases h
          exact childAlone_spec hready hstage hchildren hraises hdeep
        · rename_i record hrecord
          have hrecord := (Option.ite_none_left_eq_some.mp hrecord).2
          split at h <;> cases h
          · exact (childRecord_spec hready hstage hchildren hrecord hraises hdeep).1
          · exact (childRecord_spec hready hstage hchildren hrecord hraises hdeep).2 _

end Child

end Batches

/-! ## Insertions -/

section Insertions

variable {P : Puzzle} {ps : PieceSet P} {cfg : ExpandConfig} {s s' : Expansion P} {i : Nat} {w : ExpandWorker P}
  {packet : Packet P} {status : AddStatus} {wait : RoomWait} {next : StoreNext} {pending : Option (List Byte)}

/-- The stages of one insertion. -/
def ExpandStage.Inserts (packet : Packet P) (next : StoreNext) (stage : ExpandStage P) : Prop :=
  (∃ wait, stage = .storing packet wait next) ∨ (∃ status wait, stage = .refused packet status wait next) ∨
    ∃ status wait, stage = .returning packet status wait next

/-- What the stages of an insertion have in common. -/
theorem ExpandStage.Inserts.same {stage : ExpandStage P} (h : stage.Inserts packet next) :
    stage.pending = next.pending ∧ stage.packet = some packet ∧ (stage.Leaves ↔ ¬ next.Treats) ∧ ¬ stage.Reads ∧
      ¬ stage.Waits ∧ ¬ stage.Refills ∧ ¬ stage.Exhausts := by
  obtain ⟨_, rfl⟩ | ⟨_, _, rfl⟩ | ⟨_, _, rfl⟩ := h <;> exact ⟨rfl, rfl, .rfl, id, id, id, id⟩

theorem ExpandStage.Inserts.follows {stage stage' : ExpandStage P} (h : stage.Inserts packet next) (h' : stage'.Inserts packet next) :
    stage.Follows stage' := by
  obtain ⟨-, -, hleaves, hreads, -⟩ := h.same
  obtain ⟨-, -, hleaves', hreads', hwaits', hrefills', hexhausts'⟩ := h'.same
  exact ⟨iff_of_false hreads' hreads, hwaits', (absurd · hrefills'), (absurd · hexhausts'), fun h => hleaves.mpr (hleaves'.mp h)⟩

/-- What a thread has during an insertion. -/
structure ExpandWorker.Inserting (w : ExpandWorker P) (next : StoreNext) : Prop where
  fresh : w.fresh = [] ∧ w.freshHold = []
  drawn : w.drawn = []
  batch : ¬ next.Treats → w.batch = []
  children : ¬ next.Develops → w.children = []
  unstored : ¬ next.Restores → w.unstored = []
  block : next.Restores → w.block = []
  holding : w.holding = true → next.Treats
  published : w.freshPublished = workBytesOf w.fresh + workBytesOf w.freshHold
  max : 0 < w.max

theorem ExpandWorker.FitsAt.inserting {stage : ExpandStage P} (hf : w.FitsAt stage) (h : stage.Inserts packet next) :
    w.Inserting next := by
  have hholding : w.holding = true → next.Treats := by
    intro hholding
    have hholds := hf.holding hholding
    obtain ⟨_, rfl⟩ | ⟨_, _, rfl⟩ | ⟨_, _, rfl⟩ := h <;> exact Or.resolve_left hholds id
  obtain ⟨_, rfl⟩ | ⟨_, _, rfl⟩ | ⟨_, _, rfl⟩ := h <;>
    exact ⟨hf.fresh id, hf.drawn id, hf.batch, hf.children, hf.unstored, hf.block, hholding, hf.published, hf.max⟩

theorem ExpandStage.Inserts.fits {stage : ExpandStage P} (h : stage.Inserts packet next) (hi : w.Inserting next) : w.FitsAt stage := by
  obtain ⟨_, rfl⟩ | ⟨_, _, rfl⟩ | ⟨_, _, rfl⟩ := h <;>
    exact ⟨fun _ => hi.fresh, fun _ => hi.drawn, hi.batch, hi.children, hi.unstored, hi.block, fun h => Or.inr (hi.holding h),
      hi.published, hi.max⟩

/-- A step from one stage of an insertion to another. -/
theorem ThreadStep.of_inserts (hready : Ready ps s w) (h : w.stage.Inserts packet next) {stage : ExpandStage P}
    (h' : stage.Inserts packet next) {stock : LocalStock} (hunchecked : stock.unchecked.files = s.stock.unchecked.files)
    (hchecked : stock.checked.files = s.stock.checked.files) :
    ThreadStep ps cfg s (({ s with stock } : Expansion P).setWorker i { w with stage }) i w { w with stage } := by
  obtain ⟨hpending, hpacket, -⟩ := h.same
  obtain ⟨hpending', hpacket', -⟩ := h'.same
  have hi := hready.fits.inserting h
  have hi' : ({ w with stage } : ExpandWorker P).Inserting next :=
    ⟨hi.fresh, hi.drawn, hi.batch, hi.children, hi.unstored, hi.block, hi.holding, hi.published, hi.max⟩
  have hrecords : ({ w with stage } : ExpandWorker P).records = w.records := by
    unfold ExpandWorker.records
    rw [hpending, hpending']
  have hpackets : ({ w with stage } : ExpandWorker P).packets = w.packets := by
    unfold ExpandWorker.packets
    rw [hpacket, hpacket']
  refine .of_shared hready (.of_perm hready.records hready.worker (.of_eq ?_) (.of_eq hpackets) hchecked rfl) (.refl _)
    (h'.fits hi') (fun _ => rfl) rfl (h.follows h') fun _ hw hrisen =>
      ⟨⟨?_, ?_⟩, fun r hr => hrisen.lists r (hunchecked ▸ hr), hrisen.source⟩
  · rw [hrecords]
    unfold Expansion.records
    dsimp only
    rw [hunchecked]
    rfl
  · rw [hpending', ← hpending]
    exact hw.records
  · rw [hpacket', ← hpacket]
    exact hw.packet

/-- What a thread has when an insertion is over. -/
structure GoesOn (cfg : ExpandConfig) (packet : Packet P) (w w' : ExpandWorker P) : Prop where
  fits : w'.Fits
  records : w'.records = w.records
  packets : w.packets.Perm (w'.packets ++ [packet])
  bytes : w'.bytes = w.bytes
  held : w'.held = w.held
  follows : w.stage.Follows w'.stage
  deep : w.Deep cfg → w'.Deep cfg

theorem goOn_spec (h : w.stage.Inserts packet next) (hf : w.Fits) : GoesOn cfg packet w (w.goOn next) := by
  obtain ⟨hpending, hpacket, hleaves, hreads, -⟩ := h.same
  have hi := hf.inserting h
  refine ⟨?_, ?_, ?_, ?_, ?_, ?_, fun hw => ?_⟩
  · cases next with
    | batch =>
      exact ⟨fun _ => hi.fresh, fun _ => hi.drawn, fun h => absurd trivial h, fun _ => hi.children id, fun _ => hi.unstored id,
        False.elim, fun _ => Or.inr trivial, hi.published, hi.max⟩
    | child =>
      exact ⟨fun _ => hi.fresh, fun _ => hi.drawn, fun h => absurd trivial h, fun h => absurd trivial h, fun _ => hi.unstored id,
        False.elim, fun _ => Or.inr trivial, hi.published, hi.max⟩
    | block pending =>
      exact ⟨fun _ => hi.fresh, fun _ => hi.drawn, hi.batch, hi.children, fun h => absurd trivial h, hi.block,
        fun h => Or.inr (hi.holding h), hi.published, hi.max⟩
  · unfold ExpandWorker.records
    rw [hpending]
    cases next <;> rfl
  · unfold ExpandWorker.packets
    rw [hpacket]
    cases next <;> exact .of_eq (by simp [ExpandWorker.goOn])
  · cases next <;> rfl
  · cases next <;> rfl
  · cases next with
    | block pending => exact ⟨iff_of_false id hreads, id, False.elim, False.elim, hleaves.mpr⟩
    | _ => exact ⟨iff_of_false id hreads, id, False.elim, False.elim, False.elim⟩
  · have hrecords := hw.records
    rw [hpending] at hrecords
    cases next <;> exact ⟨hrecords, fun _ hp => absurd hp List.not_mem_nil⟩

/-- The insertion of a packet is over: it has been given up, or it is in the stock. -/
theorem stored_spec (hready : Ready ps s w) (h : w.stage.Inserts packet next) {stock : LocalStock} (wait : RoomWait) (aborts : Bool)
    (hgood : ∀ r ∈ stock.unchecked.files.flatten, r ∈ s.stock.unchecked.files.flatten ∨ GoodRecord ps r)
    (hchecked : ∀ r ∈ stock.checked.files.flatten, r ∈ s.stock.checked.files.flatten ∨ GoodRecord ps r)
    (hload : aborts = false → ∀ b, recordLoad ps stock.unchecked.files.flatten b + recordLoad ps stock.checked.files.flatten b =
      recordLoad ps s.stock.unchecked.files.flatten b + recordLoad ps s.stock.checked.files.flatten b + packetLoad ps [packet] b)
    (hdeep : ¬ packet.alloc < cfg.targetLevel → aborts = false → ∀ r ∈ stock.unchecked.files.flatten,
      r ∈ s.stock.unchecked.files.flatten ∨ DeepRecord cfg P r) :
    ThreadStep ps cfg s (({ s with stock } : Expansion P).stored i w wait next aborts) i w (w.goOn next) := by
  have hgo : GoesOn cfg packet w (w.goOn next) := goOn_spec h hready.fits
  refine .of_shared hready ⟨?_, fun h r hr => (hchecked r hr).elim (h r) id, ?_, ?_⟩ ⟨fun h => ?_, id, id, id⟩ hgo.fits
    (fun _ => congrArg _ hgo.bytes.symm) hgo.held hgo.follows fun hlow hw hrisen => ⟨hgo.deep hw, ?_⟩
  · intro r hr
    have hrest := hready.records r
    simp only [Expansion.records, List.mem_append, or_assoc] at hr hrest
    obtain hr | hr := hr
    · exact (hgood r hr).elim (fun hr => hrest (.inl hr)) id
    · exact hrest (.inr hr)
  · exact hready.worker.of_subset (List.Perm.of_eq hgo.records).subset fun p hp => hgo.packets.mem_iff.mpr (List.mem_append_left _ hp)
  · intro haborted hsolution b
    have hload := hload (Bool.or_eq_false_iff.mp haborted).2 b
    have hpackets : packetLoad ps w.packets b = packetLoad ps (w.goOn next).packets b + packetLoad ps [packet] b :=
      (packetLoad_perm hgo.packets).trans (packetLoad_append _ _)
    have hshared : (({ s with stock } : Expansion P).stored i w wait next aborts).shared ps b =
        recordLoad ps stock.unchecked.files.flatten b + recordLoad ps s.source.records b + recordLoad ps s.work.file b +
          recordLoad ps s.work.hold b + recordLoad ps stock.checked.files.flatten b + packetLoad ps s.served b :=
      Expansion.shared_eq _ b
    unfold ExpandWorker.load
    rw [hgo.records, hpackets, s.shared_eq b]
    refine Eq.trans (congrArg (· + _) hshared) ?_
    omega
  · rw [h]
    rfl
  · have hpacket := hw.packet packet (by rw [h.same.2.1]; exact List.mem_singleton_self _)
    exact ⟨fun r hr => (hdeep hpacket (Bool.or_eq_false_iff.mp hlow.aborted).2 r hr).elim (hrisen.lists r) id, hrisen.source⟩

/-- What `add_possibility_waiting_for_room` does after a refusal. -/
theorem reactStep_spec (hready : Ready ps s w) {stop moved : Bool} (h : s.reactStep cfg i w stop moved = some s') :
    ∃ w', ThreadStep ps cfg s s' i w w' := by
  unfold Expansion.reactStep at h
  split at h
  swap
  · cases h
  rename_i packet status wait next hstage
  have hinserts : w.stage.Inserts packet next := .inr (.inl ⟨_, _, hstage⟩)
  have hkeeps : ∀ wait, ThreadStep ps cfg s (s.setWorker i { w with stage := .storing packet wait next }) i w
      { w with stage := .storing packet wait next } := fun wait =>
    .of_inserts hready hinserts (.inl ⟨wait, rfl⟩) rfl rfl
  split at h
  · cases h
    refine ⟨_, stored_spec hready hinserts wait true (fun r hr => .inl hr) (fun r hr => .inl hr) (fun h => by cases h)
      fun _ h => by cases h⟩
  · split at h
    · cases h
      exact ⟨_, hkeeps _⟩
    · split at h
      · cases h
        exact ⟨_, .of_inserts hready hinserts (.inr (.inr ⟨_, _, rfl⟩)) rfl rfl⟩
      · cases h
        unfold ExpandWorker.keepTrying
        split
        · exact ⟨_, hkeeps _⟩
        · exact ⟨_, hkeeps _⟩

theorem storeStep_spec (hready : Ready ps s w) {freeUnchecked freeChecked : Nat → Bool}
    (hunchecked : NotLast (trylockMaxSweeps * s.stock.unchecked.files.length) freeUnchecked)
    (hchecked : NotLast (trylockMaxSweeps * s.stock.checked.files.length) freeChecked)
    (h : s.storeStep i w freeUnchecked freeChecked = some s') : ∃ w', ThreadStep ps cfg s s' i w w' := by
  unfold Expansion.storeStep at h
  split at h
  swap
  · cases h
  rename_i packet wait next hstage
  have hinserts : w.stage.Inserts packet next := .inl ⟨_, hstage⟩
  have hpacket : packet.Good ps := hready.worker.packets packet (by simp [ExpandWorker.packets, hstage])
  have hput := putToLocal_inserted s.measured hpacket.wellFormed hunchecked hchecked
  dsimp only at h
  split at h
  · rename_i haccepted
    cases h
    refine ⟨_, stored_spec hready hinserts wait false (fun r hr => ?_) (fun r hr => ?_) (fun _ b => ?_) fun hdeep _ r hr => ?_⟩
    · exact (hput.unchecked r hr).imp_right fun hrecord => ⟨packet, hpacket.wellFormed, hrecord⟩
    · exact (hput.checked r hr).imp_right fun hrecord => ⟨packet, hpacket.wellFormed, hrecord⟩
    · exact (hput.load b).trans (by rw [if_pos haccepted]; rfl)
    · exact (hput.unchecked r hr).imp_right fun hrecord => deepRecord_of_good hpacket hrecord hdeep
  · rename_i hrefused
    cases h
    obtain ⟨hunchecked, hchecked⟩ := hput.refused hrefused
    exact ⟨_, .of_inserts hready hinserts (.inr (.inl ⟨_, _, rfl⟩)) hunchecked hchecked⟩

end Insertions

/-! ## Blocks -/

section Blocks

variable {P : Puzzle} {ps : PieceSet P} {cfg : ExpandConfig} {s s' : Expansion P} {i : Nat} {w : ExpandWorker P}
  {pending : Option (List Byte)}

/-- The block of a thread is gone: to the tier, one by one into the stock, or with the rest when a stop has been requested. -/
theorem flushed_spec (hready : Ready ps s w) (hstage : w.stage = .flushing pending ∨ w.stage = .restoring pending)
    {stock : LocalStock} {above : List (List Byte)} (hunchecked : stock.unchecked.files = s.stock.unchecked.files)
    (hchecked : stock.checked.files = s.stock.checked.files) (hmem : ∀ r ∈ above, r ∈ s.source.above ∨ r ∈ w.block)
    (hload : s.flags.aborted = false → ∀ b,
      recordLoad ps above b = recordLoad ps s.source.above b + recordLoad ps w.block b + recordLoad ps w.unstored b) :
    ∃ w', ThreadStep ps cfg s (({ s with stock, source := { s.source with above } } : Expansion P).flushed i
      { w with block := [], unstored := [] } pending) i w w' := by
  have hplace : w.stage.pending = pending ∧ w.stage.packet = none ∧ (w.stage.Leaves ↔ ¬ pending.isSome) ∧ ¬ w.stage.Reads := by
    obtain h | h := hstage <;> rw [h] <;> exact ⟨rfl, rfl, .rfl, id⟩
  obtain ⟨hpending, hpacket, hleaves, hreads⟩ := hplace
  have hi : (w.fresh = [] ∧ w.freshHold = []) ∧ w.drawn = [] ∧ (¬ pending.isSome → w.batch = [] ∧ w.children = []) ∧
      (w.holding = true → pending.isSome) := by
    have hf : w.FitsAt w.stage := hready.fits
    obtain h | h := hstage <;> rw [h] at hf <;>
      exact ⟨hf.fresh id, hf.drawn id, fun h => ⟨hf.batch h, hf.children h⟩, fun h => (hf.holding h).resolve_left id⟩
  obtain ⟨hfresh, hdrawn, hhands, hholding⟩ := hi
  -- What the thread has afterwards, whether a record was waiting for the block or not.
  have hstep : ∀ (stage : ExpandStage P) (inserted : Nat) (counts : ExpandCounts),
      stage.pending = none → stage.packet = none → w.stage.Follows stage →
      ({ w with stage, block := pending.toList, unstored := [], inserted } : ExpandWorker P).FitsAt stage →
      ThreadStep ps cfg s
        { s.setWorker i { w with stage, block := pending.toList, unstored := [], inserted } with
          stock, source := { s.source with above }, counts } i w
        { w with stage, block := pending.toList, unstored := [], inserted } := by
    intro stage inserted counts hnone hnoPacket hnext hfits
    refine .of_shared hready ⟨fun r hr => ?_, fun h => hchecked ▸ h, hready.worker.of_subset ?_ ?_, fun haborted _ b => ?_⟩ (.refl _)
      hfits (fun _ => rfl) rfl hnext fun _ hw hrisen =>
        ⟨hw.of_records (fun r hr => ?_) hnoPacket, fun r hr => hrisen.lists r (hunchecked ▸ hr), fun hdisk r hr => ?_⟩
    · have hrest := hready.records r
      simp only [Expansion.records, SpillSource.records, Expansion.setWorker, List.mem_append, hunchecked] at hr hrest
      obtain ((hr | hr | hr) | hr) | hr := hr
      · exact hrest (.inl (.inl (.inl hr)))
      · exact hrest (.inl (.inl (.inr (.inl hr))))
      · obtain hr | hr := hmem r hr
        · exact hrest (.inl (.inl (.inr (.inr hr))))
        · exact hready.worker.records r (by simp [ExpandWorker.records, hr])
      · exact hrest (.inl (.inr hr))
      · exact hrest (.inr hr)
    · intro r hr
      simp only [ExpandWorker.records, hnone, hpending, List.append_nil, Option.toList_none, List.mem_append] at hr ⊢
      exact hr.imp_left fun hr => .inl (.inl hr)
    · intro p hp
      unfold ExpandWorker.packets at hp ⊢
      rwa [hnoPacket, ← hpacket] at hp
    · have hload := hload haborted b
      rw [ExpandWorker.load_eq, ExpandWorker.load_eq, hpending, hpacket, hnone, hnoPacket, Expansion.shared_eq, Expansion.shared_eq]
      unfold SpillSource.records
      dsimp only [Expansion.setWorker, Option.toList_none]
      rw [hunchecked, hchecked, recordLoad_append, recordLoad_append, recordLoad_nil]
      omega
    · rw [hnone, Option.toList_none, List.append_nil, List.append_nil] at hr
      rw [hpending]
      exact List.mem_append_right _ hr
    · obtain hr | hr := List.mem_append.mp hr
      · exact hrisen.source hdisk r (List.mem_append_left _ hr)
      · obtain hr | hr := hmem r hr
        · exact hrisen.source hdisk r (List.mem_append_right _ hr)
        · exact hw.records r (by simp [hr])
  cases pending with
  | none =>
    obtain ⟨hbatch, hchildren⟩ := hhands Bool.false_ne_true
    exact ⟨_, hstep .ended w.inserted s.counts rfl rfl
      ⟨iff_of_false id hreads, id, False.elim, False.elim, fun _ => hleaves.mpr Bool.false_ne_true⟩
      ⟨fun _ => hfresh, fun _ => hdrawn, fun _ => hbatch, fun _ => hchildren, fun _ => rfl, fun _ => rfl,
        fun h => absurd (hholding h) Bool.false_ne_true, hready.fits.published, hready.fits.max⟩⟩
  | some record =>
    exact ⟨_, hstep .developing _ _ rfl rfl ⟨iff_of_false id hreads, id, False.elim, False.elim, False.elim⟩
      ⟨fun _ => hfresh, fun _ => hdrawn, fun h => absurd trivial h, fun h => absurd trivial h, fun _ => rfl, False.elim,
        fun _ => Or.inr trivial, hready.fits.published, hready.fits.max⟩⟩

theorem restoreStep_spec (hready : Ready ps s w) (h : s.restoreStep i w = some s') : ∃ w', ThreadStep ps cfg s s' i w w' := by
  unfold Expansion.restoreStep at h
  split at h
  swap
  · cases h
  rename_i pending hstage
  have hf : w.FitsAt (.restoring pending) := hstage ▸ hready.fits
  have hblock := hf.block trivial
  -- What is left of the block is given up, or nothing is left.
  have hends : (s.flags.aborted = false → w.unstored = []) →
      ∃ w', ThreadStep ps cfg s (s.flushed i { w with unstored := [] } pending) i w w' := by
    intro hkept
    have hsame : ({ w with unstored := [] } : ExpandWorker P) = { w with block := [], unstored := [] } := by rw [← hblock]
    rw [hsame]
    refine flushed_spec hready (.inr hstage) rfl rfl (fun r hr => .inl hr) fun haborted b => ?_
    rw [hblock, hkept haborted]
    rfl
  split at h
  · rename_i hunstored
    cases h
    have hsame : w = { w with unstored := [] } := by rw [← hunstored]
    have hends := hends fun _ => hunstored
    rwa [← hsame] at hends
  · rename_i record rest hunstored
    split at h
    · rename_i haborted
      cases h
      exact hends fun h => absurd (haborted.symm.trans h) (by decide)
    · have hrecord : GoodRecord ps record := hready.worker.records record (by simp [ExpandWorker.records, hunstored])
      obtain ⟨-, q, hread, hgood, -⟩ := hrecord.read
      rw [hread] at h
      cases h
      have hcons : ∀ b, recordLoad ps (record :: rest) b = recordLoad ps [record] b + recordLoad ps rest b :=
        fun b => recordLoad_append [record] _
      refine ⟨_, .of_hands hready ⟨fun r hr => ?_, fun p hp => ?_⟩ (fun _ _ b => ?_) (.refl _) ?_ (fun _ => rfl) rfl
        (by rw [hstage]; exact ⟨.rfl, id, id, id, id⟩) fun hlow hw => ⟨fun r hr => ?_, fun p hp => ?_⟩⟩
      · refine hready.worker.records r ?_
        simp only [ExpandWorker.records, ExpandWorker.beginStore, hstage, hunstored, ExpandStage.pending, StoreNext.pending,
          List.mem_append, List.mem_cons] at hr ⊢
        exact hr.imp_left (Or.imp_right .inr)
      · obtain hp | rfl : p ∈ w.packets ∨ p = q := by
          simpa [ExpandWorker.packets, ExpandWorker.beginStore, hstage, or_assoc] using hp
        · exact hready.worker.packets p hp
        · exact hgood
      · rw [ExpandWorker.load_eq, ExpandWorker.load_eq, hstage, hunstored, hcons, ← packetLoad_read hread]
        dsimp only [ExpandWorker.beginStore, ExpandStage.pending, ExpandStage.packet, StoreNext.pending, Option.toList]
        rw [packetLoad_nil]
        omega
      · exact ⟨fun _ => hf.fresh id, fun _ => hf.drawn id, hf.batch, hf.children, fun h => absurd trivial h, fun _ => hblock,
          fun h => Or.inr ((hf.holding h).resolve_left id), hf.published, hf.max⟩
      · refine hw.records r ?_
        simp only [ExpandWorker.beginStore, hstage, hunstored, ExpandStage.pending, StoreNext.pending, List.mem_append,
          List.mem_cons] at hr ⊢
        exact hr.imp_left (Or.imp_right .inr)
      · obtain rfl := List.mem_singleton.mp hp
        exact hw.records record (by simp [hunstored]) p hread

theorem flushStep_spec (hready : Ready ps s w) {pushed : Bool} {tierBytes : Nat} (h : s.flushStep i w pushed tierBytes = some s') :
    ∃ w', ThreadStep ps cfg s s' i w w' := by
  unfold Expansion.flushStep at h
  split at h
  swap
  · cases h
  rename_i pending hstage
  have hf : w.FitsAt (.flushing pending) := hstage ▸ hready.fits
  have hunstored := hf.unstored id
  have hsame : ({ w with block := [] } : ExpandWorker P) = { w with block := [], unstored := [] } := by rw [← hunstored]
  split at h
  · -- The block is empty, or a stop has been requested.
    rename_i hkept
    cases h
    rw [hsame]
    refine flushed_spec hready (.inl hstage) rfl rfl (fun r hr => .inl hr) fun haborted b => ?_
    rw [hunstored, hkept.resolve_right fun h => absurd (h.symm.trans haborted) (by decide)]
    rfl
  · split at h
    · -- The tier has taken it.
      cases h
      rw [hsame]
      refine flushed_spec hready (.inl hstage) rfl rfl (fun r hr => List.mem_append.mp hr) fun _ b => ?_
      rw [hunstored, recordLoad_append]
      rfl
    · cases h
      refine ⟨_, .of_moved hready (.of_eq ?_) (.of_eq ?_) (.refl _) ?_ (fun _ => rfl) rfl
        (by rw [hstage]; exact ⟨.rfl, id, id, id, id⟩) fun _ hw => hw.of_records (by simp [hunstored, hstage]) rfl⟩
      · simp [ExpandWorker.records, hunstored, hstage]
      · simp [ExpandWorker.packets, hstage]
      · exact ⟨fun _ => hf.fresh id, fun _ => hf.drawn id, hf.batch, hf.children, fun h => absurd trivial h, fun _ => rfl,
          fun h => Or.inr ((hf.holding h).resolve_left id), hf.published, hf.max⟩

end Blocks

/-! ## The source -/

section Sources

variable {P : Puzzle} {ps : PieceSet P} {cfg : ExpandConfig} {s s' : Expansion P} {i : Nat} {w : ExpandWorker P}

theorem sourceStep_spec (hready : Ready ps s w) {k room tierBytes : Nat} {fails again : Bool}
    (h : s.sourceStep cfg i w k room fails again tierBytes = some s') : ∃ w', ThreadStep ps cfg s s' i w w' := by
  unfold Expansion.sourceStep at h
  split at h
  swap
  · cases h
  rename_i prefetch hstage
  have hf : w.FitsAt (.refilling prefetch) := hstage ▸ hready.fits
  obtain ⟨hfresh, hfreshHold⟩ := hf.fresh id
  -- Nothing has been read.
  have hnothing : ∀ stage : ExpandStage P,
      (stage = .refilling prefetch ∨ ∃ r, stage = .publishing prefetch r ∧ (r = .nothing → s.source.below = [])) →
      ThreadStep ps cfg s (s.setWorker i { w with stage }) i w { w with stage } := by
    rintro stage hnext
    have hsame : stage.pending = none ∧ stage.packet = none ∧ stage.Reads ∧ ¬ stage.Waits ∧ (stage.Refills → prefetch = false) ∧
        (stage.Exhausts → s.source.below = []) ∧ ¬ stage.Leaves ∧ ({ w with stage } : ExpandWorker P).FitsAt stage := by
      obtain rfl | ⟨r, rfl, hr⟩ := hnext
      · exact ⟨rfl, rfl, trivial, id, id, False.elim, id, fun _ => ⟨hfresh, hfreshHold⟩, hf.drawn, hf.batch, hf.children,
          hf.unstored, hf.block, hf.holding, hf.published, hf.max⟩
      · refine ⟨rfl, rfl, trivial, id, id, fun h => hr ?_, id, fun _ => ⟨hfresh, hfreshHold⟩, hf.drawn, hf.batch, hf.children,
          hf.unstored, hf.block, hf.holding, hf.published, hf.max⟩
        cases r with
        | nothing => rfl
        | _ => exact False.elim h
    obtain ⟨hpending, hpacket, hreads, hwaits, hrefills, hexhausts, hleaves, hfits⟩ := hsame
    refine {
      carries := .of_perm hready.records hready.worker (.of_eq ?_) (.of_eq ?_) rfl rfl
      synced := hready.synced
      fits := hfits
      bytes := fun _ => rfl
      refilling := fun _ => ?_
      waits := fun since (h : stage = .waiting since) => absurd (by rw [h]; trivial) hwaits
      empty := fun h => hready.empty (by rw [hstage]; exact hrefills h)
      nothing := hexhausts
      leaves := fun h => absurd h hleaves
      levels := fun _ hw hrisen => ⟨hw.of_stage rfl rfl hpending hpacket, hrisen.lists, hrisen.source⟩ }
    · unfold ExpandWorker.records
      rw [hpending, hstage]
      rfl
    · unfold ExpandWorker.packets
      rw [hpacket, hstage]
      rfl
    · unfold ExpandWorker.reading
      rw [if_pos hreads, hstage]
      rfl
  split at h
  · split at h
    · rename_i hbelow
      cases h
      exact ⟨_, hnothing _ (.inr ⟨_, rfl, fun _ => hbelow⟩)⟩
    · cases h
  · rename_i part hpart
    dsimp only at h
    split at h
    · cases h
      split
      · exact ⟨_, hnothing _ (.inl rfl)⟩
      · exact ⟨_, hnothing _ (.inr ⟨_, rfl, fun h => by cases h⟩)⟩
    · split at h
      · cases h
        exact ⟨_, hnothing _ (.inr ⟨_, rfl, fun h => by cases h⟩)⟩
      · -- A segment comes into the private files of the thread.
        cases h
        have hnil : workBytesOf [] = 0 := rfl
        have hbytes : w.bytes = workBytesOf w.drawn + (w.batch.map fun p => expandRecordBytes p.1).sum := by
          unfold ExpandWorker.bytes
          rw [hf.published, hfresh, hfreshHold, hnil]
          omega
        have hreading : w.reading = 1 := by
          unfold ExpandWorker.reading
          rw [hstage]
          rfl
        have herase := SpillSource.records_erase hpart
        refine ⟨{ w with
            stage := .publishing prefetch (.taken (part.1.length + part.2.length))
            fresh := part.1
            freshHold := part.2
            freshPublished := workBytesOf part.1 + workBytesOf part.2 }, {
          carries := .of_perm hready.records hready.worker ?_ (.of_eq ?_) rfl rfl
          synced := hready.synced
          fits := ⟨fun h => absurd trivial h, hf.drawn, hf.batch, hf.children, hf.unstored, hf.block, hf.holding, rfl, hf.max⟩
          bytes := fun h => ?_
          refilling := fun _ => ?_
          empty := fun h => hready.empty (hstage ▸ h)
          leaves := False.elim
          below := fun h hnil => ?_
          nonempty := fun h part' hpart' => h part' (List.mem_of_mem_eraseIdx hpart')
          levels := fun _ hw hrisen => ⟨hw.of_stage rfl rfl rfl rfl, hrisen.lists, fun hdisk r hr => ?_⟩ }⟩
        · refine List.perm_iff_count.mpr fun r => ?_
          have hcount := herase.count_eq r
          simp only [Expansion.records, Expansion.setWorker, ExpandWorker.records, List.count_append, hfresh, hfreshHold, hstage,
            ExpandStage.pending, List.count_nil, Option.toList] at hcount ⊢
          omega
        · simp [ExpandWorker.packets, hstage]
        · rw [hbytes]
          dsimp only [ExpandWorker.bytes, Expansion.setWorker]
          omega
        · exact congrArg (s.refilling.toNat + ·) hreading
        · rw [List.getElem?_eq_none (by rw [hnil]; exact Nat.zero_le _)] at hpart
          cases hpart
        · refine hrisen.source hdisk r ?_
          simp only [List.mem_append, List.mem_flatMap] at hr ⊢
          exact hr.imp_left fun ⟨part', hmem, hr⟩ => ⟨part', List.mem_of_mem_eraseIdx hmem, hr⟩

/-- The end of a reading: the private files come into the queue, and the thread goes on, waits or leaves. -/
theorem published_spec (hready : Ready ps s w) {prefetch : Bool} {r : SourceTake} (hstage : w.stage = .publishing prefetch r)
    {counts : ExpandCounts} {diskPhase diskLeft : Bool} {stage : ExpandStage P}
    (hdisk : (diskPhase = s.diskPhase ∧ diskLeft = s.diskLeft) ∨ (diskPhase = false ∧ (diskLeft = true ∨ s.source.below = [])))
    (hhands : stage.pending = none ∧ stage.packet = none ∧ ¬ stage.Reads ∧ ¬ stage.Refills ∧ ¬ stage.Exhausts ∧ ¬ stage.Restores)
    (hfits : prefetch = true ∧ stage = .decoding ∨ prefetch = false ∧ ¬ stage.Empties)
    (hwaits : ∀ since, stage = .waiting since → since = s.wakes + 1 ∧ 0 < s.busy)
    (hleaves : stage.Leaves → w.fresh = [] ∧ w.freshHold = [] ∧ prefetch = false ∧ diskPhase = false) :
    ThreadStep ps cfg s (({ s with
      work := { s.work with file := s.work.file ++ w.fresh, hold := s.work.hold ++ w.freshHold }
      workBytes := s.workBytes - w.freshPublished
      refilling := false
      wakes := s.wakes + 1
      counts
      diskPhase
      diskLeft } : Expansion P).workSync.setWorker i { w with fresh := [], freshHold := [], freshPublished := 0, stage }) i w
      { w with fresh := [], freshHold := [], freshPublished := 0, stage } := by
  have hf : w.FitsAt (.publishing prefetch r) := hstage ▸ hready.fits
  obtain ⟨hpending, hpacket, hreads, hrefills, hexhausts, hrestores⟩ := hhands
  have hreading : w.reading = 1 := by
    unfold ExpandWorker.reading
    rw [hstage]
    rfl
  have hbytes : w.bytes = w.freshPublished + (workBytesOf w.drawn + (w.batch.map fun p => expandRecordBytes p.1).sum) :=
    Nat.add_assoc _ _ _
  have hunstored := hf.unstored id
  refine {
    carries := .of_perm hready.records hready.worker ?_ (.of_eq ?_) rfl rfl
    fits := ?_
    bytes := fun h => ?_
    refilling := fun h => ?_
    wakes := ⟨Nat.le_succ _, fun _ => Nat.lt_succ_self _⟩
    waits := fun since h => ?_
    queue := fun h => ?_
    empty := fun h => absurd h hrefills
    nothing := fun h => absurd h hexhausts
    leaves := fun h => ?_
    diskPhase := fun h => ?_
    diskLeft := fun h => ?_
    levels := fun _ hw hrisen => ⟨hw.of_stage rfl rfl hpending hpacket, hrisen.lists, hrisen.source⟩ }
  · refine List.perm_iff_count.mpr fun r => ?_
    simp only [Expansion.records, Expansion.setWorker, Expansion.workSync, ExpandWorker.records, List.count_append, hstage, hpending,
      List.count_nil, Option.toList]
    dsimp only [ExpandStage.pending]
    rw [List.count_nil]
    omega
  · unfold ExpandWorker.packets
    rw [hpacket, hstage]
    rfl
  · obtain ⟨hfetch, rfl⟩ | ⟨hfetch, hempties⟩ := hfits
    · exact ⟨fun _ => ⟨rfl, rfl⟩, fun h => absurd trivial h, fun _ => hf.batch id, fun _ => hf.children id, fun _ => hunstored,
        False.elim, fun _ => Or.inl trivial, rfl, hf.max⟩
    · have hdraws : ¬ (ExpandStage.publishing (P := P) prefetch r).Draws := fun h => Bool.false_ne_true (hfetch.symm.trans h)
      exact ⟨fun _ => ⟨rfl, rfl⟩, fun _ => hf.drawn hdraws, fun _ => hf.batch id, fun _ => hf.children id, fun _ => hunstored,
        fun h => absurd h hempties, fun h => (hf.holding h).elim (absurd · hdraws) False.elim, rfl, hf.max⟩
  · have hsync := Expansion.workSync_bytes { s with
      work := { s.work with file := s.work.file ++ w.fresh, hold := s.work.hold ++ w.freshHold }
      workBytes := s.workBytes - w.freshPublished
      refilling := false
      wakes := s.wakes + 1
      counts
      diskPhase
      diskLeft } (by dsimp only; omega)
    rw [hbytes] at h ⊢
    dsimp only [ExpandWorker.bytes, Expansion.setWorker] at hsync h ⊢
    omega
  · have hnone : ({ w with fresh := [], freshHold := [], freshPublished := 0, stage } : ExpandWorker P).reading = 0 := if_neg hreads
    have htrue : s.refilling.toNat = 1 := le_antisymm (Bool.toNat_le _) (hreading ▸ h)
    rw [hreading, hnone, htrue]
    rfl
  · obtain ⟨rfl, hbusy⟩ := hwaits since h
    exact ⟨Nat.le_refl _, .inr hbusy⟩
  · by_cases hleaving : stage.Leaves
    · obtain ⟨hfresh, hfreshHold, -⟩ := hleaves hleaving
      have h : s.work.file ++ w.fresh ≠ [] ∨ s.work.hold ++ w.freshHold ≠ [] := h
      rw [hfresh, hfreshHold, List.append_nil, List.append_nil] at h
      exact .inl h
    · exact .inr ⟨by rw [hstage]; trivial, hleaving⟩
  · obtain ⟨hfresh, hfreshHold, hfetch, hphase⟩ := hleaves h
    obtain ⟨hfile, hhold⟩ := hready.empty (by rw [hstage]; exact hfetch)
    refine .inr (.inr ⟨?_, ?_, .inr hphase⟩)
    · change s.work.file ++ w.fresh = []
      rw [hfile, hfresh]
      rfl
    · change s.work.hold ++ w.freshHold = []
      rw [hhold, hfreshHold]
      rfl
  · obtain ⟨hsame, -⟩ | ⟨hfalse, -⟩ := hdisk
    · exact hsame.symm.trans h
    · exact absurd (hfalse.symm.trans h) Bool.false_ne_true
  · obtain ⟨hsame, hleft⟩ | ⟨-, hleft⟩ := hdisk
    · exact .inl ⟨hsame.symm.trans h, hleft⟩
    · exact .inr hleft

theorem publishStep_spec (hready : Ready ps s w) (h : s.publishStep i w = some s') : ∃ w', ThreadStep ps cfg s s' i w w' := by
  unfold Expansion.publishStep at h
  split at h
  swap
  · cases h
  rename_i prefetch r hstage
  have hf : w.FitsAt (.publishing prefetch r) := hstage ▸ hready.fits
  dsimp only at h
  split at h
  · -- The thread has a batch already.
    rename_i hfetch
    cases h
    exact ⟨_, published_spec hready hstage (.inl ⟨rfl, rfl⟩) ⟨rfl, rfl, id, id, id, id⟩ (.inl ⟨hfetch, rfl⟩) (fun since h => by cases h)
      False.elim⟩
  · rename_i hfetch
    have hfetch : prefetch = false := Bool.eq_false_iff.mpr hfetch
    split at h
    · cases h
      exact ⟨_, published_spec hready hstage (.inl ⟨rfl, rfl⟩) ⟨rfl, rfl, id, id, id, id⟩ (.inr ⟨hfetch, id⟩)
        (fun since h => by cases h) False.elim⟩
    · rename_i hr
      have hfresh : w.fresh = [] ∧ w.freshHold = [] := by
        apply hf.fresh
        cases r with
        | taken n => exact absurd rfl (hr n)
        | _ => exact id
      split at h
      · rename_i hbusy
        cases h
        refine ⟨_, published_spec hready hstage (.inl ⟨rfl, rfl⟩) ⟨rfl, rfl, id, id, id, id⟩ (.inr ⟨hfetch, id⟩) (fun since h => ?_)
          False.elim⟩
        cases h
        exact ⟨rfl, hbusy.2⟩
      · cases h
        unfold Expansion.leave
        rw [Expansion.workSync_of_synced _ rfl]
        refine ⟨_, published_spec hready hstage (.inr ⟨rfl, ?_⟩) ⟨rfl, rfl, id, id, id, id⟩ (.inr ⟨hfetch, id⟩)
          (fun since h => by cases h) fun _ => ⟨hfresh.1, hfresh.2, hfetch, rfl⟩⟩
        cases r with
        | nothing => exact .inr (hready.nothing (by rw [hstage]; trivial))
        | _ => exact .inl rfl

end Sources

/-! ## The taking of a batch -/

section Takes

variable {P : Puzzle} {ps : PieceSet P} {cfg : ExpandConfig} {s s' : Expansion P} {i : Nat} {w : ExpandWorker P}

/-- A thread without a batch takes none. -/
theorem pulled_spec (hready : Ready ps s w) (hfree : w.Free) {refilling diskPhase diskLeft : Bool} {stage : ExpandStage P}
    (hdisk : (diskPhase = s.diskPhase ∧ diskLeft = s.diskLeft) ∨ (diskPhase = false ∧ (diskLeft = true ∨ s.source.below = [])))
    (hhands : stage.pending = none ∧ stage.packet = none ∧ ¬ stage.Exhausts ∧ ¬ stage.Empties)
    (hrefilling : (stage.Reads ∧ s.refilling = false ∧ refilling = true) ∨ (¬ stage.Reads ∧ refilling = s.refilling))
    (hwaits : ∀ since, stage = .waiting since → since = s.wakes ∧ s.refilling = true)
    (hempty : stage.Refills → s.work.file = [] ∧ s.work.hold = [])
    (hleaves : stage.Leaves → s.flags.aborted = true ∨
      (s.work.file = [] ∧ s.work.hold = [] ∧ (s.flags.capReached = true ∨ diskPhase = false))) :
    ThreadStep ps cfg s { s.setWorker i { w with stage } with refilling, diskPhase, diskLeft } i w { w with stage } := by
  obtain ⟨hpending, hpacket, hexhausts, hempties⟩ := hhands
  have hreading : w.reading = 0 := if_neg hfree.reads
  have hrise : s.refilling.toNat ≤ refilling.toNat := by
    obtain ⟨-, h, -⟩ | ⟨-, h⟩ := hrefilling
    · rw [h]
      exact Nat.zero_le _
    · rw [h]
  refine {
    carries := .of_perm hready.records hready.worker (.of_eq ?_) (.of_eq ?_) rfl rfl
    synced := hready.synced
    fits := ⟨fun _ => hfree.fresh, fun _ => hfree.drawn, fun _ => hfree.batch, fun _ => hfree.children, fun _ => hfree.unstored,
      fun h => absurd h hempties, fun h => absurd (hfree.holding.symm.trans h) Bool.false_ne_true, hready.fits.published, hfree.max⟩
    bytes := fun _ => rfl
    refilling := fun h => ?_
    wakes := ⟨Nat.le_refl _, fun h => ?_⟩
    waits := fun since h => ?_
    empty := hempty
    nothing := fun h => absurd h hexhausts
    leaves := fun h => .inr (hleaves h)
    diskPhase := fun h => ?_
    diskLeft := fun h => ?_
    levels := fun _ hw hrisen => ⟨hw.of_stage rfl rfl hpending hpacket, hrisen.lists, hrisen.source⟩ }
  · unfold ExpandWorker.records
    rw [hpending, hfree.pending]
    rfl
  · unfold ExpandWorker.packets
    rw [hpacket, hfree.packet]
  · rw [hreading]
    obtain ⟨hreads, hfalse, rfl⟩ | ⟨hreads, rfl⟩ := hrefilling
    · have hone : ({ w with stage } : ExpandWorker P).reading = 1 := if_pos hreads
      rw [hone, hfalse]
      rfl
    · have hzero : ({ w with stage } : ExpandWorker P).reading = 0 := if_neg hreads
      rw [hzero]
  · obtain h | h := h
    · exact absurd h (Nat.lt_irrefl _)
    · exact absurd hrise (Nat.not_le.mpr h)
  · obtain ⟨rfl, htrue⟩ := hwaits since h
    refine ⟨Nat.le_refl _, .inl ?_⟩
    obtain ⟨-, hfalse, -⟩ | ⟨-, rfl⟩ := hrefilling
    · exact absurd (hfalse.symm.trans htrue) Bool.false_ne_true
    · exact htrue
  · obtain ⟨hsame, -⟩ | ⟨hfalse, -⟩ := hdisk
    · exact hsame.symm.trans h
    · exact absurd (hfalse.symm.trans h) Bool.false_ne_true
  · obtain ⟨hsame, hleft⟩ | ⟨-, hleft⟩ := hdisk
    · exact .inl ⟨hsame.symm.trans h, hleft⟩
    · exact .inr hleft

/-- A thread without a batch takes one. -/
theorem draw_spec (hready : Ready ps s w) (hfree : w.Free) (isHold : Bool) {drawn : List (List Byte)} {work : ExpandWork}
    (hdrawn : (s.work.file ++ s.work.hold).Perm (drawn ++ (work.file ++ work.hold))) (hpublished : work.published = s.work.published)
    (hreturned : work.returned = s.work.returned) : ∃ w', ThreadStep ps cfg s (s.draw cfg i w isHold drawn work) i w w' := by
  unfold Expansion.draw
  dsimp only
  generalize hprefetch : (decide (cfg.threads > 1) && s.diskPhase && !s.refilling && !s.flags.capReached && !s.flags.ramWait &&
    decide (work.file.length + work.hold.length < cfg.threads * expandBatch * expandPrefetchBatchesPerThread)) = prefetch
  have hfetches : prefetch = true → s.refilling = false := by
    rintro rfl
    simp only [Bool.and_eq_true, Bool.not_eq_true'] at hprefetch
    exact hprefetch.1.1.1.2
  have hheld : w.held = 0 := if_neg (by rw [hfree.holding]; exact Bool.false_ne_true)
  have hreading : w.reading = 0 := if_neg hfree.reads
  have hzero : w.bytes = 0 := by
    unfold ExpandWorker.bytes
    rw [hfree.published, hfree.drawn, hfree.batch]
    rfl
  obtain ⟨stage, hstage⟩ : ∃ stage : ExpandStage P, (if prefetch = true then .refilling true else .decoding) = stage := ⟨_, rfl⟩
  have hhands : stage.pending = none ∧ stage.packet = none ∧ ¬ stage.Waits ∧ ¬ stage.Refills ∧ ¬ stage.Exhausts ∧ stage.Draws ∧
      ¬ stage.Leaves ∧ ¬ stage.Empties ∧ stage.Holds ∧ ({ w with stage } : ExpandWorker P).reading = prefetch.toNat := by
    subst hstage
    cases prefetch with
    | false => exact ⟨rfl, rfl, id, id, id, trivial, id, id, Or.inl trivial, rfl⟩
    | true => exact ⟨rfl, rfl, id, fun h => Bool.noConfusion h, id, rfl, id, id, Or.inl rfl, rfl⟩
  obtain ⟨hpending, hpacket, hwaits, hrefills, hexhausts, hdraws, hleaves, hempties, hholds, hreading'⟩ := hhands
  rw [hstage]
  refine ⟨{ w with stage, isHold, holding := true, drawn }, {
    carries := .of_perm hready.records hready.worker ?_ (.of_eq ?_) rfl rfl
    fits := ⟨fun _ => hfree.fresh, fun h => absurd hdraws h, fun _ => hfree.batch, fun _ => hfree.children, fun _ => hfree.unstored,
      fun h => absurd h hempties, fun _ => hholds, hready.fits.published, hfree.max⟩
    bytes := fun h => ?_
    busy := fun _ => ?_
    refilling := fun _ => ?_
    wakes := ⟨Nat.le_refl _, fun h => ?_⟩
    waits := fun since h => ?_
    queue := fun h => .inl ?_
    empty := fun h => absurd h hrefills
    nothing := fun h => absurd h hexhausts
    leaves := fun h => absurd h hleaves
    returned := Nat.le_of_eq hreturned.symm
    levels := fun _ hw hrisen => ⟨hw.of_stage rfl rfl hpending hpacket, hrisen.lists, hrisen.source⟩ }⟩
  · refine List.perm_iff_count.mpr fun r => ?_
    have hcount := hdrawn.count_eq r
    unfold ExpandWorker.records
    rw [hpending, hfree.pending, hfree.drawn]
    simp only [Expansion.records, Expansion.setWorker, Expansion.workSync, List.count_append, List.count_nil] at hcount ⊢
    omega
  · unfold ExpandWorker.packets
    rw [hpacket, hfree.packet]
  · have hsync := Expansion.workSync_bytes { s with work } (by dsimp only; omega)
    have hnow : ({ s with work } : Expansion P).workSync.work.published = workBytesOf work.file + workBytesOf work.hold := rfl
    rw [hzero] at h ⊢
    dsimp only [ExpandWorker.bytes, Expansion.setWorker] at hsync h ⊢
    rw [hfree.published, hfree.batch, List.map_nil, List.sum_nil]
    omega
  · rw [hheld]
    rfl
  · rw [hreading]
    refine Eq.trans ?_ (congrArg (s.refilling.toNat + ·) hreading'.symm)
    cases prefetch with
    | false => simp
    | true => simp [hfetches rfl]
  · obtain h | h := h
    · exact absurd h (Nat.not_lt.mpr (Nat.le_succ _))
    · cases hrefilling : s.refilling <;> simp [hrefilling] at h
  · have h : stage = .waiting since := h
    rw [h] at hwaits
    exact absurd trivial hwaits
  · by_contra hnone
    obtain ⟨hfile, hhold⟩ := not_or.mp hnone
    rw [not_not.mp hfile, not_not.mp hhold, List.append_nil, List.nil_perm] at hdrawn
    obtain ⟨-, hrest⟩ := List.append_eq_nil_iff.mp hdrawn
    obtain ⟨hfile', hhold'⟩ := List.append_eq_nil_iff.mp hrest
    exact h.elim (absurd hfile') (absurd hhold')

theorem takeLoop_spec (hready : Ready ps s w) (hfree : w.Free) : ∃ w', ThreadStep ps cfg s (s.takeLoop cfg i w) i w w' := by
  have hsync : s.workSync = s := s.workSync_of_synced hready.synced
  have hisRecord : ∀ r ∈ s.work.file ++ s.work.hold, IsRecord P r := by
    intro r hr
    refine (hready.records r ?_).read.1
    simp only [Expansion.records, List.mem_append] at hr ⊢
    exact hr.elim (fun hr => .inl (.inr hr)) .inr
  have hfile := scrollRecords_spec (P := P) (expandBatchSize s.work.file.length cfg.threads w.max) s.work.file
  have hhold := scrollRecords_spec (P := P) (expandBatchSize s.work.hold.length cfg.threads w.max) s.work.hold
  unfold Expansion.takeLoop
  split
  · -- A stop has been requested.
    rename_i haborted
    unfold Expansion.leave
    rw [hsync]
    exact ⟨_, pulled_spec hready hfree (.inl ⟨rfl, rfl⟩) ⟨rfl, rfl, id, id⟩ (.inr ⟨id, rfl⟩) (fun since h => by cases h) False.elim
      fun _ => .inl haborted⟩
  · dsimp only
    split
    · -- The children of the pass that have been read again come first.
      refine draw_spec hready hfree true ?_ rfl rfl
      refine List.perm_iff_count.mpr fun r => ?_
      have hcount := congrArg (List.count r) hhold
      simp only [List.count_append, List.count_reverse] at hcount ⊢
      omega
    · rename_i hnohold
      have hholdNil := (scrollRecords_eq_nil (fun r hr => hisRecord r (List.mem_append_right _ hr)) (expandBatchSize_pos hfree.max)).mp
        (not_not.mp hnohold)
      split
      · refine draw_spec hready hfree false ?_ rfl rfl
        refine List.perm_iff_count.mpr fun r => ?_
        have hcount := congrArg (List.count r) hfile
        simp only [List.count_append, List.count_reverse] at hcount ⊢
        omega
      · rename_i hnofile
        have hfileNil := (scrollRecords_eq_nil (fun r hr => hisRecord r (List.mem_append_left _ hr)) (expandBatchSize_pos hfree.max)).mp
          (not_not.mp hnofile)
        split
        · -- Nothing more is read in this pass.
          rename_i hends
          unfold Expansion.leave
          rw [hsync]
          refine ⟨_, pulled_spec hready hfree (.inl ⟨rfl, rfl⟩) ⟨rfl, rfl, id, id⟩ (.inr ⟨id, rfl⟩) (fun since h => by cases h)
            False.elim fun _ => .inr ⟨hfileNil, hholdNil, ?_⟩⟩
          rw [Bool.or_eq_true, Bool.not_eq_true'] at hends
          exact hends.symm
        · split
          · rename_i hrefilling
            refine ⟨_, pulled_spec hready hfree (.inl ⟨rfl, rfl⟩) ⟨rfl, rfl, id, id⟩ (.inr ⟨id, rfl⟩) (fun since h => ?_) False.elim
              False.elim⟩
            cases h
            exact ⟨rfl, hrefilling⟩
          · rename_i hrefilling
            split
            · unfold Expansion.leave
              rw [Expansion.workSync_of_synced]
              · refine ⟨_, pulled_spec hready hfree (.inr ⟨rfl, ?_⟩) ⟨rfl, rfl, id, id⟩ (.inr ⟨id, rfl⟩) (fun since h => by cases h)
                  False.elim fun _ => .inr ⟨hfileNil, hholdNil, .inr rfl⟩⟩
                cases s.source.below with
                | nil => exact .inr rfl
                | cons part below => exact .inl rfl
              · exact hready.synced
            · exact ⟨_, pulled_spec hready hfree (.inl ⟨rfl, rfl⟩) ⟨rfl, rfl, id, id⟩
                (.inl ⟨trivial, Bool.eq_false_iff.mpr hrefilling, rfl⟩) (fun since h => by cases h) (fun _ => ⟨hfileNil, hholdNil⟩)
                False.elim⟩

/-- A thread that has a batch behind it counts as busy until it comes to the loop. -/
theorem ThreadStep.of_released (hholding : w.holding = true) {w' : ExpandWorker P}
    (h : ThreadStep ps cfg { s with busy := s.busy - 1, wakes := s.wakes + 1 } s' i { w with holding := false } w') :
    ThreadStep ps cfg s s' i w w' :=
  { h with
    carries := ⟨h.carries.records, h.carries.checked, h.carries.worker, h.carries.balance⟩
    busy := fun _ => by
      have hone : w.held = 1 := if_pos hholding
      have hbusy : s'.busy + 0 = s.busy - 1 + w'.held := h.busy (Nat.zero_le _)
      omega
    wakes := ⟨Nat.le_of_succ_le h.wakes.1, fun _ => h.wakes.1⟩
    levels := fun hquiet hw hrisen => h.levels hquiet ⟨hw.records, hw.packet⟩ ⟨hrisen.lists, hrisen.source⟩ }

theorem takeStep_spec (hready : Ready ps s w) {spurious : Bool} (h : s.takeStep cfg i w spurious = some s') :
    ∃ w', ThreadStep ps cfg s s' i w w' := by
  have hfree : (w.stage = .entering ∨ w.stage = .looping ∨ ∃ since, w.stage = .waiting since) →
      ({ w with holding := false } : ExpandWorker P).Free ∧ (w.stage ≠ .entering → w.holding = false) := by
    intro hloop
    have hf : w.FitsAt w.stage := hready.fits
    have hhands : (w.fresh = [] ∧ w.freshHold = []) ∧ w.drawn = [] ∧ w.batch = [] ∧ w.children = [] ∧ w.unstored = [] ∧
        w.stage.pending = none ∧ w.stage.packet = none ∧ ¬ w.stage.Reads ∧ (w.stage ≠ .entering → w.holding ≠ true) := by
      obtain h | h | ⟨since, h⟩ := hloop <;> rw [h] at hf ⊢ <;>
        refine ⟨hf.fresh id, hf.drawn id, hf.batch id, hf.children id, hf.unstored id, rfl, rfl, id, ?_⟩
      · exact fun h => absurd rfl h
      · exact fun _ h => (hf.holding h).elim id id
      · exact fun _ h => (hf.holding h).elim id id
    obtain ⟨hfresh, hdrawn, hbatch, hchildren, hunstored, hpending, hpacket, hreads, hholding⟩ := hhands
    have hpublished : w.freshPublished = 0 := by
      rw [hf.published, hfresh.1, hfresh.2]
      rfl
    exact ⟨⟨hfresh, hdrawn, hbatch, hchildren, hunstored, rfl, hpublished, hf.max, hpending, hpacket, hreads⟩,
      fun h => Bool.eq_false_iff.mpr (hholding h)⟩
  have hloop : ({ w with holding := false } : ExpandWorker P).Free → w.holding = false → w.Free := by
    intro hfree hholding
    have hsame : w = { w with holding := false } := by rw [← hholding]
    rwa [hsame]
  unfold Expansion.takeStep at h
  split at h
  · rename_i hstage
    obtain ⟨hfree, -⟩ := hfree (.inl hstage)
    split at h
    · rename_i hholding
      cases h
      have hf : w.FitsAt w.stage := hready.fits
      have hfits : ({ w with holding := false } : ExpandWorker P).Fits :=
        ⟨hf.fresh, hf.drawn, hf.batch, hf.children, hf.unstored, hf.block, fun h => absurd h Bool.false_ne_true, hf.published, hf.max⟩
      have hready' : Ready ps { s with busy := s.busy - 1, wakes := s.wakes + 1 } { w with holding := false } :=
        ⟨hready.records, ⟨hready.worker.records, hready.worker.packets⟩, hfits, hready.synced, hready.empty, hready.nothing⟩
      obtain ⟨w', hstep⟩ := takeLoop_spec (i := i) hready' hfree
      exact ⟨w', hstep.of_released hholding⟩
    · rename_i hholding
      cases h
      exact takeLoop_spec hready (hloop hfree (Bool.eq_false_iff.mpr hholding))
  · rename_i hstage
    obtain ⟨hfree, hholding⟩ := hfree (.inr (.inl hstage))
    cases h
    exact takeLoop_spec hready (hloop hfree (hholding (by rw [hstage]; exact fun h => by cases h)))
  · rename_i since hstage
    obtain ⟨hfree, hholding⟩ := hfree (.inr (.inr ⟨since, hstage⟩))
    split at h
    · cases h
      exact takeLoop_spec hready (hloop hfree (hholding (by rw [hstage]; exact fun h => by cases h)))
    · cases h
  · cases h

theorem giveBackStep_spec (hready : Ready ps s w) {fp : Nat} (h : s.giveBackStep i w fp = some s') :
    ∃ w', ThreadStep ps cfg s s' i w w' := by
  unfold Expansion.giveBackStep at h
  split at h
  swap
  · cases h
  rename_i packet status wait next hstage
  cases h
  have hinserts : w.stage.Inserts packet next := .inr (.inr ⟨_, _, hstage⟩)
  obtain ⟨wait', hworker⟩ : ∃ wait', (if (scrollLoop P datamanagerRamReliefBlock s.work.file).1 = [] then
      w.keepTrying packet status wait next else { w with stage := .storing packet { wait with retried := false } next }) =
      { w with stage := .storing packet wait' next } := by
    unfold ExpandWorker.keepTrying
    split
    · split
      · exact ⟨_, rfl⟩
      · exact ⟨_, rfl⟩
    · exact ⟨_, rfl⟩
  rw [hworker]
  have hisRecord : ∀ r ∈ s.work.file, IsRecord P r := by
    intro r hr
    refine (hready.records r ?_).read.1
    simp only [Expansion.records, List.mem_append]
    exact .inl (.inr hr)
  obtain ⟨-, hsplit, -⟩ := scrollLoop_spec hisRecord datamanagerRamReliefBlock
  have hlt : fp % s.stock.unchecked.files.length < s.stock.unchecked.files.length := Nat.mod_lt _ s.stock.unchecked.files_pos
  have hfiles : (s.returnWork fp).stock.unchecked.files.flatten.Perm (s.stock.unchecked.files.flatten ++
      (scrollLoop P datamanagerRamReliefBlock s.work.file).1.filterMap recordOf) := by
    have hmodify : (s.returnWork fp).stock.unchecked.files = s.stock.unchecked.files.modify (fp % s.stock.unchecked.files.length)
        (· ++ (scrollLoop P datamanagerRamReliefBlock s.work.file).1.filterMap recordOf) :=
      congrArg (s.stock.unchecked.files.modify (fp % s.stock.unchecked.files.length)) (funext fun file => foldl_poolPut file _)
    rw [hmodify]
    exact flatten_modify_perm _ hlt
  have hinserts' : (ExpandStage.storing packet wait' next).Inserts packet next := .inl ⟨_, rfl⟩
  obtain ⟨hpending, hpacket, hleaves, hreads, -⟩ := hinserts.same
  obtain ⟨hpending', hpacket', hleaves', hreads', -⟩ := hinserts'.same
  have hi := hready.fits.inserting hinserts
  have hi' : ({ w with stage := .storing packet wait' next } : ExpandWorker P).Inserting next :=
    ⟨hi.fresh, hi.drawn, hi.batch, hi.children, hi.unstored, hi.block, hi.holding, hi.published, hi.max⟩
  refine ⟨_, {
    carries := .of_perm hready.records hready.worker ?_ (.of_eq ?_) rfl rfl
    fits := hinserts'.fits hi'
    bytes := fun h => ?_
    refilling := fun _ => ?_
    queue := fun h => .inl (h.imp_left fun hfile hnil => hfile ?_)
    leaves := fun h => .inl (hleaves.mpr h)
    returned := Nat.le_add_right _ _
    levels := fun hquiet hw hrisen =>
      ⟨⟨fun r hr => hw.records r ?_, fun p hp => hw.packet p ?_⟩, fun r hr => hrisen.lists r
        (?_ : r ∈ s.stock.unchecked.files.flatten), hrisen.source⟩ }⟩
  · refine List.perm_iff_count.mpr fun r => ?_
    have hcount := hfiles.count_eq r
    have hfile := congrArg (List.count r) hsplit
    unfold ExpandWorker.records
    rw [hpending]
    simp only [Expansion.records, Expansion.setWorker, List.count_append, List.count_reverse] at hcount hfile ⊢
    change List.count r (s.returnWork fp).stock.unchecked.files.flatten + List.count r s.source.records +
      List.count r (scrollLoop P datamanagerRamReliefBlock s.work.file).2 + List.count r s.work.hold + _ = _
    rw [hpending']
    omega
  · unfold ExpandWorker.packets
    rw [hpacket]
    rfl
  · have hpublished : s.work.published ≤ s.workBytes := Nat.le_of_add_right_le h
    have hsync : (s.returnWork fp).workBytes + s.work.published = s.workBytes + (s.returnWork fp).work.published :=
      Expansion.workSync_bytes _ hpublished
    change (s.returnWork fp).workBytes + (s.work.published + w.bytes) = s.workBytes + ((s.returnWork fp).work.published + w.bytes)
    omega
  · unfold ExpandWorker.reading
    rw [if_neg hreads]
    rfl
  · rw [hpending]
    exact hr
  · rw [hpacket]
    exact hp
  · have hzero : s.work.returned + (scrollLoop P datamanagerRamReliefBlock s.work.file).1.length = 0 := hquiet.returned
    have hnone : (scrollLoop P datamanagerRamReliefBlock s.work.file).1 = [] := List.length_eq_zero_iff.mp
      (Nat.add_eq_zero_iff.mp hzero).2
    rw [hnone, List.filterMap_nil, List.append_nil] at hfiles
    exact hfiles.mem_iff.mp hr
  · exact (List.append_eq_nil_iff.mp (hsplit.symm.trans hnil)).1

end Takes

theorem workerStep_spec {P : Puzzle} {ps : PieceSet P} (al : MapAllocs) {cfg : ExpandConfig} {s s' : Expansion P} {i : Nat}
    {w : ExpandWorker P} {label : ExpandLabel P} (htarget : cfg.targetLevel.toNat ≤ P.eternParts) (hready : Ready ps s w)
    (hallowed : s.Allowed ps label) (h : s.workerStep ps (prepareMapPart ps al) cfg i w label = some s') :
    ∃ w', ThreadStep ps cfg s s' i w w' := by
  cases label with
  | take _ spurious => exact takeStep_spec hready h
  | source _ k room fails again tierBytes => exact sourceStep_spec hready h
  | publish _ => exact publishStep_spec hready h
  | decode _ => exact decodeStep_spec hready h
  | treat _ => exact treatStep_spec hready htarget h
  | child _ turns => exact childStep_spec hready h
  | flush _ pushed tierBytes => exact flushStep_spec hready h
  | restore _ => exact restoreStep_spec hready h
  | store _ freeUnchecked freeChecked => exact storeStep_spec hready hallowed.1 hallowed.2 h
  | react _ stop moved => exact reactStep_spec hready h
  | giveBack _ fp => exact giveBackStep_spec hready h
  | _ => cases h
