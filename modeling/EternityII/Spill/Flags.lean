-- SUMMARY: The pool a record is stored in and the flag it carries: when they agree, along runs and through a backup.
import EternityII.Base.Runs
import EternityII.Spill.Import
import EternityII.Spill.Interleaving

/-!
# The flag of a record and its pool

A record carries its flag, and a restore routes by it. The pool is chosen by whoever stores the packet:
`put_to_pool` asks whether the byte is 1, `put_back_to_stock` whether it is zero, and an import makes
it 0 or 1 first. The encoder writes whether it is zero, so only the first of them can disagree with the
record it stores.
-/

/-! ## Storing packets -/

section Paths

variable {P : Puzzle}

/-- `put_to_pool`; `file` is the first one that could be locked, `none` for a batch that is refused. -/
def Store.putToPool (s : Store) (packets : List (Packet P)) (wantChecked : Bool) (file : Option Nat) : Store × Bool :=
  let kept := routed packets wantChecked
  if kept.length = 0 then (s, true)
  else
    match file with
    | none => (s, false)
    | some currfile =>
      let dest := currfile % s.spill.nbFiles
      (kept.foldl (fun s p => s.insert wantChecked dest p) s, true)

/-- `put_to_local`: both pools on their own. -/
def Store.putToLocal (s : Store) (packets : List (Packet P)) (unchecked checked : Option Nat) : Store × Bool :=
  let unverified := s.putToPool packets false unchecked
  let verified := unverified.1.putToPool packets true checked
  (verified.1, unverified.2 && verified.2)

/-- The pool that `put_back_to_stock` takes. -/
def putBackPool (pk : Packet P) : Bool := pk.checked != 0

/-- A list without one of its records. -/
def Store.unlist (s : Store) (id : StackId) (index : Nat) : Store :=
  { s with lists := Function.update s.lists id ((s.lists id).eraseIdx index) }

variable (P) (tier : TierCodec)

/-- A round of `tier_reload`: the records of the top block go to the end of the list. -/
def Store.tierReload (s : Store) (id : StackId) : Store :=
  match if id.2 < s.spill.nbFiles then (s.tier id).blocks.getLast? else none with
  | none => s
  | some top =>
    match (frameRaw P tier top.frame).bind (tierRecords P) with
    | none => s
    | some records =>
      { s with
        lists := Function.update s.lists id (s.lists id ++ records)
        tier := Function.update s.tier id ((s.tier id).remove top.seq) }

/-- `stock_spill_reload`: the packets it reads go to the end of the list. -/
def Store.diskReload (s : Store) (id : StackId) (maxPackets : Nat) (env : ReloadEnv) : Store :=
  let r := stockSpillReload P tier s.spill id.1 id.2 maxPackets env
  { s with
    lists := Function.update s.lists id (r.2.foldl poolPut (s.lists id))
    spill := r.1 }

end Paths

/-- The stock, the analysed pool, and the packets taken out of either that go into a pool of the stock. -/
structure FlagState (P : Puzzle) where
  store : Store
  analysed : List (List (AnalysedElement P))
  held : List (Bool × Packet P)

/-- The steps of the server that store packets or move them about: an `ADD` or an expansion, a `GET`, an
acknowledgement, `restock_analysed` and the reclaim of a lease (an element is taken and put back), a
step of `rebalance_pool_step` (a record is taken and put back), imports, evictions and reloads. -/
inductive FlagStep (P : Puzzle) where
  | put (packets : List (Packet P)) (unchecked checked : Option Nat)
  | get (c : Bool) (file index dest : Nat) (owner : Option (Nat × Int))
  | acknowledge (possibility : Packet P) (preferredFile : Nat)
  | takeBack (file index : Nat)
  | rebalance (c : Bool) (file : Nat)
  | putBack (index dest : Nat)
  | importFile (env : ImportEnv P) (layout : RawLayout P) (file : BackupFile)
  | restore (env : ImportEnv P) (layout : RawLayout P) (control again : BackupFile)
  | importAnalysed (layout : RawLayout P) (files : Nat → Option Nat) (file : BackupFile)
  | restoreAnalysed (layout : RawLayout P) (files : Nat → Option Nat) (control again : BackupFile)
  | move (m : Store.Move)
  | tierReload (id : StackId)
  | diskReload (id : StackId) (maxPackets : Nat) (env : ReloadEnv)

/-- A record taken out of a list, with the packet that is read from it. -/
def Store.takeListed (P : Puzzle) (s : Store) (id : StackId) (index : Nat) : Option (Store × Packet P) :=
  match if id.2 < s.spill.nbFiles then (s.lists id)[index]? else none with
  | none => none
  | some record => (recordPacket P record).map fun packet => (s.unlist id index, packet)

/-- One step; `none` where the step cannot be taken. -/
def FlagState.step {P : Puzzle} (tier : TierCodec) (s : FlagState P) : FlagStep P → Option (FlagState P)
  | .put packets unchecked checked => some { s with store := (s.store.putToLocal packets unchecked checked).1 }
  | .get c file index dest owner =>
    (s.store.takeListed P (c, file) index).map fun taken =>
      { s with
        store := taken.1
        analysed := s.analysed.modify (dest % s.analysed.length)
          (· ++ [⟨taken.2, owner.isSome, (owner.getD (0, 0)).1, (owner.getD (0, 0)).2⟩]) }
  | .acknowledge possibility preferredFile =>
    some { s with analysed := removePossibilityAnalysed s.analysed possibility preferredFile }
  | .takeBack file index =>
    match (s.analysed.getD file [])[index]? with
    | none => none
    | some e => some { s with
        analysed := s.analysed.modify file (·.eraseIdx index)
        held := s.held ++ [(putBackPool e.packet, e.packet)] }
  | .rebalance c file =>
    (s.store.takeListed P (c, file) 0).map fun taken =>
      { s with
        store := taken.1
        held := s.held ++ [(c, taken.2)] }
  | .putBack index dest =>
    match s.held[index]? with
    | none => none
    | some (c, pk) => some { s with
        store := s.store.insert c (dest % s.store.spill.nbFiles) pk
        held := s.held.eraseIdx index }
  | .importFile env layout file =>
    match importFile tier env layout file s.store with
    | .ok r => some { s with store := r.store }
    | _ => none
  | .restore env layout control again =>
    match restore tier env layout control again s.store with
    | .ok r => some { s with store := r.store }
    | _ => none
  | .importAnalysed layout files file =>
    match importAnalysed layout files file s.analysed with
    | .ok r => some { s with analysed := r.store }
    | _ => none
  | .restoreAnalysed layout files control again =>
    match restoreAnalysed layout files control again s.analysed with
    | .ok r => some { s with analysed := r.store }
    | _ => none
  | .move m => some { s with store := s.store.move P tier m }
  | .tierReload id => some { s with store := s.store.tierReload P tier id }
  | .diskReload id maxPackets env =>
    if id.2 < s.store.spill.nbFiles then some { s with store := s.store.diskReload P tier id maxPackets env } else none

/-! ## Records in the pool of their flag -/

/-- A record whose flag is that of the pool. -/
def Fits (P : Puzzle) (c : Bool) (record : List Byte) : Prop := IsRecord P record ∧ decide (record.getD 2 0 = 1#8) = c

/-- Each record of the stock is in the pool of its flag. -/
def Store.Flagged (P : Puzzle) (tier : TierCodec) (s : Store) : Prop :=
  ∀ c, ∀ record ∈ s.records P tier c, Fits P c record

section Fits

variable {P : Puzzle} {p q : Packet P} {record record' : List Byte} {c : Bool}

/-- The flag in the record of a packet says whether the byte of the packet is zero. -/
theorem fits_recordOf (h : recordOf p = some record) : Fits P c record ↔ (p.checked != 0) = c := by
  have hflag : decide (record.getD 2 0 = 1#8) = (p.checked != 0) := by
    rw [recordOf_flag h]
    by_cases hzero : p.checked = 0
    · rw [hzero]
      rfl
    · rw [if_pos hzero, bne_iff_ne.mpr hzero]
      rfl
  unfold Fits
  rw [hflag]
  exact ⟨fun hfits => hfits.2, fun hc => ⟨⟨p, h⟩, hc⟩⟩

/-- The test of `put_to_pool` and that of the encoder agree on 0 and on 1. -/
theorem routed_eq_iff : decide (p.checked = 1) = (p.checked != 0) ↔ p.checked = 0 ∨ p.checked = 1 := by
  by_cases hone : p.checked = 1
  · rw [hone]
    exact ⟨fun _ => .inr rfl, fun _ => rfl⟩
  · rw [decide_eq_false hone]
    by_cases hzero : p.checked = 0
    · rw [hzero]
      exact ⟨fun _ => .inl rfl, fun _ => rfl⟩
    · rw [bne_iff_ne.mpr hzero]
      exact ⟨fun h => absurd h Bool.false_ne_true, fun h => absurd h (not_or.mpr ⟨hzero, hone⟩)⟩

/-- The packet read from a record goes back to its pool. -/
theorem Fits.read (h : Fits P c record) (hread : recordPacket P record = some q) : (q.checked != 0) = c := by
  unfold recordPacket at hread
  split at hread
  · rename_i q' n hdecode
    obtain rfl := Option.some.inj hread
    rw [packetCodecDecode_checked hdecode, ← h.2]
    split
    · rename_i hset
      rw [decide_eq_true hset]
      rfl
    · rename_i hset
      rw [decide_eq_false hset]
      rfl
  · exact absurd hread (by simp)

/-- A record read and encoded again, whatever its score, stays in its pool. -/
theorem Fits.recode (h : Fits P c record) (hread : recordPacket P record = some q) (hchecked : p.checked = q.checked)
    (hrecord : recordOf p = some record') : Fits P c record' := by
  rw [fits_recordOf hrecord, hchecked]
  exact h.read hread

end Fits

section Flagged

variable {P : Puzzle} {tier : TierCodec} {s s' : Store} {p : Packet P} {c : Bool} {id : StackId}

theorem mem_records {record : List Byte} : record ∈ s.records P tier c ↔
    ∃ id : StackId, id.2 < s.spill.nbFiles ∧ id.1 = c ∧ record ∈ s.stackRecords P tier id := by
  unfold Store.records
  rw [Multiset.mem_sum]
  simp only [mem_poolStacks, and_assoc]

/-- A stock whose stacks get nothing but records of their pools. -/
theorem Store.Flagged.of_mem (h : s.Flagged P tier) (hnb : s'.spill.nbFiles = s.spill.nbFiles)
    (hmem : ∀ id, ∀ record ∈ s'.stackRecords P tier id, record ∈ s.stackRecords P tier id ∨ Fits P id.1 record) :
    s'.Flagged P tier := by
  intro c record hrecord
  obtain ⟨id, hid, rfl, hstack⟩ := mem_records.mp hrecord
  rcases hmem id record hstack with hold | hnew
  · exact h id.1 record (mem_records.mpr ⟨id, hnb ▸ hid, rfl, hold⟩)
  · exact hnew

/-- The same with whole pools. -/
theorem Store.Flagged.of_gains {m : Bool → Multiset (List Byte)} (h : s.Flagged P tier)
    (hgains : Store.Gains P tier s s' m) (hfits : ∀ c, ∀ record ∈ m c, Fits P c record) : s'.Flagged P tier := by
  intro c record hrecord
  rw [hgains.records] at hrecord
  rcases Multiset.mem_add.mp hrecord with hold | hnew
  · exact h c record hold
  · exact hfits c record hnew

theorem Store.Flagged.of_same (h : s.Flagged P tier) (hsame : Store.Same P tier s s') : s'.Flagged P tier :=
  h.of_mem hsame.nbFiles fun id _ hrecord => .inl (hsame.each id ▸ hrecord)

/-- An insertion into the pool of the flag that will be written. -/
theorem Store.Flagged.insert (h : s.Flagged P tier) {dest : Nat}
    (hfits : ∀ record, recordOf p = some record → Fits P c record) : (s.insert c dest p).Flagged P tier := by
  refine h.of_mem rfl fun id record hrecord => ?_
  rw [Store.insert_stackRecords] at hrecord
  rcases Multiset.mem_add.mp hrecord with hold | hnew
  · exact .inl hold
  · right
    split at hnew
    · rename_i heq
      rw [heq]
      exact hfits record (Option.mem_toList.mp (Multiset.mem_coe.mp hnew))
    · exact absurd hnew (Multiset.notMem_zero _)

/-- Packets inserted one after the other. -/
theorem Store.Gains.of_inserts (hs : s.Sound P) {dest : Nat} (hdest : dest < s.spill.nbFiles) (packets : List (Packet P)) :
    Store.Gains P tier s (packets.foldl (fun s p => s.insert c dest p) s) fun c' =>
      if c = c' then (packets.filterMap recordOf : Multiset (List Byte)) else 0 := by
  induction packets generalizing s with
  | nil => exact ⟨hs, rfl, fun c' => by rw [List.filterMap_nil, Multiset.coe_nil, ite_self, add_zero]; rfl⟩
  | cons p packets ih =>
    have hfirst : Store.Gains P tier s (s.insert c dest p) fun c' =>
        if c = c' then ((recordOf p).toList : Multiset (List Byte)) else 0 :=
      ⟨hs.insert c dest p, rfl, Store.insert_records hdest⟩
    have hcons : (p :: packets).filterMap recordOf = (recordOf p).toList ++ packets.filterMap recordOf := by
      rw [List.filterMap_cons]
      cases recordOf p <;> rfl
    refine hfirst.trans (ih (hs.insert c dest p) hdest) fun c' => ?_
    rw [hcons, ← Multiset.coe_add]
    split <;> rfl

end Flagged

/-! ## What the steps keep -/

/-- A change that leaves each record in the pool of its flag. -/
structure Store.Keeps (P : Puzzle) (tier : TierCodec) (s s' : Store) : Prop where
  sound : s'.Sound P
  flagged : s'.Flagged P tier
  nbFiles : s'.spill.nbFiles = s.spill.nbFiles

section Keep

variable {P : Puzzle} {tier : TierCodec} {s s' : Store} {p : Packet P} {c : Bool} {id : StackId}

theorem Store.Keeps.trans {s'' : Store} (h : Store.Keeps P tier s s') (h' : Store.Keeps P tier s' s'') :
    Store.Keeps P tier s s'' :=
  ⟨h'.sound, h'.flagged, h'.nbFiles.trans h.nbFiles⟩

theorem Store.Flagged.keeps_of_gains {m : Bool → Multiset (List Byte)} (h : s.Flagged P tier)
    (hgains : Store.Gains P tier s s' m) (hfits : ∀ c, ∀ record ∈ m c, Fits P c record) : Store.Keeps P tier s s' :=
  ⟨hgains.sound, h.of_gains hgains hfits, hgains.nbFiles⟩

variable (tier) in
/-- `put_to_pool` adds the records of the packets it is for, or nothing. -/
theorem Store.putToPool_spec (hs : s.Sound P) (hpos : 0 < s.spill.nbFiles) (packets : List (Packet P)) (wantChecked : Bool)
    (file : Option Nat) :
    Store.Gains P tier s (s.putToPool packets wantChecked file).1 fun c =>
      if file.isSome ∧ wantChecked = c then ((routed packets wantChecked).filterMap recordOf : Multiset (List Byte))
      else 0 := by
  have hsame : ∀ m : Bool → Multiset (List Byte), (∀ c, m c = 0) → Store.Gains P tier s s m :=
    fun m hm => ⟨hs, rfl, fun c => by rw [hm, add_zero]⟩
  unfold Store.putToPool
  dsimp only
  split
  · rename_i hempty
    refine hsame _ fun c => ?_
    rw [List.length_eq_zero_iff.mp hempty, List.filterMap_nil, Multiset.coe_nil, ite_self]
  · cases file with
    | none => exact hsame _ fun c => if_neg fun h => absurd h.1 (by simp)
    | some currfile =>
      simp only [Option.isSome_some, true_and]
      exact .of_inserts hs (Nat.mod_lt currfile hpos) _

/-- A batch that is stored keeps the flags right if and only if the packets with a record have a byte of
0 or 1. -/
theorem Store.putToPool_flagged_iff (h : s.Flagged P tier) (hs : s.Sound P) (hpos : 0 < s.spill.nbFiles)
    (packets : List (Packet P)) (wantChecked : Bool) (currfile : Nat) :
    (s.putToPool packets wantChecked (some currfile)).1.Flagged P tier ↔
      ∀ p ∈ packets, p.Encodable → decide (p.checked = 1) = wantChecked → p.checked = 0 ∨ p.checked = 1 := by
  have hgains := Store.putToPool_spec tier hs hpos packets wantChecked (some currfile)
  have hmem : ∀ record, record ∈ (routed packets wantChecked).filterMap recordOf ↔
      ∃ p ∈ packets, decide (p.checked = 1) = wantChecked ∧ recordOf p = some record := by
    intro record
    unfold routed
    simp only [List.mem_filterMap, List.mem_filter, beq_iff_eq, and_assoc]
  refine ⟨fun hflagged p hp hencodable hroute => ?_, fun hbytes => h.of_gains hgains fun c record hrecord => ?_⟩
  · obtain ⟨record, hrecord⟩ := Option.isSome_iff_exists.mp (encodable_iff.mp hencodable)
    have hstored : record ∈ (s.putToPool packets wantChecked (some currfile)).1.records P tier wantChecked := by
      rw [hgains.records, if_pos ⟨rfl, rfl⟩]
      exact Multiset.mem_add.mpr (.inr (Multiset.mem_coe.mpr ((hmem record).mpr ⟨p, hp, hroute, hrecord⟩)))
    rw [← routed_eq_iff, hroute]
    exact ((fits_recordOf hrecord).mp (hflagged wantChecked record hstored)).symm
  · split at hrecord
    · rename_i hc
      obtain ⟨p, hp, hroute, hencoded⟩ := (hmem record).mp (Multiset.mem_coe.mp hrecord)
      rw [fits_recordOf hencoded, ← hc.2, ← hroute]
      refine (routed_eq_iff.mpr (hbytes p hp (encodable_iff.mpr ?_) hroute)).symm
      rw [hencoded]
      rfl
    · exact absurd hrecord (Multiset.notMem_zero _)

/-- A batch keeps the flags right when its packets with a record have a byte of 0 or 1. -/
theorem Store.putToPool_keeps (h : s.Flagged P tier) (hs : s.Sound P) (hpos : 0 < s.spill.nbFiles)
    {packets : List (Packet P)} (hbytes : ∀ p ∈ packets, p.Encodable → p.checked = 0 ∨ p.checked = 1)
    (wantChecked : Bool) (file : Option Nat) : Store.Keeps P tier s (s.putToPool packets wantChecked file).1 := by
  have hgains := Store.putToPool_spec tier hs hpos packets wantChecked file
  refine ⟨hgains.sound, ?_, hgains.nbFiles⟩
  cases file with
  | none =>
    refine h.of_gains hgains fun c record hrecord => ?_
    rw [if_neg fun h => absurd h.1 (by simp)] at hrecord
    exact absurd hrecord (Multiset.notMem_zero _)
  | some currfile =>
    exact (Store.putToPool_flagged_iff h hs hpos packets wantChecked currfile).mpr fun p hp hencodable _ =>
      hbytes p hp hencodable

/-- A record taken out of a list, and the pool that the packet read from it goes back to. -/
theorem Store.takeListed_spec (h : s.Flagged P tier) (hs : s.Sound P) {index : Nat} {q : Packet P}
    (htaken : s.takeListed P id index = some (s', q)) :
    Store.Keeps P tier s s' ∧ (q.checked != 0) = id.1 := by
  unfold Store.takeListed at htaken
  split at htaken
  · exact absurd htaken (by simp)
  · rename_i record hrecord
    obtain ⟨hid, hrecord⟩ := Option.ite_none_right_eq_some.mp hrecord
    obtain ⟨packet, hread, hpair⟩ := Option.map_eq_some_iff.mp htaken
    obtain ⟨rfl, rfl⟩ := Prod.mk.inj hpair
    have hsub : ∀ id', ∀ r ∈ (s.unlist id index).lists id', r ∈ s.lists id' := by
      intro id' r hr
      unfold Store.unlist at hr
      dsimp only at hr
      by_cases heq : id' = id
      · rw [heq, Function.update_self] at hr
        rw [heq]
        exact List.mem_of_mem_eraseIdx hr
      · rwa [Function.update_of_ne heq] at hr
    have hlisted : record ∈ s.stackRecords P tier id := by
      unfold Store.stackRecords
      exact Multiset.mem_add.mpr (.inl (Multiset.mem_add.mpr (.inl (Multiset.mem_coe.mpr (List.mem_of_getElem? hrecord)))))
    have hfits : Fits P id.1 record := h id.1 record (mem_records.mpr ⟨id, hid, rfl, hlisted⟩)
    refine ⟨⟨⟨fun id' r hr => hs.lists id' r (hsub id' r hr), hs.spill⟩, h.of_mem rfl fun id' r hr => .inl ?_, rfl⟩,
      hfits.read hread⟩
    unfold Store.stackRecords at hr ⊢
    rw [add_assoc] at hr ⊢
    rcases Multiset.mem_add.mp hr with hr | hr
    · exact Multiset.mem_add.mpr (.inl (hsub id' r hr))
    · exact Multiset.mem_add.mpr (.inr hr)

/-- A reload from the tier leaves every record in its stack. -/
theorem Store.tierReload_keeps (h : s.Flagged P tier) (hs : s.Sound P) :
    Store.Keeps P tier s (s.tierReload P tier id) := by
  unfold Store.tierReload
  split
  · exact ⟨hs, h, rfl⟩
  · rename_i top htop
    obtain ⟨hid, htop⟩ := Option.ite_none_right_eq_some.mp htop
    obtain ⟨pre, hblocks⟩ := List.getLast?_eq_some_iff.mp htop
    split
    · exact ⟨hs, h, rfl⟩
    · rename_i records hrecords
      have hrecs : frameRecs P tier top.frame = records := by
        unfold frameRecs
        rw [hrecords, Option.getD_some]
      have hordered := (s.tier id).ordered
      rw [hblocks] at hordered
      have hremoved : ((s.tier id).remove top.seq).blocks = pre := by
        show eraseSeq top.seq (s.tier id).blocks = pre
        rw [hblocks, eraseSeq_split hordered, List.append_nil]
      have hframes : framesRecs P tier (s.tier id).frames =
          framesRecs P tier ((s.tier id).remove top.seq).frames + (records : Multiset (List Byte)) := by
        unfold TierStack.frames
        rw [hremoved, hblocks, List.map_append, framesRecs_append, List.map_singleton, framesRecs_singleton, hrecs]
      have hstack : ∀ r ∈ records, r ∈ s.stackRecords P tier id := by
        intro r hr
        unfold Store.stackRecords
        rw [hframes]
        exact Multiset.mem_add.mpr (.inl (Multiset.mem_add.mpr (.inr (Multiset.mem_add.mpr (.inr hr)))))
      refine ⟨⟨fun id' r hr => ?_, hs.spill⟩, h.of_same ⟨rfl, fun id' => ?_⟩, rfl⟩
      · dsimp only at hr
        by_cases heq : id' = id
        · rw [heq, Function.update_self] at hr
          rcases List.mem_append.mp hr with hr | hr
          · exact hs.lists id r hr
          · exact (h id.1 r (mem_records.mpr ⟨id, hid, rfl, hstack r hr⟩)).1
        · rw [Function.update_of_ne heq] at hr
          exact hs.lists id' r hr
      · unfold Store.stackRecords
        dsimp only
        by_cases heq : id' = id
        · rw [heq, Function.update_self, Function.update_self, hframes, ← Multiset.coe_add]
          abel
        · rw [Function.update_of_ne heq, Function.update_of_ne heq]

/-- The packets decoded from records come from them. -/
theorem mem_mapM_recordPacket {records : List (List Byte)} {packets : List (Packet P)}
    (h : records.mapM (recordPacket P) = some packets) {q : Packet P} (hq : q ∈ packets) :
    ∃ record ∈ records, recordPacket P record = some q := by
  induction records generalizing packets with
  | nil =>
    obtain rfl : [] = packets := by simpa using h
    exact absurd hq List.not_mem_nil
  | cons record records ih =>
    rw [List.mapM_cons] at h
    obtain ⟨first, hfirst, rest, hrest, rfl⟩ : ∃ first, recordPacket P record = some first ∧
        ∃ rest, records.mapM (recordPacket P) = some rest ∧ first :: rest = packets := by
      simpa [Option.bind_eq_some_iff] using h
    rcases List.mem_cons.mp hq with rfl | hq
    · exact ⟨record, List.mem_cons_self, hfirst⟩
    · obtain ⟨record', hmem, hread⟩ := ih hrest hq
      exact ⟨record', List.mem_cons_of_mem _ hmem, hread⟩

theorem mem_framesPackets {frames : List StoredFrame} {packets : List (Packet P)}
    (h : framesPackets P tier frames = some packets) {q : Packet P} (hq : q ∈ packets) :
    ∃ record ∈ framesRecs P tier frames, recordPacket P record = some q := by
  induction frames generalizing packets with
  | nil =>
    obtain rfl := Option.some.inj (framesPackets_nil.symm.trans h)
    exact absurd hq List.not_mem_nil
  | cons fr frames ih =>
    obtain ⟨first, rest, hfirst, hrest, rfl⟩ := framesPackets_cons h
    have hcons : framesRecs P tier (fr :: frames) =
        (frameRecs P tier fr : Multiset (List Byte)) + framesRecs P tier frames := by
      unfold framesRecs
      rw [List.map_cons, List.sum_cons]
    rw [hcons]
    rcases List.mem_append.mp hq with hq | hq
    · obtain ⟨raw, hraw, hrecords⟩ := Option.bind_eq_some_iff.mp hfirst
      obtain ⟨records, hrecords, hpackets⟩ := Option.bind_eq_some_iff.mp hrecords
      obtain ⟨record, hmem, hread⟩ := mem_mapM_recordPacket hpackets hq
      refine ⟨record, Multiset.mem_add.mpr (.inl ?_), hread⟩
      unfold frameRecs frameRaw
      rw [hraw, Option.bind_some, hrecords, Option.getD_some]
      exact hmem
    · obtain ⟨record, hmem, hread⟩ := ih hrest hq
      exact ⟨record, Multiset.mem_add.mpr (.inr hmem), hread⟩

/-- A reload from disk takes records off a stack and lists them again. -/
theorem Store.diskReload_keeps (h : s.Flagged P tier) (hs : s.Sound P) (hid : id.2 < s.spill.nbFiles) (maxPackets : Nat)
    (env : ReloadEnv) :
    Store.Keeps P tier s (s.diskReload P tier id maxPackets env) := by
  obtain ⟨segs, hsegs⟩ := hs.spill
  have hspec : (reloadRead P tier s.spill id.1 id.2 maxPackets env).1 = s.spill ∧ _ := reloadRead_spec (hsegs.holds id)
  obtain ⟨hsame, hread⟩ := hspec
  unfold Store.diskReload stockSpillReload
  cases hplan : reloadRead P tier s.spill id.1 id.2 maxPackets env with
  | mk s' plan =>
    rw [hplan] at hsame hread
    obtain rfl : s' = s.spill := hsame
    cases plan with
    | none =>
      dsimp only
      rw [List.foldl_nil, Function.update_eq_self]
      exact ⟨hs, h, rfl⟩
    | some plan =>
      obtain ⟨lower, pre, suf, hstack, -, -, -, hstart, htake, -, hpackets⟩ := hread plan rfl
      have hleft := hsegs.reloadCommit hstack hstart htake env
      have hframes : ∀ id', diskFrames s.spill id' = diskFrames (reloadCommit s.spill id.1 id.2 plan env) id' ++
          if id' = id then suf else [] := by
        intro id'
        rw [hsegs.diskFrames_eq, hleft.diskFrames_eq]
        by_cases heq : id' = id
        · rw [if_pos heq, heq, Function.update_self, hstack]
          split
          · rename_i hpre
            simp [hpre]
          · simp
        · rw [if_neg heq, Function.update_of_ne heq, List.append_nil]
      have hlisted : ∀ r ∈ (plan.packets.map fun p => { p with minCandidats := possibilityMinCandidatsUnknown }).filterMap
          recordOf, Fits P id.1 r := by
        intro r hr
        obtain ⟨p, hp, hrecord⟩ := List.mem_filterMap.mp hr
        obtain ⟨q, hq, rfl⟩ := List.mem_map.mp hp
        obtain ⟨record, hmem, hpacket⟩ := mem_framesPackets hpackets hq
        have hstored : record ∈ s.stackRecords P tier id := by
          unfold Store.stackRecords
          rw [hframes id, if_pos rfl, framesRecs_append]
          exact Multiset.mem_add.mpr (.inr (Multiset.mem_add.mpr (.inr hmem)))
        have hfits : Fits P id.1 record := h id.1 record (mem_records.mpr ⟨id, hid, rfl, hstored⟩)
        exact hfits.recode (p := q.unscored) hpacket rfl hrecord
      refine ⟨⟨fun id' r hr => ?_, _, hleft⟩, h.of_mem rfl fun id' r hr => ?_, rfl⟩
      · dsimp only at hr
        by_cases heq : id' = id
        · rw [heq, Function.update_self, foldl_poolPut] at hr
          rcases List.mem_append.mp hr with hr | hr
          · exact hs.lists id r hr
          · exact (hlisted r hr).1
        · rw [Function.update_of_ne heq] at hr
          exact hs.lists id' r hr
      · unfold Store.stackRecords at hr ⊢
        dsimp only at hr
        rw [hframes id', framesRecs_append]
        by_cases heq : id' = id
        · rw [heq, Function.update_self, foldl_poolPut, ← Multiset.coe_add] at hr
          rw [heq]
          simp only [Multiset.mem_add, Multiset.mem_coe] at hr ⊢
          rcases hr with ((hr | hr) | hr) | hr
          · exact .inl (.inl (.inl hr))
          · exact .inr (hlisted r hr)
          · exact .inl (.inl (.inr hr))
          · exact .inl (.inr (.inl hr))
        · rw [Function.update_of_ne heq] at hr
          simp only [Multiset.mem_add, Multiset.mem_coe] at hr ⊢
          rcases hr with (hr | hr) | hr
          · exact .inl (.inl (.inl hr))
          · exact .inl (.inl (.inr hr))
          · exact .inl (.inr (.inl hr))

end Keep

/-! ## What an import keeps -/

section Import

variable {P : Puzzle} {tier : TierCodec} {env : ImportEnv P} {s : Store} {p : Packet P} {n : Nat} {c : Bool}
  {st : ImportState}

/-- The stock has its records in the pools of their flags, and so have the buffers. -/
def ImportState.Flagged (P : Puzzle) (tier : TierCodec) (n : Nat) (st : ImportState) : Prop :=
  ∃ buffered, st.Sound P buffered ∧ st.store.Flagged P tier ∧ st.store.spill.nbFiles = n

/-- A packet of byte 0 or 1 goes to the pool of the flag that is written. -/
theorem Store.addPossibility_keeps (h : s.Flagged P tier) (hs : s.Sound P) (hbyte : p.checked = 0 ∨ p.checked = 1)
    (file : Nat) : Store.Keeps P tier s (s.addPossibility p file) :=
  ⟨hs.insert _ _ _, h.insert fun _ hrecord => (fits_recordOf hrecord).mpr (routed_eq_iff.mpr hbyte).symm, rfl⟩

variable (hlaw : ∀ zstd, tier.zstd = some zstd → zstd.Lawful)

include hlaw

theorem Store.moves_keeps (h : s.Flagged P tier) (hs : s.Sound P) (moves : List Store.Move) :
    Store.Keeps P tier s (moves.foldl (Store.move P tier) s) := by
  obtain ⟨hsound, hsame⟩ := Store.moves_spec hlaw hs moves
  exact ⟨hsound, h.of_same hsame, hsame.nbFiles⟩

/-- However an insertion ends, also at a stop. -/
theorem addPossibilityWaitingForRoom_keeps (h : s.Flagged P tier) (hs : s.Sound P)
    (hbyte : p.checked = 0 ∨ p.checked = 1) (rounds : List AddRound) :
    Store.Keeps P tier s (addPossibilityWaitingForRoom tier s p rounds).1 := by
  induction rounds generalizing s with
  | nil => exact ⟨hs, h, rfl⟩
  | cons round rounds ih =>
    cases round with
    | refused moves =>
      have hmoved := Store.moves_keeps hlaw h hs moves
      exact hmoved.trans (ih hmoved.flagged hmoved.sound)
    | late file =>
      have hadded := Store.addPossibility_keeps h hs hbyte file
      exact hadded.trans (ih hadded.flagged hadded.sound)
    | stored file => exact Store.addPossibility_keeps h hs hbyte file

variable (env) in
/-- The packets decoded from a buffer have a byte of 0 or 1. -/
theorem importTierFlushListed_keeps (h : st.store.Flagged P tier) (hs : st.store.Sound P) (fuel : Nat) (raw : List Byte) :
    Store.Keeps P tier st.store (importTierFlushListed tier env fuel raw st).1.store ∧
      (importTierFlushListed tier env fuel raw st).1.tier = st.tier := by
  induction fuel generalizing raw st with
  | zero => exact ⟨⟨hs, h, rfl⟩, rfl⟩
  | succ fuel ih =>
    rw [importTierFlushListed]
    split
    · exact ⟨⟨hs, h, rfl⟩, rfl⟩
    · split
      · rename_i packet consumed hdecode
        have hbyte : packet.checked = 0 ∨ packet.checked = 1 := packetCodecDecode_byte hdecode
        have hinserted : Store.Keeps P tier st.store (importInsertListed tier env st packet).1.store :=
          addPossibilityWaitingForRoom_keeps hlaw h hs hbyte (env.rounds st.inserts)
        dsimp only
        split
        · exact ⟨hinserted, rfl⟩
        · obtain ⟨hrest, htier⟩ := ih hinserted.flagged hinserted.sound (raw.drop consumed)
          exact ⟨hinserted.trans hrest, htier⟩
      · exact ⟨⟨hs, h, rfl⟩, rfl⟩

/-- A block of a pool that is pushed, taken or not. -/
theorem tierHookImportPush_keeps {records : List (List Byte)} (h : s.Flagged P tier) (hs : s.Sound P)
    (hrecords : ∀ r ∈ records, IsRecord P r) (hflag : ∀ r ∈ records, decide (r.getD 2 0 = 1#8) = c) (hne : records ≠ [])
    (hsize : records.flatten.length ≤ stockTierBlockBytes) (file : Nat) (turn : PushTurn) :
    Store.Keeps P tier s (tierHookImportPush P tier s c file records.flatten turn).1 := by
  obtain ⟨htaken, hleft⟩ := tierHookImportPush_spec hlaw c file hrecords hne hsize hs turn
  by_cases hpushed : (tierHookImportPush P tier s c file records.flatten turn).2 > 0
  · refine h.keeps_of_gains (htaken hpushed).1 fun c' record hrecord => ?_
    split at hrecord
    · rename_i hc
      exact ⟨hrecords record hrecord, hc ▸ hflag record hrecord⟩
    · exact absurd hrecord (Multiset.notMem_zero _)
  · exact h.keeps_of_gains (hleft hpushed) fun _ record hrecord => absurd hrecord (Multiset.notMem_zero record)

variable (env) in
/-- However a flush ends, its buffer is empty. -/
theorem importTierFlush_flagged (h : st.Flagged P tier n) (c : Bool) :
    (importTierFlush tier env st c).1.Flagged P tier n ∧ (importTierFlush tier env st c).1.tier.buf c = [] := by
  obtain ⟨buffered, hsound, hflagged, hn⟩ := h
  have hbuf := hsound.buf c
  have hlisted : ∀ st' : ImportState, Store.Keeps P tier st.store st'.store → st'.tier.buf = st.tier.buf →
      st'.tier.target = st.tier.target → st'.tier.nextFile = st.tier.nextFile →
      ((importTierFlushListed tier env (st.tier.buf c).length (st.tier.buf c) st').1.emptied c).Flagged P tier n ∧
        ((importTierFlushListed tier env (st.tier.buf c).length (st.tier.buf c) st').1.emptied c).tier.buf c = [] := by
    intro st' hkeeps hsamebuf htarget hnext
    obtain ⟨hrest, htier⟩ := importTierFlushListed_keeps env hlaw hkeeps.flagged hkeeps.sound
      (st.tier.buf c).length (st.tier.buf c)
    have hall := hkeeps.trans hrest
    refine ⟨⟨_, hsound.emptied hall.sound hall.nbFiles ?_ ?_ fun c' => ?_, hall.flagged, hall.nbFiles.trans hn⟩,
      Function.update_self ..⟩
    · rw [htier, hsamebuf]
    · rw [htier, htarget]
    · rw [htier, hnext, hall.nbFiles]
      exact hsound.nextFile c'
  have hsame : Store.Keeps P tier st.store st.store := ⟨hsound.store, hflagged, rfl⟩
  unfold importTierFlush
  dsimp only
  split
  · rename_i hempty
    exact ⟨⟨buffered, hsound, hflagged, hn⟩, List.length_eq_zero_iff.mp hempty⟩
  · rename_i hfull
    have hne : buffered c ≠ [] := by
      intro hnil
      rw [hbuf, hnil] at hfull
      exact hfull rfl
    split
    · have hpush := tierHookImportPush_keeps hlaw hflagged hsound.store (hsound.isRecord c) (hsound.flag c) hne
        (hbuf ▸ hsound.size c) (st.tier.nextFile c) (env.turn st.pushes)
      rw [← hbuf] at hpush
      split
      · refine ⟨⟨_, hsound.emptied hpush.sound hpush.nbFiles rfl rfl fun c' => ?_, hpush.flagged,
          hpush.nbFiles.trans hn⟩, Function.update_self ..⟩
        dsimp only
        by_cases hc : c' = c
        · rw [hc, Function.update_self]
          exact Nat.mod_lt _ (hpush.nbFiles ▸ hsound.nbFiles_pos)
        · rw [Function.update_of_ne hc, hpush.nbFiles]
          exact hsound.nextFile c'
      · exact hlisted _ hpush rfl rfl rfl
    · exact hlisted st hsame rfl rfl rfl

/-- A record goes to the buffer of its flag, or is left to the lists. -/
theorem importTierAddRaw_flagged {record : List Byte} (h : st.Flagged P tier n) (hrecord : IsRecord P record) :
    (importTierAddRaw tier env st record).1.Flagged P tier n := by
  have hmax : packetCodecMaxBytes P ≤ stockTierBlockBytes := by cases P <;> decide
  have hlen : record.length ≤ stockTierBlockBytes := Nat.le_trans hrecord.length_le hmax
  have hroom : ∀ c, (importTierMakeRoom tier env st c record.length).1.Flagged P tier n ∧
      ((importTierMakeRoom tier env st c record.length).1.tier.buf c).length + record.length ≤ stockTierBlockBytes := by
    intro c
    unfold importTierMakeRoom
    split
    · obtain ⟨hflagged, hnil⟩ := importTierFlush_flagged env hlaw h c
      refine ⟨hflagged, ?_⟩
      rw [hnil, List.length_nil, Nat.zero_add]
      exact hlen
    · rename_i hfits
      refine ⟨h, ?_⟩
      obtain ⟨buffered, hsound, -⟩ := h
      have htarget := hsound.target
      dsimp only
      omega
  obtain ⟨hflagged, hsize⟩ := hroom (decide (record.getD 2 0 = 1#8))
  unfold importTierAddRaw
  dsimp only
  split
  · exact hflagged
  · split
    · exact hflagged
    · obtain ⟨buffered, hsound, hstore, hn⟩ := hflagged
      exact ⟨_, hsound.buffer hrecord rfl hsize, hstore, hn⟩

/-- A packet of byte 0 or 1 that goes through the lists. -/
theorem importInsertListed_flagged (h : st.Flagged P tier n) (hbyte : p.checked = 0 ∨ p.checked = 1) :
    (importInsertListed tier env st p).1.Flagged P tier n := by
  obtain ⟨buffered, hsound, hflagged, hn⟩ := h
  have hkeeps := addPossibilityWaitingForRoom_keeps hlaw hflagged hsound.store hbyte (env.rounds st.inserts)
  refine ⟨buffered, ⟨hkeeps.sound, ?_, fun c => ?_, hsound.target, hsound.buf, hsound.isRecord, hsound.flag, hsound.size⟩,
    hkeeps.flagged, hkeeps.nbFiles.trans hn⟩
  · exact hkeeps.nbFiles ▸ hsound.nbFiles_pos
  · exact hkeeps.nbFiles ▸ hsound.nextFile c

variable (env) in
theorem importRecord_flagged {record : List Byte} (h : st.Flagged P tier n) (hrecord : IsRecord P record) :
    (importRecord tier env st record).1.Flagged P tier n := by
  have hadded : (if st.tier.active then importTierAddRaw tier env st record else (st, 0)).1.Flagged P tier n := by
    split
    · exact importTierAddRaw_flagged hlaw h hrecord
    · exact h
  unfold importRecord
  dsimp only
  generalize (if st.tier.active then importTierAddRaw tier env st record else (st, 0)) = added at hadded
  split
  · exact hadded
  · split
    · exact hadded
    · split
      · exact hadded
      · exact hadded
      · rename_i packet consumed hdecode
        exact importInsertListed_flagged hlaw hadded (packetCodecDecode_byte hdecode)

variable (env) in
theorem importPacket_flagged (h : st.Flagged P tier n) (hbyte : p.checked = 0 ∨ p.checked = 1) :
    (importPacket tier env st p).1.Flagged P tier n := by
  have hadded : (if st.tier.active then importTierAdd tier env st p else (st, 0)).1.Flagged P tier n := by
    split
    · unfold importTierAdd
      cases hp : recordOf p with
      | none => exact h
      | some record => exact importTierAddRaw_flagged hlaw h ⟨p, hp⟩
    · exact h
  unfold importPacket
  dsimp only
  generalize (if st.tier.active then importTierAdd tier env st p else (st, 0)) = added at hadded
  split
  · exact hadded
  · split
    · exact importInsertListed_flagged hlaw hadded hbyte
    · exact hadded

omit hlaw in
/-- A record in canonical form is one. -/
theorem isRecord_of_canonicalize {bytes left : List Byte} {r : Nat} {placed : Option Nat}
    (hcanonical : packetCodecCanonicalize P bytes possibilityMinCandidatsUnknown = .ok (r, left, placed)) (hr : r ≠ 0) :
    IsRecord P (left.take r) := by
  obtain ⟨hsome, hnone⟩ := packetCodecCanonicalize_front bytes possibilityMinCandidatsUnknown
  cases hfront : frontPacket P true bytes with
  | none =>
    rcases hnone hfront with herror | ⟨hcut, -⟩
    · rw [herror] at hcanonical
      exact absurd hcanonical (by simp)
    · rw [hcut] at hcanonical
      exact absurd (Prod.mk.inj (Outcome.ok.inj hcanonical)).1.symm hr
  | some front =>
    obtain ⟨hok, hrecord⟩ := hsome front.1 front.2 hfront
    rw [hok] at hcanonical
    obtain ⟨rfl, hpair⟩ := Prod.mk.inj (Outcome.ok.inj hcanonical)
    obtain ⟨rfl, -⟩ := Prod.mk.inj hpair
    exact ⟨_, hrecord⟩

theorem importPackedDirect_flagged {fuel : Nat} {f : ByteStream} {buf : List Byte} {eof : Bool} {e : ImportEnd}
    (h : st.Flagged P tier n) (he : importPackedDirect tier env fuel f buf eof st = .ok e) : e.state.Flagged P tier n := by
  induction fuel generalizing f buf eof st with
  | zero => exact absurd he (by simp [importPackedDirect])
  | succ fuel ih =>
    rw [importPackedDirect] at he
    split at he
    · obtain rfl := Outcome.ok.inj he
      exact h
    · split at he
      · obtain rfl := Outcome.ok.inj he
        exact h
      · split at he
        · exact absurd he (by simp)
        · obtain rfl := Outcome.ok.inj he
          exact h
        · rename_i r left placed hcanonical
          split at he
          · split at he
            · obtain rfl := Outcome.ok.inj he
              exact h
            · exact ih h he
          · rename_i hr
            have hrecorded := importRecord_flagged env hlaw h (isRecord_of_canonicalize hcanonical hr)
            dsimp only at he
            split at he
            · exact absurd he (by simp)
            · obtain rfl := Outcome.ok.inj he
              exact hrecorded
            · obtain rfl := Outcome.ok.inj he
              exact hrecorded
            · exact ih hrecorded he

theorem importListed_flagged (layout : RawLayout P) (format : BackupFormat) {fuel : Nat} {f : ByteStream} {e : ImportEnd}
    (h : st.Flagged P tier n) (he : importListed tier env layout format fuel f st = .ok e) :
    e.state.Flagged P tier n := by
  induction fuel generalizing f st with
  | zero => exact absurd he (by simp [importListed])
  | succ fuel ih =>
    rw [importListed] at he
    split at he
    · exact absurd he (by simp)
    · obtain rfl := Outcome.ok.inj he
      exact h
    · obtain rfl := Outcome.ok.inj he
      exact h
    · rename_i packet f' hread
      have himported := importPacket_flagged env hlaw h (importedPacket_flag packet)
      dsimp only at he
      split at he
      · obtain rfl := Outcome.ok.inj he
        exact himported
      · exact ih himported he

/-- An import keeps the flags right, whatever the file and however it ends. -/
theorem importFile_keeps {layout : RawLayout P} {file : BackupFile} {r : ImportResult Store} (h : s.Flagged P tier)
    (hs : s.Sound P) (hpos : 0 < s.spill.nbFiles) (hr : importFile tier env layout file s = .ok r) :
    Store.Keeps P tier s r.store := by
  have hend : ∀ e : ImportEnd, e.state.Flagged P tier s.spill.nbFiles →
      Store.Keeps P tier s (importEnd tier env e).store := by
    intro e hstate
    have hunchecked : (if e.aborted then (e.state, false) else importTierFlush tier env e.state false).1.Flagged P tier
        s.spill.nbFiles := by
      split
      · exact hstate
      · exact (importTierFlush_flagged env hlaw hstate false).1
    unfold importEnd importLast
    dsimp only
    generalize (if e.aborted then (e.state, false) else importTierFlush tier env e.state false) = unchecked at hunchecked
    split
    · obtain ⟨buffered, hsound, hflagged, hn⟩ := hunchecked
      exact ⟨hsound.store, hflagged, hn⟩
    · obtain ⟨⟨buffered, hsound, hflagged, hn⟩, -⟩ := importTierFlush_flagged env hlaw hunchecked true
      exact ⟨hsound.store, hflagged, hn⟩
  have hstart : (ImportState.mk s (importTierBegin env) 0 0 0).Flagged P tier s.spill.nbFiles := by
    have hholds : (ImportState.mk s (importTierBegin env) 0 0 0).Holds P tier _ 0 := holds_start hs hpos
    obtain ⟨buffered, hsound, -⟩ := hholds
    exact ⟨buffered, hsound, h, rfl⟩
  unfold importFile at hr
  split at hr
  · obtain rfl := Outcome.ok.inj hr
    exact ⟨hs, h, rfl⟩
  · dsimp only at hr
    split at hr
    · exact absurd hr (by simp)
    · exact absurd hr (by simp)
    · rename_i e he
      obtain rfl := Outcome.ok.inj hr
      refine hend e ?_
      split at he
      · exact importPackedDirect_flagged hlaw hstart he
      · exact importListed_flagged hlaw layout _ hstart he

end Import

/-! ## Runs -/

/-- A batch given to `put_to_pool` has bytes of 0 and 1 only. -/
def FlagStep.Clean {P : Puzzle} : FlagStep P → Prop
  | .put packets _ _ => ∀ p ∈ packets, p.Encodable → p.checked = 0 ∨ p.checked = 1
  | _ => True

/-- What the steps keep: the records in the stock, and the packets on their way to it, are for the pool of
their flag. -/
structure FlagState.Sound {P : Puzzle} (tier : TierCodec) (s : FlagState P) : Prop where
  store : s.store.Sound P
  nbFiles_pos : 0 < s.store.spill.nbFiles
  flagged : s.store.Flagged P tier
  held : ∀ h ∈ s.held, putBackPool h.2 = h.1

section Runs

variable {P : Puzzle} {tier : TierCodec} {s s' : FlagState P} {a : FlagStep P} {t : Store}

/-- A change of the stock alone. -/
theorem FlagState.Sound.of_keeps (h : s.Sound tier) (hkeeps : Store.Keeps P tier s.store s'.store) (hheld : s'.held = s.held) :
    s'.Sound tier :=
  ⟨hkeeps.sound, hkeeps.nbFiles ▸ h.nbFiles_pos, hkeeps.flagged, hheld ▸ h.held⟩

/-- The lists and the tier emptied leave the records on disk. -/
theorem Store.cleared_keeps (h : t.Flagged P tier) (hs : t.Sound P) : Store.Keeps P tier t t.cleared := by
  refine ⟨hs.cleared, h.of_mem rfl fun id record hrecord => .inl ?_, rfl⟩
  unfold Store.stackRecords Store.cleared at hrecord
  unfold Store.stackRecords
  simp only [TierStack.frames, TierStack.init, List.map_nil, framesRecs_nil, Multiset.coe_nil, zero_add] at hrecord
  exact Multiset.mem_add.mpr (.inr hrecord)

variable (hlaw : ∀ zstd, tier.zstd = some zstd → zstd.Lawful)

include hlaw

/-- Every step keeps the flags right when the batches it stores have bytes of 0 and 1. -/
theorem FlagState.step_sound (h : s.Sound tier) (hclean : a.Clean) (hstep : s.step tier a = some s') : s'.Sound tier := by
  cases a with
  | put packets unchecked checked =>
    obtain rfl := Option.some.inj hstep
    have hfirst := Store.putToPool_keeps h.flagged h.store h.nbFiles_pos hclean false unchecked
    have hsecond := Store.putToPool_keeps hfirst.flagged hfirst.sound (hfirst.nbFiles ▸ h.nbFiles_pos) hclean true checked
    exact h.of_keeps (hfirst.trans hsecond) rfl
  | get c file index dest owner =>
    obtain ⟨taken, htaken, rfl⟩ := Option.map_eq_some_iff.mp hstep
    exact h.of_keeps (Store.takeListed_spec h.flagged h.store htaken).1 rfl
  | acknowledge possibility preferredFile =>
    obtain rfl := Option.some.inj hstep
    exact ⟨h.store, h.nbFiles_pos, h.flagged, h.held⟩
  | takeBack file index =>
    unfold FlagState.step at hstep
    dsimp only at hstep
    split at hstep
    · exact absurd hstep (by simp)
    · obtain rfl := Option.some.inj hstep
      refine ⟨h.store, h.nbFiles_pos, h.flagged, fun x hx => ?_⟩
      rcases List.mem_append.mp hx with hx | hx
      · exact h.held x hx
      · rw [List.mem_singleton.mp hx]
  | rebalance c file =>
    obtain ⟨taken, htaken, rfl⟩ := Option.map_eq_some_iff.mp hstep
    obtain ⟨hkeeps, hpool⟩ := Store.takeListed_spec h.flagged h.store htaken
    refine ⟨hkeeps.sound, hkeeps.nbFiles ▸ h.nbFiles_pos, hkeeps.flagged, fun x hx => ?_⟩
    rcases List.mem_append.mp hx with hx | hx
    · exact h.held x hx
    · rw [List.mem_singleton.mp hx]
      exact hpool
  | putBack index dest =>
    unfold FlagState.step at hstep
    dsimp only at hstep
    split at hstep
    · exact absurd hstep (by simp)
    · rename_i c pk hpk
      obtain rfl := Option.some.inj hstep
      have hpool : putBackPool pk = c := h.held (c, pk) (List.mem_of_getElem? hpk)
      refine ⟨h.store.insert _ _ _, h.nbFiles_pos, h.flagged.insert fun record hrecord => ?_, fun x hx =>
        h.held x (List.mem_of_mem_eraseIdx hx)⟩
      exact (fits_recordOf hrecord).mpr hpool
  | importFile env layout file =>
    unfold FlagState.step at hstep
    dsimp only at hstep
    split at hstep
    · rename_i r hr
      obtain rfl := Option.some.inj hstep
      exact h.of_keeps (importFile_keeps hlaw h.flagged h.store h.nbFiles_pos hr) rfl
    · exact absurd hstep (by simp)
  | restore env layout control again =>
    unfold FlagState.step at hstep
    dsimp only at hstep
    split at hstep
    · rename_i r hr
      obtain rfl := Option.some.inj hstep
      unfold restore at hr
      split at hr
      · obtain rfl := Outcome.ok.inj hr
        exact h
      · have hcleared := Store.cleared_keeps h.flagged h.store
        exact h.of_keeps (hcleared.trans (importFile_keeps hlaw hcleared.flagged hcleared.sound h.nbFiles_pos hr)) rfl
    · exact absurd hstep (by simp)
  | importAnalysed layout files file =>
    unfold FlagState.step at hstep
    dsimp only at hstep
    split at hstep
    · obtain rfl := Option.some.inj hstep
      exact ⟨h.store, h.nbFiles_pos, h.flagged, h.held⟩
    · exact absurd hstep (by simp)
  | restoreAnalysed layout files control again =>
    unfold FlagState.step at hstep
    dsimp only at hstep
    split at hstep
    · obtain rfl := Option.some.inj hstep
      exact ⟨h.store, h.nbFiles_pos, h.flagged, h.held⟩
    · exact absurd hstep (by simp)
  | move m =>
    obtain rfl := Option.some.inj hstep
    exact h.of_keeps (Store.moves_keeps hlaw h.flagged h.store [m]) rfl
  | tierReload id =>
    obtain rfl := Option.some.inj hstep
    exact h.of_keeps (Store.tierReload_keeps h.flagged h.store) rfl
  | diskReload id maxPackets env =>
    obtain ⟨hid, hstep⟩ := Option.ite_none_right_eq_some.mp hstep
    obtain rfl := Option.some.inj hstep
    exact h.of_keeps (Store.diskReload_keeps h.flagged h.store hid maxPackets env) rfl

theorem FlagState.run_sound (hrun : Run (FlagState.step tier) (fun _ a => a.Clean) s s') (h : s.Sound tier) :
    s'.Sound tier :=
  hrun.invariant h fun hsound hclean hstep => FlagState.step_sound hlaw hsound hclean hstep

end Runs
