-- SUMMARY: Restoring a backup: which files are refused, and what the stock and the analysed pool hold after any other.
import EternityII.Spill.Store
import EternityII.Stock.BackupStream
import EternityII.Stock.LeaseReclaim

/-!
# Restoring a backup

`restore` looks at the header before it empties the pools, and then streams the body into them. Under
a RAM cap a compact body goes into blocks of the tier, read in chunks and put in canonical form in
place; what the tier does not take goes through the lists, one packet at a time, waiting for room. A
record that cannot be read ends the import and keeps what has been imported.
-/

/-! ## What the import depends on -/

/-- A call of `add_possibility` in `add_possibility_waiting_for_room`: it is refused, and the stock is
moved about before the next one; it stores the packet at the last attempt to lock a file, which it
reports as a refusal; or it stores the packet. -/
inductive AddRound where
  | refused (moves : List Store.Move)
  | late (file : Nat)
  | stored (file : Nat)

/-- A call of `import_push`: the moves that make room, and whether the block is taken, does not fit or
is not taken for another reason. -/
inductive PushTurn where
  | pushed (moves : List Store.Move)
  | full (moves : List Store.Move)
  | failed (moves : List Store.Move)

/-- The configuration, the allocations and what the other threads do during an import. The rounds of
an insertion end with the packet stored, or where a stop is requested. -/
structure ImportEnv (P : Puzzle) where
  ramLimitBytes : Nat
  tierActive : Bool
  buffers : Bool
  readBuffer : Bool
  chunk : Nat
  rounds : Nat → List AddRound
  turn : Nat → PushTurn
  chunk_gt : packetCodecMaxBytes P < chunk

/-- `import_tier_t`, with the bytes in the buffers. -/
structure ImportTier where
  buf : Bool → List Byte
  nextFile : Bool → Nat
  target : Nat
  active : Bool

/-- The stock, the buffers, how many insertions and pushes there have been, and `*imported`. -/
structure ImportState where
  store : Store
  tier : ImportTier
  inserts : Nat
  pushes : Nat
  imported : Nat

/-- The end of a reading loop: the state, `read_status` and `aborted`. -/
structure ImportEnd where
  state : ImportState
  readStatus : Int
  aborted : Bool

/-- What a call leaves: the stock or pool, its return value, and the status that is logged. -/
structure ImportResult (α : Type*) where
  store : α
  rc : Int
  readStatus : Int

/-- A backup file when it is opened: its bytes if there is one, and `zs_open`. -/
structure BackupFile where
  raw : Option ByteStream
  zsOpen : Option (ByteStream → Option ByteStream)

/-- The stream behind the header with its format, `none` for a file that is missing or refused. -/
def BackupFile.opened (P : Puzzle) (file : BackupFile) : Option (ByteStream × BackupFormat × List Byte) :=
  file.raw.bind (backupStreamOpenRead P file.zsOpen)

/-! ## Importing -/

/-- `tier_import_soft_limit`. -/
def tierImportSoftLimit (cap : Nat) : Nat := cap / 200 * (75 + 90) + cap % 200 * (75 + 90) / 200

section Import

variable {P : Puzzle} (tier : TierCodec) (env : ImportEnv P)

/-- `tier_hook_import_block_bytes`. -/
def tierHookImportBlockBytes : Nat :=
  if env.tierActive = false ∨ env.ramLimitBytes = 0 then 0
  else
    let target := min (tierImportSoftLimit env.ramLimitBytes / 16) stockTierBlockBytes
    if target > 0 then target else 1

/-- `import_tier_begin`. -/
def importTierBegin : ImportTier where
  buf _ := []
  nextFile _ := 0
  target := tierHookImportBlockBytes env
  active := tierHookImportBlockBytes env ≠ 0 && env.buffers

/-- `add_possibility` of one packet once the file is locked. -/
def Store.addPossibility (s : Store) (p : Packet P) (file : Nat) : Store :=
  s.insert (decide (p.checked = 1)) (file % s.spill.nbFiles) p

/-- `add_possibility_waiting_for_room`; `false` when a stop is requested. -/
def addPossibilityWaitingForRoom (s : Store) (p : Packet P) : List AddRound → Store × Bool
  | [] => (s, false)
  | .refused moves :: rounds => addPossibilityWaitingForRoom (moves.foldl (Store.move P tier) s) p rounds
  | .late file :: rounds => addPossibilityWaitingForRoom (s.addPossibility p file) p rounds
  | .stored file :: _ => (s.addPossibility p file, true)

/-- `import_insert_listed`, and the count that its callers keep. -/
def importInsertListed (st : ImportState) (p : Packet P) : ImportState × Bool :=
  let added := addPossibilityWaitingForRoom tier st.store p (env.rounds st.inserts)
  let imported := if added.2 then st.imported + 1 else st.imported
  ({ st with store := added.1, inserts := st.inserts + 1, imported }, added.2)

variable (P) in
/-- `import_build_and_link`. -/
def importBuildAndLink (s : Store) (id : StackId) (raw : List Byte) : Store :=
  match stockTierBlockBuild P tier raw with
  | some fr => s.link id fr
  | none =>
    match tierDecodeBlock P raw ((stockTierCountRecords P raw).getD 0) with
    | none => s
    | some packets => { s with lists := Function.update s.lists id (packets.foldl poolPut (s.lists id)) }

variable (P) in
/-- `tier_hook_import_push`. -/
def tierHookImportPush (s : Store) (isChecked : Bool) (file : Nat) (raw : List Byte) (turn : PushTurn) : Store × Int :=
  if file ≥ s.spill.nbFiles then (s, -1)
  else
    match stockTierCountRecords P raw with
    | none => (s, -1)
    | some n =>
      match turn with
      | .failed moves => (moves.foldl (Store.move P tier) s, -1)
      | .full moves => (moves.foldl (Store.move P tier) s, 0)
      | .pushed moves => (importBuildAndLink P tier (moves.foldl (Store.move P tier) s) (isChecked, file) raw, n)

/-- The loop of `import_tier_flush` that takes a buffer through the lists. -/
def importTierFlushListed : Nat → List Byte → ImportState → ImportState × Bool
  | 0, _, st => (st, true)
  | fuel + 1, raw, st =>
    if raw.length = 0 then (st, true)
    else
      match packetCodecDecode P raw with
      | .ok (packet, consumed) =>
        let inserted := importInsertListed tier env st packet
        if inserted.2 = false then (inserted.1, false)
        else importTierFlushListed fuel (raw.drop consumed) inserted.1
      | _ => (st, true)

/-- The buffer of a pool is empty again. -/
def ImportState.emptied (st : ImportState) (c : Bool) : ImportState :=
  { st with tier := { st.tier with buf := Function.update st.tier.buf c [] } }

theorem ImportState.emptied_store (st : ImportState) (c : Bool) : (st.emptied c).store = st.store := rfl

theorem ImportState.emptied_buf (st : ImportState) (c : Bool) :
    (st.emptied c).tier.buf = Function.update st.tier.buf c [] := rfl

/-- `import_tier_flush`; `false` when a stop is requested. -/
def importTierFlush (st : ImportState) (c : Bool) : ImportState × Bool :=
  let raw := st.tier.buf c
  let listed (st : ImportState) : ImportState × Bool :=
    let flushed := importTierFlushListed tier env raw.length raw st
    (flushed.1.emptied c, flushed.2)
  if raw.length = 0 then (st, true)
  else if st.tier.active then
    let push := tierHookImportPush P tier st.store c (st.tier.nextFile c) raw (env.turn st.pushes)
    let st := { st with store := push.1, pushes := st.pushes + 1 }
    if push.2 > 0 then
      let next := (st.tier.nextFile c + 1) % st.store.spill.nbFiles
      let tier := { st.tier with nextFile := Function.update st.tier.nextFile c next }
      (({ st with tier, imported := st.imported + push.2.toNat }).emptied c, true)
    else listed { st with tier := { st.tier with active := false } }
  else listed st

/-- The start of `import_tier_add_raw`: a buffer that has no room for `len` bytes more is flushed. -/
def importTierMakeRoom (st : ImportState) (c : Bool) (len : Nat) : ImportState × Bool :=
  if (st.tier.buf c).length > 0 ∧ (st.tier.buf c).length + len > st.tier.target then importTierFlush tier env st c
  else (st, true)

/-- The buffer of a pool with one record more. -/
def ImportState.buffer (st : ImportState) (c : Bool) (record : List Byte) : ImportState :=
  { st with tier := { st.tier with buf := Function.update st.tier.buf c (st.tier.buf c ++ record) } }

/-- `import_tier_add_raw`: 1 when the record is in the buffer, 0 when it is to go through the lists, -1
when a stop is requested. -/
def importTierAddRaw (st : ImportState) (record : List Byte) : ImportState × Int :=
  let c := decide (record.getD 2 0 = 1#8)
  let room := importTierMakeRoom tier env st c record.length
  if room.2 = false then (room.1, -1)
  else if room.1.tier.active = false then (room.1, 0)
  else (room.1.buffer c record, 1)

/-- `import_tier_add`. -/
def importTierAdd (st : ImportState) (p : Packet P) : ImportState × Int :=
  match recordOf p with
  | none => (st, 0)
  | some record => importTierAddRaw tier env st record

/-- The refill of the buffer of `import_packed_direct` when it holds less than a longest record; `none` for
a read error. -/
def importRefill (f : ByteStream) (buf : List Byte) (eof : Bool) : Option (ByteStream × List Byte × Bool) :=
  if eof = false ∧ buf.length < packetCodecMaxBytes P then
    let got := f.bytes.take (env.chunk - buf.length)
    if got.length = 0 then (if f.fails then none else some (f, buf, true))
    else some ({ f with bytes := f.bytes.drop (env.chunk - buf.length) }, buf ++ got, false)
  else some (f, buf, eof)

/-- How the turn of a record ends: the loop goes on, a stop is requested, or the record is not decoded. -/
inductive RecordTurn where
  | next | stopped | bad | overflow

/-- The end of a turn of `import_packed_direct`, with the record in canonical form. -/
def importRecord (st : ImportState) (record : List Byte) : ImportState × RecordTurn :=
  let added := if st.tier.active then importTierAddRaw tier env st record else (st, 0)
  if added.2 < 0 then (added.1, .stopped)
  else if added.2 > 0 then (added.1, .next)
  else
    match packetCodecDecode P record with
    | .overflow => (added.1, .overflow)
    | .error => (added.1, .bad)
    | .ok (packet, _) =>
      let inserted := importInsertListed tier env added.1 packet
      (inserted.1, if inserted.2 = false then .stopped else .next)

/-- The loop of `import_packed_direct`: `buf` holds the bytes read and not used yet. `error` is a loop
that is cut short. -/
def importPackedDirect : Nat → ByteStream → List Byte → Bool → ImportState → Outcome ImportEnd
  | 0, _, _, _, _ => .error
  | fuel + 1, f, buf, eof, st =>
    match importRefill env f buf eof with
    | none => .ok ⟨st, -1, false⟩
    | some (f, buf, eof) =>
      if buf.length = 0 then .ok ⟨st, 0, false⟩
      else
        match packetCodecCanonicalize P buf possibilityMinCandidatsUnknown with
        | .overflow => .overflow
        | .error => .ok ⟨st, -1, false⟩
        | .ok (r, left, _) =>
          -- A record that is not complete can only be seen at the end of the file.
          if r = 0 then (if eof then .ok ⟨st, -1, false⟩ else importPackedDirect fuel f buf eof st)
          else
            let recorded := importRecord tier env st (left.take r)
            match recorded.2 with
            | .overflow => .overflow
            | .bad => .ok ⟨recorded.1, -1, false⟩
            | .stopped => .ok ⟨recorded.1, 0, true⟩
            | .next => importPackedDirect fuel f (left.drop r) eof recorded.1

/-- What `import` makes of a packet it has read: a flag that is not 1 is none, `alloc` is counted again
and the score is unknown. -/
def importedPacket (p : Packet P) : Packet P :=
  { p with
    checked := if p.checked ≠ 1 then 0 else p.checked
    alloc := UInt16.ofNat (placedCount p.grid)
    minCandidats := possibilityMinCandidatsUnknown }

/-- The turn of a packet in `import`; `false` when a stop is requested. -/
def importPacket (st : ImportState) (p : Packet P) : ImportState × Bool :=
  let added := if st.tier.active then importTierAdd tier env st p else (st, 0)
  if added.2 < 0 then (added.1, false)
  else if added.2 = 0 then importInsertListed tier env added.1 p
  else (added.1, true)

/-- The loop of `import` over packets read one by one. -/
def importListed (layout : RawLayout P) (format : BackupFormat) : Nat → ByteStream → ImportState → Outcome ImportEnd
  | 0, _, _ => .error
  | fuel + 1, f, st =>
    match stockFileReadPacket layout format f with
    | .overflow => .overflow
    | .error => .ok ⟨st, -1, false⟩
    | .ok none => .ok ⟨st, 0, false⟩
    | .ok (some (packet, f)) =>
      let imported := importPacket tier env st (importedPacket packet)
      if imported.2 = false then .ok ⟨imported.1, 1, true⟩
      else importListed layout format fuel f imported.1

/-- The last blocks of an import; `false` when it is aborted. -/
def importLast (e : ImportEnd) : ImportState × Bool :=
  let unchecked := if e.aborted then (e.state, false) else importTierFlush tier env e.state false
  if unchecked.2 = false then unchecked else importTierFlush tier env unchecked.1 true

/-- The end of an import, and its return value. -/
def importEnd (e : ImportEnd) : ImportResult Store :=
  let last := importLast tier env e
  ⟨last.1.store, if last.2 = false then -1 else 0, e.readStatus⟩

/-- `import` without a server to send to. -/
def importFile (layout : RawLayout P) (file : BackupFile) (s : Store) : Outcome (ImportResult Store) :=
  match file.opened P with
  | none => .ok ⟨s, -1, 0⟩
  | some (f, format, _) =>
    let st : ImportState := ⟨s, importTierBegin env, 0, 0, 0⟩
    let read :=
      if format = .packed ∧ st.tier.active = true ∧ env.readBuffer = true then
        importPackedDirect tier env (2 * f.bytes.length + 2) f [] false st
      else importListed tier env layout format (f.bytes.length + 1) f st
    match read with
    | .overflow => .overflow
    | .error => .error
    | .ok e => .ok (importEnd tier env e)

/-- The lists and the tier emptied, the disk as it is. -/
def Store.cleared (s : Store) : Store := { s with lists := fun _ => [], tier := fun _ => .init }

/-- `restore`: the file is opened once to look at its header, and once more to be imported. -/
def restore (layout : RawLayout P) (control again : BackupFile) (s : Store) : Outcome (ImportResult Store) :=
  match control.opened P with
  | none => .ok ⟨s, -1, 0⟩
  | some _ => importFile tier env layout again s.cleared

end Import

/-! ## Importing analysed packets -/

section Analysed

variable {P : Puzzle}

/-- `add_possibility_analysed` with `thread < 0`; `file` is the first one that could be locked. -/
def addPossibilityAnalysed (analysed : List (List (AnalysedElement P))) (p : Packet P) (file : Option Nat) :
    List (List (AnalysedElement P)) :=
  match file with
  | none => analysed
  | some file => analysed.modify (file % analysed.length) (· ++ [⟨p, false, 0, 0⟩])

/-- What `import_analysed` makes of a packet it has read. -/
def importedAnalysedPacket (p : Packet P) : Packet P :=
  { p with
    alloc := UInt16.ofNat (placedCount p.grid)
    minCandidats := possibilityMinCandidatsUnknown }

/-- The loop of `import_analysed`; `files` says what the locks of each insertion are. -/
def importAnalysedLoop (layout : RawLayout P) (format : BackupFormat) (files : Nat → Option Nat) :
    Nat → ByteStream → List (List (AnalysedElement P)) → Nat → Outcome (ImportResult (List (List (AnalysedElement P))))
  | 0, _, _, _ => .error
  | fuel + 1, f, analysed, n =>
    match stockFileReadPacket layout format f with
    | .overflow => .overflow
    | .error => .ok ⟨analysed, 0, -1⟩
    | .ok none => .ok ⟨analysed, 0, 0⟩
    | .ok (some (packet, f)) =>
      importAnalysedLoop layout format files fuel f
        (addPossibilityAnalysed analysed (importedAnalysedPacket packet) (files n)) (n + 1)

/-- `import_analysed`. -/
def importAnalysed (layout : RawLayout P) (files : Nat → Option Nat) (file : BackupFile)
    (analysed : List (List (AnalysedElement P))) : Outcome (ImportResult (List (List (AnalysedElement P)))) :=
  match file.opened P with
  | none => .ok ⟨analysed, -1, 0⟩
  | some (f, format, _) => importAnalysedLoop layout format files (f.bytes.length + 1) f analysed 0

/-- `restore_analysed`. -/
def restoreAnalysed (layout : RawLayout P) (files : Nat → Option Nat) (control again : BackupFile)
    (analysed : List (List (AnalysedElement P))) : Outcome (ImportResult (List (List (AnalysedElement P)))) :=
  match control.opened P with
  | none => .ok ⟨analysed, -1, 0⟩
  | some _ => importAnalysed layout files again (analysed.map fun _ => [])

end Analysed

/-! ## What is held -/

/-- A stop is requested before the packet is stored. -/
def Stopped (rounds : List AddRound) : Prop := ∀ file, AddRound.stored file ∉ rounds

/-- No call stores its packet at the last attempt to lock a file. -/
def Prompt (rounds : List AddRound) : Prop := ∀ file, AddRound.late file ∉ rounds

section Held

variable {P : Puzzle} {tier : TierCodec} {env : ImportEnv P} {s s' : Store} {p q : Packet P}

/-- The records of some packets in the pools they are routed to. -/
def poolRecords (packets : List (Packet P)) (c : Bool) : Multiset (List Byte) :=
  ((routed packets c).filterMap recordOf : List (List Byte))

theorem poolRecords_nil (c : Bool) : poolRecords ([] : List (Packet P)) c = 0 := rfl

theorem poolRecords_singleton (c : Bool) :
    poolRecords [p] c = if decide (p.checked = 1) = c then ((recordOf p).toList : Multiset (List Byte)) else 0 := by
  unfold poolRecords routed
  by_cases h : decide (p.checked = 1) = c
  · have hroute : (decide (p.checked = 1) == c) = true := beq_iff_eq.mpr h
    rw [if_pos h, List.filter_cons, if_pos hroute, List.filter_nil]
    cases hrecord : recordOf p with
    | none => simp [hrecord]
    | some record => simp [hrecord]
  · have hroute : ¬ (decide (p.checked = 1) == c) = true := mt beq_iff_eq.mp h
    rw [if_neg h, List.filter_cons, if_neg hroute]
    rfl

theorem poolRecords_cons (packets : List (Packet P)) (c : Bool) :
    poolRecords (p :: packets) c = poolRecords [p] c + poolRecords packets c := by
  unfold poolRecords routed
  rw [List.filter_cons, List.filter_cons, Multiset.coe_add, ← List.filterMap_append]
  split <;> rfl

/-- The stock is sound and has more records. -/
structure Store.Gains (P : Puzzle) (tier : TierCodec) (s s' : Store) (m : Bool → Multiset (List Byte)) : Prop where
  sound : s'.Sound P
  nbFiles : s'.spill.nbFiles = s.spill.nbFiles
  records : ∀ c, s'.records P tier c = s.records P tier c + m c

theorem Store.Gains.trans {s'' : Store} {m m' m'' : Bool → Multiset (List Byte)} (h : Store.Gains P tier s s' m)
    (h' : Store.Gains P tier s' s'' m') (hm : ∀ c, m'' c = m c + m' c) : Store.Gains P tier s s'' m'' := by
  refine ⟨h'.sound, h'.nbFiles.trans h.nbFiles, fun c => ?_⟩
  rw [h'.records, h.records, hm, add_assoc]

/-- Moves change no pool. -/
theorem Store.Gains.of_moves (hlaw : ∀ zstd, tier.zstd = some zstd → zstd.Lawful) (hs : s.Sound P)
    (moves : List Store.Move) : Store.Gains P tier s (moves.foldl (Store.move P tier) s) fun _ => 0 := by
  obtain ⟨hsound, hsame⟩ := Store.moves_spec hlaw hs moves
  refine ⟨hsound, hsame.nbFiles, fun c => ?_⟩
  rw [hsame.records, add_zero]

/-- A packet goes to the pool of its flag. -/
theorem Store.Gains.of_add (hs : s.Sound P) (hpos : 0 < s.spill.nbFiles) (p : Packet P) (file : Nat) :
    Store.Gains P tier s (s.addPossibility p file) (poolRecords [p]) := by
  refine ⟨hs.insert _ _ _, rfl, fun c => ?_⟩
  rw [poolRecords_singleton]
  exact Store.insert_records (Nat.mod_lt _ hpos) c

/-- An insertion that waits stores its packet, or a stop is requested. -/
theorem addPossibilityWaitingForRoom_spec (hlaw : ∀ zstd, tier.zstd = some zstd → zstd.Lawful) (hs : s.Sound P)
    (hpos : 0 < s.spill.nbFiles) (p : Packet P) {rounds : List AddRound} (hprompt : Prompt rounds) :
    ((addPossibilityWaitingForRoom tier s p rounds).2 = true →
        Store.Gains P tier s (addPossibilityWaitingForRoom tier s p rounds).1 (poolRecords [p])) ∧
      ((addPossibilityWaitingForRoom tier s p rounds).2 = false → Stopped rounds) := by
  induction rounds generalizing s with
  | nil =>
    refine ⟨fun h => ?_, fun _ file => List.not_mem_nil⟩
    rw [addPossibilityWaitingForRoom] at h
    cases h
  | cons round rounds ih =>
    have hrest : Prompt rounds := fun file hmem => hprompt file (List.mem_cons_of_mem _ hmem)
    cases round with
    | refused moves =>
      have hmoved := Store.Gains.of_moves hlaw hs moves
      have hpos' : 0 < (moves.foldl (Store.move P tier) s).spill.nbFiles := by rwa [hmoved.nbFiles]
      obtain ⟨hstored, hstop⟩ := ih hmoved.sound hpos' hrest
      rw [addPossibilityWaitingForRoom]
      refine ⟨fun h => hmoved.trans (hstored h) fun c => (zero_add _).symm, fun h file hmem => ?_⟩
      cases hmem with
      | tail _ hmem => exact hstop h file hmem
    | late file => exact absurd List.mem_cons_self (hprompt file)
    | stored file =>
      rw [addPossibilityWaitingForRoom]
      refine ⟨fun _ => Store.Gains.of_add hs hpos p file, fun h => ?_⟩
      cases h

/-- The stock is sound, and the buffers hold records of their pools, not too many for a block. -/
structure ImportState.Sound (P : Puzzle) (st : ImportState) (buffered : Bool → List (List Byte)) : Prop where
  store : st.store.Sound P
  nbFiles_pos : 0 < st.store.spill.nbFiles
  nextFile : ∀ c, st.tier.nextFile c < st.store.spill.nbFiles
  target : st.tier.target ≤ stockTierBlockBytes
  buf : ∀ c, st.tier.buf c = (buffered c).flatten
  isRecord : ∀ c, ∀ record ∈ buffered c, IsRecord P record
  flag : ∀ c, ∀ record ∈ buffered c, decide (record.getD 2 0 = 1#8) = c
  size : ∀ c, (st.tier.buf c).length ≤ stockTierBlockBytes

/-- What the stock and the buffers hold together, when so many packets have come. -/
def ImportState.Holds (P : Puzzle) (tier : TierCodec) (st : ImportState) (total : Bool → Multiset (List Byte)) (n : Nat) :
    Prop :=
  ∃ buffered, st.Sound P buffered ∧ (∀ c, st.store.records P tier c + (buffered c : Multiset (List Byte)) = total c) ∧
    st.imported + ((buffered false).length + (buffered true).length) = n

/-- A change of the stock alone. -/
theorem ImportState.Sound.of_store {st st' : ImportState} {buffered : Bool → List (List Byte)} {m : Bool → Multiset (List Byte)}
    (h : st.Sound P buffered) (hgains : Store.Gains P tier st.store st'.store m) (htier : st'.tier = st.tier) :
    st'.Sound P buffered := by
  refine ⟨hgains.sound, ?_, fun c => ?_, ?_, fun c => ?_, h.isRecord, h.flag, fun c => ?_⟩
  · rw [hgains.nbFiles]
    exact h.nbFiles_pos
  · rw [hgains.nbFiles, htier]
    exact h.nextFile c
  · rw [htier]
    exact h.target
  · rw [htier]
    exact h.buf c
  · rw [htier]
    exact h.size c

end Held

/-! ## What each step of an import does -/

section Steps

variable {P : Puzzle} {tier : TierCodec} {env : ImportEnv P} {st : ImportState} {total : Bool → Multiset (List Byte)} {n : Nat}
variable (hlaw : ∀ zstd, tier.zstd = some zstd → zstd.Lawful) (hprompt : ∀ n, Prompt (env.rounds n))

include hlaw hprompt

theorem importInsertListed_spec (hs : st.store.Sound P) (hpos : 0 < st.store.spill.nbFiles) (p : Packet P) :
    (importInsertListed tier env st p).1.tier = st.tier ∧
      ((importInsertListed tier env st p).2 = true →
        Store.Gains P tier st.store (importInsertListed tier env st p).1.store (poolRecords [p]) ∧
          (importInsertListed tier env st p).1.imported = st.imported + 1) ∧
      ((importInsertListed tier env st p).2 = false → ∃ n, Stopped (env.rounds n)) := by
  obtain ⟨hstored, hstop⟩ := addPossibilityWaitingForRoom_spec hlaw hs hpos p (hprompt st.inserts)
  exact ⟨rfl, fun hok => ⟨hstored hok, if_pos hok⟩, fun h => ⟨st.inserts, hstop h⟩⟩

/-- A packet that goes through the lists is held too. -/
theorem importInsertListed_holds (h : st.Holds P tier total n) (p : Packet P) :
    ((importInsertListed tier env st p).2 = true →
        (importInsertListed tier env st p).1.Holds P tier (fun c => total c + poolRecords [p] c) (n + 1)) ∧
      ((importInsertListed tier env st p).2 = false → ∃ n, Stopped (env.rounds n)) := by
  obtain ⟨buffered, hsound, hheld, hcount⟩ := h
  obtain ⟨htier, hstored, hstop⟩ := importInsertListed_spec hlaw hprompt hsound.store hsound.nbFiles_pos p
  refine ⟨fun hok => ?_, hstop⟩
  obtain ⟨hgains, himported⟩ := hstored hok
  refine ⟨buffered, hsound.of_store hgains htier, fun c => ?_, ?_⟩
  · dsimp only
    rw [hgains.records, ← hheld c, add_right_comm]
  · rw [himported, ← hcount, Nat.add_right_comm]

/-- The records of a buffer go through the lists to their pool. -/
theorem importTierFlushListed_spec {records : List (List Byte)} {c : Bool} (hrecords : ∀ r ∈ records, IsRecord P r)
    (hflag : ∀ r ∈ records, decide (r.getD 2 0 = 1#8) = c) (hs : st.store.Sound P) (hpos : 0 < st.store.spill.nbFiles)
    {fuel : Nat} (hfuel : records.length ≤ fuel) :
    (importTierFlushListed tier env fuel records.flatten st).1.tier = st.tier ∧
      ((importTierFlushListed tier env fuel records.flatten st).2 = true →
        Store.Gains P tier st.store (importTierFlushListed tier env fuel records.flatten st).1.store (fun c' =>
            if c = c' then (records : Multiset (List Byte)) else 0) ∧
          (importTierFlushListed tier env fuel records.flatten st).1.imported = st.imported + records.length) ∧
      ((importTierFlushListed tier env fuel records.flatten st).2 = false → ∃ n, Stopped (env.rounds n)) := by
  induction records generalizing st fuel with
  | nil =>
    have hend : importTierFlushListed tier env fuel ([] : List (List Byte)).flatten st = (st, true) := by
      cases fuel <;> rfl
    rw [hend]
    refine ⟨rfl, fun _ => ⟨⟨hs, rfl, fun c' => ?_⟩, rfl⟩, fun h => ?_⟩
    · rw [Multiset.coe_nil, ite_self, add_zero]
    · cases h
  | cons record records ih =>
    obtain ⟨fuel, rfl⟩ := Nat.exists_eq_add_of_le' (Nat.lt_of_lt_of_le (Nat.succ_pos records.length) hfuel)
    have hrecord := hrecords record List.mem_cons_self
    obtain ⟨q, hdecode, hq⟩ := hrecord.decode records.flatten
    have hlong : 2 < record.length := by
      rw [← (hrecord.clean []).2]
      unfold packetCodecSizeFor packetCodecHeaderBytes
      omega
    have hroute : decide (q.checked = 1) = c := by
      rw [packetCodecDecode_checked hdecode, List.getD_append _ _ _ _ hlong, ← hflag record List.mem_cons_self]
      split <;> simp_all
    obtain ⟨htier, hstored, hstop⟩ := importInsertListed_spec hlaw hprompt hs hpos q
    have hne : ¬ (record ++ records.flatten).length = 0 := by
      rw [List.length_append]
      omega
    rw [List.flatten_cons, importTierFlushListed, if_neg hne, hdecode]
    dsimp only
    rw [List.drop_left]
    by_cases hok : (importInsertListed tier env st q).2 = false
    · rw [if_pos hok]
      refine ⟨htier, fun h => ?_, fun _ => hstop hok⟩
      cases h
    · have hok : (importInsertListed tier env st q).2 = true := Bool.eq_true_of_not_eq_false hok
      obtain ⟨hgains, himported⟩ := hstored hok
      have hpos' : 0 < (importInsertListed tier env st q).1.store.spill.nbFiles := by rwa [hgains.nbFiles]
      rw [if_neg (Bool.not_eq_false _ ▸ hok)]
      obtain ⟨htier', hstored', hstop'⟩ := ih (fun r hr => hrecords r (List.mem_cons_of_mem _ hr))
        (fun r hr => hflag r (List.mem_cons_of_mem _ hr)) hgains.sound hpos' (Nat.le_of_succ_le_succ hfuel)
      refine ⟨htier'.trans htier, fun h => ?_, hstop'⟩
      obtain ⟨hgains', himported'⟩ := hstored' h
      refine ⟨hgains.trans hgains' fun c' => ?_, ?_⟩
      · rw [poolRecords_singleton, hroute, hq]
        split
        · rw [Multiset.coe_add]
          rfl
        · rw [add_zero]
      · rw [himported', himported, List.length_cons, Nat.add_assoc, Nat.add_comm 1]

omit hprompt in
/-- A block that is taken is linked; one that is not leaves the stock as it is. -/
theorem tierHookImportPush_spec {s : Store} {records : List (List Byte)} (c : Bool) (file : Nat)
    (hrecords : ∀ r ∈ records, IsRecord P r) (hne : records ≠ []) (hsize : records.flatten.length ≤ stockTierBlockBytes)
    (hs : s.Sound P) (turn : PushTurn) :
    ((tierHookImportPush P tier s c file records.flatten turn).2 > 0 →
        Store.Gains P tier s (tierHookImportPush P tier s c file records.flatten turn).1 (fun c' =>
            if c = c' then (records : Multiset (List Byte)) else 0) ∧
          (tierHookImportPush P tier s c file records.flatten turn).2 = records.length) ∧
      (¬ (tierHookImportPush P tier s c file records.flatten turn).2 > 0 →
        Store.Gains P tier s (tierHookImportPush P tier s c file records.flatten turn).1 fun _ => 0) := by
  have hsame : Store.Gains P tier s s fun _ => 0 := ⟨hs, rfl, fun c => (add_zero _).symm⟩
  have hfailed : ¬ (-1 : Int) > 0 := by decide
  have hfull : ¬ (0 : Int) > 0 := by decide
  unfold tierHookImportPush
  split
  · exact ⟨fun h => absurd h hfailed, fun _ => hsame⟩
  · rename_i hfile
    split
    · exact ⟨fun h => absurd h hfailed, fun _ => hsame⟩
    · rename_i n hcount
      obtain ⟨fr, hbuild⟩ := stockTierBlockBuild_flatten hrecords hne hsize
      obtain ⟨-, records', hrecords', hrecs, -⟩ := stockTierBlockBuild_spec hlaw hbuild
      obtain rfl : records = records' := Option.some.inj ((tierRecords_flatten hrecords).symm.trans hrecords')
      have hn : n = records.length := by
        unfold stockTierCountRecords at hcount
        rw [tierRecords_flatten hrecords] at hcount
        split at hcount
        · exact absurd hcount (by simp)
        · exact (Option.some.inj hcount).symm
      have hpos : (n : Int) > 0 := by
        have := List.length_pos_iff.mpr hne
        omega
      cases turn with
      | failed moves => exact ⟨fun h => absurd h hfailed, fun _ => .of_moves hlaw hs moves⟩
      | full moves => exact ⟨fun h => absurd h hfull, fun _ => .of_moves hlaw hs moves⟩
      | pushed moves =>
        refine ⟨fun _ => ?_, fun h => absurd hpos h⟩
        have hmoved := Store.Gains.of_moves hlaw hs moves
        have hlink : importBuildAndLink P tier (moves.foldl (Store.move P tier) s) (c, file) records.flatten =
            (moves.foldl (Store.move P tier) s).link (c, file) fr := by
          unfold importBuildAndLink
          rw [hbuild]
        dsimp only
        rw [hlink]
        refine ⟨hmoved.trans ⟨hmoved.sound.link (c, file) fr, rfl, fun c' => ?_⟩ fun c' => (zero_add _).symm, ?_⟩
        · rw [Store.link_records, hrecs]
          rw [hmoved.nbFiles]
          exact Nat.not_le.mp hfile
        · rw [hn]

omit hlaw hprompt in
/-- An emptied buffer has no records. -/
theorem ImportState.Sound.emptied {st' : ImportState} {buffered : Bool → List (List Byte)} {c : Bool}
    (hsound : st.Sound P buffered) (hstore : st'.store.Sound P)
    (hnbFiles : st'.store.spill.nbFiles = st.store.spill.nbFiles) (hbuf : st'.tier.buf = st.tier.buf)
    (htarget : st'.tier.target = st.tier.target) (hnext : ∀ c', st'.tier.nextFile c' < st'.store.spill.nbFiles) :
    (st'.emptied c).Sound P (Function.update buffered c []) := by
  refine ⟨hstore, ?_, hnext, ?_, fun c' => ?_, fun c' => ?_, fun c' => ?_, fun c' => ?_⟩
  · exact hnbFiles ▸ hsound.nbFiles_pos
  · exact htarget ▸ hsound.target
  all_goals by_cases hc : c' = c
  · rw [ImportState.emptied_buf, hc, Function.update_self, Function.update_self]
    rfl
  · rw [ImportState.emptied_buf, Function.update_of_ne hc, Function.update_of_ne hc, hbuf]
    exact hsound.buf c'
  · rw [hc, Function.update_self]
    exact fun _ h => absurd h List.not_mem_nil
  · rw [Function.update_of_ne hc]
    exact hsound.isRecord c'
  · rw [hc, Function.update_self]
    exact fun _ h => absurd h List.not_mem_nil
  · rw [Function.update_of_ne hc]
    exact hsound.flag c'
  · rw [ImportState.emptied_buf, hc, Function.update_self]
    exact Nat.zero_le _
  · rw [ImportState.emptied_buf, Function.update_of_ne hc, hbuf]
    exact hsound.size c'

omit hlaw hprompt in
/-- A buffer whose records have gone to the stock. -/
theorem ImportState.Holds.emptied {st' : ImportState} {buffered : Bool → List (List Byte)} {c : Bool}
    (hsound : st.Sound P buffered) (hheld : ∀ c', st.store.records P tier c' + (buffered c' : Multiset (List Byte)) = total c')
    (hcount : st.imported + ((buffered false).length + (buffered true).length) = n)
    (hgains : Store.Gains P tier st.store st'.store fun c' => if c = c' then (buffered c : Multiset (List Byte)) else 0)
    (himported : st'.imported = st.imported + (buffered c).length)
    (hbuf : st'.tier.buf = st.tier.buf) (htarget : st'.tier.target = st.tier.target)
    (hnext : ∀ c', st'.tier.nextFile c' < st'.store.spill.nbFiles) : (st'.emptied c).Holds P tier total n := by
  refine ⟨Function.update buffered c [],
    hsound.emptied hgains.sound hgains.nbFiles hbuf htarget hnext, fun c' => ?_, ?_⟩
  · by_cases hc : c' = c
    · rw [ImportState.emptied_store, hc, Function.update_self, hgains.records, if_pos rfl, Multiset.coe_nil, add_zero]
      exact hheld c
    · rw [ImportState.emptied_store, Function.update_of_ne hc, hgains.records, if_neg (Ne.symm hc), add_zero]
      exact hheld c'
  · show st'.imported + ((Function.update buffered c [] false).length + (Function.update buffered c [] true).length) = n
    rw [himported, ← hcount]
    cases c <;> simp <;> omega

/-- A flush takes a buffer to the stock, or a stop is requested. -/
theorem importTierFlush_holds (h : st.Holds P tier total n) (c : Bool) :
    ((importTierFlush tier env st c).2 = true →
        (importTierFlush tier env st c).1.Holds P tier total n ∧ (importTierFlush tier env st c).1.tier.buf c = [] ∧
          ∀ c', c' ≠ c → (importTierFlush tier env st c).1.tier.buf c' = st.tier.buf c') ∧
      ((importTierFlush tier env st c).2 = false → ∃ n, Stopped (env.rounds n)) := by
  obtain ⟨buffered, hsound, hheld, hcount⟩ := h
  have hbuf := hsound.buf c
  have hrecords := hsound.isRecord c
  have hfuel : (buffered c).length ≤ (st.tier.buf c).length := by
    rw [hbuf]
    exact length_le_flatten hrecords
  have hlisted : ∀ st' : ImportState, Store.Gains P tier st.store st'.store (fun _ => 0) → st'.imported = st.imported →
      st'.tier.buf = st.tier.buf → st'.tier.target = st.tier.target → st'.tier.nextFile = st.tier.nextFile →
      ((importTierFlushListed tier env (st.tier.buf c).length (st.tier.buf c) st').2 = true →
        ((importTierFlushListed tier env (st.tier.buf c).length (st.tier.buf c) st').1.emptied c).Holds P tier total n ∧
          ((importTierFlushListed tier env (st.tier.buf c).length (st.tier.buf c) st').1.emptied c).tier.buf c = [] ∧
          ∀ c', c' ≠ c → ((importTierFlushListed tier env (st.tier.buf c).length (st.tier.buf c) st').1.emptied
            c).tier.buf c' = st.tier.buf c') ∧
      ((importTierFlushListed tier env (st.tier.buf c).length (st.tier.buf c) st').2 = false →
        ∃ n, Stopped (env.rounds n)) := by
    intro st' hgains hsame hsamebuf htarget hnext
    have hpos : 0 < st'.store.spill.nbFiles := hgains.nbFiles ▸ hsound.nbFiles_pos
    obtain ⟨htier, hstored, hstop⟩ := importTierFlushListed_spec hlaw hprompt hrecords (hsound.flag c) hgains.sound hpos
      hfuel
    rw [← hbuf] at htier hstored hstop
    refine ⟨fun hok => ⟨?_, ?_, fun c' hc => ?_⟩, hstop⟩
    · obtain ⟨hstored, himported⟩ := hstored hok
      have hall := hgains.trans hstored fun c' => (zero_add _).symm
      apply ImportState.Holds.emptied hsound hheld hcount hall
      · rw [himported, hsame]
      · rw [htier, hsamebuf]
      · rw [htier, htarget]
      · intro c'
        rw [htier, hnext, hall.nbFiles]
        exact hsound.nextFile c'
    · exact Function.update_self ..
    · refine (Function.update_of_ne hc ..).trans ?_
      rw [htier, hsamebuf]
  have hsame : Store.Gains P tier st.store st.store fun _ => 0 := ⟨hsound.store, rfl, fun c => (add_zero _).symm⟩
  unfold importTierFlush
  dsimp only
  split
  · rename_i hempty
    refine ⟨fun _ => ⟨⟨buffered, hsound, hheld, hcount⟩, List.length_eq_zero_iff.mp hempty, fun _ _ => rfl⟩, fun h => ?_⟩
    cases h
  · rename_i hfull
    have hne : buffered c ≠ [] := by
      intro hnil
      rw [hbuf, hnil] at hfull
      exact hfull rfl
    split
    · obtain ⟨htaken, hleft⟩ := tierHookImportPush_spec hlaw c (st.tier.nextFile c) hrecords hne
        (hbuf ▸ hsound.size c) hsound.store (env.turn st.pushes)
      rw [← hbuf] at htaken hleft
      split
      · rename_i hpushed
        obtain ⟨hgains, hpushed⟩ := htaken hpushed
        refine ⟨fun _ => ⟨?_, Function.update_self .., fun c' hc => Function.update_of_ne hc ..⟩, fun h => ?_⟩
        · refine ImportState.Holds.emptied hsound hheld hcount hgains ?_ rfl rfl fun c' => ?_
          · dsimp only
            rw [hpushed, Int.toNat_natCast]
          dsimp only
          by_cases hc : c' = c
          · rw [hc, Function.update_self]
            exact Nat.mod_lt _ (hgains.nbFiles ▸ hsound.nbFiles_pos)
          · rw [Function.update_of_ne hc, hgains.nbFiles]
            exact hsound.nextFile c'
        · cases h
      · rename_i hrefused
        exact hlisted _ (hleft hrefused) rfl rfl rfl rfl
    · exact hlisted st hsame rfl rfl rfl rfl

omit hlaw hprompt in
/-- A record that fits goes behind those of its buffer. -/
theorem ImportState.Sound.buffer {buffered : Bool → List (List Byte)} {record : List Byte} {c : Bool}
    (hsound : st.Sound P buffered) (hrecord : IsRecord P record) (hc : decide (record.getD 2 0 = 1#8) = c)
    (hsize : (st.tier.buf c).length + record.length ≤ stockTierBlockBytes) :
    (st.buffer c record).Sound P (Function.update buffered c (buffered c ++ [record])) := by
  have hbuf : (st.buffer c record).tier.buf = Function.update st.tier.buf c (st.tier.buf c ++ record) := rfl
  refine ⟨hsound.store, hsound.nbFiles_pos, hsound.nextFile, hsound.target, fun c' => ?_, fun c' => ?_, fun c' => ?_,
    fun c' => ?_⟩
  all_goals by_cases heq : c' = c
  · rw [hbuf, heq, Function.update_self, Function.update_self, hsound.buf, List.flatten_append, List.flatten_singleton]
  · rw [hbuf, Function.update_of_ne heq, Function.update_of_ne heq]
    exact hsound.buf c'
  · rw [heq, Function.update_self]
    intro r hr
    rcases List.mem_append.mp hr with hr | hr
    · exact hsound.isRecord c r hr
    · rw [List.mem_singleton.mp hr]
      exact hrecord
  · rw [Function.update_of_ne heq]
    exact hsound.isRecord c'
  · rw [heq, Function.update_self]
    intro r hr
    rcases List.mem_append.mp hr with hr | hr
    · exact hsound.flag c r hr
    · rw [List.mem_singleton.mp hr]
      exact hc
  · rw [Function.update_of_ne heq]
    exact hsound.flag c'
  · rw [hbuf, heq, Function.update_self, List.length_append]
    exact hsize
  · rw [hbuf, Function.update_of_ne heq]
    exact hsound.size c'

omit hlaw hprompt in
theorem ImportState.Holds.buffer {p : Packet P} {record : List Byte} {c : Bool} (h : st.Holds P tier total n)
    (hp : recordOf p = some record) (hflag : decide (record.getD 2 0 = 1#8) = decide (p.checked = 1))
    (hc : decide (record.getD 2 0 = 1#8) = c) (hsize : (st.tier.buf c).length + record.length ≤ stockTierBlockBytes) :
    (st.buffer c record).Holds P tier (fun c => total c + poolRecords [p] c) (n + 1) := by
  obtain ⟨buffered, hsound, hheld, hcount⟩ := h
  have hstore : (st.buffer c record).store = st.store := rfl
  refine ⟨Function.update buffered c (buffered c ++ [record]), hsound.buffer ⟨p, hp⟩ hc hsize, fun c' => ?_, ?_⟩
  · dsimp only
    by_cases heq : c' = c
    · rw [hstore, heq, Function.update_self, poolRecords_singleton, if_pos (hflag.symm.trans hc), hp, Option.toList_some,
        ← Multiset.coe_add, ← hheld c, add_assoc]
    · rw [hstore, Function.update_of_ne heq, poolRecords_singleton,
        if_neg fun h => heq (h.symm.trans (hflag.symm.trans hc)), add_zero]
      exact hheld c'
  · show st.imported + _ = n + 1
    rw [← hcount]
    cases c <;> simp <;> omega

/-- There is room for a record, or a stop is requested. -/
theorem importTierMakeRoom_holds {record : List Byte} (h : st.Holds P tier total n) (hrecord : IsRecord P record) (c : Bool) :
    ((importTierMakeRoom tier env st c record.length).2 = true →
        (importTierMakeRoom tier env st c record.length).1.Holds P tier total n ∧
          ((importTierMakeRoom tier env st c record.length).1.tier.buf c).length + record.length ≤ stockTierBlockBytes) ∧
      ((importTierMakeRoom tier env st c record.length).2 = false → ∃ n, Stopped (env.rounds n)) := by
  have hmax : packetCodecMaxBytes P ≤ stockTierBlockBytes := by cases P <;> decide
  have hlen : record.length ≤ stockTierBlockBytes := Nat.le_trans hrecord.length_le hmax
  unfold importTierMakeRoom
  split
  · obtain ⟨hholds, hstop⟩ := importTierFlush_holds hlaw hprompt h c
    refine ⟨fun hok => ?_, hstop⟩
    obtain ⟨hheld, hnil, -⟩ := hholds hok
    refine ⟨hheld, ?_⟩
    rw [hnil, List.length_nil, Nat.zero_add]
    exact hlen
  · rename_i hroom
    refine ⟨fun _ => ⟨h, ?_⟩, fun hfalse => ?_⟩
    · obtain ⟨buffered, hsound, -⟩ := h
      have htarget := hsound.target
      dsimp only
      omega
    · cases hfalse

/-- A record is taken into a buffer, or is left to the lists, or a stop is requested. -/
theorem importTierAddRaw_holds {p : Packet P} {record : List Byte} (h : st.Holds P tier total n)
    (hp : recordOf p = some record) (hflag : decide (record.getD 2 0 = 1#8) = decide (p.checked = 1)) :
    ((importTierAddRaw tier env st record).2 = 1 ∧
        (importTierAddRaw tier env st record).1.Holds P tier (fun c => total c + poolRecords [p] c) (n + 1)) ∨
      ((importTierAddRaw tier env st record).2 = 0 ∧ (importTierAddRaw tier env st record).1.Holds P tier total n) ∨
      ((importTierAddRaw tier env st record).2 = -1 ∧ ∃ n, Stopped (env.rounds n)) := by
  obtain ⟨hroom, hstop⟩ := importTierMakeRoom_holds hlaw hprompt h ⟨p, hp⟩ (decide (record.getD 2 0 = 1#8))
  unfold importTierAddRaw
  dsimp only
  split
  · rename_i hstopped
    exact .inr (.inr ⟨rfl, hstop hstopped⟩)
  · rename_i hok
    obtain ⟨hheld, hsize⟩ := hroom (Bool.eq_true_of_not_eq_false hok)
    split
    · exact .inr (.inl ⟨rfl, hheld⟩)
    · exact .inl ⟨rfl, hheld.buffer hp hflag rfl hsize⟩

end Steps

/-! ## The loops -/

section Loops

variable {P : Puzzle} {tier : TierCodec} {env : ImportEnv P} {p : Packet P}

/-- The turns of the chunked loop that use no byte: one reads the rest of the file, one its end, and one
ends the loop. -/
def directTurns (f : ByteStream) (eof : Bool) : Nat := if eof then 1 else if f.bytes = [] then 2 else 3

/-- The turns that a whole body takes. -/
theorem directTurns_start (f : ByteStream) :
    ([] : List Byte).length + f.bytes.length + directTurns f false ≤ 2 * f.bytes.length + 2 := by
  unfold directTurns
  rw [if_neg Bool.false_ne_true, List.length_nil, Nat.zero_add]
  split
  · omega
  · rename_i hne
    have := List.length_pos_iff.mpr hne
    omega

variable (P) in
/-- How many of the bytes from a place on are in the buffer behind a refill, of the `held` ones before. -/
def refilled (chunk : Nat) (rest : List Byte) (held : Nat) : Nat :=
  if held < packetCodecMaxBytes P then min chunk rest.length else held

variable (P) in
/-- What the chunked loop finds from a place on, and `read_status`. A read that fails ends it with what
is in the buffer then. -/
def directRead (chunk : Nat) (fails : Bool) : Nat → List Byte → Nat → List (Packet P) × Int
  | 0, _, _ => ([], -1)
  | fuel + 1, rest, held =>
    if fails = true ∧ held = rest.length ∧ held < packetCodecMaxBytes P then ([], -1)
    else
      match frontPacket P true rest with
      | none => ([], if rest = [] ∧ fails = false then 0 else -1)
      | some (p, n) =>
        let r := directRead chunk fails fuel (rest.drop n) (refilled P chunk rest held - n)
        (p :: r.1, r.2)

section DirectRead

variable {chunk held fuel : Nat} {fails : Bool} {rest : List Byte}

/-- Bytes that are no record end the loop. -/
theorem directRead_of_none (hfront : frontPacket P true rest = none) (hne : rest ≠ []) (chunk held fuel : Nat) (fails : Bool) :
    directRead P chunk fails fuel rest held = ([], -1) := by
  cases fuel with
  | zero => rfl
  | succ fuel =>
    rw [directRead, hfront, if_neg fun h : rest = [] ∧ fails = false => hne h.1]
    exact ite_self _

theorem directRead_prefix : (directRead P chunk fails fuel rest held).1 <+: readAll (frontPacket P true) rest := by
  induction fuel generalizing rest held with
  | zero => exact List.nil_prefix
  | succ fuel ih =>
    rw [directRead]
    split
    · exact List.nil_prefix
    · cases hfront : frontPacket P true rest with
      | none => exact List.nil_prefix
      | some r =>
        rw [readAll_of_some (fun _ _ _ => frontPacket_length) hfront]
        exact List.cons_prefix_cons.mpr ⟨rfl, ih⟩

/-- Without a failure all of the body is read. -/
theorem directRead_eq_readAll (hfuel : rest.length < fuel) :
    (directRead P chunk false fuel rest held).1 = readAll (frontPacket P true) rest := by
  induction fuel generalizing rest held with
  | zero => exact absurd hfuel (Nat.not_lt_zero _)
  | succ fuel ih =>
    rw [directRead, if_neg fun h => Bool.false_ne_true h.1]
    cases hfront : frontPacket P true rest with
    | none => exact (readAll_of_none hfront).symm
    | some r =>
      obtain ⟨hpos, hle⟩ := frontPacket_length hfront
      rw [readAll_of_some (fun _ _ _ => frontPacket_length) hfront]
      have hrest : (rest.drop r.2).length < fuel := by
        rw [List.length_drop]
        omega
      dsimp only
      rw [ih hrest]

end DirectRead

theorem importedPacket_flag (p : Packet P) : (importedPacket p).checked = 0 ∨ (importedPacket p).checked = 1 := by
  unfold importedPacket
  by_cases h : p.checked = 1
  · right
    dsimp only
    rw [if_neg (not_not.mpr h), h]
  · left
    exact if_pos h

/-- The flag of the record and that of a packet whose flag is 0 or 1. -/
theorem recordOf_flag_eq {record : List Byte} (h : recordOf p = some record) (hflag : p.checked = 0 ∨ p.checked = 1) :
    decide (record.getD 2 0 = 1#8) = decide (p.checked = 1) := by
  rw [recordOf_flag h]
  rcases hflag with hflag | hflag <;> rw [hflag] <;> rfl

/-- The record of a packet read from a compact file. -/
theorem recordOf_importedPacket (hflag : p.checked = 0 ∨ p.checked = 1) :
    recordOf (importedPacket p) = recordOf { p with minCandidats := possibilityMinCandidatsUnknown } := by
  have hchecked : (importedPacket p).checked = p.checked := by
    unfold importedPacket
    rcases hflag with hflag | hflag <;> rw [hflag] <;> rfl
  have hheader : codecHeader (importedPacket p) =
      codecHeader { p with minCandidats := possibilityMinCandidatsUnknown } := by
    unfold codecHeader
    rw [hchecked]
    rfl
  unfold recordOf packetCodecEncode codecRecord
  rw [hheader]
  rfl

/-- What a reading loop has imported out of all there is to read, unless a stop is requested. -/
structure Imported (tier : TierCodec) (env : ImportEnv P) (total : Bool → Multiset (List Byte)) (n : Nat)
    (all : List (Packet P)) (fails : Bool) (e : ImportEnd) : Prop where
  stopped : e.aborted = true → ∃ n, Stopped (env.rounds n)
  done : e.aborted = false → ∃ packets, packets <+: all ∧ (fails = false → packets = all) ∧
    e.state.Holds P tier (fun c => total c + poolRecords (packets.map importedPacket) c) (n + packets.length)

variable {total : Bool → Multiset (List Byte)} {n : Nat} {all : List (Packet P)} {fails : Bool} {st : ImportState}
  {e : ImportEnd}

/-- A reader that finds a beginning of what there is, all of it unless a read fails. -/
theorem Imported.weaken {found : List (Packet P)} (h : Imported tier env total n found false e) (hbegins : found <+: all)
    (hall : fails = false → found = all) : Imported tier env total n all fails e := by
  refine ⟨h.stopped, fun hdone => ?_⟩
  obtain ⟨packets, -, heq, hheld⟩ := h.done hdone
  obtain rfl := heq rfl
  exact ⟨packets, hbegins, hall, hheld⟩

theorem Imported.of_end (h : st.Holds P tier total n) (hall : fails = false → all = []) (readStatus : Int) :
    Imported tier env total n all fails ⟨st, readStatus, false⟩ := by
  refine ⟨fun h => ?_, fun _ => ⟨[], List.nil_prefix, fun hok => (hall hok).symm, ?_⟩⟩
  · cases h
  · simpa only [List.map_nil, poolRecords_nil, add_zero, List.length_nil] using h

theorem Imported.of_stop (h : ∃ n, Stopped (env.rounds n)) (readStatus : Int) :
    Imported tier env total n all fails ⟨st, readStatus, true⟩ :=
  ⟨fun _ => h, fun hfalse => by cases hfalse⟩

theorem Imported.cons (h : Imported tier env (fun c => total c + poolRecords [importedPacket p] c) (n + 1) all fails e) :
    Imported tier env total n (p :: all) fails e := by
  refine ⟨h.stopped, fun hdone => ?_⟩
  obtain ⟨packets, hprefix, hall, hheld⟩ := h.done hdone
  refine ⟨p :: packets, List.cons_prefix_cons.mpr ⟨rfl, hprefix⟩, fun hok => by rw [hall hok], ?_⟩
  have hcount : (fun c => total c + poolRecords ((p :: packets).map importedPacket) c) =
      fun c => total c + poolRecords [importedPacket p] c + poolRecords (packets.map importedPacket) c := by
    funext c
    rw [List.map_cons, poolRecords_cons, add_assoc]
  rw [hcount, List.length_cons, Nat.add_comm packets.length, ← Nat.add_assoc]
  exact hheld

/-- What is read and not used yet is read on, a buffer that is still short has all of it, and no read has
failed that was due. -/
structure Refilled (env : ImportEnv P) (f : ByteStream) (buf : List Byte) (eof : Bool) (f' : ByteStream) (buf' : List Byte)
    (eof' : Bool) : Prop where
  bytes : buf' ++ f'.bytes = buf ++ f.bytes
  fails : f'.fails = f.fails
  ended : eof' = true → f'.bytes = [] ∧ f'.fails = false
  short : buf'.length < packetCodecMaxBytes P → f'.bytes = []
  held : buf'.length = refilled P env.chunk (buf ++ f.bytes) buf.length
  kept : ¬ (f.fails = true ∧ buf.length = (buf ++ f.bytes).length ∧ buf.length < packetCodecMaxBytes P)
  turns : directTurns f' eof' + (if eof' = false ∧ buf'.length < packetCodecMaxBytes P then 1 else 0) ≤ directTurns f eof

variable {f f' : ByteStream} {buf buf' : List Byte} {eof eof' : Bool}

variable (env) in
/-- A short buffer with all there is. -/
theorem refilled_whole (hshort : buf.length < packetCodecMaxBytes P) : refilled P env.chunk buf buf.length = buf.length := by
  unfold refilled
  rw [if_pos hshort, Nat.min_eq_right (Nat.le_trans (Nat.le_of_lt hshort) (Nat.le_of_lt env.chunk_gt))]

/-- A read that comes to the end of the file. -/
theorem Refilled.of_end (hshort : buf.length < packetCodecMaxBytes P) (hnil : f.bytes = []) (hok : f.fails = false) :
    Refilled env f buf false f buf true where
  bytes := rfl
  fails := rfl
  ended _ := ⟨hnil, hok⟩
  short _ := hnil
  held := by rw [hnil, List.append_nil, refilled_whole env hshort]
  kept h := Bool.false_ne_true (hok.symm.trans h.1)
  turns := by
    unfold directTurns
    simp [hnil]

/-- A read that gives some bytes. -/
theorem Refilled.of_read (hshort : buf.length < packetCodecMaxBytes P) (hne : f.bytes ≠ []) :
    Refilled env f buf false { f with bytes := f.bytes.drop (env.chunk - buf.length) }
      (buf ++ f.bytes.take (env.chunk - buf.length)) false := by
  have hchunk := env.chunk_gt
  have hall : (buf ++ f.bytes.take (env.chunk - buf.length)).length < packetCodecMaxBytes P →
      f.bytes.drop (env.chunk - buf.length) = [] := by
    intro hlen
    rw [List.length_append, List.length_take] at hlen
    exact List.drop_eq_nil_of_le (by omega)
  refine ⟨?_, rfl, fun h => ?_, hall, ?_, fun h => ?_, ?_⟩
  · rw [List.append_assoc, List.take_append_drop]
  · cases h
  · unfold refilled
    rw [if_pos hshort, List.length_append, List.length_append, List.length_take]
    omega
  · have hlen := h.2.1
    rw [List.length_append] at hlen
    exact hne (List.length_eq_zero_iff.mp (by omega))
  · unfold directTurns
    dsimp only
    rw [if_neg Bool.false_ne_true, if_neg Bool.false_ne_true, if_neg hne]
    by_cases hlen : (buf ++ f.bytes.take (env.chunk - buf.length)).length < packetCodecMaxBytes P
    · rw [if_pos (hall hlen), if_pos ⟨rfl, hlen⟩]
    · have hno : ¬ (false = false ∧ (buf ++ f.bytes.take (env.chunk - buf.length)).length < packetCodecMaxBytes P) :=
        fun h => hlen h.2
      rw [if_neg hno]
      split <;> decide

/-- A buffer that is not short, or whose file has ended. -/
theorem Refilled.of_held (hended : eof = true → f.bytes = [] ∧ f.fails = false)
    (hlong : ¬ (eof = false ∧ buf.length < packetCodecMaxBytes P)) : Refilled env f buf eof f buf eof := by
  have hlast : buf.length < packetCodecMaxBytes P → f.bytes = [] ∧ f.fails = false := by
    intro hlen
    cases eof with
    | true => exact hended rfl
    | false => exact absurd ⟨rfl, hlen⟩ hlong
  refine ⟨rfl, rfl, hended, fun hlen => (hlast hlen).1, ?_, fun h => ?_, ?_⟩
  · by_cases hlen : buf.length < packetCodecMaxBytes P
    · rw [(hlast hlen).1, List.append_nil, refilled_whole env hlen]
    · exact (if_neg hlen).symm
  · rw [(hlast h.2.2).2] at h
    exact Bool.false_ne_true h.1
  · rw [if_neg hlong]
    exact Nat.le_refl _

variable (buf) in
/-- A refill fails only where a read that is due fails. -/
theorem importRefill_spec (env : ImportEnv P) (hended : eof = true → f.bytes = [] ∧ f.fails = false) :
    (importRefill env f buf eof = none → f.fails = true ∧ f.bytes = [] ∧ buf.length < packetCodecMaxBytes P) ∧
      ∀ f' buf' eof', importRefill env f buf eof = some (f', buf', eof') → Refilled env f buf eof f' buf' eof' := by
  have hchunk := env.chunk_gt
  unfold importRefill
  split
  · rename_i hshort
    obtain ⟨rfl, hshort⟩ := hshort
    dsimp only
    split
    · rename_i hgot
      have hnil : f.bytes = [] := by
        rw [List.length_take] at hgot
        exact List.length_eq_zero_iff.mp (by omega)
      split
      · rename_i hfails
        exact ⟨fun _ => ⟨hfails, hnil, hshort⟩, fun f' buf' eof' h => absurd h (by simp)⟩
      · rename_i hfails
        refine ⟨fun h => absurd h (by simp), fun f' buf' eof' h => ?_⟩
        obtain ⟨rfl, hpair⟩ := Prod.mk.inj (Option.some.inj h)
        obtain ⟨rfl, rfl⟩ := Prod.mk.inj hpair
        exact .of_end hshort hnil (Bool.eq_false_of_not_eq_true hfails)
    · rename_i hgot
      refine ⟨fun h => absurd h (by simp), fun f' buf' eof' h => ?_⟩
      obtain ⟨rfl, hpair⟩ := Prod.mk.inj (Option.some.inj h)
      obtain ⟨rfl, rfl⟩ := Prod.mk.inj hpair
      refine .of_read hshort fun hnil => ?_
      rw [hnil] at hgot
      exact hgot (by simp)
  · rename_i hlong
    refine ⟨fun h => absurd h (by simp), fun f' buf' eof' h => ?_⟩
    obtain ⟨rfl, hpair⟩ := Prod.mk.inj (Option.some.inj h)
    obtain ⟨rfl, rfl⟩ := Prod.mk.inj hpair
    exact .of_held hended hlong

/-- The bytes behind a full buffer do not matter to its first record. -/
theorem Refilled.front (h : Refilled env f buf eof f' buf' eof') :
    frontPacket P true (buf ++ f.bytes) = frontPacket P true buf' := by
  rw [← h.bytes]
  by_cases hlen : packetCodecMaxBytes P ≤ buf'.length
  · exact frontPacket_append hlen
  · rw [h.short (Nat.not_le.mp hlen), List.append_nil]

/-- An empty buffer is the end of a file that has not failed. -/
theorem Refilled.ended_of_nil (h : Refilled env f buf eof f' [] eof') : buf ++ f.bytes = [] ∧ f.fails = false := by
  have hzero : 0 < packetCodecMaxBytes P := by
    unfold packetCodecMaxBytes packetCodecHeaderBytes
    omega
  have hnil : buf ++ f.bytes = [] := by
    rw [← h.bytes, h.short hzero]
    rfl
  refine ⟨hnil, Bool.eq_false_of_not_eq_true fun hfails => h.kept ⟨hfails, ?_, ?_⟩⟩
  · rw [hnil, (List.append_eq_nil_iff.mp hnil).1]
  · rw [(List.append_eq_nil_iff.mp hnil).1]
    exact hzero

/-- What the chunked loop finds, by the first record of its buffer. -/
theorem Refilled.directRead_of_none (h : Refilled env f buf eof f' buf' eof') (hfront : frontPacket P true buf' = none)
    (m : Nat) : directRead P env.chunk f.fails (m + 1) (buf ++ f.bytes) buf.length =
      ([], if buf ++ f.bytes = [] ∧ f.fails = false then 0 else -1) := by
  rw [directRead, if_neg h.kept, h.front, hfront]

@[inherit_doc Refilled.directRead_of_none]
theorem Refilled.directRead_of_some (h : Refilled env f buf eof f' buf' eof') {k : Nat}
    (hfront : frontPacket P true buf' = some (p, k)) (m : Nat) :
    directRead P env.chunk f.fails (m + 1) (buf ++ f.bytes) buf.length =
      (p :: (directRead P env.chunk f'.fails m (buf'.drop k ++ f'.bytes) (buf'.drop k).length).1,
        (directRead P env.chunk f'.fails m (buf'.drop k ++ f'.bytes) (buf'.drop k).length).2) := by
  have hle := (frontPacket_length hfront).2
  rw [directRead, if_neg h.kept, h.front, hfront, ← h.held, ← h.bytes, h.fails]
  dsimp only
  rw [List.drop_append_of_le_length hle, List.length_drop]

variable (hlaw : ∀ zstd, tier.zstd = some zstd → zstd.Lawful) (hprompt : ∀ n, Prompt (env.rounds n))

include hlaw hprompt

/-- A record in canonical form is held, or a stop is requested. -/
theorem importRecord_holds {record : List Byte} (h : st.Holds P tier total n) (hp : recordOf p = some record)
    (hflag : decide (record.getD 2 0 = 1#8) = decide (p.checked = 1)) :
    ((importRecord tier env st record).2 = .next ∧
        (importRecord tier env st record).1.Holds P tier (fun c => total c + poolRecords [p] c) (n + 1)) ∨
      ((importRecord tier env st record).2 = .stopped ∧ ∃ n, Stopped (env.rounds n)) := by
  obtain ⟨q, hdecode, hq⟩ := IsRecord.decode ⟨p, hp⟩ []
  rw [List.append_nil] at hdecode
  have hsame : ∀ c, poolRecords [q] c = poolRecords [p] c := by
    intro c
    have hroute : decide (q.checked = 1) = decide (p.checked = 1) := by
      rw [packetCodecDecode_checked hdecode, ← hflag]
      split <;> simp_all
    rw [poolRecords_singleton, poolRecords_singleton, hroute, hq, hp]
  have hadded : ((if st.tier.active then importTierAddRaw tier env st record else (st, 0)).2 = 1 ∧
        (if st.tier.active then importTierAddRaw tier env st record else (st, 0)).1.Holds P tier
          (fun c => total c + poolRecords [p] c) (n + 1)) ∨
      ((if st.tier.active then importTierAddRaw tier env st record else (st, 0)).2 = 0 ∧
        (if st.tier.active then importTierAddRaw tier env st record else (st, 0)).1.Holds P tier total n) ∨
      ((if st.tier.active then importTierAddRaw tier env st record else (st, 0)).2 = -1 ∧
        ∃ n, Stopped (env.rounds n)) := by
    split
    · exact importTierAddRaw_holds hlaw hprompt h hp hflag
    · exact .inr (.inl ⟨rfl, h⟩)
  unfold importRecord
  dsimp only
  generalize (if st.tier.active then importTierAddRaw tier env st record else (st, 0)) = added at hadded
  rcases hadded with ⟨hstored, hheld⟩ | ⟨hlisted, hheld⟩ | ⟨hstopped, hstop⟩
  · rw [hstored]
    exact .inl ⟨rfl, hheld⟩
  · rw [hlisted, hdecode]
    dsimp only
    obtain ⟨hinserted, hstop⟩ := importInsertListed_holds hlaw hprompt hheld q
    by_cases hok : (importInsertListed tier env added.1 q).2 = false
    · right
      rw [if_pos hok]
      exact ⟨rfl, hstop hok⟩
    · left
      rw [if_neg hok]
      simp only [← hsame]
      exact ⟨rfl, hinserted (Bool.eq_true_of_not_eq_false hok)⟩
  · rw [hstopped]
    exact .inr ⟨rfl, hstop⟩

/-- A packet whose flag is 0 or 1 is held, or a stop is requested. -/
theorem importPacket_holds (h : st.Holds P tier total n) (hflag : p.checked = 0 ∨ p.checked = 1) :
    ((importPacket tier env st p).2 = true →
        (importPacket tier env st p).1.Holds P tier (fun c => total c + poolRecords [p] c) (n + 1)) ∧
      ((importPacket tier env st p).2 = false → ∃ n, Stopped (env.rounds n)) := by
  have hadded : ((if st.tier.active then importTierAdd tier env st p else (st, 0)).2 = 1 ∧
        (if st.tier.active then importTierAdd tier env st p else (st, 0)).1.Holds P tier
          (fun c => total c + poolRecords [p] c) (n + 1)) ∨
      ((if st.tier.active then importTierAdd tier env st p else (st, 0)).2 = 0 ∧
        (if st.tier.active then importTierAdd tier env st p else (st, 0)).1.Holds P tier total n) ∨
      ((if st.tier.active then importTierAdd tier env st p else (st, 0)).2 = -1 ∧ ∃ n, Stopped (env.rounds n)) := by
    split
    · unfold importTierAdd
      cases hp : recordOf p with
      | none => exact .inr (.inl ⟨rfl, h⟩)
      | some record => exact importTierAddRaw_holds hlaw hprompt h hp (recordOf_flag_eq hp hflag)
    · exact .inr (.inl ⟨rfl, h⟩)
  unfold importPacket
  dsimp only
  generalize (if st.tier.active then importTierAdd tier env st p else (st, 0)) = added at hadded
  rcases hadded with ⟨hstored, hheld⟩ | ⟨hlisted, hheld⟩ | ⟨hstopped, hstop⟩
  · rw [hstored]
    exact ⟨fun _ => hheld, fun hfalse => by cases hfalse⟩
  · rw [hlisted]
    exact importInsertListed_holds hlaw hprompt hheld p
  · rw [hstopped]
    exact ⟨fun htrue => absurd htrue Bool.false_ne_true, fun _ => hstop⟩

/-- The chunked loop imports what it finds. -/
theorem importPackedDirect_reads {fuel m : Nat} (h : st.Holds P tier total n)
    (hended : eof = true → f.bytes = [] ∧ f.fails = false)
    (hfuel : buf.length + f.bytes.length + directTurns f eof ≤ fuel) (hm : (buf ++ f.bytes).length < m) :
    ∃ e, importPackedDirect tier env fuel f buf eof st = .ok e ∧
      Imported tier env total n (directRead P env.chunk f.fails m (buf ++ f.bytes) buf.length).1 false e ∧
      (e.aborted = false → e.readStatus = (directRead P env.chunk f.fails m (buf ++ f.bytes) buf.length).2) := by
  induction fuel generalizing f buf eof st total n m with
  | zero =>
    have hturns : 0 < directTurns f eof := by
      unfold directTurns
      repeat' split
      all_goals decide
    omega
  | succ fuel ih =>
    obtain ⟨m, rfl⟩ := Nat.exists_eq_add_of_le' (Nat.lt_of_le_of_lt (Nat.zero_le _) hm)
    obtain ⟨herror, hrefill⟩ := importRefill_spec buf env hended
    rw [importPackedDirect]
    cases hresult : importRefill env f buf eof with
    | none =>
      obtain ⟨hfails, hnil, hshort⟩ := herror hresult
      have hread : directRead P env.chunk f.fails (m + 1) (buf ++ f.bytes) buf.length = ([], -1) := by
        rw [directRead, if_pos ⟨hfails, by rw [hnil, List.append_nil], hshort⟩]
      rw [hread]
      exact ⟨_, rfl, .of_end h (fun _ => rfl) (-1), fun _ => rfl⟩
    | some r =>
      obtain ⟨f', buf', eof'⟩ := r
      have hafter := hrefill f' buf' eof' hresult
      have hturns := hafter.turns
      have hlength : buf'.length + f'.bytes.length = buf.length + f.bytes.length := by
        rw [← List.length_append, hafter.bytes, List.length_append]
      obtain ⟨hsome, hnone⟩ := packetCodecCanonicalize_front buf' possibilityMinCandidatsUnknown
      dsimp only
      cases hat : frontPacket P true buf' with
      | none =>
        rw [hafter.directRead_of_none hat]
        split
        · rename_i hempty
          obtain rfl : buf' = [] := List.length_eq_zero_iff.mp hempty
          rw [if_pos hafter.ended_of_nil]
          exact ⟨_, rfl, .of_end h (fun _ => rfl) 0, fun _ => rfl⟩
        · rename_i hfull
          have hne : buf' ++ f'.bytes ≠ [] := by
            intro hnil
            rw [(List.append_eq_nil_iff.mp hnil).1] at hfull
            exact hfull rfl
          have hend : ¬ (buf ++ f.bytes = [] ∧ f.fails = false) := fun h => hne (hafter.bytes.trans h.1)
          rw [if_neg hend]
          rcases hnone hat with hbad | ⟨hcut, hshort⟩
          · rw [hbad]
            exact ⟨_, rfl, .of_end h (fun _ => rfl) (-1), fun _ => rfl⟩
          · rw [hcut]
            dsimp only
            rw [if_pos rfl]
            cases eof' with
            | true => exact ⟨_, rfl, .of_end h (fun _ => rfl) (-1), fun _ => rfl⟩
            | false =>
              rw [if_pos ⟨rfl, hshort⟩] at hturns
              have hfuel' : buf'.length + f'.bytes.length + directTurns f' false ≤ fuel := by omega
              have hm' : (buf' ++ f'.bytes).length < m + 1 := hafter.bytes ▸ hm
              obtain ⟨e, he, himported, hstatus⟩ := ih h hafter.ended hfuel' hm'
              have hfront : frontPacket P true (buf' ++ f'.bytes) = none := by
                rw [hafter.bytes, hafter.front, hat]
              rw [directRead_of_none hfront hne] at himported hstatus
              exact ⟨e, he, himported, hstatus⟩
      | some r =>
        obtain ⟨p, k⟩ := r
        obtain ⟨hcanonical, hrecord⟩ := hsome p k hat
        obtain ⟨hdecode, -⟩ := frontPacket_eq_some.mp hat
        obtain ⟨hpos, hle⟩ := frontPacket_length hat
        have hflag : p.checked = 0 ∨ p.checked = 1 := packetCodecDecode_byte hdecode
        rw [← recordOf_importedPacket hflag] at hrecord
        have hmark := recordOf_flag_eq hrecord (importedPacket_flag p)
        have hdrop : (canonicalRecord P buf' possibilityMinCandidatsUnknown).drop k = buf'.drop k := by
          rw [packetCodecDecode_length hdecode]
          exact canonicalRecord_drop (valuesInRange_of_ok hdecode).1
        have hfuel' : (buf'.drop k).length + f'.bytes.length + directTurns f' eof' ≤ fuel := by
          rw [List.length_drop]
          omega
        have hm' : (buf'.drop k ++ f'.bytes).length < m := by
          rw [List.length_append, List.length_drop]
          rw [List.length_append] at hm
          omega
        have hfull : ¬ buf'.length = 0 := by omega
        rw [if_neg hfull, hafter.directRead_of_some hat, hcanonical]
        dsimp only
        rw [if_neg (Nat.pos_iff_ne_zero.mp hpos), hdrop]
        rcases importRecord_holds hlaw hprompt h hrecord hmark with ⟨hturn, hheld⟩ | ⟨hturn, hstop⟩
        · rw [hturn]
          obtain ⟨e, he, himported, hstatus⟩ := ih hheld hafter.ended hfuel' hm'
          exact ⟨e, he, himported.cons, hstatus⟩
        · rw [hturn]
          exact ⟨_, rfl, .of_stop hstop 0, fun hfalse => by cases hfalse⟩

/-- The chunked loop imports what a strict reader finds, up to the bytes a read error loses. -/
theorem importPackedDirect_spec {fuel : Nat} {f : ByteStream} {buf : List Byte} {eof : Bool}
    (h : st.Holds P tier total n) (heof : eof = true → f.bytes = [] ∧ f.fails = false)
    (hfuel : buf.length + f.bytes.length + directTurns f eof ≤ fuel) :
    ∃ e, importPackedDirect tier env fuel f buf eof st = .ok e ∧
      Imported tier env total n (readAll (frontPacket P true) (buf ++ f.bytes)) f.fails e := by
  obtain ⟨e, he, himported, -⟩ := importPackedDirect_reads hlaw hprompt h heof hfuel (Nat.lt_succ_self _)
  refine ⟨e, he, himported.weaken directRead_prefix fun hok => ?_⟩
  rw [hok]
  exact directRead_eq_readAll (Nat.lt_succ_self _)

/-- The other loop imports what it can read; only a body that is not readable makes it overrun its buffer. -/
theorem importListed_spec (layout : RawLayout P) (format : BackupFormat) {fuel : Nat} {f : ByteStream}
    (h : st.Holds P tier total n) (hfuel : f.bytes.length < fuel) :
    (¬ BodyReadable P format f.bytes ∧ importListed tier env layout format fuel f st = .overflow) ∨
      ∃ e, importListed tier env layout format fuel f st = .ok e ∧
        Imported tier env total n (readAll (frontOf layout format false) f.bytes) f.fails e := by
  induction fuel generalizing f st total n with
  | zero => exact absurd hfuel (Nat.not_lt_zero _)
  | succ fuel ih =>
    rw [importListed]
    by_cases hover : stockFileReadPacket layout format f = .overflow
    · left
      rw [hover]
      exact ⟨fun hbody => hbody.ne_overflow hover, rfl⟩
    · obtain ⟨hsome, hnone⟩ := stockFileReadPacket_front hover
      cases hat : frontOf layout format false f.bytes with
      | none =>
        right
        have hall : readAll (frontOf layout format false) f.bytes = [] := readAll_of_none hat
        rcases hnone hat with hread | hread
        · rw [hread]
          exact ⟨_, rfl, .of_end h (fun _ => hall) (-1)⟩
        · rw [hread]
          exact ⟨_, rfl, .of_end h (fun _ => hall) 0⟩
      | some r =>
        obtain ⟨p, n⟩ := r
        obtain ⟨hpos, hle⟩ := frontOf_length f.bytes p n hat
        have hfuel' : (f.bytes.drop n).length < fuel := by
          rw [List.length_drop]
          omega
        rw [hsome p n hat, readAll_of_some frontOf_length hat]
        dsimp only
        obtain ⟨hstored, hstop⟩ := importPacket_holds hlaw hprompt h (importedPacket_flag p)
        split
        · rename_i hstopped
          exact .inr ⟨_, rfl, .of_stop (hstop hstopped) 1⟩
        · rename_i hok
          have hheld := hstored (Bool.eq_true_of_not_eq_false hok)
          rcases ih (f := { f with bytes := f.bytes.drop n }) hheld hfuel' with ⟨hbody, hread⟩ | ⟨e, he, himported⟩
          · exact .inl ⟨fun h => hbody (h.drop hat), hread⟩
          · exact .inr ⟨e, he, himported.cons⟩

end Loops

/-! ## What a restore leaves -/

section Restore

variable {P : Puzzle} {tier : TierCodec} {env : ImportEnv P} {layout : RawLayout P} {s : Store}

/-- The import reads a compact file in chunks. -/
def ImportEnv.direct (env : ImportEnv P) : Bool :=
  tierHookImportBlockBytes env ≠ 0 && env.buffers && env.readBuffer

/-- The packets that can be read one after the other from the start of a body. -/
def readable (env : ImportEnv P) (layout : RawLayout P) (format : BackupFormat) (f : ByteStream) : List (Packet P) :=
  readAll (frontOf layout format env.direct) f.bytes

theorem tierHookImportBlockBytes_le : tierHookImportBlockBytes env ≤ stockTierBlockBytes := by
  unfold tierHookImportBlockBytes
  dsimp only
  repeat' split
  · exact Nat.zero_le _
  · exact Nat.min_le_right _ _
  · exact Nat.le_of_ble_eq_true rfl

theorem Store.Sound.cleared (hs : s.Sound P) : s.cleared.Sound P := ⟨fun _ _ h => absurd h List.not_mem_nil, hs.spill⟩

/-- An import starts with empty buffers. -/
theorem holds_start (hs : s.Sound P) (hpos : 0 < s.spill.nbFiles) :
    (ImportState.mk s (importTierBegin env) 0 0 0).Holds P tier (fun c => s.records P tier c) 0 :=
  ⟨fun _ => [], ⟨hs, hpos, fun _ => hpos, tierHookImportBlockBytes_le, fun _ => rfl, fun _ _ h => absurd h List.not_mem_nil,
    fun _ _ h => absurd h List.not_mem_nil, fun _ => Nat.zero_le _⟩, fun c => by rw [Multiset.coe_nil, add_zero], rfl⟩

variable (hlaw : ∀ zstd, tier.zstd = some zstd → zstd.Lawful) (hprompt : ∀ n, Prompt (env.rounds n))

include hlaw hprompt

/-- The last blocks go to the stock too. -/
theorem importLast_spec {total : Bool → Multiset (List Byte)} {n : Nat} {all : List (Packet P)} {fails : Bool} {e : ImportEnd}
    (h : Imported tier env total n all fails e) :
    ((importLast tier env e).2 = false ∧ ∃ n, Stopped (env.rounds n)) ∨
      ((importLast tier env e).2 = true ∧ ∃ packets, packets <+: all ∧ (fails = false → packets = all) ∧
        (∀ c, (importLast tier env e).1.store.records P tier c = total c + poolRecords (packets.map importedPacket) c) ∧
        (importLast tier env e).1.imported = n + packets.length) := by
  have htrue : ¬ true = false := by decide
  unfold importLast
  dsimp only
  cases haborted : e.aborted with
  | true => exact .inl ⟨rfl, h.stopped haborted⟩
  | false =>
    obtain ⟨packets, hprefix, hall, hheld⟩ := h.done haborted
    rw [if_neg Bool.false_ne_true]
    obtain ⟨hunchecked, hstop⟩ := importTierFlush_holds hlaw hprompt hheld false
    cases hfirst : (importTierFlush tier env e.state false).2 with
    | false =>
      rw [if_pos rfl, hfirst]
      exact .inl ⟨rfl, hstop hfirst⟩
    | true =>
      obtain ⟨hheld', hempty, -⟩ := hunchecked hfirst
      rw [if_neg htrue]
      obtain ⟨hchecked, hstop'⟩ := importTierFlush_holds hlaw hprompt hheld' true
      cases hsecond : (importTierFlush tier env (importTierFlush tier env e.state false).1 true).2 with
      | false => exact .inl ⟨rfl, hstop' hsecond⟩
      | true =>
        obtain ⟨⟨buffered, hsound, hsum, hcount⟩, hempty', hothers⟩ := hchecked hsecond
        have hbuf : ∀ c, buffered c = [] := by
          intro c
          have hnil : (buffered c).flatten = [] := by
            rw [← hsound.buf c]
            cases c with
            | true => exact hempty'
            | false => exact (hothers false Bool.false_ne_true).trans hempty
          have hlen := length_le_flatten (hsound.isRecord c)
          rw [hnil] at hlen
          exact List.length_eq_zero_iff.mp (Nat.le_zero.mp hlen)
        refine .inr ⟨rfl, packets, hprefix, hall, fun c => ?_, ?_⟩
        · have hsum := hsum c
          rw [hbuf, Multiset.coe_nil, add_zero] at hsum
          exact hsum
        · rw [hbuf, hbuf] at hcount
          exact hcount

theorem importEnd_spec {total : Bool → Multiset (List Byte)} {n : Nat} {all : List (Packet P)} {fails : Bool} {e : ImportEnd}
    (h : Imported tier env total n all fails e) :
    ((importEnd tier env e).rc = -1 ∧ ∃ n, Stopped (env.rounds n)) ∨
      ((importEnd tier env e).rc = 0 ∧ ∃ packets, packets <+: all ∧ (fails = false → packets = all) ∧
        ∀ c, (importEnd tier env e).store.records P tier c = total c + poolRecords (packets.map importedPacket) c) := by
  rcases importLast_spec hlaw hprompt h with ⟨hlast, hstop⟩ | ⟨hlast, packets, hprefix, hall, hheld, -⟩
  · exact .inl ⟨if_pos hlast, hstop⟩
  · refine .inr ⟨if_neg ?_, packets, hprefix, hall, hheld⟩
    rw [hlast]
    decide

/-- An import of a file that opens, and what it leaves. -/
theorem importFile_spec (hs : s.Sound P) (hpos : 0 < s.spill.nbFiles) {file : BackupFile} {f : ByteStream}
    {format : BackupFormat} {header : List Byte} (hopened : file.opened P = some (f, format, header)) :
    (¬ BodyReadable P format f.bytes ∧ importFile tier env layout file s = .overflow) ∨
      ∃ r, importFile tier env layout file s = .ok r ∧
        ((r.rc = -1 ∧ ∃ n, Stopped (env.rounds n)) ∨
          (r.rc = 0 ∧ ∃ packets, packets <+: readable env layout format f ∧
            (f.fails = false → packets = readable env layout format f) ∧
            ∀ c, r.store.records P tier c = s.records P tier c + poolRecords (packets.map importedPacket) c)) := by
  have hstart : (ImportState.mk s (importTierBegin env) 0 0 0).Holds P tier (fun c => s.records P tier c) 0 :=
    holds_start hs hpos
  have hactive : (importTierBegin env).active = (tierHookImportBlockBytes env ≠ 0 && env.buffers) := rfl
  unfold importFile
  rw [hopened]
  dsimp only
  by_cases hdirect : format = .packed ∧ (importTierBegin env).active = true ∧ env.readBuffer = true
  · rw [if_pos hdirect]
    obtain ⟨rfl, hbegin, hbuffer⟩ := hdirect
    have hreader : env.direct = true := by
      unfold ImportEnv.direct
      rw [hactive] at hbegin
      rw [hbegin, hbuffer]
      rfl
    obtain ⟨e, he, himported⟩ := importPackedDirect_spec hlaw hprompt hstart (fun h => absurd h Bool.false_ne_true)
      (directTurns_start f)
    rw [he]
    refine .inr ⟨_, rfl, ?_⟩
    unfold readable
    rw [hreader]
    exact importEnd_spec hlaw hprompt himported
  · rw [if_neg hdirect]
    have hfront : frontOf layout format env.direct = frontOf layout format false := by
      cases format with
      | legacy => rfl
      | packed =>
        have hreader : env.direct = false := by
          rw [Bool.eq_false_iff]
          intro htrue
          unfold ImportEnv.direct at htrue
          rw [Bool.and_eq_true] at htrue
          exact hdirect ⟨rfl, hactive.trans htrue.1, htrue.2⟩
        rw [hreader]
    unfold readable
    rw [hfront]
    rcases importListed_spec hlaw hprompt layout format hstart (Nat.lt_succ_self f.bytes.length) with
      ⟨hbody, hread⟩ | ⟨e, he, himported⟩
    · rw [hread]
      exact .inl ⟨hbody, rfl⟩
    · rw [he]
      exact .inr ⟨_, rfl, importEnd_spec hlaw hprompt himported⟩

end Restore

section RestoreAnalysed

variable {P : Puzzle} (layout : RawLayout P) (format : BackupFormat) {files : Nat → Option Nat}

/-- The loop over analysed packets keeps all that it reads, when each insertion finds a file to lock. -/
theorem importAnalysedLoop_spec (hlocks : ∀ n, (files n).isSome) {fuel : Nat} {f : ByteStream}
    {analysed : List (List (AnalysedElement P))} {n : Nat} (hpos : 0 < analysed.length) (hfuel : f.bytes.length < fuel) :
    (¬ BodyReadable P format f.bytes ∧ importAnalysedLoop layout format files fuel f analysed n = .overflow) ∨
      ∃ r, importAnalysedLoop layout format files fuel f analysed n = .ok r ∧ r.rc = 0 ∧
        r.store.flatten.Perm (analysed.flatten ++
          (readAll (frontOf layout format false) f.bytes).map fun p => ⟨importedAnalysedPacket p, false, 0, 0⟩) := by
  induction fuel generalizing f analysed n with
  | zero => exact absurd hfuel (Nat.not_lt_zero _)
  | succ fuel ih =>
    rw [importAnalysedLoop]
    by_cases hover : stockFileReadPacket layout format f = .overflow
    · left
      rw [hover]
      exact ⟨fun hbody => hbody.ne_overflow hover, rfl⟩
    · obtain ⟨hsome, hnone⟩ := stockFileReadPacket_front hover
      cases hat : frontOf layout format false f.bytes with
      | none =>
        right
        rw [readAll_of_none hat, List.map_nil, List.append_nil]
        rcases hnone hat with hread | hread
        · rw [hread]
          exact ⟨_, rfl, rfl, .refl _⟩
        · rw [hread]
          exact ⟨_, rfl, rfl, .refl _⟩
      | some r =>
        obtain ⟨p, k⟩ := r
        obtain ⟨hk, hle⟩ := frontOf_length f.bytes p k hat
        have hfuel' : ({ f with bytes := f.bytes.drop k } : ByteStream).bytes.length < fuel := by
          rw [List.length_drop]
          omega
        obtain ⟨file, hfile⟩ := Option.isSome_iff_exists.mp (hlocks n)
        rw [hsome p k hat, readAll_of_some frontOf_length hat, hfile]
        dsimp only
        have hmod : file % analysed.length < analysed.length := Nat.mod_lt _ hpos
        have hadd : (addPossibilityAnalysed analysed (importedAnalysedPacket p) (some file)).flatten.Perm
            (analysed.flatten ++ [⟨importedAnalysedPacket p, false, 0, 0⟩]) := flatten_modify_perm _ hmod
        have hpos' : 0 < (addPossibilityAnalysed analysed (importedAnalysedPacket p) (some file)).length := by
          unfold addPossibilityAnalysed
          rw [List.length_modify]
          exact hpos
        rcases ih (n := n + 1) hpos' hfuel' with ⟨hbody, hread⟩ | ⟨r, hr, hrc, hperm⟩
        · exact .inl ⟨fun h => hbody (h.drop hat), hread⟩
        · refine .inr ⟨r, hr, hrc, hperm.trans ((hadd.append_right _).trans ?_)⟩
          rw [List.append_assoc]
          exact List.Perm.refl _

end RestoreAnalysed

/-- An import through the lists whose insertions find room. -/
def calmImport : ImportEnv .p16 where
  ramLimitBytes := 0
  tierActive := false
  buffers := true
  readBuffer := true
  chunk := 2 ^ 22
  rounds _ := [.stored 0]
  turn _ := .full []
  chunk_gt := by decide

/-- The packet of an empty board. -/
def emptyPacket : Packet .p16 := ⟨0, 0, fun _ => -2, 0, 0, Words.zero, 0⟩

/-- A layout of packets that no compact file uses. -/
def blankLayout : RawLayout .p16 := ⟨48, fun _ => emptyPacket, by decide⟩

/-- A file that is not there. -/
def missingBackup : BackupFile := ⟨none, none⟩

/-- A header and one byte of a record. -/
def cutBackup : BackupFile := ⟨some ⟨packetCodecWriteFileHeaderCodec .p16 0 false ++ [0#8], false⟩, none⟩

/-- A stock with the record of an empty board. -/
def oneListed : Store where
  lists id := if id = (false, 0) then [List.replicate 8 0#8] else []
  tier _ := .init
  spill := freshSpill 1 1

theorem oneListed_sound : oneListed.Sound .p16 := by
  refine ⟨fun id record hrecord => ?_, ?_⟩
  · unfold oneListed at hrecord
    dsimp only at hrecord
    split at hrecord
    · rw [List.mem_singleton.mp hrecord]
      exact ⟨emptyPacket, by decide +kernel⟩
    · exact absurd hrecord List.not_mem_nil
  · obtain ⟨htidy, hkept⟩ := SpillRefines.fresh False 1 1
    choose segs _ hholds _ using hkept
    exact ⟨fun id => segs id.1 id.2, htidy, fun id => hholds id.1 id.2⟩

theorem calmImport_prompt (n : Nat) : Prompt (calmImport.rounds n) := by
  intro file hmem
  cases hmem with
  | tail _ hmem => exact absurd hmem List.not_mem_nil
