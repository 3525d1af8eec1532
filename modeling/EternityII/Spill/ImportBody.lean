-- SUMMARY: A compact body imported in chunks or record by record: the bytes on which both leave the same stock.
import EternityII.Spill.Import

/-!
# Two ways to import a compact body

With a tier and a read buffer, `import` cuts the records out of chunks and puts them in canonical form in
place; without, it reads and decodes them one by one. The first refuses a bitmap with bits past the board,
which the second may take, and loses the bytes in its buffer to a read that fails.
-/

/-! ## The two imports -/

/-- What the import of a body leaves: the stock, `imported`, what it returns and `read_status`. -/
structure BodyResult where
  store : Store
  imported : Nat
  rc : Int
  readStatus : Int

section Bodies

variable {P : Puzzle} (tier : TierCodec) (env : ImportEnv P)

/-- The end of an import, with the count that is logged. -/
def importBodyEnd (e : ImportEnd) : BodyResult :=
  let last := importLast tier env e
  ⟨last.1.store, last.1.imported, if last.2 = false then -1 else 0, e.readStatus⟩

/-- `import` of a compact body through `import_packed_direct`. -/
def importBodyDirect (f : ByteStream) (s : Store) : Outcome BodyResult :=
  match importPackedDirect tier env (2 * f.bytes.length + 2) f [] false ⟨s, importTierBegin env, 0, 0, 0⟩ with
  | .overflow => .overflow
  | .error => .error
  | .ok e => .ok (importBodyEnd tier env e)

/-- `import` of a compact body through `stock_file_read_packet`. -/
def importBodyListed (layout : RawLayout P) (f : ByteStream) (s : Store) : Outcome BodyResult :=
  match importListed tier env layout .packed (f.bytes.length + 1) f ⟨s, importTierBegin env, 0, 0, 0⟩ with
  | .overflow => .overflow
  | .error => .error
  | .ok e => .ok (importBodyEnd tier env e)

end Bodies

/-- Both imports end, and leave the same records in each pool, the same count and the same statuses. -/
def BodiesAgree (P : Puzzle) (tier : TierCodec) (direct listed : Outcome BodyResult) : Prop :=
  ∃ r r', direct = .ok r ∧ listed = .ok r' ∧ (∀ c, r.store.records P tier c = r'.store.records P tier c) ∧
    r.imported = r'.imported ∧ r.rc = r'.rc ∧ r.readStatus = r'.readStatus

/-- No stop is requested during an import, and no insertion gets its lock at the last attempt. -/
structure ImportEnv.Patient {P : Puzzle} (env : ImportEnv P) : Prop where
  prompt : ∀ n, Prompt (env.rounds n)
  stored : ∀ n, ¬ Stopped (env.rounds n)

/-! ## Where the readers go on alike -/

section Readers

variable {P : Puzzle} {rest : List Byte} {fails : Bool}

theorem codecReadable_of_front {r : Packet P × Nat} (hfront : frontPacket P true rest = some r) : CodecReadable P rest :=
  .inr (.inl fun hpad => (frontPacket_eq_some.mp hfront).2 ⟨rfl, hpad⟩)

/-- Bytes are readable when the plain reader does not overrun and finds no more than the strict one. -/
theorem codecReadable_iff_front (readError : Bool) : CodecReadable P rest ↔
    packetCodecFread P rest readError ≠ .overflow ∧ frontPacket P false rest = frontPacket P true rest := by
  constructor
  · intro h
    refine ⟨h.safe.fread readError, ?_⟩
    by_cases hpad : PaddingSet P rest
    · have hstrict : frontPacket P true rest = none := if_pos ⟨rfl, hpad⟩
      rw [hstrict]
      cases hfront : frontPacket P false rest with
      | none => rfl
      | some r =>
        obtain ⟨hdecode, -⟩ := frontPacket_eq_some.mp hfront
        obtain ⟨hlen, hvalues⟩ := valuesInRange_of_ok hdecode
        have hprefix : packetCodecPrefix P ≤ packetCodecSizeFor P (announced P rest) := Nat.le_add_right _ _
        rcases h with hshort | hclean | ⟨-, hrefused⟩
        · omega
        · exact absurd hpad hclean
        · exact absurd ⟨hlen, hvalues⟩ hrefused
    · unfold frontPacket
      rw [if_neg fun h => hpad h.2, if_neg fun h => hpad h.2]
  · rintro ⟨hover, hsame⟩
    by_cases hshort : rest.length < packetCodecPrefix P
    · exact .inl hshort
    by_cases hpad : PaddingSet P rest
    · have hlong : ¬ (P.eternParts < announced P rest ∧ packetCodecMaxBytes P < rest.length) :=
        fun h => hover (packetCodecFread_overflow_iff.mpr ⟨Nat.not_lt.mp hshort, h⟩)
      refine .inr (.inr ⟨hlong, fun ⟨hlen, hvalues⟩ => ?_⟩)
      have hfit : packetCodecValueBytes P (announced P rest) ≤ packetCodecPlaneSize P := by
        by_contra hfit
        refine hlong (packetCodecDecode_overflow ?_)
        rw [packetCodecDecode_eq, if_neg (by omega), if_pos (by omega)]
      obtain ⟨q, n, hok⟩ := packetCodecDecode_isOk hlen hfit hvalues
      have hplain : frontPacket P false rest = some (q, n) :=
        frontPacket_eq_some.mpr ⟨hok, fun h => Bool.false_ne_true h.1⟩
      have hstrict : frontPacket P true rest = none := if_pos ⟨rfl, hpad⟩
      rw [hsame, hstrict] at hplain
      cases hplain
    · exact .inr (.inl hpad)

/-- A record of the strict reader is one of the plain reader. -/
theorem packetCodecFread_of_front {p : Packet P} {n : Nat} (hfront : frontPacket P true rest = some (p, n)) (fails : Bool) :
    packetCodecFread P rest fails = .ok (some p) ∧ packetCodecSizeFor P (announced P rest) = n := by
  obtain ⟨hsafe, hsame⟩ := (codecReadable_iff_front fails).mp (codecReadable_of_front hfront)
  rw [← hsame] at hfront
  exact ⟨(packetCodecFread_front hsafe).1 p n hfront, (packetCodecDecode_length (frontPacket_eq_some.mp hfront).1).symm⟩

/-- Readable bytes without a record end both readers. -/
theorem packetCodecFread_of_none (hreadable : CodecReadable P rest) (hfront : frontPacket P true rest = none)
    (fails : Bool) : packetCodecFread P rest fails = if rest = [] ∧ fails = false then .ok none else .error := by
  obtain ⟨hsafe, hsame⟩ := (codecReadable_iff_front fails).mp hreadable
  rw [← hsame] at hfront
  by_cases hend : rest = [] ∧ fails = false
  · rw [if_pos hend, hend.1, hend.2]
    unfold packetCodecFread
    rw [List.take_nil]
    rfl
  · rw [if_neg hend]
    rcases (packetCodecFread_front hsafe).2 hfront with hread | ⟨-, hclean⟩
    · exact hread
    · exact absurd hclean hend

/-- On any other bytes the plain reader overruns its buffer, or takes what the strict one refuses. -/
theorem packetCodecFread_of_stray (hstray : ¬ CodecReadable P rest) (fails : Bool) :
    packetCodecFread P rest fails = .overflow ∨ ∃ p, packetCodecFread P rest fails = .ok (some p) := by
  by_cases hover : packetCodecFread P rest fails = .overflow
  · exact .inl hover
  · right
    have hstrict : frontPacket P true rest = none := by
      cases hfront : frontPacket P true rest with
      | none => rfl
      | some r => exact absurd (codecReadable_of_front hfront) hstray
    cases hfront : frontPacket P false rest with
    | none => exact absurd ((codecReadable_iff_front fails).mpr ⟨hover, hfront.trans hstrict.symm⟩) hstray
    | some r => exact ⟨r.1, (packetCodecFread_front hover).1 r.1 r.2 hfront⟩

/-- A packet that is read takes some bytes. -/
theorem packetCodecFread_drop {p : Packet P} (hread : packetCodecFread P rest fails = .ok (some p)) :
    (rest.drop (packetCodecSizeFor P (announced P rest))).length < rest.length := by
  have hsafe : packetCodecFread P rest fails ≠ .overflow := by
    rw [hread]
    exact fun h => by cases h
  cases hfront : frontPacket P false rest with
  | none =>
    rcases (packetCodecFread_front hsafe).2 hfront with herror | ⟨hend, -⟩
    · rw [hread] at herror
      cases herror
    · rw [hread] at hend
      cases hend
  | some r =>
    obtain ⟨hpos, hle⟩ := frontPacket_length hfront
    rw [← packetCodecDecode_length (frontPacket_eq_some.mp hfront).1, List.length_drop]
    omega

variable (P) in
/-- What the loop over packets read one by one finds from a place on, and `read_status`; `none` when a read
overruns its buffer. -/
def listedRead (fails : Bool) : Nat → List Byte → Option (List (Packet P) × Int)
  | 0, _ => some ([], -1)
  | fuel + 1, rest =>
    match packetCodecFread P rest fails with
    | .overflow => none
    | .error => some ([], -1)
    | .ok none => some ([], 0)
    | .ok (some p) =>
      (listedRead fails fuel (rest.drop (packetCodecSizeFor P (announced P rest)))).map fun r => (p :: r.1, r.2)

variable (P) in
/-- The places where the chunked loop looks for a record, from one of them on: the bytes there and how many
of them it holds. -/
inductive DirectPlace (chunk : Nat) : List Byte → Nat → List Byte → Nat → Prop where
  | here (rest : List Byte) (held : Nat) : DirectPlace chunk rest held rest held
  | next {rest rest' : List Byte} {held held' n : Nat} {p : Packet P} (front : frontPacket P true rest = some (p, n))
      (place : DirectPlace chunk (rest.drop n) (refilled P chunk rest held - n) rest' held') :
      DirectPlace chunk rest held rest' held'

variable (P) in
/-- Both readers go on alike from a place: it is readable, and no record is there when the next read fails. -/
structure SameFront (fails : Bool) (rest : List Byte) (held : Nat) : Prop where
  readable : CodecReadable P rest
  kept : fails = true → held = rest.length → held < packetCodecMaxBytes P → frontPacket P true rest = none

variable {chunk held fuel : Nat}

/-- A property of all places is one of the first and of those behind its record. -/
theorem forall_directPlace {Q : List Byte → Nat → Prop} :
    (∀ rest' held', DirectPlace P chunk rest held rest' held' → Q rest' held') ↔
      Q rest held ∧ ∀ p n, frontPacket P true rest = some (p, n) → ∀ rest' held',
        DirectPlace P chunk (rest.drop n) (refilled P chunk rest held - n) rest' held' → Q rest' held' := by
  constructor
  · exact fun h => ⟨h rest held (.here rest held), fun p n hfront rest' held' hplace => h rest' held' (.next hfront hplace)⟩
  · rintro ⟨hhere, hnext⟩ rest' held' hplace
    cases hplace with
    | here => exact hhere
    | next hfront hplace => exact hnext _ _ hfront rest' held' hplace

/-- Where both go on alike, they find the same and end the same. -/
theorem listedRead_eq_of_places (hfuel : rest.length < fuel)
    (hplaces : ∀ rest' held', DirectPlace P chunk rest held rest' held' → SameFront P fails rest' held') :
    listedRead P fails fuel rest = some (directRead P chunk fails fuel rest held) := by
  induction fuel generalizing rest held with
  | zero => exact absurd hfuel (Nat.not_lt_zero _)
  | succ fuel ih =>
    obtain ⟨⟨hreadable, hkept⟩, hnext⟩ := forall_directPlace.mp hplaces
    rw [listedRead, directRead]
    cases hfront : frontPacket P true rest with
    | none =>
      rw [packetCodecFread_of_none hreadable hfront]
      dsimp only
      by_cases hend : rest = [] ∧ fails = false
      · rw [if_pos hend, if_pos hend, if_neg fun h => Bool.false_ne_true (hend.2.symm.trans h.1)]
      · rw [if_neg hend, if_neg hend, ite_self]
    | some r =>
      obtain ⟨p, n⟩ := r
      obtain ⟨hread, hsize⟩ := packetCodecFread_of_front hfront fails
      obtain ⟨hpos, hle⟩ := frontPacket_length hfront
      have hrest : (rest.drop n).length < fuel := by
        rw [List.length_drop]
        omega
      have hheld : ¬ (fails = true ∧ held = rest.length ∧ held < packetCodecMaxBytes P) := by
        intro h
        rw [hkept h.1 h.2.1 h.2.2] at hfront
        cases hfront
      rw [hread, hsize, if_neg hheld]
      dsimp only
      rw [ih hrest (hnext p n hfront)]
      rfl

/-- The plain loop finds what the chunked one does, or more packets. -/
theorem listedRead_cases (chunk held : Nat) {r : List (Packet P) × Int} (hfuel : rest.length < fuel)
    (hread : listedRead P fails fuel rest = some r) :
    (∀ rest' held', DirectPlace P chunk rest held rest' held' → SameFront P fails rest' held') ∨
      (directRead P chunk fails fuel rest held).1.length < r.1.length := by
  induction fuel generalizing rest held r with
  | zero => exact absurd hfuel (Nat.not_lt_zero _)
  | succ fuel ih =>
    rw [forall_directPlace]
    rw [listedRead] at hread
    rw [directRead]
    cases hfront : frontPacket P true rest with
    | none =>
      by_cases hreadable : CodecReadable P rest
      · left
        refine ⟨⟨hreadable, fun _ _ _ => hfront⟩, fun p n h => ?_⟩
        cases h
      · right
        rcases packetCodecFread_of_stray hreadable fails with hover | ⟨p, hok⟩
        · rw [hover] at hread
          cases hread
        · rw [hok] at hread
          obtain ⟨r', -, rfl⟩ := Option.map_eq_some_iff.mp hread
          split
          · exact Nat.succ_pos _
          · exact Nat.succ_pos _
    | some front =>
      obtain ⟨p, n⟩ := front
      obtain ⟨hok, hsize⟩ := packetCodecFread_of_front hfront fails
      obtain ⟨hpos, hle⟩ := frontPacket_length hfront
      have hrest : (rest.drop n).length < fuel := by
        rw [List.length_drop]
        omega
      rw [hok, hsize] at hread
      obtain ⟨r', hr', rfl⟩ := Option.map_eq_some_iff.mp hread
      by_cases hheld : fails = true ∧ held = rest.length ∧ held < packetCodecMaxBytes P
      · right
        rw [if_pos hheld]
        exact Nat.succ_pos _
      · rw [if_neg hheld]
        rcases ih (refilled P chunk rest held - n) hrest hr' with hsame | hmore
        · left
          refine ⟨⟨codecReadable_of_front hfront, fun h h' h'' => absurd ⟨h, h', h''⟩ hheld⟩, fun p' n' h => ?_⟩
          obtain ⟨rfl, rfl⟩ := Prod.mk.inj (Option.some.inj h)
          exact hsame
        · exact .inr (Nat.succ_lt_succ hmore)

end Readers

/-! ## What the two imports leave -/

/-- All packets that are found have come to the pools, in an import that is not stopped. -/
structure BodyResult.Restored {P : Puzzle} (tier : TierCodec) (s : Store) (found : List (Packet P) × Int)
    (r : BodyResult) : Prop where
  records : ∀ c, r.store.records P tier c = s.records P tier c + poolRecords (found.1.map importedPacket) c
  imported : r.imported = found.1.length
  rc : r.rc = 0
  readStatus : r.readStatus = found.2

section Results

variable {P : Puzzle} {tier : TierCodec} {env : ImportEnv P} {s : Store} {f : ByteStream}
variable (hlaw : ∀ zstd, tier.zstd = some zstd → zstd.Lawful)

include hlaw

/-- What a loop has imported comes to the pools with the last blocks. -/
theorem importBodyEnd_restored (hpatient : env.Patient) {found : List (Packet P) × Int} {e : ImportEnd}
    (h : Imported tier env (fun c => s.records P tier c) 0 found.1 false e) (hstatus : e.readStatus = found.2) :
    (importBodyEnd tier env e).Restored tier s found := by
  rcases importLast_spec hlaw hpatient.prompt h with ⟨-, n, hstop⟩ | ⟨hlast, packets, -, hall, hrecords, himported⟩
  · exact absurd hstop (hpatient.stored n)
  · obtain rfl := hall rfl
    refine ⟨hrecords, himported.trans (Nat.zero_add _), if_neg ?_, hstatus⟩
    rw [hlast]
    decide

/-- The import in chunks. -/
theorem importBodyDirect_restored (hpatient : env.Patient) (hs : s.Sound P) (hpos : 0 < s.spill.nbFiles) :
    ∃ r, importBodyDirect tier env f s = .ok r ∧
      r.Restored tier s (directRead P env.chunk f.fails (f.bytes.length + 1) f.bytes 0) := by
  have hstart : (ImportState.mk s (importTierBegin env) 0 0 0).Holds P tier (fun c => s.records P tier c) 0 :=
    holds_start hs hpos
  obtain ⟨e, he, himported, hstatus⟩ := importPackedDirect_reads hlaw hpatient.prompt hstart
    (fun h => absurd h Bool.false_ne_true) (directTurns_start f) (Nat.lt_succ_self f.bytes.length)
  refine ⟨importBodyEnd tier env e, ?_, importBodyEnd_restored hlaw hpatient himported (hstatus ?_)⟩
  · unfold importBodyDirect
    rw [he]
  · refine Bool.eq_false_of_not_eq_true fun haborted => ?_
    obtain ⟨n, hstop⟩ := himported.stopped haborted
    exact hpatient.stored n hstop

/-- The loop over packets read one by one imports what it finds. -/
theorem importListed_reads (hpatient : env.Patient) (layout : RawLayout P) {st : ImportState}
    {total : Bool → Multiset (List Byte)} {n fuel : Nat} (h : st.Holds P tier total n) (hfuel : f.bytes.length < fuel) :
    (listedRead P f.fails fuel f.bytes = none → importListed tier env layout .packed fuel f st = .overflow) ∧
      ∀ found, listedRead P f.fails fuel f.bytes = some found →
        ∃ e, importListed tier env layout .packed fuel f st = .ok e ∧
          Imported tier env total n found.1 false e ∧ e.readStatus = found.2 := by
  induction fuel generalizing f st total n with
  | zero => exact absurd hfuel (Nat.not_lt_zero _)
  | succ fuel ih =>
    rw [importListed, listedRead]
    unfold stockFileReadPacket
    dsimp only
    cases hread : packetCodecFread P f.bytes f.fails with
    | overflow =>
      refine ⟨fun _ => rfl, fun found h => ?_⟩
      cases h
    | error =>
      refine ⟨fun h => ?_, fun found hfound => ?_⟩
      · cases h
      · obtain rfl := Option.some.inj hfound
        exact ⟨_, rfl, .of_end h (fun _ => rfl) (-1), rfl⟩
    | ok front =>
      cases front with
      | none =>
        refine ⟨fun h => ?_, fun found hfound => ?_⟩
        · cases h
        · obtain rfl := Option.some.inj hfound
          exact ⟨_, rfl, .of_end h (fun _ => rfl) 0, rfl⟩
      | some p =>
        have hshorter : (f.bytes.drop (packetCodecSizeFor P (announced P f.bytes))).length < fuel :=
          Nat.lt_of_lt_of_le (packetCodecFread_drop hread) (Nat.le_of_lt_succ hfuel)
        obtain ⟨hstored, hstop⟩ := importPacket_holds hlaw hpatient.prompt h (importedPacket_flag p)
        have hok : (importPacket tier env st (importedPacket p)).2 = true := by
          refine Bool.eq_true_of_not_eq_false fun hfalse => ?_
          obtain ⟨n, hstop⟩ := hstop hfalse
          exact hpatient.stored n hstop
        obtain ⟨hover, hfound⟩ := ih (f := { f with bytes := f.bytes.drop (packetCodecSizeFor P (announced P f.bytes)) })
          (hstored hok) hshorter
        dsimp only at hover hfound ⊢
        rw [if_neg (by rw [hok]; decide)]
        refine ⟨fun hnone => hover (Option.map_eq_none_iff.mp hnone), fun found hsome => ?_⟩
        obtain ⟨r, hr, rfl⟩ := Option.map_eq_some_iff.mp hsome
        obtain ⟨e, he, himported, hstatus⟩ := hfound r hr
        exact ⟨e, he, himported.cons, hstatus⟩

/-- The import record by record. -/
theorem importBodyListed_restored (hpatient : env.Patient) (layout : RawLayout P) (hs : s.Sound P)
    (hpos : 0 < s.spill.nbFiles) :
    (listedRead P f.fails (f.bytes.length + 1) f.bytes = none → importBodyListed tier env layout f s = .overflow) ∧
      ∀ found, listedRead P f.fails (f.bytes.length + 1) f.bytes = some found →
        ∃ r, importBodyListed tier env layout f s = .ok r ∧ r.Restored tier s found := by
  have hstart : (ImportState.mk s (importTierBegin env) 0 0 0).Holds P tier (fun c => s.records P tier c) 0 :=
    holds_start hs hpos
  obtain ⟨hover, hfound⟩ := importListed_reads hlaw hpatient layout hstart (Nat.lt_succ_self f.bytes.length)
  refine ⟨fun hnone => ?_, fun found hsome => ?_⟩
  · unfold importBodyListed
    rw [hover hnone]
  · obtain ⟨e, he, himported, hstatus⟩ := hfound found hsome
    refine ⟨importBodyEnd tier env e, ?_, importBodyEnd_restored hlaw hpatient himported hstatus⟩
    unfold importBodyListed
    rw [he]

end Results

/-- The two imports agree exactly on the bodies whose places both readers leave alike. -/
theorem importBodies_agree {P : Puzzle} {tier : TierCodec} (hlaw : ∀ zstd, tier.zstd = some zstd → zstd.Lawful)
    {env env' : ImportEnv P} (hpatient : env.Patient) (hpatient' : env'.Patient) (layout : RawLayout P) {s : Store}
    (hs : s.Sound P) (hpos : 0 < s.spill.nbFiles) (f : ByteStream) :
    BodiesAgree P tier (importBodyDirect tier env f s) (importBodyListed tier env' layout f s) ↔
      ∀ rest held, DirectPlace P env.chunk f.bytes 0 rest held → SameFront P f.fails rest held := by
  obtain ⟨r, hr, hdirect⟩ := importBodyDirect_restored (f := f) hlaw hpatient hs hpos
  obtain ⟨hover, hfound⟩ := importBodyListed_restored (f := f) hlaw hpatient' layout hs hpos
  have hfuel : f.bytes.length < f.bytes.length + 1 := Nat.lt_succ_self _
  constructor
  · rintro ⟨r₁, r', hr₁, hr', -, hcount, -⟩
    obtain rfl := Outcome.ok.inj (hr.symm.trans hr₁)
    cases hread : listedRead P f.fails (f.bytes.length + 1) f.bytes with
    | none =>
      rw [hover hread] at hr'
      cases hr'
    | some found =>
      obtain ⟨r₂, hr₂, hlisted⟩ := hfound found hread
      obtain rfl := Outcome.ok.inj (hr'.symm.trans hr₂)
      rcases listedRead_cases env.chunk 0 hfuel hread with hsame | hmore
      · exact hsame
      · rw [hdirect.imported, hlisted.imported] at hcount
        exact absurd hcount (Nat.ne_of_lt hmore)
  · intro hplaces
    obtain ⟨r', hr', hlisted⟩ := hfound _ (listedRead_eq_of_places hfuel hplaces)
    refine ⟨r, r', hr, hr', fun c => ?_, ?_, ?_, ?_⟩
    · rw [hdirect.records, hlisted.records]
    · rw [hdirect.imported, hlisted.imported]
    · rw [hdirect.rc, hlisted.rc]
    · rw [hdirect.readStatus, hlisted.readStatus]

/-- Boards without padding and streams that do not fail. -/
theorem sameFront_of_multiple {P : Puzzle} (h : P.eternParts % 8 = 0) (rest : List Byte) (held : Nat) :
    SameFront P false rest held :=
  ⟨(codecSafe_of_multiple h rest).readable, fun hfalse => by cases hfalse⟩

/-! ## A compressed body that is cut -/

/-- An import with a tier that takes every block. -/
def blockImport : ImportEnv .p16 where
  ramLimitBytes := 2 ^ 16
  tierActive := true
  buffers := true
  readBuffer := true
  chunk := 2 ^ 10
  rounds _ := [.stored 0]
  turn _ := .pushed []
  chunk_gt := by decide

theorem blockImport_patient : blockImport.Patient :=
  ⟨calmImport_prompt, fun _ hstop => hstop 0 List.mem_cons_self⟩

theorem calmImport_patient : calmImport.Patient :=
  ⟨calmImport_prompt, fun _ hstop => hstop 0 List.mem_cons_self⟩

/-- The records of two empty boards, then bytes that cannot be decompressed. -/
def brokenBody : ByteStream := ⟨List.replicate 16 0#8, true⟩

/-- The record of an empty board and the first byte of another. -/
def cutBody : ByteStream := ⟨List.replicate 9 0#8, false⟩

theorem importBodies_agree_cut :
    BodiesAgree .p16 ⟨none, false⟩ (importBodyDirect ⟨none, false⟩ blockImport cutBody oneListed)
      (importBodyListed ⟨none, false⟩ calmImport blankLayout cutBody oneListed) := by
  have hlaw : ∀ zstd, (⟨none, false⟩ : TierCodec).zstd = some zstd → zstd.Lawful := fun zstd h => absurd h (by simp)
  exact (importBodies_agree hlaw blockImport_patient calmImport_patient blankLayout oneListed_sound Nat.one_pos
    cutBody).mpr fun rest held _ => sameFront_of_multiple rfl rest held

/-- The import in chunks loses the second record, which is in its buffer when the read fails. -/
theorem importBodyDirect_loses : ¬ ∀ (P : Puzzle) (tier : TierCodec) (env env' : ImportEnv P) (layout : RawLayout P)
    (s : Store) (f : ByteStream), (∀ zstd, tier.zstd = some zstd → zstd.Lawful) → env.Patient → env'.Patient →
    s.Sound P → 0 < s.spill.nbFiles →
      BodiesAgree P tier (importBodyDirect tier env f s) (importBodyListed tier env' layout f s) := by
  intro hall
  have hlaw : ∀ zstd, (⟨none, false⟩ : TierCodec).zstd = some zstd → zstd.Lawful := fun zstd h => absurd h (by simp)
  obtain ⟨r, r', hr, hr', -, hcount, -⟩ := hall .p16 ⟨none, false⟩ blockImport calmImport blankLayout oneListed brokenBody
    hlaw blockImport_patient calmImport_patient oneListed_sound Nat.one_pos
  obtain ⟨r₁, hr₁, hdirect⟩ := importBodyDirect_restored (f := brokenBody) hlaw blockImport_patient oneListed_sound
    Nat.one_pos
  obtain rfl := Outcome.ok.inj (hr.symm.trans hr₁)
  have hone : (directRead .p16 blockImport.chunk true 17 brokenBody.bytes 0).1.length = 1 := by decide +kernel
  have htwo : (listedRead .p16 true 17 brokenBody.bytes).map (fun found => found.1.length) = some 2 := by decide +kernel
  obtain ⟨found, hfound, hlength⟩ := Option.map_eq_some_iff.mp htwo
  obtain ⟨r₂, hr₂, hlisted⟩ := (importBodyListed_restored (f := brokenBody) hlaw calmImport_patient blankLayout
    oneListed_sound Nat.one_pos).2 found hfound
  obtain rfl := Outcome.ok.inj (hr'.symm.trans hr₂)
  rw [hdirect.imported, hlisted.imported, hlength] at hcount
  exact absurd (hone.symm.trans hcount) (by decide)
