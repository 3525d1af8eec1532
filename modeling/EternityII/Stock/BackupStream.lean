-- SUMMARY: Backup files: the header, the stream behind it, and the packets that can be read off its front.
import EternityII.Stock.Canonical

/-!
# Backup files

A compact backup starts with a header of 32 bytes that names the geometry and the compression; any
other file is read as raw packets. What follows is read record by record. A stream gives its bytes in
order and then ends, cleanly or with an error.
-/

/-- An open file or a decompressed stream: the bytes it still gives, and whether it then fails. -/
structure ByteStream where
  bytes : List Byte
  fails : Bool

/-! ## The header -/

section Header

/-- `PACKET_CODEC_FILE_HEADER_BYTES`. -/
def packetCodecFileHeaderBytes : Nat := 32

/-- `PACKET_CODEC_FILE_MAGIC`: "ETIISTK" and its final zero. -/
def packetCodecFileMagic : List Byte := [0x45#8, 0x54#8, 0x49#8, 0x49#8, 0x53#8, 0x54#8, 0x4B#8, 0x00#8]

/-- `PACKET_CODEC_FILE_VERSION`. -/
def packetCodecFileVersion : Nat := 1

/-- `PACKET_CODEC_FILE_VERSION_ZSTD`. -/
def packetCodecFileVersionZstd : Nat := 2

/-- `PACKET_CODEC_FILE_FLAGS_OFFSET`. -/
def packetCodecFileFlagsOffset : Nat := 18

/-- `packet_codec_file_header_flags`. -/
def packetCodecFileHeaderFlags (buf : List Byte) : Byte := buf.getD packetCodecFileFlagsOffset 0

/-- `get_u16` at an offset of a buffer. -/
def getU16At (buf : List Byte) (offset : Nat) : BitVec 16 := getU16 (buf.getD offset 0) (buf.getD (offset + 1) 0)

/-- `packet_codec_file_header_is_zstd`. -/
def packetCodecFileHeaderIsZstd (buf : List Byte) : Bool :=
  getU16At buf 8 = BitVec.ofNat 16 packetCodecFileVersionZstd

variable (P : Puzzle)

/-- `packet_codec_write_file_header_codec`. -/
def packetCodecWriteFileHeaderCodec (flags : Byte) (zstdBody : Bool) : List Byte :=
  packetCodecFileMagic ++
    putU16 (BitVec.ofNat 16 (if zstdBody then packetCodecFileVersionZstd else packetCodecFileVersion)) ++
    putU16 (BitVec.ofNat 16 P.eternSize) ++ putU16 (BitVec.ofNat 16 P.eternParts) ++
    putU16 (BitVec.ofNat 16 (packetCodecMaxBytes P)) ++ putU16 (BitVec.ofNat 16 packetCodecHeaderBytes) ++
    [flags] ++ List.replicate 13 0

/-- `packet_codec_read_file_header`. -/
def packetCodecReadFileHeader (buf : List Byte) : Int :=
  if buf.take 8 ≠ packetCodecFileMagic then -1
  else
    let version := getU16At buf 8
    if (version ≠ BitVec.ofNat 16 packetCodecFileVersion ∧ version ≠ BitVec.ofNat 16 packetCodecFileVersionZstd) ∨
        getU16At buf 10 ≠ BitVec.ofNat 16 P.eternSize ∨ getU16At buf 12 ≠ BitVec.ofNat 16 P.eternParts ∨
        getU16At buf 14 ≠ BitVec.ofNat 16 (packetCodecMaxBytes P) ∨
        getU16At buf 16 ≠ BitVec.ofNat 16 packetCodecHeaderBytes then -1
    else 0

variable {P}

theorem length_packetCodecWriteFileHeaderCodec (flags : Byte) (zstdBody : Bool) :
    (packetCodecWriteFileHeaderCodec P flags zstdBody).length = packetCodecFileHeaderBytes := rfl

/-- The reader takes the header that is written for its own geometry, with its flags. -/
theorem packetCodecReadFileHeader_write (flags : Byte) (zstdBody : Bool) :
    packetCodecReadFileHeader P (packetCodecWriteFileHeaderCodec P flags zstdBody) = 0 ∧
      packetCodecFileHeaderFlags (packetCodecWriteFileHeaderCodec P flags zstdBody) = flags ∧
      packetCodecFileHeaderIsZstd (packetCodecWriteFileHeaderCodec P flags zstdBody) = zstdBody := by
  have hversion : getU16At (packetCodecWriteFileHeaderCodec P flags zstdBody) 8 =
      BitVec.ofNat 16 (if zstdBody then packetCodecFileVersionZstd else packetCodecFileVersion) := getU16_putU16 _
  have hsize : getU16At (packetCodecWriteFileHeaderCodec P flags zstdBody) 10 = BitVec.ofNat 16 P.eternSize :=
    getU16_putU16 _
  have hparts : getU16At (packetCodecWriteFileHeaderCodec P flags zstdBody) 12 = BitVec.ofNat 16 P.eternParts :=
    getU16_putU16 _
  have hmax : getU16At (packetCodecWriteFileHeaderCodec P flags zstdBody) 14 = BitVec.ofNat 16 (packetCodecMaxBytes P) :=
    getU16_putU16 _
  have hheader : getU16At (packetCodecWriteFileHeaderCodec P flags zstdBody) 16 =
      BitVec.ofNat 16 packetCodecHeaderBytes := getU16_putU16 _
  have hmagic : (packetCodecWriteFileHeaderCodec P flags zstdBody).take 8 = packetCodecFileMagic := rfl
  refine ⟨?_, rfl, ?_⟩
  · unfold packetCodecReadFileHeader
    rw [if_neg (not_not.mpr hmagic)]
    dsimp only
    rw [hversion, hsize, hparts, hmax, hheader, if_neg]
    cases zstdBody <;> simp
  · unfold packetCodecFileHeaderIsZstd
    rw [hversion]
    cases zstdBody <;> rfl

end Header

/-! ## Opening a backup -/

/-- `BACKUP_STREAM_LEGACY` and `BACKUP_STREAM_PACKED`. -/
inductive BackupFormat where
  | legacy | packed
  deriving DecidableEq

section Open

variable (P : Puzzle)

/-- `backup_stream_open_read`: the stream, `*out_format` and `out_header`, `none` for a file that is
refused. `zsOpen` is `zs_open` for reading, which a build without zstd does not have and which has
no stream when a context cannot be allocated. -/
def backupStreamOpenRead (zsOpen : Option (ByteStream → Option ByteStream)) (raw : ByteStream) :
    Option (ByteStream × BackupFormat × List Byte) :=
  let header := raw.bytes.take packetCodecFileHeaderBytes
  if header.length ≠ packetCodecFileHeaderBytes ∨ header.take 8 ≠ packetCodecFileMagic then
    some (raw, .legacy, List.replicate packetCodecFileHeaderBytes 0)
  else if packetCodecReadFileHeader P header ≠ 0 then none
  else
    let body := { raw with bytes := raw.bytes.drop packetCodecFileHeaderBytes }
    if packetCodecFileHeaderIsZstd header = false then some (body, .packed, header)
    else
      match zsOpen with
      | none => none
      | some zsOpen => (zsOpen body).map fun f => (f, .packed, header)

end Open

/-! ## Reading a packet -/

section Read

variable (P : Puzzle)

/-- The layout of `struct possibility_packet` in raw files: its size, and the packet in that many bytes. -/
structure RawLayout where
  size : Nat
  read : List Byte → Packet P
  size_pos : 0 < size

variable {P}

/-- `stock_file_read_packet`: the packet and the stream after it, `none` for a clean end. A raw packet
cut short is a clean end too. -/
def stockFileReadPacket (layout : RawLayout P) (format : BackupFormat) (f : ByteStream) :
    Outcome (Option (Packet P × ByteStream)) :=
  match format with
  | .packed =>
    match packetCodecFread P f.bytes f.fails with
    | .overflow => .overflow
    | .error => .error
    | .ok none => .ok none
    | .ok (some packet) =>
      .ok (some (packet, { f with bytes := f.bytes.drop (packetCodecSizeFor P (announced P f.bytes)) }))
  | .legacy =>
    if f.bytes.length < layout.size then .ok none
    else .ok (some (layout.read (f.bytes.take layout.size), { f with bytes := f.bytes.drop layout.size }))

end Read

/-! ## Records in the middle of a stream -/

section Prefix

variable {P : Puzzle} {bytes : List Byte}

theorem decodeLoop_congr {bitmap bitmap' plane : Words 8} {cells : List Nat}
    (h : ∀ cell ∈ cells, bitmap.bit cell = bitmap'.bit cell) (grid : Grid P) (faceused : Words 16) (k : Nat) :
    decodeLoop bitmap plane cells grid faceused k = decodeLoop bitmap' plane cells grid faceused k := by
  induction cells generalizing grid faceused k with
  | nil => rfl
  | cons cell cells ih =>
    have ih := ih fun cell' h' => h cell' (List.mem_cons_of_mem _ h')
    rw [decodeLoop, decodeLoop, h cell List.mem_cons_self]
    dsimp only
    split
    · exact ih grid faceused k
    · split
      · rfl
      · exact ih _ _ _

theorem getD_take_of_lt {n i : Nat} (h : i < n) : (bytes.take n).getD i 0 = bytes.getD i 0 := by
  rw [List.getD_eq_getElem?_getD, List.getD_eq_getElem?_getD, List.getElem?_take_of_lt h]

theorem announced_take_of_le {n : Nat} (h : packetCodecPrefix P ≤ n) : announced P (bytes.take n) = announced P bytes := by
  have hall : announced P (bytes.take (packetCodecPrefix P)) = announced P bytes := announced_take bytes
  have htake : announced P ((bytes.take n).take (packetCodecPrefix P)) = announced P (bytes.take n) :=
    announced_take (bytes.take n)
  rw [List.take_take, Nat.min_eq_left h] at htake
  exact htake.symm.trans hall

theorem recordPlane_take : recordPlane P (bytes.take (packetCodecSizeFor P (announced P bytes))) = recordPlane P bytes := by
  have hprefix : packetCodecPrefix P ≤ packetCodecSizeFor P (announced P bytes) := Nat.le_add_right _ _
  have hsize : packetCodecSizeFor P (announced P bytes) - packetCodecPrefix P =
      packetCodecValueBytes P (announced P bytes) := Nat.add_sub_cancel_left _ _
  unfold recordPlane
  rw [announced_take_of_le hprefix, List.drop_take, hsize, List.take_take, Nat.min_self]

/-- A reader of a record looks at its own bytes only. -/
theorem packetCodecDecode_take (hlen : packetCodecSizeFor P (announced P bytes) ≤ bytes.length) :
    packetCodecDecode P (bytes.take (packetCodecSizeFor P (announced P bytes))) = packetCodecDecode P bytes := by
  have hprefix : packetCodecPrefix P ≤ packetCodecSizeFor P (announced P bytes) := Nat.le_add_right _ _
  have hannounced : announced P (bytes.take (packetCodecSizeFor P (announced P bytes))) = announced P bytes :=
    announced_take_of_le hprefix
  have hbits : ∀ cell ∈ List.range P.eternParts,
      (recordBitmap (bytes.take (packetCodecSizeFor P (announced P bytes)))).bit cell =
        (recordBitmap bytes).bit cell := by
    intro cell hcell
    have hcell := List.mem_range.mp hcell
    have hle := eternParts_le_bitmap P
    have hlt : packetCodecHeaderBytes + cell / 8 < packetCodecSizeFor P (announced P bytes) := by
      unfold packetCodecSizeFor
      omega
    unfold Words.bit recordBitmap bytesAt
    rw [List.getD_eq_getElem?_getD, List.getD_eq_getElem?_getD, List.getElem?_drop, List.getElem?_drop,
      List.getElem?_take_of_lt hlt]
  have hheader : 6 ≤ packetCodecSizeFor P (announced P bytes) := by
    unfold packetCodecSizeFor packetCodecHeaderBytes
    omega
  have hpacket : ∀ (grid : Grid P) (faceused : Words 16) (placed : Nat),
      decodedPacket (bytes.take (packetCodecSizeFor P (announced P bytes))) grid faceused placed =
        decodedPacket bytes grid faceused placed := by
    intro grid faceused placed
    unfold decodedPacket
    rw [getD_take_of_lt (by omega), getD_take_of_lt (by omega), getD_take_of_lt (by omega), getD_take_of_lt (by omega),
      getD_take_of_lt (by omega)]
  rw [packetCodecDecode_eq, packetCodecDecode_eq, hannounced, recordPlane_take, List.length_take, Nat.min_eq_left hlen,
    decodeLoop_congr hbits]
  simp only [hpacket]
  have hshort : ¬ (packetCodecSizeFor P (announced P bytes) < packetCodecPrefix P ∨
      packetCodecSizeFor P (announced P bytes) < packetCodecSizeFor P (announced P bytes)) := by omega
  have hlong : ¬ (bytes.length < packetCodecPrefix P ∨ bytes.length < packetCodecSizeFor P (announced P bytes)) := by
    omega
  rw [if_neg hshort, if_neg hlong]

instance : DecidablePred (PaddingSet P) := fun inp => decidable_of_iff _ (paddingSet_iff inp).symm

variable (P) in
/-- The packet at the front of some bytes and the length of its record. A strict reader refuses marks
past the board. -/
def frontPacket (strict : Bool) (bytes : List Byte) : Option (Packet P × Nat) :=
  if strict ∧ PaddingSet P bytes then none
  else
    match packetCodecDecode P bytes with
    | .ok r => some r
    | _ => none

variable {strict : Bool} {p : Packet P} {n : Nat}

theorem frontPacket_eq_some : frontPacket P strict bytes = some (p, n) ↔
    packetCodecDecode P bytes = .ok (p, n) ∧ ¬ (strict = true ∧ PaddingSet P bytes) := by
  unfold frontPacket
  split
  · rename_i hpad
    simp [hpad]
  · rename_i hclean
    simp only [hclean, not_false_eq_true, and_true]
    cases packetCodecDecode P bytes with
    | overflow => simp
    | error => simp
    | ok r => simp

theorem frontPacket_length (h : frontPacket P strict bytes = some (p, n)) : 0 < n ∧ n ≤ bytes.length := by
  obtain ⟨hdecode, -⟩ := frontPacket_eq_some.mp h
  obtain ⟨hlen, -⟩ := valuesInRange_of_ok hdecode
  rw [packetCodecDecode_length hdecode]
  refine ⟨?_, hlen⟩
  unfold packetCodecSizeFor packetCodecHeaderBytes
  omega

/-- What `packet_codec_fread` makes of the front of a stream, unless it overruns its buffer. -/
theorem packetCodecFread_front {readError : Bool} (hsafe : packetCodecFread P bytes readError ≠ .overflow) :
    (∀ p n, frontPacket P false bytes = some (p, n) → packetCodecFread P bytes readError = .ok (some p)) ∧
      (frontPacket P false bytes = none →
        packetCodecFread P bytes readError = .error ∨
          packetCodecFread P bytes readError = .ok none ∧ bytes = [] ∧ readError = false) := by
  have hpos : 0 < packetCodecPrefix P := by
    unfold packetCodecPrefix packetCodecHeaderBytes
    omega
  unfold packetCodecFread at hsafe ⊢
  dsimp only at hsafe ⊢
  by_cases hempty : (bytes.take (packetCodecPrefix P)).length = 0
  · have hnil : bytes = [] := by
      rw [List.length_take] at hempty
      exact List.length_eq_zero_iff.mp (by omega)
    subst hnil
    refine ⟨fun p n hfront => ?_, fun _ => ?_⟩
    · have := frontPacket_length hfront
      rw [List.length_nil] at this
      omega
    · cases readError <;> simp
  · rw [if_neg hempty] at hsafe ⊢
    by_cases hhead : (bytes.take (packetCodecPrefix P)).length < packetCodecPrefix P
    · rw [if_pos hhead]
      refine ⟨fun p n hfront => ?_, fun _ => .inl rfl⟩
      have hle : packetCodecPrefix P ≤ packetCodecSizeFor P (announced P bytes) := Nat.le_add_right _ _
      have hlen := (frontPacket_length hfront).2
      rw [packetCodecDecode_length (frontPacket_eq_some.mp hfront).1] at hlen
      rw [List.length_take] at hhead
      omega
    · have hann : bitmapPlaced P (bytesAt ((bytes.take (packetCodecPrefix P)).drop packetCodecHeaderBytes)) =
          announced P bytes := announced_take bytes
      rw [if_neg hhead, hann] at hsafe ⊢
      split at hsafe
      · exact absurd rfl hsafe
      · rename_i hfits
        rw [if_neg hfits]
        split at hsafe
        · rename_i hcut
          rw [if_pos hcut]
          refine ⟨fun p n hfront => ?_, fun _ => .inl rfl⟩
          have hlen := (frontPacket_length hfront).2
          rw [packetCodecDecode_length (frontPacket_eq_some.mp hfront).1] at hlen
          rw [List.length_take, List.length_drop] at hcut
          unfold packetCodecSizeFor at hlen
          unfold packetCodecPrefix at hcut
          omega
        · rename_i hwhole
          have hlen : packetCodecSizeFor P (announced P bytes) ≤ bytes.length := by
            rw [List.length_take, List.length_drop] at hwhole
            rw [List.length_take] at hhead
            unfold packetCodecSizeFor
            unfold packetCodecPrefix at hwhole hhead
            omega
          have happend : bytes.take (packetCodecPrefix P) ++
              (bytes.drop (packetCodecPrefix P)).take (packetCodecValueBytes P (announced P bytes)) =
              bytes.take (packetCodecSizeFor P (announced P bytes)) := (List.take_add).symm
          rw [happend, packetCodecDecode_take hlen] at hsafe
          rw [if_neg hwhole, happend, packetCodecDecode_take hlen]
          refine ⟨fun p n hfront => ?_, fun hnone => .inl ?_⟩
          · rw [(frontPacket_eq_some.mp hfront).1]
          · unfold frontPacket at hnone
            cases hdecode : packetCodecDecode P bytes with
            | overflow =>
              rw [hdecode] at hsafe
              exact absurd rfl hsafe
            | error => rfl
            | ok r =>
              rw [hdecode] at hnone
              exact absurd hnone (by simp)

variable (bytes) in
/-- What `packet_codec_canonicalize` makes of the front of some bytes. -/
theorem packetCodecCanonicalize_front (minCandidats : Int16) :
    (∀ p n, frontPacket P true bytes = some (p, n) →
        packetCodecCanonicalize P bytes minCandidats =
          .ok (n, canonicalRecord P bytes minCandidats, some (announced P bytes)) ∧
        recordOf { p with minCandidats := minCandidats } = some ((canonicalRecord P bytes minCandidats).take n)) ∧
      (frontPacket P true bytes = none → packetCodecCanonicalize P bytes minCandidats = .error ∨
        packetCodecCanonicalize P bytes minCandidats = .ok (0, bytes, none) ∧
          bytes.length < packetCodecMaxBytes P) := by
  refine ⟨fun p n hfront => ?_, fun hnone => ?_⟩
  · obtain ⟨hdecode, hclean⟩ := frontPacket_eq_some.mp hfront
    have hclean : ¬ PaddingSet P bytes := fun hpad => hclean ⟨rfl, hpad⟩
    obtain ⟨hlen, hrange⟩ := valuesInRange_of_ok hdecode
    have hprefix : packetCodecPrefix P ≤ bytes.length := Nat.le_trans (Nat.le_add_right _ _) hlen
    refine ⟨?_, canonicalRecord_take hclean hdecode⟩
    rw [packetCodecDecode_length hdecode]
    exact (packetCodecCanonicalize_of_header hprefix).2.2.2 hclean hlen hrange
  · by_cases hshort : bytes.length < packetCodecPrefix P
    · right
      refine ⟨?_, Nat.lt_of_lt_of_le hshort (Nat.le_add_right _ _)⟩
      unfold packetCodecCanonicalize
      rw [if_pos hshort]
    · obtain ⟨hpadded, hcut, hbad, -⟩ : (PaddingSet P bytes → packetCodecCanonicalize P bytes minCandidats = .error) ∧ _ :=
        packetCodecCanonicalize_of_header (Nat.not_lt.mp hshort)
      by_cases hpad : PaddingSet P bytes
      · exact .inl (hpadded hpad)
      · by_cases hlen : bytes.length < packetCodecSizeFor P (announced P bytes)
        · have hmax := Nat.add_le_add_left (valueBytes_announced_le hpad) (packetCodecHeaderBytes + packetCodecBitmapBytes P)
          exact .inr ⟨hcut hpad hlen, Nat.lt_of_lt_of_le hlen hmax⟩
        · refine .inl (hbad hpad (Nat.not_lt.mp hlen) fun hrange => ?_)
          have hfit : packetCodecValueBytes P (announced P bytes) ≤ packetCodecPlaneSize P :=
            Nat.le_trans (valueBytes_announced_le hpad) (Nat.le_add_right _ _)
          obtain ⟨q, n, hok⟩ := packetCodecDecode_isOk (Nat.not_lt.mp hlen) hfit hrange
          rw [frontPacket_eq_some.mpr ⟨hok, fun h => hpad h.2⟩] at hnone
          exact absurd hnone (by simp)

/-- A strict reader with a longest record before it needs no more bytes. -/
theorem frontPacket_append {rest : List Byte} (hlen : packetCodecMaxBytes P ≤ bytes.length) :
    frontPacket P true (bytes ++ rest) = frontPacket P true bytes := by
  have hprefix : packetCodecPrefix P ≤ bytes.length := Nat.le_trans (Nat.le_add_right _ _) hlen
  have hannounced : announced P (bytes ++ rest) = announced P bytes := by
    have htake : announced P ((bytes ++ rest).take bytes.length) = announced P (bytes ++ rest) :=
      announced_take_of_le hprefix
    rw [← htake, List.take_left]
  have hpadding : PaddingSet P (bytes ++ rest) ↔ PaddingSet P bytes := by
    have hbyte : recordBitmap (bytes ++ rest) (packetCodecBitmapBytes P - 1) =
        recordBitmap bytes (packetCodecBitmapBytes P - 1) := by
      have hpos : 0 < packetCodecBitmapBytes P := by cases P <;> decide
      have hlt : packetCodecHeaderBytes + (packetCodecBitmapBytes P - 1) < bytes.length := by
        unfold packetCodecPrefix at hprefix
        omega
      unfold recordBitmap bytesAt
      rw [List.getD_eq_getElem?_getD, List.getD_eq_getElem?_getD, List.getElem?_drop, List.getElem?_drop,
        List.getElem?_append_left hlt]
    rw [paddingSet_iff, paddingSet_iff]
    exact and_congr_right fun _ => by rw [hbyte]
  unfold frontPacket
  by_cases hpad : PaddingSet P bytes
  · rw [if_pos ⟨rfl, hpadding.mpr hpad⟩, if_pos ⟨rfl, hpad⟩]
  · have hsize : packetCodecSizeFor P (announced P bytes) ≤ bytes.length :=
      Nat.le_trans (Nat.add_le_add_left (valueBytes_announced_le hpad) _) hlen
    have hdecode : packetCodecDecode P (bytes ++ rest) = packetCodecDecode P bytes := by
      have hwide : packetCodecSizeFor P (announced P (bytes ++ rest)) ≤ (bytes ++ rest).length := by
        rw [hannounced, List.length_append]
        exact Nat.le_trans hsize (Nat.le_add_right _ _)
      rw [← packetCodecDecode_take hwide, hannounced, List.take_append_of_le_length hsize, packetCodecDecode_take hsize]
    rw [if_neg fun h => hpad (hpadding.mp h.2), if_neg fun h => hpad h.2, hdecode]

end Prefix

/-! ## All that can be read -/

section All

variable {α : Type*}

/-- What `next` finds at the front of some bytes, one after the other, until it finds nothing. -/
def takeRecords (next : List Byte → Option (α × Nat)) : Nat → List Byte → List α
  | 0, _ => []
  | fuel + 1, bytes =>
    match next bytes with
    | none => []
    | some (a, n) => a :: takeRecords next fuel (bytes.drop n)

/-- A raw packet at the front of some bytes. -/
def frontRaw {P : Puzzle} (layout : RawLayout P) (bytes : List Byte) : Option (Packet P × Nat) :=
  if bytes.length < layout.size then none else some (layout.read (bytes.take layout.size), layout.size)

variable {next : List Byte → Option (α × Nat)} (hnext : ∀ bytes a n, next bytes = some (a, n) → 0 < n ∧ n ≤ bytes.length)

include hnext in
/-- More turns than bytes find nothing more. -/
theorem takeRecords_of_le {fuel : Nat} {bytes : List Byte} (h : bytes.length ≤ fuel) :
    takeRecords next fuel bytes = takeRecords next bytes.length bytes := by
  induction fuel using Nat.strong_induction_on generalizing bytes with
  | _ fuel ih =>
    cases fuel with
    | zero =>
      rw [Nat.le_zero.mp h]
    | succ fuel =>
      cases hlen : bytes.length with
      | zero =>
        have hnone : next bytes = none := by
          by_contra hsome
          obtain ⟨⟨a, n⟩, hsome⟩ := Option.ne_none_iff_exists'.mp hsome
          obtain ⟨hpos, hle⟩ := hnext bytes a n hsome
          omega
        rw [takeRecords, takeRecords, hnone]
      | succ m =>
        rw [takeRecords, takeRecords]
        cases hsome : next bytes with
        | none => rfl
        | some r =>
          obtain ⟨hpos, hle⟩ := hnext bytes r.1 r.2 hsome
          have hdrop : (bytes.drop r.2).length ≤ m := by
            rw [List.length_drop]
            omega
          dsimp only
          rw [ih fuel (Nat.lt_succ_self fuel) (by omega)]
          by_cases hm : m = fuel
          · rw [hm, ih fuel (Nat.lt_succ_self fuel) (by omega)]
          · rw [ih m (by omega) hdrop]

variable (next) in
/-- All that `next` finds in some bytes. -/
def readAll (bytes : List Byte) : List α := takeRecords next bytes.length bytes

theorem readAll_of_none {bytes : List Byte} (h : next bytes = none) : readAll next bytes = [] := by
  unfold readAll
  cases bytes.length with
  | zero => rfl
  | succ m => rw [takeRecords, h]

include hnext in
theorem readAll_of_some {bytes : List Byte} {a : α} {n : Nat} (h : next bytes = some (a, n)) :
    readAll next bytes = a :: readAll next (bytes.drop n) := by
  obtain ⟨hpos, hle⟩ := hnext bytes a n h
  have hdrop : (bytes.drop n).length ≤ bytes.length - 1 := by
    rw [List.length_drop]
    omega
  unfold readAll
  rw [← takeRecords_of_le hnext hdrop]
  obtain ⟨m, hm⟩ := Nat.exists_eq_add_of_le' (Nat.lt_of_lt_of_le hpos hle)
  rw [hm, takeRecords, h, Nat.add_sub_cancel]

end All

/-! ## The front of a file -/

section Front

variable {P : Puzzle} {layout : RawLayout P} {format : BackupFormat} {f : ByteStream}

/-- The packet at the front of a file of some format. -/
def frontOf (layout : RawLayout P) (format : BackupFormat) (strict : Bool) : List Byte → Option (Packet P × Nat) :=
  match format with
  | .packed => frontPacket P strict
  | .legacy => frontRaw layout

theorem frontOf_length {strict : Bool} (bytes : List Byte) (p : Packet P) (n : Nat)
    (h : frontOf layout format strict bytes = some (p, n)) : 0 < n ∧ n ≤ bytes.length := by
  cases format with
  | packed => exact frontPacket_length h
  | legacy =>
    unfold frontOf frontRaw at h
    dsimp only at h
    split at h
    · exact absurd h (by simp)
    · rename_i hlen
      obtain ⟨-, rfl⟩ := Prod.mk.inj (Option.some.inj h)
      exact ⟨layout.size_pos, Nat.not_lt.mp hlen⟩

/-- What is read from a file is what is at its front. -/
theorem stockFileReadPacket_front (hsafe : stockFileReadPacket layout format f ≠ .overflow) :
    (∀ p n, frontOf layout format false f.bytes = some (p, n) →
        stockFileReadPacket layout format f = .ok (some (p, { f with bytes := f.bytes.drop n }))) ∧
      (frontOf layout format false f.bytes = none →
        stockFileReadPacket layout format f = .error ∨ stockFileReadPacket layout format f = .ok none) := by
  cases format with
  | packed =>
    have hfread : packetCodecFread P f.bytes f.fails ≠ .overflow := by
      intro hover
      unfold stockFileReadPacket at hsafe
      dsimp only at hsafe
      rw [hover] at hsafe
      exact hsafe rfl
    obtain ⟨hsome, hnone⟩ := packetCodecFread_front hfread
    unfold stockFileReadPacket frontOf
    dsimp only
    refine ⟨fun p n hfront => ?_, fun hfront => ?_⟩
    · rw [hsome p n hfront, packetCodecDecode_length (frontPacket_eq_some.mp hfront).1]
    · rcases hnone hfront with herror | ⟨hend, -⟩
      · rw [herror]
        exact .inl rfl
      · rw [hend]
        exact .inr rfl
  | legacy =>
    unfold stockFileReadPacket frontOf frontRaw
    dsimp only
    refine ⟨fun p n hfront => ?_, fun hfront => ?_⟩
    · split at hfront
      · exact absurd hfront (by simp)
      · rename_i hlen
        obtain ⟨rfl, rfl⟩ := Prod.mk.inj (Option.some.inj hfront)
        rw [if_neg hlen]
    · split at hfront
      · rename_i hlen
        rw [if_pos hlen]
        exact .inr rfl
      · exact absurd hfront (by simp)

variable (P) in
/-- The places of a compact body where the reader of single records looks for one. -/
inductive FreadPlace : List Byte → List Byte → Prop where
  | here (bytes : List Byte) : FreadPlace bytes bytes
  | next {bytes rest : List Byte} {p : Packet P} {n : Nat} (front : frontPacket P false bytes = some (p, n))
      (place : FreadPlace (bytes.drop n) rest) : FreadPlace bytes rest

variable (P) in
/-- The codec is safe wherever a body is read; raw packets have no bitmap. -/
def BodyReadable (format : BackupFormat) (bytes : List Byte) : Prop :=
  format = .packed → ∀ rest, FreadPlace P bytes rest → CodecReadable P rest

theorem bodyReadable_of_multiple (h : P.eternParts % 8 = 0) (bytes : List Byte) : BodyReadable P format bytes :=
  fun _ rest _ => (codecSafe_of_multiple h rest).readable

/-- No read of such a body overruns its buffer. -/
theorem BodyReadable.ne_overflow (h : BodyReadable P format f.bytes) : stockFileReadPacket layout format f ≠ .overflow := by
  intro hover
  unfold stockFileReadPacket at hover
  cases format with
  | packed =>
    dsimp only at hover
    split at hover
    · rename_i hfread
      exact (h rfl _ (.here f.bytes)).safe.fread f.fails hfread
    · exact absurd hover (by simp)
    · exact absurd hover (by simp)
    · exact absurd hover (by simp)
  | legacy =>
    dsimp only at hover
    split at hover <;> exact absurd hover (by simp)

/-- What is behind the first record of such a body is one again. -/
theorem BodyReadable.drop {bytes : List Byte} (h : BodyReadable P format bytes) {p : Packet P} {n : Nat}
    (hfront : frontOf layout format false bytes = some (p, n)) : BodyReadable P format (bytes.drop n) := by
  rintro rfl rest hplace
  exact h rfl rest (.next hfront hplace)

end Front

/-! ## The flag of a record -/

section Flag

variable {P : Puzzle} {p q : Packet P} {record : List Byte} {n : Nat}

/-- The flag a packet is decoded with. -/
theorem packetCodecDecode_checked (h : packetCodecDecode P record = .ok (q, n)) :
    q.checked = if record.getD 2 0 = 1#8 then 1 else 0 := by
  rw [packetCodecDecode_eq] at h
  split at h
  · exact absurd h (by simp)
  · split at h
    · exact absurd h (by simp)
    · split at h
      · exact absurd h (by simp)
      · obtain ⟨rfl, -⟩ := Prod.mk.inj (Outcome.ok.inj h)
        rfl

/-- A decoded packet has a byte of 0 or 1. -/
theorem packetCodecDecode_byte (h : packetCodecDecode P record = .ok (q, n)) : q.checked = 0 ∨ q.checked = 1 := by
  rw [packetCodecDecode_checked h]
  split
  · exact .inr rfl
  · exact .inl rfl

/-- The flag a packet is encoded with. -/
theorem recordOf_flag (h : recordOf p = some record) : record.getD 2 0 = if p.checked ≠ 0 then 1#8 else 0#8 := by
  unfold recordOf packetCodecEncode at h
  dsimp only at h
  split at h
  · exact absurd h (by simp)
  · split at h
    · exact absurd h (by simp)
    · obtain rfl := Option.some.inj h
      rfl

end Flag
