-- SUMMARY: Blocks of records and the frames that hold them on disk: packing, and reading frames forwards and backwards.
import EternityII.Stock.PacketCodec

/-!
# Blocks and frames

A block of the RAM tier is a run of compact records, at most 64 KiB of them, kept compressed when
that pays. On disk a block is a *frame*: a header, the stored bytes, a trailer. A segment is read
from its start by the headers and from its logical top by the trailers.
-/

/-! ## Blocks -/

/-- `STOCK_TIER_BLOCK_BYTES`. -/
def stockTierBlockBytes : Nat := 64 * 1024

/-- `STOCK_TIER_CODEC_RAW`. -/
def stockTierCodecRaw : Nat := 0

/-- `STOCK_TIER_CODEC_ZSTD`. -/
def stockTierCodecZstd : Nat := 1

/-- The compressor: `tier_zstd_compress` and `tier_zstd_decompress`, which also asks for the size. -/
structure Zstd where
  compress : List Byte → Option (List Byte)
  decompress : List Byte → Nat → Option (List Byte)

/-- What is compressed comes back. -/
structure Zstd.Lawful (zstd : Zstd) : Prop where
  decompress_compress : ∀ raw z, zstd.compress raw = some z → zstd.decompress z raw.length = some raw
  length_decompress : ∀ z n raw, zstd.decompress z n = some raw → raw.length = n

/-- How the program is built and what new blocks are stored as: `ETII_ZSTD`, and whether `g_codec`
is `STOCK_TIER_CODEC_ZSTD`. -/
structure TierCodec where
  zstd : Option Zstd
  compresses : Bool

section Records

variable (P : Puzzle)

/-- `stock_tier_record_len`. -/
def stockTierRecordLen (bytes : List Byte) : Nat :=
  if bytes.length < packetCodecPrefix P then 0
  else
    let len := packetCodecPrefix P + packetCodecValueBytes P
      (bitmapPlaced P (bytesAt (bytes.drop packetCodecHeaderBytes)))
    if len ≤ bytes.length then len else 0

/-- The records that pave some bytes. -/
def tierRecordsLoop : Nat → List Byte → Option (List (List Byte))
  | _, [] => some []
  | 0, _ => none
  | fuel + 1, bytes =>
    let len := stockTierRecordLen P bytes
    if len = 0 then none
    else (tierRecordsLoop fuel (bytes.drop len)).map (bytes.take len :: ·)

/-- The records of a block. -/
def tierRecords (raw : List Byte) : Option (List (List Byte)) := tierRecordsLoop P raw.length raw

/-- `stock_tier_count_records`. -/
def stockTierCountRecords (raw : List Byte) : Option Nat :=
  if raw.length = 0 ∨ raw.length > stockTierBlockBytes then none
  else (tierRecords P raw).map List.length

/-- `ZSTD_compressBound`. -/
def zstdCompressBound (n : Nat) : Nat := n + n / 2 ^ 8 + if n < 2 ^ 17 then (2 ^ 17 - n) / 2 ^ 11 else 0

/-- `stock_tier_pack_bound`. -/
def stockTierPackBound (tier : TierCodec) (rawBytes : Nat) : Nat :=
  if tier.zstd.isSome ∧ tier.compresses then max (zstdCompressBound rawBytes) rawBytes else rawBytes

/-- The loop of `raw_records_clear_checked`. -/
def clearCheckedLoop : Nat → List Byte → List Byte
  | 0, raw => raw
  | fuel + 1, raw =>
    let len := stockTierRecordLen P raw
    if len = 0 then raw
    else packetCodecPokeChecked (raw.take len) false ++ clearCheckedLoop fuel (raw.drop len)

/-- `raw_records_clear_checked`. -/
def rawRecordsClearChecked (raw : List Byte) : List Byte := clearCheckedLoop P raw.length raw

/-- `stock_tier_pack` into `cap` bytes: the codec, the stored bytes and the number of records. -/
def stockTierPack (tier : TierCodec) (raw : List Byte) (cap : Nat) : Option (Nat × List Byte × Nat) :=
  match stockTierCountRecords P raw with
  | none => none
  | some n =>
    let plain := if cap < raw.length then none else some (stockTierCodecRaw, raw, n)
    match tier.zstd with
    | none => plain
    | some zstd =>
      if tier.compresses then
        match zstd.compress raw with
        | none => plain
        | some z =>
          if 0 < z.length ∧ z.length < raw.length ∧ z.length ≤ cap then some (stockTierCodecZstd, z, n)
          else plain
      else plain

/-- `stock_tier_unpack` into a block's buffer. -/
def stockTierUnpack (tier : TierCodec) (codec : Nat) (stored : List Byte) (rawBytes records : Nat) :
    Option (List Byte) :=
  if rawBytes = 0 ∨ rawBytes > stockTierBlockBytes then none
  else
    let out :=
      if codec = stockTierCodecRaw then (if stored.length ≠ rawBytes then none else some stored)
      else
        match tier.zstd with
        | none => none
        | some zstd => if codec ≠ stockTierCodecZstd then none else zstd.decompress stored rawBytes
    match out with
    | none => none
    | some raw => if stockTierCountRecords P raw = some records then some raw else none

variable {P} {tier : TierCodec} {raw : List Byte} {cap codec n : Nat} {stored : List Byte}

/-- What a pack stores: the block itself, or something shorter that comes back as the block. -/
theorem stockTierPack_spec (h : stockTierPack P tier raw cap = some (codec, stored, n)) :
    stockTierCountRecords P raw = some n ∧ ((codec = stockTierCodecRaw ∧ stored = raw) ∨
      (codec = stockTierCodecZstd ∧ 0 < stored.length ∧ stored.length < raw.length ∧
        ∃ zstd, tier.zstd = some zstd ∧ zstd.compress raw = some stored)) := by
  unfold stockTierPack at h
  split at h
  · exact absurd h (by simp)
  · rename_i k hcount
    have hplain : (if cap < raw.length then none else some (stockTierCodecRaw, raw, k)) = some (codec, stored, n) →
        stockTierCountRecords P raw = some n ∧ codec = stockTierCodecRaw ∧ stored = raw := by
      intro hr
      split at hr
      · exact absurd hr (by simp)
      · obtain ⟨rfl, rfl, rfl⟩ : stockTierCodecRaw = codec ∧ raw = stored ∧ k = n := by simpa using hr
        exact ⟨hcount, rfl, rfl⟩
    dsimp only at h
    split at h
    · exact (hplain h).imp id .inl
    · rename_i zstd hzstd
      split at h
      · split at h
        · exact (hplain h).imp id .inl
        · rename_i z hz
          split at h
          · rename_i hfits
            obtain ⟨rfl, rfl, rfl⟩ : stockTierCodecZstd = codec ∧ z = stored ∧ k = n := by simpa using h
            exact ⟨hcount, .inr ⟨rfl, hfits.1, hfits.2.1, zstd, hzstd, hz⟩⟩
          · exact (hplain h).imp id .inl
      · exact (hplain h).imp id .inl

/-- Every record takes a byte at least. -/
theorem length_tierRecordsLoop {fuel : Nat} {bytes : List Byte} {records : List (List Byte)}
    (h : tierRecordsLoop P fuel bytes = some records) :
    records.length ≤ bytes.length ∧ (bytes ≠ [] → 0 < records.length) := by
  induction fuel generalizing bytes records with
  | zero =>
    cases bytes with
    | nil =>
      obtain rfl : [] = records := by simpa [tierRecordsLoop] using h
      exact ⟨Nat.le_refl 0, fun hne => absurd rfl hne⟩
    | cons b bytes => exact absurd h (by simp [tierRecordsLoop])
  | succ fuel ih =>
    cases bytes with
    | nil =>
      obtain rfl : [] = records := by simpa [tierRecordsLoop] using h
      exact ⟨Nat.le_refl 0, fun hne => absurd rfl hne⟩
    | cons b bytes =>
      rw [tierRecordsLoop] at h
      split at h
      · exact absurd h (by simp)
      · obtain ⟨rest, hrest, rfl⟩ := Option.map_eq_some_iff.mp h
        have := (ih hrest).1
        simp only [List.length_drop, List.length_cons] at this ⊢
        exact ⟨by omega, fun _ => Nat.succ_pos _⟩
      · simp

/-- A block with records has bytes, and no more than a block holds. -/
theorem size_of_countRecords (h : stockTierCountRecords P raw = some n) :
    0 < raw.length ∧ raw.length ≤ stockTierBlockBytes ∧ 0 < n ∧ n ≤ raw.length := by
  unfold stockTierCountRecords at h
  split at h
  · exact absurd h (by simp)
  · obtain ⟨records, hrecords, rfl⟩ := Option.map_eq_some_iff.mp h
    obtain ⟨hle, hpos⟩ := length_tierRecordsLoop hrecords
    have := hpos (List.ne_nil_of_length_pos (by omega))
    omega

/-- A packed block is unpacked to the same bytes. -/
theorem stockTierUnpack_pack (hlaw : ∀ zstd, tier.zstd = some zstd → zstd.Lawful)
    (h : stockTierPack P tier raw cap = some (codec, stored, n)) :
    stockTierUnpack P tier codec stored raw.length n = some raw := by
  obtain ⟨hcount, hstored⟩ := stockTierPack_spec h
  obtain ⟨hpos, hle, -, -⟩ := size_of_countRecords hcount
  rw [stockTierUnpack, if_neg (by omega)]
  rcases hstored with ⟨rfl, rfl⟩ | ⟨rfl, -, -, zstd, hzstd, hz⟩
  · simp [hcount]
  · have hback := (hlaw zstd hzstd).decompress_compress raw stored hz
    simp [hzstd, hback, hcount, stockTierCodecZstd, stockTierCodecRaw]

end Records

/-! ## Frames -/

/-- `SPILL_FRAME_HEADER_BYTES`. -/
def spillFrameHeaderBytes : Nat := 20

/-- `SPILL_FRAME_TRAILER_BYTES`. -/
def spillFrameTrailerBytes : Nat := 12

/-- `SPILL_FRAME_OVERHEAD`. -/
def spillFrameOverhead : Nat := spillFrameHeaderBytes + spillFrameTrailerBytes

/-- `k_frame_head_magic`: ETSB. -/
def frameHeadMagic : List Byte := [0x45#8, 0x54#8, 0x53#8, 0x42#8]

/-- `k_frame_tail_magic`: ETSE. -/
def frameTailMagic : List Byte := [0x45#8, 0x54#8, 0x53#8, 0x45#8]

/-- `spill_frame_t`. -/
structure SpillFrame where
  codec : Nat
  records : Nat
  rawBytes : Nat
  storedBytes : Nat
  deriving DecidableEq, Repr

/-- A frame with its stored bytes. -/
structure StoredFrame where
  info : SpillFrame
  stored : List Byte
  deriving DecidableEq

/-- `spill_put_u32`. -/
def spillPutU32 (v : Nat) : List Byte :=
  [BitVec.ofNat 8 v, BitVec.ofNat 8 (v / 2 ^ 8), BitVec.ofNat 8 (v / 2 ^ 16), BitVec.ofNat 8 (v / 2 ^ 24)]

/-- `spill_get_u32`. -/
def spillGetU32 (bytes : List Byte) : Nat :=
  (bytes.getD 0 0).toNat + 2 ^ 8 * (bytes.getD 1 0).toNat + 2 ^ 16 * (bytes.getD 2 0).toNat +
    2 ^ 24 * (bytes.getD 3 0).toNat

/-- `spill_frame_header`. -/
def spillFrameHeader (fr : SpillFrame) : List Byte :=
  frameHeadMagic ++ [BitVec.ofNat 8 fr.codec, 0#8, 0#8, 0#8] ++ spillPutU32 fr.records ++
    spillPutU32 fr.rawBytes ++ spillPutU32 fr.storedBytes

/-- `spill_frame_trailer`. -/
def spillFrameTrailer (fr : SpillFrame) : List Byte :=
  spillPutU32 fr.records ++ spillPutU32 fr.storedBytes ++ frameTailMagic

/-- `spill_frame_parse_header`. -/
def spillFrameParseHeader (h : List Byte) : Option SpillFrame :=
  if h.take 4 ≠ frameHeadMagic ∨ h.getD 5 0 ≠ 0 ∨ h.getD 6 0 ≠ 0 ∨ h.getD 7 0 ≠ 0 then none
  else
    let fr : SpillFrame := ⟨(h.getD 4 0).toNat, spillGetU32 (h.drop 8), spillGetU32 (h.drop 12),
      spillGetU32 (h.drop 16)⟩
    if (fr.codec ≠ stockTierCodecRaw ∧ fr.codec ≠ stockTierCodecZstd) ∨ fr.records = 0 ∨ fr.rawBytes = 0 ∨
        fr.rawBytes > stockTierBlockBytes ∨ fr.storedBytes = 0 ∨ fr.storedBytes > fr.rawBytes then none
    else some fr

/-- `spill_frame_check_trailer`. -/
def spillFrameCheckTrailer (t : List Byte) (fr : SpillFrame) : Bool :=
  spillGetU32 t == fr.records && spillGetU32 (t.drop 4) == fr.storedBytes && (t.drop 8).take 4 == frameTailMagic

/-- `spill_frame_bytes`. -/
def spillFrameBytes (fr : SpillFrame) : Nat := spillFrameOverhead + fr.storedBytes

/-- The bytes of a frame. -/
def StoredFrame.bytes (fr : StoredFrame) : List Byte :=
  spillFrameHeader fr.info ++ fr.stored ++ spillFrameTrailer fr.info

/-- The frames `spill_append_frames_locked` is given: what `spill_frame_parse_header` asks for. -/
structure StoredFrame.Valid (fr : StoredFrame) : Prop where
  codec : fr.info.codec = stockTierCodecRaw ∨ fr.info.codec = stockTierCodecZstd
  records_pos : 0 < fr.info.records
  records_lt : fr.info.records < 2 ^ 32
  rawBytes_pos : 0 < fr.info.rawBytes
  rawBytes_le : fr.info.rawBytes ≤ stockTierBlockBytes
  stored_pos : 0 < fr.info.storedBytes
  stored_le : fr.info.storedBytes ≤ fr.info.rawBytes
  length : fr.stored.length = fr.info.storedBytes

/-- `spill_for_each_stored_frame` on the bytes of a file from the current position on, when
`remaining` bytes are left to the limit: the frames handed over, and whether it got to the end. -/
def storedFramesLoop : Nat → List Byte → Nat → List StoredFrame × Bool
  | _, _, 0 => ([], true)
  | 0, _, _ + 1 => ([], false)
  | fuel + 1, bytes, remaining =>
    let h := bytes.take spillFrameHeaderBytes
    if remaining < spillFrameOverhead ∨ h.length ≠ spillFrameHeaderBytes then ([], false)
    else
      match spillFrameParseHeader h with
      | none => ([], false)
      | some fr =>
        let rest := (bytes.drop spillFrameHeaderBytes).take (spillFrameBytes fr - spillFrameHeaderBytes)
        if spillFrameBytes fr > remaining ∨ rest.length ≠ spillFrameBytes fr - spillFrameHeaderBytes then
          ([], false)
        else if spillFrameCheckTrailer (rest.drop fr.storedBytes) fr then
          let next := storedFramesLoop fuel (bytes.drop (spillFrameBytes fr)) (remaining - spillFrameBytes fr)
          (⟨fr, rest.take fr.storedBytes⟩ :: next.1, next.2)
        else ([], false)

/-- `spill_for_each_stored_frame` on a file of these bytes, up to `limit` or to its end. -/
def spillForEachStoredFrame (content : List Byte) (limit : Option Nat) : List StoredFrame × Bool :=
  storedFramesLoop (limit.getD content.length) content (limit.getD content.length)

/-- The records of some frames. -/
def framesRecords (frames : List StoredFrame) : Nat := (frames.map fun fr => fr.info.records).sum

/-- The bytes of some frames. -/
def framesBytes (frames : List StoredFrame) : List Byte := frames.flatMap StoredFrame.bytes

/-- `spill_scan_segment`: the records counted, and whether the frames end at the limit. It reads the
headers and trailers that `spill_for_each_stored_frame` reads. -/
def spillScanSegment (content : List Byte) (limit : Option Nat) : Nat × Bool :=
  let frames := spillForEachStoredFrame content limit
  (framesRecords frames.1, frames.2)

/-- `spill_walk_frames` on a buffer: the raw bytes of its frames, `none` where one does not unpack. -/
def spillWalkFrames (P : Puzzle) (tier : TierCodec) (buf : List Byte) : Option (List (List Byte)) :=
  let frames := spillForEachStoredFrame buf none
  if frames.2 then
    frames.1.mapM fun fr => stockTierUnpack P tier fr.info.codec fr.stored fr.info.rawBytes fr.info.records
  else none

/-- The loop of `stock_spill_reload` back from trailer to trailer: where the frames to take start
and how many records they hold, `none` when a trailer is not one. -/
def spillBackLoop (content : List Byte) (maxPackets : Nat) : Nat → Nat → Nat → Option (Nat × Nat)
  | 0, start, take => some (start, take)
  | fuel + 1, start, take =>
    if ¬ (start > 0 ∧ (take = 0 ∨ take < maxPackets)) then some (start, take)
    else
      let t := (content.drop (start - spillFrameTrailerBytes)).take spillFrameTrailerBytes
      if start < spillFrameOverhead ∨ t.length ≠ spillFrameTrailerBytes ∨ (t.drop 8).take 4 ≠ frameTailMagic then
        none
      else
        let records := spillGetU32 t
        let stored := spillGetU32 (t.drop 4)
        if start < spillFrameOverhead + stored ∨ records = 0 then none
        else if take > 0 ∧ take + records > maxPackets then some (start, take)
        else spillBackLoop content maxPackets fuel (start - spillFrameOverhead - stored) (take + records)

/-! ## Reading frames back -/

section Numbers

variable {v : Nat}

theorem spillGetU32_put (hv : v < 2 ^ 32) (rest : List Byte) : spillGetU32 (spillPutU32 v ++ rest) = v := by
  show (BitVec.ofNat 8 v).toNat + 2 ^ 8 * (BitVec.ofNat 8 (v / 2 ^ 8)).toNat +
    2 ^ 16 * (BitVec.ofNat 8 (v / 2 ^ 16)).toNat + 2 ^ 24 * (BitVec.ofNat 8 (v / 2 ^ 24)).toNat = v
  simp only [BitVec.toNat_ofNat]
  omega

end Numbers

section Frames

variable {fr : StoredFrame} {frames pre suf : List StoredFrame} {rest : List Byte}

@[simp] theorem length_spillFrameHeader (fr : SpillFrame) :
    (spillFrameHeader fr).length = spillFrameHeaderBytes := rfl

@[simp] theorem length_spillFrameTrailer (fr : SpillFrame) :
    (spillFrameTrailer fr).length = spillFrameTrailerBytes := rfl

/-- A packed block makes a frame. -/
theorem StoredFrame.Valid.of_pack {P : Puzzle} {tier : TierCodec} {raw stored : List Byte} {cap codec n : Nat}
    (h : stockTierPack P tier raw cap = some (codec, stored, n)) :
    StoredFrame.Valid ⟨⟨codec, n, raw.length, stored.length⟩, stored⟩ := by
  obtain ⟨hcount, hstored⟩ := stockTierPack_spec h
  obtain ⟨hpos, hle, hrecords, hfit⟩ := size_of_countRecords hcount
  have hblock : stockTierBlockBytes < 2 ^ 32 := by decide
  have hlt : n < 2 ^ 32 := by omega
  rcases hstored with ⟨rfl, rfl⟩ | ⟨rfl, hstored, hless, -⟩
  · exact ⟨.inl rfl, hrecords, hlt, hpos, hle, hpos, Nat.le_refl _, rfl⟩
  · exact ⟨.inr rfl, hrecords, hlt, hpos, hle, hstored, Nat.le_of_lt hless, rfl⟩

theorem StoredFrame.Valid.storedBytes_lt (h : fr.Valid) : fr.info.storedBytes < 2 ^ 32 := by
  have := h.stored_le
  have := h.rawBytes_le
  unfold stockTierBlockBytes at this
  omega

theorem StoredFrame.Valid.length_bytes (h : fr.Valid) : fr.bytes.length = spillFrameBytes fr.info := by
  unfold StoredFrame.bytes spillFrameBytes spillFrameOverhead
  rw [List.length_append, List.length_append, length_spillFrameHeader, length_spillFrameTrailer, h.length]
  omega

theorem StoredFrame.Valid.parseHeader (h : fr.Valid) :
    spillFrameParseHeader (spillFrameHeader fr.info) = some fr.info := by
  have hcodec : ((spillFrameHeader fr.info).getD 4 0).toNat = fr.info.codec := by
    show (BitVec.ofNat 8 fr.info.codec).toNat = fr.info.codec
    rw [BitVec.toNat_ofNat]
    have := h.codec
    unfold stockTierCodecRaw stockTierCodecZstd at this
    omega
  have hraw : fr.info.rawBytes < 2 ^ 32 := by
    have := h.rawBytes_le
    unfold stockTierBlockBytes at this
    omega
  have hrecords : spillGetU32 ((spillFrameHeader fr.info).drop 8) = fr.info.records :=
    spillGetU32_put h.records_lt _
  have hrawBytes : spillGetU32 ((spillFrameHeader fr.info).drop 12) = fr.info.rawBytes :=
    spillGetU32_put hraw _
  have hstored : spillGetU32 ((spillFrameHeader fr.info).drop 16) = fr.info.storedBytes :=
    spillGetU32_put h.storedBytes_lt []
  unfold spillFrameParseHeader
  simp only [hcodec, hrecords, hrawBytes, hstored]
  rw [if_neg (by rintro (h | h | h | h) <;> exact h rfl), if_neg]
  have := h.records_pos
  have := h.rawBytes_pos
  have := h.rawBytes_le
  have := h.stored_pos
  have := h.stored_le
  have := h.codec
  omega

theorem StoredFrame.Valid.checkTrailer (h : fr.Valid) :
    spillFrameCheckTrailer (spillFrameTrailer fr.info) fr.info = true := by
  have hrecords : spillGetU32 (spillFrameTrailer fr.info) = fr.info.records :=
    spillGetU32_put h.records_lt (spillPutU32 fr.info.storedBytes ++ frameTailMagic)
  have hstored : spillGetU32 ((spillFrameTrailer fr.info).drop 4) = fr.info.storedBytes :=
    spillGetU32_put h.storedBytes_lt _
  have hmagic : ((spillFrameTrailer fr.info).drop 8).take 4 = frameTailMagic := rfl
  rw [spillFrameCheckTrailer, hrecords, hstored, hmagic]
  simp

@[simp] theorem framesBytes_nil : framesBytes [] = [] := rfl

@[simp] theorem framesBytes_cons : framesBytes (fr :: frames) = fr.bytes ++ framesBytes frames := rfl

@[simp] theorem framesBytes_append : framesBytes (pre ++ suf) = framesBytes pre ++ framesBytes suf :=
  List.flatMap_append

@[simp] theorem framesRecords_nil : framesRecords [] = 0 := rfl

@[simp] theorem framesRecords_cons : framesRecords (fr :: frames) = fr.info.records + framesRecords frames := rfl

@[simp] theorem framesRecords_append : framesRecords (pre ++ suf) = framesRecords pre + framesRecords suf := by
  unfold framesRecords
  rw [List.map_append, List.sum_append]

theorem framesRecords_pos (h : ∀ fr ∈ frames, fr.Valid) (hne : frames ≠ []) : 0 < framesRecords frames := by
  cases frames with
  | nil => exact absurd rfl hne
  | cons fr frames =>
    have := (h fr List.mem_cons_self).records_pos
    rw [framesRecords_cons]
    omega

theorem framesBytes_length_pos (h : ∀ fr ∈ frames, fr.Valid) (hne : frames ≠ []) :
    0 < (framesBytes frames).length := by
  cases frames with
  | nil => exact absurd rfl hne
  | cons fr frames =>
    rw [framesBytes_cons, List.length_append, (h fr List.mem_cons_self).length_bytes]
    unfold spillFrameBytes spillFrameOverhead spillFrameHeaderBytes
    omega

theorem framesBytes_eq_nil (h : ∀ fr ∈ frames, fr.Valid) : (framesBytes frames).length = 0 ↔ frames = [] := by
  constructor
  · intro hzero
    by_contra hne
    exact absurd (framesBytes_length_pos h hne) (by omega)
  · rintro rfl
    rfl

/-- Frames are read back from their bytes, whatever follows them. -/
theorem storedFramesLoop_framesBytes {fuel : Nat} (h : ∀ fr ∈ frames, fr.Valid)
    (hfuel : frames.length ≤ fuel) :
    storedFramesLoop fuel (framesBytes frames ++ rest) (framesBytes frames).length = (frames, true) := by
  induction frames generalizing fuel with
  | nil => cases fuel <;> rfl
  | cons fr frames ih =>
    have hfr := h fr List.mem_cons_self
    obtain ⟨fuel, rfl⟩ : ∃ k, fuel = k + 1 := ⟨fuel - 1, by rw [List.length_cons] at hfuel; omega⟩
    have hlen := hfr.length_bytes
    have hbytes : spillFrameBytes fr.info =
        spillFrameHeaderBytes + (fr.info.storedBytes + spillFrameTrailerBytes) := by
      unfold spillFrameBytes spillFrameOverhead
      omega
    have hoverhead : spillFrameOverhead ≤ spillFrameBytes fr.info := Nat.le_add_right _ _
    have hpos : 0 < spillFrameHeaderBytes := by decide
    have hsplit : fr.bytes ++ framesBytes frames ++ rest = spillFrameHeader fr.info ++
        (fr.stored ++ spillFrameTrailer fr.info ++ (framesBytes frames ++ rest)) := by
      simp only [StoredFrame.bytes, List.append_assoc]
    have hhead : (fr.bytes ++ framesBytes frames ++ rest).take spillFrameHeaderBytes = spillFrameHeader fr.info := by
      rw [hsplit]
      exact List.take_left' rfl
    have hbody : (fr.bytes ++ framesBytes frames ++ rest).drop spillFrameHeaderBytes =
        fr.stored ++ spillFrameTrailer fr.info ++ (framesBytes frames ++ rest) := by
      rw [hsplit]
      exact List.drop_left' rfl
    have hrest : ((fr.bytes ++ framesBytes frames ++ rest).drop spillFrameHeaderBytes).take
        (spillFrameBytes fr.info - spillFrameHeaderBytes) = fr.stored ++ spillFrameTrailer fr.info := by
      rw [hbody]
      apply List.take_left'
      rw [List.length_append, hfr.length, length_spillFrameTrailer]
      omega
    have hdrop : (fr.bytes ++ framesBytes frames ++ rest).drop (spillFrameBytes fr.info) =
        framesBytes frames ++ rest := by
      rw [List.append_assoc]
      exact List.drop_left' hlen
    have hih := ih (fun fr' h' => h fr' (List.mem_cons_of_mem _ h')) (Nat.le_of_succ_le_succ hfuel)
    rw [framesBytes_cons, List.length_append, hlen]
    obtain ⟨k, hk⟩ : ∃ k, spillFrameBytes fr.info + (framesBytes frames).length = k + 1 :=
      ⟨spillFrameBytes fr.info + (framesBytes frames).length - 1, by omega⟩
    rw [hk, storedFramesLoop]
    dsimp only
    rw [hhead, hfr.parseHeader, if_neg (by rw [length_spillFrameHeader]; omega)]
    dsimp only
    rw [hrest, if_neg (by
      rw [List.length_append, hfr.length, length_spillFrameTrailer]
      omega), List.drop_left' hfr.length, List.take_left' hfr.length, if_pos hfr.checkTrailer, hdrop,
      show k + 1 - spillFrameBytes fr.info = (framesBytes frames).length by omega, hih]
    exact fun hzero => absurd hzero (Nat.succ_ne_zero k)

theorem length_le_framesBytes (h : ∀ fr ∈ frames, fr.Valid) : frames.length ≤ (framesBytes frames).length := by
  induction frames with
  | nil => exact Nat.le_refl _
  | cons fr frames ih =>
    have := ih fun fr' h' => h fr' (List.mem_cons_of_mem _ h')
    have hpos : 0 < (framesBytes [fr]).length :=
      framesBytes_length_pos (by simpa using h fr List.mem_cons_self) (by simp)
    rw [framesBytes_cons, framesBytes_nil, List.append_nil] at hpos
    rw [framesBytes_cons, List.length_append, List.length_cons]
    omega

/-- A file whose bytes begin with some frames gives them when it is read up to their end. -/
theorem spillForEachStoredFrame_framesBytes (h : ∀ fr ∈ frames, fr.Valid) (rest : List Byte) :
    spillForEachStoredFrame (framesBytes frames ++ rest) (some (framesBytes frames).length) = (frames, true) :=
  storedFramesLoop_framesBytes h (length_le_framesBytes h)

theorem spillForEachStoredFrame_all (h : ∀ fr ∈ frames, fr.Valid) :
    spillForEachStoredFrame (framesBytes frames) none = (frames, true) := by
  have := spillForEachStoredFrame_framesBytes h []
  rw [List.append_nil] at this
  exact this

/-- Going back from trailer to trailer stops at the start of a frame: it takes at least one frame
and more only while the budget lasts. -/
theorem spillBackLoop_framesBytes {maxPackets fuel : Nat} (h : ∀ fr ∈ frames, fr.Valid)
    (hfuel : frames.length < fuel) (take : Nat) :
    ∃ pre suf, frames = pre ++ suf ∧
      spillBackLoop (framesBytes frames ++ rest) maxPackets fuel (framesBytes frames).length take =
        some ((framesBytes pre).length, take + framesRecords suf) ∧
      (take = 0 → frames ≠ [] → suf ≠ []) := by
  induction frames using List.reverseRecOn generalizing fuel take rest with
  | nil =>
    refine ⟨[], [], rfl, ?_, fun _ hne => absurd rfl hne⟩
    obtain ⟨fuel, rfl⟩ : ∃ k, fuel = k + 1 := ⟨fuel - 1, by omega⟩
    rw [spillBackLoop, if_pos (by simp)]
    rfl
  | append_singleton frames fr ih =>
    have hfr := h fr (by simp)
    obtain ⟨fuel, rfl⟩ : ∃ k, fuel = k + 1 := ⟨fuel - 1, by omega⟩
    have hlen : (framesBytes (frames ++ [fr])).length = (framesBytes frames).length + spillFrameBytes fr.info := by
      rw [framesBytes_append, List.length_append, framesBytes_cons, framesBytes_nil, List.append_nil,
        hfr.length_bytes]
    have hbytes : spillFrameBytes fr.info = spillFrameOverhead + fr.info.storedBytes := rfl
    have hoverhead : spillFrameOverhead = spillFrameHeaderBytes + spillFrameTrailerBytes := rfl
    have hheader : spillFrameHeaderBytes = 20 := rfl
    have htrailer : ((framesBytes (frames ++ [fr]) ++ rest).drop
        ((framesBytes (frames ++ [fr])).length - spillFrameTrailerBytes)).take spillFrameTrailerBytes =
          spillFrameTrailer fr.info := by
      have hsplit : framesBytes (frames ++ [fr]) ++ rest =
          (framesBytes frames ++ (spillFrameHeader fr.info ++ fr.stored)) ++ (spillFrameTrailer fr.info ++ rest) := by
        rw [framesBytes_append, framesBytes_cons, framesBytes_nil, StoredFrame.bytes]
        simp only [List.append_assoc, List.nil_append]
      rw [hsplit, List.drop_left']
      · exact List.take_left' rfl
      · rw [hlen, List.length_append, List.length_append, length_spillFrameHeader, hfr.length]
        omega
    rw [spillBackLoop]
    split
    · exact ⟨frames ++ [fr], [], (List.append_nil _).symm, rfl, fun htake => by
        rename_i hstop
        exact absurd ⟨by omega, .inl htake⟩ hstop⟩
    · have hrecords : spillGetU32 (spillFrameTrailer fr.info) = fr.info.records :=
        spillGetU32_put hfr.records_lt (spillPutU32 fr.info.storedBytes ++ frameTailMagic)
      have hstored : spillGetU32 ((spillFrameTrailer fr.info).drop 4) = fr.info.storedBytes :=
        spillGetU32_put hfr.storedBytes_lt _
      have hpos := hfr.records_pos
      dsimp only
      rw [htrailer, hrecords, hstored, if_neg (by
        rintro (hshort | hshort | hmagic)
        · omega
        · exact hshort rfl
        · exact hmagic rfl), if_neg (by omega)]
      split
      · exact ⟨frames ++ [fr], [], (List.append_nil _).symm, rfl, fun htake => by omega⟩
      · have hfuel' : frames.length < fuel := by
          rw [List.length_append, List.length_singleton] at hfuel
          omega
        obtain ⟨pre, suf, hframes, hloop, -⟩ := ih (fun fr' h' => h fr' (List.mem_append_left _ h')) hfuel'
          (take + fr.info.records)
        refine ⟨pre, suf ++ [fr], by rw [hframes, List.append_assoc], ?_, fun _ _ => by simp⟩
        rw [show (framesBytes (frames ++ [fr])).length - spillFrameOverhead - fr.info.storedBytes =
          (framesBytes frames).length by omega]
        have hsame : framesBytes (frames ++ [fr]) ++ rest = framesBytes frames ++ (fr.bytes ++ rest) := by
          rw [framesBytes_append, framesBytes_cons, framesBytes_nil, List.append_nil, List.append_assoc]
        rw [hsame, hloop, framesRecords_append, framesRecords_cons, framesRecords_nil]
        congr 2
        omega

end Frames
