-- SUMMARY: The canonical form of a record: `packet_codec_canonicalize` writes what decoding and encoding it again would.
import EternityII.Stock.CodecSafety
import EternityII.Stock.LocalStock

/-!
# Canonical records

A record read from a file may have anything in its padding, in its flag and in its score.
`packet_codec_canonicalize` puts it right in place. What it leaves is the record that the encoder
writes for the packet that the decoder reads, so that a record may go from a file to a block without
ever being a packet.
-/

section Decoded

variable {P : Puzzle}

/-- Cells that are not read keep their value. -/
theorem decodeLoop_frame {bitmap plane : Words 8} {cells : List (Cell P)} {base grid : Grid P}
    {faceused faceused' : Words 16} {k : Nat}
    (h : decodeLoop bitmap plane (cells.map Cell.pos) base faceused k = some (grid, faceused')) {c : Cell P}
    (hc : c ∉ cells) : grid c = base c := by
  induction cells generalizing base faceused k with
  | nil =>
    obtain ⟨rfl, -⟩ : base = grid ∧ faceused = faceused' := by simpa [decodeLoop] using h
    rfl
  | cons c' cells ih =>
    rw [List.mem_cons, not_or] at hc
    rw [List.map_cons, decodeLoop] at h
    split at h
    · exact ih h hc.2
    · dsimp only at h
      split at h
      · exact absurd h (by simp)
      · rw [ih h hc.2, Cell.ofPos_pos, Grid.place_of_ne hc.1]

/-- Encoding what has been decoded writes the bits that were read, and no others. -/
theorem encodeLoop_decodeLoop {bitmap plane : Words 8} {cells : List (Cell P)} (hnodup : cells.Nodup)
    {base grid : Grid P} {faceused faceused' : Words 16} {k : Nat}
    (h : decodeLoop bitmap plane (cells.map Cell.pos) base faceused k = some (grid, faceused'))
    (hbase : ∀ c ∈ cells, base c = -2) (bm pl : Words 8)
    (hpl : ∀ j, pl.bit j = (decide (j < k * packetCodecValueBits P) && plane.bit j)) :
    ∃ bm' pl', encodeLoop grid cells bm pl k = some (bm', pl') ∧
      (∀ j, bm'.bit j = true ↔ bm.bit j = true ∨ ∃ c ∈ cells, c.pos = j ∧ bitmap.bit j = true) ∧
      ∀ j, pl'.bit j = (decide (j < (k + cells.countP fun c => bitmap.bit c.pos) * packetCodecValueBits P) &&
        plane.bit j) := by
  have hn := packetCodecValueBits_le P
  induction cells generalizing base faceused k bm pl with
  | nil => exact ⟨bm, pl, rfl, by simp, by simpa using hpl⟩
  | cons c cells ih =>
    obtain ⟨hfresh, hnodup⟩ := List.nodup_cons.mp hnodup
    have hrest : ∀ c' ∈ cells, base c' = -2 := fun c' hc' => hbase c' (List.mem_cons_of_mem _ hc')
    rw [List.map_cons, decodeLoop] at h
    rw [encodeLoop]
    split at h
    · rename_i hbit
      have hgrid : grid c = -2 := (decodeLoop_frame h hfresh).trans (hbase c List.mem_cons_self)
      obtain ⟨bm', pl', hrun, hbm, hplane⟩ := ih hnodup h hrest bm pl hpl
      rw [if_pos hgrid]
      refine ⟨bm', pl', hrun, fun j => ?_, fun j => ?_⟩
      · rw [hbm, List.exists_mem_cons_iff]
        have hskip : ¬ (c.pos = j ∧ bitmap.bit j = true) := by
          rintro ⟨rfl, hset⟩
          rw [hbit] at hset
          exact absurd hset (by simp)
        simp [hskip]
      · rw [hplane, List.countP_cons_of_neg (by simp [hbit])]
    · rename_i hbit
      dsimp only at h
      split at h
      · exact absurd h (by simp)
      · rename_i hmax
        have hgrid : grid c = (getValue P plane k).toNat := by
          rw [decodeLoop_frame h hfresh, Cell.ofPos_pos, Grid.place_self]
        have hvalue : BitVec.ofInt 16 (grid c) = getValue P plane k := by
          rw [hgrid, BitVec.ofInt_natCast, BitVec.ofNat_toNat, BitVec.setWidth_eq]
        have hlt : (getValue P plane k).toNat < 2 ^ packetCodecValueBits P :=
          Nat.lt_of_le_of_lt (Nat.le_of_not_lt hmax) (packetCodecValueMax_lt P)
        have hplaced : ∀ c' ∈ cells, base.place (Cell.ofPos P c.pos) (getValue P plane k).toNat c' = -2 := by
          intro c' hc'
          have hne : c' ≠ c := fun heq => hfresh (heq ▸ hc')
          rw [Cell.ofPos_pos, Grid.place_of_ne hne]
          exact hrest c' hc'
        obtain ⟨bm', pl', hrun, hbm, hplane⟩ := ih hnodup h hplaced (bm.setBit c.pos)
          (putValue P pl k (getValue P plane k)) fun j => by
            -- The field of this cell is written as it was read.
            rw [putValue, FieldPlane.bit_put hn hlt, hpl, getValue, FieldPlane.getLsbD_get hn, Nat.succ_mul]
            by_cases hlow : j < k * packetCodecValueBits P
            · simp [hlow, show j < k * packetCodecValueBits P + packetCodecValueBits P by omega]
            · simp [hlow, show k * packetCodecValueBits P ≤ j by omega,
                show k * packetCodecValueBits P + (j - k * packetCodecValueBits P) = j by omega,
                show j - k * packetCodecValueBits P < packetCodecValueBits P ↔
                  j < k * packetCodecValueBits P + packetCodecValueBits P by omega]
        rw [if_neg (by omega), if_neg (by omega), hvalue]
        refine ⟨bm', pl', hrun, fun j => ?_, fun j => ?_⟩
        · rw [hbm, Words.bit_setBit (by decide), List.exists_mem_cons_iff]
          have hset : c.pos = j ∧ bitmap.bit j = true ↔ c.pos = j := by
            constructor
            · exact fun hand => hand.1
            · rintro rfl
              exact ⟨rfl, by simpa using hbit⟩
          rw [hset, Bool.or_eq_true, decide_eq_true_iff, or_assoc, or_left_comm]
        · rw [hplane, List.countP_cons_of_pos (by simpa using hbit)]
          simp only [Nat.add_assoc, Nat.add_comm 1]

end Decoded

/-! ## The record that is left -/

section Left

variable (P : Puzzle)

/-- The record that `packet_codec_canonicalize` leaves. -/
def canonicalRecord (record : List Byte) (minCandidats : Int16) : List Byte :=
  let placed := announced P record
  let usedBits := placed * packetCodecValueBits P
  let record :=
    if usedBits % 8 ≠ 0 then
      record.modify (packetCodecPrefix P + packetCodecValueBytes P placed - 1)
        (· &&& (1#8 <<< (usedBits % 8) - 1#8))
    else record
  let record := record.modify 2 fun b => if b = 1#8 then 1#8 else 0#8
  let record := record.set 3 0#8
  let u16 := putU16 minCandidats.toBitVec
  (record.set 4 (u16.getD 0 0)).set 5 (u16.getD 1 0)

variable {P} {record : List Byte} {minCandidats : Int16}

/-- `packet_codec_canonicalize` in terms of what the record announces. -/
theorem packetCodecCanonicalize_of_header (hlen : packetCodecPrefix P ≤ record.length) :
    (PaddingSet P record → packetCodecCanonicalize P record minCandidats = .error) ∧
      (¬ PaddingSet P record → record.length < packetCodecSizeFor P (announced P record) →
        packetCodecCanonicalize P record minCandidats = .ok (0, record, none)) ∧
      (¬ PaddingSet P record → packetCodecSizeFor P (announced P record) ≤ record.length →
        ¬ ValuesInRange P record → packetCodecCanonicalize P record minCandidats = .error) ∧
      (¬ PaddingSet P record → packetCodecSizeFor P (announced P record) ≤ record.length →
        ValuesInRange P record → packetCodecCanonicalize P record minCandidats =
          .ok (packetCodecSizeFor P (announced P record), canonicalRecord P record minCandidats,
            some (announced P record))) := by
  have hcopy : ¬ PaddingSet P record → copyInto (packetCodecPlaneSize P) ((record.drop (packetCodecPrefix P)).take
      (packetCodecValueBytes P (announced P record))) = some (recordPlane P record) := by
    intro hclean
    have hle := valueBytes_announced_le hclean
    rw [copyInto, if_pos]
    · rfl
    · unfold packetCodecPlaneSize
      rw [List.length_take]
      omega
  have hvalues : ¬ PaddingSet P record → (((List.range (announced P record)).any fun k =>
      decide ((getValue P (recordPlane P record) k).toNat > packetCodecValueMax P)) = true ↔
        ¬ ValuesInRange P record) := by
    intro hclean
    unfold ValuesInRange
    rw [announced_of_clean hclean]
    simp
  have hcond := paddingSet_iff (P := P) record
  unfold packetCodecCanonicalize
  rw [if_neg (Nat.not_lt.mpr hlen)]
  dsimp only
  refine ⟨fun hpad => if_pos (hcond.mp hpad), fun hclean hshort => ?_, fun hclean hlong hrange => ?_,
    fun hclean hlong hrange => ?_⟩
  · exact (if_neg (mt hcond.mpr hclean)).trans (if_pos hshort)
  · refine (if_neg (mt hcond.mpr hclean)).trans ((if_neg (Nat.not_lt.mpr hlong)).trans ?_)
    split
    · rename_i hnone
      exact absurd (hnone.symm.trans (hcopy hclean)) (by simp)
    · rename_i plane hplane
      obtain rfl : plane = recordPlane P record := Option.some.inj (hplane.symm.trans (hcopy hclean))
      exact if_pos ((hvalues hclean).mpr hrange)
  · refine (if_neg (mt hcond.mpr hclean)).trans ((if_neg (Nat.not_lt.mpr hlong)).trans ?_)
    split
    · rename_i hnone
      exact absurd (hnone.symm.trans (hcopy hclean)) (by simp)
    · rename_i plane hplane
      obtain rfl : plane = recordPlane P record := Option.some.inj (hplane.symm.trans (hcopy hclean))
      refine (if_neg fun hany => ?_).trans rfl
      exact (hvalues hclean).mp hany hrange

/-- A record has a header. -/
theorem exists_header {bytes : List Byte} (h : 6 ≤ bytes.length) :
    ∃ b₀ b₁ b₂ b₃ b₄ b₅ tail, bytes = b₀ :: b₁ :: b₂ :: b₃ :: b₄ :: b₅ :: tail := by
  rcases bytes with _ | ⟨b₀, _ | ⟨b₁, _ | ⟨b₂, _ | ⟨b₃, _ | ⟨b₄, _ | ⟨b₅, tail⟩⟩⟩⟩⟩⟩
  · exact absurd h (by simp)
  · exact absurd h (by simp)
  · exact absurd h (by simp)
  · exact absurd h (by simp)
  · exact absurd h (by simp)
  · exact absurd h (by simp)
  · exact ⟨b₀, b₁, b₂, b₃, b₄, b₅, tail, rfl⟩

/-- The bytes behind the header. -/
theorem canonicalRecord_cons {b₀ b₁ b₂ b₃ b₄ b₅ : Byte} {tail : List Byte}
    (hrecord : record = b₀ :: b₁ :: b₂ :: b₃ :: b₄ :: b₅ :: tail) :
    canonicalRecord P record minCandidats = b₀ :: b₁ :: (if b₂ = 1#8 then 1#8 else 0#8) :: 0#8 ::
      (putU16 minCandidats.toBitVec).getD 0 0 :: (putU16 minCandidats.toBitVec).getD 1 0 ::
      if announced P record * packetCodecValueBits P % 8 ≠ 0 then
        tail.modify (packetCodecBitmapBytes P + packetCodecValueBytes P (announced P record) - 1)
          (· &&& (1#8 <<< (announced P record * packetCodecValueBits P % 8) - 1#8))
      else tail := by
  unfold canonicalRecord
  dsimp only
  split
  · have hindex : packetCodecPrefix P + packetCodecValueBytes P (announced P record) - 1 =
        (packetCodecBitmapBytes P + packetCodecValueBytes P (announced P record) - 1) + 6 := by
      have hbytes : 0 < packetCodecBitmapBytes P := by cases P <;> decide
      unfold packetCodecPrefix packetCodecHeaderBytes
      omega
    rw [hindex]
    generalize packetCodecBitmapBytes P + packetCodecValueBytes P (announced P record) - 1 = i
    generalize (1#8 <<< (announced P record * packetCodecValueBits P % 8) - 1#8 : Byte) = mask
    rw [hrecord]
    rfl
  · rw [hrecord]
    rfl

/-- The bits of the last byte that are kept. -/
theorem getLsbD_maskByte {n i : Nat} (hn : n < 8) : (1#8 <<< n - 1#8).getLsbD i = decide (i < n) := by
  have hlt : 2 ^ n < 2 ^ 8 := Nat.pow_lt_pow_right (by decide) hn
  have hpos : 0 < 2 ^ n := Nat.two_pow_pos n
  have hval : (1#8 <<< n - 1#8).toNat = 2 ^ n - 1 := by
    rw [BitVec.toNat_sub, BitVec.toNat_shiftLeft, Nat.shiftLeft_eq]
    simp only [BitVec.toNat_ofNat]
    omega
  rw [BitVec.getLsbD, hval, Nat.testBit_two_pow_sub_one]

/-- A byte of a plane that is cut behind its last bit. -/
theorem plane_byte {pl src : Words 8} {used i : Nat} (hpl : ∀ j, pl.bit j = (decide (j < used) && src.bit j))
    (hi : i < (used + 7) / 8) :
    pl i = if used % 8 ≠ 0 ∧ i + 1 = (used + 7) / 8 then src i &&& (1#8 <<< (used % 8) - 1#8) else src i := by
  apply BitVec.eq_of_getLsbD_eq
  intro r hr
  have hbit := hpl (i * 8 + r)
  unfold Words.bit at hbit
  rw [show (i * 8 + r) / 8 = i by omega, show (i * 8 + r) % 8 = r by omega] at hbit
  rw [hbit]
  split
  · rename_i hlast
    rw [BitVec.getLsbD_and, getLsbD_maskByte (Nat.mod_lt _ (by decide)), Bool.and_comm]
    congr 1
    exact decide_eq_decide.mpr (by omega)
  · rw [decide_eq_true (show i * 8 + r < used by omega), Bool.true_and]

/-- The bitmap and the plane that the encoder writes, where the record has them. -/
theorem body_eq {tail : List Byte} {bm pl : Words 8} {bb used : Nat} (hlen : bb + (used + 7) / 8 ≤ tail.length)
    (hbm : ∀ i < bb, bm i = tail.getD i 0)
    (hpl : ∀ j, pl.bit j = (decide (j < used) && (bytesAt ((tail.drop bb).take ((used + 7) / 8))).bit j)) :
    (List.range bb).map bm ++ (List.range ((used + 7) / 8)).map pl =
      (if used % 8 ≠ 0 then tail.modify (bb + (used + 7) / 8 - 1) (· &&& (1#8 <<< (used % 8) - 1#8))
        else tail).take (bb + (used + 7) / 8) := by
  have hsrc : ∀ i (hi : i < (used + 7) / 8), bytesAt ((tail.drop bb).take ((used + 7) / 8)) i = tail[bb + i] := by
    intro i hi
    unfold bytesAt
    rw [List.getD_eq_getElem?_getD, List.getElem?_take_of_lt hi, List.getElem?_drop,
      List.getElem?_eq_getElem (by omega), Option.getD_some]
  apply List.ext_getElem
  · split <;> simp <;> omega
  · intro i hi hi'
    rw [List.length_append, List.length_map, List.length_map, List.length_range, List.length_range] at hi
    rcases Nat.lt_or_ge i bb with hlow | hhigh
    · rw [List.getElem_append_left (by simpa using hlow), List.getElem_map, List.getElem_range, hbm i hlow,
        List.getD_eq_getElem?_getD, List.getElem?_eq_getElem (by omega), Option.getD_some, List.getElem_take]
      split
      · rw [List.getElem_modify_ne _ _ (by omega)]
      · rfl
    · obtain ⟨k, rfl⟩ := Nat.exists_eq_add_of_le hhigh
      have hk : k < (used + 7) / 8 := by omega
      rw [List.getElem_append_right (by simp), List.getElem_map, List.getElem_range, List.length_map,
        List.length_range, Nat.add_sub_cancel_left, plane_byte hpl hk, hsrc k hk, List.getElem_take]
      by_cases hused : used % 8 ≠ 0
      · simp only [if_pos hused]
        by_cases hlast : k + 1 = (used + 7) / 8
        · rw [if_pos ⟨hused, hlast⟩, List.getElem_modify, if_pos (by omega)]
        · rw [if_neg fun hand => hlast hand.2, List.getElem_modify, if_neg (by omega)]
      · simp only [if_neg hused]
        rw [if_neg fun hand => hused hand.1]

/-- What is left is the record of the packet that was read. -/
theorem canonicalRecord_take (hclean : ¬ PaddingSet P record) {q : Packet P} {total : Nat}
    (hdecode : packetCodecDecode P record = .ok (q, total)) :
    recordOf { q with minCandidats := minCandidats } = some ((canonicalRecord P record minCandidats).take total) := by
  obtain ⟨hlong, hrange⟩ := valuesInRange_of_ok hdecode
  have hmarks := announced_of_clean hclean
  have hplaced := (packetCodecDecode_ok hdecode).2.1
  rw [packetCodecDecode_eq] at hdecode
  split at hdecode
  · exact absurd hdecode (by simp)
  · rename_i hlen
    split at hdecode
    · exact absurd hdecode (by simp)
    · split at hdecode
      · exact absurd hdecode (by simp)
      · rename_i grid faceused hloop
        obtain ⟨rfl, rfl⟩ := Prod.mk.inj (Outcome.ok.inj hdecode)
        rw [← all_map_pos] at hloop
        obtain ⟨bm, pl, hrun, hbm, hpl⟩ := encodeLoop_decodeLoop (Cell.nodup_all P) hloop (fun _ _ => rfl)
          Words.zero Words.zero fun j => by simp
        have hsize : packetCodecSizeFor P (placedCount grid) ≤ packetCodecMaxBytes P :=
          packetCodecEncodedSize_le (decodedPacket record grid faceused (announced P record))
        have hcount : placedCount grid = announced P record := hplaced.trans hmarks.symm
        unfold recordOf packetCodecEncode
        dsimp only [decodedPacket]
        rw [if_neg (Nat.not_lt.mpr hsize), hrun, hcount]
        dsimp only
        congr 1
        have hprefix : packetCodecPrefix P + packetCodecValueBytes P (announced P record) ≤ record.length := hlong
        unfold packetCodecPrefix packetCodecHeaderBytes at hprefix
        obtain ⟨b₀, b₁, b₂, b₃, b₄, b₅, tail, hrecord⟩ := exists_header (show 6 ≤ record.length by omega)
        have htail : record.drop packetCodecHeaderBytes = tail := by
          rw [hrecord]
          rfl
        have hplane : (tail.drop (packetCodecBitmapBytes P)).take (packetCodecValueBytes P (announced P record)) =
            (record.drop (packetCodecPrefix P)).take (packetCodecValueBytes P (announced P record)) := by
          rw [packetCodecPrefix, ← List.drop_drop, htail]
        have hlength : packetCodecBitmapBytes P + packetCodecValueBytes P (announced P record) ≤ tail.length := by
          rw [← htail, List.length_drop, packetCodecHeaderBytes]
          omega
        have hbody : (List.range (packetCodecBitmapBytes P)).map bm ++
            (List.range (packetCodecValueBytes P (announced P record))).map pl = List.take (packetCodecBitmapBytes P +
              packetCodecValueBytes P (announced P record)) (if announced P record * packetCodecValueBits P % 8 ≠ 0 then
                tail.modify (packetCodecBitmapBytes P + packetCodecValueBytes P (announced P record) - 1)
                  (· &&& (1#8 <<< (announced P record * packetCodecValueBits P % 8) - 1#8))
              else tail) := body_eq hlength (fun i hi => ?_) fun j => ?_
        · have hflag : (if (if record.getD 2 0 = 1#8 then (1 : UInt8) else 0) ≠ 0 then (1#8 : Byte) else 0#8) =
              if b₂ = 1#8 then 1#8 else 0#8 := by
            rw [hrecord]
            by_cases hone : b₂ = 1#8 <;> simp [hone]
          have hhead : record.getD 0 0 = b₀ ∧ record.getD 1 0 = b₁ := by
            rw [hrecord]
            exact ⟨rfl, rfl⟩
          have htotal : packetCodecSizeFor P (announced P record) =
              packetCodecBitmapBytes P + packetCodecValueBytes P (announced P record) + 6 := by
            unfold packetCodecSizeFor packetCodecHeaderBytes
            omega
          unfold codecRecord codecHeader
          dsimp only
          rw [hflag, hhead.1, hhead.2, List.append_assoc, hbody, canonicalRecord_cons hrecord, htotal]
          simp only [List.take_succ_cons]
          rfl
        · apply BitVec.eq_of_getLsbD_eq
          intro r hr
          have hbit := hbm (i * 8 + r)
          rw [Words.bit_zero] at hbit
          have hsame : recordBitmap record i = tail.getD i 0 := by
            unfold recordBitmap bytesAt
            rw [htail]
          rw [← hsame]
          have hset : bm.bit (i * 8 + r) = true ↔ (recordBitmap record).bit (i * 8 + r) = true := by
            refine hbit.trans ⟨?_, fun hj => .inr ?_⟩
            · rintro (hfalse | ⟨c, -, -, hj⟩)
              · exact absurd hfalse (by simp)
              · exact hj
            · have hlt : i * 8 + r < P.eternParts := by
                by_contra hge
                exact hclean ⟨i * 8 + r, by omega, by omega, hj⟩
              exact ⟨Cell.ofPos P (i * 8 + r), Cell.mem_all _, Cell.pos_ofPos hlt, hj⟩
          unfold Words.bit at hset
          rw [show (i * 8 + r) / 8 = i by omega, show (i * 8 + r) % 8 = r by omega] at hset
          exact Bool.eq_iff_iff.mpr hset
        · rw [hpl j, Nat.zero_add]
          have hcells : (Cell.all P).countP (fun c => (recordBitmap record).bit c.pos) = announced P record :=
            hmarks.symm
          rw [hcells]
          unfold packetCodecValueBytes at hplane
          unfold recordPlane packetCodecValueBytes
          rw [← hplane]

end Left

/-! ## Records -/

section Records

variable {P : Puzzle} {p q : Packet P} {record rest : List Byte} {minCandidats : Int16} {total : Nat}

/-- What the encoder writes. -/
def IsRecord (P : Puzzle) (record : List Byte) : Prop := ∃ p : Packet P, recordOf p = some record

/-- A packet and what is read back from its record have the same record. -/
theorem recordOf_canonical (h : Canonical p q) : recordOf q = recordOf p := by
  have hflag : (if q.checked ≠ 0 then 1#8 else 0#8 : Byte) = if p.checked ≠ 0 then 1#8 else 0#8 := by
    rw [h.checked]
    by_cases hzero : p.checked = 0 <;> simp [hzero]
  have hheader : codecHeader q = codecHeader p := by
    unfold codecHeader
    rw [h.x, h.y, hflag, h.minCandidats]
  unfold recordOf packetCodecEncode codecRecord
  rw [h.grid, hheader]

/-- The packet of a record is read back from it, wherever it stands. -/
theorem decode_recordOf (h : recordOf p = some record) (rest : List Byte) :
    ∃ q : Packet P, packetCodecDecode P (record ++ rest) = .ok (q, record.length) ∧ Canonical p q := by
  have hencodable : p.Encodable := encodable_iff.mpr (by rw [h]; rfl)
  obtain ⟨record', hrecord', -, hdecode⟩ :=
    packetCodecDecode_append p hencodable (packetCodecMaxBytes P) (packetCodecEncodedSize_le p)
  obtain rfl : record' = record := Option.some.inj (hrecord'.symm.trans h)
  exact hdecode rest

/-- A record is read back from wherever it stands. -/
theorem IsRecord.decode (h : IsRecord P record) (rest : List Byte) :
    ∃ q : Packet P, packetCodecDecode P (record ++ rest) = .ok (q, record.length) ∧ recordOf q = some record := by
  obtain ⟨p, hp⟩ := h
  obtain ⟨q, hok, hcanonical⟩ := decode_recordOf hp rest
  exact ⟨q, hok, (recordOf_canonical hcanonical).trans hp⟩

/-- A record marks no cell past the board, and announces its own length. -/
theorem IsRecord.clean (h : IsRecord P record) (rest : List Byte) :
    ¬ PaddingSet P (record ++ rest) ∧ packetCodecSizeFor P (announced P (record ++ rest)) = record.length := by
  obtain ⟨p, hp⟩ := h
  obtain ⟨q, hok, hcanonical⟩ := decode_recordOf hp rest
  obtain ⟨halloc, hcount, -⟩ := packetCodecDecode_ok hok
  rw [hcanonical.alloc] at halloc
  rw [hcanonical.grid] at hcount
  refine ⟨fun hpad => ?_, ?_⟩
  · have := (boardMarks_lt_iff (record ++ rest)).mpr hpad
    omega
  · rw [packetCodecDecode_eq] at hok
    split at hok
    · exact absurd hok (by simp)
    · split at hok
      · exact absurd hok (by simp)
      · split at hok
        · exact absurd hok (by simp)
        · exact (Prod.mk.inj (Outcome.ok.inj hok)).2

theorem IsRecord.length_pos (h : IsRecord P record) : 0 < record.length := by
  rw [← (h.clean []).2]
  unfold packetCodecSizeFor packetCodecHeaderBytes
  omega

theorem IsRecord.length_le (h : IsRecord P record) : record.length ≤ packetCodecMaxBytes P := by
  obtain ⟨p, hp⟩ := h
  obtain ⟨record', hrecord', hlength⟩ := recordOf_of_encodable (encodable_iff.mpr (by rw [hp]; rfl))
  obtain rfl : record' = record := Option.some.inj (hrecord'.symm.trans hp)
  rw [hlength]
  exact packetCodecEncodedSize_le p

/-- The number of pieces read off the header is that of the packet. -/
theorem packetCodecPeekPlaced_eq (h : recordPacket P record = some p) : packetCodecPeekPlaced P record = p.alloc := by
  unfold recordPacket at h
  split at h
  · rename_i packet consumed hdecode
    cases h
    have halloc := (packetCodecDecode_ok hdecode).1
    have hlong : ¬ record.length < packetCodecPrefix P := by
      intro hshort
      unfold packetCodecDecode at hdecode
      rw [if_pos hshort] at hdecode
      cases hdecode
    have hsmall : announced P record < UInt16.size := halloc ▸ p.alloc.toNat_lt
    unfold packetCodecPeekPlaced
    rw [if_neg hlong, ← UInt16.toNat_inj, halloc]
    exact UInt16.toNat_ofNat_of_lt' hsmall
  · cases h

theorem IsRecord.placed_le (h : IsRecord P record) : (packetCodecPeekPlaced P record).toNat ≤ P.eternParts := by
  obtain ⟨p, hp⟩ := h
  obtain ⟨record', q, hrecord', hq, hcanonical⟩ := recordPacket_recordOf (encodable_iff.mpr (by rw [hp]; rfl))
  obtain rfl := Option.some.inj (hrecord'.symm.trans hp)
  rw [packetCodecPeekPlaced_eq hq, hcanonical.alloc]
  exact placedCount_le p.grid

theorem length_canonicalRecord : (canonicalRecord P record minCandidats).length = record.length := by
  unfold canonicalRecord
  dsimp only
  split <;> simp

/-- Only the record itself is written. -/
theorem canonicalRecord_drop (hlen : packetCodecSizeFor P (announced P record) ≤ record.length) :
    (canonicalRecord P record minCandidats).drop (packetCodecSizeFor P (announced P record)) =
      record.drop (packetCodecSizeFor P (announced P record)) := by
  have hlong : 6 ≤ packetCodecSizeFor P (announced P record) := by
    unfold packetCodecSizeFor packetCodecHeaderBytes
    omega
  obtain ⟨b₀, b₁, b₂, b₃, b₄, b₅, tail, hrecord⟩ := exists_header (Nat.le_trans hlong hlen)
  have htotal : packetCodecSizeFor P (announced P record) =
      packetCodecBitmapBytes P + packetCodecValueBytes P (announced P record) + 6 := by
    unfold packetCodecSizeFor packetCodecHeaderBytes
    omega
  have hn : 0 < packetCodecBitmapBytes P + packetCodecValueBytes P (announced P record) :=
    Nat.add_pos_left (by cases P <;> decide) _
  rw [canonicalRecord_cons hrecord, htotal]
  generalize packetCodecBitmapBytes P + packetCodecValueBytes P (announced P record) = n at hn ⊢
  rw [hrecord]
  simp only [List.drop_succ_cons]
  split
  · exact List.drop_modify_of_lt _ _ _ _ (Nat.sub_lt hn Nat.one_pos)
  · rfl

end Records

/-! ## What is refused and what is left -/

section Canonicalize

variable {P : Puzzle} {bytes left : List Byte} {minCandidats : Int16} {q : Packet P} {n : Nat} {placed : Option Nat}

/-- The length of a record that is read. -/
theorem packetCodecDecode_length (hdecode : packetCodecDecode P bytes = .ok (q, n)) :
    n = packetCodecSizeFor P (announced P bytes) := by
  rw [packetCodecDecode_eq] at hdecode
  split at hdecode
  · exact absurd hdecode (by simp)
  · split at hdecode
    · exact absurd hdecode (by simp)
    · split at hdecode
      · exact absurd hdecode (by simp)
      · exact (Prod.mk.inj (Outcome.ok.inj hdecode)).2.symm

/-- A record that is read, with no mark past the board, is put in canonical form. -/
theorem packetCodecCanonicalize_of_decode (hdecode : packetCodecDecode P bytes = .ok (q, n)) (hclean : ¬ PaddingSet P bytes) :
    packetCodecCanonicalize P bytes minCandidats =
      .ok (n, canonicalRecord P bytes minCandidats, some q.alloc.toNat) := by
  obtain ⟨hlen, hrange⟩ := valuesInRange_of_ok hdecode
  have hprefix : packetCodecPrefix P ≤ bytes.length := Nat.le_trans (Nat.le_add_right _ _) hlen
  rw [packetCodecDecode_length hdecode, (packetCodecDecode_ok hdecode).1]
  exact (packetCodecCanonicalize_of_header hprefix).2.2.2 hclean hlen hrange

/-- A record that is put in canonical form is read, and has no mark past the board. -/
theorem decode_of_packetCodecCanonicalize (h : packetCodecCanonicalize P bytes minCandidats = .ok (n, left, placed))
    (hn : 0 < n) : (∃ q, packetCodecDecode P bytes = .ok (q, n)) ∧ ¬ PaddingSet P bytes := by
  by_cases hshort : bytes.length < packetCodecPrefix P
  · unfold packetCodecCanonicalize at h
    rw [if_pos hshort] at h
    obtain ⟨rfl, -⟩ := Prod.mk.inj (Outcome.ok.inj h)
    exact absurd hn (Nat.lt_irrefl 0)
  · obtain ⟨hpadded, hcut, hbad, -⟩ : (PaddingSet P bytes → packetCodecCanonicalize P bytes minCandidats = .error) ∧ _ :=
      packetCodecCanonicalize_of_header (Nat.not_lt.mp hshort)
    have hclean : ¬ PaddingSet P bytes := by
      intro hpad
      rw [hpadded hpad] at h
      exact absurd h (by simp)
    have hlen : packetCodecSizeFor P (announced P bytes) ≤ bytes.length := by
      by_contra hlong
      rw [hcut hclean (Nat.not_le.mp hlong)] at h
      obtain ⟨rfl, -⟩ := Prod.mk.inj (Outcome.ok.inj h)
      exact Nat.lt_irrefl 0 hn
    have hrange : ValuesInRange P bytes := by
      by_contra hout
      rw [hbad hclean hlen hout] at h
      exact absurd h (by simp)
    have hfit : packetCodecValueBytes P (announced P bytes) ≤ packetCodecPlaneSize P :=
      Nat.le_trans (valueBytes_announced_le hclean) (Nat.le_add_right _ _)
    obtain ⟨q, total, hdecode⟩ := packetCodecDecode_isOk hlen hfit hrange
    rw [packetCodecCanonicalize_of_decode hdecode hclean] at h
    obtain ⟨rfl, -⟩ := Prod.mk.inj (Outcome.ok.inj h)
    exact ⟨⟨q, hdecode⟩, hclean⟩

/-- A record in canonical form is left as it is. -/
theorem canonicalRecord_idempotent (hdecode : packetCodecDecode P bytes = .ok (q, n)) (hclean : ¬ PaddingSet P bytes) :
    packetCodecCanonicalize P (canonicalRecord P bytes minCandidats) minCandidats =
      .ok (n, canonicalRecord P bytes minCandidats, some q.alloc.toNat) := by
  have hrecord : recordOf { q with minCandidats := minCandidats } =
      some ((canonicalRecord P bytes minCandidats).take n) := canonicalRecord_take hclean hdecode
  have hlen : n ≤ (canonicalRecord P bytes minCandidats).length := by
    rw [length_canonicalRecord, packetCodecDecode_length hdecode]
    exact (valuesInRange_of_ok hdecode).1
  generalize canonicalRecord P bytes minCandidats = left at hrecord hlen ⊢
  have htake : (left.take n).length = n := List.length_take_of_le hlen
  have hencodable : Packet.Encodable { q with minCandidats := minCandidats } := encodable_iff.mpr (by rw [hrecord]; rfl)
  obtain ⟨record, hencode, -, hread⟩ :=
    packetCodecDecode_append _ hencodable (packetCodecMaxBytes P) (packetCodecEncodedSize_le _)
  obtain rfl : record = left.take n := Option.some.inj (hencode.symm.trans hrecord)
  obtain ⟨q', hagain, hcanonical⟩ := hread (left.drop n)
  have hclean' : ¬ PaddingSet P (left.take n ++ left.drop n) :=
    (IsRecord.clean ⟨_, hrecord⟩ (left.drop n)).1
  rw [List.take_append_drop] at hagain hclean'
  rw [htake] at hagain
  -- The packet read again has the score already, so its record is the one that is there.
  have hscore : ({ q' with minCandidats := minCandidats } : Packet P) = q' := by
    have hmin : q'.minCandidats = minCandidats := hcanonical.minCandidats
    rw [← hmin]
  have hfront : (canonicalRecord P left minCandidats).take n = left.take n := by
    have hsame : recordOf { q' with minCandidats := minCandidats } =
        some ((canonicalRecord P left minCandidats).take n) := canonicalRecord_take hclean' hagain
    rw [hscore, recordOf_canonical hcanonical, hrecord] at hsame
    exact (Option.some.inj hsame).symm
  have hrest : (canonicalRecord P left minCandidats).drop n = left.drop n := by
    rw [packetCodecDecode_length hagain]
    exact canonicalRecord_drop (valuesInRange_of_ok hagain).1
  have halloc : q'.alloc.toNat = q.alloc.toNat := by
    rw [hcanonical.alloc, (packetCodecDecode_ok hdecode).1, announced_of_clean hclean]
    exact (packetCodecDecode_ok hdecode).2.1
  rw [packetCodecCanonicalize_of_decode hagain hclean', halloc, ← List.take_append_drop n (canonicalRecord P left minCandidats),
    hfront, hrest, List.take_append_drop]

end Canonicalize

/-- `packet_codec_canonicalize` accepts what the decoder accepts and marks no cell past the board. It then
leaves the record of the packet that is read, with the score given, and what is behind it as it is. Doing
it again changes nothing. -/
theorem packetCodecCanonicalize_exact (P : Puzzle) (bytes : List Byte) (minCandidats : Int16) :
    packetCodecCanonicalize P bytes minCandidats ≠ .overflow ∧
      ((∃ n left placed, packetCodecCanonicalize P bytes minCandidats = .ok (n, left, placed) ∧ 0 < n) ↔
        (∃ q n, packetCodecDecode P bytes = .ok (q, n)) ∧ ¬ PaddingSet P bytes) ∧
      ∀ n left placed, packetCodecCanonicalize P bytes minCandidats = .ok (n, left, placed) → 0 < n →
        (∃ q, packetCodecDecode P bytes = .ok (q, n) ∧
          packetCodecEncode { q with minCandidats := minCandidats } (packetCodecMaxBytes P) = some (left.take n) ∧
          placed = some q.alloc.toNat) ∧
        left.length = bytes.length ∧ left.drop n = bytes.drop n ∧
        packetCodecCanonicalize P left minCandidats = .ok (n, left, placed) := by
  refine ⟨packetCodecCanonicalize_ne_overflow bytes minCandidats, ⟨?_, ?_⟩, fun n left placed h hn => ?_⟩
  · rintro ⟨n, left, placed, h, hn⟩
    obtain ⟨⟨q, hdecode⟩, hclean⟩ := decode_of_packetCodecCanonicalize h hn
    exact ⟨⟨q, n, hdecode⟩, hclean⟩
  · rintro ⟨⟨q, n, hdecode⟩, hclean⟩
    refine ⟨n, _, _, packetCodecCanonicalize_of_decode hdecode hclean, ?_⟩
    rw [packetCodecDecode_length hdecode]
    unfold packetCodecSizeFor packetCodecHeaderBytes
    omega
  · obtain ⟨⟨q, hdecode⟩, hclean⟩ := decode_of_packetCodecCanonicalize h hn
    rw [packetCodecCanonicalize_of_decode hdecode hclean] at h
    obtain ⟨-, hpair⟩ := Prod.mk.inj (Outcome.ok.inj h)
    obtain ⟨rfl, rfl⟩ := Prod.mk.inj hpair
    refine ⟨⟨q, hdecode, canonicalRecord_take hclean hdecode, rfl⟩, length_canonicalRecord, ?_,
      canonicalRecord_idempotent hdecode hclean⟩
    rw [packetCodecDecode_length hdecode]
    exact canonicalRecord_drop (valuesInRange_of_ok hdecode).1

/-- A record of an empty board with a stray flag, a stray reserved byte, a score, and a byte behind it. -/
theorem packetCodecCanonicalize_exact_stray :
    packetCodecCanonicalize .p16 [0#8, 0#8, 2#8, 7#8, 3#8, 0#8, 0#8, 0#8, 9#8] (-1) =
        .ok (8, [0#8, 0#8, 0#8, 0#8, 255#8, 255#8, 0#8, 0#8, 9#8], some 0) ∧
      packetCodecCanonicalize .p16 [0#8, 0#8, 0#8, 0#8, 255#8, 255#8, 0#8, 0#8, 9#8] (-1) =
        .ok (8, [0#8, 0#8, 0#8, 0#8, 255#8, 255#8, 0#8, 0#8, 9#8], some 0) := by
  have hleft : packetCodecCanonicalize .p16 [0#8, 0#8, 2#8, 7#8, 3#8, 0#8, 0#8, 0#8, 9#8] (-1) =
      .ok (8, [0#8, 0#8, 0#8, 0#8, 255#8, 255#8, 0#8, 0#8, 9#8], some 0) := by decide +kernel
  exact ⟨hleft, ((packetCodecCanonicalize_exact .p16 _ (-1)).2.2 _ _ _ hleft (by decide)).2.2.2⟩
