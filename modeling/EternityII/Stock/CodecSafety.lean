-- SUMMARY: Reading arbitrary bytes: when the codec's readers stay within their buffers and rebuild a true count.
import EternityII.Stock.PacketCodec

/-!
# Reading arbitrary bytes

The bitmap of a record has padding bits when `ETERN_PARTS` is not a multiple of 8. The
length of a record is computed from all bits of the bitmap, the buffers of the readers are
sized for `ETERN_PARTS` cells, and only `packet_codec_canonicalize` looks at the padding.
-/

section Reading

variable {P : Puzzle}

/-- The bitmap of a record. -/
def recordBitmap (inp : List Byte) : Words 8 := bytesAt (inp.drop packetCodecHeaderBytes)

/-- The number of cells a record announces, padding bits included. -/
def announced (P : Puzzle) (inp : List Byte) : Nat := bitmapPlaced P (recordBitmap inp)

/-- The number of board cells a record marks. -/
def boardMarks (P : Puzzle) (inp : List Byte) : Nat :=
  (Cell.all P).countP fun c => (recordBitmap inp).bit c.pos

/-- Some bit of the bitmap past the board is set. -/
def PaddingSet (P : Puzzle) (inp : List Byte) : Prop :=
  ∃ j, P.eternParts ≤ j ∧ j < packetCodecBitmapBytes P * 8 ∧ (recordBitmap inp).bit j = true

/-- The value bytes a reader copies out of a record. -/
def recordPlane (P : Puzzle) (inp : List Byte) : Words 8 :=
  bytesAt ((inp.drop (packetCodecPrefix P)).take (packetCodecValueBytes P (announced P inp)))

/-- Every marked cell of the board has a value in range. -/
def ValuesInRange (P : Puzzle) (inp : List Byte) : Prop :=
  ∀ k < boardMarks P inp, (getValue P (recordPlane P inp) k).toNat ≤ packetCodecValueMax P

theorem boardMarks_le (inp : List Byte) : boardMarks P inp ≤ P.eternParts := by
  rw [boardMarks, ← Cell.length_all P]
  exact List.countP_le_length

theorem announced_eq (inp : List Byte) : announced P inp = boardMarks P inp +
    ((List.range (packetCodecBitmapBytes P * 8 - P.eternParts)).map (P.eternParts + ·)).countP
      (recordBitmap inp).bit := bitmapPlaced_eq _

/-- The announced count exceeds the board's marks exactly when padding bits are set. -/
theorem boardMarks_lt_iff (inp : List Byte) :
    boardMarks P inp < announced P inp ↔ PaddingSet P inp := by
  rw [announced_eq, Nat.lt_add_right_iff_pos, List.countP_pos_iff]
  constructor
  · rintro ⟨j, hj, hbit⟩
    obtain ⟨i, hi, rfl⟩ := List.mem_map.mp hj
    have hi := List.mem_range.mp hi
    exact ⟨_, by omega, by omega, hbit⟩
  · rintro ⟨j, hle, hlt, hbit⟩
    refine ⟨j, List.mem_map.mpr ⟨j - P.eternParts, List.mem_range.mpr (by omega), by omega⟩, hbit⟩

theorem announced_of_clean {inp : List Byte} (h : ¬ PaddingSet P inp) :
    announced P inp = boardMarks P inp := by
  rw [← boardMarks_lt_iff] at h
  have hle : boardMarks P inp ≤ announced P inp := by
    rw [announced_eq]
    omega
  omega

theorem announced_le (inp : List Byte) : announced P inp ≤ 2048 := by
  have hmarks := boardMarks_le (P := P) inp
  have hparts := P.eternParts_le
  have hpad := List.countP_le_length (p := (recordBitmap inp).bit)
    (l := (List.range (packetCodecBitmapBytes P * 8 - P.eternParts)).map (P.eternParts + ·))
  rw [List.length_map, List.length_range] at hpad
  rw [announced_eq]
  unfold packetCodecBitmapBytes at hpad ⊢
  omega

/-- One cell more than the board has needs more value bytes. -/
theorem valueBytes_lt {a : Nat} (h : P.eternParts < a) :
    packetCodecValueBytes P P.eternParts < packetCodecValueBytes P a := by
  have hstep : packetCodecValueBytes P P.eternParts < packetCodecValueBytes P (P.eternParts + 1) := by
    cases P <;> decide
  exact Nat.lt_of_lt_of_le hstep (packetCodecValueBytes_mono P h)

theorem le_of_valueBytes_lt {a : Nat}
    (h : packetCodecValueBytes P P.eternParts < packetCodecValueBytes P a) : P.eternParts < a := by
  by_contra hle
  have := packetCodecValueBytes_mono P (Nat.le_of_not_lt hle)
  omega

/-! ## The decoding loop on arbitrary bytes -/

/-- The loop refuses exactly the value planes with a value out of range. -/
private theorem decodeLoop_eq_none {bitmap plane : Words 8} {cells : List Nat} {base : Grid P}
    {faceused : Words 16} {k : Nat} :
    decodeLoop bitmap plane cells base faceused k = none ↔
      ∃ i < cells.countP bitmap.bit, packetCodecValueMax P < (getValue P plane (k + i)).toNat := by
  induction cells generalizing base faceused k with
  | nil => simp [decodeLoop]
  | cons cell cells ih =>
    rw [decodeLoop]
    cases hbit : bitmap.bit cell with
    | false => rw [if_pos rfl, ih, List.countP_cons_of_neg (by simp [hbit])]
    | true =>
      rw [if_neg (by simp), List.countP_cons_of_pos (by simp [hbit])]
      dsimp only
      split
      · rename_i hv
        simp only [true_iff]
        exact ⟨0, Nat.succ_pos _, by simpa using hv⟩
      · rename_i hv
        rw [ih]
        constructor
        · rintro ⟨i, hi, hlt⟩
          exact ⟨i + 1, by omega, by rwa [show k + (i + 1) = k + 1 + i by omega]⟩
        · rintro ⟨i, hi, hlt⟩
          cases i with
          | zero => exact absurd hlt hv
          | succ i => exact ⟨i, by omega, by rwa [show k + 1 + i = k + (i + 1) by omega]⟩

/-- A grid that comes back holds values in range exactly in the marked cells. -/
private theorem decodeLoop_eq_some {bitmap plane : Words 8} {cells : List Nat} {base grid : Grid P}
    {faceused faceused' : Words 16} {k : Nat} (hcells : ∀ n ∈ cells, n < P.eternParts)
    (h : decodeLoop bitmap plane cells base faceused k = some (grid, faceused')) (c : Cell P) :
    (grid c = base c ∧ (c.pos ∈ cells → bitmap.bit c.pos = false)) ∨
      (c.pos ∈ cells ∧ bitmap.bit c.pos = true ∧ 0 ≤ grid c ∧ grid c ≤ 4 * P.eternParts) := by
  induction cells generalizing base faceused k with
  | nil =>
    obtain ⟨rfl, rfl⟩ := Prod.mk.inj (Option.some.inj h)
    exact .inl ⟨rfl, by simp⟩
  | cons cell cells ih =>
    have hcells' : ∀ n ∈ cells, n < P.eternParts := fun n hn => hcells n (List.mem_cons_of_mem _ hn)
    rw [decodeLoop] at h
    cases hbit : bitmap.bit cell with
    | false =>
      rw [if_pos hbit] at h
      rcases ih hcells' h with ⟨heq, hfalse⟩ | ⟨hmem, hrest⟩
      · refine .inl ⟨heq, fun hmem => ?_⟩
        rcases List.mem_cons.mp hmem with hpos | hmem
        · rwa [hpos]
        · exact hfalse hmem
      · exact .inr ⟨List.mem_cons_of_mem _ hmem, hrest⟩
    | true =>
      rw [if_neg (by simp [hbit])] at h
      dsimp only at h
      split at h
      · exact absurd h (by simp)
      · rename_i hv
        rcases ih hcells' h with ⟨heq, hfalse⟩ | ⟨hmem, hrest⟩
        · by_cases hpos : c.pos = cell
          · right
            have hc : Cell.ofPos P cell = c := by rw [← hpos, Cell.ofPos_pos]
            rw [hc, Grid.place_self] at heq
            unfold packetCodecValueMax at hv
            exact ⟨by simp [hpos], by rwa [hpos], by omega, by omega⟩
          · left
            have hne : c ≠ Cell.ofPos P cell := fun hc =>
              hpos (by rw [hc, Cell.pos_ofPos (hcells cell List.mem_cons_self)])
            rw [Grid.place_of_ne hne] at heq
            refine ⟨heq, fun hmem => hfalse ?_⟩
            exact (List.mem_cons.mp hmem).resolve_left hpos
        · exact .inr ⟨List.mem_cons_of_mem _ hmem, hrest⟩

private theorem countP_range (inp : List Byte) :
    (List.range P.eternParts).countP (recordBitmap inp).bit = boardMarks P inp := by
  rw [← all_map_pos, List.countP_map]
  rfl

/-! ## The three readers -/

/-- `packet_codec_decode` in terms of what the record announces. -/
theorem packetCodecDecode_eq (inp : List Byte) :
    packetCodecDecode P inp =
      if inp.length < packetCodecPrefix P ∨ inp.length < packetCodecSizeFor P (announced P inp) then
        .error
      else if packetCodecPlaneSize P < packetCodecValueBytes P (announced P inp) then .overflow
      else
        match decodeLoop (recordBitmap inp) (recordPlane P inp) (List.range P.eternParts) (fun _ => -2)
          Words.zero 0 with
        | none => .error
        | some (grid, faceused) =>
          .ok (decodedPacket inp grid faceused (announced P inp), packetCodecSizeFor P (announced P inp)) := by
  unfold packetCodecDecode
  by_cases hhead : inp.length < packetCodecPrefix P
  · simp [hhead]
  · rw [if_neg hhead]
    dsimp only
    change (if inp.length < packetCodecSizeFor P (announced P inp) then _ else _) = _
    by_cases htotal : inp.length < packetCodecSizeFor P (announced P inp)
    · simp [htotal]
    · rw [if_neg htotal, if_neg (by simp [hhead, htotal])]
      have hlen : ((inp.drop (packetCodecPrefix P)).take
          (packetCodecValueBytes P (announced P inp))).length =
          packetCodecValueBytes P (announced P inp) := by
        unfold packetCodecSizeFor at htotal
        unfold packetCodecPrefix
        rw [List.length_take, List.length_drop]
        omega
      by_cases hover : packetCodecPlaneSize P < packetCodecValueBytes P (announced P inp)
      · have hcopy : copyInto (packetCodecPlaneSize P) ((inp.drop (packetCodecPrefix P)).take
            (packetCodecValueBytes P (announced P inp))) = none := by
          rw [copyInto, hlen, if_neg (Nat.not_le.mpr hover)]
        rw [if_pos hover]
        split
        · rfl
        · rename_i hsome
          exact absurd (hsome.symm.trans hcopy) (by simp)
      · have hcopy : copyInto (packetCodecPlaneSize P) ((inp.drop (packetCodecPrefix P)).take
            (packetCodecValueBytes P (announced P inp))) = some (bytesAt ((inp.drop (packetCodecPrefix P)).take
              (packetCodecValueBytes P (announced P inp)))) := by
          rw [copyInto, hlen, if_pos (Nat.not_lt.mp hover)]
        rw [if_neg hover]
        split
        · rename_i hnone
          exact absurd (hnone.symm.trans hcopy) (by simp)
        · rename_i plane hplane
          obtain rfl := Option.some.inj (hplane.symm.trans hcopy)
          rfl

/-- Decoding overflows only on records longer than any record that the encoder writes. -/
theorem packetCodecDecode_overflow {inp : List Byte} (h : packetCodecDecode P inp = .overflow) :
    P.eternParts < announced P inp ∧ packetCodecMaxBytes P < inp.length := by
  rw [packetCodecDecode_eq] at h
  split at h
  · exact absurd h (by simp)
  · rename_i hlen
    split at h
    · rename_i hover
      have hlt : packetCodecValueBytes P P.eternParts < packetCodecValueBytes P (announced P inp) := by
        unfold packetCodecPlaneSize at hover
        omega
      refine ⟨le_of_valueBytes_lt hlt, ?_⟩
      unfold packetCodecSizeFor at hlen
      unfold packetCodecMaxBytes
      omega
    · split at h <;> exact absurd h (by simp)

/-- What a successful decode returns. -/
theorem packetCodecDecode_ok {inp : List Byte} {q : Packet P} {n : Nat}
    (h : packetCodecDecode P inp = .ok (q, n)) :
    q.alloc.toNat = announced P inp ∧ placedCount q.grid = boardMarks P inp ∧
      ∀ c, q.grid c = -2 ∨ 0 ≤ q.grid c ∧ q.grid c ≤ 4 * P.eternParts := by
  rw [packetCodecDecode_eq] at h
  split at h
  · exact absurd h (by simp)
  · split at h
    · exact absurd h (by simp)
    · split at h
      · exact absurd h (by simp)
      · rename_i grid faceused hloop
        obtain ⟨rfl, -⟩ := Prod.mk.inj (Outcome.ok.inj h)
        have hspec := decodeLoop_eq_some (fun n hn => List.mem_range.mp hn) hloop
        have hle := announced_le (P := P) inp
        refine ⟨?_, ?_, fun c => ?_⟩
        · show (UInt16.ofNat (announced P inp)).toNat = _
          rw [UInt16.toNat_ofNat', Nat.mod_eq_of_lt (by omega)]
        · rw [placedCount, boardMarks]
          refine List.countP_congr fun c _ => ?_
          rw [decide_eq_true_iff]
          rcases hspec c with ⟨heq, hfalse⟩ | ⟨-, htrue, hpos, -⟩
          · have hbit := hfalse (List.mem_range.mpr c.pos_lt)
            simp [decodedPacket, heq, hbit]
          · simp only [decodedPacket, htrue, iff_true]
            omega
        · rcases hspec c with ⟨heq, -⟩ | ⟨-, -, hrange⟩
          · exact .inl heq
          · exact .inr hrange

/-- A record that is long enough, fits the plane buffer and has its values in range decodes. -/
theorem packetCodecDecode_isOk {inp : List Byte} (hlen : packetCodecSizeFor P (announced P inp) ≤ inp.length)
    (hfit : packetCodecValueBytes P (announced P inp) ≤ packetCodecPlaneSize P)
    (hvalues : ValuesInRange P inp) : ∃ q n, packetCodecDecode P inp = .ok (q, n) := by
  have hhead : packetCodecPrefix P ≤ packetCodecSizeFor P (announced P inp) := Nat.le_add_right _ _
  rw [packetCodecDecode_eq, if_neg (by omega), if_neg (by omega)]
  cases hloop : decodeLoop (recordBitmap inp) (recordPlane P inp) (List.range P.eternParts)
      (fun _ => -2) Words.zero 0 with
  | none =>
    obtain ⟨i, hi, hlt⟩ := decodeLoop_eq_none.mp hloop
    rw [countP_range] at hi
    have hle := hvalues i hi
    rw [Nat.zero_add] at hlt
    omega
  | some r => exact ⟨_, _, rfl⟩

/-- Decoding succeeds only on records that are long enough and have their values in range. -/
theorem valuesInRange_of_ok {inp : List Byte} {q : Packet P} {n : Nat}
    (h : packetCodecDecode P inp = .ok (q, n)) :
    packetCodecSizeFor P (announced P inp) ≤ inp.length ∧ ValuesInRange P inp := by
  rw [packetCodecDecode_eq] at h
  split at h
  · exact absurd h (by simp)
  · rename_i hlen
    refine ⟨by omega, fun k hk => ?_⟩
    split at h
    · exact absurd h (by simp)
    · by_contra hlt
      have hnone : decodeLoop (recordBitmap inp) (recordPlane P inp) (List.range P.eternParts)
          (fun _ => -2 : Grid P) Words.zero 0 = none :=
        decodeLoop_eq_none.mpr ⟨k, by rwa [countP_range], by rw [Nat.zero_add]; omega⟩
      rw [hnone] at h
      exact absurd h (by simp)

/-- The count only looks at the bitmap bytes. -/
theorem announced_take (bytes : List Byte) :
    bitmapPlaced P (bytesAt ((bytes.take (packetCodecPrefix P)).drop packetCodecHeaderBytes)) =
      announced P bytes := by
  unfold announced bitmapPlaced recordBitmap
  refine congrArg List.sum (List.map_congr_left fun i hi => ?_)
  have hi := List.mem_range.mp hi
  have hlt : packetCodecHeaderBytes + i < packetCodecPrefix P := by
    unfold packetCodecPrefix
    omega
  unfold bytesAt
  rw [List.getD_eq_getElem?_getD, List.getD_eq_getElem?_getD, List.getElem?_drop, List.getElem?_drop,
    List.getElem?_take_of_lt hlt]

/-- `packet_codec_fread` overruns its record buffer exactly on files that announce more
cells than the board has and hold more bytes than a record can have. -/
theorem packetCodecFread_overflow_iff {bytes : List Byte} {readError : Bool} :
    packetCodecFread P bytes readError = .overflow ↔
      packetCodecPrefix P ≤ bytes.length ∧ P.eternParts < announced P bytes ∧
        packetCodecMaxBytes P < bytes.length := by
  unfold packetCodecFread
  have hmax : packetCodecMaxBytes P = packetCodecPrefix P + packetCodecValueBytes P P.eternParts := rfl
  have hpos : 0 < packetCodecPrefix P := by
    unfold packetCodecPrefix packetCodecHeaderBytes
    omega
  have hhead : (bytes.take (packetCodecPrefix P)).length = min (packetCodecPrefix P) bytes.length :=
    List.length_take
  dsimp only
  by_cases hempty : (bytes.take (packetCodecPrefix P)).length = 0
  · rw [if_pos hempty]
    have hshort : ¬ packetCodecPrefix P ≤ bytes.length := by omega
    cases readError <;> simp [hshort]
  · rw [if_neg hempty]
    by_cases hshort : (bytes.take (packetCodecPrefix P)).length < packetCodecPrefix P
    · rw [if_pos hshort]
      simp only [reduceCtorEq, false_iff, not_and]
      omega
    · rw [if_neg hshort]
      have hlong : packetCodecPrefix P ≤ bytes.length := by omega
      rw [announced_take]
      have htail : ((bytes.drop (packetCodecPrefix P)).take
          (packetCodecValueBytes P (announced P bytes))).length =
          min (packetCodecValueBytes P (announced P bytes)) (bytes.length - packetCodecPrefix P) := by
        rw [List.length_take, List.length_drop]
      by_cases hover : packetCodecPrefix P + ((bytes.drop (packetCodecPrefix P)).take
          (packetCodecValueBytes P (announced P bytes))).length > packetCodecMaxBytes P
      · rw [if_pos hover]
        have hlt : packetCodecValueBytes P P.eternParts < packetCodecValueBytes P (announced P bytes) := by
          omega
        simp only [true_iff]
        exact ⟨hlong, le_of_valueBytes_lt hlt, by omega⟩
      · rw [if_neg hover]
        have hnot : ¬ (packetCodecPrefix P ≤ bytes.length ∧ P.eternParts < announced P bytes ∧
            packetCodecMaxBytes P < bytes.length) := by
          rintro ⟨-, hann, hlen⟩
          have := valueBytes_lt hann
          omega
        simp only [hnot, iff_false]
        split
        · simp
        · split
          · rename_i hdec
            have := (packetCodecDecode_overflow hdec).2
            rw [List.length_append] at this
            omega
          · simp
          · simp

/-- The padding of the bitmap is what the last byte holds above the board's bits. -/
theorem paddingSet_iff (inp : List Byte) : PaddingSet P inp ↔ P.eternParts % 8 ≠ 0 ∧
    recordBitmap inp (packetCodecBitmapBytes P - 1) >>> (P.eternParts % 8) ≠ 0#8 := by
  unfold PaddingSet
  constructor
  · rintro ⟨j, hle, hlt, hbit⟩
    unfold packetCodecBitmapBytes at hlt ⊢
    refine ⟨by omega, fun hzero => ?_⟩
    have hget : (recordBitmap inp ((P.eternParts + 7) / 8 - 1) >>> (P.eternParts % 8)).getLsbD
        (j - P.eternParts) = true := by
      rw [BitVec.getLsbD_ushiftRight]
      unfold Words.bit at hbit
      rwa [show (P.eternParts + 7) / 8 - 1 = j / 8 by omega,
        show P.eternParts % 8 + (j - P.eternParts) = j % 8 by omega]
    rw [hzero] at hget
    simp at hget
  · rintro ⟨hmod, hne⟩
    by_contra hnone
    apply hne
    apply BitVec.eq_of_getLsbD_eq
    intro i hi
    rw [BitVec.getLsbD_ushiftRight, BitVec.getLsbD_zero]
    by_contra hbit
    have hbit : (recordBitmap inp (packetCodecBitmapBytes P - 1)).getLsbD (P.eternParts % 8 + i) = true := by
      simpa using hbit
    have hlt : P.eternParts % 8 + i < 8 := BitVec.lt_of_getLsbD hbit
    refine hnone ⟨P.eternParts + i, by omega, ?_, ?_⟩
    · unfold packetCodecBitmapBytes
      omega
    · unfold Words.bit
      unfold packetCodecBitmapBytes at hbit
      rwa [show (P.eternParts + i) / 8 = (P.eternParts + 7) / 8 - 1 by omega,
        show (P.eternParts + i) % 8 = P.eternParts % 8 + i by omega]

/-- Without padding bits the announced values fit every buffer. -/
theorem valueBytes_announced_le {inp : List Byte} (h : ¬ PaddingSet P inp) :
    packetCodecValueBytes P (announced P inp) ≤ packetCodecValueBytes P P.eternParts := by
  rw [announced_of_clean h]
  exact packetCodecValueBytes_mono P (boardMarks_le inp)

/-- `packet_codec_canonicalize` looks at the padding before it copies. -/
theorem packetCodecCanonicalize_ne_overflow (record : List Byte) (minCandidats : Int16) :
    packetCodecCanonicalize P record minCandidats ≠ .overflow := by
  unfold packetCodecCanonicalize
  dsimp only
  split
  · simp
  · split
    · simp
    · rename_i hclean
      have hclean : ¬ PaddingSet P record := by
        rw [paddingSet_iff]
        exact hclean
      have hle := valueBytes_announced_le hclean
      split
      · simp
      · have hcopy : ((record.drop (packetCodecPrefix P)).take
            (packetCodecValueBytes P (announced P record))).length ≤ packetCodecPlaneSize P := by
          unfold packetCodecPlaneSize
          rw [List.length_take]
          omega
        split
        · rename_i hnone
          exact absurd (hnone.symm.trans (if_pos hcopy)) (by simp)
        · split <;> simp

/-! ## When the readers are safe -/

/-- The readers stay within their buffers, and a decoded packet counts its own cells and
holds values in range. -/
structure CodecSafe (P : Puzzle) (inp : List Byte) : Prop where
  decode : packetCodecDecode P inp ≠ .overflow
  fread : ∀ readError, packetCodecFread P inp readError ≠ .overflow
  canonicalize : ∀ minCandidats, packetCodecCanonicalize P inp minCandidats ≠ .overflow
  decoded : ∀ q n, packetCodecDecode P inp = .ok (q, n) →
    q.alloc.toNat = placedCount q.grid ∧
      ∀ c, q.grid c = -2 ∨ 0 ≤ q.grid c ∧ q.grid c ≤ 4 * P.eternParts

/-- The byte strings on which the readers are safe: too short for a bitmap, without padding
bits, or with padding bits on a record that is refused (it is cut short or holds a value out
of range) and that either announces no more cells than the board has or is no longer than
the longest record. -/
def CodecReadable (P : Puzzle) (inp : List Byte) : Prop :=
  inp.length < packetCodecPrefix P ∨ ¬ PaddingSet P inp ∨
    (¬ (P.eternParts < announced P inp ∧ packetCodecMaxBytes P < inp.length) ∧
      ¬ (packetCodecSizeFor P (announced P inp) ≤ inp.length ∧ ValuesInRange P inp))

theorem CodecSafe.readable {inp : List Byte} (h : CodecSafe P inp) : CodecReadable P inp := by
  by_cases hshort : inp.length < packetCodecPrefix P
  · exact .inl hshort
  by_cases hpad : PaddingSet P inp
  · refine .inr (.inr ⟨fun hlong => ?_, fun ⟨hlen, hvalues⟩ => ?_⟩)
    · exact h.fread false (packetCodecFread_overflow_iff.mpr ⟨by omega, hlong⟩)
    · have hfit : packetCodecValueBytes P (announced P inp) ≤ packetCodecPlaneSize P := by
        by_contra hover
        apply h.decode
        rw [packetCodecDecode_eq, if_neg (by omega), if_pos (by omega)]
      obtain ⟨q, n, hok⟩ := packetCodecDecode_isOk hlen hfit hvalues
      obtain ⟨halloc, hcount, -⟩ := packetCodecDecode_ok hok
      have hlt := (boardMarks_lt_iff inp).mpr hpad
      have heq := (h.decoded q n hok).1
      omega
  · exact .inr (.inl hpad)

theorem CodecReadable.safe {inp : List Byte} (h : CodecReadable P inp) : CodecSafe P inp := by
  have hlong : ¬ (P.eternParts < announced P inp ∧ packetCodecMaxBytes P < inp.length) := by
    rintro ⟨hann, hlen⟩
    rcases h with hshort | hclean | ⟨hlong, -⟩
    · unfold packetCodecPrefix at hshort
      unfold packetCodecMaxBytes at hlen
      omega
    · rw [announced_of_clean hclean] at hann
      have := boardMarks_le (P := P) inp
      omega
    · exact hlong ⟨hann, hlen⟩
  refine ⟨fun hover => hlong (packetCodecDecode_overflow hover),
    fun e hover => hlong (packetCodecFread_overflow_iff.mp hover).2,
    packetCodecCanonicalize_ne_overflow inp, fun q n hok => ?_⟩
  obtain ⟨halloc, hcount, hcells⟩ := packetCodecDecode_ok hok
  obtain ⟨hlen, hvalues⟩ := valuesInRange_of_ok hok
  refine ⟨?_, hcells⟩
  rcases h with hshort | hclean | ⟨-, hrefused⟩
  · have : packetCodecPrefix P ≤ packetCodecSizeFor P (announced P inp) := Nat.le_add_right _ _
    omega
  · rw [halloc, hcount, announced_of_clean hclean]
  · exact absurd ⟨hlen, hvalues⟩ hrefused

/-- The readers are safe exactly on those byte strings. -/
theorem codecSafe_iff (P : Puzzle) (inp : List Byte) : CodecSafe P inp ↔ CodecReadable P inp :=
  ⟨CodecSafe.readable, CodecReadable.safe⟩

/-- A record of a hundred-piece board with every bitmap bit set and 117 zero value bytes. -/
def paddedRecord : List Byte := List.replicate 6 0#8 ++ List.replicate 13 255#8 ++ List.replicate 117 0#8

/-- Decoding it copies 117 bytes into a buffer of 115. -/
theorem codecSafe_paddedRecord : ¬ ∀ (P : Puzzle) (inp : List Byte), CodecSafe P inp := by
  intro h
  apply (h .p100 paddedRecord).decode
  rw [packetCodecDecode_eq, if_neg (by decide +kernel), if_pos (by decide +kernel)]

/-- Sizes that are a multiple of 8 have no padding, and every byte string is safe. -/
theorem codecSafe_of_multiple (h : P.eternParts % 8 = 0) (inp : List Byte) : CodecSafe P inp := by
  apply CodecReadable.safe
  right
  left
  rw [paddingSet_iff]
  exact fun hpad => hpad.1 h

end Reading
