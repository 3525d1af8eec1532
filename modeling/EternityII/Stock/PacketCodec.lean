-- SUMMARY: The compact record of a packet: encoding, decoding, reading from a file, and the round trip.
import EternityII.Base.FieldPlane
import EternityII.Possibility.Packet

/-!
# The packet codec

A record is a header of six bytes, one bit for each cell of the board, and the values of
the filled cells packed one after the other. `alloc` and `b_faceused` are rebuilt when a
record is read. Readers work on local buffers: a copy that would not fit its buffer is the
outcome `overflow`.
-/

/-- A byte of a record. -/
abbrev Byte : Type := BitVec 8

/-- What a reader does with its input: it writes past one of its buffers, refuses the
input, or returns. -/
inductive Outcome (α : Type) where
  | overflow
  | error
  | ok (value : α)
  deriving DecidableEq

/-! ## Sizes -/

section Sizes

variable (P : Puzzle)

/-- `PACKET_CODEC_HEADER_BYTES`. -/
def packetCodecHeaderBytes : Nat := 6

/-- `PACKET_CODEC_BITMAP_BYTES`. -/
def packetCodecBitmapBytes : Nat := (P.eternParts + 7) / 8

/-- `PACKET_CODEC_VALUE_MAX`. -/
def packetCodecValueMax : Nat := 4 * P.eternParts

/-- `PACKET_CODEC_VALUE_BITS`. -/
def packetCodecValueBits : Nat :=
  if packetCodecValueMax P < 1 <<< 7 then 7
  else if packetCodecValueMax P < 1 <<< 8 then 8
  else if packetCodecValueMax P < 1 <<< 9 then 9
  else if packetCodecValueMax P < 1 <<< 10 then 10
  else if packetCodecValueMax P < 1 <<< 11 then 11
  else 12

/-- `PACKET_CODEC_VALUE_BYTES(a)`. -/
def packetCodecValueBytes (a : Nat) : Nat := (a * packetCodecValueBits P + 7) / 8

/-- `PACKET_CODEC_MAX_BYTES`. -/
def packetCodecMaxBytes : Nat :=
  packetCodecHeaderBytes + packetCodecBitmapBytes P + packetCodecValueBytes P P.eternParts

/-- `sizeof plane` in the encoder and the readers. -/
def packetCodecPlaneSize : Nat := packetCodecValueBytes P P.eternParts + 2

/-- Header and bitmap. -/
def packetCodecPrefix : Nat := packetCodecHeaderBytes + packetCodecBitmapBytes P

/-- `packet_codec_size_for`. -/
def packetCodecSizeFor (placed : Nat) : Nat :=
  packetCodecHeaderBytes + packetCodecBitmapBytes P + packetCodecValueBytes P placed

/-- `packet_codec_encoded_size`. -/
def packetCodecEncodedSize {P : Puzzle} (packet : Packet P) : Nat :=
  packetCodecSizeFor P (placedCount packet.grid)

theorem packetCodecValueBits_le : packetCodecValueBits P ≤ 16 := by cases P <;> decide

theorem packetCodecValueMax_lt : packetCodecValueMax P < 2 ^ packetCodecValueBits P := by
  cases P <;> decide

theorem eternParts_le_bitmap : P.eternParts ≤ packetCodecBitmapBytes P * 8 := by
  unfold packetCodecBitmapBytes
  omega

theorem packetCodecValueBytes_mono {a b : Nat} (h : a ≤ b) :
    packetCodecValueBytes P a ≤ packetCodecValueBytes P b := by
  have := Nat.mul_le_mul_right (packetCodecValueBits P) h
  unfold packetCodecValueBytes
  omega

/-- The value bytes hold all bits of the values. -/
theorem mul_valueBits_le (a : Nat) : a * packetCodecValueBits P ≤ packetCodecValueBytes P a * 8 := by
  unfold packetCodecValueBytes
  omega

end Sizes

/-! ## Encoding -/

/-- `put_u16`. -/
def putU16 (v : BitVec 16) : List Byte := [(v &&& 0xFF#16).setWidth 8, (v >>> 8).setWidth 8]

/-- `get_u16`. -/
def getU16 (b₀ b₁ : Byte) : BitVec 16 := b₀.setWidth 16 ||| b₁.setWidth 16 <<< 8

/-- `put_value`. -/
def putValue (P : Puzzle) (plane : Words 8) (slot : Nat) (value : BitVec 16) : Words 8 :=
  FieldPlane.put (packetCodecValueBits P) plane slot value

/-- `get_value`. -/
def getValue (P : Puzzle) (plane : Words 8) (slot : Nat) : BitVec 16 :=
  FieldPlane.get (packetCodecValueBits P) plane slot

section Encode

variable {P : Puzzle}

/-- The loops of `packet_codec_encode` over the cells: the bitmap, the plane and `k`. -/
def encodeLoop (grid : Grid P) : List (Cell P) → Words 8 → Words 8 → Nat → Option (Words 8 × Words 8)
  | [], bitmap, plane, _ => some (bitmap, plane)
  | c :: cells, bitmap, plane, k =>
    if grid c = -2 then encodeLoop grid cells bitmap plane k
    else if grid c < 0 ∨ grid c > packetCodecValueMax P then none
    else encodeLoop grid cells (bitmap.setBit c.pos)
      (putValue P plane k (BitVec.ofInt 16 (grid c))) (k + 1)

/-- The header bytes of a record. -/
def codecHeader (packet : Packet P) : List Byte :=
  [packet.x.toBitVec, packet.y.toBitVec, if packet.checked ≠ 0 then 1#8 else 0#8, 0#8] ++
    putU16 packet.minCandidats.toBitVec

/-- Header, bitmap and the value bytes copied behind it. -/
def codecRecord (packet : Packet P) (bitmap plane : Words 8) (placed : Nat) : List Byte :=
  codecHeader packet ++ (List.range (packetCodecBitmapBytes P)).map bitmap ++
    (List.range (packetCodecValueBytes P placed)).map plane

/-- `packet_codec_encode`: the bytes written to `out`, `none` for -1. -/
def packetCodecEncode (packet : Packet P) (outsize : Nat) : Option (List Byte) :=
  let placed := placedCount packet.grid
  let needed := packetCodecSizeFor P placed
  if outsize < needed then none
  else
    match encodeLoop packet.grid (Cell.all P) Words.zero Words.zero 0 with
    | none => none
    | some (bitmap, plane) => some (codecRecord packet bitmap plane placed)

end Encode

/-! ## Reading -/

/-- The bytes of a buffer; what was not written is zero. -/
def bytesAt (bytes : List Byte) : Words 8 := fun i => bytes.getD i 0

/-- `memcpy` into a buffer of `capacity` bytes cleared beforehand, `none` past its end. -/
def copyInto (capacity : Nat) (bytes : List Byte) : Option (Words 8) :=
  if bytes.length ≤ capacity then some (bytesAt bytes) else none

section Decode

variable (P : Puzzle)

/-- The set bits of the bitmap bytes: the loops that count `placed`, and `bitmap_placed`. -/
def bitmapPlaced (bitmap : Words 8) : Nat :=
  ((List.range (packetCodecBitmapBytes P)).map fun i => (bitmap i).popcount).sum

variable {P}

/-- The loop of `packet_codec_decode` over the cells: the grid, the mask and `k`. -/
def decodeLoop (bitmap plane : Words 8) : List Nat → Grid P → Words 16 → Nat →
    Option (Grid P × Words 16)
  | [], grid, faceused, _ => some (grid, faceused)
  | cell :: cells, grid, faceused, k =>
    if bitmap.bit cell = false then decodeLoop bitmap plane cells grid faceused k
    else
      let v := (getValue P plane k).toNat
      if v > packetCodecValueMax P then none
      else decodeLoop bitmap plane cells (grid.place (Cell.ofPos P cell) v)
        (if v ≥ 1 then setFaceUsed faceused ((v - 1) % P.eternParts) true else faceused) (k + 1)

/-- The fields `packet_codec_decode` reads from the header or derives. -/
def decodedPacket (inp : List Byte) (grid : Grid P) (faceused : Words 16) (placed : Nat) : Packet P where
  x := UInt8.ofBitVec (inp.getD 0 0)
  y := UInt8.ofBitVec (inp.getD 1 0)
  grid := grid
  alloc := UInt16.ofNat placed
  minCandidats := Int16.ofBitVec (getU16 (inp.getD 4 0) (inp.getD 5 0))
  bFaceused := faceused
  checked := if inp.getD 2 0 = 1#8 then 1 else 0

variable (P)

/-- `packet_codec_decode`: the packet and `*out_consumed`. -/
def packetCodecDecode (inp : List Byte) : Outcome (Packet P × Nat) :=
  if inp.length < packetCodecPrefix P then .error
  else
    let bitmap := bytesAt (inp.drop packetCodecHeaderBytes)
    let placed := bitmapPlaced P bitmap
    let total := packetCodecSizeFor P placed
    if inp.length < total then .error
    else
      match copyInto (packetCodecPlaneSize P)
          ((inp.drop (packetCodecPrefix P)).take (packetCodecValueBytes P placed)) with
      | none => .overflow
      | some plane =>
        match decodeLoop bitmap plane (List.range P.eternParts) (fun _ => -2) Words.zero 0 with
        | none => .error
        | some (grid, faceused) => .ok (decodedPacket inp grid faceused placed, total)

/-- `packet_codec_fread` on a stream that still holds `bytes`: `none` for a clean end of
file. `readError` says whether an empty read is an error and not the end of the file. -/
def packetCodecFread (bytes : List Byte) (readError : Bool) : Outcome (Option (Packet P)) :=
  let head := bytes.take (packetCodecPrefix P)
  if head.length = 0 then (if readError then .error else .ok none)
  else if head.length < packetCodecPrefix P then .error
  else
    let placed := bitmapPlaced P (bytesAt (head.drop packetCodecHeaderBytes))
    let rest := packetCodecValueBytes P placed
    let tail := (bytes.drop (packetCodecPrefix P)).take rest
    if packetCodecPrefix P + tail.length > packetCodecMaxBytes P then .overflow
    else if rest > 0 ∧ tail.length ≠ rest then .error
    else
      match packetCodecDecode P (head ++ tail) with
      | .overflow => .overflow
      | .error => .error
      | .ok (packet, _) => .ok (some packet)

/-- `packet_codec_peek_placed`, which is `element_placed` on a record of a pool. -/
def packetCodecPeekPlaced (bytes : List Byte) : UInt16 :=
  if bytes.length < packetCodecPrefix P then 0
  else .ofNat (bitmapPlaced P (bytesAt (bytes.drop packetCodecHeaderBytes)))

/-- `packet_codec_poke_checked`. -/
def packetCodecPokeChecked (record : List Byte) (checked : Bool) : List Byte :=
  if record.length < packetCodecHeaderBytes then record else record.set 2 (if checked then 1#8 else 0#8)

/-- `packet_codec_canonicalize` on the `rec.length` bytes available: the return value, the
record as it is left, and `*out_placed`. -/
def packetCodecCanonicalize (record : List Byte) (minCandidats : Int16) :
    Outcome (Nat × List Byte × Option Nat) :=
  if record.length < packetCodecPrefix P then .ok (0, record, none)
  else
    let bitmap := bytesAt (record.drop packetCodecHeaderBytes)
    let placed := bitmapPlaced P bitmap
    if P.eternParts % 8 ≠ 0 ∧
        bitmap (packetCodecBitmapBytes P - 1) >>> (P.eternParts % 8) ≠ 0#8 then .error
    else
      let total := packetCodecSizeFor P placed
      if record.length < total then .ok (0, record, none)
      else
        let planeBytes := packetCodecValueBytes P placed
        match copyInto (packetCodecPlaneSize P)
            ((record.drop (packetCodecPrefix P)).take planeBytes) with
        | none => .overflow
        | some plane =>
          if (List.range placed).any fun k => (getValue P plane k).toNat > packetCodecValueMax P then
            .error
          else
            let usedBits := placed * packetCodecValueBits P
            let record :=
              if usedBits % 8 ≠ 0 then
                record.modify (packetCodecPrefix P + planeBytes - 1)
                  (· &&& (1#8 <<< (usedBits % 8) - 1#8))
              else record
            let record := record.modify 2 fun b => if b = 1#8 then 1#8 else 0#8
            let record := record.set 3 0#8
            let u16 := putU16 minCandidats.toBitVec
            let record := (record.set 4 (u16.getD 0 0)).set 5 (u16.getD 1 0)
            .ok (total, record, some placed)

end Decode

/-! ## Bits of buffers -/

section Buffers

theorem getU16_putU16 (v : BitVec 16) :
    getU16 ((putU16 v).getD 0 0) ((putU16 v).getD 1 0) = v := by
  apply BitVec.eq_of_getLsbD_eq
  intro i hi
  simp only [putU16, getU16, List.getD_cons_zero, List.getD_cons_succ, BitVec.getLsbD_or,
    BitVec.getLsbD_setWidth, BitVec.getLsbD_shiftLeft, BitVec.getLsbD_and, BitVec.getLsbD_ushiftRight]
  have hmask : ∀ i < 16, (0xFF#16).getLsbD i = decide (i < 8) := by decide
  rw [hmask i hi]
  by_cases hlow : i < 8
  · simp [hi, hlow]
  · have hback : 8 + (i - 8) = i := by omega
    simp [hi, hlow, hback, show i - 8 < 8 by omega, show i - 8 < 16 by omega]

/-- Bits of a buffer filled from the first bytes of an array. -/
theorem bit_bytesAt_map (f : Words 8) {m j : Nat} (rest : List Byte) (hj : j < m * 8) :
    (bytesAt ((List.range m).map f ++ rest)).bit j = f.bit j := by
  have hlt : j / 8 < m := by omega
  unfold Words.bit bytesAt
  rw [List.getD_eq_getElem?_getD, List.getElem?_append_left (by simpa using hlt)]
  simp [hlt]

variable {P : Puzzle}

/-- Counting the marked cells: those of the board and those in the padding. -/
theorem bitmapPlaced_eq (bitmap : Words 8) :
    bitmapPlaced P bitmap = (Cell.all P).countP (fun c => bitmap.bit c.pos) +
      ((List.range (packetCodecBitmapBytes P * 8 - P.eternParts)).map (P.eternParts + ·)).countP
        bitmap.bit := by
  have hle := eternParts_le_bitmap P
  have hsplit : packetCodecBitmapBytes P * 8 =
      P.eternParts + (packetCodecBitmapBytes P * 8 - P.eternParts) := by omega
  have hboard : (List.range P.eternParts).countP bitmap.bit =
      (Cell.all P).countP fun c => bitmap.bit c.pos := by
    rw [← Cell.range_map_ofPos, List.countP_map]
    refine List.countP_congr fun n hn => ?_
    rw [Function.comp_apply, Cell.pos_ofPos (List.mem_range.mp hn)]
  rw [bitmapPlaced, Words.sum_popcount (by decide), ← hboard]
  conv_lhs => rw [hsplit]
  rw [List.range_add, List.countP_append]

theorem all_map_pos (P : Puzzle) : (Cell.all P).map Cell.pos = List.range P.eternParts := by
  rw [← Cell.range_map_ofPos, List.map_map]
  refine (List.map_congr_left fun n hn => ?_).trans (List.map_id _)
  exact Cell.pos_ofPos (List.mem_range.mp hn)

end Buffers

/-! ## The round trip -/

section RoundTrip

variable {P : Puzzle}

/-- A cell value that a record can hold. -/
def CodecValue (P : Puzzle) (v : Int) : Prop := v = -2 ∨ 0 ≤ v ∧ v ≤ 4 * P.eternParts

/-- The filled cells of a list. -/
def filledCount (grid : Grid P) (cells : List (Cell P)) : Nat := cells.countP fun c => grid c ≠ -2

/-- The grid after the filled cells of a list have been written over it. -/
def overwrite (grid base : Grid P) (cells : List (Cell P)) : Grid P :=
  fun c => if c ∈ cells ∧ grid c ≠ -2 then grid c else base c

private theorem toNat_ofInt {v : Int} (hv : 0 ≤ v ∧ v ≤ 4 * P.eternParts) :
    (BitVec.ofInt 16 v).toNat = v.toNat ∧ v.toNat ≤ packetCodecValueMax P := by
  have hparts := P.eternParts_le
  obtain ⟨n, rfl⟩ : ∃ n : Nat, v = n := ⟨v.toNat, by omega⟩
  rw [BitVec.ofInt_natCast, BitVec.toNat_ofNat, Int.toNat_natCast]
  unfold packetCodecValueMax
  omega

/-- What the encoder leaves in the bitmap and in the plane. -/
private structure EncodeSpec (grid : Grid P) (cells : List (Cell P)) (bitmap plane : Words 8) (k : Nat)
    (bitmap' plane' : Words 8) : Prop where
  bitmap : ∀ j, bitmap'.bit j = true ↔
    bitmap.bit j = true ∨ ∃ c ∈ cells, grid c ≠ -2 ∧ c.pos = j
  frame : ∀ j < k * packetCodecValueBits P, plane'.bit j = plane.bit j

/-- A reader whose bitmap and plane agree with what was written recovers the cells. -/
private def Decodes (grid : Grid P) (cells : List (Cell P)) (k : Nat) (plane' : Words 8) : Prop :=
  ∀ bitmap plane : Words 8,
    (∀ c ∈ cells, bitmap.bit c.pos = decide (grid c ≠ -2)) →
    (∀ j < (k + filledCount grid cells) * packetCodecValueBits P, plane.bit j = plane'.bit j) →
    ∀ (base : Grid P) (faceused : Words 16), ∃ faceused',
      decodeLoop bitmap plane (cells.map Cell.pos) base faceused k =
        some (overwrite grid base cells, faceused') ∧
      ∀ j, isFaceUsed faceused' j = true ↔
        isFaceUsed faceused j = true ∨
          ∃ c ∈ cells, 1 ≤ grid c ∧ ((grid c).toNat - 1) % P.eternParts = j

private theorem overwrite_skip {grid base : Grid P} {c : Cell P} {cells : List (Cell P)}
    (hc : grid c = -2) : overwrite grid base (c :: cells) = overwrite grid base cells := by
  funext c'
  unfold overwrite
  by_cases h : c' = c
  · subst h
    simp [hc]
  · simp [h]

private theorem overwrite_cons {grid base : Grid P} {c : Cell P} {cells : List (Cell P)}
    (hc : grid c ≠ -2) :
    overwrite grid base (c :: cells) = overwrite grid (base.place c (grid c)) cells := by
  funext c'
  unfold overwrite
  by_cases h : c' = c
  · subst h
    simp [hc]
  · simp [h, Grid.place_of_ne h]

private theorem encodeLoop_spec (grid : Grid P) {cells : List (Cell P)} (bitmap plane : Words 8)
    (k : Nat) (hdom : ∀ c ∈ cells, CodecValue P (grid c))
    (hzero : ∀ j, k * packetCodecValueBits P ≤ j → plane.bit j = false) :
    ∃ bitmap' plane', encodeLoop grid cells bitmap plane k = some (bitmap', plane') ∧
      EncodeSpec grid cells bitmap plane k bitmap' plane' ∧ Decodes grid cells k plane' := by
  have hn := packetCodecValueBits_le P
  induction cells generalizing bitmap plane k with
  | nil =>
    refine ⟨bitmap, plane, rfl, ⟨by simp, fun _ _ => rfl⟩, ?_⟩
    intro _ _ _ _ base faceused
    refine ⟨faceused, ?_, by simp⟩
    rw [List.map_nil, decodeLoop]
    exact congrArg some (Prod.ext (funext fun c => by simp [overwrite]) rfl)
  | cons c cells ih =>
    have hdom' : ∀ c' ∈ cells, CodecValue P (grid c') := fun c' h => hdom c' (List.mem_cons_of_mem _ h)
    rw [encodeLoop]
    by_cases hc : grid c = -2
    · rw [if_pos hc]
      obtain ⟨bitmap', plane', hrun, henc, hdec⟩ := ih bitmap plane k hdom' hzero
      refine ⟨bitmap', plane', hrun, ⟨fun j => ?_, henc.frame⟩, ?_⟩
      · rw [henc.bitmap]
        simp [hc]
      · intro bm pl hbm hpl base faceused
        rw [List.map_cons, decodeLoop, hbm c List.mem_cons_self]
        have hcount : filledCount grid (c :: cells) = filledCount grid cells := by
          simp [filledCount, hc]
        rw [hcount] at hpl
        obtain ⟨faceused', hrun', hmask⟩ := hdec bm pl
          (fun c' h => hbm c' (List.mem_cons_of_mem _ h)) hpl base faceused
        refine ⟨faceused', ?_, fun j => ?_⟩
        · rw [if_pos (by simp [hc]), hrun', overwrite_skip hc]
        · rw [hmask]
          simp [hc]
    · have hv := (hdom c List.mem_cons_self).resolve_left hc
      obtain ⟨hvalue, hmax⟩ := toNat_ofInt hv
      have hbits : (BitVec.ofInt 16 (grid c)).toNat < 2 ^ packetCodecValueBits P := by
        rw [hvalue]
        exact Nat.lt_of_le_of_lt hmax (packetCodecValueMax_lt P)
      rw [if_neg hc, if_neg (by unfold packetCodecValueMax; push_cast; omega)]
      obtain ⟨bitmap', plane', hrun, henc, hdec⟩ := ih (bitmap.setBit c.pos)
        (putValue P plane k (BitVec.ofInt 16 (grid c))) (k + 1) hdom' (fun j hj => by
          have hj' : k * packetCodecValueBits P ≤ j := by
            rw [Nat.succ_mul] at hj
            omega
          rw [putValue, FieldPlane.bit_put_of_outside hn hbits (.inr hj), hzero j hj'])
      refine ⟨bitmap', plane', hrun, ⟨fun j => ?_, fun j hj => ?_⟩, ?_⟩
      · rw [henc.bitmap, Words.bit_setBit (by decide)]
        simp [hc, or_assoc, or_left_comm]
      · rw [henc.frame j (by rw [Nat.succ_mul]; omega), putValue,
          FieldPlane.bit_put_of_outside hn hbits (.inl hj)]
      · intro bm pl hbm hpl base faceused
        rw [List.map_cons, decodeLoop, hbm c List.mem_cons_self]
        have hcount : filledCount grid (c :: cells) = filledCount grid cells + 1 := by
          simp [filledCount, hc]
        rw [hcount] at hpl
        -- The field of this cell is still what this step wrote.
        have hfield : getValue P pl k = BitVec.ofInt 16 (grid c) := by
          have hsame : getValue P pl k = getValue P (putValue P plane k (BitVec.ofInt 16 (grid c))) k := by
            refine FieldPlane.get_congr hn fun i hi => ?_
            have hi' : k * packetCodecValueBits P + i < (k + 1) * packetCodecValueBits P := by
              rw [Nat.succ_mul]
              omega
            have hle : (k + 1) * packetCodecValueBits P ≤
                (k + (filledCount grid cells + 1)) * packetCodecValueBits P :=
              Nat.mul_le_mul_right _ (by omega)
            rw [hpl _ (by omega), henc.frame _ hi']
          rw [hsame]
          exact FieldPlane.get_put hn hbits fun i _ => hzero _ (by omega)
        obtain ⟨faceused', hrun', hmask⟩ := hdec bm pl
          (fun c' h => hbm c' (List.mem_cons_of_mem _ h))
          (fun j hj => hpl j (by rwa [Nat.add_right_comm, Nat.add_assoc] at hj)) (base.place c (grid c))
          (if (grid c).toNat ≥ 1 then setFaceUsed faceused (((grid c).toNat - 1) % P.eternParts) true
            else faceused)
        refine ⟨faceused', ?_, fun j => ?_⟩
        · rw [if_neg (by simp [hc]), hfield, hvalue, if_neg (by omega), Cell.ofPos_pos,
            Int.toNat_of_nonneg hv.1, hrun', overwrite_cons hc]
        · rw [hmask]
          by_cases hone : (grid c).toNat ≥ 1
          · have hone' : 1 ≤ grid c := by omega
            simp only [hone, if_true, isFaceUsed_setFaceUsed, List.mem_cons, exists_eq_or_imp, hone',
              true_and]
            by_cases hj : ((grid c).toNat - 1) % P.eternParts = j <;> simp [hj]
          · have hone' : ¬ 1 ≤ grid c := by omega
            simp [hone, hone']

private theorem encodeLoop_eq_none {grid : Grid P} {cells : List (Cell P)} (bitmap plane : Words 8)
    (k : Nat) (h : ∃ c ∈ cells, ¬ CodecValue P (grid c)) :
    encodeLoop grid cells bitmap plane k = none := by
  induction cells generalizing bitmap plane k with
  | nil =>
    obtain ⟨c, hc, -⟩ := h
    exact absurd hc List.not_mem_nil
  | cons c cells ih =>
    rw [encodeLoop]
    by_cases hv : CodecValue P (grid c)
    · have h' : ∃ c ∈ cells, ¬ CodecValue P (grid c) := by
        obtain ⟨c', hmem, hc'⟩ := h
        rcases List.mem_cons.mp hmem with rfl | hmem
        · exact absurd hv hc'
        · exact ⟨c', hmem, hc'⟩
      split
      · exact ih _ _ _ h'
      · split
        · rfl
        · exact ih _ _ _ h'
    · have hne : grid c ≠ -2 := fun heq => hv (.inl heq)
      have hout : grid c < 0 ∨ grid c > packetCodecValueMax P := by
        by_contra hin
        apply hv
        right
        unfold packetCodecValueMax at hin
        push_cast at hin
        omega
      rw [if_neg hne, if_pos hout]

/-- The bitmap of an encoded grid marks its filled cells and no padding. -/
private theorem bitmapPlaced_of_spec {grid : Grid P} {bitmap plane bitmap' plane' : Words 8}
    (hzero : ∀ j, bitmap.bit j = false)
    (h : EncodeSpec grid (Cell.all P) bitmap plane 0 bitmap' plane') (bm : Words 8)
    (hbm : ∀ j < packetCodecBitmapBytes P * 8, bm.bit j = bitmap'.bit j) :
    bitmapPlaced P bm = placedCount grid ∧
      ∀ c ∈ Cell.all P, bm.bit c.pos = decide (grid c ≠ -2) := by
  have hle := eternParts_le_bitmap P
  have hcell : ∀ c ∈ Cell.all P, bm.bit c.pos = decide (grid c ≠ -2) := by
    intro c _
    have hpos := c.pos_lt
    rw [hbm c.pos (by omega), Bool.eq_iff_iff, h.bitmap, hzero, decide_eq_true_iff]
    simp only [Bool.false_eq_true, false_or, Cell.mem_all, true_and]
    constructor
    · rintro ⟨c', hc', heq⟩
      rwa [← Cell.pos_injective heq]
    · exact fun hc => ⟨c, hc, rfl⟩
  refine ⟨?_, hcell⟩
  have hpad : ((List.range (packetCodecBitmapBytes P * 8 - P.eternParts)).map
      (P.eternParts + ·)).countP bm.bit = 0 := by
    rw [List.countP_eq_zero]
    intro j hj
    obtain ⟨i, hi, rfl⟩ := List.mem_map.mp hj
    have hi := List.mem_range.mp hi
    rw [hbm _ (by omega), h.bitmap, hzero]
    rintro (hf | ⟨c, -, -, heq⟩)
    · exact absurd hf (by simp)
    · have := c.pos_lt
      omega
  rw [bitmapPlaced_eq, hpad, Nat.add_zero, placedCount]
  exact List.countP_congr fun c hc => by rw [hcell c hc]

/-- What comes back for a packet whose cells a record can hold. -/
structure Canonical (p q : Packet P) : Prop where
  x : q.x = p.x
  y : q.y = p.y
  minCandidats : q.minCandidats = p.minCandidats
  grid : q.grid = p.grid
  checked : q.checked = if p.checked ≠ 0 then 1 else 0
  alloc : q.alloc.toNat = placedCount p.grid
  faceUsed : ∀ j, isFaceUsed q.bFaceused j = true ↔
    ∃ c, 1 ≤ p.grid c ∧ ((p.grid c).toNat - 1) % P.eternParts = j

theorem packetCodecEncodedSize_le (p : Packet P) : packetCodecEncodedSize p ≤ packetCodecMaxBytes P := by
  have h := packetCodecValueBytes_mono P (placedCount_le p.grid)
  unfold packetCodecEncodedSize packetCodecSizeFor packetCodecMaxBytes
  omega

section Record

variable (p : Packet P) (bitmap plane : Words 8) (placed : Nat) (rest : List Byte)

theorem length_codecRecord :
    (codecRecord p bitmap plane placed).length = packetCodecSizeFor P placed := by
  simp [codecRecord, codecHeader, putU16, packetCodecSizeFor, packetCodecHeaderBytes]
  omega

theorem drop_header_codecRecord :
    (codecRecord p bitmap plane placed ++ rest).drop packetCodecHeaderBytes =
      (List.range (packetCodecBitmapBytes P)).map bitmap ++
        ((List.range (packetCodecValueBytes P placed)).map plane ++ rest) := by
  have hlen : packetCodecHeaderBytes = (codecHeader p).length := rfl
  rw [codecRecord, List.append_assoc, List.append_assoc, hlen, List.drop_left]

theorem drop_prefix_codecRecord :
    (codecRecord p bitmap plane placed ++ rest).drop (packetCodecPrefix P) =
      (List.range (packetCodecValueBytes P placed)).map plane ++ rest := by
  rw [packetCodecPrefix, ← List.drop_drop, drop_header_codecRecord]
  exact List.drop_left' (by simp)

end Record

/-- A record of a packet with valid cells decodes to its canonical form, whatever follows it. -/
theorem packetCodecDecode_append (p : Packet P) (hdom : ∀ c, CodecValue P (p.grid c)) (outsize : Nat)
    (hout : packetCodecEncodedSize p ≤ outsize) :
    ∃ record, packetCodecEncode p outsize = some record ∧
      record.length = packetCodecEncodedSize p ∧
      ∀ rest, ∃ q, packetCodecDecode P (record ++ rest) = .ok (q, record.length) ∧ Canonical p q := by
  obtain ⟨bitmap, plane, hrun, henc, hdec⟩ := encodeLoop_spec p.grid Words.zero Words.zero 0
    (fun c (_ : c ∈ Cell.all P) => hdom c) (fun j _ => Words.bit_zero j)
  have hlen := length_codecRecord p bitmap plane (placedCount p.grid)
  refine ⟨codecRecord p bitmap plane (placedCount p.grid), ?_, hlen, fun rest => ?_⟩
  · rw [packetCodecEncode, if_neg (by unfold packetCodecEncodedSize at hout; omega), hrun]
  -- The reader finds the encoder's bitmap and as many value bytes as it wrote.
  obtain ⟨hplaced, hcells⟩ := bitmapPlaced_of_spec Words.bit_zero henc (bytesAt
    ((codecRecord p bitmap plane (placedCount p.grid) ++ rest).drop packetCodecHeaderBytes)) fun j hj => by rw [drop_header_codecRecord, bit_bytesAt_map _ _ hj]
  have hcopy : copyInto (packetCodecPlaneSize P) (((codecRecord p bitmap plane (placedCount p.grid) ++
      rest).drop (packetCodecPrefix P)).take (packetCodecValueBytes P (placedCount p.grid))) =
      some (bytesAt ((List.range (packetCodecValueBytes P (placedCount p.grid))).map plane)) := by
    have hle := packetCodecValueBytes_mono P (placedCount_le p.grid)
    rw [drop_prefix_codecRecord, List.take_left' (by simp), copyInto, if_pos]
    unfold packetCodecPlaneSize
    simp
    omega
  obtain ⟨faceused, hloop, hmask⟩ := hdec _ (bytesAt ((List.range (packetCodecValueBytes P
    (placedCount p.grid))).map plane)) hcells (fun j hj => by
      have hbits := mul_valueBits_le P (placedCount p.grid)
      have hj : j < placedCount p.grid * packetCodecValueBits P := by
        simpa [filledCount, placedCount] using hj
      have h := bit_bytesAt_map plane [] (show j < packetCodecValueBytes P (placedCount p.grid) * 8 by omega)
      rwa [List.append_nil] at h) (fun _ => -2) Words.zero
  have hgrid : overwrite p.grid (fun _ => -2) (Cell.all P) = p.grid := by
    funext c
    by_cases hc : p.grid c = -2 <;> simp [overwrite, hc]
  rw [all_map_pos, hgrid] at hloop
  have htotal : ¬ (codecRecord p bitmap plane (placedCount p.grid) ++ rest).length <
      packetCodecSizeFor P (placedCount p.grid) := by
    rw [List.length_append, hlen]
    omega
  have hhead : ¬ (codecRecord p bitmap plane (placedCount p.grid) ++ rest).length <
      packetCodecPrefix P := by
    unfold packetCodecSizeFor at htotal
    unfold packetCodecPrefix
    omega
  refine ⟨decodedPacket (codecRecord p bitmap plane (placedCount p.grid) ++ rest) p.grid faceused
    (placedCount p.grid), ?_, ?_⟩
  · rw [packetCodecDecode, if_neg hhead]
    dsimp only
    rw [hplaced, if_neg htotal, hcopy]
    dsimp only
    rw [hloop, hlen]
  · have hcount := placedCount_le p.grid
    have hparts := P.eternParts_le
    have hu16 := getU16_putU16 p.minCandidats.toBitVec
    refine ⟨rfl, rfl, ?_, rfl, ?_, ?_, fun j => ?_⟩
    · show Int16.ofBitVec (getU16 ((putU16 p.minCandidats.toBitVec).getD 0 0)
        ((putU16 p.minCandidats.toBitVec).getD 1 0)) = _
      rw [hu16]
      rfl
    · show (if (if p.checked ≠ 0 then 1#8 else 0#8) = 1#8 then (1 : UInt8) else 0) = _
      by_cases hck : p.checked = 0 <;> simp [hck]
    · show (UInt16.ofNat (placedCount p.grid)).toNat = _
      rw [UInt16.toNat_ofNat', Nat.mod_eq_of_lt (by omega)]
    · show isFaceUsed faceused j = true ↔ _
      rw [hmask]
      simp [isFaceUsed]

/-- A packet with a cell out of range has no record. -/
theorem packetCodecEncode_eq_none {p : Packet P} {outsize : Nat} (h : ∃ c, ¬ CodecValue P (p.grid c)) :
    packetCodecEncode p outsize = none := by
  obtain ⟨c, hc⟩ := h
  rw [packetCodecEncode, encodeLoop_eq_none _ _ _ ⟨c, Cell.mem_all c, hc⟩]
  simp

/-- `packet_codec_encode` writes a record of the announced size for every packet with valid
cells, `packet_codec_decode` takes exactly that record back, and no other packet is encoded. -/
theorem packetCodec_roundTrip (p : Packet P) (outsize : Nat) :
    packetCodecEncodedSize p ≤ packetCodecMaxBytes P ∧
      ((∀ c, CodecValue P (p.grid c)) → packetCodecEncodedSize p ≤ outsize →
        ∃ record, packetCodecEncode p outsize = some record ∧
          record.length = packetCodecEncodedSize p ∧
          ∀ rest, ∃ q, packetCodecDecode P (record ++ rest) = .ok (q, record.length) ∧
            Canonical p q) ∧
      ((∃ c, ¬ CodecValue P (p.grid c)) → packetCodecEncode p outsize = none) := by
  exact ⟨packetCodecEncodedSize_le p, fun hdom hout => packetCodecDecode_append p hdom outsize hout,
    packetCodecEncode_eq_none⟩

/-- Values of well-formed grids fit in a record. -/
theorem codecValue_of_wellFormed {ps : PieceSet P} {g : Grid P} (hg : g.WellFormed ps) (c : Cell P) :
    CodecValue P (g c) := by
  rcases hg.cell c with h | h
  · exact .inl h
  · have := isPiece_iff.mp h
    exact .inr (by omega)

/-- The solved board of the hundred-piece frame set, written to a full-size buffer. -/
theorem packetCodec_roundTrip_frame :
    ∃ record, packetCodecEncode (Frame.packet (P := .p100) fun _ => true) 132 = some record ∧
      record.length = packetCodecEncodedSize (Frame.packet (P := .p100) fun _ => true) ∧
      ∀ rest, ∃ q, packetCodecDecode .p100 (record ++ rest) = .ok (q, record.length) ∧
        Canonical (Frame.packet fun _ => true) q :=
  (packetCodec_roundTrip (Frame.packet (P := .p100) fun _ => true) 132).2.1
    (codecValue_of_wellFormed (Frame.packet_wellFormed _).grid)
    (packetCodec_roundTrip (Frame.packet (P := .p100) fun _ => true) 132).1

end RoundTrip
