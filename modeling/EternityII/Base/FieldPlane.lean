-- SUMMARY: A plane of equally wide fields packed into bytes, low bit first: writing and reading one field.
import EternityII.Base.BitWords

/-!
# Packed fields

Fields of `n` bits each lie one after the other in an array of bytes, low bit first, so a
field may start anywhere in a byte and end in another one. Writing goes through a 32-bit
word shifted to the field's first bit and spreads over three bytes; reading collects the
same three bytes. Both are exact for widths up to 16.
-/

namespace FieldPlane

variable {n : Nat}

/-- Or the field `slot` of an array of bytes with `value`. -/
def put (n : Nat) (plane : Words 8) (slot : Nat) (value : BitVec 16) : Words 8 :=
  let byte := slot * n / 8
  let shift := slot * n % 8
  let v := value.setWidth 32 <<< shift
  let plane := plane.orWord byte (v.setWidth 8)
  let plane := plane.orWord (byte + 1) ((v >>> 8).setWidth 8)
  if shift + n > 16 then plane.orWord (byte + 2) ((v >>> 16).setWidth 8) else plane

/-- Read the field `slot` of an array of bytes. -/
def get (n : Nat) (plane : Words 8) (slot : Nat) : BitVec 16 :=
  let byte := slot * n / 8
  let shift := slot * n % 8
  let v := (plane byte).setWidth 32 ||| (plane (byte + 1)).setWidth 32 <<< 8
  let v := if shift + n > 16 then v ||| (plane (byte + 2)).setWidth 32 <<< 16 else v
  ((v >>> shift) &&& (1#32 <<< n - 1#32)).setWidth 16

/-- The bits of a value below `2 ^ n`. -/
theorem getLsbD_of_lt {value : BitVec 16} (hv : value.toNat < 2 ^ n) {i : Nat} (hi : n ≤ i) :
    value.getLsbD i = false :=
  Nat.testBit_lt_two_pow (Nat.lt_of_lt_of_le hv (Nat.pow_le_pow_right (by decide) hi))

/-- The bits of byte `i` of the shifted word. -/
private theorem getLsbD_byte (value : BitVec 16) {shift i k : Nat} (hi : i < 3) (hk : k < 8) :
    (((value.setWidth 32 <<< shift) >>> (8 * i)).setWidth 8).getLsbD k =
      (decide (shift ≤ 8 * i + k) && value.getLsbD (8 * i + k - shift)) := by
  have h32 : 8 * i + k < 32 := by omega
  have hsub : 8 * i + k - shift < 32 := by omega
  rw [BitVec.getLsbD_setWidth, BitVec.getLsbD_ushiftRight, BitVec.getLsbD_shiftLeft,
    BitVec.getLsbD_setWidth]
  by_cases h : shift ≤ 8 * i + k
  · simp [hk, h32, hsub, h]
  · simp [hk, h32, h]

/-- Writing a field sets the bits of the value in the field and nothing else. -/
theorem bit_put (hn : n ≤ 16) {value : BitVec 16} (hv : value.toNat < 2 ^ n) (plane : Words 8)
    (slot j : Nat) :
    (put n plane slot value).bit j =
      (plane.bit j || (decide (slot * n ≤ j) && value.getLsbD (j - slot * n))) := by
  have hfirst := Nat.div_add_mod (slot * n) 8
  have hshift := Nat.mod_lt (slot * n) (show 0 < 8 by decide)
  have hj := Nat.div_add_mod j 8
  have hr := Nat.mod_lt j (show 0 < 8 by decide)
  unfold put
  generalize slot * n = first at *
  generalize first / 8 = byte at *
  generalize first % 8 = shift at *
  have h₀ : ((value.setWidth 32 <<< shift).setWidth 8).getLsbD (j % 8) =
      (decide (shift ≤ j % 8) && value.getLsbD (j % 8 - shift)) := by
    simpa using getLsbD_byte value (i := 0) (by decide) hr
  have h₁ : (((value.setWidth 32 <<< shift) >>> 8).setWidth 8).getLsbD (j % 8) = _ :=
    getLsbD_byte value (i := 1) (by decide) hr
  have h₂ : (((value.setWidth 32 <<< shift) >>> 16).setWidth 8).getLsbD (j % 8) = _ :=
    getLsbD_byte value (i := 2) (by decide) hr
  have hthird : ∀ a : Words 8, (if shift + n > 16 then
        a.orWord (byte + 2) (((value.setWidth 32 <<< shift) >>> 16).setWidth 8) else a).bit j =
      (a.bit j || (decide (j / 8 = byte + 2) &&
        (decide (shift ≤ 16 + j % 8) && value.getLsbD (16 + j % 8 - shift)))) := by
    intro a
    split
    · rw [Words.bit_orWord, h₂]
    · rw [getLsbD_of_lt hv (by omega : n ≤ 16 + j % 8 - shift)]
      simp
  dsimp only
  rw [hthird, Words.bit_orWord, Words.bit_orWord, h₀, h₁]
  -- The byte of `j` decides which of the three writes reaches it.
  rcases Nat.lt_trichotomy (j / 8) byte with hq | hq | hq
  · have hlt : ¬ first ≤ j := by omega
    simp [hlt, show j / 8 ≠ byte by omega, show j / 8 ≠ byte + 1 by omega,
      show j / 8 ≠ byte + 2 by omega]
  · have hle : shift ≤ j % 8 ↔ first ≤ j := by omega
    simp [hq, hle, show j % 8 - shift = j - first by omega]
  · have hle : first ≤ j := by omega
    by_cases hq₁ : j / 8 = byte + 1
    · simp [hq₁, hle, show shift ≤ 8 + j % 8 by omega, show 8 + j % 8 - shift = j - first by omega]
    · by_cases hq₂ : j / 8 = byte + 2
      · simp [hq₂, hle, show shift ≤ 16 + j % 8 by omega,
          show 16 + j % 8 - shift = j - first by omega]
      · rw [getLsbD_of_lt hv (by omega : n ≤ j - first)]
        simp [hq₁, hq₂, show j / 8 ≠ byte by omega]

/-- Byte `i` of the window a field is read from. -/
private theorem getLsbD_window (plane : Words 8) {byte i k : Nat} (hi : i < 3) :
    ((plane (byte + i)).setWidth 32 <<< (8 * i)).getLsbD k =
      (decide (8 * i ≤ k ∧ k < 8 * i + 8) && plane.bit (8 * byte + k)) := by
  rw [BitVec.getLsbD_shiftLeft, BitVec.getLsbD_setWidth]
  by_cases h : 8 * i ≤ k ∧ k < 8 * i + 8
  · have hbyte : (8 * byte + k) / 8 = byte + i := by omega
    have hbit : (8 * byte + k) % 8 = k - 8 * i := by omega
    simp [h, Words.bit, hbyte, hbit, show k < 32 by omega, show k - 8 * i < 32 by omega]
  · by_cases hlow : k < 8 * i
    · simp [h, hlow]
    · rw [BitVec.getLsbD_of_ge _ _ (show 8 ≤ k - 8 * i by omega)]
      simp [h]

private theorem getLsbD_mask (hn : n ≤ 16) (i : Nat) : (1#32 <<< n - 1#32).getLsbD i = decide (i < n) := by
  have hlt : 2 ^ n < 2 ^ 32 := Nat.pow_lt_pow_right (by decide) (by omega)
  have hpos : 0 < 2 ^ n := Nat.two_pow_pos n
  have hval : (1#32 <<< n - 1#32).toNat = 2 ^ n - 1 := by
    rw [BitVec.toNat_sub, BitVec.toNat_shiftLeft, Nat.shiftLeft_eq]
    simp only [BitVec.toNat_ofNat]
    omega
  rw [BitVec.getLsbD, hval, Nat.testBit_two_pow_sub_one]

/-- Reading a field gives its bits. -/
theorem getLsbD_get (hn : n ≤ 16) (plane : Words 8) (slot i : Nat) :
    (get n plane slot).getLsbD i = (decide (i < n) && plane.bit (slot * n + i)) := by
  have hfirst := Nat.div_add_mod (slot * n) 8
  have hshift := Nat.mod_lt (slot * n) (show 0 < 8 by decide)
  unfold get
  generalize slot * n = first at *
  generalize first / 8 = byte at *
  generalize first % 8 = shift at *
  have h₀ : ∀ k, ((plane byte).setWidth 32).getLsbD k =
      (decide (0 ≤ k ∧ k < 8) && plane.bit (8 * byte + k)) := fun k => by
    simpa using getLsbD_window plane (i := 0) (k := k) (by decide)
  have h₁ : ∀ k, ((plane (byte + 1)).setWidth 32 <<< 8).getLsbD k = _ := fun k =>
    getLsbD_window plane (i := 1) (by decide)
  have h₂ : ∀ k, ((plane (byte + 2)).setWidth 32 <<< 16).getLsbD k = _ := fun k =>
    getLsbD_window plane (i := 2) (by decide)
  by_cases hi : i < n
  · have hk : 8 * byte + (shift + i) = first + i := by omega
    have hbits : ∀ v : BitVec 32, v.getLsbD (shift + i) = plane.bit (first + i) →
        ((v >>> shift &&& (1#32 <<< n - 1#32)).setWidth 16).getLsbD i =
          (decide (i < n) && plane.bit (first + i)) := fun v hv => by
      rw [BitVec.getLsbD_setWidth, BitVec.getLsbD_and, BitVec.getLsbD_ushiftRight, getLsbD_mask hn, hv]
      simp [hi, show i < 16 by omega]
    dsimp only
    split
    · apply hbits
      rw [BitVec.getLsbD_or, BitVec.getLsbD_or, h₀, h₁, h₂, hk]
      by_cases hlow : shift + i < 8
      · simp [hlow, show ¬ 8 ≤ shift + i by omega, show ¬ 16 ≤ shift + i by omega]
      · by_cases hmid : shift + i < 16
        · simp [hlow, hmid, show 8 ≤ shift + i by omega, show ¬ 16 ≤ shift + i by omega]
        · simp [hlow, hmid, show 16 ≤ shift + i by omega, show shift + i < 24 by omega]
    · apply hbits
      rw [BitVec.getLsbD_or, h₀, h₁, hk]
      by_cases hlow : shift + i < 8
      · simp [hlow, show ¬ 8 ≤ shift + i by omega]
      · simp [hlow, show 8 ≤ shift + i by omega, show shift + i < 16 by omega]
  · dsimp only
    rw [BitVec.getLsbD_setWidth, BitVec.getLsbD_and, getLsbD_mask hn]
    simp [hi]

/-! ## Reading back -/

/-- A field depends on its own bits only. -/
theorem get_congr (hn : n ≤ 16) {plane plane' : Words 8} {slot : Nat}
    (h : ∀ i < n, plane.bit (slot * n + i) = plane'.bit (slot * n + i)) :
    get n plane slot = get n plane' slot := by
  apply BitVec.eq_of_getLsbD_eq
  intro i _
  rw [getLsbD_get hn, getLsbD_get hn]
  by_cases hi : i < n
  · rw [h i hi]
  · simp [hi]

/-- A field written over zero bits reads back. -/
theorem get_put (hn : n ≤ 16) {plane : Words 8} {slot : Nat} {value : BitVec 16}
    (hv : value.toNat < 2 ^ n) (hzero : ∀ i < n, plane.bit (slot * n + i) = false) :
    get n (put n plane slot value) slot = value := by
  apply BitVec.eq_of_getLsbD_eq
  intro i _
  rw [getLsbD_get hn, bit_put hn hv]
  by_cases hi : i < n
  · simp [hi, hzero i hi]
  · have hhigh : value.getLsbD i = false := getLsbD_of_lt hv (by omega)
    simp [hi, hhigh]

/-- Writing one field leaves the bits outside it alone. -/
theorem bit_put_of_outside (hn : n ≤ 16) {plane : Words 8} {slot j : Nat} {value : BitVec 16}
    (hv : value.toNat < 2 ^ n) (hj : j < slot * n ∨ (slot + 1) * n ≤ j) :
    (put n plane slot value).bit j = plane.bit j := by
  rw [bit_put hn hv]
  rcases hj with hj | hj
  · simp [show ¬ slot * n ≤ j by omega]
  · rw [Nat.succ_mul] at hj
    rw [getLsbD_of_lt hv (by omega)]
    simp

end FieldPlane
