-- SUMMARY: The order of the backup sort: records by their cells, and the keys that are cut from them.
import EternityII.Base.RangeMerge
import EternityII.Stock.PacketCodec

/-!
# The order of records

The backup sort puts records in the order of the search tree: by the bitmap of the cells placed, then by
their values, the shorter record first, and by the header last. The keys that cut this order into ranges
are the first bytes behind the header.
-/

open RangeMerge

/-! ## Comparing records -/

/-- `memcmp`, over the bytes that both have. -/
def memcmp : List Byte → List Byte → Ordering
  | x :: a, y :: b => (compare x y).then (memcmp a b)
  | _, _ => .eq

/-- `backup_sort_record_cmp`. -/
def backupSortRecordCmp (a b : List Byte) : Ordering :=
  let h := packetCodecHeaderBytes
  let n := min a.length b.length
  let c := if n > h then memcmp ((a.drop h).take (n - h)) ((b.drop h).take (n - h)) else .eq
  if c ≠ .eq then c
  else if a.length ≠ b.length then (if a.length < b.length then .lt else .gt)
  else memcmp (a.take (min h a.length)) (b.take (min h a.length))

/-- `ref_cmp`, and `cur_less` on the records of two cursors. -/
def refCmp (a b : List Byte) : Ordering := backupSortRecordCmp a b

/-- `KEY_PFX`. -/
def keyPfx : Nat := 128

/-- `tkey`. -/
def tkey (record : List Byte) : List Byte := (record.drop packetCodecHeaderBytes).take keyPfx

/-- `tkey_cmp`, and `bound_cmp`. -/
def tkeyCmp (a b : List Byte) : Ordering :=
  let m := min a.length b.length
  let c := memcmp (a.take m) (b.take m)
  if c ≠ .eq then c
  else if a.length < b.length then .lt else if a.length > b.length then .gt else .eq

/-- A record is not behind another one. -/
def recordLe (a b : List Byte) : Bool := (refCmp a b).isLE

/-- A record is before another one, as `lower_bound` asks. -/
def beforeRecord (key record : List Byte) : Bool := refCmp record key == .lt

/-- The key of a record is before a border, as the merge asks. -/
def beforeKey (bound record : List Byte) : Bool := tkeyCmp (tkey record) bound == .lt

/-! ## The order -/

section Order

variable {a b c : List Byte}

theorem memcmp_nil_right (a : List Byte) : memcmp a [] = .eq := by cases a <;> rfl

theorem memcmp_take {n : Nat} (hn : min a.length b.length ≤ n) : memcmp (a.take n) (b.take n) = memcmp a b := by
  induction a generalizing b n with
  | nil =>
    rw [List.take_nil]
    rfl
  | cons x a ih =>
    cases b with
    | nil => rw [List.take_nil, memcmp_nil_right, memcmp_nil_right]
    | cons y b =>
      rw [List.length_cons, List.length_cons] at hn
      obtain ⟨n, rfl⟩ : ∃ n', n = n' + 1 := ⟨n - 1, by omega⟩
      rw [List.take_succ_cons, List.take_succ_cons, memcmp, memcmp, ih (by omega)]

/-- Lists of bytes compare byte by byte, and then by their lengths. -/
theorem compare_eq_memcmp (a b : List Byte) : compare a b = (memcmp a b).then (compare a.length b.length) := by
  rw [List.compare_eq_compareLex]
  induction a generalizing b with
  | nil =>
    cases b with
    | nil => rfl
    | cons y b =>
      rw [List.compareLex_nil_cons]
      exact (Nat.compare_eq_lt.mpr (Nat.zero_lt_succ b.length)).symm
  | cons x a ih =>
    cases b with
    | nil =>
      rw [List.compareLex_cons_nil]
      exact (Nat.compare_eq_gt.mpr (Nat.zero_lt_succ a.length)).symm
    | cons y b =>
      have hlength : compare (x :: a).length (y :: b).length = compare a.length b.length := by
        simp only [List.length_cons, Nat.compare_eq_ite_lt, Nat.add_lt_add_iff_right]
      rw [List.compareLex_cons_cons, ih, memcmp, Ordering.then_assoc, hlength]

theorem ite_ne_eq (c d : Ordering) : (if c ≠ .eq then c else d) = c.then d := by cases c <;> rfl

theorem tkeyCmp_eq (a b : List Byte) : tkeyCmp a b = compare a b := by
  unfold tkeyCmp
  dsimp only
  rw [memcmp_take (Nat.le_refl _), ite_ne_eq, compare_eq_memcmp, Nat.compare_eq_ite_lt]

/-- Records compare by what is behind their header, then by their lengths, then by their header. -/
theorem backupSortRecordCmp_eq (a b : List Byte) : backupSortRecordCmp a b =
    ((compare (a.drop packetCodecHeaderBytes) (b.drop packetCodecHeaderBytes)).then (compare a.length b.length)).then
      (compare (a.take packetCodecHeaderBytes) (b.take packetCodecHeaderBytes)) := by
  unfold backupSortRecordCmp
  dsimp only
  generalize packetCodecHeaderBytes = h
  have hbody : (if min a.length b.length > h then memcmp ((a.drop h).take (min a.length b.length - h))
      ((b.drop h).take (min a.length b.length - h)) else .eq) = memcmp (a.drop h) (b.drop h) := by
    split
    · exact memcmp_take (by rw [List.length_drop, List.length_drop]; omega)
    · by_cases ha : a.length ≤ h
      · rw [List.drop_eq_nil_of_le ha]
        rfl
      · rw [List.drop_eq_nil_of_le (show b.length ≤ h by omega), memcmp_nil_right]
  rw [hbody, ite_ne_eq, compare_eq_memcmp (a.drop h), compare_eq_memcmp (a.take h), List.length_drop, List.length_drop,
    List.length_take, List.length_take]
  generalize memcmp (a.drop h) (b.drop h) = c
  obtain hlt | heq | hgt := Nat.lt_trichotomy a.length b.length
  · rw [if_pos (Nat.ne_of_lt hlt), if_pos hlt, Nat.compare_eq_lt.mpr hlt]
    cases hdrop : compare (a.length - h) (b.length - h) with
    | gt =>
      have := Nat.compare_eq_gt.mp hdrop
      omega
    | lt | eq => cases c <;> rfl
  · have hdrop : compare (a.length - h) (b.length - h) = .eq := Nat.compare_eq_eq.mpr (by rw [heq])
    have htake : compare (min h a.length) (min h b.length) = .eq := Nat.compare_eq_eq.mpr (by rw [heq])
    have hta : a.take (min h a.length) = a.take h := by rw [List.take_eq_take_iff]; omega
    have htb : b.take (min h a.length) = b.take h := by rw [List.take_eq_take_iff]; omega
    rw [if_neg (not_not.mpr heq), hdrop, htake, Nat.compare_eq_eq.mpr heq, hta, htb]
    cases c <;> simp
  · rw [if_pos (Nat.ne_of_gt hgt), if_neg (Nat.lt_asymm hgt), Nat.compare_eq_gt.mpr hgt]
    cases hdrop : compare (a.length - h) (b.length - h) with
    | lt =>
      have := Nat.compare_eq_lt.mp hdrop
      omega
    | gt | eq => cases c <;> rfl

theorem refCmp_eq : refCmp = compareLex
    (compareLex (compareOn (List.drop packetCodecHeaderBytes)) (compareOn List.length))
    (compareOn (List.take packetCodecHeaderBytes)) :=
  funext fun a => funext fun b => backupSortRecordCmp_eq a b

instance : Std.TransCmp refCmp := by
  rw [refCmp_eq]
  infer_instance

/-- Records that compare as equal are the same. -/
theorem eq_of_refCmp (h : refCmp a b = .eq) : a = b := by
  rw [refCmp, backupSortRecordCmp_eq] at h
  obtain ⟨hbody, hheader⟩ := Ordering.then_eq_eq.mp h
  have hdrop : a.drop packetCodecHeaderBytes = b.drop packetCodecHeaderBytes :=
    Std.compare_eq_iff_eq.mp (Ordering.then_eq_eq.mp hbody).1
  have htake : a.take packetCodecHeaderBytes = b.take packetCodecHeaderBytes := Std.compare_eq_iff_eq.mp hheader
  rw [← List.take_append_drop packetCodecHeaderBytes a, htake, hdrop, List.take_append_drop]

/-- Records are in one order only. -/
theorem recordOrder : Order recordLe where
  total := fun a b => by
    have hswap : refCmp b a = (refCmp a b).swap := Std.OrientedCmp.eq_swap
    unfold recordLe
    rw [hswap]
    cases refCmp a b <;> rfl
  trans := fun a b c hab hbc => Std.TransCmp.isLE_trans hab hbc
  antisymm := fun a b hab hba => eq_of_refCmp (Std.OrientedCmp.isLE_antisymm hab hba)

/-- Cutting keys keeps their order. -/
theorem isLE_compare_take (h : (compare a b).isLE = true) (n : Nat) : (compare (a.take n) (b.take n)).isLE = true := by
  rw [List.compare_eq_compareLex] at h ⊢
  induction a generalizing b n with
  | nil =>
    rw [List.take_nil]
    exact List.isLE_compareLex_nil_left
  | cons x a ih =>
    cases b with
    | nil => exact absurd h (by simp [List.compareLex_cons_nil])
    | cons y b =>
      cases n with
      | zero => rfl
      | succ n =>
        rw [List.compareLex_cons_cons] at h
        rw [List.take_succ_cons, List.take_succ_cons, List.compareLex_cons_cons]
        obtain hlt | ⟨heq, hrest⟩ := Ordering.isLE_then_iff_or.mp h
        · exact Ordering.isLE_then_iff_or.mpr (.inl hlt)
        · exact Ordering.isLE_then_iff_or.mpr (.inr ⟨heq, ih hrest n⟩)

/-- The order of the keys agrees with the order of the records. -/
theorem tkey_mono (h : recordLe a b = true) : (tkeyCmp (tkey a) (tkey b)).isLE = true := by
  unfold recordLe refCmp at h
  rw [backupSortRecordCmp_eq] at h
  rw [tkeyCmp_eq]
  exact isLE_compare_take (Ordering.isLE_left_of_isLE_then (Ordering.isLE_left_of_isLE_then h)) keyPfx

/-- What is before a border has only such records in front of it. -/
theorem beforeKey_mono (bound a b : List Byte) (hle : recordLe a b = true) (hb : beforeKey bound b = true) :
    beforeKey bound a = true := by
  have hkey := tkey_mono hle
  unfold beforeKey at hb ⊢
  rw [tkeyCmp_eq] at hkey hb ⊢
  rw [beq_iff_eq] at hb ⊢
  exact Std.TransCmp.lt_of_isLE_of_lt hkey hb

theorem beforeRecord_mono (key a b : List Byte) (hle : recordLe a b = true) (hb : beforeRecord key b = true) :
    beforeRecord key a = true :=
  beq_iff_eq.mpr (Std.TransCmp.lt_of_isLE_of_lt hle (beq_iff_eq.mp hb))

/-- A border behind another one has more records before it. -/
theorem beforeKey_ascending {bound bound' : List Byte} (hle : (tkeyCmp bound bound').isLE = true) (record : List Byte)
    (hb : beforeKey bound record = true) : beforeKey bound' record = true := by
  unfold beforeKey at hb ⊢
  rw [tkeyCmp_eq] at hle hb ⊢
  rw [beq_iff_eq] at hb ⊢
  exact Std.TransCmp.lt_of_lt_of_isLE hb hle

theorem beforeRecord_ascending {key key' : List Byte} (hle : recordLe key key' = true) (record : List Byte)
    (hb : beforeRecord key record = true) : beforeRecord key' record = true :=
  beq_iff_eq.mpr (Std.TransCmp.lt_of_lt_of_isLE (beq_iff_eq.mp hb) hle)

end Order
