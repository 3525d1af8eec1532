-- SUMMARY: Bit sets kept in arrays of fixed-width words: test, set, clear, write, and population count.
import Mathlib.Algebra.BigOperators.Group.List.Basic
import Mathlib.Algebra.Ring.Nat
import Mathlib.Data.List.Basic
import Mathlib.Logic.Function.Basic
import Mathlib.Tactic.Common

/-!
# Bit sets over machine words

A set of small numbers stored as an array of `w`-bit words: number `i` is bit
`i % w` of word `i / w`. The array is a total function, so reading outside the
part a program allocates is harmless; what a program needs is the value of `bit`
after each update.
-/

/-- An array of `w`-bit words. -/
abbrev Words (w : Nat) : Type := Nat → BitVec w

namespace Words

variable {w : Nat}

/-- The array of zero words. -/
def zero : Words w := fun _ => 0#w

/-- Membership of `i` in the stored set. -/
def bit (a : Words w) (i : Nat) : Bool := (a (i / w)).getLsbD (i % w)

/-- `a[i / w] |= 1 << (i % w)`. -/
def setBit (a : Words w) (i : Nat) : Words w :=
  Function.update a (i / w) (a (i / w) ||| 1#w <<< (i % w))

/-- `a[i / w] &= ~(1 << (i % w))`. -/
def clearBit (a : Words w) (i : Nat) : Words w :=
  Function.update a (i / w) (a (i / w) &&& ~~~(1#w <<< (i % w)))

/-- `a[i] |= x` on a whole word. -/
def orWord (a : Words w) (i : Nat) (x : BitVec w) : Words w := Function.update a i (a i ||| x)

/-- `a[i / w] = (a[i / w] & ~(1 << n)) | (b << n)` with `n = i % w`. -/
def writeBit (a : Words w) (i : Nat) (b : Bool) : Words w :=
  Function.update a (i / w)
    ((a (i / w) &&& ~~~(1#w <<< (i % w))) ||| (BitVec.ofBool b).setWidth w <<< (i % w))

/-! ## Reading back an update -/

@[simp] theorem bit_zero (i : Nat) : (zero : Words w).bit i = false := by
  simp [zero, bit]

/-- Words with the same bits are the same. -/
theorem eq_of_bit (hw : 0 < w) {a b : Words w} (h : ∀ i, a.bit i = b.bit i) : a = b := by
  funext k
  apply BitVec.eq_of_getLsbD_eq
  intro i hi
  have hbit := h (w * k + i)
  unfold bit at hbit
  rwa [Nat.mul_add_div hw, Nat.div_eq_of_lt hi, Nat.add_zero, Nat.mul_add_mod, Nat.mod_eq_of_lt hi] at hbit

theorem bit_orWord (a : Words w) (i j : Nat) (x : BitVec w) :
    (a.orWord i x).bit j = (a.bit j || (decide (j / w = i) && x.getLsbD (j % w))) := by
  unfold bit orWord
  by_cases h : j / w = i
  · subst h
    rw [Function.update_self, BitVec.getLsbD_or]
    simp
  · rw [Function.update_of_ne h]
    simp [h]

@[simp] theorem bit_and (a b : Words w) (i : Nat) :
    bit (fun k => a k &&& b k) i = (a.bit i && b.bit i) := by
  simp [bit]

theorem bit_andNot (hw : 0 < w) (a b : Words w) (i : Nat) :
    bit (fun k => a k &&& ~~~b k) i = (a.bit i && !b.bit i) := by
  simp [bit, Nat.mod_lt i hw]

/-- The first `n` words are zero when they hold no number. -/
theorem forall_eq_zero_iff (hw : 0 < w) {a : Words w} {n : Nat} :
    (∀ k < n, a k = 0#w) ↔ ∀ i < n * w, a.bit i = false := by
  constructor
  · intro h i hi
    rw [bit, h (i / w) ((Nat.div_lt_iff_lt_mul hw).mpr hi), BitVec.getLsbD_zero]
  · intro h k hk
    refine BitVec.eq_of_getLsbD_eq fun i hi => ?_
    have hle : (k + 1) * w ≤ n * w := Nat.mul_le_mul_right w hk
    rw [Nat.succ_mul] at hle
    have hbit := h (k * w + i) (by omega)
    rwa [bit, Nat.mul_comm, Nat.mul_add_div hw, Nat.mul_add_mod, Nat.div_eq_of_lt hi,
      Nat.mod_eq_of_lt hi, Nat.add_zero, ← BitVec.getLsbD_zero] at hbit

/-- The word and the offset together determine the number. -/
private theorem eq_of_div_mod {i j : Nat} (hd : i / w = j / w) (hm : i % w = j % w) : i = j := by
  rw [← Nat.div_add_mod i w, ← Nat.div_add_mod j w, hd, hm]

private theorem getLsbD_one_shiftLeft {n k : Nat} (hk : k < w) :
    (1#w <<< n).getLsbD k = decide (n = k) := by
  rw [BitVec.getLsbD_shiftLeft, BitVec.getLsbD_one]
  by_cases h : n = k
  · subst h
    simp only [hk, decide_true, Bool.true_and, Nat.sub_self]
    simp; omega
  · rcases Nat.lt_or_gt_of_ne h with h | h
    · have h' : ¬ k - n = 0 := by omega
      simp [*]
    · simp [*]

theorem bit_setBit (hw : 0 < w) (a : Words w) (i j : Nat) :
    (a.setBit i).bit j = (decide (i = j) || a.bit j) := by
  have hj : j % w < w := Nat.mod_lt _ hw
  by_cases hd : j / w = i / w
  · rw [bit, setBit, hd, Function.update_self, BitVec.getLsbD_or, getLsbD_one_shiftLeft hj, bit, hd]
    have : (i % w = j % w) ↔ i = j := ⟨fun h => eq_of_div_mod hd.symm h, fun h => by rw [h]⟩
    simp only [this]
    exact Bool.or_comm _ _
  · have hij : i ≠ j := fun h => hd (by rw [h])
    rw [bit, setBit, Function.update_of_ne hd, bit]
    simp [hij]

theorem bit_clearBit (hw : 0 < w) (a : Words w) (i j : Nat) :
    (a.clearBit i).bit j = (!decide (i = j) && a.bit j) := by
  have hj : j % w < w := Nat.mod_lt _ hw
  by_cases hd : j / w = i / w
  · rw [bit, clearBit, hd, Function.update_self, BitVec.getLsbD_and, BitVec.getLsbD_not,
      getLsbD_one_shiftLeft hj, bit, hd]
    have : (i % w = j % w) ↔ i = j := ⟨fun h => eq_of_div_mod hd.symm h, fun h => by rw [h]⟩
    simp only [this, hj, decide_true, Bool.true_and]
    exact Bool.and_comm _ _
  · have hij : i ≠ j := fun h => hd (by rw [h])
    rw [bit, clearBit, Function.update_of_ne hd, bit]
    simp [hij]

theorem writeBit_true (a : Words w) (i : Nat) : a.writeBit i true = (a.clearBit i).setBit i := by
  have hone : (1#1).setWidth w = 1#w := by
    apply BitVec.eq_of_toNat_eq
    simp
  simp [writeBit, setBit, clearBit, hone]

theorem writeBit_false (a : Words w) (i : Nat) : a.writeBit i false = a.clearBit i := by
  simp [writeBit, clearBit]

theorem bit_writeBit (hw : 0 < w) (a : Words w) (i j : Nat) (b : Bool) :
    (a.writeBit i b).bit j = if i = j then b else a.bit j := by
  cases b with
  | true =>
    rw [writeBit_true, bit_setBit hw, bit_clearBit hw]
    by_cases h : i = j <;> simp [h]
  | false =>
    rw [writeBit_false, bit_clearBit hw]
    by_cases h : i = j <;> simp [h]

/-- Setting every number of a list stores exactly that list, on top of what was there. -/
theorem bit_foldl_setBit (hw : 0 < w) (l : List Nat) (a : Words w) (j : Nat) :
    (l.foldl setBit a).bit j = (decide (j ∈ l) || a.bit j) := by
  induction l generalizing a with
  | nil => simp
  | cons i l ih =>
    rw [List.foldl_cons, ih, bit_setBit hw]
    by_cases h : i = j
    · simp [h]
    · simp [h, Ne.symm h]

end Words

/-! ## Population count and enumeration of one word -/

namespace BitVec

variable {w : Nat}

/-- The set bits of a word in increasing order: what the loop that takes the lowest
set bit and clears it (`ctz`, then `x &= x - 1`) visits. -/
def setBits (x : BitVec w) : List Nat := (List.range w).filter fun i => x.getLsbD i

/-- The number of set bits of a word. -/
def popcount (x : BitVec w) : Nat := x.setBits.length

@[simp] theorem mem_setBits {x : BitVec w} {i : Nat} : i ∈ x.setBits ↔ x.getLsbD i = true := by
  simp only [setBits, List.mem_filter, List.mem_range, and_iff_right_iff_imp]
  exact BitVec.lt_of_getLsbD

end BitVec

namespace Words

/-- The numbers stored in the first `n` words, in increasing order: word by word, lowest
set bit first. -/
def members {w : Nat} (a : Words w) (n : Nat) : List Nat :=
  (List.range n).flatMap fun i => (a i).setBits.map (i * w + ·)

theorem mem_members {w : Nat} (hw : 0 < w) {a : Words w} {n j : Nat} :
    j ∈ a.members n ↔ j < n * w ∧ a.bit j = true := by
  simp only [members, List.mem_flatMap, List.mem_range, List.mem_map, BitVec.mem_setBits]
  constructor
  · rintro ⟨i, hi, r, hr, rfl⟩
    have hrw := BitVec.lt_of_getLsbD hr
    have hle : (i + 1) * w ≤ n * w := Nat.mul_le_mul_right w hi
    rw [Nat.succ_mul] at hle
    refine ⟨by omega, ?_⟩
    rwa [bit, Nat.mul_comm, Nat.mul_add_div hw, Nat.mul_add_mod, Nat.div_eq_of_lt hrw,
      Nat.mod_eq_of_lt hrw, Nat.add_zero]
  · rintro ⟨hj, hbit⟩
    exact ⟨j / w, (Nat.div_lt_iff_lt_mul hw).mpr hj, j % w, hbit, Nat.div_add_mod' j w⟩

/-- The numbers are visited in increasing order. -/
theorem pairwise_members {w : Nat} (a : Words w) (n : Nat) : (a.members n).Pairwise (· < ·) := by
  rw [members, List.pairwise_flatMap]
  constructor
  · intro i _
    rw [List.pairwise_map]
    apply (List.pairwise_lt_range.filter _).imp
    exact fun hlt => Nat.add_lt_add_left hlt _
  · apply List.pairwise_lt_range.imp
    intro i i' hlt x hx y hy
    obtain ⟨r, hr, rfl⟩ := List.mem_map.mp hx
    obtain ⟨r', -, rfl⟩ := List.mem_map.mp hy
    have hr := BitVec.lt_of_getLsbD (BitVec.mem_setBits.mp hr)
    have hle : (i + 1) * w ≤ i' * w := Nat.mul_le_mul_right w hlt
    rw [Nat.succ_mul] at hle
    omega

/-- Counting the set bits word by word. -/
theorem sum_popcount {w : Nat} (hw : 0 < w) (a : Words w) (m : Nat) :
    ((List.range m).map fun i => (a i).popcount).sum = (List.range (m * w)).countP a.bit := by
  induction m with
  | zero => simp
  | succ m ih =>
    have hword : ((List.range w).map (m * w + ·)).countP a.bit = (a m).popcount := by
      rw [List.countP_map, BitVec.popcount, BitVec.setBits, ← List.countP_eq_length_filter]
      refine List.countP_congr fun r hr => ?_
      have hr := List.mem_range.mp hr
      rw [Function.comp_apply, bit, Nat.mul_comm, Nat.mul_add_div hw, Nat.mul_add_mod,
        Nat.div_eq_of_lt hr, Nat.mod_eq_of_lt hr, Nat.add_zero]
    rw [List.range_succ, List.map_append, List.sum_append, ih, Nat.succ_mul, List.range_add,
      List.countP_append, hword]
    simp

end Words
