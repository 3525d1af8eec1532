-- SUMMARY: Decimal numbers as text: what `%i` prints, what `atoi` reads, and that reading gives back what was printed.
import Mathlib.Algebra.Group.Nat.Defs
import Mathlib.Data.Bool.AllAny
import Mathlib.Data.List.TakeWhile
import Mathlib.Tactic.Common

namespace Decimal

/-- The ten digits. -/
def digits : List Char := ['0', '1', '2', '3', '4', '5', '6', '7', '8', '9']

/-- A minus sign for negative numbers. -/
def sign (n : Int) : List Char := if n < 0 then ['-'] else []

/-- `%i`. -/
def print (n : Int) : List Char := sign n ++ Nat.toDigits 10 n.natAbs

/-- `isspace`. -/
def isSpace (c : Char) : Bool := c ∈ [' ', '\t', '\n', '\x0b', '\x0c', '\r']

/-- The number at the front of a string. -/
def leading (s : List Char) : Int := (Nat.ofDigitChars 10 (s.takeWhile Char.isDigit) 0 : Nat)

/-- `atoi` behind the spaces. -/
def signed : List Char → Int
  | '-' :: s => -leading s
  | '+' :: s => leading s
  | s => leading s

/-- What `strtol` reads behind the spaces when it reads to the end: whether there is a minus sign, and the
digits. -/
def wholeDigits (s : List Char) : Option (Bool × List Char) :=
  let digits := if s.head? = some '-' ∨ s.head? = some '+' then s.tail else s
  if digits = [] ∨ !digits.all Char.isDigit then none else some (s.head? = some '-', digits)

/-- `strtol` in base ten on a whole string, without the bounds of its type. -/
def strtolWhole (s : List Char) : Option Int :=
  (wholeDigits (s.dropWhile isSpace)).map fun (negative, digits) =>
    if negative then -(Nat.ofDigitChars 10 digits 0 : Int) else (Nat.ofDigitChars 10 digits 0 : Int)

/-- `strtoull` in base ten on a whole string: it stops at the largest number of 64 bits, and goes around for a
number with a minus sign. -/
def strtoullWhole (s : List Char) : Option Nat :=
  (wholeDigits (s.dropWhile isSpace)).map fun (negative, digits) =>
    let v := Nat.ofDigitChars 10 digits 0
    if v ≥ 2 ^ 64 then 2 ^ 64 - 1 else if negative then (2 ^ 64 - v) % 2 ^ 64 else v

/-- `atoi`. -/
def atoi (s : List Char) : Int := signed (s.dropWhile isSpace)

theorem mem_digits {c : Char} : c ∈ digits ↔ c.isDigit = true := by
  constructor
  · have hall : digits.all Char.isDigit = true := by decide
    exact List.all_eq_true.mp hall c
  · intro h
    have hle : 48 ≤ c.toNat ∧ c.toNat ≤ 57 := by
      rw [Char.isDigit, Bool.and_eq_true, decide_eq_true_eq, decide_eq_true_eq] at h
      exact h
    have hall : ∀ n, n ≤ 57 → 48 ≤ n → Char.ofNat n ∈ digits := by decide
    rw [← Char.ofNat_toNat c]
    exact hall _ hle.2 hle.1

theorem isDigit_of_mem_toDigits {n : Nat} {c : Char} (h : c ∈ Nat.toDigits 10 n) : c.isDigit = true :=
  Nat.isDigit_of_mem_toDigits (by decide) (by decide) h

theorem eq_minus_of_mem_sign {n : Int} {c : Char} (h : c ∈ sign n) : c = '-' := by
  unfold sign at h
  split at h
  · exact List.mem_singleton.mp h
  · exact absurd h List.not_mem_nil

/-- A printed number starts with a sign or a digit. -/
theorem print_eq_cons (n : Int) : ∃ c s, print n = c :: s ∧ (c = '-' ∨ c.isDigit = true) := by
  obtain ⟨c, s, h⟩ := List.exists_cons_of_ne_nil (Nat.toDigits_ne_nil (n := n.natAbs) (b := 10))
  unfold print sign
  split
  · exact ⟨'-', _, rfl, .inl rfl⟩
  · exact ⟨c, s, h, .inr (isDigit_of_mem_toDigits (h ▸ List.mem_cons_self))⟩

theorem leading_toDigits (n : Nat) : leading (Nat.toDigits 10 n) = n := by
  have hall : (Nat.toDigits 10 n).takeWhile Char.isDigit = Nat.toDigits 10 n :=
    List.takeWhile_eq_self_iff.mpr fun _ => isDigit_of_mem_toDigits
  rw [leading, hall, Nat.ofDigitChars_ten_toDigits]

/-- No space stands in front of a printed number. -/
theorem dropWhile_isSpace_print (n : Int) : (print n).dropWhile isSpace = print n := by
  have hspace : ∀ c : Char, c = '-' ∨ c.isDigit = true → isSpace c = false := by
    rintro c (rfl | hc)
    · rfl
    · have hall : digits.all (fun c => isSpace c = false) = true := by decide
      exact List.all_iff_forall_prop.mp hall c (mem_digits.mpr hc)
  obtain ⟨c, s, h, hc⟩ := print_eq_cons n
  rw [h, List.dropWhile_cons_of_neg (by simp [hspace c hc])]

/-- A printed natural number is all digits. -/
theorem wholeDigits_toDigits (n : Nat) : wholeDigits (Nat.toDigits 10 n) = some (false, Nat.toDigits 10 n) := by
  have hdigit : ∀ c ∈ Nat.toDigits 10 n, c.isDigit = true := fun c => isDigit_of_mem_toDigits
  have hhead : ∀ c, (Nat.toDigits 10 n).head? = some c → c.isDigit = true := fun c hc =>
    hdigit c (List.mem_of_head? hc)
  have hminus : (Nat.toDigits 10 n).head? ≠ some '-' := fun h => absurd (hhead _ h) (by decide)
  have hplus : (Nat.toDigits 10 n).head? ≠ some '+' := fun h => absurd (hhead _ h) (by decide)
  have hall : (Nat.toDigits 10 n).all Char.isDigit = true := List.all_eq_true.mpr hdigit
  simp [wholeDigits, hminus, hplus, hall, Nat.toDigits_ne_nil]

/-- A printed number is a sign and its digits. -/
theorem wholeDigits_print (n : Int) :
    wholeDigits (print n) = some (decide (n < 0), Nat.toDigits 10 n.natAbs) := by
  rcases Int.lt_or_le n 0 with hn | hn
  · have hprint : print n = '-' :: Nat.toDigits 10 n.natAbs := by simp [print, sign, hn]
    have hall : (Nat.toDigits 10 n.natAbs).all Char.isDigit = true :=
      List.all_eq_true.mpr fun c => isDigit_of_mem_toDigits
    simp [hprint, wholeDigits, hall, Nat.toDigits_ne_nil, hn]
  · have hprint : print n = Nat.toDigits 10 n.natAbs := by simp [print, sign, Int.not_lt.mpr hn]
    rw [hprint, wholeDigits_toDigits, decide_eq_false (Int.not_lt.mpr hn)]

/-- `strtol` reads back what `%i` prints. -/
theorem strtolWhole_print (n : Int) : strtolWhole (print n) = some n := by
  rw [strtolWhole, dropWhile_isSpace_print, wholeDigits_print, Option.map_some]
  dsimp only
  rw [Nat.ofDigitChars_ten_toDigits]
  congr 1
  by_cases hn : n < 0
  · rw [if_pos (decide_eq_true hn)]
    omega
  · rw [if_neg (by simpa using hn)]
    omega

/-- `strtoull` reads back what `%llu` prints. -/
theorem strtoullWhole_toDigits {n : Nat} (h : n < 2 ^ 64) : strtoullWhole (Nat.toDigits 10 n) = some n := by
  have hprint : print (n : Int) = Nat.toDigits 10 n := by simp [print, sign]
  rw [strtoullWhole, ← hprint, dropWhile_isSpace_print, hprint, wholeDigits_toDigits, Option.map_some]
  dsimp only
  rw [Nat.ofDigitChars_ten_toDigits, if_neg (Nat.not_le.mpr h), if_neg Bool.false_ne_true]

/-- `atoi` reads back what `%i` prints. -/
theorem atoi_print (n : Int) : atoi (print n) = n := by
  rw [atoi, dropWhile_isSpace_print]
  rcases Int.lt_or_le n 0 with hn | hn
  · have hprint : print n = '-' :: Nat.toDigits 10 n.natAbs := by simp [print, sign, hn]
    rw [hprint]
    show -leading (Nat.toDigits 10 n.natAbs) = n
    rw [leading_toDigits]
    omega
  · have hprint : print n = Nat.toDigits 10 n.natAbs := by simp [print, sign, Int.not_lt.mpr hn]
    have hdigit : ∀ c ∈ print n, c.isDigit = true := by
      rw [hprint]
      exact fun c => isDigit_of_mem_toDigits
    have hsigned : signed (print n) = leading (print n) := by
      unfold signed
      split
      · rename_i s heq
        exact absurd (hdigit '-' (heq ▸ List.mem_cons_self)) (by decide)
      · rename_i s heq
        exact absurd (hdigit '+' (heq ▸ List.mem_cons_self)) (by decide)
      · rfl
    rw [hsigned, hprint, leading_toDigits]
    omega

end Decimal
