-- SUMMARY: Reading fields out of a byte buffer, with the furthest byte that was read.
import Mathlib.Data.List.Basic
import Mathlib.Data.List.TakeDrop
import Mathlib.Tactic.Common

/-!
# Byte sources

A decoder copies fields out of a buffer whose length it was told. The buffer is a function from
offsets to bytes, which says nothing of where it ends; what a decoder touches is kept beside its
result, as the end of the furthest byte that it read.
-/

/-- A buffer. -/
abbrev ByteSource (β : Type*) := Nat → β

namespace ByteSource

/-- A computation that reads a buffer; the state is the end of the furthest byte read so far. -/
abbrev Reader := StateM Nat

variable {β : Type} {src : ByteSource β} {off m n i reach : Nat} {l l' : List β}

/-- The `n` bytes from offset `off` on. -/
def window (src : ByteSource β) (off n : Nat) : List β := (List.range n).map fun i => src (off + i)

/-- Copy `n` bytes. -/
def copy (src : ByteSource β) (off n : Nat) : Reader (List β) := fun reach =>
  pure (src.window off n, max reach (off + n))

/-- Read one byte. -/
def byte (src : ByteSource β) (off : Nat) : Reader β := fun reach => pure (src off, max reach (off + 1))

/-- The buffer holds the bytes of a list from offset `off` on. -/
def Holds (src : ByteSource β) (off : Nat) (l : List β) : Prop := src.window off l.length = l

@[simp] theorem run_copy : (copy src off n).run reach = pure (src.window off n, max reach (off + n)) := rfl

@[simp] theorem run_byte : (byte src off).run reach = pure (src off, max reach (off + 1)) := rfl

@[simp] theorem length_window : (src.window off n).length = n := by rw [window, List.length_map, List.length_range]

theorem window_add : src.window off (m + n) = src.window off m ++ src.window (off + m) n := by
  simp only [window, List.range_add, List.map_append, List.map_map, Function.comp_def, Nat.add_assoc]

theorem take_window (h : m ≤ n) : (src.window off n).take m = src.window off m := by
  obtain ⟨k, rfl⟩ := Nat.exists_eq_add_of_le h
  rw [window_add, List.take_left' length_window]

theorem drop_window (h : m ≤ n) : (src.window off n).drop m = src.window (off + m) (n - m) := by
  obtain ⟨k, rfl⟩ := Nat.exists_eq_add_of_le h
  rw [window_add, List.drop_left' length_window, Nat.add_sub_cancel_left]

theorem getD_window (h : i < n) (d : β) : (src.window off n).getD i d = src (off + i) := by
  rw [List.getD_eq_getElem?_getD, window, List.getElem?_map, List.getElem?_range h]
  rfl

/-- A field at the front of what the buffer holds. -/
theorem Holds.front (h : src.Holds off (l ++ l')) (hlength : l.length = n) : src.window off n = l := by
  unfold Holds at h
  rw [List.length_append, window_add] at h
  rw [← hlength]
  exact (List.append_inj h length_window).1

/-- What the buffer holds behind a field. -/
theorem Holds.rest (h : src.Holds off (l ++ l')) (hlength : l.length = n) : src.Holds (off + n) l' := by
  unfold Holds at h
  rw [List.length_append, window_add] at h
  rw [← hlength]
  exact (List.append_inj h length_window).2

end ByteSource
