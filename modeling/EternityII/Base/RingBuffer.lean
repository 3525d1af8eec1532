-- SUMMARY: A ring buffer over an array of fixed size: pushing and popping are those of a queue.
import Mathlib.Data.List.Range
import Mathlib.Data.Nat.ModEq
import Mathlib.Logic.Function.Basic
import Mathlib.Tactic.Common

/-!
# Ring buffers

An array of `cap` cells, the index of the next element to take, and the number of elements. As long
as no more than `cap` elements are pushed, the buffer is the queue of its elements.
-/

/-- The cells, the index of the oldest element and the number of elements. -/
structure RingBuffer (α : Type*) where
  cells : Nat → α
  head : Nat
  count : Nat

namespace RingBuffer

variable {α : Type*} {cap : Nat} {r : RingBuffer α}

/-- The elements, the oldest first. -/
def toList (cap : Nat) (r : RingBuffer α) : List α := (List.range r.count).map fun k => r.cells ((r.head + k) % cap)

/-- Forget all elements; the cells keep what they hold. -/
def clear (r : RingBuffer α) : RingBuffer α := { r with head := 0, count := 0 }

/-- Put an element behind the last one. -/
def push (cap : Nat) (r : RingBuffer α) (a : α) : RingBuffer α :=
  { r with cells := Function.update r.cells ((r.head + r.count) % cap) a, count := r.count + 1 }

/-- The oldest element. -/
def front (r : RingBuffer α) : α := r.cells r.head

/-- Take the oldest element out. -/
def pop (cap : Nat) (r : RingBuffer α) : RingBuffer α := { r with head := (r.head + 1) % cap, count := r.count - 1 }

@[simp] theorem count_push (a : α) : (r.push cap a).count = r.count + 1 := rfl

@[simp] theorem count_clear : r.clear.count = 0 := rfl

/-- Two elements of a buffer that is not overfull are in different cells. -/
theorem cell_ne {k n : Nat} (hk : k < n) (hn : n < cap) : (r.head + k) % cap ≠ (r.head + n) % cap := by
  intro heq
  have hmod : k % cap = n % cap := Nat.ModEq.add_left_cancel' r.head heq
  rw [Nat.mod_eq_of_lt hn, Nat.mod_eq_of_lt (hk.trans hn)] at hmod
  omega

theorem toList_push (h : r.count < cap) (a : α) : (r.push cap a).toList cap = r.toList cap ++ [a] := by
  have hold : ∀ k ∈ List.range r.count, Function.update r.cells ((r.head + r.count) % cap) a ((r.head + k) % cap) =
      r.cells ((r.head + k) % cap) := by
    intro k hk
    exact Function.update_of_ne (cell_ne (List.mem_range.mp hk) h) _ _
  rw [toList, count_push, List.range_succ, List.map_append, List.map_singleton]
  show _ ++ [Function.update r.cells ((r.head + r.count) % cap) a ((r.head + r.count) % cap)] = _
  rw [Function.update_self]
  exact congrArg (· ++ [a]) (List.map_congr_left hold)

/-- Pushing the elements of a list one after the other. -/
theorem toList_foldl_push {l : List α} (h : r.count + l.length ≤ cap) :
    (l.foldl (push cap) r).toList cap = r.toList cap ++ l ∧ (l.foldl (push cap) r).head = r.head := by
  induction l generalizing r with
  | nil => exact ⟨(List.append_nil _).symm, rfl⟩
  | cons a l ih =>
    rw [List.length_cons] at h
    have hroom : r.count < cap := by omega
    have hpushed : (r.push cap a).count + l.length ≤ cap := by
      rw [count_push]
      omega
    obtain ⟨hlist, hhead⟩ := ih hpushed
    rw [List.foldl_cons, hlist, hhead, toList_push hroom, List.append_assoc]
    exact ⟨rfl, rfl⟩

theorem toList_pop (hhead : r.head < cap) (h : 0 < r.count) : r.toList cap = r.front :: (r.pop cap).toList cap := by
  obtain ⟨n, hn⟩ : ∃ n, r.count = n + 1 := ⟨r.count - 1, by omega⟩
  have hrest : (r.pop cap).count = n := by
    show r.count - 1 = n
    omega
  rw [toList, toList, hrest, hn, List.range_succ_eq_map, List.map_cons, List.map_map, Nat.add_zero,
    Nat.mod_eq_of_lt hhead]
  refine congrArg (r.front :: ·) (List.map_congr_left fun k _ => ?_)
  show r.cells ((r.head + (k + 1)) % cap) = r.cells (((r.head + 1) % cap + k) % cap)
  rw [Nat.mod_add_mod, Nat.add_comm k 1, Nat.add_assoc]

/-- The cell behind the last element can be written as long as the buffer is not full. -/
theorem toList_write (h : r.count < cap) (a : α) :
    RingBuffer.toList cap { r with cells := Function.update r.cells ((r.head + r.count) % cap) a } = r.toList cap := by
  unfold toList
  refine List.map_congr_left fun k hk => ?_
  exact Function.update_of_ne (cell_ne (List.mem_range.mp hk) h) _ _

/-- The cell behind the last element becomes the last. -/
theorem toList_publish : RingBuffer.toList cap { r with count := r.count + 1 } =
    r.toList cap ++ [r.cells ((r.head + r.count) % cap)] := by
  unfold toList
  rw [List.range_succ, List.map_append, List.map_singleton]

/-- The cell behind the last element stays where it is when the oldest is taken out. -/
theorem next_pop (h : 0 < r.count) : ((r.pop cap).head + (r.pop cap).count) % cap = (r.head + r.count) % cap := by
  change ((r.head + 1) % cap + (r.count - 1)) % cap = _
  rw [Nat.mod_add_mod]
  congr 1
  omega

theorem length_toList : (r.toList cap).length = r.count := by
  rw [toList, List.length_map, List.length_range]

end RingBuffer
