-- SUMMARY: Arrays filled by a loop of writes: what a cell holds after writes at distinct indices.
import Mathlib.Data.List.Nodup
import Mathlib.Logic.Function.Basic
import Mathlib.Tactic.Common

/-!
# Filling an array

A loop that fills an array is a list of writes carried out from left to right on a
total function. When no index is written twice, every written cell holds the value
of its own write.
-/

namespace Memory

variable {ι α : Type*} [DecidableEq ι]

/-- Carry out the writes of a list from left to right. -/
def writeAll (m : ι → α) (ws : List (ι × α)) : ι → α :=
  ws.foldl (fun m w => Function.update m w.1 w.2) m

@[simp] theorem writeAll_cons (m : ι → α) (w : ι × α) (ws : List (ι × α)) :
    writeAll m (w :: ws) = writeAll (Function.update m w.1 w.2) ws := rfl

theorem writeAll_of_notMem {m : ι → α} {ws : List (ι × α)} {i : ι} (h : i ∉ ws.map Prod.fst) :
    writeAll m ws i = m i := by
  induction ws generalizing m with
  | nil => rfl
  | cons w ws ih =>
    rw [List.map_cons, List.mem_cons, not_or] at h
    rw [writeAll_cons, ih h.2, Function.update_of_ne h.1]

theorem writeAll_of_mem {m : ι → α} {ws : List (ι × α)} (hnodup : (ws.map Prod.fst).Nodup)
    {i : ι} {a : α} (h : (i, a) ∈ ws) : writeAll m ws i = a := by
  induction ws generalizing m with
  | nil => exact absurd h List.not_mem_nil
  | cons w ws ih =>
    rw [List.map_cons, List.nodup_cons] at hnodup
    rw [writeAll_cons]
    rcases List.mem_cons.mp h with rfl | h
    · rw [writeAll_of_notMem hnodup.1, Function.update_self]
    · exact ih hnodup.2 h

/-- A loop over a list that writes `v x` at `k x`. -/
theorem writeAll_map {κ : Type*} {m : ι → α} {l : List κ} {k : κ → ι} {v : κ → α}
    (hnodup : (l.map k).Nodup) {x : κ} (h : x ∈ l) :
    writeAll m (l.map fun x => (k x, v x)) (k x) = v x := by
  refine writeAll_of_mem ?_ (List.mem_map_of_mem h)
  rwa [List.map_map]

end Memory
