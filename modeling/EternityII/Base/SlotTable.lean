-- SUMMARY: Tables of slots, and lists with distinct keys.
import Mathlib.Data.List.Nodup
import Mathlib.Data.List.ReduceOption
import Mathlib.Tactic.Common

/-!
# Tables of slots

A table of slots is a list of optional values: a slot is free or holds a value. What the table holds is the list
of its values in the order of their slots, and a write to one slot replaces what that slot held and leaves the
values on both sides of it. Where the values carry distinct keys, the value of a key is changed or removed at its
place by what changes or removes it by its key.
-/

namespace SlotTable

variable {α : Type*} {p : α → Bool} {t : List (Option α)} {o : Option α} {i : Nat} {a : α}

/-! ## Slots -/

/-- The first slot whose value passes a test, with its value. -/
def findSlot (p : α → Bool) : List (Option α) → Option (Nat × α)
  | [] => none
  | none :: t => (findSlot p t).map fun (i, a) => (i + 1, a)
  | some a :: t => if p a then some (0, a) else (findSlot p t).map fun (i, a) => (i + 1, a)

/-- The first free slot. -/
def freeSlot (t : List (Option α)) : Option Nat := t.findIdx? Option.isNone

theorem findSlot_eq_some (h : findSlot p t = some (i, a)) : t[i]? = some (some a) ∧ p a = true := by
  induction t generalizing i with
  | nil => cases h
  | cons slot t ih =>
    have hrest (h : (findSlot p t).map (fun (i, a) => (i + 1, a)) = some (i, a)) :
        (slot :: t)[i]? = some (some a) ∧ p a = true := by
      obtain ⟨⟨j, b⟩, hj, heq⟩ := Option.map_eq_some_iff.mp h
      cases heq
      rw [List.getElem?_cons_succ]
      exact ih hj
    cases slot with
    | none => exact hrest h
    | some b =>
      rw [findSlot] at h
      split at h
      case isTrue hp =>
        cases h
        exact ⟨rfl, hp⟩
      case isFalse => exact hrest h

theorem findSlot_eq_none_iff : findSlot p t = none ↔ ∀ a ∈ t.reduceOption, p a = false := by
  induction t with
  | nil => simp [findSlot]
  | cons slot t ih =>
    cases slot with
    | none => rw [findSlot, Option.map_eq_none_iff, ih, List.reduceOption_cons_of_none]
    | some b =>
      rw [findSlot, List.reduceOption_cons_of_some, List.forall_mem_cons, ← ih]
      cases hp : p b
      · simp
      · simp

theorem freeSlot_eq_some (h : freeSlot t = some i) : t[i]? = some none := by
  obtain ⟨hlt, hfree, -⟩ := List.findIdx?_eq_some_iff_getElem.mp h
  rw [List.getElem?_eq_getElem hlt, Option.isNone_iff_eq_none.mp hfree]

/-- No slot is free when the table holds as many values as it has slots. -/
theorem freeSlot_eq_none_iff : freeSlot t = none ↔ t.reduceOption.length = t.length := by
  rw [freeSlot, List.findIdx?_eq_none_iff, List.reduceOption_length_eq_iff]
  exact forall₂_congr fun o _ => by cases o <;> simp

/-- The first free slot behind used ones. -/
theorem freeSlot_append_replicate (as : List α) (n : Nat) :
    freeSlot (as.map some ++ List.replicate (n + 1) none) = some as.length := by
  rw [freeSlot, List.findIdx?_append]
  have hused : (as.map some).findIdx? Option.isNone = none := by
    rw [List.findIdx?_eq_none_iff]
    intro o ho
    obtain ⟨a, -, rfl⟩ := List.mem_map.mp ho
    rfl
  rw [hused, List.length_map, List.replicate_succ, List.findIdx?_cons]
  simp

/-! ## Writes -/

/-- A write to a slot replaces what the slot held, between the values of the slots on both sides. -/
theorem reduceOption_set (h : t[i]? = some o) :
    ∃ l r, t.reduceOption = l ++ (o.toList ++ r) ∧
      ∀ x : Option α, (t.set i x).reduceOption = l ++ (x.toList ++ r) := by
  have hlt : i < t.length := (List.getElem?_eq_some_iff.mp h).1
  have hslot : t[i] = o := (List.getElem?_eq_some_iff.mp h).2
  refine ⟨(t.take i).reduceOption, (t.drop (i + 1)).reduceOption, ?_, fun x => ?_⟩
  · calc t.reduceOption = (t.take i ++ ([t[i]] ++ t.drop (i + 1))).reduceOption := by
          rw [List.singleton_append, List.getElem_cons_drop, List.take_append_drop]
      _ = _ := by
          rw [List.reduceOption_append, List.reduceOption_append, List.reduceOption_singleton, hslot]
  · calc (t.set i x).reduceOption = (t.take i ++ ([x] ++ t.drop (i + 1))).reduceOption := by
          rw [List.set_eq_take_append_cons_drop, if_pos hlt, List.singleton_append]
      _ = _ := by
          rw [List.reduceOption_append, List.reduceOption_append, List.reduceOption_singleton]

theorem set_append_replicate (as : List α) (n : Nat) (a : α) :
    (as.map some ++ List.replicate (n + 1) none).set as.length (some a) =
      (as ++ [a]).map some ++ List.replicate n none := by
  have hlen : (as.map some).length = as.length := List.length_map ..
  rw [List.set_append_right _ _ (Nat.le_of_eq hlen), hlen, Nat.sub_self, List.replicate_succ, List.set_cons_zero,
    List.map_append, List.append_assoc]
  rfl

theorem reduceOption_append_replicate (as : List α) (n : Nat) :
    (as.map some ++ List.replicate n none).reduceOption = as := by
  rw [List.reduceOption_append, List.reduceOption_replicate_none, List.append_nil]
  induction as with
  | nil => rfl
  | cons a as ih => rw [List.map_cons, List.reduceOption_cons_of_some, ih]

/-! ## Distinct keys -/

variable {κ : Type*} {key : α → κ} {l r : List α}

/-- A value with the key of another one stands nowhere else. -/
theorem key_ne_of_nodup (h : ((l ++ a :: r).map key).Nodup) : (∀ b ∈ l, key b ≠ key a) ∧ ∀ b ∈ r, key b ≠ key a := by
  rw [List.map_append, List.map_cons, List.nodup_middle, List.nodup_cons, List.mem_append, not_or] at h
  exact ⟨fun b hb heq => h.1.1 (heq ▸ List.mem_map_of_mem hb), fun b hb heq => h.1.2 (heq ▸ List.mem_map_of_mem hb)⟩

variable [DecidableEq κ]

/-- The value of a key is changed by what changes every value of that key. -/
theorem map_key_of_nodup (f : α → α) (h : ((l ++ a :: r).map key).Nodup) :
    (l ++ a :: r).map (fun b => if key b = key a then f b else b) = l ++ f a :: r := by
  obtain ⟨hl, hr⟩ := key_ne_of_nodup h
  have hkeep (s : List α) (hs : ∀ b ∈ s, key b ≠ key a) :
      s.map (fun b => if key b = key a then f b else b) = s := by
    refine (List.map_congr_left fun b hb => ?_).trans (List.map_id s)
    exact if_neg (hs b hb)
  rw [List.map_append, List.map_cons, hkeep l hl, hkeep r hr, if_pos rfl]

/-- Without the values of a key, the value of the key is gone. -/
theorem filter_key_ne_of_nodup (h : ((l ++ a :: r).map key).Nodup) :
    (l ++ a :: r).filter (fun b => key b ≠ key a) = l ++ r := by
  obtain ⟨hl, hr⟩ := key_ne_of_nodup h
  rw [List.filter_append, List.filter_cons_of_neg (by simp),
    List.filter_eq_self.mpr fun b hb => decide_eq_true (hl b hb),
    List.filter_eq_self.mpr fun b hb => decide_eq_true (hr b hb)]

/-- The values of a key are one value. -/
theorem filter_key_of_nodup (h : ((l ++ a :: r).map key).Nodup) :
    (l ++ a :: r).filter (fun b => key b = key a) = [a] := by
  obtain ⟨hl, hr⟩ := key_ne_of_nodup h
  rw [List.filter_append, List.filter_cons_of_pos (by simp),
    List.filter_eq_nil_iff.mpr fun b hb => by simpa using hl b hb,
    List.filter_eq_nil_iff.mpr fun b hb => by simpa using hr b hb]
  rfl

end SlotTable
