-- SUMMARY: A family of elements without its duplicates and descendants.
import Mathlib.Order.Fin.Basic
import Mathlib.Tactic.Common

/-!
# Antichains

Some elements are origins of others, and an origin is smaller than its descendants. An element of a finite
family is *superseded* when an element before it is equal to it, or any element is an origin of it. The
other elements are unrelated to each other, and each element of the family is equal to one of them or
descends from one.
-/

/-- What it takes to be an origin. -/
structure Ancestry (κ : Type*) where
  origin : κ → κ → Prop
  size : κ → ℕ
  size_lt : ∀ {o d}, origin o d → size o < size d
  origin_trans : ∀ {a b c}, origin a b → origin b c → origin a c

namespace Ancestry

variable {κ : Type*} (A : Ancestry κ) {n : ℕ} (key : Fin n → κ)

/-- An element stands for those equal to it and for its descendants. -/
def Represents (k k' : κ) : Prop := k = k' ∨ A.origin k k'

/-- An element before it is equal to it, or any element is an origin of it. -/
def Superseded (j : Fin n) : Prop := (∃ i < j, key i = key j) ∨ ∃ i, A.origin (key i) (key j)

variable {A key}

theorem Represents.trans {a b c : κ} (hab : A.Represents a b) (hbc : A.Represents b c) : A.Represents a c := by
  rcases hab with rfl | hab
  · exact hbc
  · rcases hbc with rfl | hbc
    · exact .inr hab
    · exact .inr (A.origin_trans hab hbc)

variable (A key) in
/-- Every element is represented by one that is not superseded. -/
theorem exists_representative (j : Fin n) : ∃ k, ¬ A.Superseded key k ∧ A.Represents (key k) (key j) := by
  -- Either the size goes down or the index does.
  induction hsize : A.size (key j) using Nat.strong_induction_on generalizing j with
  | _ size ihsize =>
    induction hindex : j.val using Nat.strong_induction_on generalizing j with
    | _ index ihindex =>
      by_cases hsuperseded : A.Superseded key j
      · rcases hsuperseded with ⟨i, hij, heq⟩ | ⟨i, horigin⟩
        · obtain ⟨k, hk, hrepresents⟩ := ihindex i (hindex ▸ hij) i (by rw [heq, hsize]) rfl
          exact ⟨k, hk, heq ▸ hrepresents⟩
        · obtain ⟨k, hk, hrepresents⟩ := ihsize (A.size (key i)) (hsize ▸ A.size_lt horigin) i rfl
          exact ⟨k, hk, hrepresents.trans (.inr horigin)⟩
      · exact ⟨j, hsuperseded, .inl rfl⟩

/-- Of two elements that are not superseded neither represents the other. -/
theorem not_represents {j k : Fin n} (hj : ¬ A.Superseded key j) (hk : ¬ A.Superseded key k) (hne : j ≠ k) :
    ¬ A.Represents (key j) (key k) := by
  rintro (heq | horigin)
  · rcases lt_or_gt_of_ne hne with hlt | hgt
    · exact hk (.inl ⟨j, hlt, heq⟩)
    · exact hj (.inl ⟨k, hgt, heq.symm⟩)
  · exact hk (.inr ⟨j, horigin⟩)

/-- An element is superseded when and only when two of the family are related. -/
theorem exists_superseded_iff : (∃ j, A.Superseded key j) ↔ ∃ i j : Fin n, i ≠ j ∧ A.Represents (key i) (key j) := by
  constructor
  · rintro ⟨j, ⟨i, hij, heq⟩ | ⟨i, horigin⟩⟩
    · exact ⟨i, j, hij.ne, .inl heq⟩
    · refine ⟨i, j, ?_, .inr horigin⟩
      rintro rfl
      exact lt_irrefl _ (A.size_lt horigin)
  · rintro ⟨i, j, hne, hrepresents⟩
    by_contra hnone
    rw [not_exists] at hnone
    exact not_represents (hnone i) (hnone j) hne hrepresents

end Ancestry
