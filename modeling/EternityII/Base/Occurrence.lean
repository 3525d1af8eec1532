-- SUMMARY: The first occurrence of a pattern in a list, and the last value of a list.
import Mathlib.Data.List.Basic
import Mathlib.Data.List.Infix
import Mathlib.Data.List.TakeWhile
import Mathlib.Data.Option.Basic
import Mathlib.Tactic.Common

/-!
# Occurrences

The place at which a pattern first occurs. What is found in a prefix of a list is what is found in the
list, as long as the prefix covers it; and a part in which no occurrence begins is passed over.
-/

namespace List

variable {α β : Type*} [DecidableEq α] {needle s p q : List α} {i n : Nat}

/-- Where `needle` first occurs. -/
def findFirst (needle : List α) : List α → Option Nat
  | [] => none
  | a :: s => if needle <+: a :: s then some 0 else (findFirst needle s).map (· + 1)

theorem findFirst_le (h : findFirst needle s = some i) : i + needle.length ≤ s.length := by
  induction s generalizing i with
  | nil => cases h
  | cons a s ih =>
    rw [findFirst] at h
    by_cases hprefix : needle <+: a :: s
    · rw [if_pos hprefix] at h
      cases h
      rw [Nat.zero_add]
      exact hprefix.length_le
    · rw [if_neg hprefix] at h
      obtain ⟨j, hj, rfl⟩ := Option.map_eq_some_iff.mp h
      have hle := ih hj
      rw [List.length_cons]
      omega

/-- The pattern stands where it is found. -/
theorem prefix_of_findFirst (h : findFirst needle s = some i) : needle <+: s.drop i := by
  induction s generalizing i with
  | nil => cases h
  | cons a s ih =>
    rw [findFirst] at h
    by_cases hprefix : needle <+: a :: s
    · rw [if_pos hprefix] at h
      cases h
      exact hprefix
    · rw [if_neg hprefix] at h
      obtain ⟨j, hj, rfl⟩ := Option.map_eq_some_iff.mp h
      exact ih hj

/-- A list with its pattern cut out. -/
theorem eq_append_of_findFirst (h : findFirst needle s = some i) :
    s = s.take i ++ (needle ++ s.drop (i + needle.length)) := by
  obtain ⟨rest, hrest⟩ := prefix_of_findFirst h
  have hdrop : s.drop (i + needle.length) = rest := by
    rw [← List.drop_drop, ← hrest, List.drop_left]
  rw [hdrop, hrest, List.take_append_drop]

/-- What is found in a prefix is what is found in the list, when the prefix covers it. -/
theorem findFirst_take (hneedle : needle ≠ []) (n : Nat) :
    findFirst needle (s.take n) = (findFirst needle s).filter (· + needle.length ≤ n) := by
  have hpos : 0 < needle.length := List.length_pos_of_ne_nil hneedle
  induction s generalizing n with
  | nil =>
    rw [List.take_nil]
    rfl
  | cons a s ih =>
    cases n with
    | zero =>
      rw [List.take_zero]
      refine (Option.filter_eq_none_iff.mpr fun i _ => ?_).symm
      rw [decide_eq_true_eq]
      omega
    | succ n =>
      rw [List.take_succ_cons, findFirst, findFirst, ih, ← List.take_succ_cons]
      by_cases hprefix : needle <+: a :: s
      · rw [if_pos hprefix]
        by_cases hroom : needle.length ≤ n + 1
        · rw [if_pos (List.prefix_take_iff.mpr (And.intro hprefix hroom)), Option.filter_some_pos]
          simpa using hroom
        · have hnot : ¬ needle <+: (a :: s).take (n + 1) := fun h => hroom (List.prefix_take_iff.mp h).2
          have hnone : (findFirst needle s).filter (· + needle.length ≤ n) = none := by
            refine Option.filter_eq_none_iff.mpr fun i _ => ?_
            rw [decide_eq_true_eq]
            omega
          rw [if_neg hnot, hnone, Option.filter_some_neg]
          · rfl
          · simpa using hroom
      · have hnot : ¬ needle <+: (a :: s).take (n + 1) := fun h => hprefix (List.prefix_take_iff.mp h).1
        rw [if_neg hprefix, if_neg hnot]
        cases findFirst needle s with
        | none => rfl
        | some i =>
          rw [Option.map_some]
          by_cases hroom : i + needle.length ≤ n
          · rw [Option.filter_some_pos (by simpa using hroom), Option.filter_some_pos (by simpa using by omega)]
            rfl
          · rw [Option.filter_some_neg (by simpa using hroom), Option.filter_some_neg (by simpa using by omega)]
            rfl

theorem findFirst_of_prefix (hs : s ≠ []) (h : needle <+: s) : findFirst needle s = some 0 := by
  cases s with
  | nil => exact absurd rfl hs
  | cons a s => rw [findFirst, if_pos h]

/-- A list cut at the first place where an element stands. -/
theorem eq_append_of_dropWhile {c d : α} (h : s.dropWhile (· ≠ c) = d :: q) : s = s.takeWhile (· ≠ c) ++ c :: q := by
  have hd : d = c := by
    have hhead := List.head?_dropWhile_not (fun a => decide (a ≠ c)) s
    rw [h] at hhead
    simpa using hhead
  conv_lhs => rw [← List.takeWhile_append_dropWhile (p := fun a => decide (a ≠ c)) (l := s), h, hd]

theorem notMem_takeWhile {c : α} : c ∉ s.takeWhile (· ≠ c) := fun h => by
  have hne := List.mem_takeWhile_imp h
  exact of_decide_eq_true hne rfl

/-! ## The last value -/

omit [DecidableEq α]

/-- The last value that a function has on the elements of a list. -/
def lastSome (f : α → Option β) (l : List α) : Option β := l.foldl (fun acc a => (f a).or acc) none

variable {f g : α → Option β} {l : List α} {a : α}

@[simp] theorem lastSome_concat : lastSome f (l ++ [a]) = (f a).or (lastSome f l) := by
  rw [lastSome, List.foldl_append]
  rfl

/-- A list with one more element is split at that element, or before it. -/
theorem split_of_concat {before after : List α} {a c : α} (h : l ++ [a] = before ++ c :: after) :
    (before = l ∧ c = a ∧ after = []) ∨ ∃ rest, after = rest ++ [a] ∧ l = before ++ c :: rest := by
  rcases List.eq_nil_or_concat after with rfl | ⟨rest, e, rfl⟩
  · obtain ⟨hinit, hlast⟩ := List.append_inj' h rfl
    exact .inl ⟨hinit.symm, (List.cons.inj hlast).1.symm, rfl⟩
  · rw [List.concat_eq_append, ← List.cons_append, ← List.append_assoc] at h
    obtain ⟨hinit, hlast⟩ := List.append_inj' h rfl
    cases hlast
    exact .inr ⟨rest, List.concat_eq_append, hinit⟩

/-- Two ways of reading a list, of which the second skips some elements, give the same last value exactly
when the last element that only the first one reads gives what the second one has read before it. -/
theorem lastSome_eq_iff {d : β} (hsub : ∀ a b, g a = some b → f a = some b) :
    (lastSome f l).getD d = (lastSome g l).getD d ↔
      ∀ before a after b, l = before ++ a :: after → f a = some b → g a = none → (∀ c ∈ after, f c = none) →
        b = (lastSome g before).getD d := by
  induction l using List.reverseRecOn with
  | nil =>
    refine iff_of_true rfl fun before a after b heq => ?_
    cases before <;> cases heq
  | append_singleton l a ih =>
    rw [lastSome_concat, lastSome_concat]
    cases hf : f a with
    | none =>
      have hg : g a = none := Option.eq_none_iff_forall_ne_some.mpr fun b hb => by
        cases hf.symm.trans (hsub a b hb)
      rw [hg, Option.none_or, Option.none_or, ih]
      constructor
      · intro h before c after b heq hc hskip hafter
        rcases split_of_concat heq with ⟨-, rfl, -⟩ | ⟨rest, rfl, hinit⟩
        · cases hf.symm.trans hc
        · exact h before c rest b hinit hc hskip fun x hx => hafter x (List.mem_append_left _ hx)
      · intro h before c after b heq hc hskip hafter
        refine h before c (after ++ [a]) b (by rw [heq]; simp) hc hskip fun x hx => ?_
        rcases List.mem_append.mp hx with hx | hx
        · exact hafter x hx
        · rw [List.mem_singleton.mp hx]
          exact hf
    | some b =>
      -- the element is read, so nothing in front of it counts
      have hunique : ∀ before c after, l ++ [a] = before ++ c :: after → (∀ x ∈ after, f x = none) →
          before = l ∧ c = a := by
        intro before c after heq hafter
        rcases split_of_concat heq with ⟨hbefore, hc, -⟩ | ⟨rest, rfl, -⟩
        · exact ⟨hbefore, hc⟩
        · cases hf.symm.trans (hafter a (List.mem_append_right _ (List.mem_singleton_self a)))
      cases hg : g a with
      | some b' =>
        cases Option.some.inj (hf.symm.trans (hsub a b' hg))
        refine iff_of_true rfl fun before c after e heq hc hskip hafter => ?_
        obtain ⟨-, rfl⟩ := hunique before c after heq hafter
        cases hg.symm.trans hskip
      | none =>
        rw [Option.some_or, Option.none_or, Option.getD_some]
        constructor
        · intro h before c after e heq hc hskip hafter
          obtain ⟨rfl, rfl⟩ := hunique before c after heq hafter
          cases Option.some.inj (hf.symm.trans hc)
          exact h
        · exact fun h => h l a [] b rfl hf hg nofun

end List
