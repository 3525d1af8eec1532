-- SUMMARY: POSIX matching of regular expressions: the leftmost longest match and its parts.
import Mathlib.Computability.RegularExpressions
import Mathlib.Data.List.Forall2
import Mathlib.Tactic.Common

/-!
# POSIX matching

`regexec` finds, among the matches that start first, the longest one, and divides it among
the parts of the expression from left to right, each as long as it can be. The expressions
themselves and the languages they denote are those of Mathlib.
-/

namespace Regex

variable {α : Type*}

/-! ## Building expressions -/

/-- One character of a list. -/
def oneOf (cs : List α) : RegularExpression α := cs.foldr (fun a r => .char a + r) 0

/-- A fixed word. -/
def literal (w : List α) : RegularExpression α := w.foldr (fun a r => .char a * r) 1

/-- One repetition or more. -/
def oneOrMore (r : RegularExpression α) : RegularExpression α := r * r.star

/-- Expressions one after the other. -/
def concat (rs : List (RegularExpression α)) : RegularExpression α := rs.foldr (· * ·) 1

section Languages

variable {a : α} {cs u w : List α} {r : RegularExpression α} {rs : List (RegularExpression α)}

@[simp] theorem mem_oneOf : w ∈ (oneOf cs).matches' ↔ ∃ a ∈ cs, w = [a] := by
  induction cs with
  | nil => simp [oneOf, Language.notMem_zero]
  | cons c cs ih =>
    show w ∈ ({[c]} : Language α) + (oneOf cs).matches' ↔ _
    rw [Language.mem_add, ih, List.exists_mem_cons_iff]
    rfl

@[simp] theorem mem_literal : u ∈ (literal w).matches' ↔ u = w := by
  induction w generalizing u with
  | nil => rfl
  | cons a w ih =>
    show u ∈ ({[a]} : Language α) * (literal w).matches' ↔ _
    rw [Language.mem_mul]
    constructor
    · rintro ⟨v, rfl, v', hv', rfl⟩
      rw [ih.mp hv']
      rfl
    · rintro rfl
      exact ⟨[a], rfl, w, ih.mpr rfl, rfl⟩

theorem mem_mul {l : RegularExpression α} :
    w ∈ (l * r).matches' ↔ ∃ u ∈ l.matches', ∃ v ∈ r.matches', u ++ v = w := Language.mem_mul

theorem mem_add {l : RegularExpression α} : w ∈ (l + r).matches' ↔ w ∈ l.matches' ∨ w ∈ r.matches' :=
  Language.mem_add _ _ _

/-- The words of a class repeated are those over the class. -/
theorem mem_star_oneOf : w ∈ (oneOf cs).star.matches' ↔ ∀ a ∈ w, a ∈ cs := by
  rw [RegularExpression.matches'_star, Language.mem_kstar]
  constructor
  · rintro ⟨L, rfl, hL⟩ a ha
    obtain ⟨v, hv, hav⟩ := List.mem_flatten.mp ha
    obtain ⟨c, hc, rfl⟩ := mem_oneOf.mp (hL v hv)
    rwa [List.mem_singleton.mp hav]
  · intro h
    refine ⟨w.map fun a => [a], by simp [← List.flatMap_def], fun v hv => ?_⟩
    obtain ⟨a, ha, rfl⟩ := List.mem_map.mp hv
    exact mem_oneOf.mpr ⟨a, h a ha, rfl⟩

theorem mem_oneOrMore_oneOf :
    w ∈ (oneOrMore (oneOf cs)).matches' ↔ w ≠ [] ∧ ∀ a ∈ w, a ∈ cs := by
  rw [oneOrMore, mem_mul]
  constructor
  · rintro ⟨u, hu, v, hv, rfl⟩
    obtain ⟨a, ha, rfl⟩ := mem_oneOf.mp hu
    exact ⟨by simp, List.forall_mem_cons.mpr ⟨ha, mem_star_oneOf.mp hv⟩⟩
  · rintro ⟨hne, h⟩
    obtain ⟨a, w, rfl⟩ := List.exists_cons_of_ne_nil hne
    exact ⟨[a], mem_oneOf.mpr ⟨a, h a List.mem_cons_self, rfl⟩, w,
      mem_star_oneOf.mpr fun b hb => h b (List.mem_cons_of_mem a hb), rfl⟩

/-- Words of an expression, one after the other, are a word of its repetition. -/
theorem flatten_mem_oneOrMore {ws : List (List α)} (hne : ws ≠ []) (h : ∀ v ∈ ws, v ∈ r.matches') :
    ws.flatten ∈ (oneOrMore r).matches' := by
  obtain ⟨v, ws, rfl⟩ := List.exists_cons_of_ne_nil hne
  rw [oneOrMore, mem_mul]
  exact ⟨v, h v List.mem_cons_self, ws.flatten,
    Language.join_mem_kstar fun u hu => h u (List.mem_cons_of_mem v hu), rfl⟩

/-- The parts of a word, one for each expression of a sequence. -/
abbrev Parts (rs : List (RegularExpression α)) (parts : List (List α)) : Prop :=
  List.Forall₂ (fun r u => u ∈ r.matches') rs parts

theorem mem_concat :
    w ∈ (concat rs).matches' ↔ ∃ parts, Parts rs parts ∧ parts.flatten = w := by
  induction rs generalizing w with
  | nil =>
    constructor
    · rintro rfl
      exact ⟨[], .nil, rfl⟩
    · rintro ⟨parts, hparts, rfl⟩
      cases hparts
      rfl
  | cons r rs ih =>
    show w ∈ (r * concat rs).matches' ↔ _
    rw [mem_mul]
    constructor
    · rintro ⟨u, hu, v, hv, rfl⟩
      obtain ⟨parts, hparts, rfl⟩ := ih.mp hv
      exact ⟨u :: parts, .cons hu hparts, rfl⟩
    · rintro ⟨_, hparts, rfl⟩
      cases hparts with
      | @cons _ u _ parts hu hparts => exact ⟨u, hu, parts.flatten, ih.mpr ⟨parts, hparts, rfl⟩, rfl⟩

end Languages

/-! ## Matching -/

variable [DecidableEq α]

/-- The length of the longest prefix that matches. -/
def longest : RegularExpression α → List α → Option Nat
  | r, [] => if r.matchEpsilon then some 0 else none
  | r, a :: s =>
    match longest (r.deriv a) s with
    | some n => some (n + 1)
    | none => if r.matchEpsilon then some 0 else none

/-- The parts of a word that matches, each as long as it can be, from left to right. -/
def captures : List (RegularExpression α) → List α → List (List α)
  | [], _ => []
  | r :: rs, w =>
    match (List.range (w.length + 1)).reverse.find? fun n =>
        r.rmatch (w.take n) && (concat rs).rmatch (w.drop n) with
    | some n => w.take n :: captures rs (w.drop n)
    | none => []

/-- A match: what stands before it, its parts, and what follows. -/
structure Match (α : Type*) where
  before : List α
  parts : List (List α)
  after : List α

/-- `regexec`: the longest of the matches that start first. -/
def exec (rs : List (RegularExpression α)) : List α → Option (Match α)
  | [] => (longest (concat rs) []).map fun _ => ⟨[], captures rs [], []⟩
  | a :: s =>
    match longest (concat rs) (a :: s) with
    | some n => some ⟨[], captures rs ((a :: s).take n), (a :: s).drop n⟩
    | none => (exec rs s).map fun m => { m with before := a :: m.before }

section Matching

variable {a : α} {s u w : List α} {r : RegularExpression α} {rs : List (RegularExpression α)}

theorem nil_mem_iff : [] ∈ r.matches' ↔ r.matchEpsilon = true := by
  rw [← RegularExpression.rmatch_iff_matches']
  rfl

theorem cons_mem_iff : a :: w ∈ r.matches' ↔ w ∈ (r.deriv a).matches' := by
  rw [← RegularExpression.rmatch_iff_matches', ← RegularExpression.rmatch_iff_matches']
  rfl

theorem longest_eq_some {n : Nat} (h : longest r s = some n) :
    ∃ u v, s = u ++ v ∧ u.length = n ∧ u ∈ r.matches' := by
  induction s generalizing r n with
  | nil =>
    rw [longest, Option.ite_none_right_eq_some] at h
    obtain ⟨hnil, hn⟩ := h
    exact ⟨[], [], rfl, Option.some.inj hn, nil_mem_iff.mpr hnil⟩
  | cons a s ih =>
    rw [longest] at h
    split at h
    · rename_i m hm
      obtain ⟨u, v, rfl, rfl, hu⟩ := ih hm
      exact ⟨a :: u, v, rfl, Option.some.inj h, cons_mem_iff.mpr hu⟩
    · rw [Option.ite_none_right_eq_some] at h
      obtain ⟨hnil, hn⟩ := h
      exact ⟨[], a :: s, rfl, Option.some.inj hn, nil_mem_iff.mpr hnil⟩

/-- A prefix that matches is at most as long as the longest one. -/
theorem le_longest {v : List α} (hu : u ∈ r.matches') (hs : s = u ++ v) :
    ∃ n, longest r s = some n ∧ u.length ≤ n := by
  subst hs
  induction u generalizing r with
  | nil =>
    have hnil := nil_mem_iff.mp hu
    cases v with
    | nil => exact ⟨0, by simp [longest, hnil], Nat.le_refl 0⟩
    | cons a v =>
      rw [List.nil_append, longest]
      cases longest (r.deriv a) v with
      | some n => exact ⟨n + 1, rfl, Nat.zero_le _⟩
      | none => exact ⟨0, by simp [hnil], Nat.le_refl 0⟩
  | cons a u ih =>
    obtain ⟨n, hn, hle⟩ := ih (cons_mem_iff.mp hu)
    exact ⟨n + 1, by rw [List.cons_append, longest, hn], Nat.succ_le_succ hle⟩

/-- The parts found match their expressions and make up the word. -/
theorem captures_spec (h : w ∈ (concat rs).matches') :
    Parts rs (captures rs w) ∧ (captures rs w).flatten = w := by
  induction rs generalizing w with
  | nil =>
    obtain rfl : w = [] := h
    exact ⟨.nil, rfl⟩
  | cons r rs ih =>
    obtain ⟨u, hu, v, hv, rfl⟩ := mem_mul.mp h
    rw [captures]
    split
    · rename_i n hn
      have hfound := List.find?_some hn
      rw [Bool.and_eq_true, RegularExpression.rmatch_iff_matches',
        RegularExpression.rmatch_iff_matches'] at hfound
      obtain ⟨hparts, hflatten⟩ := ih hfound.2
      refine ⟨.cons hfound.1 hparts, ?_⟩
      rw [List.flatten_cons, hflatten, List.take_append_drop]
    · rename_i hnone
      have hin : u.length ∈ (List.range ((u ++ v).length + 1)).reverse := by
        rw [List.mem_reverse, List.mem_range, List.length_append]
        omega
      have hnot := List.find?_eq_none.mp hnone u.length hin
      rw [List.take_left, List.drop_left, Bool.and_eq_true, RegularExpression.rmatch_iff_matches',
        RegularExpression.rmatch_iff_matches'] at hnot
      exact absurd ⟨hu, hv⟩ hnot

/-- A match is found as soon as its parts are the only ones its word has, and no match from
the same place is longer. -/
theorem exec_head {parts : List (List α)} {after : List α} (hparts : Parts rs parts)
    (hlongest : ∀ u v, parts.flatten ++ after = u ++ v → u ∈ (concat rs).matches' →
      u.length ≤ parts.flatten.length)
    (honly : ∀ parts', Parts rs parts' → parts'.flatten = parts.flatten → parts' = parts) :
    exec rs (parts.flatten ++ after) = some ⟨[], parts, after⟩ := by
  have hmem : parts.flatten ∈ (concat rs).matches' := mem_concat.mpr ⟨parts, hparts, rfl⟩
  have hlen : longest (concat rs) (parts.flatten ++ after) = some parts.flatten.length := by
    obtain ⟨n, hn, hle⟩ := le_longest hmem rfl
    obtain ⟨u, v, hs, rfl, hu⟩ := longest_eq_some hn
    rw [hn, Nat.le_antisymm (hlongest u v hs hu) hle]
  have hcaptures : captures rs parts.flatten = parts := by
    obtain ⟨hparts', hflatten⟩ := captures_spec hmem
    exact honly _ hparts' hflatten
  cases hs : parts.flatten ++ after with
  | nil =>
    obtain ⟨hnil, rfl⟩ := List.append_eq_nil_iff.mp hs
    rw [hs] at hlen
    rw [exec, hlen, ← hnil, hcaptures]
    rfl
  | cons a s =>
    rw [hs] at hlen
    rw [exec, hlen, ← hs]
    simp [hcaptures]

/-- A character that no match starts with is skipped. -/
theorem exec_skip {p : α → Prop} (hstart : ∀ u ∈ (concat rs).matches', ∃ a v, u = a :: v ∧ p a)
    {before : List α} (hbefore : ∀ a ∈ before, ¬ p a) :
    exec rs (before ++ s) =
      (exec rs s).map fun m => { m with before := before ++ m.before } := by
  induction before with
  | nil => cases h : exec rs s <;> simp [h]
  | cons a before ih =>
    have hnone : longest (concat rs) (a :: (before ++ s)) = none := by
      rw [Option.eq_none_iff_forall_ne_some]
      intro n hn
      obtain ⟨u, v, hs, -, hu⟩ := longest_eq_some hn
      obtain ⟨b, u, rfl, hb⟩ := hstart u hu
      obtain ⟨rfl, -⟩ := List.cons.inj hs
      exact hbefore a List.mem_cons_self hb
    rw [List.cons_append, exec, hnone, ih fun b hb => hbefore b (List.mem_cons_of_mem a hb),
      Option.map_map]
    rfl

/-- Where no match can start, there is none. -/
theorem exec_eq_none {p : α → Prop} (hstart : ∀ u ∈ (concat rs).matches', ∃ a v, u = a :: v ∧ p a)
    (hs : ∀ a ∈ s, ¬ p a) : exec rs s = none := by
  have hnil : exec rs ([] : List α) = none := by
    rw [exec, Option.map_eq_none_iff, Option.eq_none_iff_forall_ne_some]
    intro n hn
    obtain ⟨u, v, hu, -, hmem⟩ := longest_eq_some hn
    obtain ⟨b, u, rfl, -⟩ := hstart u hmem
    exact absurd hu (by simp)
  have h := exec_skip (s := []) hstart hs
  rwa [List.append_nil, hnil] at h

end Matching

end Regex
