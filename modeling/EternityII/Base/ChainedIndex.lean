-- SUMMARY: A hash table of chained nodes over a list of elements.
import Mathlib.Data.List.Nodup
import Mathlib.Data.List.Perm.Basic
import Mathlib.Logic.Function.Basic
import Mathlib.Tactic.Common

/-!
# Chained indexes

A table has a chain of nodes in each bucket, and each node names an element. It indexes a list when
the nodes of a bucket name the elements of the list that belong there, each once. A node is put
before the others of its bucket; one is taken out of a chain wherever it stands.
-/

/-! ## Chains -/

section Chains

variable {ν : Type*} {p : ν → Bool} {chain chain' pre post : List ν} {n : ν}

/-- Take the first node with a property out of a chain. -/
def unlinkFirst (p : ν → Bool) : List ν → Option (ν × List ν)
  | [] => none
  | n :: chain => if p n then some (n, chain) else (unlinkFirst p chain).map fun found => (found.1, n :: found.2)

theorem unlinkFirst_eq_some (h : unlinkFirst p chain = some (n, chain')) :
    ∃ pre post, chain = pre ++ n :: post ∧ chain' = pre ++ post ∧ p n = true := by
  induction chain generalizing chain' with
  | nil => cases h
  | cons m chain ih =>
    rw [unlinkFirst] at h
    by_cases hm : p m = true
    · rw [if_pos hm] at h
      cases Option.some.inj h
      exact ⟨[], chain, rfl, rfl, hm⟩
    · rw [if_neg hm] at h
      obtain ⟨⟨found, rest⟩, hfound, heq⟩ := Option.map_eq_some_iff.mp h
      obtain ⟨rfl, rfl⟩ := Prod.mk.inj heq
      obtain ⟨pre, post, rfl, rfl, hn⟩ := ih hfound
      exact ⟨m :: pre, post, rfl, rfl, hn⟩

theorem unlinkFirst_eq_none : unlinkFirst p chain = none ↔ ∀ n ∈ chain, p n = false := by
  induction chain with
  | nil => exact iff_of_true rfl fun _ hn => absurd hn List.not_mem_nil
  | cons m chain ih =>
    rw [unlinkFirst, List.forall_mem_cons]
    by_cases hm : p m = true
    · rw [if_pos hm]
      exact iff_of_false (Option.some_ne_none _) fun h => absurd (hm.symm.trans h.1) (by decide)
    · rw [if_neg hm, Option.map_eq_none_iff, ih]
      exact (and_iff_right ((Bool.not_eq_true _).mp hm)).symm

end Chains

/-! ## Indexes -/

/-- The nodes of each bucket name the elements of the list that belong there. -/
def Indexes {ι ν : Type*} (elem : ν → ι) (home : ι → Nat) (table : Nat → List ν) (l : List ι) : Prop :=
  ∀ b, ((table b).map elem).Perm (l.filter fun e => home e = b)

namespace Indexes

variable {ι ν : Type*} {elem : ν → ι} {home home' : ι → Nat} {table : Nat → List ν} {l u v : List ι}
variable {pre post : List ν} {n : ν} {e : ι} {b : Nat}

theorem empty : Indexes elem home (fun _ => []) [] := fun _ => List.Perm.nil

theorem congr (h : Indexes elem home table l) (hhome : ∀ e ∈ l, home' e = home e) : Indexes elem home' table l := by
  intro b
  have hfilter : (l.filter fun e => home' e = b) = l.filter fun e => home e = b := by
    refine List.filter_congr fun e he => ?_
    rw [hhome e he]
  rw [hfilter]
  exact h b

/-- A node is in the bucket of an element of the list. -/
theorem points (h : Indexes elem home table l) (hn : n ∈ table b) : elem n ∈ l ∧ home (elem n) = b := by
  have hmem := List.mem_filter.mp ((h b).subset (List.mem_map_of_mem hn))
  exact ⟨hmem.1, of_decide_eq_true hmem.2⟩

/-- An element of the list has a node. -/
theorem exists_node (h : Indexes elem home table l) (he : e ∈ l) : ∃ n ∈ table (home e), elem n = e := by
  have hfilter : e ∈ l.filter fun e' => home e' = home e := List.mem_filter.mpr ⟨he, decide_eq_true rfl⟩
  exact List.mem_map.mp ((h (home e)).symm.subset hfilter)

/-- The nodes of an element in a bucket: one in its own, when it is in the list, and none elsewhere. -/
theorem count [DecidableEq ι] (h : Indexes elem home table l) (hl : l.Nodup) (b : Nat) (e : ι) :
    (table b).countP (fun n => elem n = e) = if e ∈ l ∧ home e = b then 1 else 0 := by
  have hcount : (table b).countP (fun n => elem n = e) = (l.filter fun e' => home e' = b).count e := by
    rw [← (h b).count_eq e, List.count, List.countP_map]
    rfl
  rw [hcount, (hl.filter _).count]
  simp only [List.mem_filter, decide_eq_true_eq]

/-- An element is put behind the others, and its node before those of its bucket. -/
theorem insert (h : Indexes elem home table l) (n : ν) :
    Indexes elem home (Function.update table (home (elem n)) (n :: table (home (elem n)))) (l ++ [elem n]) := by
  intro b
  rw [List.filter_append]
  by_cases hb : b = home (elem n)
  · subst hb
    rw [Function.update_self, List.filter_singleton, decide_eq_true rfl]
    exact ((h _).cons _).trans (List.perm_append_singleton _ _).symm
  · rw [Function.update_of_ne hb, List.filter_singleton, decide_eq_false (Ne.symm hb)]
    exact (List.append_nil (l.filter fun e => home e = b)).symm ▸ h b

/-- An element is taken out of the list, and its node out of its chain. -/
theorem remove (h : Indexes elem home table (u ++ e :: v)) (hb : table (home e) = pre ++ n :: post) (hn : elem n = e) :
    Indexes elem home (Function.update table (home e) (pre ++ post)) (u ++ v) := by
  intro b
  have hbucket := h b
  rw [List.filter_append] at hbucket ⊢
  by_cases hhome : b = home e
  · subst hhome
    rw [Function.update_self]
    rw [hb, List.map_append, List.map_cons, hn,
      List.filter_cons_of_pos (p := fun e' => decide (home e' = home e)) (decide_eq_true rfl)] at hbucket
    rw [List.map_append]
    exact ((List.perm_middle.symm.trans hbucket).trans List.perm_middle).cons_inv
  · rw [Function.update_of_ne hhome]
    rw [List.filter_cons_of_neg (by simpa using Ne.symm hhome)] at hbucket
    exact hbucket

/-- The node that a search finds is that of an element in the list. -/
theorem unlink (h : Indexes elem home table l) {p : ν → Bool} {chain : List ν}
    (hfound : unlinkFirst p (table b) = some (n, chain)) : p n = true ∧ n ∈ table b ∧
      ∀ u v, l = u ++ elem n :: v → Indexes elem home (Function.update table b chain) (u ++ v) := by
  obtain ⟨pre, post, htable, rfl, hn⟩ := unlinkFirst_eq_some hfound
  have hmem : n ∈ table b := by
    rw [htable]
    exact List.mem_append_right _ (List.mem_cons_self ..)
  obtain ⟨-, rfl⟩ := h.points hmem
  refine ⟨hn, hmem, ?_⟩
  rintro u v rfl
  exact h.remove htable rfl

end Indexes
