-- SUMMARY: Work lists and the solutions below them: loads, work lists of equal load, exact cuts.
import Mathlib.Data.List.Nodup
import Mathlib.Data.Set.Basic
import Mathlib.Tactic.Common

/-!
# Work lists and the solutions they cover

A search keeps a list of work items, and each item stands for the set of
solutions below it. What must survive every step of such a search, whether the
items stay on a stack, go to another process or are replaced by their children,
is how often each solution is covered. The *load* of a work list at a solution
counts the items that cover it. Two lists have the *same load* when they agree at
every solution: nothing is lost and nothing is covered twice as often as before.
-/

namespace Cover

variable {α β κ : Type*} {comp : α → Set β}

open Classical in
/-- How many items of the list have `b` among the solutions below them. -/
noncomputable def load (comp : α → Set β) (l : List α) (b : β) : Nat :=
  l.countP fun a => decide (b ∈ comp a)

@[simp] theorem load_nil (b : β) : load comp [] b = 0 := rfl

open Classical in
theorem load_cons (a : α) (l : List α) (b : β) :
    load comp (a :: l) b = load comp l b + if b ∈ comp a then 1 else 0 := by
  simp [load, List.countP_cons]

@[simp] theorem load_append (l l' : List α) (b : β) :
    load comp (l ++ l') b = load comp l b + load comp l' b := by
  simp [load, List.countP_append]

theorem load_perm {l l' : List α} (h : l.Perm l') (b : β) : load comp l b = load comp l' b :=
  h.countP_eq _

theorem load_eq_zero {l : List α} {b : β} : load comp l b = 0 ↔ ∀ a ∈ l, b ∉ comp a := by
  simp [load, List.countP_eq_zero]

theorem load_pos {l : List α} {b : β} : 0 < load comp l b ↔ ∃ a ∈ l, b ∈ comp a := by
  simp [load, List.countP_pos_iff]

theorem load_singleton_of_mem {a : α} {b : β} (h : b ∈ comp a) : load comp [a] b = 1 := by
  simp [load_cons, h]

theorem load_singleton_of_notMem {a : α} {b : β} (h : b ∉ comp a) : load comp [a] b = 0 := by
  simp [load_cons, h]

/-- Dropping items with nothing below them leaves the load alone. -/
theorem load_filter {p : α → Bool} {l : List α} {b : β}
    (h : ∀ a ∈ l, p a = false → b ∉ comp a) : load comp (l.filter p) b = load comp l b := by
  induction l with
  | nil => rfl
  | cons a l ih =>
    have ih := ih fun x hx => h x (List.mem_cons_of_mem _ hx)
    cases hp : p a with
    | true => rw [List.filter_cons_of_pos hp, load_cons, load_cons, ih]
    | false =>
      have ha : b ∉ comp a := h a List.mem_cons_self hp
      rw [List.filter_cons_of_neg (by simp [hp]), load_cons, if_neg ha, ih, Nat.add_zero]

/-- No solution is covered twice exactly when the items are pairwise disjoint. -/
theorem load_le_one {l : List α} {b : β} :
    load comp l b ≤ 1 ↔ l.Pairwise fun x y => ¬ (b ∈ comp x ∧ b ∈ comp y) := by
  induction l with
  | nil => simp
  | cons a l ih =>
    rw [load_cons, List.pairwise_cons, ← ih]
    by_cases ha : b ∈ comp a
    · have hz : load comp l b = 0 ↔ ∀ x ∈ l, ¬ (b ∈ comp a ∧ b ∈ comp x) := by
        rw [load_eq_zero]
        simp [ha]
      rw [if_pos ha, ← hz]
      omega
    · simp [ha]

/-- A solution covered once is covered by one position of the list. -/
theorem existsUnique_of_load_eq_one {l : List α} {b : β} (h : load comp l b = 1) :
    ∃! i : Fin l.length, b ∈ comp (l.get i) := by
  obtain ⟨a, ha, hab⟩ := load_pos.mp (by omega : 0 < load comp l b)
  obtain ⟨i, rfl⟩ := List.get_of_mem ha
  have hpair := List.pairwise_iff_getElem.mp (load_le_one.mp h.le)
  refine ⟨i, hab, fun j hj => ?_⟩
  rcases Nat.lt_trichotomy i.val j.val with hij | hij | hij
  · exact absurd ⟨hab, hj⟩ (hpair i.val j.val i.isLt j.isLt hij)
  · exact Fin.ext hij.symm
  · exact absurd ⟨hj, hab⟩ (hpair j.val i.val j.isLt i.isLt hij)

/-! ## Work lists of equal load -/

/-- Both lists cover every solution equally often. -/
def SameLoad (comp : α → Set β) (l l' : List α) : Prop := ∀ b, load comp l b = load comp l' b

theorem SameLoad.rfl {l : List α} : SameLoad comp l l := fun _ => Eq.refl _

theorem SameLoad.symm {l l' : List α} (h : SameLoad comp l l') : SameLoad comp l' l :=
  fun b => (h b).symm

theorem SameLoad.trans {l l' l'' : List α} (h : SameLoad comp l l') (h' : SameLoad comp l' l'') :
    SameLoad comp l l'' := fun b => (h b).trans (h' b)

theorem SameLoad.append {l l' m m' : List α} (h : SameLoad comp l l') (h' : SameLoad comp m m') :
    SameLoad comp (l ++ m) (l' ++ m') := fun b => by
  rw [load_append, load_append, h b, h' b]

theorem SameLoad.filter {p : α → Bool} {l : List α}
    (h : ∀ a ∈ l, p a = false → comp a = ∅) : SameLoad comp (l.filter p) l := fun b =>
  load_filter fun a ha hp hb => by simp [h a ha hp] at hb

theorem sameLoad_nil_of_empty {a : α} (h : comp a = ∅) : SameLoad comp [a] [] := fun b => by
  simp [load_cons, h]

/-! ## Exact cuts -/

/-- Replacing `a` by the items of `l` loses no solution and doubles none. -/
def ExactCut (comp : α → Set β) (a : α) (l : List α) : Prop := SameLoad comp [a] l

/-- Branching on one feature of a solution is an exact cut: the children are told
apart by the value of the feature, each child keeps exactly the solutions with its
value, and every value that occurs has a child. -/
theorem exactCut_of_key (feature : β → κ) (value : α → κ) {a : α} {l : List α}
    (hnodup : (l.map value).Nodup)
    (hchild : ∀ x ∈ l, comp x = {b ∈ comp a | feature b = value x})
    (hcover : ∀ b ∈ comp a, feature b ∈ l.map value) : ExactCut comp a l := by
  intro b
  classical
  by_cases hb : b ∈ comp a
  · have hcount : load comp l b = (l.map value).count (feature b) := by
      rw [load, List.count, List.countP_map]
      refine List.countP_congr fun x hx => ?_
      rw [hchild x hx]
      simp only [Set.mem_ofPred_eq, hb, true_and, Function.comp_apply, beq_iff_eq, decide_eq_true_eq]
      exact eq_comm
    rw [load_singleton_of_mem hb, hcount, List.count_eq_one_of_mem hnodup (hcover b hb)]
  · rw [load_singleton_of_notMem hb, eq_comm, load_eq_zero]
    intro x hx hxb
    rw [hchild x hx] at hxb
    exact hb hxb.1

theorem ExactCut.subset {a : α} {l : List α} (h : ExactCut comp a l) {x : α} (hx : x ∈ l) :
    comp x ⊆ comp a := by
  intro b hb
  by_contra hna
  have hz := h b
  rw [load_singleton_of_notMem hna, eq_comm, load_eq_zero] at hz
  exact hz x hx hb

theorem ExactCut.existsUnique {a : α} {l : List α} (h : ExactCut comp a l) {b : β}
    (hb : b ∈ comp a) : ∃! i : Fin l.length, b ∈ comp (l.get i) :=
  existsUnique_of_load_eq_one ((h b).symm.trans (load_singleton_of_mem hb))

end Cover
