-- SUMMARY: Sorted lists merged through a heap, cut into ranges at borders, and searched for a border.
import EternityII.Base.BinaryHeap
import Mathlib.Data.List.Forall2
import Mathlib.Data.List.Perm.Basic
import Mathlib.Data.List.Sort

/-!
# Merging by ranges

A merge has a cursor in each of several sorted lists, and a heap with the cursor of the first element at
its root. It hands on what is there, moves that cursor on, and puts the heap right again, until all
lists are at their end or the first element is past a border. Borders cut an order into ranges. Lists
that are merged range by range, each range on its own, give what they give when they are sorted as
one.
-/

namespace RangeMerge

open BinaryHeap

/-! ## The order -/

section Ordered

variable {α : Type*}

/-- Elements are in one order only. -/
structure Order (le : α → α → Bool) : Prop where
  total : ∀ a b, (le a b || le b a) = true
  trans : ∀ a b c, le a b = true → le b c = true → le a c = true
  antisymm : ∀ a b, le a b = true → le b a = true → a = b

variable {le : α → α → Bool} {l l' : List α}

theorem Order.refl (h : Order le) (a : α) : le a a = true := by simpa using h.total a a

theorem Order.le_of_not (h : Order le) {a b : α} (hab : le a b = false) : le b a = true := by
  simpa [hab] using h.total a b

/-- A sorted list is what sorting makes of its elements. -/
theorem Order.eq_mergeSort (h : Order le) (hsorted : l.Pairwise (le · ·)) (hperm : l.Perm l') : l = l'.mergeSort le :=
  (hperm.trans (List.mergeSort_perm l' le).symm).eq_of_pairwise (fun a b _ _ => h.antisymm a b) hsorted
    (List.pairwise_mergeSort h.trans h.total l')

end Ordered

/-! ## Merging through a heap -/

section Merge

variable {σ α π : Type*}

/-- Where a cursor is after its element: at the next one, or past the end. -/
inductive Advance (σ : Type*) where
  | on (s : σ)
  | ended
  | failed

variable (cur : σ → α) (next : σ → Advance σ)

/-- The elements from a cursor on. -/
inductive Reads : σ → List α → Prop
  | last {s : σ} (hnext : next s = .ended) : Reads s [cur s]
  | cons {s s' : σ} {l : List α} (hnext : next s = .on s') (hrest : Reads s' l) : Reads s (cur s :: l)

/-- A cursor that is set starts a list, unless the list is empty. -/
inductive Starts : Advance σ → List α → Prop
  | ended : Starts .ended []
  | on {s : σ} {l : List α} (hreads : Reads cur next s l) : Starts (.on s) l

variable (less : σ → σ → Bool) (past : α → Bool) (put : π → α → Option π)

/-- The loop of a merge on a heap of cursors. Elements are handed to `put` up to the first that is past
the border; `none` when a call fails or the fuel runs out. -/
def mergeLoop : Nat → List σ → π → Option π
  | _, [], p => some p
  | 0, _ :: _, _ => none
  | fuel + 1, s :: rest, p =>
    if past (cur s) = true then some p
    else
      (put p (cur s)).bind fun p =>
        match next s with
        | .on s' => mergeLoop fuel (down less (s' :: rest).length (s' :: rest) 0) p
        | .ended => mergeLoop fuel (down less (dropRoot (s :: rest)).length (dropRoot (s :: rest)) 0) p
        | .failed => none

/-- A heap is made of the cursors, and they are merged. -/
def mergeAll (fuel : Nat) (h : List σ) (p : π) : Option π :=
  mergeLoop cur next less past put fuel (build less (h.length / 2) h) p

variable {cur next less past} {le : α → α → Bool} {s : σ} {h h' : List σ} {ls : List (List α)} {l : List α}

theorem Reads.exists_cons (hreads : Reads cur next s l) : ∃ rest, l = cur s :: rest := by
  cases hreads with
  | last hnext => exact ⟨[], rfl⟩
  | cons hnext hrest => exact ⟨_, rfl⟩

/-- Cursors in another order read the same lists. -/
theorem exists_forall₂_of_perm (hperm : h'.Perm h) (hreads : List.Forall₂ (Reads cur next) h ls) :
    ∃ ls', List.Forall₂ (Reads cur next) h' ls' ∧ ls'.Perm ls :=
  List.perm_comp_forall₂ hperm hreads

/-- The cursors compare as their elements do. -/
structure Compares (cur : σ → α) (less : σ → σ → Bool) (le : α → α → Bool) : Prop where
  le_of_less : ∀ s t, less s t = true → le (cur s) (cur t) = true
  le_of_not_less : ∀ s t, less s t = false → le (cur t) (cur s) = true

variable (hcmp : Compares cur less le) (horder : Order le)
  (hpast : ∀ a b, le a b = true → past a = true → past b = true)

include horder in
/-- The element at the root is before all others. -/
theorem root_le {rest : List σ} (hheap : Heaped (fun s t => le (cur s) (cur t) = true) 0 (s :: rest))
    (hreads : List.Forall₂ (Reads cur next) (s :: rest) ls) (hsorted : ∀ l ∈ ls, l.Pairwise (le · ·)) {x : α}
    (hx : x ∈ ls.flatten) : le (cur s) x = true := by
  obtain ⟨l, hl, hxl⟩ := List.mem_flatten.mp hx
  obtain ⟨t, ht, htl⟩ : ∃ t ∈ s :: rest, Reads cur next t l := by
    obtain ⟨n, hn⟩ := List.getElem?_of_mem hl
    obtain ⟨hlt, rfl⟩ := List.getElem?_eq_some_iff.mp hn
    have hbound : n < (s :: rest).length := hreads.length_eq ▸ hlt
    exact ⟨(s :: rest)[n], List.getElem_mem _, hreads.get _ _⟩
  have hroot : le (cur s) (cur t) = true :=
    Heaped.root_le (fun s => horder.refl (cur s)) (fun s t u => horder.trans (cur s) (cur t) (cur u)) hheap ht
  obtain ⟨tail, rfl⟩ := htl.exists_cons
  obtain rfl | hxtail := List.mem_cons.mp hxl
  · exact hroot
  · exact horder.trans _ _ _ hroot (List.rel_of_pairwise_cons (hsorted _ hl) hxtail)

include hcmp horder

theorem heaped_root {h : List σ} (hheap : Heaped (fun s t => le (cur s) (cur t) = true) 1 h) :
    Heaped (fun s t => le (cur s) (cur t) = true) 0 (down less h.length h 0) :=
  heaped_down (fun s => horder.refl (cur s)) (fun s t u => horder.trans (cur s) (cur t) (cur u)) hcmp.le_of_less hcmp.le_of_not_less hheap.but
    (Nat.le_refl 0) (Nat.le_refl _)

include hpast

/-- A merge hands on the elements that are not past the border, in their order. -/
theorem mergeLoop_eq {fuel : Nat} (hheap : Heaped (fun s t => le (cur s) (cur t) = true) 0 h)
    (hreads : List.Forall₂ (Reads cur next) h ls) (hsorted : ∀ l ∈ ls, l.Pairwise (le · ·))
    (hfuel : ls.flatten.length ≤ fuel) :
    ∃ out left : List α, (∀ p, mergeLoop cur next less past put fuel h p = out.foldlM put p) ∧ (out ++ left).Perm ls.flatten ∧
      out.Pairwise (le · ·) ∧ (∀ x ∈ out, past x = false) ∧ ∀ x ∈ left, past x = true := by
  induction fuel generalizing h ls with
  | zero =>
    cases hreads with
    | nil => exact ⟨[], [], fun p => rfl, List.Perm.refl _, List.Pairwise.nil, by simp, by simp⟩
    | cons hs hrest =>
      obtain ⟨tail, rfl⟩ := hs.exists_cons
      simp at hfuel
  | succ fuel ih =>
    cases hreads with
    | nil => exact ⟨[], [], fun p => rfl, List.Perm.refl _, List.Pairwise.nil, by simp, by simp⟩
    | @cons s l rest ls hs hrest =>
      have hroot := fun x => root_le horder hheap (x := x) (.cons hs hrest) hsorted
      by_cases hstop : past (cur s) = true
      · exact ⟨[], (l :: ls).flatten, fun p => if_pos hstop, List.Perm.refl _, List.Pairwise.nil, by simp,
          fun x hx => hpast _ _ (hroot x hx) hstop⟩
      · -- What is left of the list of the root, and the cursors as the heap is put right again.
        have hgo : ∀ tail h₁ ls₁, l = cur s :: tail → ls₁.flatten.Perm (tail ++ ls.flatten) → (∀ l ∈ ls₁, l.Pairwise (le · ·)) →
            Heaped (fun s t => le (cur s) (cur t) = true) 1 h₁ → List.Forall₂ (Reads cur next) h₁ ls₁ →
            (∀ p, mergeLoop cur next less past put (fuel + 1) (s :: rest) p = (put p (cur s)).bind fun p =>
              mergeLoop cur next less past put fuel (down less h₁.length h₁ 0) p) →
            ∃ out left : List α, (∀ p, mergeLoop cur next less past put (fuel + 1) (s :: rest) p = out.foldlM put p) ∧
              (out ++ left).Perm (l :: ls).flatten ∧ out.Pairwise (le · ·) ∧ (∀ x ∈ out, past x = false) ∧
              ∀ x ∈ left, past x = true := by
          intro tail h₁ ls₁ hl hflat hsorted₁ hheap₁ hreads₁ hrun
          have hdown : (down less h₁.length h₁ 0).Perm h₁ := down_perm _ h₁ 0
          obtain ⟨ls', hreads', hls'⟩ := exists_forall₂_of_perm hdown hreads₁
          have hall : ls'.flatten.Perm (tail ++ ls.flatten) := hls'.flatten.trans hflat
          have hlen : (l :: ls).flatten.length = (tail ++ ls.flatten).length + 1 := by simp [hl]
          obtain ⟨out, left, hout, hperm, hpair, hnot, hleft⟩ := ih (heaped_root hcmp horder hheap₁) hreads'
            (fun l hl => hsorted₁ l (hls'.mem_iff.mp hl)) (by rw [hall.length_eq]; omega)
          have hmem : ∀ x ∈ out, x ∈ tail ++ ls.flatten := fun x hx =>
            hall.mem_iff.mp (hperm.mem_iff.mp (List.mem_append_left left hx))
          refine ⟨cur s :: out, left, fun p => ?_, ?_, List.pairwise_cons.mpr ⟨fun x hx => ?_, hpair⟩, ?_, hleft⟩
          · rw [hrun p]
            exact congrArg _ (funext hout)
          · rw [hl]
            exact ((hperm.trans hall).cons (cur s))
          · refine hroot x ?_
            rw [hl]
            exact List.mem_cons_of_mem _ (hmem x hx)
          · intro x hx
            obtain rfl | hx := List.mem_cons.mp hx
            · simpa using hstop
            · exact hnot x hx
        have hsortedl : l.Pairwise (le · ·) := hsorted l List.mem_cons_self
        have hsortedls : ∀ l ∈ ls, l.Pairwise (le · ·) := fun l hl => hsorted l (List.mem_cons_of_mem _ hl)
        cases hs with
        | last hnext =>
          obtain ⟨ls', hreads', hls'⟩ := exists_forall₂_of_perm (dropRoot_perm s rest) hrest
          refine hgo [] (dropRoot (s :: rest)) ls' rfl hls'.flatten (fun l hl => hsortedls l (hls'.mem_iff.mp hl))
            hheap.drop_root hreads' fun p => ?_
          · rw [mergeLoop, if_neg hstop]
            simp only [hnext]
        | @cons _ s' tail hnext htail =>
          refine hgo tail (s' :: rest) (tail :: ls) rfl (List.Perm.refl _) (fun l hl => ?_) (hheap.replace_root s') (.cons htail hrest)
            fun p => ?_
          · obtain rfl | hl := List.mem_cons.mp hl
            · exact hsortedl.of_cons
            · exact hsortedls l hl
          · rw [mergeLoop, if_neg hstop]
            simp only [hnext]

/-- A merge hands on what sorting makes of the elements that are not past the border. -/
theorem mergeAll_eq {fuel : Nat} (hreads : List.Forall₂ (Reads cur next) h ls) (hsorted : ∀ l ∈ ls, l.Pairwise (le · ·))
    (hfuel : ls.flatten.length ≤ fuel) (p : π) :
    mergeAll cur next less past put fuel h p = ((ls.flatten.filter fun x => !past x).mergeSort le).foldlM put p := by
  have hbuild : (build less (h.length / 2) h).Perm h := build_perm _ h
  obtain ⟨ls', hreads', hls'⟩ := exists_forall₂_of_perm hbuild hreads
  have hheap : Heaped (fun s t => le (cur s) (cur t) = true) 0 (build less (h.length / 2) h) :=
    heaped_build (fun s => horder.refl (cur s)) (fun s t u => horder.trans (cur s) (cur t) (cur u)) hcmp.le_of_less
      hcmp.le_of_not_less (heaped_half _ h)
  have hfuel' : ls'.flatten.length ≤ fuel := by
    rw [hls'.flatten.length_eq]
    exact hfuel
  obtain ⟨out, left, hrun, hperm, hpair, hnot, hleft⟩ := mergeLoop_eq put hcmp horder hpast hheap hreads'
    (fun l hl => hsorted l (hls'.mem_iff.mp hl)) hfuel'
  have hout : out.Perm (ls.flatten.filter fun x => !past x) := by
    have hfilter := (hperm.trans hls'.flatten).filter fun x => !past x
    rw [List.filter_append, List.filter_eq_self.mpr fun x hx => by simp [hnot x hx],
      List.filter_eq_nil_iff.mpr fun x hx => by simp [hleft x hx], List.append_nil] at hfilter
    exact hfilter
  rw [← horder.eq_mergeSort hpair hout]
  exact hrun p

end Merge

/-! ## Cutting an order into ranges -/

section Ranges

variable {α β : Type*} (before : β → α → Bool) (borders : List β)

/-- The element is in range `j`: not before border `j - 1`, and before border `j`, where there are such. -/
def inRange (j : Nat) (x : α) : Bool :=
  (j == 0 || (borders[j - 1]?).all fun b => !before b x) && (borders[j]?).all fun b => before b x

/-- The range of an element. -/
def rangeOf (x : α) : Nat := borders.countP fun b => !before b x

/-- What is before a border is before those behind it. -/
def Ascending : Prop := borders.Pairwise fun b b' => ∀ x, before b x = true → before b' x = true

variable {before borders} {le : α → α → Bool} {l : List α} {j : Nat}

theorem inRange_eq_true (hasc : Ascending before borders) (hj : j ≤ borders.length) (x : α) :
    inRange before borders j x = decide (rangeOf before borders x = j) := by
  induction borders generalizing j with
  | nil =>
    obtain rfl : j = 0 := by simpa using hj
    rfl
  | cons b borders ih =>
    obtain ⟨hb, hasc⟩ := List.pairwise_cons.mp hasc
    cases hx : before b x with
    | true =>
      -- All borders are behind the element.
      have hzero : rangeOf before (b :: borders) x = 0 := by
        unfold rangeOf
        rw [List.countP_eq_zero]
        intro b' hb'
        obtain rfl | hb' := List.mem_cons.mp hb'
        · simp [hx]
        · simp [hb b' hb' x hx]
      rw [hzero]
      cases j with
      | zero => simp [inRange, hx]
      | succ j =>
        have hlt : j < (b :: borders).length := hj
        have hbefore : before (b :: borders)[j] x = true := by
          obtain heq | hmem := List.mem_cons.mp (List.getElem_mem hlt)
          · rw [heq]
            exact hx
          · exact hb _ hmem x hx
        have hget : (b :: borders)[j]? = some (b :: borders)[j] := List.getElem?_eq_getElem hlt
        unfold inRange
        rw [Nat.add_sub_cancel, hget]
        simp [hbefore]
    | false =>
      have hcount : rangeOf before (b :: borders) x = rangeOf before borders x + 1 := by
        unfold rangeOf
        rw [List.countP_cons_of_pos (by simp [hx])]
      rw [hcount]
      cases j with
      | zero => simp [inRange, hx]
      | succ j =>
        have hsame : inRange before (b :: borders) (j + 1) x = inRange before borders j x := by
          cases j with
          | zero => simp [inRange, hx]
          | succ j => simp [inRange]
        rw [hsame, ih hasc (by simpa using hj)]
        simp

variable (horder : Order le) (hdown : ∀ b x y, le x y = true → before b y = true → before b x = true)

/-- Elements by their class, for the classes below `k`. -/
theorem flatMap_classes_perm {ι : Type*} (cls : ι → Nat) (l : List ι) (k : Nat) :
    ((List.range k).flatMap fun j => l.filter fun x => decide (cls x = j)).Perm
      (l.filter fun x => decide (cls x < k)) := by
  induction k with
  | zero => rw [List.filter_eq_nil_iff.mpr (by simp)]; exact List.Perm.refl _
  | succ k ih =>
    rw [List.range_succ, List.flatMap_append, List.flatMap_singleton]
    have hsplit := List.filter_append_perm (fun x => decide (cls x < k)) (l.filter fun x => decide (cls x < k + 1))
    rw [List.filter_filter, List.filter_filter] at hsplit
    refine List.Perm.trans (List.Perm.append (ih.trans (List.Perm.of_eq ?_)) (List.Perm.of_eq ?_)) hsplit
    · refine List.filter_congr fun x _ => ?_
      by_cases hx : cls x < k
      · simp [hx, Nat.lt_succ_of_lt hx]
      · simp [hx]
    · refine List.filter_congr fun x _ => ?_
      by_cases hx : cls x = k
      · simp [hx]
      · simp [hx]
        omega

include horder hdown in
/-- Elements of a lower range come first. -/
theorem le_of_rangeOf_lt {x y : α} (hlt : rangeOf before borders x < rangeOf before borders y) : le x y = true := by
  cases hxy : le x y with
  | true => rfl
  | false =>
    have hyx := horder.le_of_not hxy
    have hle : rangeOf before borders y ≤ rangeOf before borders x := by
      refine List.countP_mono_left fun b _ hb => ?_
      cases hx : before b x with
      | true => simp [hdown b y x hyx hx] at hb
      | false => rfl
    omega

include horder hdown in
/-- Ranges that are sorted one by one make the whole list sorted. -/
theorem flatMap_ranges (hasc : Ascending before borders) {part : Nat → List α}
    (hpart : ∀ j ≤ borders.length, part j = (l.filter (inRange before borders j)).mergeSort le) :
    (List.range (borders.length + 1)).flatMap part = l.mergeSort le := by
  have hrange : ∀ j ≤ borders.length, part j = (l.filter fun x => decide (rangeOf before borders x = j)).mergeSort le := by
    intro j hj
    rw [hpart j hj, List.filter_congr fun x _ => inRange_eq_true hasc hj x]
  have hmem : ∀ j ≤ borders.length, ∀ x ∈ part j, rangeOf before borders x = j := by
    intro j hj x hx
    rw [hrange j hj, List.mem_mergeSort] at hx
    exact of_decide_eq_true (List.mem_filter.mp hx).2
  have hsorted : ∀ k ≤ borders.length + 1, ((List.range k).flatMap part).Pairwise (le · ·) := by
    intro k
    induction k with
    | zero => exact fun _ => List.Pairwise.nil
    | succ k ih =>
      intro hk
      rw [List.range_succ, List.flatMap_append, List.flatMap_singleton]
      refine List.pairwise_append.mpr ⟨ih (by omega), ?_, fun x hx y hy => ?_⟩
      · rw [hrange k (by omega)]
        exact List.pairwise_mergeSort horder.trans horder.total _
      · obtain ⟨j, hj, hxj⟩ := List.mem_flatMap.mp hx
        have hjk := List.mem_range.mp hj
        have hlt : rangeOf before borders x < rangeOf before borders y := by
          rw [hmem j (by omega) x hxj, hmem k (by omega) y hy]
          exact hjk
        exact le_of_rangeOf_lt horder hdown hlt
  refine horder.eq_mergeSort (hsorted _ (Nat.le_refl _)) ?_
  have hclasses := flatMap_classes_perm (rangeOf before borders) l (borders.length + 1)
  have hbelow : ∀ x ∈ l, decide (rangeOf before borders x < borders.length + 1) = true := fun x _ =>
    decide_eq_true (Nat.lt_succ_of_le List.countP_le_length)
  rw [List.filter_eq_self.mpr hbelow] at hclasses
  refine List.Perm.trans ?_ hclasses
  rw [List.flatMap_def, List.flatMap_def]
  refine List.Perm.flatten_congr ?_
  rw [List.forall₂_map_left_iff, List.forall₂_map_right_iff]
  refine List.forall₂_same.mpr fun j hj => ?_
  rw [hrange j (Nat.le_of_lt_succ (List.mem_range.mp hj))]
  exact List.mergeSort_perm _ le

end Ranges

/-! ## Searching for a border -/

section Bisect

/-- The loop of a search for the first place from `a` on and before `b` that `p` is not true of; `none`
when a place cannot be read. -/
def bisect (p : Nat → Option Bool) : Nat → Nat → Nat → Option Nat
  | 0, a, _ => some a
  | fuel + 1, a, b =>
    if a < b then
      (p (a + (b - a) / 2)).bind fun under =>
        if under then bisect p fuel (a + (b - a) / 2 + 1) b else bisect p fuel a (a + (b - a) / 2)
    else some a

/-- The search finds the place where `p` changes. -/
theorem bisect_eq {p : Nat → Option Bool} {fuel a b c : Nat} (hp : ∀ i < b, p i = some (decide (i < c)))
    (hac : a ≤ c) (hcb : c ≤ b) (hfuel : b ≤ fuel + a) : bisect p fuel a b = some c := by
  induction fuel generalizing a b with
  | zero =>
    obtain rfl : a = c := by omega
    rfl
  | succ fuel ih =>
    unfold bisect
    split
    · rename_i hlt
      rw [hp _ (by omega), Option.bind_some]
      by_cases hm : a + (b - a) / 2 < c
      · rw [decide_eq_true hm, if_pos rfl]
        exact ih hp (by omega) hcb (by omega)
      · rw [decide_eq_false hm, if_neg (by simp)]
        exact ih (fun i hi => hp i (by omega)) hac (by omega) (by omega)
    · obtain rfl : a = c := by omega
      rfl

variable {α : Type*} {p q : α → Bool} {l : List α}

/-- Where `p` is true of the elements in front only, they are those that it is true of. -/
theorem filter_append_filter (h : l.Pairwise fun x y => p y = true → p x = true) :
    l.filter p ++ l.filter (fun x => !p x) = l := by
  induction l with
  | nil => rfl
  | cons x l ih =>
    obtain ⟨hx, h⟩ := List.pairwise_cons.mp h
    cases hpx : p x with
    | true => simp [hpx, ih h]
    | false =>
      have hnone : ∀ y ∈ l, p y = false := by
        intro y hy
        cases hpy : p y with
        | true => exact absurd (hx y hy hpy) (by simp [hpx])
        | false => rfl
      rw [List.filter_cons_of_neg (by simp [hpx]), List.filter_cons_of_pos (by simp [hpx]),
        List.filter_eq_nil_iff.mpr fun y hy => by simp [hnone y hy],
        List.filter_eq_self.mpr fun y hy => by simp [hnone y hy], List.nil_append]

/-- What is left behind the elements that `p` is true of. -/
theorem dropWhile_eq_filter (h : l.Pairwise fun x y => p y = true → p x = true) :
    l.dropWhile p = l.filter fun x => !p x := by
  induction l with
  | nil => rfl
  | cons x l ih =>
    obtain ⟨hx, h⟩ := List.pairwise_cons.mp h
    cases hpx : p x with
    | true => rw [List.dropWhile_cons_of_pos hpx, ih h, List.filter_cons_of_neg (by simp [hpx])]
    | false =>
      rw [List.dropWhile_cons_of_neg (by simp [hpx]), List.filter_eq_self.mpr]
      intro y hy
      obtain rfl | hy := List.mem_cons.mp hy
      · simp [hpx]
      · cases hpy : p y with
        | true => exact absurd (hx y hy hpy) (by simp [hpx])
        | false => rfl

theorem take_countP (h : l.Pairwise fun x y => p y = true → p x = true) : l.take (l.countP p) = l.filter p := by
  rw [List.countP_eq_length_filter]
  exact (congrArg (List.take (l.filter p).length) (filter_append_filter h)).symm.trans (List.take_left' rfl)

theorem drop_countP (h : l.Pairwise fun x y => p y = true → p x = true) :
    l.drop (l.countP p) = l.filter fun x => !p x := by
  rw [List.countP_eq_length_filter]
  exact (congrArg (List.drop (l.filter p).length) (filter_append_filter h)).symm.trans (List.drop_left' rfl)

/-- The first place that `p` is not true of is behind all those that it is true of. -/
theorem getElem?_map_eq (h : l.Pairwise fun x y => p y = true → p x = true) :
    ∀ i < l.length, (l[i]?).map p = some (decide (i < l.countP p)) := by
  intro i hi
  have hget : l[i]? = some l[i] := List.getElem?_eq_getElem hi
  rw [hget, Option.map_some]
  by_cases hlt : i < l.countP p
  · have hmem : l[i] ∈ l.filter p := by
      rw [← take_countP h, List.mem_take_iff_getElem]
      exact ⟨i, by omega, rfl⟩
    rw [(List.mem_filter.mp hmem).2, decide_eq_true hlt]
  · have hmem : l[i] ∈ l.filter fun x => !p x := by
      rw [← drop_countP h, List.mem_drop_iff_getElem]
      exact ⟨i - l.countP p, by omega, by congr 1; omega⟩
    have hfalse := (List.mem_filter.mp hmem).2
    rw [decide_eq_false hlt]
    simpa using hfalse

/-- The search in a list finds how many elements are in front. -/
theorem bisect_list (h : l.Pairwise fun x y => p y = true → p x = true) :
    bisect (fun i => (l[i]?).map p) l.length 0 l.length = some (l.countP p) :=
  bisect_eq (getElem?_map_eq h) (Nat.zero_le _) List.countP_le_length (Nat.le_refl _)

/-- The elements between two places that were searched for. -/
theorem drop_take_countP (hp : l.Pairwise fun x y => p y = true → p x = true)
    (hq : l.Pairwise fun x y => q y = true → q x = true) (hpq : ∀ x ∈ l, p x = true → q x = true) :
    (l.take (l.countP q)).drop (l.countP p) = l.filter fun x => !p x && q x := by
  have hsame : l.countP p = (l.filter q).countP p := by
    rw [List.countP_filter]
    refine List.countP_congr fun x hx => ?_
    simp only [Bool.and_eq_true]
    exact ⟨fun h => ⟨h, hpq x hx h⟩, fun h => h.1⟩
  rw [take_countP hq, hsame, drop_countP (hp.filter q), List.filter_filter]

end Bisect

end RangeMerge
