-- SUMMARY: Doubly linked lists: the links of a list, and what unlinking and linking an element make of it.
import Mathlib.Data.List.Basic
import Mathlib.Data.List.Nodup
import Mathlib.Logic.Function.Basic
import Mathlib.Tactic.Common

/-!
# Doubly linked lists

Every element of a list has a link to the one before it and to the one after it, and the list
has a link to its two ends. The links *spell* a list when they are those of its elements in
their order. Each operation writes a few links, and spells the list it is meant to make.
-/

/-- The ends of a list and the neighbours of its elements. -/
structure Links (ι : Type*) where
  first : Option ι
  last : Option ι
  previous : ι → Option ι
  next : ι → Option ι

/-- An element of two lists in a row is in the first one or in the second one. -/
theorem List.append_eq_split {α : Type*} {u v u' v' : List α} {x : α} (h : u ++ v = u' ++ x :: v') :
    (∃ w, u = u' ++ x :: w ∧ v' = w ++ v) ∨ ∃ w, u' = u ++ w ∧ v = w ++ x :: v' := by
  rcases List.append_eq_append_iff.mp h with ⟨w, hu', hv⟩ | ⟨w, hu, hv⟩
  · exact .inr ⟨w, hu', hv⟩
  · cases w with
    | nil => exact .inr ⟨[], by rw [hu, List.append_nil, List.append_nil], hv.symm⟩
    | cons y w =>
      obtain ⟨rfl, hv'⟩ := List.cons.inj hv
      exact .inl ⟨w, hu, hv'⟩

namespace Links

variable {ι : Type*}

/-- The same links read backwards. -/
def flip (k : Links ι) : Links ι := ⟨k.last, k.first, k.next, k.previous⟩

/-- The links are those of a list. -/
structure Spells (k : Links ι) (l : List ι) : Prop where
  nodup : l.Nodup
  first : k.first = l.head?
  last : k.last = l.getLast?
  next : ∀ u e v, l = u ++ e :: v → k.next e = v.head?
  previous : ∀ u e v, l = u ++ e :: v → k.previous e = u.getLast?

variable {k : Links ι} {l u v : List ι} {e t : ι}

/-- The elements met on the way along the links forward. -/
def follow (next : ι → Option ι) : Nat → Option ι → List ι
  | 0, _ => []
  | n + 1, e =>
    match e with
    | none => []
    | some e => e :: follow next n (next e)

/-- The list read off the links. -/
def walk (k : Links ι) (size : Nat) : List ι := follow k.next size k.first

theorem Spells.follow_eq (h : k.Spells l) (hl : l = u ++ v) : follow k.next v.length v.head? = v := by
  induction v generalizing u with
  | nil => rfl
  | cons e v ih =>
    have hnext := h.next u e v hl
    show e :: follow k.next v.length (k.next e) = e :: v
    rw [hnext, ih (u := u ++ [e]) (by simp [hl])]

theorem Spells.walk_eq (h : k.Spells l) : k.walk l.length = l := by
  unfold walk
  rw [h.first]
  exact h.follow_eq (u := []) rfl

theorem Spells.flip (h : k.Spells l) : k.flip.Spells l.reverse := by
  have hsplit : ∀ u e v, l.reverse = u ++ e :: v → l = v.reverse ++ e :: u.reverse := by
    intro u e v heq
    rw [← l.reverse_reverse, heq]
    simp
  refine ⟨List.nodup_reverse.mpr h.nodup, ?_, ?_, fun u e v heq => ?_, fun u e v heq => ?_⟩
  · rw [List.head?_reverse]
    exact h.last
  · rw [List.getLast?_reverse]
    exact h.first
  · rw [← List.getLast?_reverse]
    exact h.previous _ e _ (hsplit u e v heq)
  · rw [← List.head?_reverse]
    exact h.next _ e _ (hsplit u e v heq)

theorem Spells.of_flip (h : k.flip.Spells l.reverse) : k.Spells l := by
  have hback := h.flip
  rwa [List.reverse_reverse] at hback

theorem getLast?_ne_of_not_mem {x : ι} (h : x ∉ u) : u.getLast? ≠ some x :=
  fun heq => h (List.mem_of_getLast? heq)

variable [DecidableEq ι]

/-- Write a link that may not exist. -/
def write (f : ι → Option ι) (i : Option ι) (value : Option ι) : ι → Option ι :=
  match i with
  | none => f
  | some i => Function.update f i value

@[simp] theorem write_none (f : ι → Option ι) (value : Option ι) : write f none value = f := rfl

@[simp] theorem write_self (f : ι → Option ι) (i : ι) (value : Option ι) : write f (some i) value i = value :=
  Function.update_self ..

theorem write_of_ne {f : ι → Option ι} {i : Option ι} {value : Option ι} {j : ι} (h : i ≠ some j) :
    write f i value j = f j := by
  cases i with
  | none => rfl
  | some i => exact Function.update_of_ne (fun heq => h (congrArg some heq.symm)) ..

/-- Take an element out of the list; its own links are forgotten. -/
def unlink (k : Links ι) (e : ι) : Links ι where
  first := if k.previous e = none ∧ k.first = some e then k.next e else k.first
  last := if k.next e = none ∧ k.last = some e then k.previous e else k.last
  previous := write (write k.previous (k.next e) (k.previous e)) (some e) none
  next := write (write k.next (k.previous e) (k.next e)) (some e) none

/-- Take an element out of the list, and leave its own links as they are. -/
def detach (k : Links ι) (e : ι) : Links ι where
  first := if k.previous e = none then k.next e else k.first
  last := if k.next e = none then k.previous e else k.last
  previous := write k.previous (k.next e) (k.previous e)
  next := write k.next (k.previous e) (k.next e)

/-- Put an element right before another one. -/
def linkBefore (k : Links ι) (e t : ι) : Links ι where
  first := if k.previous t = none ∧ k.first = some t then some e else k.first
  last := k.last
  previous := write (write k.previous (some e) (k.previous t)) (some t) (some e)
  next := write (write k.next (k.previous t) (some e)) (some e) (some t)

/-- Put an element right after another one. -/
def linkAfter (k : Links ι) (e t : ι) : Links ι where
  first := k.first
  last := if k.next t = none ∧ k.last = some t then some e else k.last
  previous := write (write k.previous (k.next t) (some e)) (some e) (some t)
  next := write (write k.next (some e) (k.next t)) (some t) (some e)

/-- Put an element behind the last one. -/
def append (k : Links ι) (e : ι) : Links ι where
  first := if k.last = none then some e else k.first
  last := some e
  previous := write k.previous (some e) k.last
  next := write (write k.next (some e) none) k.last (some e)

/-! ## Unlinking -/

theorem flip_linkBefore (k : Links ι) (e t : ι) : k.flip.linkBefore e t = (k.linkAfter e t).flip := rfl

/-- The links forward after an element has been taken out. -/
theorem Spells.next_unlink (h : k.Spells (u ++ e :: v)) {x : ι} {u' v' : List ι} (heq : u ++ v = u' ++ x :: v') :
    (k.unlink e).next x = v'.head? := by
  have hnodup := h.nodup
  show write (write k.next (k.previous e) (k.next e)) (some e) none x = v'.head?
  rw [h.previous u e v rfl, h.next u e v rfl]
  rcases List.append_eq_split heq with ⟨w, rfl, rfl⟩ | ⟨w, rfl, rfl⟩
  · have hx : x ∉ w ++ e :: v := by
      rw [List.append_assoc, List.nodup_append] at hnodup
      exact (List.nodup_cons.mp hnodup.2.1).1
    rw [write_of_ne (fun he => hx (by simp [Option.some.inj he]))]
    cases w with
    | nil =>
      rw [List.getLast?_append_cons, List.getLast?_singleton, write_self]
      rfl
    | cons y w =>
      have hlast : (u' ++ x :: y :: w).getLast? ≠ some x := by
        rw [List.getLast?_append_cons, List.getLast?_cons_cons]
        exact getLast?_ne_of_not_mem fun hmem => hx (List.mem_append_left _ hmem)
      rw [write_of_ne hlast, h.next u' x (y :: w ++ e :: v) (by simp)]
      rfl
  · have hx : x ∉ u ++ [e] := by
      intro hmem
      have hsplit : u ++ e :: (w ++ x :: v') = (u ++ [e]) ++ (w ++ x :: v') := by simp
      rw [hsplit] at hnodup
      exact List.disjoint_of_nodup_append hnodup hmem (by simp)
    rw [write_of_ne (fun he => hx (by simp [Option.some.inj he])),
      write_of_ne (getLast?_ne_of_not_mem fun hmem => hx (List.mem_append_left _ hmem))]
    exact h.next (u ++ e :: w) x v' (by simp)

theorem Spells.first_unlink (h : k.Spells (u ++ e :: v)) : (k.unlink e).first = (u ++ v).head? := by
  show (if k.previous e = none ∧ k.first = some e then k.next e else k.first) = _
  rw [h.previous u e v rfl, h.next u e v rfl, h.first]
  cases u with
  | nil => simp
  | cons y u => simp

theorem Spells.unlink (h : k.Spells (u ++ e :: v)) : (k.unlink e).Spells (u ++ v) := by
  have hflip : k.flip.Spells (v.reverse ++ e :: u.reverse) := by
    have hreverse := h.flip
    simpa using hreverse
  refine ⟨h.nodup.sublist (by simp), h.first_unlink, ?_, fun _ _ _ heq => h.next_unlink heq, fun u' x v' heq => ?_⟩
  · have hlast := hflip.first_unlink
    rwa [← List.reverse_append, List.head?_reverse] at hlast
  · have hprevious := hflip.next_unlink (show v.reverse ++ u.reverse = v'.reverse ++ x :: u'.reverse by
      rw [← List.reverse_append, heq]
      simp)
    rwa [List.head?_reverse] at hprevious

omit [DecidableEq ι] in
/-- The links of the elements of a list are all that matters for it. -/
theorem Spells.congr {k' : Links ι} (h : k.Spells l) (hfirst : k'.first = k.first) (hlast : k'.last = k.last)
    (hprevious : ∀ x ∈ l, k'.previous x = k.previous x) (hnext : ∀ x ∈ l, k'.next x = k.next x) : k'.Spells l := by
  refine ⟨h.nodup, hfirst.trans h.first, hlast.trans h.last, fun u x v heq => ?_, fun u x v heq => ?_⟩
  · rw [hnext x (by simp [heq]), h.next u x v heq]
  · rw [hprevious x (by simp [heq]), h.previous u x v heq]

theorem Spells.first_detach (h : k.Spells (u ++ e :: v)) : (k.detach e).first = (k.unlink e).first := by
  show (if k.previous e = none then k.next e else k.first) =
    if k.previous e = none ∧ k.first = some e then k.next e else k.first
  rw [h.previous u e v rfl, h.first]
  cases u with
  | nil => simp
  | cons y u => simp

theorem Spells.detach (h : k.Spells (u ++ e :: v)) : (k.detach e).Spells (u ++ v) := by
  have hflip : k.flip.Spells (v.reverse ++ e :: u.reverse) := by
    have hreverse := h.flip
    simpa using hreverse
  have hne : ∀ x ∈ u ++ v, some e ≠ some x := by
    rintro x hx heq
    have hnodup := List.perm_middle.nodup_iff.mp h.nodup
    rw [← Option.some.inj heq] at hx
    exact (List.nodup_cons.mp hnodup).1 hx
  exact h.unlink.congr h.first_detach hflip.first_detach (fun x hx => (write_of_ne (hne x hx)).symm)
    fun x hx => (write_of_ne (hne x hx)).symm

/-- An element that has been taken out has no neighbour. -/
theorem previous_unlink (k : Links ι) (e : ι) : (k.unlink e).previous e = none := write_self ..

theorem next_unlink (k : Links ι) (e : ι) : (k.unlink e).next e = none := write_self ..

/-! ## Linking -/

theorem Spells.linkBefore (h : k.Spells (u ++ t :: v)) (he : e ∉ u ++ t :: v) :
    (k.linkBefore e t).Spells (u ++ e :: t :: v) := by
  have ht : t ∉ u := by
    have hnodup := h.nodup
    rw [List.nodup_append] at hnodup
    exact fun hmem => hnodup.2.2 t hmem t List.mem_cons_self rfl
  have hne : t ≠ e := fun heq => he (by simp [heq])
  have hnodup : (u ++ e :: t :: v).Nodup :=
    (List.perm_middle.nodup_iff).mpr (List.nodup_cons.mpr ⟨he, h.nodup⟩)
  refine ⟨hnodup, ?_, ?_, fun u' x v' heq => ?_, fun u' x v' heq => ?_⟩
  · show (if k.previous t = none ∧ k.first = some t then some e else k.first) = _
    rw [h.previous u t v rfl, h.first]
    cases u with
    | nil => simp
    | cons y u => simp
  · show k.last = _
    rw [h.last]
    simp
  · show write (write k.next (k.previous t) (some e)) (some e) (some t) x = v'.head?
    rw [h.previous u t v rfl]
    rcases List.append_eq_split heq with ⟨w, rfl, rfl⟩ | ⟨w, rfl, hw⟩
    · rw [write_of_ne (fun hx => he (by simp [Option.some.inj hx]))]
      cases w with
      | nil =>
        rw [List.getLast?_append_cons, List.getLast?_singleton, write_self]
        rfl
      | cons y w =>
        have hlast : (u' ++ x :: y :: w).getLast? ≠ some x := by
          have hx := h.nodup
          rw [List.append_assoc, List.nodup_append] at hx
          rw [List.getLast?_append_cons, List.getLast?_cons_cons]
          exact getLast?_ne_of_not_mem fun hmem => (List.nodup_cons.mp hx.2.1).1 (List.mem_append_left _ hmem)
        rw [write_of_ne hlast, h.next u' x (y :: w ++ t :: v) (by simp)]
        rfl
    · cases w with
      | nil =>
        obtain ⟨rfl, rfl⟩ := List.cons.inj hw
        exact write_self ..
      | cons y w =>
        obtain ⟨rfl, hv⟩ := List.cons.inj hw
        have hx : x ∈ t :: v := by simp [hv]
        have hxu : x ∉ u := fun hmem => List.disjoint_of_nodup_append h.nodup hmem hx
        rw [write_of_ne (fun hex => he (List.mem_append_right u (by rwa [Option.some.inj hex]))),
          write_of_ne (getLast?_ne_of_not_mem hxu)]
        exact h.next (u ++ w) x v' (by simp [hv])
  · show write (write k.previous (some e) (k.previous t)) (some t) (some e) x = u'.getLast?
    rw [h.previous u t v rfl]
    rcases List.append_eq_split heq with ⟨w, rfl, rfl⟩ | ⟨w, rfl, hw⟩
    · rw [write_of_ne (fun hx => ht (by simp [Option.some.inj hx])),
        write_of_ne (fun hx => he (by simp [Option.some.inj hx]))]
      exact h.previous u' x (w ++ t :: v) (by simp)
    · cases w with
      | nil =>
        obtain ⟨rfl, rfl⟩ := List.cons.inj hw
        rw [write_of_ne (fun hx => hne (Option.some.inj hx)), write_self, List.append_nil]
      | cons y w =>
        obtain ⟨rfl, hv⟩ := List.cons.inj hw
        cases w with
        | nil =>
          obtain ⟨rfl, rfl⟩ := List.cons.inj hv
          simp
        | cons z w =>
          obtain ⟨rfl, rfl⟩ := List.cons.inj hv
          have hx := (List.nodup_append.mp h.nodup).2.1
          rw [write_of_ne (fun hxt => (List.nodup_cons.mp hx).1 (by simp [Option.some.inj hxt])),
            write_of_ne (fun hxe => he (by simp [Option.some.inj hxe])),
            h.previous (u ++ t :: w) x v' (by simp)]
          simp

theorem Spells.linkAfter (h : k.Spells (u ++ t :: v)) (he : e ∉ u ++ t :: v) :
    (k.linkAfter e t).Spells (u ++ t :: e :: v) := by
  have hflip : k.flip.Spells (v.reverse ++ t :: u.reverse) := by
    have hreverse := h.flip
    simpa using hreverse
  have hmem : e ∉ v.reverse ++ t :: u.reverse := by
    have hreverse := mt List.mem_reverse.mp he
    simpa using hreverse
  refine Spells.of_flip ?_
  rw [← flip_linkBefore]
  simpa using hflip.linkBefore hmem

theorem Spells.append (h : k.Spells l) (he : e ∉ l) : (k.append e).Spells (l ++ [e]) := by
  rcases List.eq_nil_or_concat l with rfl | ⟨u, t, rfl⟩
  · have hlast : k.last = none := h.last
    refine ⟨List.nodup_singleton e, ?_, rfl, fun u x v heq => ?_, fun u x v heq => ?_⟩
    · show (if k.last = none then some e else k.first) = _
      rw [if_pos hlast]
      rfl
    all_goals
      obtain ⟨rfl, hx⟩ : u = [] ∧ [e] = x :: v := by
        cases u with
        | nil => exact ⟨rfl, heq⟩
        | cons y u => simp at heq
      obtain ⟨rfl, rfl⟩ := List.cons.inj hx
    · show write (write k.next (some e) none) k.last (some e) e = none
      rw [hlast, write_none, write_self]
    · show write k.previous (some e) k.last e = none
      rw [write_self, hlast]
  · rw [List.concat_eq_append] at h he ⊢
    have hlast : k.last = some t := by
      rw [h.last, List.getLast?_append_cons, List.getLast?_singleton]
    have hnext : k.next t = none := h.next u t [] rfl
    have happend : k.append e = k.linkAfter e t := by
      unfold Links.append Links.linkAfter
      rw [hlast, hnext, if_neg (by simp), if_pos ⟨rfl, rfl⟩, write_none, h.first]
    rw [happend]
    simpa using h.linkAfter he

/-! ## Taking an end off -/

/-- Take the last element off without touching its own links; the ends are reset when the list is
said to be empty now. -/
def detachLast (k : Links ι) (e : ι) (emptied : Prop) [Decidable emptied] : Links ι where
  first := if emptied then none else k.first
  last := if emptied then none else k.previous e
  previous := k.previous
  next := write k.next (k.previous e) none

/-- Take the first element off in the same way. -/
def detachFirst (k : Links ι) (e : ι) (emptied : Prop) [Decidable emptied] : Links ι where
  first := if emptied then none else k.next e
  last := if emptied then none else k.last
  previous := write k.previous (k.next e) none
  next := k.next

theorem flip_detachLast (k : Links ι) (e : ι) (emptied : Prop) [Decidable emptied] :
    k.flip.detachLast e emptied = (k.detachFirst e emptied).flip := rfl

theorem Spells.detachLast (h : k.Spells (u ++ [e])) {emptied : Prop} [Decidable emptied] (hemptied : emptied ↔ u = []) :
    (k.detachLast e emptied).Spells u := by
  have hprevious : k.previous e = u.getLast? := h.previous u e [] rfl
  have hnodup := (List.nodup_append.mp h.nodup).1
  refine ⟨hnodup, ?_, ?_, fun w x v hu => ?_, fun w x v hu => ?_⟩
  · show (if emptied then none else k.first) = _
    rw [h.first]
    cases u with
    | nil => simp [hemptied]
    | cons y u => simp [hemptied]
  · show (if emptied then none else k.previous e) = _
    rw [hprevious]
    cases u with
    | nil => simp
    | cons y u => simp [hemptied]
  · show write k.next (k.previous e) none x = _
    rw [hprevious]
    rcases List.eq_nil_or_concat v with rfl | ⟨v', y, rfl⟩
    · rw [hu, List.getLast?_append_cons, List.getLast?_singleton, write_self]
      rfl
    · have hne : u.getLast? ≠ some x := by
        intro hlast
        rw [hu, List.concat_eq_append, List.getLast?_append_cons, ← List.cons_append, List.getLast?_concat] at hlast
        rw [hu, Option.some.inj hlast] at hnodup
        simp [List.nodup_append] at hnodup
      rw [write_of_ne hne, h.next w x (v'.concat y ++ [e]) (by rw [hu, List.append_assoc, List.cons_append])]
      simp [List.head?_append]
  · exact h.previous w x (v ++ [e]) (by rw [hu, List.append_assoc, List.cons_append])

theorem Spells.detachFirst (h : k.Spells (e :: v)) {emptied : Prop} [Decidable emptied] (hemptied : emptied ↔ v = []) :
    (k.detachFirst e emptied).Spells v := by
  have hflip : k.flip.Spells (v.reverse ++ [e]) := by
    have hreverse := h.flip
    rwa [List.reverse_cons] at hreverse
  refine Spells.of_flip ?_
  rw [← flip_detachLast]
  exact hflip.detachLast (hemptied.trans List.reverse_eq_nil_iff.symm)

/-! ## Elements on their own -/

omit [DecidableEq ι] in
/-- An element without neighbours. -/
def Loose (k : Links ι) (x : ι) : Prop := k.previous x = none ∧ k.next x = none

section Loose

variable {x : ι}

omit [DecidableEq ι] in
theorem Spells.previous_ne (h : k.Spells l) (he : e ∈ l) (hx : x ∉ l) : k.previous e ≠ some x := by
  obtain ⟨u, v, rfl⟩ := List.append_of_mem he
  rw [h.previous u e v rfl]
  exact getLast?_ne_of_not_mem fun hmem => hx (List.mem_append_left _ hmem)

omit [DecidableEq ι] in
theorem Spells.next_ne (h : k.Spells l) (he : e ∈ l) (hx : x ∉ l) : k.next e ≠ some x :=
  Spells.previous_ne (k := k.flip) h.flip (List.mem_reverse.mpr he) (mt List.mem_reverse.mp hx)

omit [DecidableEq ι] in
theorem Spells.last_ne (h : k.Spells l) (hx : x ∉ l) : k.last ≠ some x := by
  rw [h.last]
  exact getLast?_ne_of_not_mem hx

omit [DecidableEq ι] in
theorem Spells.first_ne (h : k.Spells l) (hx : x ∉ l) : k.first ≠ some x :=
  Spells.last_ne (k := k.flip) h.flip (mt List.mem_reverse.mp hx)

/-- An element on its own is not taken out of anything. -/
theorem Spells.unlink_loose (h : k.Spells l) (hx : x ∉ l) (hloose : k.Loose x) : k.unlink x = k := by
  obtain ⟨hprevious, hnext⟩ := hloose
  have hfirst := h.first_ne hx
  have hlast := h.last_ne hx
  have hwrite : ∀ f : ι → Option ι, f x = none → write f (some x) none = f := by
    intro f hf
    rw [write, ← hf, Function.update_eq_self]
  unfold Links.unlink
  rw [hprevious, hnext, write_none, write_none, hwrite _ hprevious, hwrite _ hnext, if_neg (by simp [hfirst]),
    if_neg (by simp [hlast])]

theorem Loose.unlink_self (k : Links ι) (e : ι) : (k.unlink e).Loose e := ⟨previous_unlink k e, next_unlink k e⟩

/-- What the operations on a list leave of an element on its own. -/
theorem Loose.unlink (hloose : k.Loose x) (h : k.Spells l) (he : e ∈ l) (hx : x ∉ l) : (k.unlink e).Loose x := by
  have hne : some e ≠ some x := fun heq => hx (Option.some.inj heq ▸ he)
  constructor
  · show write (write k.previous (k.next e) (k.previous e)) (some e) none x = none
    rw [write_of_ne hne, write_of_ne (h.next_ne he hx), hloose.1]
  · show write (write k.next (k.previous e) (k.next e)) (some e) none x = none
    rw [write_of_ne hne, write_of_ne (h.previous_ne he hx), hloose.2]

theorem Loose.linkBefore (hloose : k.Loose x) (h : k.Spells l) (ht : t ∈ l) (hx : x ∉ l) (hne : x ≠ e) :
    (k.linkBefore e t).Loose x := by
  have hxe : some e ≠ some x := fun heq => hne (Option.some.inj heq).symm
  have hxt : some t ≠ some x := fun heq => hx (Option.some.inj heq ▸ ht)
  constructor
  · show write (write k.previous (some e) (k.previous t)) (some t) (some e) x = none
    rw [write_of_ne hxt, write_of_ne hxe, hloose.1]
  · show write (write k.next (k.previous t) (some e)) (some e) (some t) x = none
    rw [write_of_ne hxe, write_of_ne (h.previous_ne ht hx), hloose.2]

theorem Loose.linkAfter (hloose : k.Loose x) (h : k.Spells l) (ht : t ∈ l) (hx : x ∉ l) (hne : x ≠ e) :
    (k.linkAfter e t).Loose x := by
  have hflip : k.flip.Loose x := ⟨hloose.2, hloose.1⟩
  have hback := hflip.linkBefore h.flip (List.mem_reverse.mpr ht) (mt List.mem_reverse.mp hx) hne
  rw [flip_linkBefore] at hback
  exact ⟨hback.2, hback.1⟩

theorem Loose.append (hloose : k.Loose x) (h : k.Spells l) (hx : x ∉ l) (hne : x ≠ e) : (k.append e).Loose x := by
  have hxe : some e ≠ some x := fun heq => hne (Option.some.inj heq).symm
  constructor
  · show write k.previous (some e) k.last x = none
    rw [write_of_ne hxe, hloose.1]
  · show write (write k.next (some e) none) k.last (some e) x = none
    rw [write_of_ne (h.last_ne hx), write_of_ne hxe, hloose.2]

theorem Loose.detachLast (hloose : k.Loose x) (h : k.Spells l) (he : e ∈ l) (hx : x ∉ l) {emptied : Prop}
    [Decidable emptied] : (k.detachLast e emptied).Loose x := by
  refine ⟨hloose.1, ?_⟩
  show write k.next (k.previous e) none x = none
  rw [write_of_ne (h.previous_ne he hx), hloose.2]

theorem Loose.detachFirst (hloose : k.Loose x) (h : k.Spells l) (he : e ∈ l) (hx : x ∉ l) {emptied : Prop}
    [Decidable emptied] : (k.detachFirst e emptied).Loose x := by
  refine ⟨?_, hloose.2⟩
  show write k.previous (k.next e) none x = none
  rw [write_of_ne (h.next_ne he hx), hloose.1]

end Loose

end Links
