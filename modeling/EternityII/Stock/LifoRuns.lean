-- SUMMARY: Runs of the file operations: a file behaves as a shelf of payloads, and when its ends stay right.
import EternityII.Stock.Lifo

/-!
# Runs of the file operations

A file stands for a shelf: the payloads that are linked, in their order, and those that have been
extracted and not yet put anywhere. `extract_element` leaves the counters alone, so that they count
both kinds. Each operation does on the shelf what its name says, as long as its arguments are of the
file. One thing is asked besides: `scroll_sized` and `scroll_fifo_sized` reset the far end of the
file when its size comes to zero, so the only linked payload is not to be scrolled while another
one is extracted.
-/

/-! ## Operations -/

section Operations

variable {ι : Type*} {P : Puzzle}

/-- A call of one of the operations; `put` comes with what `malloc` gives. -/
inductive FileOp (ι : Type*) (P : Puzzle) where
  | put (value : Element P) (address : Option ι)
  | scroll (destcap : Nat)
  | scrollFifo (destcap : Nat)
  | extract (element : ι)
  | moveBefore (element target : ι)
  | moveAfter (element target : ι)
  | remove (element : ι)

/-- What a call gives back. -/
inductive FileAnswer (P : Puzzle) where
  | done
  | refused
  | value (payload : Element P)

/-- The answer of `put_sized`. -/
def FileAnswer.ofPut : Bool → FileAnswer P
  | true => .done
  | false => .refused

/-- The answer of a scroll. -/
def FileAnswer.ofScroll : Option (Element P) → FileAnswer P
  | none => .refused
  | some payload => .value payload

/-- One call on a file. -/
def File.step [DecidableEq ι] (file : File ι P) : FileOp ι P → File ι P × FileAnswer P
  | .put value address =>
    let r := file.putSized value address
    (r.1, .ofPut r.2)
  | .scroll destcap =>
    let r := file.scrollSized destcap
    (r.1, .ofScroll r.2)
  | .scrollFifo destcap =>
    let r := file.scrollFifoSized destcap
    (r.1, .ofScroll r.2)
  | .extract element => (file.extractElement element, .done)
  | .moveBefore element target => (file.moveBefore element target, .done)
  | .moveAfter element target => (file.moveAfter element (some target), .done)
  | .remove element => (file.removeElement element, .done)

/-- A sequence of calls, with their answers. -/
def File.run [DecidableEq ι] (file : File ι P) : List (FileOp ι P) → File ι P × List (FileAnswer P)
  | [] => (file, [])
  | op :: ops =>
    let r := File.run (file.step op).1 ops
    (r.1, (file.step op).2 :: r.2)

end Operations

/-! ## Shelves -/

/-- What a file stands for: the payloads linked, and those extracted, each with its address. -/
structure FileShelf (ι : Type*) (P : Puzzle) where
  linked : List (ι × Element P)
  extracted : List (ι × Element P)

namespace FileShelf

variable {ι : Type*} [DecidableEq ι] {P : Puzzle}

omit [DecidableEq ι] in
/-- The payloads of a shelf. -/
def payloads (shelf : FileShelf ι P) : List (ι × Element P) := shelf.linked ++ shelf.extracted

omit [DecidableEq ι] in
/-- The addresses of a shelf. -/
def addresses (shelf : FileShelf ι P) : List ι := shelf.payloads.map Prod.fst

/-- A list without the payload at an address. -/
def without (e : ι) (l : List (ι × Element P)) : List (ι × Element P) := l.filter fun p => p.1 ≠ e

/-- A payload put in front of the one at an address. -/
def insertBefore (t : ι) (p : ι × Element P) : List (ι × Element P) → List (ι × Element P)
  | [] => []
  | q :: l => if q.1 = t then p :: q :: l else q :: insertBefore t p l

/-- A payload put behind the one at an address. -/
def insertAfter (t : ι) (p : ι × Element P) : List (ι × Element P) → List (ι × Element P)
  | [] => []
  | q :: l => if q.1 = t then q :: p :: l else q :: insertAfter t p l

/-- The payload at an address goes to another place among the linked ones. -/
def move (shelf : FileShelf ι P) (e : ι) (place : ι × Element P → List (ι × Element P) → List (ι × Element P)) :
    FileShelf ι P :=
  match shelf.payloads.find? fun p => p.1 = e with
  | none => shelf
  | some p => ⟨place p (without e shelf.linked), without e shelf.extracted⟩

omit [DecidableEq ι] in
/-- A payload that may be stored goes behind the others, where there is memory. -/
def put (shelf : FileShelf ι P) (value : Element P) (address : Option ι) : FileShelf ι P × FileAnswer P :=
  match address with
  | none => (shelf, .refused)
  | some a =>
    if 0 < value.len ∧ value.len ≤ 65535 then ({ shelf with linked := shelf.linked ++ [(a, value)] }, .done)
    else (shelf, .refused)

omit [DecidableEq ι] in
/-- The last payload that is linked is taken, where it fits. -/
def scroll (shelf : FileShelf ι P) (destcap : Nat) : FileShelf ι P × FileAnswer P :=
  match shelf.linked.getLast? with
  | none => (shelf, .refused)
  | some p =>
    if p.2.len ≤ destcap then ({ shelf with linked := shelf.linked.dropLast }, .value p.2) else (shelf, .refused)

omit [DecidableEq ι] in
/-- The first payload that is linked is taken, where it fits. -/
def scrollFifo (shelf : FileShelf ι P) (destcap : Nat) : FileShelf ι P × FileAnswer P :=
  match shelf.linked.head? with
  | none => (shelf, .refused)
  | some p =>
    if p.2.len ≤ destcap then ({ shelf with linked := shelf.linked.tail }, .value p.2) else (shelf, .refused)

/-- A linked payload becomes an extracted one. -/
def extract (shelf : FileShelf ι P) (e : ι) : FileShelf ι P :=
  match shelf.linked.find? fun p => p.1 = e with
  | none => shelf
  | some p => ⟨without e shelf.linked, p :: shelf.extracted⟩

/-- A payload is gone. -/
def remove (shelf : FileShelf ι P) (e : ι) : FileShelf ι P := ⟨without e shelf.linked, without e shelf.extracted⟩

/-- One call, as it is meant. -/
def step (shelf : FileShelf ι P) : FileOp ι P → FileShelf ι P × FileAnswer P
  | .put value address => shelf.put value address
  | .scroll destcap => shelf.scroll destcap
  | .scrollFifo destcap => shelf.scrollFifo destcap
  | .extract e => (shelf.extract e, .done)
  | .moveBefore e t => (shelf.move e (insertBefore t), .done)
  | .moveAfter e t => (shelf.move e (insertAfter t), .done)
  | .remove e => (shelf.remove e, .done)

/-- A sequence of calls, with their answers. -/
def run (shelf : FileShelf ι P) : List (FileOp ι P) → FileShelf ι P × List (FileAnswer P)
  | [] => (shelf, [])
  | op :: ops =>
    let r := run (shelf.step op).1 ops
    (r.1, (shelf.step op).2 :: r.2)

omit [DecidableEq ι] in
/-- The arguments are of the file: `malloc` gives an address that is free, an element is one of the
file, and a target is another one that is linked. -/
def Proper (shelf : FileShelf ι P) : FileOp ι P → Prop
  | .put _ address => ∀ a, address = some a → a ∉ shelf.addresses
  | .scroll _ => True
  | .scrollFifo _ => True
  | .extract e => e ∈ shelf.addresses
  | .moveBefore e t => e ≠ t ∧ e ∈ shelf.addresses ∧ t ∈ shelf.linked.map Prod.fst
  | .moveAfter e t => e ≠ t ∧ e ∈ shelf.addresses ∧ t ∈ shelf.linked.map Prod.fst
  | .remove e => e ∈ shelf.addresses

omit [DecidableEq ι] in
/-- The only linked payload is scrolled with none extracted. -/
def Settled (shelf : FileShelf ι P) : FileOp ι P → Prop
  | .scroll destcap => ∀ p, shelf.linked = [p] → p.2.len ≤ destcap → shelf.extracted = []
  | .scrollFifo destcap => ∀ p, shelf.linked = [p] → p.2.len ≤ destcap → shelf.extracted = []
  | _ => True

/-- Every call of a sequence satisfies a condition where it is made. -/
def Along (Q : FileShelf ι P → FileOp ι P → Prop) (shelf : FileShelf ι P) : List (FileOp ι P) → Prop
  | [] => True
  | op :: ops => Q shelf op ∧ Along Q (shelf.step op).1 ops

end FileShelf

/-- A file that stands for a shelf: its links are those of the linked payloads, an extracted one has
no neighbour, each address holds its payload, and the counters count both kinds. -/
structure File.Holds {ι : Type*} {P : Puzzle} (file : File ι P) (shelf : FileShelf ι P) : Prop where
  spells : file.links.Spells (shelf.linked.map Prod.fst)
  loose : ∀ p ∈ shelf.extracted, file.links.Loose p.1
  nodup : shelf.addresses.Nodup
  data : ∀ p ∈ shelf.payloads, file.data p.1 = p.2
  size : file.size = shelf.payloads.length
  bytes : file.bytes = (shelf.payloads.map fun p => p.2.len).sum

/-! ## Payloads by their addresses -/

namespace FileShelf

variable {ι : Type*} [DecidableEq ι] {P : Puzzle} {e t : ι} {p q : ι × Element P} {l u w : List (ι × Element P)}

theorem without_of_not_mem (h : e ∉ l.map Prod.fst) : without e l = l := by
  refine List.filter_eq_self.mpr fun p hp => decide_eq_true fun heq => h ?_
  exact heq ▸ List.mem_map_of_mem hp

theorem without_split (h : ((u ++ p :: w).map Prod.fst).Nodup) : without p.1 (u ++ p :: w) = u ++ w := by
  rw [List.map_append, List.map_cons, List.nodup_middle, ← List.map_append, List.nodup_cons] at h
  rw [without, List.filter_append, List.filter_cons_of_neg (by simp), ← List.filter_append]
  exact without_of_not_mem h.1

theorem not_mem_without (e : ι) (l : List (ι × Element P)) : e ∉ (without e l).map Prod.fst := by
  intro h
  obtain ⟨p, hp, heq⟩ := List.mem_map.mp h
  exact of_decide_eq_true (List.mem_filter.mp hp).2 heq

theorem find?_split (h : ((u ++ p :: w).map Prod.fst).Nodup) :
    ((u ++ p :: w).find? fun x => decide (x.1 = p.1)) = some p := by
  rw [List.map_append, List.map_cons, List.nodup_middle, ← List.map_append, List.nodup_cons] at h
  have hu : (u.find? fun x => decide (x.1 = p.1)) = none := by
    refine List.find?_eq_none.mpr fun x hx heq => h.1 ?_
    exact of_decide_eq_true heq ▸ List.mem_map_of_mem (List.mem_append_left _ hx)
  rw [List.find?_append, hu, Option.none_or, List.find?_cons_of_pos (by simp)]

theorem insertBefore_split (h : ((u ++ q :: w).map Prod.fst).Nodup) :
    insertBefore q.1 p (u ++ q :: w) = u ++ p :: q :: w := by
  induction u with
  | nil => exact if_pos rfl
  | cons x u ih =>
    rw [List.cons_append, List.map_cons, List.nodup_cons] at h
    have hne : x.1 ≠ q.1 := fun heq => h.1 (by rw [heq]; simp)
    rw [List.cons_append, insertBefore, if_neg hne, ih h.2]
    rfl

theorem insertAfter_split (h : ((u ++ q :: w).map Prod.fst).Nodup) :
    insertAfter q.1 p (u ++ q :: w) = u ++ q :: p :: w := by
  induction u with
  | nil => exact if_pos rfl
  | cons x u ih =>
    rw [List.cons_append, List.map_cons, List.nodup_cons] at h
    have hne : x.1 ≠ q.1 := fun heq => h.1 (by rw [heq]; simp)
    rw [List.cons_append, insertAfter, if_neg hne, ih h.2]
    rfl

end FileShelf

/-! ## One call -/

namespace File

open FileShelf

variable {ι : Type*} [DecidableEq ι] {P : Puzzle} {file : File ι P} {shelf shelf' : FileShelf ι P} {e t : ι}
  {p : ι × Element P} {links : Links ι}

omit [DecidableEq ι] in
theorem Holds.not_linked (h : file.Holds shelf) (hp : p ∈ shelf.extracted) : p.1 ∉ shelf.linked.map Prod.fst := by
  have hnodup := h.nodup
  rw [addresses, payloads, List.map_append] at hnodup
  exact fun hmem => List.disjoint_of_nodup_append hnodup hmem (List.mem_map_of_mem hp)

omit [DecidableEq ι] in
theorem Holds.linked_nodup (h : file.Holds shelf) : (shelf.linked.map Prod.fst).Nodup := h.spells.nodup

omit [DecidableEq ι] in
/-- The same payloads with other links. -/
theorem Holds.relink (h : file.Holds shelf) (hspells : links.Spells (shelf'.linked.map Prod.fst))
    (hloose : ∀ p ∈ shelf'.extracted, links.Loose p.1) (hperm : shelf'.payloads.Perm shelf.payloads) :
    File.Holds { file with links } shelf' where
  spells := hspells
  loose := hloose
  nodup := ((hperm.map Prod.fst).nodup_iff).mpr h.nodup
  data p hp := h.data p (hperm.mem_iff.mp hp)
  size := h.size.trans hperm.length_eq.symm
  bytes := h.bytes.trans (hperm.map fun p => p.2.len).sum_nat.symm

omit [DecidableEq ι] in
/-- One payload less, and other links. -/
theorem Holds.drop (h : file.Holds shelf) (hspells : links.Spells (shelf'.linked.map Prod.fst))
    (hloose : ∀ p ∈ shelf'.extracted, links.Loose p.1) (hperm : shelf.payloads.Perm (p :: shelf'.payloads)) :
    File.Holds { file with links, size := file.size - 1, bytes := file.bytes - (file.data p.1).len } shelf' := by
  have hdata : file.data p.1 = p.2 := h.data p (hperm.mem_iff.mpr List.mem_cons_self)
  have hnodup := ((hperm.map Prod.fst).nodup_iff).mp h.nodup
  rw [List.map_cons, List.nodup_cons] at hnodup
  refine ⟨hspells, hloose, hnodup.2, fun q hq => h.data q (hperm.mem_iff.mpr (List.mem_cons_of_mem _ hq)), ?_, ?_⟩
  · show file.size - 1 = _
    rw [h.size, hperm.length_eq, List.length_cons, Nat.add_sub_cancel]
  · show file.bytes - (file.data p.1).len = _
    rw [h.bytes, (hperm.map fun p => p.2.len).sum_nat, List.map_cons, List.sum_cons, hdata, Nat.add_sub_cancel_left]

/-- Taking an element of the file out of its links, whether it is linked or not. -/
theorem Holds.unlink (h : file.Holds shelf) (he : e ∈ shelf.addresses) :
    (file.links.unlink e).Spells ((without e shelf.linked).map Prod.fst) ∧ (file.links.unlink e).Loose e ∧
      (∀ p ∈ shelf.extracted, (file.links.unlink e).Loose p.1) ∧
      ∃ p, p.1 = e ∧ (shelf.payloads.find? fun x => decide (x.1 = e)) = some p ∧
        shelf.payloads.Perm (p :: (without e shelf.linked ++ without e shelf.extracted)) := by
  obtain ⟨p, hp, rfl⟩ := List.mem_map.mp he
  have hnodup := h.nodup
  rw [addresses] at hnodup
  have hsome : (shelf.payloads.find? fun x => decide (x.1 = p.1)) = some p := by
    obtain ⟨u, w, hsplit⟩ := List.append_of_mem hp
    rw [hsplit] at hnodup ⊢
    exact find?_split hnodup
  have hwithout : shelf.payloads.Perm (p :: (without p.1 shelf.linked ++ without p.1 shelf.extracted)) := by
    have hfilter : without p.1 shelf.linked ++ without p.1 shelf.extracted = without p.1 shelf.payloads :=
      (List.filter_append ..).symm
    obtain ⟨u, w, hsplit⟩ := List.append_of_mem hp
    rw [hfilter, hsplit]
    rw [hsplit] at hnodup
    rw [without_split hnodup]
    exact List.perm_middle
  refine ⟨?_, Links.Loose.unlink_self _ _, ?_, p, rfl, hsome, hwithout⟩
  · rcases List.mem_append.mp hp with hlinked | hextracted
    · obtain ⟨u, w, hsplit⟩ := List.append_of_mem hlinked
      have hspells := h.spells
      have hlinks := h.linked_nodup
      rw [hsplit] at hspells hlinks ⊢
      rw [without_split hlinks, List.map_append]
      rw [List.map_append, List.map_cons] at hspells
      exact hspells.unlink
    · have hnot := h.not_linked hextracted
      rw [h.spells.unlink_loose hnot (h.loose p hextracted), without_of_not_mem hnot]
      exact h.spells
  · intro q hq
    rcases List.mem_append.mp hp with hlinked | hextracted
    · exact (h.loose q hq).unlink h.spells (List.mem_map_of_mem hlinked) (h.not_linked hq)
    · rw [h.spells.unlink_loose (h.not_linked hextracted) (h.loose p hextracted)]
      exact h.loose q hq

/-- What `extract_element` does. -/
theorem Holds.extract (h : file.Holds shelf) (he : e ∈ shelf.addresses) :
    (file.extractElement e).Holds (shelf.extract e) := by
  obtain ⟨hspells, hself, hloose, p', hp', hfind, hperm⟩ := h.unlink he
  unfold FileShelf.extract
  cases hlinked : shelf.linked.find? fun p => decide (p.1 = e) with
  | none =>
    -- The element is extracted already: it has no neighbour, and nothing happens.
    have hnot : e ∉ shelf.linked.map Prod.fst := by
      intro hmem
      obtain ⟨p, hp, rfl⟩ := List.mem_map.mp hmem
      exact List.find?_eq_none.mp hlinked p hp (by simp)
    rw [without_of_not_mem hnot] at hspells
    exact h.relink hspells hloose (.refl _)
  | some p =>
    have hmem := List.mem_of_find?_eq_some hlinked
    have hpe : p.1 = e := by simpa using List.find?_some hlinked
    obtain rfl : p = p' := by
      rw [payloads, List.find?_append, hlinked, Option.some_or] at hfind
      exact Option.some.inj hfind
    have hnot : e ∉ shelf.extracted.map Prod.fst := by
      intro hextracted
      obtain ⟨q, hq, hqe⟩ := List.mem_map.mp hextracted
      exact h.not_linked hq (by rw [hqe, ← hpe]; exact List.mem_map_of_mem hmem)
    rw [without_of_not_mem hnot] at hperm
    refine h.relink hspells (List.forall_mem_cons.mpr ⟨by rwa [hpe], hloose⟩) ?_
    exact List.perm_middle.trans hperm.symm

/-- What `file_remove_element` does. -/
theorem Holds.remove (h : file.Holds shelf) (he : e ∈ shelf.addresses) :
    (file.removeElement e).Holds (shelf.remove e) := by
  obtain ⟨hspells, -, hloose, p, rfl, -, hperm⟩ := h.unlink he
  exact h.drop hspells (fun q hq => hloose q (List.mem_of_mem_filter hq)) hperm

/-- The target of a move, after the element has been taken out. -/
theorem Holds.target_split (ht : t ∈ shelf.linked.map Prod.fst) (hne : e ≠ t) :
    ∃ u q w, without e shelf.linked = u ++ q :: w ∧ q.1 = t := by
  obtain ⟨q, hq, rfl⟩ := List.mem_map.mp ht
  have hmem : q ∈ without e shelf.linked := List.mem_filter.mpr ⟨hq, decide_eq_true (Ne.symm hne)⟩
  obtain ⟨u, w, hsplit⟩ := List.append_of_mem hmem
  exact ⟨u, q, w, hsplit, rfl⟩

/-- An element put back among the linked ones, with its links. -/
theorem Holds.replaced (h : file.Holds shelf) {l : List (ι × Element P)} (hspells : links.Spells (l.map Prod.fst))
    (hloose : ∀ q ∈ without e shelf.extracted, links.Loose q.1) (hl : l.Perm (p :: without e shelf.linked))
    (hperm : shelf.payloads.Perm (p :: (without e shelf.linked ++ without e shelf.extracted))) :
    File.Holds { file with links } ⟨l, without e shelf.extracted⟩ :=
  h.relink hspells hloose ((hl.append_right _).trans hperm.symm)

/-- What `move_before` does. -/
theorem Holds.moveBefore (h : file.Holds shelf) (hne : e ≠ t) (he : e ∈ shelf.addresses)
    (ht : t ∈ shelf.linked.map Prod.fst) :
    (file.moveBefore e t).Holds (shelf.move e (insertBefore t)) := by
  obtain ⟨hspells, -, hloose, p, hp, hfind, hperm⟩ := h.unlink he
  obtain ⟨u, q, w, hsplit, rfl⟩ := Holds.target_split ht hne
  have hnodup := hspells.nodup
  have hnot := not_mem_without e shelf.linked
  have hmove : shelf.move e (insertBefore q.1) = ⟨u ++ p :: q :: w, without e shelf.extracted⟩ := by
    rw [hsplit] at hnodup
    unfold FileShelf.move
    rw [hfind]
    dsimp only
    rw [hsplit, insertBefore_split hnodup]
  rw [hmove]
  have hlinked : q.1 ∈ (without e shelf.linked).map Prod.fst := by simp [hsplit]
  refine h.replaced ?_ (fun x hx => ?_) (by rw [hsplit]; exact List.perm_middle) hperm
  · rw [hsplit, List.map_append, List.map_cons] at hspells hnot
    have hlink := hspells.linkBefore hnot
    rw [List.map_append, List.map_cons, List.map_cons, hp]
    exact hlink
  · have hxe : x.1 ≠ e := of_decide_eq_true (List.mem_filter.mp hx).2
    have hextracted := List.mem_of_mem_filter hx
    refine (hloose x hextracted).linkBefore hspells hlinked (fun hmem => ?_) hxe
    exact h.not_linked hextracted ((List.filter_sublist.map Prod.fst).subset hmem)

/-- What `move_after` does. -/
theorem Holds.moveAfter (h : file.Holds shelf) (hne : e ≠ t) (he : e ∈ shelf.addresses)
    (ht : t ∈ shelf.linked.map Prod.fst) :
    (file.moveAfter e (some t)).Holds (shelf.move e (insertAfter t)) := by
  obtain ⟨hspells, -, hloose, p, hp, hfind, hperm⟩ := h.unlink he
  obtain ⟨u, q, w, hsplit, rfl⟩ := Holds.target_split ht hne
  have hnodup := hspells.nodup
  have hnot := not_mem_without e shelf.linked
  have hmove : shelf.move e (insertAfter q.1) = ⟨u ++ q :: p :: w, without e shelf.extracted⟩ := by
    rw [hsplit] at hnodup
    unfold FileShelf.move
    rw [hfind]
    dsimp only
    rw [hsplit, insertAfter_split hnodup]
  rw [hmove]
  have hlinked : q.1 ∈ (without e shelf.linked).map Prod.fst := by simp [hsplit]
  have hlist : (u ++ q :: p :: w).Perm (p :: without e shelf.linked) := by
    rw [hsplit]
    exact ((List.Perm.swap p q w).append_left u).trans List.perm_middle
  refine h.replaced ?_ (fun x hx => ?_) hlist hperm
  · rw [hsplit, List.map_append, List.map_cons] at hspells hnot
    have hlink := hspells.linkAfter hnot
    rw [List.map_append, List.map_cons, List.map_cons, hp]
    exact hlink
  · have hxe : x.1 ≠ e := of_decide_eq_true (List.mem_filter.mp hx).2
    have hextracted := List.mem_of_mem_filter hx
    refine (hloose x hextracted).linkAfter hspells hlinked (fun hmem => ?_) hxe
    exact h.not_linked hextracted ((List.filter_sublist.map Prod.fst).subset hmem)

/-- What `put_sized` does. -/
theorem Holds.put (h : file.Holds shelf) (value : Element P) {address : Option ι}
    (ha : ∀ a, address = some a → a ∉ shelf.addresses) :
    (file.putSized value address).1.Holds (shelf.put value address).1 ∧
      .ofPut (file.putSized value address).2 = (shelf.put value address).2 := by
  unfold File.putSized FileShelf.put
  cases address with
  | none => exact ⟨h, rfl⟩
  | some a =>
    have hnot := ha a rfl
    have hlinked : a ∉ shelf.linked.map Prod.fst := by
      intro hmem
      rw [addresses, payloads, List.map_append] at hnot
      exact hnot (List.mem_append_left _ hmem)
    dsimp only
    by_cases hlen : 0 < value.len ∧ value.len ≤ 65535
    · have hput : file.put a value true =
          (File.appendElement { file with data := Function.update file.data a value } a, true) :=
        if_neg (by simp; omega)
      rw [if_pos hlen, hput]
      refine ⟨?_, rfl⟩
      have hperm : (FileShelf.payloads ⟨shelf.linked ++ [(a, value)], shelf.extracted⟩).Perm
          ((a, value) :: shelf.payloads) := by
        show (shelf.linked ++ [(a, value)] ++ shelf.extracted).Perm _
        rw [List.append_assoc]
        exact List.perm_middle
      refine ⟨?_, fun p hp => ?_, ?_, fun p hp => ?_, ?_, ?_⟩
      · rw [List.map_append, List.map_singleton]
        exact h.spells.append hlinked
      · refine (h.loose p hp).append h.spells (h.not_linked hp) fun heq => hnot ?_
        rw [← heq]
        exact List.mem_map_of_mem (List.mem_append_right _ hp)
      · rw [addresses, (hperm.map Prod.fst).nodup_iff, List.map_cons, List.nodup_cons]
        exact ⟨hnot, h.nodup⟩
      · show Function.update file.data a value p.1 = p.2
        rcases List.mem_cons.mp (hperm.mem_iff.mp hp) with rfl | hp
        · exact Function.update_self ..
        · have hne : p.1 ≠ a := fun heq => hnot (by rw [← heq]; exact List.mem_map_of_mem hp)
          rw [Function.update_of_ne hne]
          exact h.data p hp
      · show file.size + 1 = _
        rw [h.size, hperm.length_eq, List.length_cons]
      · show file.bytes + (Function.update file.data a value a).len = _
        rw [Function.update_self, h.bytes, (hperm.map fun p => p.2.len).sum_nat, List.map_cons, List.sum_cons,
          Nat.add_comm]
    · have hput : file.put a value true = (file, false) := if_pos (by simp; omega)
      rw [if_neg hlen, hput]
      exact ⟨h, rfl⟩

omit [DecidableEq ι] in
/-- The size comes to zero with the last linked payload, when none is extracted then. -/
theorem Holds.emptied (h : file.Holds shelf) {l : List (ι × Element P)} (hl : shelf.linked.length = l.length + 1)
    (hsettled : l = [] → shelf.extracted = []) : file.size - 1 = 0 ↔ l.map Prod.fst = [] := by
  rw [h.size, payloads, List.length_append, hl, List.map_eq_nil_iff]
  constructor
  · intro hzero
    exact List.eq_nil_of_length_eq_zero (by omega)
  · intro hnil
    rw [hsettled hnil, hnil]
    rfl

/-- What `scroll_sized` does. -/
theorem Holds.scroll (h : file.Holds shelf) {destcap : Nat} (hsettled : shelf.Settled (.scroll destcap)) :
    (file.scrollSized destcap).1.Holds (shelf.scroll destcap).1 ∧
      .ofScroll (file.scrollSized destcap).2 = (shelf.scroll destcap).2 := by
  unfold File.scrollSized FileShelf.scroll
  rcases List.eq_nil_or_concat shelf.linked with hnil | ⟨u, p, hlinked⟩
  · have hlast : file.links.last = none := by rw [h.spells.last, hnil]; rfl
    rw [hlast, hnil]
    dsimp only
    rw [ite_self]
    exact ⟨h, rfl⟩
  · rw [List.concat_eq_append] at hlinked
    have hspells := h.spells
    rw [hlinked, List.map_append, List.map_singleton] at hspells
    have hlast : file.links.last = some p.1 := by rw [hspells.last, List.getLast?_concat]
    have hdata : file.data p.1 = p.2 := h.data p (by simp [payloads, hlinked])
    have hsize : file.size ≠ 0 := by
      rw [h.size, payloads, hlinked]
      simp
    rw [if_neg hsize, hlast, hlinked, List.getLast?_concat, List.dropLast_concat]
    dsimp only
    rw [hdata]
    by_cases hcap : p.2.len ≤ destcap
    · rw [if_neg (Nat.not_lt.mpr hcap), if_pos hcap]
      refine ⟨?_, rfl⟩
      have hemptied : file.size - 1 = 0 ↔ u.map Prod.fst = [] := by
        refine h.emptied (by simp [hlinked]) fun hu => hsettled p ?_ hcap
        rw [hlinked, hu, List.nil_append]
      refine h.drop (hspells.detachLast hemptied) (fun q hq => ?_) ?_
      · exact (h.loose q hq).detachLast hspells (by simp) (by simpa [hlinked] using h.not_linked hq)
      · rw [payloads, payloads, hlinked, List.append_assoc]
        exact List.perm_middle
    · rw [if_pos (Nat.lt_of_not_le hcap), if_neg hcap]
      exact ⟨h, rfl⟩

/-- What `scroll_fifo_sized` does. -/
theorem Holds.scrollFifo (h : file.Holds shelf) {destcap : Nat} (hsettled : shelf.Settled (.scrollFifo destcap)) :
    (file.scrollFifoSized destcap).1.Holds (shelf.scrollFifo destcap).1 ∧
      .ofScroll (file.scrollFifoSized destcap).2 = (shelf.scrollFifo destcap).2 := by
  unfold File.scrollFifoSized FileShelf.scrollFifo
  cases hlinked : shelf.linked with
  | nil =>
    have hfirst : file.links.first = none := by rw [h.spells.first, hlinked]; rfl
    rw [hfirst]
    dsimp only [List.head?_nil]
    rw [ite_self]
    exact ⟨h, rfl⟩
  | cons p w =>
    have hspells := h.spells
    rw [hlinked, List.map_cons] at hspells
    have hfirst : file.links.first = some p.1 := hspells.first
    have hdata : file.data p.1 = p.2 := h.data p (by simp [payloads, hlinked])
    have hsize : file.size ≠ 0 := by
      rw [h.size, payloads, hlinked]
      simp
    rw [if_neg hsize, hfirst, List.head?_cons, List.tail_cons]
    dsimp only
    rw [hdata]
    by_cases hcap : p.2.len ≤ destcap
    · rw [if_neg (Nat.not_lt.mpr hcap), if_pos hcap]
      refine ⟨?_, rfl⟩
      have hemptied : file.size - 1 = 0 ↔ w.map Prod.fst = [] := by
        refine h.emptied (by simp [hlinked]) fun hw => hsettled p ?_ hcap
        rw [hlinked, hw]
      refine h.drop (hspells.detachFirst hemptied) (fun q hq => ?_) ?_
      · exact (h.loose q hq).detachFirst hspells (by simp) (by simpa [hlinked] using h.not_linked hq)
      · rw [payloads, payloads, hlinked, List.cons_append]
    · rw [if_pos (Nat.lt_of_not_le hcap), if_neg hcap]
      exact ⟨h, rfl⟩

/-- A call does on a file what it does on the shelf. -/
theorem Holds.step (h : file.Holds shelf) (op : FileOp ι P) (hproper : shelf.Proper op) (hsettled : shelf.Settled op) :
    (file.step op).1.Holds (shelf.step op).1 ∧ (file.step op).2 = (shelf.step op).2 := by
  cases op with
  | put value address => exact h.put value hproper
  | scroll destcap => exact h.scroll hsettled
  | scrollFifo destcap => exact h.scrollFifo hsettled
  | extract e => exact ⟨h.extract hproper, rfl⟩
  | moveBefore e t => exact ⟨h.moveBefore hproper.1 hproper.2.1 hproper.2.2, rfl⟩
  | moveAfter e t => exact ⟨h.moveAfter hproper.1 hproper.2.1 hproper.2.2, rfl⟩
  | remove e => exact ⟨h.remove hproper, rfl⟩

/-- A call that is refused changes nothing, whatever the file. -/
theorem step_refused (file : File ι P) (op : FileOp ι P) (h : (file.step op).2 = .refused) : (file.step op).1 = file := by
  cases op with
  | put value address =>
    cases address with
    | none => rfl
    | some a =>
      change (file.put a value true).1 = file
      change FileAnswer.ofPut (file.put a value true).2 = .refused at h
      unfold File.put at h ⊢
      split
      · rfl
      · rename_i hlen
        rw [if_neg hlen] at h
        cases h
  | scroll destcap =>
    change (file.scrollSized destcap).1 = file
    change FileAnswer.ofScroll (file.scrollSized destcap).2 = .refused at h
    revert h
    unfold File.scrollSized
    repeat' split
    all_goals
      intro h
      first | rfl | cases h
  | scrollFifo destcap =>
    change (file.scrollFifoSized destcap).1 = file
    change FileAnswer.ofScroll (file.scrollFifoSized destcap).2 = .refused at h
    revert h
    unfold File.scrollFifoSized
    repeat' split
    all_goals
      intro h
      first | rfl | cases h
  | extract e => cases h
  | moveBefore e t => cases h
  | moveAfter e t => cases h
  | remove e => cases h

/-- What a sequence of calls does on a file, it does on the shelf. -/
theorem Holds.run (h : file.Holds shelf) (ops : List (FileOp ι P))
    (hops : Along (fun shelf op => shelf.Proper op ∧ shelf.Settled op) shelf ops) :
    (file.run ops).1.Holds (shelf.run ops).1 ∧ (file.run ops).2 = (shelf.run ops).2 := by
  induction ops generalizing file shelf with
  | nil => exact ⟨h, rfl⟩
  | cons op ops ih =>
    obtain ⟨⟨hproper, hsettled⟩, hrest⟩ := hops
    obtain ⟨hstep, hanswer⟩ := h.step op hproper hsettled
    obtain ⟨hrun, hanswers⟩ := ih hstep hrest
    exact ⟨hrun, congrArg₂ List.cons hanswer hanswers⟩

omit [DecidableEq ι] in
theorem init_holds (data : ι → Element P) : (File.init data).Holds ⟨[], []⟩ :=
  ⟨⟨List.nodup_nil, rfl, rfl, by simp, by simp⟩, nofun, List.nodup_nil, nofun, rfl, rfl⟩

end File

/-! ## Runs -/

/-- In a run of calls on a file that holds a shelf, in which the only linked payload is never
scrolled while another one is extracted, the file goes on holding the shelf, links, payloads and
counters, and the answers are those of the shelf. A call that is refused changes nothing. -/
theorem File.run_as_shelf {ι : Type*} [DecidableEq ι] {P : Puzzle} (file : File ι P) (shelf : FileShelf ι P)
    (h : file.Holds shelf) (ops : List (FileOp ι P))
    (hops : FileShelf.Along (fun shelf op => shelf.Proper op ∧ shelf.Settled op) shelf ops) :
    (file.run ops).1.Holds (shelf.run ops).1 ∧ (file.run ops).2 = (shelf.run ops).2 ∧
      ∀ op, ((file.run ops).1.step op).2 = .refused → ((file.run ops).1.step op).1 = (file.run ops).1 := by
  obtain ⟨hrun, hanswers⟩ := h.run ops hops
  exact ⟨hrun, hanswers, fun op => File.step_refused _ op⟩

/-- Three payloads are put, the second one is moved to the front, the first one is extracted, the front is
taken, and the call that follows has too small a buffer: one payload is linked, and two are counted. -/
theorem File.run_as_shelf_three : ∃ file, (File.init (P := .p16) fun _ : Nat => .compact []).run
      [.put (.compact [1#8]) (some 0), .put (.compact [2#8, 3#8]) (some 1), .put (.compact [4#8]) (some 2),
        .moveBefore 1 0, .extract 0, .scrollFifo 8, .scroll 0] =
      (file, [.done, .done, .done, .done, .done, .value (.compact [2#8, 3#8]), .refused]) ∧
    file.links.Spells [2] ∧ file.size = 2 ∧ file.bytes = 2 := by
  obtain ⟨hholds, hanswers, -⟩ := File.run_as_shelf (File.init (P := .p16) fun _ : Nat => .compact []) ⟨[], []⟩
    (File.init_holds _)
    [.put (.compact [1#8]) (some 0), .put (.compact [2#8, 3#8]) (some 1), .put (.compact [4#8]) (some 2),
      .moveBefore 1 0, .extract 0, .scrollFifo 8, .scroll 0]
    (by simp [FileShelf.Along, FileShelf.Proper, FileShelf.Settled, FileShelf.step, FileShelf.put, FileShelf.move,
      FileShelf.addresses, FileShelf.payloads, FileShelf.insertBefore, FileShelf.without, FileShelf.scrollFifo,
      FileShelf.extract, Element.len])
  exact ⟨_, Prod.ext rfl hanswers, hholds.spells, hholds.size, hholds.bytes⟩

/-- An element is extracted from a file of two, and the other one is scrolled: the first link still
leads to it, and the last one to nothing. -/
theorem File.scroll_beside_extracted :
    FileShelf.Along FileShelf.Proper (⟨[], []⟩ : FileShelf Nat .p16)
        [.put (.compact [1#8]) (some 0), .put (.compact [2#8]) (some 1), .extract 0, .scroll 8] ∧
      ¬ ∃ l, ((File.init (P := .p16) fun _ : Nat => .compact []).run
        [.put (.compact [1#8]) (some 0), .put (.compact [2#8]) (some 1), .extract 0, .scroll 8]).1.links.Spells l := by
  refine ⟨by simp [FileShelf.Along, FileShelf.Proper, FileShelf.step, FileShelf.put, FileShelf.addresses,
    FileShelf.payloads, Element.len], ?_⟩
  rintro ⟨l, hspells⟩
  have hlast : l.getLast? = none := hspells.last.symm
  rw [List.getLast?_eq_none_iff] at hlast
  have hfirst : l.head? = some 1 := hspells.first.symm
  rw [hlast] at hfirst
  exact absurd hfirst (by simp)
