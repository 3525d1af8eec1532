-- SUMMARY: A file of the stock as it lies in memory: its elements, their links and its counters.
import EternityII.Base.LinkedList
import EternityII.Stock.LocalStock
import Mathlib.Data.List.GetD

/-!
# Files in memory

A `File` is a doubly linked list of elements with two counters, of its elements and of the bytes
they carry. An element carries a packet as it is, or its record. The operations write links by
hand; each keeps the links, and the counters, those of a list.
-/

/-! ## Elements -/

section Elements

variable {P : Puzzle}

/-- `sizeof(struct possibility_packet)`: `b_faceused` is aligned on 16 bytes. -/
def sizeofPossibilityPacket (P : Puzzle) : Nat :=
  let faceused := (6 + 2 * P.eternParts + 15) / 16 * 16
  (faceused + 2 * (P.eternParts / 16 + 1) + 1 + 15) / 16 * 16

/-- What an `Element` carries: a packet as it is, or a record. -/
inductive Element (P : Puzzle) where
  | raw (packet : Packet P)
  | compact (record : List Byte)

namespace Element

/-- `len`. -/
def len : Element P → Nat
  | raw _ => sizeofPossibilityPacket P
  | compact record => record.length

/-- `element_is_empty` on an element that is not `NULL`. -/
def isEmpty (e : Element P) : Bool := e.len = 0

/-- `element_placed`. -/
def placed (e : Element P) : UInt16 :=
  if e.isEmpty then 0
  else
    match e with
    | raw packet => packet.alloc
    | compact record => packetCodecPeekPlaced P record

/-- `element_load`. -/
def load (e : Element P) : Option (Packet P) :=
  if e.isEmpty then none
  else
    match e with
    | raw packet => some packet
    | compact record => recordPacket P record

end Element

end Elements

/-! ## Files -/

/-- `File`, with the elements at the addresses `ι`; `start` and `end` are the ends of the links. -/
structure File (ι : Type*) (P : Puzzle) where
  links : Links ι
  data : ι → Element P
  size : Nat
  bytes : Nat

namespace File

variable {ι : Type*} [DecidableEq ι] {P : Puzzle}

/-- `init_file`. -/
def init (data : ι → Element P) : File ι P := ⟨⟨none, none, fun _ => none, fun _ => none⟩, data, 0, 0⟩

/-- `append_element`. -/
def appendElement (suite : File ι P) (element : ι) : File ι P :=
  { suite with
    links := suite.links.append element
    size := suite.size + 1
    bytes := suite.bytes + (suite.data element).len }

/-- `extract_element`. -/
def extractElement (suite : File ι P) (element : ι) : File ι P :=
  { suite with links := suite.links.unlink element }

/-- `move_before`. -/
def moveBefore (suite : File ι P) (element target : ι) : File ι P :=
  { suite with links := (suite.extractElement element).links.linkBefore element target }

/-- `move_after`, which does nothing when there is no target. -/
def moveAfter (suite : File ι P) (element : ι) (target : Option ι) : File ι P :=
  match target with
  | none => suite
  | some target => { suite with links := (suite.extractElement element).links.linkAfter element target }

/-- `file_remove_element`. -/
def removeElement (suite : File ι P) (element : ι) : File ι P :=
  { suite.extractElement element with
    bytes := suite.bytes - (suite.data element).len
    size := suite.size - 1 }

/-- `put_sized` on an element that `malloc` gives, if it gives one; whether the element was added. -/
def put (suite : File ι P) (element : ι) (value : Element P) (memory : Bool) : File ι P × Bool :=
  if value.len = 0 ∨ value.len > 65535 ∨ memory = false then (suite, false)
  else (File.appendElement { suite with data := Function.update suite.data element value } element, true)

/-- The last element is unlinked and freed. -/
def detachLast (suite : File ι P) (element : ι) : File ι P :=
  { suite with
    links :=
      { suite.links with
        first := if suite.size - 1 = 0 then none else suite.links.first
        last := if suite.size - 1 = 0 then none else suite.links.previous element
        next := Links.write suite.links.next (suite.links.previous element) none }
    size := suite.size - 1
    bytes := suite.bytes - (suite.data element).len }

/-- `scroll` with room for the value: the last element, and the file without it. -/
def scroll (suite : File ι P) : Option (ι × File ι P) :=
  if suite.size = 0 then none else suite.links.last.map fun element => (element, suite.detachLast element)

/-- The first element is unlinked and freed. -/
def detachFirst (suite : File ι P) (element : ι) : File ι P :=
  { suite with
    links :=
      { suite.links with
        first := if suite.size - 1 = 0 then none else suite.links.next element
        last := if suite.size - 1 = 0 then none else suite.links.last
        previous := Links.write suite.links.previous (suite.links.next element) none }
    size := suite.size - 1
    bytes := suite.bytes - (suite.data element).len }

/-- `scroll_sized` into a buffer of `destcap` bytes: the value copied, unless the call is refused. -/
def scrollSized (suite : File ι P) (destcap : Nat) : File ι P × Option (Element P) :=
  if suite.size = 0 then (suite, none)
  else
    match suite.links.last with
    | none => (suite, none)
    | some element =>
      if (suite.data element).len > destcap then (suite, none)
      else (suite.detachLast element, some (suite.data element))

/-- `scroll_fifo_sized`. -/
def scrollFifoSized (suite : File ι P) (destcap : Nat) : File ι P × Option (Element P) :=
  if suite.size = 0 then (suite, none)
  else
    match suite.links.first with
    | none => (suite, none)
    | some element =>
      if (suite.data element).len > destcap then (suite, none)
      else (suite.detachFirst element, some (suite.data element))

/-- `put_sized`, where `malloc` gives an address or none. -/
def putSized (suite : File ι P) (value : Element P) (address : Option ι) : File ι P × Bool :=
  match address with
  | none => (suite, false)
  | some element => suite.put element value true

/-- `file_clear`. -/
def clear (suite : File ι P) : File ι P :=
  { suite with links := { suite.links with first := none, last := none }, size := 0, bytes := 0 }

/-- The elements met from `start` on. -/
def elements (suite : File ι P) : List ι := suite.links.walk suite.size

@[simp] theorem data_moveAfter (file : File ι P) (e : ι) (t : Option ι) : (file.moveAfter e t).data = file.data := by
  cases t <;> rfl

omit [DecidableEq ι] in
/-- The file holds the elements of a list, in its order: its links are those of the list, its
counters those of the elements, and no element is empty. -/
structure Chains (file : File ι P) (l : List ι) : Prop where
  spells : file.links.Spells l
  size : file.size = l.length
  bytes : file.bytes = (l.map fun e => (file.data e).len).sum
  nonempty : ∀ e ∈ l, (file.data e).isEmpty = false

variable {file : File ι P} {l u v : List ι} {e t : ι}

omit [DecidableEq ι] in
theorem init_chains (data : ι → Element P) : (init data).Chains [] :=
  ⟨⟨List.nodup_nil, rfl, rfl, by simp, by simp⟩, rfl, rfl, nofun⟩

theorem Chains.appendElement (h : file.Chains l) (he : e ∉ l) (hdata : (file.data e).isEmpty = false) :
    (file.appendElement e).Chains (l ++ [e]) := by
  refine ⟨h.spells.append he, ?_, ?_, fun x hx => ?_⟩
  · show file.size + 1 = _
    rw [h.size, List.length_append, List.length_singleton]
  · show file.bytes + (file.data e).len = _
    rw [h.bytes, List.map_append, List.sum_append, List.map_singleton, List.sum_singleton]
    rfl
  · rcases List.mem_append.mp hx with hx | hx
    · exact h.nonempty x hx
    · exact List.mem_singleton.mp hx ▸ hdata

omit [DecidableEq ι] in
/-- A file with the links of another list of its elements. -/
theorem Chains.relink {links : Links ι} {l' : List ι} (h : file.Chains l) (hlinks : links.Spells l') (hperm : l'.Perm l) :
    File.Chains { file with links } l' := by
  refine ⟨hlinks, h.size.trans hperm.length_eq.symm, ?_, fun e he => h.nonempty e (hperm.mem_iff.mp he)⟩
  rw [h.bytes]
  exact (hperm.map fun e => (file.data e).len).sum_nat.symm

theorem Chains.moveBefore (h : file.Chains (u ++ e :: v)) {w y : List ι} (hsplit : u ++ v = w ++ t :: y) :
    (file.moveBefore e t).Chains (w ++ e :: t :: y) := by
  have he : e ∉ u ++ v := (List.nodup_cons.mp ((List.perm_middle.nodup_iff).mp h.spells.nodup)).1
  have hunlinked := h.spells.unlink
  rw [hsplit] at he hunlinked
  refine h.relink (hunlinked.linkBefore he) (List.perm_middle.trans ?_)
  rw [← hsplit]
  exact List.perm_middle.symm

theorem Chains.moveAfter_end (h : file.Chains (u ++ e :: v)) (hv : v ≠ []) :
    (file.moveAfter e file.links.last).Chains (u ++ v ++ [e]) := by
  obtain ⟨w, t, rfl⟩ := (List.eq_nil_or_concat v).resolve_left hv
  rw [List.concat_eq_append] at h ⊢
  have hlast : file.links.last = some t := by
    rw [h.spells.last, List.getLast?_append_cons, ← List.cons_append, List.getLast?_append_cons, List.getLast?_singleton]
  have he : e ∉ u ++ (w ++ [t]) := (List.nodup_cons.mp ((List.perm_middle.nodup_iff).mp h.spells.nodup)).1
  have hunlinked := h.spells.unlink
  rw [← List.append_assoc] at he hunlinked
  rw [hlast]
  show File.Chains { file with links := (file.links.unlink e).linkAfter e t } _
  have hlist : u ++ (w ++ [t]) ++ [e] = u ++ w ++ [t, e] := by simp
  have hperm : (u ++ (w ++ [t]) ++ [e]).Perm (u ++ e :: (w ++ [t])) :=
    (List.perm_append_singleton e _).trans List.perm_middle.symm
  rw [hlist] at hperm ⊢
  exact h.relink (hunlinked.linkAfter he) hperm

theorem Chains.removeElement (h : file.Chains (u ++ e :: v)) : (file.removeElement e).Chains (u ++ v) := by
  have hsize := h.size
  have hbytes := h.bytes
  rw [List.length_append, List.length_cons] at hsize
  rw [List.map_append, List.sum_append, List.map_cons, List.sum_cons] at hbytes
  refine ⟨h.spells.unlink, ?_, ?_, fun x hx => h.nonempty x ?_⟩
  · show file.size - 1 = _
    rw [hsize, List.length_append]
    omega
  · show file.bytes - (file.data e).len = ((u ++ v).map fun e => (file.data e).len).sum
    rw [hbytes, List.map_append, List.sum_append]
    omega
  · rw [List.mem_append] at hx ⊢
    exact hx.imp_right (List.mem_cons_of_mem e)

omit [DecidableEq ι] in
theorem Chains.elements_eq (h : file.Chains l) : file.elements = l := by
  rw [elements, h.size, h.spells.walk_eq]

omit [DecidableEq ι] in
theorem clear_chains : file.clear.Chains [] :=
  ⟨⟨List.nodup_nil, rfl, rfl, by simp, by simp⟩, rfl, rfl, nofun⟩

/-- What is written at an address outside the file. -/
theorem Chains.write (h : file.Chains l) (he : e ∉ l) (value : Element P) :
    File.Chains { file with data := Function.update file.data e value } l := by
  have hsame : ∀ x ∈ l, Function.update file.data e value x = file.data x := by
    intro x hx
    exact Function.update_of_ne (fun heq : x = e => he (heq ▸ hx)) ..
  refine ⟨h.spells, h.size, ?_, fun x hx => ?_⟩
  · rw [h.bytes]
    exact congrArg List.sum (List.map_congr_left fun x hx => congrArg Element.len (hsame x hx).symm)
  · change (Function.update file.data e value x).isEmpty = false
    rw [hsame x hx]
    exact h.nonempty x hx

/-- A value that fits is added at the end. -/
theorem Chains.put (h : file.Chains l) (he : e ∉ l) {value : Element P} (hlen : 0 < value.len ∧ value.len ≤ 65535) :
    (file.put e value true).2 = true ∧ (file.put e value true).1.Chains (l ++ [e]) ∧
      (file.put e value true).1.data = Function.update file.data e value := by
  have hput : file.put e value true =
      (File.appendElement { file with data := Function.update file.data e value } e, true) := by
    refine if_neg ?_
    simp only [Bool.true_eq_false, or_false, not_or]
    omega
  rw [hput]
  refine ⟨rfl, (h.write he value).appendElement he ?_, rfl⟩
  change (Function.update file.data e value e).isEmpty = false
  rw [Function.update_self, Element.isEmpty]
  exact decide_eq_false hlen.1.ne'

omit [DecidableEq ι] in
/-- The size of a file that loses one element more than a list has. -/
theorem size_sub_one (h : file.size = u.length + 1) :
    file.size - 1 = u.length ∧ (file.size - 1 = 0 ↔ u = []) := by
  rw [h, Nat.add_sub_cancel, List.length_eq_zero_iff]
  exact ⟨rfl, Iff.rfl⟩

theorem Chains.detachLast (h : file.Chains (u ++ [e])) : (file.detachLast e).Chains u := by
  have hsize : file.size = u.length + 1 := by
    rw [h.size, List.length_append, List.length_singleton]
  obtain ⟨hsub, hemptied⟩ := size_sub_one hsize
  refine ⟨h.spells.detachLast hemptied, hsub, ?_, fun x hx => h.nonempty x (List.mem_append_left _ hx)⟩
  change file.bytes - (file.data e).len = _
  rw [h.bytes, List.map_append, List.sum_append, List.map_singleton, List.sum_singleton, Nat.add_sub_cancel]
  rfl

/-- The last element of a file is taken off. -/
theorem Chains.scroll (h : file.Chains (u ++ [e])) : file.scroll = some (e, file.detachLast e) := by
  have hsize : file.size ≠ 0 := by
    rw [h.size, List.length_append]
    exact Nat.succ_ne_zero _
  rw [File.scroll, if_neg hsize, h.spells.last, List.getLast?_concat]
  rfl

/-- A file built from its elements, at the addresses 0, 1, and so on. -/
def ofElements (elements : List (Element P)) : File ℕ P :=
  (List.range elements.length).foldl File.appendElement (File.init fun i => elements.getD i (.compact []))

omit [DecidableEq ι] in
theorem foldl_appendElement {file : File ℕ P} {n : ℕ} (h : file.Chains []) (hdata : ∀ i < n, (file.data i).isEmpty = false) :
    ((List.range n).foldl File.appendElement file).Chains (List.range n) ∧
      ((List.range n).foldl File.appendElement file).data = file.data := by
  induction n with
  | zero => exact ⟨h, rfl⟩
  | succ n ih =>
    obtain ⟨hchains, hsame⟩ := ih fun i hi => hdata i (Nat.lt_succ_of_lt hi)
    rw [List.range_succ, List.foldl_append]
    refine ⟨hchains.appendElement (by simp) ?_, hsame⟩
    rw [hsame]
    exact hdata n (Nat.lt_succ_self n)

theorem ofElements_chains {elements : List (Element P)} (h : ∀ e ∈ elements, e.isEmpty = false) :
    (ofElements elements).Chains (List.range elements.length) ∧
      ∀ i < elements.length, (ofElements elements).data i = elements.getD i (.compact []) := by
  have hdata : ∀ i < elements.length, (elements.getD i (.compact [])).isEmpty = false := by
    intro i hi
    rw [List.getD_eq_getElem _ _ hi]
    exact h _ (List.getElem_mem hi)
  obtain ⟨hchains, hsame⟩ := foldl_appendElement (init_chains fun i => elements.getD i (.compact [])) hdata
  exact ⟨hchains, fun i _ => congrFun hsame i⟩

end File
