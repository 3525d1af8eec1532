-- SUMMARY: A file of entries with a chained hash table over it.
import Mathlib.Data.List.Perm.Subperm
import Mathlib.Data.List.Nodup
import Mathlib.Logic.Function.Basic
import Mathlib.Tactic.Common

/-!
# Indexed files

A file is a list of entries, each with an address that no other entry has. A hash table beside it
has in each bucket a node for each entry whose hash falls there. The nodes name the entries by their
addresses, so that equal values stay apart. A node that could not be allocated is missing from the
table, and a flag says that this may have happened.
-/

/-- An entry of a file. -/
structure FileEntry (α : Type*) where
  address : Nat
  value : α

/-- A node of the table. -/
structure TableNode where
  hash : UInt64
  address : Nat
  deriving DecidableEq

/-- A file and its table, bucket by bucket. -/
structure IndexedFile (α : Type*) where
  entries : List (FileEntry α)
  table : Nat → List TableNode
  mayBeIncomplete : Bool

namespace IndexedFile

variable {α : Type*}

/-- Nothing in the file and nothing in the table. -/
def empty : IndexedFile α := ⟨[], fun _ => [], false⟩

/-- The values in the file. -/
def values (f : IndexedFile α) : List α := f.entries.map FileEntry.value

/-- An address that no entry has. -/
def fresh (f : IndexedFile α) : Nat := (f.entries.map FileEntry.address).foldr max 0 + 1

/-- The node of an entry. -/
def node (hash : α → UInt64) (e : FileEntry α) : TableNode := ⟨hash e.value, e.address⟩

/-- The bucket of a hash. -/
def bucket (buckets : Nat) (hash : UInt64) : Nat := hash.toNat % buckets

/-- Put a value behind the last one. Its node is the first of its bucket, where there is memory for it. -/
def put (hash : α → UInt64) (buckets : Nat) (f : IndexedFile α) (value : α) (indexed : Bool) : IndexedFile α :=
  let e : FileEntry α := ⟨f.fresh, value⟩
  let b := bucket buckets (hash value)
  if indexed then
    { f with entries := f.entries ++ [e], table := Function.update f.table b (node hash e :: f.table b) }
  else { f with entries := f.entries ++ [e], mayBeIncomplete := true }

/-- Take the last value, and its node before it. -/
def scroll (hash : α → UInt64) (buckets : Nat) (f : IndexedFile α) : Option (α × IndexedFile α) :=
  match f.entries.getLast? with
  | none => none
  | some e =>
    let b := bucket buckets (hash e.value)
    some (e.value, { f with
      entries := f.entries.dropLast
      table := Function.update f.table b ((f.table b).eraseP fun n => n.address = e.address) })

/-- Drop all entries and all nodes. -/
def clear (f : IndexedFile α) : IndexedFile α := { f with entries := [], table := fun _ => [] }

variable {hash : α → UInt64} {buckets : Nat} {f f' : IndexedFile α} {value : α} {indexed : Bool}

/-! ## The values -/

theorem values_put : (f.put hash buckets value indexed).values = f.values ++ [value] := by
  unfold put
  dsimp only
  split <;> exact List.map_append

/-- What a scroll takes off. -/
theorem scroll_eq_some (h : f.scroll hash buckets = some (value, f')) :
    ∃ rest e, f.entries = rest ++ [e] ∧ e.value = value ∧ f' = { f with
      entries := rest
      table := Function.update f.table (bucket buckets (hash value))
        ((f.table (bucket buckets (hash value))).eraseP fun n => n.address = e.address) } := by
  unfold scroll at h
  split at h
  · cases h
  · rename_i e hlast
    cases h
    refine ⟨f.entries.dropLast, e, ?_, rfl, rfl⟩
    exact (List.dropLast_append_getLast? e hlast).symm

theorem scroll_eq_none (h : f.scroll hash buckets = none) : f.values = [] := by
  unfold scroll at h
  split at h
  · rename_i hlast
    rw [values, List.getLast?_eq_none_iff.mp hlast, List.map_nil]
  · cases h

theorem values_scroll (h : f.scroll hash buckets = some (value, f')) : f.values = f'.values ++ [value] := by
  obtain ⟨rest, e, hentries, hvalue, rfl⟩ := scroll_eq_some h
  rw [values, hentries, List.map_append, List.map_singleton, hvalue]
  rfl

/-! ## The table -/

/-- The nodes that a bucket should have. -/
def nodesOf (hash : α → UInt64) (buckets : Nat) (f : IndexedFile α) (b : Nat) : List TableNode :=
  (f.entries.filter fun e => bucket buckets (hash e.value) = b).map (node hash)

/-- Every node of the table is the node of an entry in its bucket, each at most once, and none is missing
unless the flag says so. -/
structure Consistent (hash : α → UInt64) (buckets : Nat) (f : IndexedFile α) : Prop where
  addresses : (f.entries.map FileEntry.address).Nodup
  nodes : ∀ b, (f.table b).Subperm (f.nodesOf hash buckets b)
  complete : f.mayBeIncomplete = false → ∀ b, (f.table b).Perm (f.nodesOf hash buckets b)

theorem consistent_empty : (empty : IndexedFile α).Consistent hash buckets where
  addresses := List.nodup_nil
  nodes _ := List.nil_subperm
  complete _ _ := List.Perm.refl _

theorem le_foldr_max {l : List Nat} {a : Nat} (h : a ∈ l) : a ≤ l.foldr max 0 := by
  induction l with
  | nil => cases h
  | cons b l ih =>
    rw [List.foldr_cons]
    cases h with
    | head => exact Nat.le_max_left _ _
    | tail _ h => exact Nat.le_trans (ih h) (Nat.le_max_right _ _)

theorem fresh_not_mem : f.fresh ∉ f.entries.map FileEntry.address :=
  fun h => absurd (le_foldr_max h) (Nat.not_le.mpr (Nat.lt_succ_self _))

variable (hash buckets) in
/-- One more entry at the end. -/
theorem nodesOf_append (e : FileEntry α) (b : Nat) (hentries : f'.entries = f.entries ++ [e]) :
    f'.nodesOf hash buckets b = f.nodesOf hash buckets b ++
      if bucket buckets (hash e.value) = b then [node hash e] else [] := by
  rw [nodesOf, hentries, List.filter_append, List.map_append, List.filter_singleton]
  refine congrArg (f.nodesOf hash buckets b ++ ·) ?_
  by_cases hb : bucket buckets (hash e.value) = b
  · rw [if_pos hb, decide_eq_true hb]
    rfl
  · rw [if_neg hb, decide_eq_false hb]
    rfl

theorem Consistent.put (h : f.Consistent hash buckets) (value : α) (indexed : Bool) :
    (f.put hash buckets value indexed).Consistent hash buckets := by
  have haddresses : ((f.entries ++ [(⟨f.fresh, value⟩ : FileEntry α)]).map FileEntry.address).Nodup := by
    rw [List.map_append, List.map_singleton]
    exact (List.perm_append_singleton _ _).nodup_iff.mpr (List.nodup_cons.mpr ⟨fresh_not_mem, h.addresses⟩)
  have hentries : (f.put hash buckets value indexed).entries = f.entries ++ [⟨f.fresh, value⟩] := by
    unfold IndexedFile.put
    dsimp only
    split <;> rfl
  have hnodes := fun b => nodesOf_append hash buckets ⟨f.fresh, value⟩ b hentries
  refine ⟨?_, fun b => ?_, fun hcomplete b => ?_⟩
  · rw [hentries]
    exact haddresses
  · rw [hnodes b]
    unfold IndexedFile.put
    dsimp only
    split
    · by_cases hb : b = bucket buckets (hash value)
      · subst hb
        rw [if_pos rfl]
        dsimp only
        rw [Function.update_self]
        have hcons := (List.subperm_cons (node hash ⟨f.fresh, value⟩)).mpr (h.nodes (bucket buckets (hash value)))
        exact hcons.trans (List.perm_append_singleton _ _).symm.subperm
      · dsimp only
        rw [if_neg (Ne.symm hb), List.append_nil, Function.update_of_ne hb]
        exact h.nodes b
    · exact (h.nodes b).trans (List.sublist_append_left _ _).subperm
  · rw [hnodes b]
    unfold IndexedFile.put at hcomplete ⊢
    dsimp only at hcomplete ⊢
    split at hcomplete
    · rename_i hindexed
      rw [if_pos hindexed]
      by_cases hb : b = bucket buckets (hash value)
      · subst hb
        rw [if_pos rfl]
        dsimp only
        rw [Function.update_self]
        have hcons := (h.complete hcomplete (bucket buckets (hash value))).cons (node hash ⟨f.fresh, value⟩)
        exact hcons.trans (List.perm_append_singleton _ _).symm
      · dsimp only
        rw [if_neg (Ne.symm hb), List.append_nil, Function.update_of_ne hb]
        exact h.complete hcomplete b
    · cases hcomplete

theorem eraseP_congr {β : Type*} {p q : β → Bool} {l : List β} (h : ∀ a ∈ l, p a = q a) :
    l.eraseP p = l.eraseP q := by
  induction l with
  | nil => rfl
  | cons a l ih =>
    rw [List.eraseP_cons, List.eraseP_cons, h a (List.mem_cons_self ..),
      ih fun b hb => h b (List.mem_cons_of_mem a hb)]

/-- In a consistent file the address of an entry names its node. -/
theorem Consistent.eraseP_eq (h : f.Consistent hash buckets) {e : FileEntry α} (he : e ∈ f.entries) (b : Nat) :
    ((f.table b).eraseP fun n => n.address = e.address) = (f.table b).erase (node hash e) := by
  rw [List.erase_eq_eraseP]
  refine eraseP_congr fun n hn => ?_
  obtain ⟨e', he', rfl⟩ := List.mem_map.mp ((h.nodes b).subset hn)
  have hmem : e' ∈ f.entries := (List.mem_filter.mp he').1
  by_cases heq : e'.address = e.address
  · have hsame : e' = e := List.inj_on_of_nodup_map h.addresses hmem he heq
    subst hsame
    rw [beq_self_eq_true]
    exact decide_eq_true rfl
  · have hne : node hash e ≠ node hash e' := fun hnode => heq (congrArg TableNode.address hnode).symm
    rw [beq_false_of_ne hne]
    exact decide_eq_false heq

theorem Consistent.scroll (h : f.Consistent hash buckets) (hscroll : f.scroll hash buckets = some (value, f')) :
    f'.Consistent hash buckets := by
  obtain ⟨rest, e, hentries, rfl, rfl⟩ := scroll_eq_some hscroll
  have he : e ∈ f.entries := by
    rw [hentries]
    exact List.mem_append_right _ (List.mem_singleton_self e)
  have hnodes : ∀ b, f.nodesOf hash buckets b = nodesOf hash buckets { f with entries := rest } b ++
      if bucket buckets (hash e.value) = b then [node hash e] else [] :=
    fun b => nodesOf_append hash buckets e b hentries
  have haddresses := h.addresses
  rw [hentries, List.map_append] at haddresses
  refine ⟨haddresses.of_append_left, fun b => ?_, fun hcomplete b => ?_⟩
  · have hb := h.nodes b
    rw [hnodes b] at hb
    by_cases hbucket : b = bucket buckets (hash e.value)
    · subst hbucket
      rw [if_pos rfl] at hb
      dsimp only
      rw [Function.update_self, h.eraseP_eq he]
      have herased := hb.erase (node hash e)
      have hlast := (List.perm_append_singleton (node hash e)
        (nodesOf hash buckets { f with entries := rest } (bucket buckets (hash e.value)))).erase (node hash e)
      rw [List.erase_cons_head] at hlast
      exact herased.trans hlast.subperm
    · rw [if_neg (Ne.symm hbucket), List.append_nil] at hb
      dsimp only
      rw [Function.update_of_ne hbucket]
      exact hb
  · have hb := h.complete hcomplete b
    rw [hnodes b] at hb
    by_cases hbucket : b = bucket buckets (hash e.value)
    · subst hbucket
      rw [if_pos rfl] at hb
      dsimp only
      rw [Function.update_self, h.eraseP_eq he]
      have herased := hb.erase (node hash e)
      have hlast := (List.perm_append_singleton (node hash e)
        (nodesOf hash buckets { f with entries := rest } (bucket buckets (hash e.value)))).erase (node hash e)
      rw [List.erase_cons_head] at hlast
      exact herased.trans hlast
    · rw [if_neg (Ne.symm hbucket), List.append_nil] at hb
      dsimp only
      rw [Function.update_of_ne hbucket]
      exact hb

end IndexedFile
