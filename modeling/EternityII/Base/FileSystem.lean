-- SUMMARY: Files with hard links: names, inodes and their bytes.
import Mathlib.Data.List.Basic
import Mathlib.Data.List.Nodup
import Mathlib.Data.List.Perm.Basic
import Mathlib.Logic.Function.Basic
import Mathlib.Tactic.Common

/-!
# A file system with hard links

A name is bound to an inode and the inode has the bytes, so that two names of one inode show the
same file. A call that writes in place changes the file under every name of its inode; a call
that binds a name leaves all other names as they are.
-/

/-- Names bound to inodes, the bytes of each inode, and a bound on the inodes in use. -/
structure FileSystem (ν β : Type*) where
  entries : List (ν × Nat)
  content : Nat → List β
  fresh : Nat
  nodup : (entries.map Prod.fst).Nodup
  inodes_lt : ∀ e ∈ entries, e.2 < fresh

namespace FileSystem

variable {ν β : Type*} [DecidableEq ν]

/-- No name. -/
def empty : FileSystem ν β where
  entries := []
  content _ := []
  fresh := 0
  nodup := List.nodup_nil
  inodes_lt _ he := absurd he List.not_mem_nil

/-- The inode of a name. -/
def inode (fs : FileSystem ν β) (n : ν) : Option Nat := (fs.entries.find? fun e => e.1 = n).map Prod.snd

/-- The bytes of a file, `none` when the name does not exist. -/
def read (fs : FileSystem ν β) (n : ν) : Option (List β) := (fs.inode n).map fs.content

/-- `st_nlink`. -/
def nlink (fs : FileSystem ν β) (i : Nat) : Nat := fs.entries.countP fun e => e.2 = i

/-- `unlink`. -/
def unlink (fs : FileSystem ν β) (n : ν) : FileSystem ν β where
  entries := fs.entries.filter fun e => e.1 ≠ n
  content := fs.content
  fresh := fs.fresh
  nodup := fs.nodup.sublist (List.filter_sublist.map Prod.fst)
  inodes_lt e he := fs.inodes_lt e (List.mem_of_mem_filter he)

/-- Every name of a directory that qualifies unlinked. -/
def unlinkWhere (fs : FileSystem ν β) (p : ν → Bool) : FileSystem ν β where
  entries := fs.entries.filter fun e => !p e.1
  content := fs.content
  fresh := fs.fresh
  nodup := fs.nodup.sublist (List.filter_sublist.map Prod.fst)
  inodes_lt e he := fs.inodes_lt e (List.mem_of_mem_filter he)

/-- The name bound to an inode, whatever it was bound to before. -/
def bind (fs : FileSystem ν β) (n : ν) (i : Nat) (hi : i < fs.fresh) : FileSystem ν β where
  entries := (n, i) :: (fs.unlink n).entries
  content := fs.content
  fresh := fs.fresh
  nodup := by
    rw [List.map_cons, List.nodup_cons]
    refine ⟨fun hmem => ?_, (fs.unlink n).nodup⟩
    obtain ⟨e, he, hn⟩ := List.mem_map.mp hmem
    exact absurd hn (by simpa using List.of_mem_filter he)
  inodes_lt e he := by
    rcases List.mem_cons.mp he with rfl | he
    · exact hi
    · exact (fs.unlink n).inodes_lt e he

/-- The inode with other bytes. -/
def write (fs : FileSystem ν β) (i : Nat) (bytes : List β) : FileSystem ν β :=
  { fs with content := Function.update fs.content i bytes }

/-- A new inode with some bytes under the name. -/
def create (fs : FileSystem ν β) (n : ν) (bytes : List β) : FileSystem ν β :=
  let fs' : FileSystem ν β :=
    { fs with
      content := Function.update fs.content fs.fresh bytes
      fresh := fs.fresh + 1
      inodes_lt := fun e he => Nat.lt_succ_of_lt (fs.inodes_lt e he) }
  fs'.bind n fs.fresh (Nat.lt_succ_self _)

/-- A file opened for writing from its start: in place when it exists. -/
def overwrite (fs : FileSystem ν β) (n : ν) (bytes : List β) : FileSystem ν β :=
  match fs.inode n with
  | some i => fs.write i bytes
  | none => fs.create n bytes

/-- A file opened for appending. -/
def append (fs : FileSystem ν β) (n : ν) (bytes : List β) : FileSystem ν β :=
  match fs.inode n with
  | some i => fs.write i (fs.content i ++ bytes)
  | none => fs.create n bytes

/-- `truncate` to a length the file has. -/
def truncate (fs : FileSystem ν β) (n : ν) (length : Nat) : FileSystem ν β :=
  match fs.inode n with
  | some i => fs.write i ((fs.content i).take length)
  | none => fs

theorem inode_eq_some_iff {fs : FileSystem ν β} {n : ν} {i : Nat} :
    fs.inode n = some i ↔ (n, i) ∈ fs.entries := by
  unfold inode
  constructor
  · intro h
    obtain ⟨⟨m, j⟩, hfind, rfl⟩ := Option.map_eq_some_iff.mp h
    obtain rfl : m = n := by simpa using List.find?_some hfind
    exact List.mem_of_find?_eq_some hfind
  · intro h
    have hsome : (fs.entries.find? fun e => e.1 = n).isSome :=
      List.find?_isSome.mpr ⟨_, h, by simp⟩
    obtain ⟨⟨m, j⟩, hfind⟩ := Option.isSome_iff_exists.mp hsome
    obtain rfl : m = n := by simpa using List.find?_some hfind
    have hmem := List.mem_of_find?_eq_some hfind
    have hpair := List.inj_on_of_nodup_map fs.nodup hmem h rfl
    rw [hfind, Option.map_some, hpair]

/-- `link`, which fails when the first name does not exist or the second one does. -/
def link (fs : FileSystem ν β) (old new : ν) : Option (FileSystem ν β) :=
  match h : fs.inode old, fs.inode new with
  | some i, none => some (fs.bind new i (fs.inodes_lt _ (inode_eq_some_iff.mp h)))
  | _, _ => none

/-- `rename`, which fails when the first name does not exist. -/
def rename (fs : FileSystem ν β) (old new : ν) : Option (FileSystem ν β) :=
  match h : fs.inode old with
  | some i => some ((fs.unlink old).bind new i (fs.inodes_lt _ (inode_eq_some_iff.mp h)))
  | none => none

variable {fs fs' : FileSystem ν β} {n m : ν} {i : Nat} {bytes : List β}

theorem inode_lt (h : fs.inode n = some i) : i < fs.fresh := fs.inodes_lt _ (inode_eq_some_iff.mp h)

theorem read_eq_some_iff : fs.read n = some bytes ↔ ∃ i, fs.inode n = some i ∧ fs.content i = bytes :=
  Option.map_eq_some_iff

theorem read_eq_none_iff : fs.read n = none ↔ fs.inode n = none := Option.map_eq_none_iff

/-! ## Names -/

@[simp] theorem inode_empty : (empty : FileSystem ν β).inode n = none := rfl

@[simp] theorem read_empty : (empty : FileSystem ν β).read n = none := rfl

theorem inode_unlink : (fs.unlink n).inode m = if m = n then none else fs.inode m := by
  apply Option.ext
  intro i
  rw [inode_eq_some_iff]
  by_cases h : m = n
  · simp [unlink, h]
  · simp [unlink, h, inode_eq_some_iff]

@[simp] theorem inode_unlink_self : (fs.unlink n).inode n = none := by rw [inode_unlink, if_pos rfl]

theorem inode_unlink_of_ne (h : m ≠ n) : (fs.unlink n).inode m = fs.inode m := by rw [inode_unlink, if_neg h]

@[simp] theorem content_unlink : (fs.unlink n).content = fs.content := rfl

@[simp] theorem read_unlink_self : (fs.unlink n).read n = none := by rw [read, inode_unlink_self]; rfl

theorem read_unlink_of_ne (h : m ≠ n) : (fs.unlink n).read m = fs.read m := by
  rw [read, read, inode_unlink_of_ne h, content_unlink]

theorem inode_unlinkWhere {p : ν → Bool} :
    (fs.unlinkWhere p).inode m = if p m then none else fs.inode m := by
  apply Option.ext
  intro i
  rw [inode_eq_some_iff]
  cases h : p m <;> simp [unlinkWhere, h, inode_eq_some_iff]

theorem inode_unlinkWhere_of_neg {p : ν → Bool} (h : p m = false) : (fs.unlinkWhere p).inode m = fs.inode m := by
  rw [inode_unlinkWhere, if_neg (by simp [h])]

theorem read_unlinkWhere_of_neg {p : ν → Bool} (h : p m = false) : (fs.unlinkWhere p).read m = fs.read m := by
  rw [read, read, inode_unlinkWhere_of_neg h]
  rfl

@[simp] theorem inode_bind_self (hi : i < fs.fresh) : (fs.bind n i hi).inode n = some i :=
  inode_eq_some_iff.mpr List.mem_cons_self

theorem inode_bind_of_ne (hi : i < fs.fresh) (h : m ≠ n) : (fs.bind n i hi).inode m = fs.inode m := by
  apply Option.ext
  intro j
  rw [inode_eq_some_iff, inode_eq_some_iff]
  simp [bind, unlink, h]

theorem read_bind_of_ne (hi : i < fs.fresh) (h : m ≠ n) : (fs.bind n i hi).read m = fs.read m := by
  rw [read, read, inode_bind_of_ne hi h]
  rfl

/-- What `rename` does. -/
theorem rename_spec (h : fs.inode n = some i) (hne : n ≠ m) : ∃ fs', fs.rename n m = some fs' ∧
    fs'.inode n = none ∧ fs'.inode m = some i ∧ fs'.read m = fs.read n ∧
    ∀ k, k ≠ n → k ≠ m → fs'.inode k = fs.inode k ∧ fs'.read k = fs.read k := by
  have hi : i < (fs.unlink n).fresh := fs.inodes_lt _ (inode_eq_some_iff.mp h)
  refine ⟨(fs.unlink n).bind m i hi, ?_, ?_, inode_bind_self hi, ?_, fun k hk hk' => ⟨?_, ?_⟩⟩
  · unfold rename
    split
    · rename_i j hj
      obtain rfl : j = i := Option.some.inj (hj.symm.trans h)
      rfl
    · rename_i hnone
      rw [h] at hnone
      exact absurd hnone (by simp)
  · rw [inode_bind_of_ne hi hne, inode_unlink_self]
  · rw [read, inode_bind_self, read, h]
    rfl
  · rw [inode_bind_of_ne hi hk', inode_unlink_of_ne hk]
  · rw [read_bind_of_ne hi hk', read_unlink_of_ne hk]

/-- What `link` does. -/
theorem link_spec (h : fs.inode n = some i) (hm : fs.inode m = none) : ∃ fs', fs.link n m = some fs' ∧
    fs'.inode m = some i ∧ fs'.read m = fs.read n ∧
    ∀ k, k ≠ m → fs'.inode k = fs.inode k ∧ fs'.read k = fs.read k := by
  have hi : i < fs.fresh := fs.inodes_lt _ (inode_eq_some_iff.mp h)
  refine ⟨fs.bind m i hi, ?_, inode_bind_self hi, ?_, fun k hk => ⟨inode_bind_of_ne hi hk, read_bind_of_ne hi hk⟩⟩
  · unfold link
    split
    · rename_i j hj _
      obtain rfl : j = i := Option.some.inj (hj.symm.trans h)
      rfl
    · rename_i hnot
      exact absurd hm (fun hnone => hnot i h hnone)
  · rw [read, inode_bind_self, read, h]
    rfl

/-- The inode of the name has no other name. -/
def Sole (fs : FileSystem ν β) (n : ν) : Prop := ∀ m i, fs.inode n = some i → fs.inode m = some i → m = n

/-- The names of an inode with one link. -/
theorem eq_of_nlink_le_one (h : fs.nlink i ≤ 1) (hn : fs.inode n = some i) (hm : fs.inode m = some i) :
    n = m := by
  by_contra hne
  have hsub : [(n, i), (m, i)].Subperm (fs.entries.filter fun e => e.2 = i) := by
    apply List.subperm_of_subset
    · simp [hne]
    · intro e he
      rcases List.mem_pair.mp he with rfl | rfl
      · exact List.mem_filter.mpr ⟨inode_eq_some_iff.mp hn, by simp⟩
      · exact List.mem_filter.mpr ⟨inode_eq_some_iff.mp hm, by simp⟩
  have hle := hsub.length_le
  rw [← List.countP_eq_length_filter] at hle
  exact absurd (Nat.le_trans hle h) (Nat.not_succ_le_self 1)

/-! ## Bytes -/

@[simp] theorem inode_write : (fs.write i bytes).inode m = fs.inode m := rfl

theorem read_write_of_inode (h : fs.inode m = some i) : (fs.write i bytes).read m = some bytes := by
  rw [read, inode_write, h, Option.map_some]
  exact congrArg some (Function.update_self ..)

theorem read_write_of_ne (h : fs.inode m ≠ some i) : (fs.write i bytes).read m = fs.read m := by
  rw [read, read, inode_write]
  cases hm : fs.inode m with
  | none => rfl
  | some j =>
    have hne : j ≠ i := fun heq => h (heq ▸ hm)
    exact congrArg some (Function.update_of_ne hne ..)

@[simp] theorem inode_create_self : (fs.create n bytes).inode n = some fs.fresh :=
  inode_bind_self (Nat.lt_succ_self _)

theorem inode_create_of_ne (h : m ≠ n) : (fs.create n bytes).inode m = fs.inode m :=
  inode_bind_of_ne (Nat.lt_succ_self _) h

@[simp] theorem read_create_self : (fs.create n bytes).read n = some bytes := by
  rw [read, inode_create_self, Option.map_some]
  exact congrArg some (Function.update_self ..)

theorem read_create_of_ne (h : m ≠ n) : (fs.create n bytes).read m = fs.read m := by
  rw [read, read, inode_create_of_ne h]
  cases hm : fs.inode m with
  | none => rfl
  | some j => exact congrArg some (Function.update_of_ne (Nat.ne_of_lt (inode_lt hm)) ..)

/-- A file opened for writing from its start has the bytes. -/
theorem read_overwrite : (fs.overwrite n bytes).read n = some bytes := by
  unfold overwrite
  split
  · exact read_write_of_inode ‹_›
  · exact read_create_self

/-- The only name of a file is written without touching another file. -/
theorem Sole.overwrite (h : fs.Sole n) (bytes : List β) : (fs.overwrite n bytes).Sole n ∧
    ∀ m, m ≠ n → (fs.overwrite n bytes).inode m = fs.inode m ∧ (fs.overwrite n bytes).read m = fs.read m := by
  unfold FileSystem.overwrite
  split
  · rename_i i hi
    exact ⟨h, fun m hm => ⟨rfl, read_write_of_ne fun hmi => hm (h m i hi hmi)⟩⟩
  · refine ⟨fun m i hn hm => ?_, fun m hm => ⟨inode_create_of_ne hm, read_create_of_ne hm⟩⟩
    by_contra hne
    rw [inode_create_of_ne hne] at hm
    obtain rfl := Option.some.inj (inode_create_self.symm.trans hn)
    exact absurd (inode_lt hm) (Nat.lt_irrefl _)

end FileSystem
