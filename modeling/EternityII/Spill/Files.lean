-- SUMMARY: What copies, trims and appends do to the files of the spill directory, and which files they leave alone.
import EternityII.Spill.Stack

/-!
# The files under the operations

The segments on disk have inodes of their own, which only a snapshot may share. A trim never
changes a file under another name; an append changes the other names of the file it writes to.
-/

/-! ## File systems -/

section FileSystem

variable {fs : SpillFs} {n m : SpillName} {i : Nat} {bytes : List Byte}

/-- The file is the same under this name. -/
def Untouched (fs fs' : SpillFs) (n : SpillName) : Prop := fs'.inode n = fs.inode n ∧ fs'.read n = fs.read n

theorem Untouched.refl (fs : SpillFs) (n : SpillName) : Untouched fs fs n := ⟨rfl, rfl⟩

theorem Untouched.trans {fs fs' fs'' : SpillFs} (h : Untouched fs fs' n) (h' : Untouched fs' fs'' n) :
    Untouched fs fs'' n :=
  ⟨h'.1.trans h.1, h'.2.trans h.2⟩

theorem untouched_unlink (h : n ≠ m) : Untouched fs (fs.unlink m) n :=
  ⟨FileSystem.inode_unlink_of_ne h, FileSystem.read_unlink_of_ne h⟩

theorem untouched_create (h : n ≠ m) : Untouched fs (fs.create m bytes) n :=
  ⟨FileSystem.inode_create_of_ne h, FileSystem.read_create_of_ne h⟩

theorem untouched_write (h : fs.inode n ≠ some i) : Untouched fs (fs.write i bytes) n :=
  ⟨rfl, FileSystem.read_write_of_ne h⟩

/-- An append to a file that does not exist, or whose inode the name does not have. -/
theorem untouched_append (hne : n ≠ m) (h : fs.inode n = none ∨ fs.inode n ≠ fs.inode m) :
    Untouched fs (fs.append m bytes) n := by
  unfold FileSystem.append
  split
  · rename_i i hi
    apply untouched_write
    rintro hn
    rcases h with h | h
    · rw [h] at hn
      exact absurd hn (by simp)
    · exact h (hn.trans hi.symm)
  · exact untouched_create hne

theorem read_append : (fs.append m bytes).read m = some ((fs.read m).getD [] ++ bytes) := by
  unfold FileSystem.append
  split
  · rename_i i hi
    rw [FileSystem.read_write_of_inode hi, FileSystem.read, hi]
    rfl
  · rename_i hnone
    rw [FileSystem.read_create_self, FileSystem.read_eq_none_iff.mpr hnone]
    rfl

/-- Segments on disk have inodes of their own, a `.tmp` shares its inode with no name, and no
operation has left a `.cow`. -/
structure Tidy (fs : SpillFs) : Prop where
  live_inj : ∀ {c f s c' f' s' i}, fs.inode (.live c f s) = some i → fs.inode (.live c' f' s') = some i →
    SpillName.live c f s = .live c' f' s'
  tmp_sole : ∀ c f s, fs.Sole (.tmp c f s)
  no_cow : ∀ c f s, fs.inode (.cow c f s) = none

theorem Tidy.unlink (h : Tidy fs) (m : SpillName) : Tidy (fs.unlink m) where
  live_inj hn hn' := by
    rw [FileSystem.inode_unlink] at hn hn'
    split at hn
    · exact absurd hn (by simp)
    · split at hn'
      · exact absurd hn' (by simp)
      · exact h.live_inj hn hn'
  tmp_sole c f s n i hn hn' := by
    rw [FileSystem.inode_unlink] at hn hn'
    split at hn
    · exact absurd hn (by simp)
    · split at hn'
      · exact absurd hn' (by simp)
      · exact h.tmp_sole c f s n i hn hn'
  no_cow c f s := by
    rw [FileSystem.inode_unlink, h.no_cow, ite_self]

theorem Tidy.of_inode {fs' : SpillFs} (h : Tidy fs) (hinode : ∀ n, fs'.inode n = fs.inode n) : Tidy fs' where
  live_inj hn hn' := by
    rw [hinode] at hn hn'
    exact h.live_inj hn hn'
  tmp_sole c f s n i hn hn' := by
    rw [hinode] at hn hn'
    exact h.tmp_sole c f s n i hn hn'
  no_cow c f s := by rw [hinode, h.no_cow]

theorem Tidy.write (h : Tidy fs) (i : Nat) (bytes : List Byte) : Tidy (fs.write i bytes) :=
  h.of_inode fun _ => rfl

/-- Two names with inodes apart do not both have one. -/
theorem own_ne (h : fs.inode n = none ∨ fs.inode n ≠ fs.inode m) (hn : fs.inode n = some i) :
    fs.inode m ≠ some i := by
  intro hm
  rcases h with hnone | hne
  · rw [hnone] at hn
    exact absurd hn (by simp)
  · exact hne (hn.trans hm.symm)

/-- A segment that gets an inode no other name has. -/
theorem Tidy.update {fs' : SpillFs} (h : Tidy fs) {c : Bool} {f s : Nat}
    (hothers : ∀ n, n ≠ SpillName.live c f s → fs'.inode n = fs.inode n)
    (hown : ∀ n, n ≠ SpillName.live c f s → fs'.inode n = none ∨ fs'.inode n ≠ fs'.inode (.live c f s)) :
    Tidy fs' where
  live_inj {c₁ f₁ s₁ c₂ f₂ s₂ j} h₁ h₂ := by
    have hother := fun n hn => own_ne (hown n hn) (i := j)
    by_cases hn₁ : SpillName.live c₁ f₁ s₁ = .live c f s <;> by_cases hn₂ : SpillName.live c₂ f₂ s₂ = .live c f s
    · rw [hn₁, hn₂]
    · exact absurd (hn₁ ▸ h₁) (hother _ hn₂ h₂)
    · exact absurd (hn₂ ▸ h₂) (hother _ hn₁ h₁)
    · rw [hothers _ hn₁] at h₁
      rw [hothers _ hn₂] at h₂
      exact h.live_inj h₁ h₂
  tmp_sole c₁ f₁ s₁ n j h₁ h₂ := by
    by_cases hn : n = .live c f s
    · exact absurd (hn ▸ h₂) (own_ne (hown _ (by simp)) h₁)
    · rw [hothers _ (by simp)] at h₁
      rw [hothers _ hn] at h₂
      exact h.tmp_sole c₁ f₁ s₁ n j h₁ h₂
  no_cow c' f' s' := by rw [hothers _ (by simp), h.no_cow]

/-- A file that is neither a segment nor a `.cow` gets an inode no other name has. -/
theorem Tidy.of_sole {fs' : SpillFs} (h : Tidy fs) (m : SpillName) (hlive : ∀ c f s, m ≠ .live c f s)
    (hcow : ∀ c f s, m ≠ .cow c f s) (hsole : fs'.Sole m) (hothers : ∀ n, n ≠ m → fs'.inode n = fs.inode n) :
    Tidy fs' where
  live_inj {c f s c' f' s' i} hn hn' := by
    rw [hothers _ (hlive c f s).symm] at hn
    rw [hothers _ (hlive c' f' s').symm] at hn'
    exact h.live_inj hn hn'
  tmp_sole c f s n i hn hn' := by
    by_cases htmp : SpillName.tmp c f s = m
    · exact htmp ▸ hsole n i (htmp ▸ hn) hn'
    · by_cases hnm : n = m
      · exact absurd (hsole _ i (hnm ▸ hn') hn) htmp
      · rw [hothers _ htmp] at hn
        rw [hothers _ hnm] at hn'
        exact h.tmp_sole c f s n i hn hn'
  no_cow c f s := by rw [hothers _ (hcow c f s).symm, h.no_cow]

theorem inode_create_ne (hne : n ≠ m) :
    (fs.create m bytes).inode n = none ∨ (fs.create m bytes).inode n ≠ (fs.create m bytes).inode m := by
  rw [FileSystem.inode_create_self, FileSystem.inode_create_of_ne hne]
  right
  intro heq
  exact absurd (FileSystem.inode_lt heq) (Nat.lt_irrefl _)

theorem Tidy.append (h : Tidy fs) (c : Bool) (f s : Nat) (bytes : List Byte) :
    Tidy (fs.append (.live c f s) bytes) := by
  unfold FileSystem.append
  split
  · exact h.write _ _
  · exact h.update (fun n hn => FileSystem.inode_create_of_ne hn) fun n hn => inode_create_ne hn

/-- A `.tmp` is written without touching another name. -/
theorem Tidy.overwrite_tmp (h : Tidy fs) (c : Bool) (f s : Nat) (bytes : List Byte) :
    Tidy (fs.overwrite (.tmp c f s) bytes) ∧
      ∀ n, n ≠ SpillName.tmp c f s → Untouched fs (fs.overwrite (.tmp c f s) bytes) n := by
  obtain ⟨hsole, hothers⟩ := (h.tmp_sole c f s).overwrite bytes
  exact ⟨h.of_sole (.tmp c f s) (by simp) (by simp) hsole fun n hn => (hothers n hn).1, hothers⟩

/-- A `.tmp` renamed to a segment. -/
theorem Tidy.rename_tmp (h : Tidy fs) {c : Bool} {f s : Nat} (hread : fs.read (.tmp c f s) = some bytes)
    (c' : Bool) (f' s' : Nat) :
    ∃ fs', fs.rename (.tmp c f s) (.live c' f' s') = some fs' ∧ Tidy fs' ∧
      fs'.read (.live c' f' s') = some bytes ∧
      ∀ n, n ≠ SpillName.tmp c f s → n ≠ .live c' f' s' → Untouched fs fs' n := by
  obtain ⟨i, hi, -⟩ := FileSystem.read_eq_some_iff.mp hread
  obtain ⟨renamed, hrename, hgone, hbound, hrenamed, hrest⟩ :=
    FileSystem.rename_spec hi (m := .live c' f' s') (by simp)
  have hothers : ∀ n, n ≠ SpillName.live c' f' s' → renamed.inode n = (fs.unlink (.tmp c f s)).inode n := by
    intro n hn
    by_cases htmp : n = .tmp c f s
    · rw [htmp, hgone, FileSystem.inode_unlink_self]
    · rw [(hrest n htmp hn).1, FileSystem.inode_unlink_of_ne htmp]
  refine ⟨renamed, hrename, (h.unlink (.tmp c f s)).update hothers fun n hn => ?_, by rw [hrenamed, hread],
    fun n hn hn' => hrest n hn hn'⟩
  by_cases htmp : n = .tmp c f s
  · exact .inl (by rw [htmp, hgone])
  · right
    rw [hbound, (hrest n htmp hn).1]
    exact fun heq => htmp (h.tmp_sole c f s n i hi heq)

end FileSystem

/-! ## Copies and trims -/

section Trim

variable {fs : SpillFs} {n src dst : SpillName} {bytes : List Byte}

/-- A copy to a name that does not exist: a file of its own, or nothing. -/
theorem spillCopyFile_new (hsrc : fs.read src = some bytes) (hdst : fs.inode dst = none)
    (maxBytes : Option Nat) (env : CopyEnv) :
    (∀ n, n ≠ dst → Untouched fs (spillCopyFile fs src dst maxBytes env).1 n) ∧
    (((spillCopyFile fs src dst maxBytes env).2 = false ∧
        (spillCopyFile fs src dst maxBytes env).1.inode dst = none) ∨
      ((spillCopyFile fs src dst maxBytes env).2 = true ∧
        (spillCopyFile fs src dst maxBytes env).1.inode dst = some fs.fresh ∧
        (spillCopyFile fs src dst maxBytes env).1.read dst = some (bytes.take (maxBytes.getD bytes.length)))) := by
  have hne : src ≠ dst := fun heq => by
    rw [heq, FileSystem.read_eq_none_iff.mpr hdst] at hsrc
    exact absurd hsrc (by simp)
  have hopened : fs.overwrite dst [] = fs.create dst [] := by
    unfold FileSystem.overwrite
    rw [hdst]
  have hsrc' : (fs.create dst []).read src = some bytes := by rw [FileSystem.read_create_of_ne hne, hsrc]
  have hwrite : ∀ wanted, (fs.create dst []).overwrite dst wanted = (fs.create dst []).write fs.fresh wanted :=
    fun wanted => by
      unfold FileSystem.overwrite
      rw [FileSystem.inode_create_self]
  have hothers : ∀ n wanted, n ≠ dst → Untouched fs ((fs.create dst []).write fs.fresh wanted) n := by
    intro n wanted hn
    refine (untouched_create hn).trans (untouched_write fun heq => ?_)
    rw [FileSystem.inode_create_of_ne hn] at heq
    exact absurd (FileSystem.inode_lt heq) (Nat.lt_irrefl _)
  unfold spillCopyFile
  rw [hsrc]
  dsimp only
  split
  · exact ⟨fun n _ => .refl fs n, .inl ⟨rfl, hdst⟩⟩
  · rw [hopened, hsrc', Option.getD_some]
    split
    · rw [hwrite]
      refine ⟨fun n hn => hothers n _ hn, .inr ⟨rfl, ?_, ?_⟩⟩
      · exact FileSystem.inode_create_self
      · exact FileSystem.read_write_of_inode FileSystem.inode_create_self
    · rw [hwrite]
      exact ⟨fun n hn => (hothers n _ hn).trans (untouched_unlink hn), .inl ⟨rfl, FileSystem.inode_unlink_self⟩⟩

/-- What a trim does: it touches no other name, and it leaves the file as it is or cuts it, and a
file that is cut has an inode of its own. -/
structure Trimmed (fs : SpillFs) (c : Bool) (f seq tailBytes : Nat) (r : SpillFs × Bool) : Prop where
  tidy : Tidy r.1
  others : ∀ n, n ≠ .live c f seq → n ≠ .cow c f seq → Untouched fs r.1 n
  outcome : (Untouched fs r.1 (.live c f seq) ∧
      (r.2 = true → ∀ bytes, fs.read (.live c f seq) = some bytes → bytes.length ≤ tailBytes)) ∨
    (r.2 = true ∧ (∃ bytes, fs.read (.live c f seq) = some bytes ∧ tailBytes < bytes.length ∧
        r.1.read (.live c f seq) = some (bytes.take tailBytes)) ∧
      ∀ n, n ≠ .live c f seq → r.1.inode n = none ∨ r.1.inode n ≠ r.1.inode (.live c f seq))

theorem spillTrim_spec (h : Tidy fs) (c : Bool) (f seq tailBytes : Nat) (env : TrimEnv) :
    Trimmed fs c f seq tailBytes (spillTrimSegmentToTail fs c f seq tailBytes env) := by
  unfold spillTrimSegmentToTail
  dsimp only
  split
  · rename_i hnone
    refine ⟨h, fun n _ _ => .refl fs n, .inl ⟨.refl fs _, fun _ bytes hbytes => ?_⟩⟩
    rw [FileSystem.read_eq_none_iff.mpr hnone] at hbytes
    exact absurd hbytes (by simp)
  · rename_i i hi
    have hread : fs.read (.live c f seq) = some (fs.content i) := FileSystem.read_eq_some_iff.mpr ⟨i, hi, rfl⟩
    split
    · rename_i hshort
      refine ⟨h, fun n _ _ => .refl fs n, .inl ⟨.refl fs _, fun _ bytes hbytes => ?_⟩⟩
      obtain rfl := Option.some.inj (hread.symm.trans hbytes)
      exact hshort
    · rename_i hlong
      split
      · rename_i hlink
        split
        · -- The only name: cut in place.
          have htruncate : fs.truncate (.live c f seq) tailBytes = fs.write i ((fs.content i).take tailBytes) := by
            unfold FileSystem.truncate
            rw [hi]
          have hown : ∀ n, n ≠ SpillName.live c f seq → fs.inode n ≠ some i := fun n hn heq =>
            hn (FileSystem.eq_of_nlink_le_one hlink heq hi)
          rw [htruncate]
          refine ⟨h.write _ _, fun n hn _ => untouched_write (hown n hn), .inr ⟨rfl, ⟨_, hread, by omega, ?_⟩, ?_⟩⟩
          · exact FileSystem.read_write_of_inode hi
          · intro n hn
            right
            rw [FileSystem.inode_write, FileSystem.inode_write, hi]
            exact hown n hn
        · exact ⟨h, fun n _ _ => .refl fs n, .inl ⟨.refl fs _, fun hok => absurd hok (by simp)⟩⟩
      · -- A linked file: its start is copied to a file of its own.
        obtain ⟨hcow, hcopy⟩ := spillCopyFile_new hread (h.no_cow c f seq) (some tailBytes) env.copy
        generalize spillCopyFile fs (.live c f seq) (.cow c f seq) (some tailBytes) env.copy = copied at hcow hcopy
        have hsame : ∀ n, n ≠ SpillName.cow c f seq → copied.1.inode n = fs.inode n := fun n hn => (hcow n hn).1
        split
        · rename_i hfail
          have hcopy := hcopy.resolve_right fun hok => by simp [hok.1] at hfail
          have hinode : ∀ n, copied.1.inode n = fs.inode n := fun n => by
            by_cases hn : n = .cow c f seq
            · rw [hn, hcopy.2, h.no_cow]
            · exact hsame n hn
          exact ⟨h.of_inode hinode, fun n _ hn => hcow n hn,
            .inl ⟨hcow _ (by simp), fun hok => absurd hok (by simp)⟩⟩
        · rename_i hok
          obtain ⟨-, hinode, hbytes⟩ := hcopy.resolve_left fun hfail => by simp [hfail.1] at hok
          split
          · obtain ⟨renamed, hrename, hgone, hbound, hrenamed, hrest⟩ :=
              FileSystem.rename_spec hinode (m := .live c f seq) (by simp)
            rw [hrename]
            dsimp only
            have hothers : ∀ n, n ≠ SpillName.live c f seq → renamed.inode n = fs.inode n := fun n hn => by
              by_cases hn' : n = .cow c f seq
              · rw [hn', hgone, h.no_cow]
              · rw [(hrest n hn' hn).1, hsame n hn']
            have hown : ∀ n, n ≠ SpillName.live c f seq →
                renamed.inode n = none ∨ renamed.inode n ≠ renamed.inode (.live c f seq) := fun n hn => by
              rw [hothers n hn, hbound]
              right
              intro heq
              exact absurd (FileSystem.inode_lt heq) (Nat.lt_irrefl _)
            refine ⟨h.update hothers hown, fun n hn hn' => (hcow n hn').trans (hrest n hn' hn),
              .inr ⟨rfl, ⟨_, hread, by omega, ?_⟩, hown⟩⟩
            rw [hrenamed, hbytes]
            rfl
          · have hinode : ∀ n, (copied.1.unlink (.cow c f seq)).inode n = fs.inode n := fun n => by
              rw [FileSystem.inode_unlink]
              split
              · rename_i hn
                rw [hn, h.no_cow]
              · exact hsame n ‹_›
            exact ⟨h.of_inode hinode, fun n _ hn => (hcow n hn).trans (untouched_unlink hn),
              .inl ⟨(hcow _ (by simp)).trans (untouched_unlink (by simp)), fun hok => absurd hok (by simp)⟩⟩

end Trim
