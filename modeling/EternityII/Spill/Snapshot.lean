-- SUMMARY: A snapshot of the spill: full segments linked, the top copied, and a manifest of what there is.
import EternityII.Spill.Refinement

/-!
# Snapshots

A snapshot directory has the segments of each stack numbered from 1. A segment under the top is
linked, which is safe as long as it is not written to; the top is copied up to its logical end.
The manifest then says how many segments and packets each stack has.
-/

section Model

/-- The calls of a snapshot or of a restore, for each pool, file and segment: whether `link` works,
how a copy goes, and whether the file opens for the scan of a restore. -/
structure PlaceEnv where
  links : Bool → Nat → Nat → Bool
  copies : Bool → Nat → Nat → CopyEnv
  scans : Bool → Nat → Nat → Bool

/-- No copy fails. -/
def PlaceEnv.CopiesWork (env : PlaceEnv) : Prop :=
  ∀ c f seq, (env.copies c f seq).opensSrc = true ∧ (env.copies c f seq).opensDst = true ∧
    (env.copies c f seq).failsAfter = none

/-- Calls that all work. -/
def PlaceEnv.allWork : PlaceEnv := ⟨fun _ _ _ => true, fun _ _ _ => ⟨true, true, none⟩, fun _ _ _ => true⟩

/-- `spill_segment_count`. -/
def spillSegmentCount (desc : SpillDescriptor) : Nat :=
  if desc.lastSeq = 0 then 0 else desc.lastSeq - desc.firstSeq + 1

/-- `spill_same_inode`. -/
def spillSameInode (fs : SpillFs) (a b : SpillName) : Bool :=
  match fs.inode a, fs.inode b with
  | some i, some j => i == j
  | _, _ => false

/-- `spill_link_or_copy`. -/
def spillLinkOrCopy (fs : SpillFs) (src dst : SpillName) (links : Bool) (copy : CopyEnv) : SpillFs × Bool :=
  let cleared := fs.unlink dst
  match if links then cleared.link src dst else none with
  | some linked => (linked, true)
  | none => spillCopyFile cleared src dst none copy

/-- The loop of `stock_spill_snapshot` over the segments under the top, of which the first `k` are
placed. -/
def snapshotLinks (fs : SpillFs) (isChecked : Bool) (file : Nat) (desc : SpillDescriptor) (env : PlaceEnv) :
    Nat → SpillFs
  | 0 => fs
  | k + 1 =>
    let placed := snapshotLinks fs isChecked file desc env k
    let seq := desc.firstSeq + k
    let live := SpillName.live isChecked file seq
    let snap := SpillName.snap isChecked file (seq - (desc.firstSeq - 1))
    if spillSameInode placed live snap then placed
    else (spillLinkOrCopy placed live snap (env.links isChecked file seq) (env.copies isChecked file seq)).1

/-- `stock_spill_snapshot` on one stack. -/
def snapshotStack (fs : SpillFs) (isChecked : Bool) (file : Nat) (desc : SpillDescriptor) (env : PlaceEnv) : SpillFs :=
  if desc.lastSeq = 0 then fs
  else
    let linked := snapshotLinks fs isChecked file desc env (desc.lastSeq - desc.firstSeq)
    (spillCopyFile linked (.live isChecked file desc.lastSeq)
      (.snap isChecked file (desc.lastSeq - (desc.firstSeq - 1))) (some desc.tailBytes)
      (env.copies isChecked file desc.lastSeq)).1

/-- The stacks, in the order of `stock_spill_snapshot`. -/
def stackIds (nbFiles : Nat) : List (Bool × Nat) :=
  [false, true].flatMap fun c => (List.range nbFiles).map fun f => (c, f)

/-- The files of the snapshot directory that are stale. -/
def staleSnap (s : Spill) : SpillName → Bool
  | .snap c f seq => decide (1 ≤ seq ∧ (f ≥ s.nbFiles ∨ seq > spillSegmentCount (s.desc c f)))
  | _ => false

/-- `spill_manifest_entry_t`. -/
structure ManifestEntry where
  isChecked : Bool
  oldFileIndex : Nat
  lastSeq : Nat
  packets : Nat
  tailBytes : Nat

/-- The entry of a stack in the manifest. -/
def manifestEntry (s : Spill) (c : Bool) (f : Nat) : Option ManifestEntry :=
  let desc := s.desc c f
  if desc.packets > 0 then some ⟨c, f, spillSegmentCount desc, desc.packets, desc.tailBytes⟩ else none

/-- `spill_write_manifest`. -/
def spillWriteManifest (s : Spill) : List ManifestEntry :=
  (List.range s.nbFiles).flatMap fun f => (manifestEntry s false f).toList ++ (manifestEntry s true f).toList

/-- `stock_spill_snapshot`: the files with those of the snapshot, and the manifest. -/
def stockSpillSnapshot (s : Spill) (env : PlaceEnv) : Spill × List ManifestEntry :=
  let placed := (stackIds s.nbFiles).foldl (fun fs id => snapshotStack fs id.1 id.2 (s.desc id.1 id.2) env) s.fs
  ({ s with fs := placed.unlinkWhere (staleSnap s) }, spillWriteManifest s)

end Model

section Placed

variable {fs fs' fs'' : SpillFs} {n src dst : SpillName} {bytes : List Byte} {c : Bool} {f seq rank : Nat}
  {p q : SpillName → Prop} {env : PlaceEnv}

/-- A name that does not exist shares nothing. -/
theorem sole_of_none (h : fs.inode n = none) : fs.Sole n := by
  intro m i hn
  rw [h] at hn
  exact absurd hn (by simp)

/-- A copy to a file that has one name. -/
theorem spillCopyFile_sole {maxBytes : Option Nat} {copy : CopyEnv} (hsrc : fs.read src = some bytes)
    (hne : src ≠ dst) (hsole : fs.Sole dst)
    (hworks : copy.opensSrc = true ∧ copy.opensDst = true ∧ copy.failsAfter = none) :
    (spillCopyFile fs src dst maxBytes copy).2 = true ∧
      (spillCopyFile fs src dst maxBytes copy).1.read dst = some (bytes.take (maxBytes.getD bytes.length)) ∧
      (∀ n, n ≠ dst → Untouched fs (spillCopyFile fs src dst maxBytes copy).1 n) ∧
      (spillCopyFile fs src dst maxBytes copy).1.Sole dst := by
  obtain ⟨hopensSrc, hopensDst, hworks⟩ := hworks
  obtain ⟨hsole', hothers⟩ := hsole.overwrite []
  have hsrc' : (fs.overwrite dst []).read src = some bytes := by rw [(hothers src hne).2, hsrc]
  obtain ⟨hsole'', hothers'⟩ := hsole'.overwrite (bytes.take (maxBytes.getD bytes.length))
  unfold spillCopyFile
  rw [hsrc, hopensSrc, hopensDst, hworks]
  dsimp only
  rw [if_neg (by simp), hsrc', Option.getD_some]
  refine ⟨rfl, FileSystem.read_overwrite, fun n hn => ?_, hsole''⟩
  exact ⟨(hothers' n hn).1.trans (hothers n hn).1, (hothers' n hn).2.trans (hothers n hn).2⟩

/-- A file linked, or copied where that is not possible. -/
theorem spillLinkOrCopy_spec {links : Bool} {copy : CopyEnv} (hsrc : fs.read src = some bytes) (hne : src ≠ dst)
    (hworks : copy.opensSrc = true ∧ copy.opensDst = true ∧ copy.failsAfter = none) :
    (spillLinkOrCopy fs src dst links copy).2 = true ∧
      (spillLinkOrCopy fs src dst links copy).1.read dst = some bytes ∧
      (∀ n, n ≠ dst → Untouched fs (spillLinkOrCopy fs src dst links copy).1 n) ∧
      ((spillLinkOrCopy fs src dst links copy).1.Sole dst ∨
        (spillLinkOrCopy fs src dst links copy).1.inode dst = fs.inode src) := by
  have hcleared : (fs.unlink dst).read src = some bytes := by rw [FileSystem.read_unlink_of_ne hne, hsrc]
  obtain ⟨i, hi, -⟩ := FileSystem.read_eq_some_iff.mp hcleared
  obtain ⟨linked, hlink, hinode, hread, hothers⟩ := FileSystem.link_spec hi (FileSystem.inode_unlink_self (n := dst))
  unfold spillLinkOrCopy
  dsimp only
  split
  · rename_i linked' hlinked
    obtain rfl : linked = linked' := by
      split at hlinked
      · exact Option.some.inj (hlink.symm.trans hlinked)
      · exact absurd hlinked (by simp)
    refine ⟨rfl, by rw [hread, hcleared], fun n hn => (untouched_unlink hn).trans (hothers n hn), .inr ?_⟩
    rw [hinode, ← hi, FileSystem.inode_unlink_of_ne hne]
  · obtain ⟨hok, hread, hothers, hsole⟩ := spillCopyFile_sole hcleared hne
      (sole_of_none (FileSystem.inode_unlink_self (n := dst))) hworks
    rw [Option.getD_none, List.take_length] at hread
    exact ⟨hok, hread, fun n hn => (untouched_unlink hn).trans (hothers n hn), .inl hsole⟩

/-- A step that touches these files of the snapshot only, and leaves those of the others that have
one name with one name. -/
structure SnapOnly (p : SpillName → Prop) (fs fs' : SpillFs) : Prop where
  tidy : Tidy fs'
  others : ∀ n, ¬ p n → Untouched fs fs' n
  sole : ∀ c f r, ¬ p (.snap c f r) → fs.Sole (.snap c f r) → fs'.Sole (.snap c f r)

theorem SnapOnly.refl (h : Tidy fs) : SnapOnly p fs fs := ⟨h, fun n _ => .refl fs n, fun _ _ _ _ hsole => hsole⟩

theorem SnapOnly.mono (h : SnapOnly p fs fs') (hpq : ∀ n, p n → q n) : SnapOnly q fs fs' :=
  ⟨h.tidy, fun n hn => h.others n (mt (hpq n) hn), fun c f r hn => h.sole c f r (mt (hpq _) hn)⟩

theorem SnapOnly.trans (h : SnapOnly p fs fs') (h' : SnapOnly p fs' fs'') : SnapOnly p fs fs'' :=
  ⟨h'.tidy, fun n hn => (h.others n hn).trans (h'.others n hn),
    fun c f r hn hsole => h'.sole c f r hn (h.sole c f r hn hsole)⟩

/-- A file of the snapshot of its own, or linked to a segment. -/
theorem SnapOnly.of_place (htidy : Tidy fs) (hothers : ∀ n, n ≠ SpillName.snap c f rank → Untouched fs fs' n)
    (horigin : fs'.Sole (.snap c f rank) ∨ ∃ c' f' seq, fs'.inode (.snap c f rank) = fs.inode (.live c' f' seq)) :
    SnapOnly (· = .snap c f rank) fs fs' := by
  have hinode : ∀ n, n ≠ SpillName.snap c f rank → fs'.inode n = fs.inode n := fun n hn => (hothers n hn).1
  refine ⟨?_, hothers, fun c' f' r hne hsole m i hn hm => ?_⟩
  · rcases horigin with hsole | ⟨c₀, f₀, s₀, hlink⟩
    · exact htidy.of_sole _ (by simp) (by simp) hsole hinode
    · refine ⟨fun hn hn' => ?_, fun c' f' s' n i hn hn' => ?_, fun c' f' s' => ?_⟩
      · rw [hinode _ (by simp)] at hn hn'
        exact htidy.live_inj hn hn'
      · rw [hinode _ (by simp)] at hn
        by_cases hsnap : n = .snap c f rank
        · rw [hsnap, hlink] at hn'
          exact absurd (htidy.tmp_sole c' f' s' _ i hn hn') (by simp)
        · rw [hinode _ hsnap] at hn'
          exact htidy.tmp_sole c' f' s' n i hn hn'
      · rw [hinode _ (by simp), htidy.no_cow]
  · rw [hinode _ hne] at hn
    by_cases hdst : m = .snap c f rank
    · subst hdst
      rcases horigin with hown | ⟨c₀, f₀, s₀, hlink⟩
      · exact absurd (hown _ i hm (by rw [hinode _ hne, hn])) hne
      · rw [hlink] at hm
        exact absurd (hsole _ i hn hm) (by simp)
    · rw [hinode m hdst] at hm
      exact hsole m i hn hm

/-! ## One stack -/

variable {desc : SpillDescriptor} {segs : List (List StoredFrame)} {seg : List StoredFrame} {k : Nat}

/-- The files of a stack in the snapshot. -/
def SnapName (c : Bool) (f : Nat) (n : SpillName) : Prop := ∃ r, n = .snap c f r

/-- The segments under the top are in the snapshot. -/
theorem snapshotLinks_spec (hworks : env.CopiesWork) (htidy : Tidy fs) (hfirst : 0 < desc.firstSeq)
    (hlive : ∀ i, i < k → fs.read (.live c f (desc.firstSeq + i)) ≠ none) :
    SnapOnly (fun n => ∃ r, r ≤ k ∧ n = .snap c f r) fs (snapshotLinks fs c f desc env k) ∧
      ∀ i, i < k → (snapshotLinks fs c f desc env k).read (.snap c f (i + 1)) =
        fs.read (.live c f (desc.firstSeq + i)) := by
  induction k with
  | zero => exact ⟨.refl htidy, fun i hi => absurd hi (Nat.not_lt_zero i)⟩
  | succ k ih =>
    obtain ⟨honly, hread⟩ := ih fun i hi => hlive i (Nat.lt_succ_of_lt hi)
    have hrank : desc.firstSeq + k - (desc.firstSeq - 1) = k + 1 := by omega
    rw [snapshotLinks, hrank]
    generalize snapshotLinks fs c f desc env k = placed at honly hread
    obtain ⟨bytes, hbytes⟩ := Option.ne_none_iff_exists'.mp (hlive k (Nat.lt_succ_self k))
    have hsrc : placed.read (.live c f (desc.firstSeq + k)) = some bytes := by
      rw [(honly.others _ (by simp)).2, hbytes]
    -- The file of rank `k + 1` gets the bytes of the segment, and the others stay.
    have hstep : ∀ {fs' : SpillFs}, fs'.read (.snap c f (k + 1)) = some bytes →
        SnapOnly (· = .snap c f (k + 1)) placed fs' →
        SnapOnly (fun n => ∃ r, r ≤ k + 1 ∧ n = .snap c f r) fs fs' ∧
          ∀ i, i < k + 1 → fs'.read (.snap c f (i + 1)) = fs.read (.live c f (desc.firstSeq + i)) := by
      intro fs' hnew hplace
      refine ⟨?_, fun i hi => ?_⟩
      · refine SnapOnly.trans (honly.mono ?_) (hplace.mono ?_)
        · rintro n ⟨r, hr, rfl⟩
          exact ⟨r, Nat.le_succ_of_le hr, rfl⟩
        · rintro n rfl
          exact ⟨k + 1, Nat.le_refl _, rfl⟩
      · by_cases hik : i = k
        · rw [hik, hnew, hbytes]
        · rw [(hplace.others _ (by simpa using hik)).2, hread i (by omega)]
    split
    · rename_i hsame
      -- Already linked to this segment.
      refine hstep ?_ (.refl honly.tidy)
      unfold spillSameInode at hsame
      split at hsame
      · rename_i i j hi hj
        obtain rfl : i = j := by simpa using hsame
        rw [← hsrc, FileSystem.read, FileSystem.read, hi, hj]
      · exact absurd hsame (by simp)
    · have hne : SpillName.live c f (desc.firstSeq + k) ≠ .snap c f (k + 1) := by simp
      obtain ⟨-, hnew, hothers, horigin⟩ := spillLinkOrCopy_spec hsrc hne (hworks c f (desc.firstSeq + k))
      exact hstep hnew (.of_place honly.tidy hothers (horigin.imp id fun hlink => ⟨_, _, _, hlink⟩))

/-- The segments of a stack are in the snapshot, the top up to its logical end. -/
theorem snapshotStack_spec (hworks : env.CopiesWork) (htidy : Tidy fs) (h : Holds (segmentFiles fs c f) desc segs)
    (hsole : segs ≠ [] → fs.Sole (.snap c f segs.length)) :
    SnapOnly (SnapName c f) fs (snapshotStack fs c f desc env) ∧
      ∀ i seg, segs[i]? = some seg → (snapshotStack fs c f desc env).read (.snap c f (i + 1)) = some (framesBytes seg) := by
  unfold snapshotStack
  rcases Holds.cases_top segs with rfl | ⟨lower, top, rfl⟩
  · rw [if_pos (h.lastSeq_eq_zero.mpr rfl)]
    exact ⟨.refl htidy, fun i seg hseg => absurd hseg (by simp)⟩
  · obtain ⟨hseq, hpos, htail, rest, hfile⟩ := h.top_file
    rw [if_neg (mt h.lastSeq_eq_zero.mp (by simp))]
    dsimp only
    rw [show desc.lastSeq - desc.firstSeq = lower.length by omega,
      show desc.lastSeq - (desc.firstSeq - 1) = lower.length + 1 by omega]
    have hlower : ∀ i seg, lower[i]? = some seg → fs.read (.live c f (desc.firstSeq + i)) = some (framesBytes seg) := by
      intro i seg hseg
      have hi := (List.getElem?_eq_some_iff.mp hseg).1
      obtain ⟨rest, hread, hrest⟩ := h.file i seg (by rw [List.getElem?_append_left hi, hseg])
      rw [hrest (by rw [List.length_append, List.length_singleton]; omega), List.append_nil] at hread
      exact hread
    obtain ⟨honly, hlinks⟩ := snapshotLinks_spec (k := lower.length) hworks htidy hpos fun i hi => by
      rw [hlower i _ (List.getElem?_eq_getElem hi)]
      simp
    generalize snapshotLinks fs c f desc env lower.length = linked at honly hlinks
    have hsrc : linked.read (.live c f desc.lastSeq) = some (framesBytes top ++ rest) := by
      rw [(honly.others _ (by simp)).2]
      exact hfile
    have hsoleTop : linked.Sole (.snap c f (lower.length + 1)) := by
      refine honly.sole c f _ ?_ (by simpa using hsole (by simp))
      rintro ⟨r, hr, heq⟩
      simp only [SpillName.snap.injEq, true_and] at heq
      omega
    have hne : SpillName.live c f desc.lastSeq ≠ .snap c f (lower.length + 1) := by simp
    obtain ⟨-, hread, hothers, hsole'⟩ := @spillCopyFile_sole _ _ _ _ (some desc.tailBytes) _ hsrc hne hsoleTop
      (hworks c f desc.lastSeq)
    rw [Option.getD_some, htail, List.take_left] at hread
    refine ⟨SnapOnly.trans (honly.mono ?_) ((SnapOnly.of_place honly.tidy hothers (.inl hsole')).mono ?_),
      fun i seg hseg => ?_⟩
    · rintro n ⟨r, -, rfl⟩
      exact ⟨r, rfl⟩
    · rintro n rfl
      exact ⟨_, rfl⟩
    · by_cases hi : i = lower.length
      · subst hi
        obtain rfl : top = seg := by simpa using hseg
        rw [htail]
        exact hread
      · have hlt : i < lower.length := by
          by_contra hge
          rw [List.getElem?_eq_none (by simp; omega)] at hseg
          exact absurd hseg (by simp)
        rw [List.getElem?_append_left hlt] at hseg
        rw [(hothers _ (by simp; omega)).2, hlinks i hlt, hlower i seg hseg]

end Placed

/-! ## The whole snapshot -/

section Snapshot

variable {counted : Prop} {s : Spill} {st : Stacks} {fs : SpillFs} {env : PlaceEnv} {c : Bool} {f : Nat}

/-- What the snapshot has of a stack, and what its manifest says of it. -/
structure SnapHolds (fs : SpillFs) (c : Bool) (f : Nat) (entry : Option ManifestEntry) (segs : List (List StoredFrame)) :
    Prop where
  valid : ∀ seg ∈ segs, ∀ fr ∈ seg, fr.Valid
  nonempty : ∀ seg ∈ segs, seg ≠ []
  file : ∀ i seg, segs[i]? = some seg → fs.read (.snap c f (i + 1)) = some (framesBytes seg)
  empty : segs = [] → entry = none
  entry : ∀ top, segs.getLast? = some top →
    entry = some ⟨c, f, segs.length, framesRecords segs.flatten, (framesBytes top).length⟩

/-- The file that the copy of a top goes to has no other name. -/
def SnapshotClear (s : Spill) : Prop :=
  ∀ c f, (s.desc c f).lastSeq ≠ 0 → s.fs.Sole (.snap c f (spillSegmentCount (s.desc c f)))

theorem Holds.segmentCount {files : Nat → Option (List Byte)} {desc : SpillDescriptor}
    {segs : List (List StoredFrame)} (h : Holds files desc segs) : spillSegmentCount desc = segs.length := by
  unfold spillSegmentCount
  by_cases hnil : segs = []
  · rw [if_pos (h.lastSeq_eq_zero.mpr hnil), hnil]
    rfl
  · have hlen := List.length_pos_iff.mpr hnil
    have hseqs := h.seqs hnil
    rw [if_neg (mt h.lastSeq_eq_zero.mp hnil)]
    omega

/-- The entry of a stack. -/
theorem Holds.manifestEntry_eq {segs : List (List StoredFrame)}
    (h : Holds (segmentFiles fs c f) (s.desc c f) segs) :
    (segs = [] → manifestEntry s c f = none) ∧ ∀ top, segs.getLast? = some top →
      manifestEntry s c f = some ⟨c, f, segs.length, framesRecords segs.flatten, (framesBytes top).length⟩ := by
  have hpackets := h.packets
  unfold manifestEntry
  refine ⟨fun hnil => ?_, fun top htop => ?_⟩
  · subst hnil
    have hzero : (s.desc c f).packets = 0 := hpackets
    rw [if_neg (by omega)]
  · obtain ⟨lower, top', rfl⟩ := (Holds.cases_top segs).resolve_left fun hnil => by
      rw [hnil] at htop
      exact absurd htop (by simp)
    have hpos := framesRecords_pos h.valid_top h.nonempty_top
    have hsome : 0 < (s.desc c f).packets := by
      rw [hpackets]
      simp only [List.flatten_append, List.flatten_cons, List.flatten_nil, List.append_nil, framesRecords_append]
      omega
    rw [if_pos hsome, h.segmentCount, h.tail top htop, hpackets]

/-- The snapshot of some stacks, one after the other. -/
theorem snapshotFold_spec (hworks : env.CopiesWork) {desc : Bool → Nat → SpillDescriptor}
    {segs : Bool → Nat → List (List StoredFrame)} (ids : List (Bool × Nat)) (hnodup : ids.Nodup) (htidy : Tidy fs)
    (hholds : ∀ c f, Holds (segmentFiles fs c f) (desc c f) (segs c f))
    (hsole : ∀ c f, (c, f) ∈ ids → segs c f ≠ [] → fs.Sole (.snap c f (segs c f).length)) :
    SnapOnly (fun n => ∃ c f r, n = .snap c f r ∧ (c, f) ∈ ids) fs
        (ids.foldl (fun fs id => snapshotStack fs id.1 id.2 (desc id.1 id.2) env) fs) ∧
      ∀ c f, (c, f) ∈ ids → ∀ i seg, (segs c f)[i]? = some seg →
        (ids.foldl (fun fs id => snapshotStack fs id.1 id.2 (desc id.1 id.2) env) fs).read (.snap c f (i + 1)) =
          some (framesBytes seg) := by
  induction ids generalizing fs with
  | nil => exact ⟨.refl htidy, fun c f hmem => absurd hmem List.not_mem_nil⟩
  | cons id ids ih =>
    obtain ⟨c₀, f₀⟩ := id
    obtain ⟨hnot, hnodup⟩ := List.nodup_cons.mp hnodup
    obtain ⟨honly, hread⟩ := snapshotStack_spec hworks htidy (hholds c₀ f₀)
      (hsole c₀ f₀ List.mem_cons_self)
    rw [List.foldl_cons]
    dsimp only
    generalize snapshotStack fs c₀ f₀ (desc c₀ f₀) env = fs₁ at honly hread
    have hne : ∀ {c f} r, (c, f) ∈ ids → ¬ SnapName c₀ f₀ (.snap c f r) := by
      rintro c f r hmem ⟨r', heq⟩
      simp only [SpillName.snap.injEq] at heq
      obtain ⟨rfl, rfl, -⟩ := heq
      exact hnot hmem
    obtain ⟨honly', hread'⟩ := ih hnodup honly.tidy
      (fun c f => (hholds c f).congr (fun seq => segmentFiles_eq (honly.others _ fun ⟨r, heq⟩ => by simp at heq))
        rfl rfl rfl rfl)
      fun c f hmem hsegs => honly.sole c f _ (hne _ hmem) (hsole c f (List.mem_cons_of_mem _ hmem) hsegs)
    refine ⟨SnapOnly.trans (honly.mono ?_) (honly'.mono ?_), fun c f hmem i seg hseg => ?_⟩
    · rintro n ⟨r, rfl⟩
      exact ⟨c₀, f₀, r, rfl, List.mem_cons_self⟩
    · rintro n ⟨c, f, r, rfl, hmem⟩
      exact ⟨c, f, r, rfl, List.mem_cons_of_mem _ hmem⟩
    · rcases List.mem_cons.mp hmem with heq | hmem
      · obtain ⟨rfl, rfl⟩ := Prod.mk.inj heq
        have hout : ¬ ∃ c' f' r, SpillName.snap c f (i + 1) = .snap c' f' r ∧ (c', f') ∈ ids := by
          rintro ⟨c', f', r, heq, hmem'⟩
          simp only [SpillName.snap.injEq] at heq
          obtain ⟨rfl, rfl, -⟩ := heq
          exact hnot hmem'
        rw [(honly'.others _ hout).2, hread i seg hseg]
      · exact hread' c f hmem i seg hseg

theorem mem_stackIds {nbFiles : Nat} : (c, f) ∈ stackIds nbFiles ↔ f < nbFiles := by
  unfold stackIds
  cases c <;> simp

theorem nodup_stackIds (nbFiles : Nat) : (stackIds nbFiles).Nodup := by
  unfold stackIds
  rw [List.nodup_flatMap]
  refine ⟨fun c _ => List.nodup_range.map fun f g h => (Prod.mk.inj h).2, ?_⟩
  rw [List.pairwise_pair]
  intro id hid hid'
  obtain ⟨f, -, rfl⟩ := List.mem_map.mp hid
  obtain ⟨g, -, hg⟩ := List.mem_map.mp hid'
  exact absurd (Prod.mk.inj hg).1 (by simp)

theorem Tidy.unlinkWhere (h : Tidy fs) (p : SpillName → Bool) : Tidy (fs.unlinkWhere p) where
  live_inj hn hn' := by
    rw [FileSystem.inode_unlinkWhere] at hn hn'
    split at hn
    · exact absurd hn (by simp)
    · split at hn'
      · exact absurd hn' (by simp)
      · exact h.live_inj hn hn'
  tmp_sole c f s n i hn hn' := by
    rw [FileSystem.inode_unlinkWhere] at hn hn'
    split at hn
    · exact absurd hn (by simp)
    · split at hn'
      · exact absurd hn' (by simp)
      · exact h.tmp_sole c f s n i hn hn'
  no_cow c f s := by
    rw [FileSystem.inode_unlinkWhere, h.no_cow, ite_self]

theorem untouched_unlinkWhere {n : SpillName} {p : SpillName → Bool} (h : p n = false) :
    Untouched fs (fs.unlinkWhere p) n :=
  ⟨FileSystem.inode_unlinkWhere_of_neg h, FileSystem.read_unlinkWhere_of_neg h⟩

/-- A snapshot leaves the segments as they are, and has all of them. -/
theorem stockSpillSnapshot_holds {segs : Bool → Nat → List (List StoredFrame)} (htidy : Tidy s.fs)
    (hholds : ∀ c f, Holds (segmentFiles s.fs c f) (s.desc c f) (segs c f)) (hclear : SnapshotClear s)
    (hworks : env.CopiesWork) :
    Tidy (stockSpillSnapshot s env).1.fs ∧
      (∀ c f seq, Untouched s.fs (stockSpillSnapshot s env).1.fs (.live c f seq)) ∧
      ∀ c f, f < s.nbFiles → SnapHolds (stockSpillSnapshot s env).1.fs c f (manifestEntry s c f) (segs c f) := by
  obtain ⟨honly, hread⟩ := snapshotFold_spec hworks (stackIds s.nbFiles) (nodup_stackIds s.nbFiles) htidy hholds
    fun c f _ hne => by
      have := hclear c f (mt (hholds c f).lastSeq_eq_zero.mp hne)
      rwa [(hholds c f).segmentCount] at this
  unfold stockSpillSnapshot
  dsimp only
  generalize (stackIds s.nbFiles).foldl (fun fs id => snapshotStack fs id.1 id.2 (s.desc id.1 id.2) env) s.fs = placed
    at honly hread
  refine ⟨honly.tidy.unlinkWhere _, fun c f seq => (honly.others _ ?_).trans (untouched_unlinkWhere rfl),
    fun c f hf => ?_⟩
  · rintro ⟨c', f', r, heq, -⟩
    exact absurd heq (by simp)
  · obtain ⟨hempty, hentry⟩ := (hholds c f).manifestEntry_eq
    refine ⟨(hholds c f).valid, (hholds c f).nonempty, fun i seg hseg => ?_, hempty, hentry⟩
    have hi := (List.getElem?_eq_some_iff.mp hseg).1
    have hfresh : staleSnap s (.snap c f (i + 1)) = false := by
      have hcount := (hholds c f).segmentCount
      refine decide_eq_false fun hstale => ?_
      omega
    rw [(untouched_unlinkWhere hfresh).2, hread c f (mem_stackIds.mpr hf) i seg hseg]

/-- A snapshot leaves the spill as it is, and has all its stacks. -/
theorem stockSpillSnapshot_spec (h : SpillRefines counted s st) (hclear : SnapshotClear s) (hworks : env.CopiesWork) :
    SpillRefines counted (stockSpillSnapshot s env).1 st ∧
      ∀ c f, f < s.nbFiles → ∃ segs, segs.flatten = st c f ∧
        SnapHolds (stockSpillSnapshot s env).1.fs c f (manifestEntry s c f) segs := by
  have hkept := h.kept
  choose segs hflat hholds hcounts using hkept
  obtain ⟨htidy, huntouched, hsnap⟩ := stockSpillSnapshot_holds h.tidy hholds hclear hworks
  exact ⟨⟨htidy, fun c f => (h.kept c f).congr (huntouched c f)⟩, fun c f hf => ⟨segs c f, hflat c f, hsnap c f hf⟩⟩

end Snapshot
