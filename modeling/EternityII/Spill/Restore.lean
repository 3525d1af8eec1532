-- SUMMARY: Restoring a snapshot, and when what ran since has left the snapshot as it was.
import EternityII.Spill.Snapshot

/-!
# Restoring a snapshot

A restore purges the spill, places the segments of each entry of the manifest and counts their
records; a stack whose count is not that of the manifest is dropped as a whole. So one frame more
in a file of the snapshot loses the stack.
-/

section Model

/-- The entries of the manifest that go to a file. -/
def entriesOf (s : Spill) (manifest : List ManifestEntry) (c : Bool) (newf : Nat) : List ManifestEntry :=
  manifest.filter fun e => decide (e.isChecked = c ∧ e.oldFileIndex % s.nbFiles = newf)

/-- The loop of `stock_spill_restore_snapshot` over the segments of an entry, from `seq` on: the
records found, those of the last segment, and where it failed. -/
def restoreSegments (c : Bool) (newf : Nat) (e : ManifestEntry) (env : PlaceEnv) :
    Nat → Nat → SpillFs → Nat → Nat → SpillFs × Nat × Nat × Option Nat
  | 0, _, fs, found, top => (fs, found, top, none)
  | k + 1, seq, fs, found, _ =>
    let isTop := decide (seq = e.lastSeq)
    let snap := SpillName.snap c e.oldFileIndex seq
    let live := SpillName.live c newf seq
    let placed :=
      if isTop then spillCopyFile fs snap live (some e.tailBytes) (env.copies c newf seq)
      else spillLinkOrCopy fs snap live (env.links c newf seq) (env.copies c newf seq)
    let scan :=
      match if placed.2 && env.scans c newf seq then placed.1.read live else none with
      | none => (0, false)
      | some content => spillScanSegment content (if isTop then some e.tailBytes else none)
    if scan.2 then restoreSegments c newf e env k (seq + 1) placed.1 (found + scan.1) scan.1
    else (placed.1, found + scan.1, scan.1, some seq)

/-- A group of `stock_spill_restore_snapshot`: the state, and the packets it counts. A group of
several entries, which a restore with fewer files packs again, is `none`. -/
def restoreGroup (s : Spill) (manifest : List ManifestEntry) (c : Bool) (newf : Nat) (env : PlaceEnv) :
    Option (Spill × Nat) :=
  match entriesOf s manifest c newf with
  | [] => some (s, 0)
  | [e] =>
    let placed := restoreSegments c newf e env e.lastSeq 1 s.fs 0 0
    let failedAt :=
      match placed.2.2.2 with
      | some seq => some seq
      | none => if placed.2.1 ≠ e.packets then some e.lastSeq else none
    match failedAt with
    | some seq =>
      let fs := (List.range' 1 seq).foldl (fun fs seq => fs.unlink (.live c newf seq)) placed.1
      some ({ s with fs := fs }, 0)
    | none =>
      let desc := { s.desc c newf with
        firstSeq := 1, lastSeq := e.lastSeq, packets := e.packets
        tailBytes := e.tailBytes, tailRecords := placed.2.2.1 }
      some ({ s.put c newf placed.1 desc with generation := s.generation + 1 }, e.packets)
  | _ => none

/-- The files that `spill_purge_live_segments` unlinks. -/
def liveSegment : SpillName → Bool
  | .live _ _ seq => decide (1 ≤ seq)
  | _ => false

/-- The spill emptied for a restore. -/
def restorePurge (s : Spill) : Spill :=
  { s with
    fs := s.fs.unlinkWhere liveSegment
    desc := fun c f => if f < s.nbFiles then ⟨0, 0, 0, 0, 0, 0⟩ else s.desc c f
    generation := s.generation + 1 }

/-- `stock_spill_restore_snapshot`: the state, and the packets it says are restored. -/
def stockSpillRestoreSnapshot (s : Spill) (manifest : List ManifestEntry) (env : PlaceEnv) : Option (Spill × Nat) :=
  (stackIds s.nbFiles).foldlM (fun acc id =>
    (restoreGroup acc.1 manifest id.1 id.2 env).map fun r => (r.1, acc.2 + r.2)) (restorePurge s, 0)

/-- The calls of a restore all work. -/
structure PlaceEnv.Works (env : PlaceEnv) : Prop where
  copies : env.CopiesWork
  scans : ∀ c f seq, env.scans c f seq = true

end Model

/-! ## One stack -/

section Group

variable {fs fs' : SpillFs} {s : Spill} {env : PlaceEnv} {c : Bool} {f : Nat} {e : ManifestEntry}
  {segs : List (List StoredFrame)} {manifest : List ManifestEntry}

/-- Segments placed from the snapshot: all of them, with their records. -/
theorem restoreSegments_spec (hworks : env.Works) (hvalid : ∀ seg ∈ segs, ∀ fr ∈ seg, fr.Valid)
    (hlast : e.lastSeq = segs.length) (htail : ∀ top, segs.getLast? = some top → e.tailBytes = (framesBytes top).length)
    (hsnap : ∀ i seg, segs[i]? = some seg → fs.read (.snap c e.oldFileIndex (i + 1)) = some (framesBytes seg))
    {k j : Nat} (hk : j + k = segs.length) (hlive : ∀ i, fs.inode (.live c f (j + i + 1)) = none)
    (hdone : ∀ i seg, i < j → segs[i]? = some seg → fs.read (.live c f (i + 1)) = some (framesBytes seg))
    (found top : Nat) :
    ∃ fs', restoreSegments c f e env k (j + 1) fs found top =
        (fs', found + framesRecords (segs.drop j).flatten,
          if k = 0 then top else framesRecords (segs.getLast?.getD []), none) ∧
      (∀ i seg, segs[i]? = some seg → fs'.read (.live c f (i + 1)) = some (framesBytes seg)) ∧
      ∀ n, (∀ i, j ≤ i → i < segs.length → n ≠ .live c f (i + 1)) → Untouched fs fs' n := by
  induction k generalizing j fs found top with
  | zero =>
    refine ⟨fs, ?_, fun i seg hseg => hdone i seg ?_ hseg, fun n _ => .refl fs n⟩
    · rw [restoreSegments, List.drop_of_length_le (by omega)]
      rfl
    · have := (List.getElem?_eq_some_iff.mp hseg).1
      omega
  | succ k ih =>
    have hj : j < segs.length := by omega
    have hseg : segs[j]? = some segs[j] := List.getElem?_eq_getElem hj
    have hframes : ∀ fr ∈ segs[j], fr.Valid := hvalid _ (List.getElem_mem hj)
    have hsrc := hsnap j _ hseg
    -- The file placed has the bytes of the segment, and its frames are counted.
    have hplace : ∃ placed : SpillFs × Bool, (if decide (j + 1 = e.lastSeq) = true then
          spillCopyFile fs (.snap c e.oldFileIndex (j + 1)) (.live c f (j + 1)) (some e.tailBytes) (env.copies c f (j + 1))
        else spillLinkOrCopy fs (.snap c e.oldFileIndex (j + 1)) (.live c f (j + 1)) (env.links c f (j + 1))
          (env.copies c f (j + 1))) = placed ∧ placed.2 = true ∧
        placed.1.read (.live c f (j + 1)) = some (framesBytes segs[j]) ∧
        (∀ n, n ≠ .live c f (j + 1) → Untouched fs placed.1 n) ∧
        spillScanSegment (framesBytes segs[j]) (if decide (j + 1 = e.lastSeq) = true then some e.tailBytes else none) =
          (framesRecords segs[j], true) := by
      refine ⟨_, rfl, ?_⟩
      split
      · rename_i htop
        have hlastSeg : segs.getLast? = some segs[j] := by
          have := of_decide_eq_true htop
          rw [List.getLast?_eq_getElem?, show segs.length - 1 = j by omega, hseg]
        have hscan := spillForEachStoredFrame_framesBytes hframes []
        rw [List.append_nil] at hscan
        obtain ⟨hok, hread, hothers, -⟩ := spillCopyFile_sole hsrc (by simp)
          (sole_of_none (n := .live c f (j + 1)) (by simpa using hlive 0)) (hworks.copies c f (j + 1))
        rw [Option.getD_some, List.take_of_length_le (Nat.le_of_eq (htail _ hlastSeg).symm)] at hread
        refine ⟨hok, hread, hothers, ?_⟩
        rw [htail _ hlastSeg, spillScanSegment, hscan]
      · have hne : SpillName.snap c e.oldFileIndex (j + 1) ≠ .live c f (j + 1) := by simp
        obtain ⟨hok, hread, hothers, -⟩ := spillLinkOrCopy_spec hsrc hne (hworks.copies c f (j + 1))
        refine ⟨hok, hread, hothers, ?_⟩
        rw [spillScanSegment, spillForEachStoredFrame_all hframes]
    obtain ⟨placed, hplaced, hok, hread, hothers, hscan⟩ := hplace
    rw [restoreSegments, hplaced, hok, hworks.scans, Bool.and_true, if_pos rfl, hread]
    simp only [hscan, if_true]
    obtain ⟨fs', hrest, hdone', huntouched⟩ := ih (j := j + 1)
      (fun i seg hi => by rw [(hothers _ (by simp)).2, hsnap i seg hi]) (by omega)
      (fun i => by
        rw [(hothers _ (by simp; omega)).1, show j + 1 + i + 1 = j + (i + 1) + 1 by omega]
        exact hlive (i + 1))
      (fun i seg hi hseg' => by
        by_cases hij : i = j
        · subst hij
          obtain rfl := Option.some.inj (hseg.symm.trans hseg')
          exact hread
        · rw [(hothers _ (by simpa using hij)).2, hdone i seg (by omega) hseg'])
      (found + framesRecords segs[j]) (framesRecords segs[j])
    refine ⟨fs', ?_, hdone', fun n hn => ?_⟩
    · rw [hrest]
      congr 1
      have hdrop : (segs.drop j).flatten = segs[j] ++ (segs.drop (j + 1)).flatten := by
        rw [List.drop_eq_getElem_cons hj, List.flatten_cons]
      rw [hdrop, framesRecords_append, Nat.add_assoc, if_neg (Nat.succ_ne_zero k)]
      by_cases hk0 : k = 0
      · subst hk0
        rw [if_pos rfl, List.getLast?_eq_getElem?, show segs.length - 1 = j by omega, hseg]
        rfl
      · rw [if_neg hk0]
    · exact (hothers n (hn j (Nat.le_refl j) hj)).trans
        (huntouched n fun i hi hlen => hn i (by omega) hlen)

/-- A stack restored from what the snapshot has of it. -/
theorem restoreGroup_spec {entry : Option ManifestEntry} (hworks : env.Works) (h : SnapHolds s.fs c f entry segs)
    (hentries : entriesOf s manifest c f = entry.toList) (hlive : ∀ seq, s.fs.inode (.live c f seq) = none)
    (hdesc : s.desc c f = ⟨0, 0, 0, 0, 0, 0⟩) :
    ∃ s', restoreGroup s manifest c f env = some (s', framesRecords segs.flatten) ∧
      Kept c f True s'.fs (s'.desc c f) segs.flatten ∧ s'.nbFiles = s.nbFiles ∧
      (∀ c' f', ¬ (c' = c ∧ f' = f) → s'.desc c' f' = s.desc c' f') ∧
      ∀ n, (∀ seq, n ≠ .live c f seq) → Untouched s.fs s'.fs n := by
  have hnone : ∀ seq, s.fs.read (.live c f seq) = none := fun seq => FileSystem.read_eq_none_iff.mpr (hlive seq)
  rcases Holds.cases_top segs with rfl | ⟨lower, top, rfl⟩
  · rw [h.empty rfl] at hentries
    refine ⟨s, ?_, ⟨[], rfl, ?_, fun _ => by rw [hdesc]; rfl⟩, rfl, fun _ _ _ => rfl, fun n _ => .refl _ n⟩
    · unfold restoreGroup
      rw [hentries]
      rfl
    · rw [hdesc]
      exact ⟨fun seg hseg => absurd hseg List.not_mem_nil, fun seg hseg => absurd hseg List.not_mem_nil,
        fun _ => ⟨rfl, rfl, rfl⟩, fun hne => absurd rfl hne, fun i seg hseg => absurd hseg (by simp),
        fun seg hseg => absurd hseg (by simp), rfl, fun seq _ => hnone seq⟩
  · have hlen : (lower ++ [top]).length = lower.length + 1 := by simp
    rw [h.entry top (by simp)] at hentries
    obtain ⟨fs', hplaced, hread, hothers⟩ := restoreSegments_spec (f := f)
      (e := ⟨c, f, (lower ++ [top]).length, framesRecords (lower ++ [top]).flatten, (framesBytes top).length⟩)
      hworks h.valid rfl (fun top' htop => by
        obtain rfl : top = top' := by simpa using htop
        rfl) h.file (Nat.zero_add _) (fun i => hlive _) (fun i seg hi => absurd hi (Nat.not_lt_zero i)) 0 0
    rw [Nat.zero_add, List.drop_zero, if_neg (by simp)] at hplaced
    have hgroup : restoreGroup s manifest c f env = some ({ s.put c f fs' { s.desc c f with
        firstSeq := 1
        lastSeq := (lower ++ [top]).length
        packets := framesRecords (lower ++ [top]).flatten
        tailBytes := (framesBytes top).length
        tailRecords := framesRecords ((lower ++ [top]).getLast?.getD []) } with generation := s.generation + 1 },
        framesRecords (lower ++ [top]).flatten) := by
      unfold restoreGroup
      rw [hentries]
      dsimp only [Option.toList]
      rw [hplaced]
      simp
    refine ⟨_, hgroup, ?_, rfl, fun c' f' hne => ?_, fun n hn => hothers n fun i _ _ => hn (i + 1)⟩
    on_goal 2 =>
      show (s.put c f fs' _).desc c' f' = _
      exact Spill.put_desc_of_ne hne
    show Kept c f True fs' ((s.put c f fs' _).desc c f) _
    rw [Spill.put_desc_self]
    refine ⟨lower ++ [top], rfl, ⟨h.valid, h.nonempty, fun hnil => absurd hnil (by simp), fun _ => ⟨Nat.one_pos, ?_⟩,
      fun i seg hseg => ⟨[], ?_, fun _ => rfl⟩, fun seg hseg => ?_, rfl, fun seq hseq => ?_⟩, fun _ => rfl⟩
    · exact Nat.add_comm _ _
    · rw [Nat.add_comm, List.append_nil]
      exact hread i seg hseg
    · obtain rfl : top = seg := by simpa using hseg
      rfl
    · dsimp only at hseq
      refine (segmentFiles_eq (hothers _ fun i _ hi => ?_)).trans (hnone seq)
      simp only [ne_eq, SpillName.live.injEq, true_and]
      omega

/-- The stacks restored one after the other. -/
theorem restoreFold_spec (hworks : env.Works) {entry : Bool → Nat → Option ManifestEntry}
    {segs : Bool → Nat → List (List StoredFrame)} (ids : List (Bool × Nat)) (hnodup : ids.Nodup)
    (hsnap : ∀ c f, (c, f) ∈ ids → SnapHolds s.fs c f (entry c f) (segs c f))
    (hentries : ∀ c f, (c, f) ∈ ids → entriesOf s manifest c f = (entry c f).toList)
    (hlive : ∀ c f, (c, f) ∈ ids → ∀ seq, s.fs.inode (.live c f seq) = none)
    (hdesc : ∀ c f, (c, f) ∈ ids → s.desc c f = ⟨0, 0, 0, 0, 0, 0⟩) (total : Nat) :
    ∃ s', ids.foldlM (fun acc id => (restoreGroup acc.1 manifest id.1 id.2 env).map fun r => (r.1, acc.2 + r.2))
          (s, total) =
        some (s', total + (ids.map fun id => framesRecords (segs id.1 id.2).flatten).sum) ∧
      (∀ c f, (c, f) ∈ ids → Kept c f True s'.fs (s'.desc c f) (segs c f).flatten) ∧
      (∀ c f, (c, f) ∉ ids → s'.desc c f = s.desc c f) ∧
      ∀ n, (∀ c f seq, (c, f) ∈ ids → n ≠ .live c f seq) → Untouched s.fs s'.fs n := by
  induction ids generalizing s total with
  | nil => exact ⟨s, rfl, fun c f hmem => absurd hmem List.not_mem_nil, fun _ _ _ => rfl, fun n _ => .refl _ n⟩
  | cons id ids ih =>
    obtain ⟨c₀, f₀⟩ := id
    obtain ⟨hnot, hnodup⟩ := List.nodup_cons.mp hnodup
    obtain ⟨s₁, hgroup, hkept, hfiles, hother, huntouched⟩ := restoreGroup_spec hworks
      (hsnap c₀ f₀ List.mem_cons_self) (hentries c₀ f₀ List.mem_cons_self) (hlive c₀ f₀ List.mem_cons_self)
      (hdesc c₀ f₀ List.mem_cons_self)
    have hne : ∀ {c f}, (c, f) ∈ ids → ¬ (c = c₀ ∧ f = f₀) := by
      rintro c f hmem ⟨rfl, rfl⟩
      exact hnot hmem
    have hlive' : ∀ {c f}, (c, f) ∈ ids → ∀ seq, Untouched s.fs s₁.fs (.live c f seq) := by
      intro c f hmem seq
      refine huntouched _ fun seq' => ?_
      simp only [ne_eq, SpillName.live.injEq]
      exact fun heq => hne hmem ⟨heq.1, heq.2.1⟩
    obtain ⟨s', hfold, hkepts, hdescs, huntouched'⟩ := ih (s := s₁) hnodup
      (fun c f hmem => by
        have hold := hsnap c f (List.mem_cons_of_mem _ hmem)
        exact { hold with file := fun i seg hseg => by rw [(huntouched _ (by simp)).2, hold.file i seg hseg] })
      (fun c f hmem => by
        unfold entriesOf
        rw [hfiles]
        exact hentries c f (List.mem_cons_of_mem _ hmem))
      (fun c f hmem seq => by rw [(hlive' hmem seq).1, hlive c f (List.mem_cons_of_mem _ hmem) seq])
      (fun c f hmem => by rw [hother c f (hne hmem), hdesc c f (List.mem_cons_of_mem _ hmem)])
      (total + framesRecords (segs c₀ f₀).flatten)
    refine ⟨s', ?_, fun c f hmem => ?_, fun c f hmem => ?_, fun n hn => ?_⟩
    · rw [List.foldlM_cons, hgroup, Option.map_some]
      simpa [Nat.add_assoc] using hfold
    · rcases List.mem_cons.mp hmem with heq | hmem
      · obtain ⟨rfl, rfl⟩ := Prod.mk.inj heq
        rw [hdescs c f hnot]
        refine hkept.congr fun seq => huntouched' _ fun c' f' seq' hmem => ?_
        simp only [ne_eq, SpillName.live.injEq]
        exact fun heq => hne hmem ⟨heq.1.symm, heq.2.1.symm⟩
      · exact hkepts c f hmem
    · rw [hdescs c f fun h => hmem (List.mem_cons_of_mem _ h), hother c f fun h => hmem ?_]
      rw [h.1, h.2]
      exact List.mem_cons_self
    · exact (huntouched n fun seq => hn c₀ f₀ seq List.mem_cons_self).trans
        (huntouched' n fun c f seq hmem => hn c f seq (List.mem_cons_of_mem _ hmem))

/-- The entries of a file with the same number of files are those the snapshot wrote for it. -/
theorem entriesOf_spillWriteManifest {s s' : Spill} (hfiles : s'.nbFiles = s.nbFiles) (hf : f < s.nbFiles) (c : Bool) :
    entriesOf s' (spillWriteManifest s) c f = (manifestEntry s c f).toList := by
  have hentry : ∀ c' g e, manifestEntry s c' g = some e → e.isChecked = c' ∧ e.oldFileIndex = g := by
    intro c' g e he
    unfold manifestEntry at he
    dsimp only at he
    split at he
    · obtain rfl := Option.some.inj he
      exact ⟨rfl, rfl⟩
    · exact absurd he (by simp)
  -- What is kept of the entries of one file.
  have hone : ∀ c' g, g < s.nbFiles → ((manifestEntry s c' g).toList.filter fun e =>
      decide (e.isChecked = c ∧ e.oldFileIndex % s.nbFiles = f)) =
        if c' = c ∧ g = f then (manifestEntry s c f).toList else [] := by
    intro c' g hg
    cases he : manifestEntry s c' g with
    | none =>
      split
      · rename_i heq
        rw [← heq.1, ← heq.2, he]
        rfl
      · rfl
    | some e =>
      obtain ⟨hc, hfile⟩ := hentry c' g e he
      have hmod : e.oldFileIndex % s.nbFiles = g := by rw [hfile, Nat.mod_eq_of_lt hg]
      split
      · rename_i heq
        rw [← heq.1, ← heq.2, he]
        simp [hc, heq, hmod]
      · rename_i hne
        simp only [Option.toList_some, List.filter_cons, List.filter_nil]
        rw [if_neg]
        rw [decide_eq_true_eq, hc, hmod]
        exact hne
  have hrange : ∀ (files : List Nat), files.Nodup → (∀ g ∈ files, g < s.nbFiles) →
      ((files.flatMap fun g => (manifestEntry s false g).toList ++ (manifestEntry s true g).toList).filter fun e =>
        decide (e.isChecked = c ∧ e.oldFileIndex % s.nbFiles = f)) =
          if f ∈ files then (manifestEntry s c f).toList else [] := by
    intro files hnodup hlt
    induction files with
    | nil => rfl
    | cons g files ih =>
      obtain ⟨hnot, hnodup⟩ := List.nodup_cons.mp hnodup
      have hg := hlt g List.mem_cons_self
      rw [List.flatMap_cons, List.filter_append, List.filter_append, hone false g hg, hone true g hg,
        ih hnodup fun g' hg' => hlt g' (List.mem_cons_of_mem _ hg')]
      by_cases hgf : g = f
      · subst hgf
        cases c <;> simp [hnot]
      · simp [hgf, Ne.symm hgf]
  unfold entriesOf spillWriteManifest
  rw [hfiles, hrange _ List.nodup_range fun g hg => List.mem_range.mp hg, if_pos (List.mem_range.mpr hf)]

end Group

/-! ## What runs after a snapshot -/

section Kept

variable {P : Puzzle} {tier : TierCodec} {counted : Prop} {s : Spill} {st : Stacks} {env env' : PlaceEnv}
  {ops : List SpillOp}

/-- An append that writes to the top where it is: the top shares its file with no file of the
snapshot, or it has bytes behind its logical end, so that it is copied first. -/
def SpillOp.SnapSafe (s : Spill) : SpillOp → Prop
  | .append c f frames _ env => (env.frame 0).opens = true → ∀ fr, frames.head? = some fr →
      (s.desc c f).lastSeq ≠ 0 → ¬ Rolls (s.desc c f) s.segmentRecords fr.info.records →
      ∀ c' f' r, Safe s.fs c f (s.desc c f) (.snap c' f' r)
  | _ => True

/-- A run whose appends are all safe. -/
def SafeRun (P : Puzzle) (tier : TierCodec) : Spill → List SpillOp → Prop
  | _, [] => True
  | s, op :: ops => op.SnapSafe s ∧ SafeRun P tier (spillStep P tier s op).1 ops

theorem spillStep_nbFiles (s : Spill) (op : SpillOp) : (spillStep P tier s op).1.nbFiles = s.nbFiles := by
  cases op with
  | append => rfl
  | reload c f maxPackets env =>
    have hread : (reloadRead P tier s c f maxPackets env).1.nbFiles = s.nbFiles := by
      unfold reloadRead
      dsimp only
      split <;> rfl
    simp only [spillStep, stockSpillReload]
    split
    · rename_i heq
      rwa [heq] at hread
    · rename_i heq
      rwa [heq] at hread
  | reset f env =>
    have hpush : ∀ s' seq frames, (resetPushTop s' f seq frames env).1.nbFiles = s'.nbFiles := by
      intro s' seq frames
      unfold resetPushTop
      dsimp only
      repeat' first | rfl | split
    simp only [spillStep]
    split
    · rfl
    · unfold resetBottom
      dsimp only
      split
      · rfl
      · split
        · rfl
        · unfold spillResetCommit
          dsimp only
          split
          · split
            · exact hpush ..
            · exact hpush ..
          · rfl
  | take pass accepts maxRecords opensScan opensRead =>
    simp only [spillStep, stockSpillDiskExpansionTake]
    split
    · rfl
    · split <;> rfl

/-- An operation leaves the files of the snapshot as they are. -/
theorem spillStep_snap (h : SpillRefines counted s st) (op : SpillOp) (hsafe : op.SnapSafe s) (c : Bool) (f r : Nat) :
    Untouched s.fs (spillStep P tier s op).1.fs (.snap c f r) := by
  cases op with
  | append c' f' frames valid env =>
    obtain ⟨-, -, -, huntouched⟩ := spillAppendFrames_spec h.tidy (h.kept c' f') valid s.segmentRecords env
    exact huntouched _ (fun seq => ⟨by simp, by simp⟩) fun hopens fr hfr hlast hstays =>
      hsafe hopens fr hfr hlast hstays c f r
  | reload c' f' maxPackets env =>
    exact (stockSpillReload_frame (P := P) h.tidy (h.kept c' f')).2.2 _ fun seq => by simp
  | reset f' env =>
    simp only [spillStep]
    split
    · exact .refl _ _
    · rename_i hlast
      exact (resetBottom_spec (P := P) h.tidy (h.kept false f') (h.kept true f') hlast).2.1 _ (by simp)
        (by simp) fun seq => ⟨by simp, by simp⟩
  | take pass accepts maxRecords opensScan opensRead =>
    simp only [spillStep, stockSpillDiskExpansionTake]
    split
    · exact .refl _ _
    · split
      · exact untouched_unlink (by simp)
      · exact .refl _ _

/-- A safe run leaves the files of the snapshot as they are. -/
theorem spillRun_snap (h : SpillRefines False s st) (ops : List SpillOp) (hsafe : SafeRun P tier s ops) :
    (spillRun P tier s ops).1.nbFiles = s.nbFiles ∧
      ∀ c f r, Untouched s.fs (spillRun P tier s ops).1.fs (.snap c f r) := by
  induction ops generalizing s st with
  | nil => exact ⟨rfl, fun c f r => .refl _ _⟩
  | cons op ops ih =>
    obtain ⟨hop, hrest⟩ := hsafe
    obtain ⟨st', -, h'⟩ := spillStep_refines (P := P) h op False.elim
    obtain ⟨hfiles, huntouched⟩ := ih h' hrest
    exact ⟨hfiles.trans (spillStep_nbFiles s op), fun c f r => (spillStep_snap h op hop c f r).trans (huntouched c f r)⟩

theorem SpillRefines.weaken (h : SpillRefines counted s st) : SpillRefines False s st := by
  refine ⟨h.tidy, fun c f => ?_⟩
  obtain ⟨segs, hkept, hholds, -⟩ := h.kept c f
  exact ⟨segs, hkept, hholds, False.elim⟩

/-- A snapshot of these stacks stays what it was while the operations run: its files keep their
bytes, and a restore whose calls work puts the stacks back, and says so. -/
def SnapshotStays (P : Puzzle) (tier : TierCodec) (s : Spill) (st : Stacks) (env : PlaceEnv) (ops : List SpillOp)
    (env' : PlaceEnv) : Prop :=
  let snap := stockSpillSnapshot s env
  let run := (spillRun P tier snap.1 ops).1
  (∀ c f r, run.fs.read (.snap c f r) = snap.1.fs.read (.snap c f r)) ∧
    ∃ s', stockSpillRestoreSnapshot run snap.2 env' =
        some (s', ((stackIds s.nbFiles).map fun id => framesRecords (st id.1 id.2)).sum) ∧
      ∀ c f, f < s.nbFiles → SpillStack s' c f (st c f)

/-- A snapshot whose tops are copied to files of their own stays what it was over every run in which
no append writes in place to a top that shares its file with the snapshot. -/
theorem snapshotStays_of_safeRun (h : SpillRefines counted s st) (hclear : SnapshotClear s) (hcopies : env.CopiesWork)
    (hsafe : SafeRun P tier (stockSpillSnapshot s env).1 ops) (hworks : env'.Works) :
    SnapshotStays P tier s st env ops env' := by
  obtain ⟨hrefines, hsnap⟩ := stockSpillSnapshot_spec h hclear hcopies
  obtain ⟨hfiles, huntouched⟩ := spillRun_snap hrefines.weaken ops hsafe
  obtain ⟨st', -, hrun⟩ := @spillRun_refines P tier _ _ _ hrefines.weaken ops fun hfalse => hfalse.elim
  unfold SnapshotStays
  dsimp only
  refine ⟨fun c f r => (huntouched c f r).2, ?_⟩
  have hmanifest : (stockSpillSnapshot s env).2 = spillWriteManifest s := rfl
  have hsame : (stockSpillSnapshot s env).1.nbFiles = s.nbFiles := rfl
  rw [hmanifest]
  rw [hsame] at hfiles
  generalize (stockSpillSnapshot s env).1 = snap at hsnap hfiles huntouched hrun
  generalize (spillRun P tier snap ops).1 = run at hfiles huntouched hrun
  have hsegs : ∀ c f, ∃ segs, f < s.nbFiles → segs.flatten = st c f ∧ SnapHolds snap.fs c f (manifestEntry s c f) segs := by
    intro c f
    by_cases hf : f < s.nbFiles
    · obtain ⟨segs, hsegs⟩ := hsnap c f hf
      exact ⟨segs, fun _ => hsegs⟩
    · exact ⟨[], fun hf' => absurd hf' hf⟩
  choose segs hsegs using hsegs
  have hmem : ∀ {c f}, (c, f) ∈ stackIds run.nbFiles → f < s.nbFiles := fun hid => hfiles ▸ mem_stackIds.mp hid
  obtain ⟨s', hfold, hkept, -, -⟩ := restoreFold_spec (s := restorePurge run)
    hworks (stackIds run.nbFiles) (nodup_stackIds _)
    (fun c f hid => by
      have hold := (hsegs c f (hmem hid)).2
      refine { hold with file := fun i seg hseg => ?_ }
      show (run.fs.unlinkWhere liveSegment).read _ = _
      rw [(untouched_unlinkWhere rfl).2, (huntouched c f (i + 1)).2, hold.file i seg hseg])
    (fun c f hid => entriesOf_spillWriteManifest hfiles (hmem hid) c)
    (fun c f hid seq => by
      obtain ⟨_, -, hholds, -⟩ := hrun.kept c f
      show (run.fs.unlinkWhere liveSegment).inode _ = none
      rw [FileSystem.inode_unlinkWhere]
      split
      · rfl
      · rename_i hseq
        have hzero : seq = 0 := by simpa [liveSegment] using hseq
        exact FileSystem.read_eq_none_iff.mp (hholds.absent seq (.inr (.inr hzero))))
    (fun c f hid => by
      show (if f < run.nbFiles then _ else _) = _
      rw [if_pos (mem_stackIds.mp hid)]) 0
  refine ⟨s', ?_, fun c f hf => ?_⟩
  · unfold stockSpillRestoreSnapshot
    rw [hfold, Nat.zero_add, hfiles]
    congr 3
    apply List.map_congr_left
    rintro ⟨c, f⟩ hid
    rw [(hsegs c f (mem_stackIds.mp hid)).1]
  · have hstack := hkept c f (mem_stackIds.mpr (hfiles ▸ hf))
    rw [(hsegs c f hf).1] at hstack
    exact hstack.spillStack

/-! ## An append to a linked segment -/

theorem PlaceEnv.allWork_works : PlaceEnv.allWork.Works := ⟨fun _ _ _ => ⟨rfl, rfl, rfl⟩, fun _ _ _ => rfl⟩

/-- A frame of two records. -/
def emptyBoardsFrame : StoredFrame := ⟨⟨stockTierCodecRaw, 2, 16, 16⟩, List.replicate 16 0#8⟩

theorem emptyBoardsFrame_valid : emptyBoardsFrame.Valid := by
  constructor <;> decide

/-- A frame appended to the first unverified stack. -/
def appendOne (fr : StoredFrame) (valid : fr.Valid) : SpillOp :=
  .append false 0 [fr] (by simpa using valid) allOpen

/-- Two segments of at most two records: one record, then two. -/
def twoSegments : Spill :=
  (spillRun .p16 ⟨none, false⟩ (freshSpill 1 2)
    [appendOne emptyBoardFrame emptyBoardFrame_valid, appendOne emptyBoardsFrame emptyBoardsFrame_valid]).1

theorem twoSegments_stacks : ∃ st, SpillRefines True twoSegments st ∧ SnapshotClear twoSegments := by
  obtain ⟨st, -, h⟩ := spillRun_refines (P := .p16) (SpillRefines.fresh True 1 2)
    [appendOne emptyBoardFrame emptyBoardFrame_valid, appendOne emptyBoardsFrame emptyBoardsFrame_valid]
    fun _ op hop => by
      rcases List.mem_pair.mp hop with rfl | rfl <;> exact trivial
  have hsafe : ∀ (s : Spill) fr hfr, (∀ c f r, s.fs.inode (.snap c f r) = none) → (appendOne fr hfr).SnapSafe s := by
    intro s fr hfr hnone _ _ _ _ _ c f r i hi
    rw [hnone] at hi
    exact absurd hi (by simp)
  have hfresh : ∀ c f r, (freshSpill 1 2).fs.inode (.snap c f r) = none := fun _ _ _ => rfl
  obtain ⟨-, hsnap⟩ := @spillRun_snap .p16 ⟨none, false⟩ _ _ (SpillRefines.fresh False 1 2)
    [appendOne emptyBoardFrame emptyBoardFrame_valid, appendOne emptyBoardsFrame emptyBoardsFrame_valid]
    ⟨hsafe _ _ _ hfresh, hsafe _ _ _ fun c f r => by
      rw [(spillStep_snap (SpillRefines.fresh False 1 2) _ (hsafe _ _ _ hfresh) c f r).1]
      rfl, trivial⟩
  refine ⟨st, h, fun c f _ => sole_of_none ?_⟩
  rw [twoSegments, (hsnap c f _).1]
  rfl

/-- The top read back, and a frame appended. -/
def reloadThenAppend (fr : StoredFrame) (valid : fr.Valid) : List SpillOp :=
  [.reload false 0 2 ⟨fun _ => true, true, true⟩, appendOne fr valid]

/-- A frame for which the segment under the top rolls leaves the snapshot alone. -/
theorem snapshotStays_of_rolls : ∃ st, SnapshotStays .p16 ⟨none, false⟩ twoSegments st .allWork
    (reloadThenAppend emptyBoardsFrame emptyBoardsFrame_valid) .allWork := by
  obtain ⟨st, h, hclear⟩ := twoSegments_stacks
  refine ⟨st, snapshotStays_of_safeRun h hclear PlaceEnv.allWork_works.copies ⟨trivial, ?_, trivial⟩
    PlaceEnv.allWork_works⟩
  intro _ fr hfr _ hstays
  obtain rfl : emptyBoardsFrame = fr := by simpa using hfr
  refine absurd ?_ hstays
  unfold Rolls
  decide +kernel

/-- A frame that fits is appended to the segment that the snapshot links, and the stack is lost. -/
theorem not_snapshotStays_of_fits : ¬ ∃ st, SpillRefines True twoSegments st ∧
    SnapshotStays .p16 ⟨none, false⟩ twoSegments st .allWork
      (reloadThenAppend emptyBoardFrame emptyBoardFrame_valid) .allWork := by
  rintro ⟨st, h, -, s', hrestore, hstack⟩
  have hpackets : (twoSegments.desc false 0).packets = 3 := by decide +kernel
  have hlost : (stockSpillRestoreSnapshot (spillRun .p16 ⟨none, false⟩ (stockSpillSnapshot twoSegments .allWork).1
      (reloadThenAppend emptyBoardFrame emptyBoardFrame_valid)).1 (stockSpillSnapshot twoSegments .allWork).2
      .allWork).map (fun r => (r.1.desc false 0).packets) = some 0 := by decide +kernel
  rw [hrestore, Option.map_some, (hstack false 0 (by decide)).packets, ← (h.kept false 0).spillStack.packets,
    hpackets] at hlost
  exact absurd hlost (by decide)

end Kept
