-- SUMMARY: An append leaves the segments under the top and the frames of the top where they are.
import EternityII.Spill.Refinement

/-!
# What an append leaves in place

An append writes behind the logical top, and rolls to segments over it. So the segments that a
stack had are still there, under the same numbers, and the segment that was the top begins with the
frames it had.
-/

section Frames

variable {frames frames' : List StoredFrame}

/-- Frames are known by their bytes. -/
theorem framesBytes_inj (h : ∀ fr ∈ frames, fr.Valid) (h' : ∀ fr ∈ frames', fr.Valid)
    (heq : framesBytes frames = framesBytes frames') : frames = frames' := by
  have hread := spillForEachStoredFrame_all h
  rw [heq, spillForEachStoredFrame_all h'] at hread
  exact (Prod.mk.inj hread).1.symm

/-- Of two lists of frames that begin a third, one whose bytes begin those of the other is a prefix
of it. -/
theorem prefix_of_framesBytes {rest : List Byte} {all : List StoredFrame} (h : ∀ fr ∈ frames, fr.Valid)
    (hpre : frames <+: all) (hpre' : frames' <+: all) (heq : framesBytes frames' = framesBytes frames ++ rest) :
    frames <+: frames' := by
  rcases List.prefix_or_prefix_of_prefix hpre hpre' with hle | ⟨more, rfl⟩
  · exact hle
  · have hmore : ∀ fr ∈ more, fr.Valid := fun fr hfr => h fr (List.mem_append_right _ hfr)
    rw [framesBytes_append, List.append_assoc] at heq
    have hzero : (framesBytes more).length = 0 := by
      have hlen := congrArg List.length heq
      simp only [List.length_append] at hlen
      omega
    rw [(framesBytes_eq_nil hmore).mp hzero, List.append_nil]

end Frames

/-! ## The descriptor and the files under an append -/

section Above

variable {c : Bool} {f segmentRecords : Nat} {fs fs₀ : SpillFs} {base desc : SpillDescriptor} {top : List Byte}

/-- A descriptor that has moved up from `base`. -/
structure DescAbove (base desc : SpillDescriptor) : Prop where
  first : base.lastSeq ≠ 0 → desc.firstSeq = base.firstSeq
  last : base.lastSeq ≤ desc.lastSeq
  tail : desc.lastSeq = base.lastSeq → base.tailBytes ≤ desc.tailBytes
  drops : desc.drops = base.drops

/-- Files that have the segments under the top of `base`, and its top up to the logical end. -/
structure FilesAbove (c : Bool) (f : Nat) (base : SpillDescriptor) (top : List Byte) (fs₀ fs : SpillFs) : Prop where
  tidy : Tidy fs
  under : ∀ seq, seq < base.lastSeq → fs.read (.live c f seq) = fs₀.read (.live c f seq)
  top : base.lastSeq ≠ 0 → ∃ rest, fs.read (.live c f base.lastSeq) = some (top ++ rest)

theorem DescAbove.refl (desc : SpillDescriptor) : DescAbove desc desc :=
  ⟨fun _ => rfl, Nat.le_refl _, fun _ => Nat.le_refl _, rfl⟩

/-- A trim at a logical top that has moved up. -/
theorem FilesAbove.trim (h : FilesAbove c f base top fs₀ fs) (hdesc : DescAbove base desc)
    (hlen : top.length = base.tailBytes) (env : TrimEnv) :
    FilesAbove c f base top fs₀ (spillTrimSegmentToTail fs c f desc.lastSeq desc.tailBytes env).1 := by
  have ht := spillTrim_spec h.tidy c f desc.lastSeq desc.tailBytes env
  generalize spillTrimSegmentToTail fs c f desc.lastSeq desc.tailBytes env = r at ht
  have hothers : ∀ seq, seq ≠ desc.lastSeq → r.1.read (.live c f seq) = fs.read (.live c f seq) :=
    fun seq hne => (ht.others _ (by simpa using hne) (by simp)).2
  refine ⟨ht.tidy, fun seq hseq => ?_, fun hne => ?_⟩
  · rw [hothers seq (Nat.ne_of_lt (Nat.lt_of_lt_of_le hseq hdesc.last)), h.under seq hseq]
  · obtain ⟨rest, hread⟩ := h.top hne
    by_cases hlast : desc.lastSeq = base.lastSeq
    · rcases ht.outcome with ⟨hsame, -⟩ | ⟨-, ⟨bytes, hbytes, -, hcut⟩, -⟩
      · exact ⟨rest, by rw [← hlast, hsame.2, hlast, hread]⟩
      · rw [hlast, hread] at hbytes
        obtain rfl := Option.some.inj hbytes
        refine ⟨rest.take (desc.tailBytes - top.length), ?_⟩
        rw [← hlast, hcut, List.take_append, List.take_of_length_le (by rw [hlen]; exact hdesc.tail hlast)]
    · exact ⟨rest, by rw [hothers _ (Ne.symm hlast), hread]⟩

/-- An append to a segment at or over the top. -/
theorem FilesAbove.append (h : FilesAbove c f base top fs₀ fs) {seq : Nat} (hle : base.lastSeq ≤ seq)
    (bytes : List Byte) : FilesAbove c f base top fs₀ (fs.append (.live c f seq) bytes) := by
  refine ⟨h.tidy.append c f seq bytes, fun seq' hseq => ?_, fun hne => ?_⟩
  · exact (segmentFiles_append_ne h.tidy (by omega)).trans (h.under seq' hseq)
  · obtain ⟨rest, hread⟩ := h.top hne
    by_cases heq : base.lastSeq = seq
    · rw [← heq, read_append, hread]
      exact ⟨rest ++ bytes, by simp⟩
    · exact ⟨rest, (segmentFiles_append_ne h.tidy heq).trans hread⟩

/-- A segment over the top unlinked. -/
theorem FilesAbove.unlink (h : FilesAbove c f base top fs₀ fs) {seq : Nat} (hlt : base.lastSeq < seq) :
    FilesAbove c f base top fs₀ (fs.unlink (.live c f seq)) := by
  have hothers : ∀ seq', seq' ≤ base.lastSeq →
      (fs.unlink (.live c f seq)).read (.live c f seq') = fs.read (.live c f seq') :=
    fun seq' hle => segmentFiles_unlink_ne (by omega)
  refine ⟨h.tidy.unlink _, fun seq' hseq => ?_, fun hne => ?_⟩
  · rw [hothers seq' (Nat.le_of_lt hseq), h.under seq' hseq]
  · rw [hothers _ (Nat.le_refl _)]
    exact h.top hne

/-- An append under way that has left what it found. -/
structure AppendAbove (c : Bool) (f : Nat) (base : SpillDescriptor) (top : List Byte) (fs₀ : SpillFs) (st : AppendState) :
    Prop where
  files : FilesAbove c f base top fs₀ st.fs
  desc : DescAbove base st.desc
  committedDesc : DescAbove base st.committedDesc
  le : st.committedDesc.lastSeq ≤ st.desc.lastSeq
  start : st.committed = 0 → st.committedDesc = base

variable {st : AppendState}

theorem AppendAbove.closeBeforeRoll (h : AppendAbove c f base top fs₀ st) {i : Nat} (hi : i = 0 → st.handle = none)
    (fr : StoredFrame) (env : FrameEnv) :
    AppendAbove c f base top fs₀ (spillCloseBeforeRoll c f segmentRecords i fr env st) := by
  cases hhandle : st.handle with
  | none =>
    unfold spillCloseBeforeRoll
    rw [hhandle]
    exact h
  | some pending =>
    unfold spillCloseBeforeRoll spillCloseSynced
    rw [hhandle]
    dsimp only
    split
    · by_cases hclose : env.closes = true
      · rw [if_pos hclose, if_pos rfl]
        refine ⟨h.files.append h.desc.last _, h.desc, h.desc, Nat.le_refl _, fun hzero => ?_⟩
        exact absurd (hhandle.symm.trans (hi hzero)) (by simp)
      · rw [if_neg hclose, if_neg (by simp)]
        exact ⟨h.files.append h.desc.last _, h.desc, h.committedDesc, h.le, h.start⟩
    · exact h

theorem AppendAbove.prepareTop (h : AppendAbove c f base top fs₀ st) (hlen : top.length = base.tailBytes)
    (records : Nat) (env : TrimEnv) :
    FilesAbove c f base top fs₀ (spillPrepareTop st.fs c f st.desc segmentRecords records env).1 ∧
      ∀ desc, (spillPrepareTop st.fs c f st.desc segmentRecords records env).2 = some desc →
        DescAbove base desc ∧ st.committedDesc.lastSeq ≤ desc.lastSeq := by
  have hlast := h.desc.last
  have hle := h.le
  unfold spillPrepareTop
  split
  · rename_i hzero
    refine ⟨h.files, fun desc hdesc => ?_⟩
    obtain rfl := Option.some.inj hdesc
    exact ⟨⟨fun hne => absurd (by omega) hne, by dsimp only; omega, fun heq => by dsimp only at heq; omega,
      h.desc.drops⟩, by dsimp only; omega⟩
  · split
    · dsimp only
      split
      · refine ⟨h.files.trim h.desc hlen env, fun desc hdesc => ?_⟩
        obtain rfl := Option.some.inj hdesc
        exact ⟨⟨h.desc.first, by dsimp only; omega, fun heq => by dsimp only at heq; omega, h.desc.drops⟩,
          by dsimp only; omega⟩
      · exact ⟨h.files.trim h.desc hlen env, fun desc hdesc => absurd hdesc (by simp)⟩
    · refine ⟨h.files, fun desc hdesc => ?_⟩
      obtain rfl := Option.some.inj hdesc
      exact ⟨h.desc, h.le⟩

theorem AppendAbove.openTop (h : AppendAbove c f base top fs₀ st) (hlen : top.length = base.tailBytes)
    (env : FrameEnv) : AppendAbove c f base top fs₀ (spillOpenTop c f env st) := by
  unfold spillOpenTop
  split
  · exact h
  · have htrim := h.files.trim h.desc hlen env.trims
    dsimp only
    split
    · exact ⟨htrim.append h.desc.last [], h.desc, h.committedDesc, h.le, h.start⟩
    · exact ⟨htrim, h.desc, h.committedDesc, h.le, h.start⟩

theorem AppendAbove.writeFrame (h : AppendAbove c f base top fs₀ st) (fr : StoredFrame) (env : FrameEnv) :
    AppendAbove c f base top fs₀ (spillWriteFrame fr env st) := by
  unfold spillWriteFrame
  dsimp only
  split
  · exact ⟨h.files, h.desc, h.committedDesc, h.le, h.start⟩
  · exact ⟨h.files, ⟨h.desc.first, h.desc.last, fun heq => Nat.le_add_right_of_le (h.desc.tail heq), h.desc.drops⟩,
      h.committedDesc, h.le, h.start⟩

theorem spillAppendLoop_above (hlen : top.length = base.tailBytes) (env : AppendEnv) (frames : List StoredFrame)
    {i : Nat} (h : AppendAbove c f base top fs₀ st) (hi : i = 0 → st.handle = none) :
    AppendAbove c f base top fs₀ (spillAppendLoop c f segmentRecords env frames i st) := by
  induction frames generalizing i st with
  | nil => exact h
  | cons fr frames ih =>
    have hclosed : AppendAbove c f base top fs₀ (spillCloseBeforeRoll c f segmentRecords i fr (env.frame i) st) :=
      h.closeBeforeRoll hi fr (env.frame i)
    rw [spillAppendLoop]
    dsimp only
    generalize spillCloseBeforeRoll c f segmentRecords i fr (env.frame i) st = closed at hclosed
    split
    · exact hclosed
    · obtain ⟨hfiles, hdesc⟩ := hclosed.prepareTop hlen fr.info.records
        (env.frame i).trimsOld
      generalize spillPrepareTop closed.fs c f closed.desc segmentRecords fr.info.records (env.frame i).trimsOld =
        prepared at hfiles hdesc
      obtain ⟨fs, desc⟩ := prepared
      cases desc with
      | none => exact ⟨hfiles, hclosed.desc, hclosed.committedDesc, hclosed.le, hclosed.start⟩
      | some desc =>
        obtain ⟨habove, hle⟩ := hdesc desc rfl
        have hprepared : AppendAbove c f base top fs₀ { closed with fs := fs, desc := desc } :=
          ⟨hfiles, habove, hclosed.committedDesc, hle, hclosed.start⟩
        have hopened := hprepared.openTop hlen (env.frame i)
        dsimp only
        generalize spillOpenTop c f (env.frame i) { closed with fs := fs, desc := desc } = opened at hopened
        split
        · exact hopened
        · have hwritten := hopened.writeFrame fr (env.frame i)
          split
          · exact hwritten
          · exact ih hwritten fun hzero => absurd hzero (Nat.succ_ne_zero i)

/-- A loop over some frames that does not fail ends with the top open. -/
theorem spillAppendLoop_handle (env : AppendEnv) {frames : List StoredFrame} {i : Nat}
    (hok : (spillAppendLoop c f segmentRecords env frames i st).ok = true)
    (hhandle : (spillAppendLoop c f segmentRecords env frames i st).handle = none) : frames = [] := by
  induction frames generalizing i st with
  | nil => rfl
  | cons fr frames ih =>
    exfalso
    rw [spillAppendLoop] at hok hhandle
    dsimp only at hok hhandle
    generalize spillCloseBeforeRoll c f segmentRecords i fr (env.frame i) st = closed at hok hhandle
    split at hok
    · rename_i hfail
      simp [hok] at hfail
    · rename_i hclosed
      rw [if_neg hclosed] at hhandle
      split at hok
      · exact absurd hok (by simp)
      · rename_i fs desc hprepared
        rw [hprepared] at hhandle
        dsimp only at hok hhandle
        generalize spillOpenTop c f (env.frame i) { closed with fs := fs, desc := desc } = opened at hok hhandle
        split at hok
        · rename_i hfail
          simp [hok] at hfail
        · rename_i hopened
          rw [if_neg hopened] at hhandle
          split at hok
          · rename_i hfail
            simp [hok] at hfail
          · rename_i hwritten
            rw [if_neg hwritten] at hhandle
            obtain rfl := ih hok hhandle
            rw [spillAppendLoop] at hhandle
            unfold spillWriteFrame at hhandle
            dsimp only at hhandle
            split at hhandle <;> simp at hhandle

/-- What an append does to the descriptor and to the files under it. -/
theorem spillAppendFrames_above (htidy : Tidy fs) (hlen : top.length = desc.tailBytes)
    (htop : desc.lastSeq ≠ 0 → ∃ rest, fs.read (.live c f desc.lastSeq) = some (top ++ rest))
    (frames : List StoredFrame) (env : AppendEnv) :
    DescAbove desc (spillAppendFrames fs c f desc segmentRecords frames env).2.1 ∧
      FilesAbove c f desc top fs (spillAppendFrames fs c f desc segmentRecords frames env).1 ∧
      ((spillAppendFrames fs c f desc segmentRecords frames env).2.2 = 0 →
        (spillAppendFrames fs c f desc segmentRecords frames env).2.1 = desc) := by
  have hstart : AppendAbove c f desc top fs ⟨fs, desc, desc, 0, none, true⟩ :=
    ⟨⟨htidy, fun _ _ => rfl, htop⟩, .refl desc, .refl desc, Nat.le_refl _, fun _ => rfl⟩
  have hloop : AppendAbove c f desc top fs
      (spillAppendLoop c f segmentRecords env frames 0 ⟨fs, desc, desc, 0, none, true⟩) :=
    spillAppendLoop_above hlen env frames hstart fun _ => rfl
  have hhandle : (spillAppendLoop c f segmentRecords env frames 0 ⟨fs, desc, desc, 0, none, true⟩).ok = true →
      (spillAppendLoop c f segmentRecords env frames 0 ⟨fs, desc, desc, 0, none, true⟩).handle = none → frames = [] :=
    spillAppendLoop_handle env
  have hnil : frames = [] → spillAppendLoop c f segmentRecords env frames 0 ⟨fs, desc, desc, 0, none, true⟩ =
      ⟨fs, desc, desc, 0, none, true⟩ := fun h => by rw [h, spillAppendLoop]
  unfold spillAppendFrames
  generalize spillAppendLoop c f segmentRecords env frames 0 ⟨fs, desc, desc, 0, none, true⟩ = st at hloop hhandle hnil
  -- A failure takes back the segment that was opened over the synced ones.
  have hfail : ∀ {fs' : SpillFs}, FilesAbove c f desc top fs fs' →
      FilesAbove c f desc top fs
        (if st.desc.lastSeq ≠ st.committedDesc.lastSeq ∧ st.desc.lastSeq ≠ 0 then
          fs'.unlink (.live c f st.desc.lastSeq) else fs') := by
    intro fs' hfiles
    have hle := hloop.le
    have hlast := hloop.committedDesc.last
    split
    · exact hfiles.unlink (by omega)
    · exact hfiles
  unfold spillAppendEnd spillCloseSynced
  cases hcase : st.handle with
  | none =>
    dsimp only
    split
    · rename_i hok
      have hfresh := hnil (hhandle hok hcase)
      exact ⟨hloop.desc, hloop.files, fun _ => by rw [hfresh]⟩
    · exact ⟨hloop.committedDesc, hfail hloop.files, hloop.start⟩
  | some pending =>
    have hne : frames ≠ [] := fun h => by
      rw [hnil h] at hcase
      exact absurd hcase (by simp)
    have happend : ∀ bytes, FilesAbove c f desc top fs (st.fs.append (.live c f st.desc.lastSeq) bytes) :=
      fun bytes => hloop.files.append hloop.desc.last bytes
    dsimp only
    by_cases hclose : env.closes = true
    · rw [if_pos hclose]
      by_cases hok : st.ok = true
      · simp only [hok]
        exact ⟨hloop.desc, happend _, fun hzero => absurd (List.length_eq_zero_iff.mp hzero) hne⟩
      · have hboth : ¬ (true && st.ok) = true := by rw [Bool.true_and]; exact hok
        simp only [hboth]
        exact ⟨hloop.committedDesc, hfail (happend _), hloop.start⟩
    · rw [if_neg hclose, if_neg (by simp)]
      exact ⟨hloop.committedDesc, hfail (happend _), hloop.start⟩

end Above

/-! ## Stacks of segments -/

/-- Segments after some frames have been appended: those under the top are the same, and the one
that was the top begins with its frames. -/
structure Grown (segs segs' : List (List StoredFrame)) (new : List StoredFrame) : Prop where
  flatten : segs'.flatten = segs.flatten ++ new
  under : ∀ lower top, segs = lower ++ [top] → ∃ ext more, segs' = lower ++ (top ++ ext) :: more

section Grown

variable {files files' : Nat → Option (List Byte)} {desc desc' : SpillDescriptor}
  {segs segs' : List (List StoredFrame)} {new : List StoredFrame}

/-- Two stacks over the same segments under the top and the same frames in it. -/
theorem Holds.grown (h : Holds files desc segs) (h' : Holds files' desc' segs')
    (hflatten : segs'.flatten = segs.flatten ++ new) (hdesc : DescAbove desc desc')
    (hunder : ∀ seq, seq < desc.lastSeq → files' seq = files seq)
    (htop : ∀ top, segs.getLast? = some top → ∃ rest, files' desc.lastSeq = some (framesBytes top ++ rest)) :
    Grown segs segs' new := by
  refine ⟨hflatten, ?_⟩
  rintro lower top rfl
  obtain ⟨hseq, hpos, -, -⟩ := h.top_file
  have hfirst : desc'.firstSeq = desc.firstSeq := hdesc.first (by omega)
  have hlast := hdesc.last
  have hne : segs' ≠ [] := fun hnil => by
    have := h'.lastSeq_eq_zero.mpr hnil
    omega
  have hcount := (h'.seqs hne).2
  have hlen : lower.length < segs'.length := by omega
  -- The segments under the top have the same files, so the same frames.
  have hlower : segs'.take lower.length = lower := by
    apply List.ext_getElem (by rw [List.length_take]; omega)
    intro i hi hi'
    rw [List.getElem_take]
    obtain ⟨rest, hfile, hrest⟩ := h.file i lower[i] (by rw [List.getElem?_append_left hi', List.getElem?_eq_getElem hi'])
    have hin : i < segs'.length := by omega
    obtain ⟨rest', hfile', hrest'⟩ := h'.file i segs'[i] (List.getElem?_eq_getElem hin)
    rw [hrest (by rw [List.length_append, List.length_singleton]; omega), List.append_nil] at hfile
    rw [hrest' (by omega), List.append_nil, hfirst, hunder _ (by omega), hfile] at hfile'
    exact (framesBytes_inj (h.valid _ (List.mem_append_left _ (List.getElem_mem hi')))
      (h'.valid _ (List.getElem_mem _)) (Option.some.inj hfile')).symm
  have hsplit : segs' = lower ++ segs'[lower.length] :: segs'.drop (lower.length + 1) := by
    rw [List.getElem_cons_drop]
    conv_lhs => rw [← List.take_append_drop lower.length segs', hlower]
  generalize hmid : segs'[lower.length] = mid at hsplit
  generalize segs'.drop (lower.length + 1) = more at hsplit
  have hall : mid ++ more.flatten = top ++ new := by
    rw [hsplit] at hflatten
    simpa [List.append_assoc] using hflatten
  have hprefix : top <+: mid := by
    by_cases hmore : more = []
    · rw [hmore, List.flatten_nil, List.append_nil] at hall
      rw [hall]
      exact List.prefix_append top new
    · obtain ⟨rest, hfile⟩ := htop top (by simp)
      obtain ⟨rest', hfile', hrest'⟩ := h'.file lower.length mid (by rw [hsplit]; simp)
      have hmore' := List.length_pos_iff.mpr hmore
      have hlen' : segs'.length = lower.length + (more.length + 1) := by
        rw [hsplit, List.length_append, List.length_cons]
      rw [hrest' (by omega), List.append_nil, hfirst, ← hseq, hfile] at hfile'
      exact prefix_of_framesBytes h.valid_top (List.prefix_append top new) ⟨more.flatten, hall⟩
        (Option.some.inj hfile').symm
  obtain ⟨ext, rfl⟩ := hprefix
  exact ⟨ext, more, hsplit⟩

/-- Nothing appended. -/
theorem Grown.eq_of_nil (h : Grown segs segs' []) (hnonempty : ∀ seg ∈ segs', seg ≠ []) : segs' = segs := by
  have hflatten := h.flatten
  rw [List.append_nil] at hflatten
  rcases Holds.cases_top segs with rfl | ⟨lower, top, rfl⟩
  · cases segs' with
    | nil => rfl
    | cons seg segs' =>
      rw [List.flatten_cons, List.flatten_nil] at hflatten
      exact absurd (List.append_eq_nil_iff.mp hflatten).1 (hnonempty seg List.mem_cons_self)
  · obtain ⟨ext, more, rfl⟩ := h.under lower top rfl
    have hnil : ext ++ more.flatten = [] := by simpa [List.append_assoc] using hflatten
    obtain ⟨rfl, hmore⟩ := List.append_eq_nil_iff.mp hnil
    cases more with
    | nil => rw [List.append_nil]
    | cons seg more =>
      rw [List.flatten_cons] at hmore
      exact absurd (List.append_eq_nil_iff.mp hmore).1 (hnonempty seg (by simp))

variable {c : Bool} {f segmentRecords : Nat} {fs : SpillFs} {frames : List StoredFrame}

/-- An append to a stack of segments. -/
theorem spillAppendFrames_grown (htidy : Tidy fs) (h : Holds (segmentFiles fs c f) desc segs)
    (hvalid : ∀ fr ∈ frames, fr.Valid) (env : AppendEnv) :
    ∃ segs', Holds (segmentFiles (spillAppendFrames fs c f desc segmentRecords frames env).1 c f)
        (spillAppendFrames fs c f desc segmentRecords frames env).2.1 segs' ∧
      Grown segs segs' (frames.take (spillAppendFrames fs c f desc segmentRecords frames env).2.2) ∧
      DescAbove desc (spillAppendFrames fs c f desc segmentRecords frames env).2.1 ∧
      ((spillAppendFrames fs c f desc segmentRecords frames env).2.2 = 0 →
        (spillAppendFrames fs c f desc segmentRecords frames env).2.1 = desc) := by
  obtain ⟨-, -, ⟨segs', hflatten, hholds', -⟩, -⟩ := spillAppendFrames_spec htidy
    ⟨segs, rfl, h, fun hfalse => absurd hfalse id⟩ hvalid segmentRecords env
  have htop : ∃ top : List Byte, top.length = desc.tailBytes ∧
      (desc.lastSeq ≠ 0 → ∃ rest, fs.read (.live c f desc.lastSeq) = some (top ++ rest)) ∧
      ∀ seg, segs.getLast? = some seg → top = framesBytes seg := by
    rcases Holds.cases_top segs with rfl | ⟨lower, seg, rfl⟩
    · exact ⟨[], by rw [(h.empty rfl).2.2, List.length_nil], fun hne => absurd (h.empty rfl).2.1 hne,
        fun seg hseg => absurd hseg (by simp)⟩
    · obtain ⟨-, -, htail, hfile⟩ := h.top_file
      refine ⟨framesBytes seg, htail.symm, fun _ => hfile, fun seg' hseg' => ?_⟩
      obtain rfl : seg = seg' := by simpa using hseg'
      rfl
  obtain ⟨top, hlen, hfile, htop⟩ := htop
  obtain ⟨hdesc, hfiles, hzero⟩ := spillAppendFrames_above htidy hlen hfile frames env
  refine ⟨segs', hholds', h.grown hholds' hflatten hdesc hfiles.under fun seg hseg => ?_, hdesc, hzero⟩
  rw [← htop seg hseg]
  exact hfiles.top (mt h.lastSeq_eq_zero.mp fun hnil => by
    rw [hnil] at hseg
    exact absurd hseg (by simp))

end Grown

/-! ## All stacks -/

/-- A pool and a file. -/
abbrev StackId : Type := Bool × Nat

/-- The files and descriptors hold these segments. -/
structure SpillSegs (s : Spill) (segs : StackId → List (List StoredFrame)) : Prop where
  tidy : Tidy s.fs
  holds : ∀ id : StackId, Holds (segmentFiles s.fs id.1 id.2) (s.desc id.1 id.2) (segs id)

section SpillSegs

variable {s : Spill} {segs : StackId → List (List StoredFrame)} {c : Bool} {f : Nat}

/-- Spills that agree on the segments and the descriptors hold the same. -/
theorem SpillSegs.congr (h : SpillSegs s segs) {s' : Spill} (htidy : Tidy s'.fs) (hdesc : ∀ c f, s'.desc c f = s.desc c f)
    (hfiles : ∀ c f seq, Untouched s.fs s'.fs (.live c f seq)) : SpillSegs s' segs := by
  refine ⟨htidy, fun id => ?_⟩
  rw [hdesc]
  exact (h.holds id).congr (fun seq => segmentFiles_eq (hfiles id.1 id.2 seq)) rfl rfl rfl rfl

/-- One stack replaced and the others not touched. -/
theorem SpillSegs.update (h : SpillSegs s segs) {s' : Spill} {segs' : List (List StoredFrame)} (htidy : Tidy s'.fs)
    (hholds : Holds (segmentFiles s'.fs c f) (s'.desc c f) segs')
    (hdesc : ∀ c' f', ¬ (c' = c ∧ f' = f) → s'.desc c' f' = s.desc c' f')
    (hfiles : ∀ c' f' seq, ¬ (c' = c ∧ f' = f) → Untouched s.fs s'.fs (.live c' f' seq)) :
    SpillSegs s' (Function.update segs (c, f) segs') := by
  refine ⟨htidy, fun id => ?_⟩
  by_cases heq : id = (c, f)
  · subst heq
    rw [Function.update_self]
    exact hholds
  · have hne : ¬ (id.1 = c ∧ id.2 = f) := fun hand => heq (Prod.ext hand.1 hand.2)
    rw [Function.update_of_ne heq, hdesc _ _ hne]
    exact (h.holds id).congr (fun seq => segmentFiles_eq (hfiles _ _ seq hne)) rfl rfl rfl rfl

/-- An append to one stack. -/
theorem SpillSegs.append (h : SpillSegs s segs) (c : Bool) (f : Nat) {frames : List StoredFrame}
    (hvalid : ∀ fr ∈ frames, fr.Valid) (env : AppendEnv) :
    ∃ segs', Grown (segs (c, f)) segs'
        (frames.take (spillAppendFrames s.fs c f (s.desc c f) s.segmentRecords frames env).2.2) ∧
      (spillAppendFrames s.fs c f (s.desc c f) s.segmentRecords frames env).2.2 ≤ frames.length ∧
      DescAbove (s.desc c f) (spillAppendFrames s.fs c f (s.desc c f) s.segmentRecords frames env).2.1 ∧
      ((spillAppendFrames s.fs c f (s.desc c f) s.segmentRecords frames env).2.2 = 0 →
        (spillAppendFrames s.fs c f (s.desc c f) s.segmentRecords frames env).2.1 = s.desc c f) ∧
      SpillSegs (s.put c f (spillAppendFrames s.fs c f (s.desc c f) s.segmentRecords frames env).1
          (spillAppendFrames s.fs c f (s.desc c f) s.segmentRecords frames env).2.1)
        (Function.update segs (c, f) segs') := by
  obtain ⟨segs', hholds, hgrown, habove, hzero⟩ :=
    spillAppendFrames_grown h.tidy (h.holds (c, f)) hvalid env
  obtain ⟨htidy, hle, -, huntouched⟩ := spillAppendFrames_spec h.tidy
    ⟨segs (c, f), rfl, h.holds (c, f), fun hfalse => absurd hfalse id⟩ hvalid s.segmentRecords env
  refine ⟨segs', hgrown, hle, habove, hzero, h.update htidy (by rw [Spill.put_desc_self]; exact hholds)
    (fun c' f' hne => Spill.put_desc_of_ne hne) fun c' f' seq hne => huntouched _ (fun seq' => ⟨?_, by simp⟩)
      fun _ _ _ _ _ i hi hi' => absurd (h.tidy.live_inj hi hi') ?_⟩
  · exact SpillName.live_ne_live hne
  · exact SpillName.live_ne_live hne

end SpillSegs
