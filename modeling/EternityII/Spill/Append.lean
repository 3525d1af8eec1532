-- SUMMARY: Appending frames: a prefix of them is in, whatever call fails, and other files are left alone.
import EternityII.Spill.Files

/-!
# Appending frames

An append writes frames to the top, rolling to a new segment where the top is full. Frames count
once their segment is synced. A failure takes the descriptor back to the last synced frame; what
was written behind it stays as stale bytes of the top, or goes with the segment it opened.
-/

section Append

variable {fs fs' : SpillFs} {c : Bool} {f segmentRecords : Nat} {desc committedDesc : SpillDescriptor}
  {counted : Prop} {kept new : List StoredFrame} {st : AppendState} {fr : StoredFrame} {n : SpillName}

/-- The stack holds these frames, and counts the records of its top when that is promised. -/
def Kept (c : Bool) (f : Nat) (counted : Prop) (fs : SpillFs) (desc : SpillDescriptor) (kept : List StoredFrame) :
    Prop :=
  ∃ segs, segs.flatten = kept ∧ Holds (segmentFiles fs c f) desc segs ∧ (counted → CountsTail desc segs)

/-- The top that the next frame goes to, before it is opened: the one the synced frames end in, or
a new one over it. -/
def Prepared (c : Bool) (f : Nat) (counted : Prop) (fs : SpillFs) (desc committedDesc : SpillDescriptor)
    (kept : List StoredFrame) : Prop :=
  (desc = committedDesc ∧ ∃ lower top, (lower ++ [top]).flatten = kept ∧
      Holds (segmentFiles fs c f) committedDesc (lower ++ [top]) ∧
      (counted → CountsTail committedDesc (lower ++ [top]))) ∨
    ∃ segs, segs.flatten = kept ∧ Holds (segmentFiles fs c f) committedDesc segs ∧
      (counted → CountsTail committedDesc segs) ∧
      (∀ seg, segs.getLast? = some seg →
        segmentFiles fs c f committedDesc.lastSeq = some (framesBytes seg)) ∧
      desc = { committedDesc with
        firstSeq := if segs = [] then 1 else committedDesc.firstSeq
        lastSeq := committedDesc.lastSeq + 1
        tailBytes := 0
        tailRecords := 0 }

/-- The open top: it ends at the frames it holds, and the descriptor counts the frames written to
it since. -/
def Writing (c : Bool) (f : Nat) (counted : Prop) (fs : SpillFs) (desc committedDesc : SpillDescriptor)
    (kept new : List StoredFrame) : Prop :=
  (∀ fr ∈ new, fr.Valid) ∧
  ((∃ lower top, (lower ++ [top]).flatten = kept ∧ Holds (segmentFiles fs c f) committedDesc (lower ++ [top]) ∧
      (counted → CountsTail committedDesc (lower ++ [top])) ∧
      segmentFiles fs c f committedDesc.lastSeq = some (framesBytes top) ∧
      desc = { committedDesc with
        tailBytes := committedDesc.tailBytes + (framesBytes new).length
        tailRecords := committedDesc.tailRecords + framesRecords new
        packets := committedDesc.packets + framesRecords new }) ∨
    ∃ segs, segs.flatten = kept ∧
      Holds (segmentFiles (fs.unlink (.live c f (committedDesc.lastSeq + 1))) c f) committedDesc segs ∧
      (counted → CountsTail committedDesc segs) ∧
      (∀ seg, segs.getLast? = some seg →
        segmentFiles fs c f committedDesc.lastSeq = some (framesBytes seg)) ∧
      segmentFiles fs c f (committedDesc.lastSeq + 1) = some [] ∧
      desc = { committedDesc with
        firstSeq := if segs = [] then 1 else committedDesc.firstSeq
        lastSeq := committedDesc.lastSeq + 1
        tailBytes := (framesBytes new).length
        tailRecords := framesRecords new
        packets := committedDesc.packets + framesRecords new })

/-- What a failure takes back. -/
def cleanUp (c : Bool) (f : Nat) (fs : SpillFs) (desc committedDesc : SpillDescriptor) : SpillFs :=
  if desc.lastSeq ≠ committedDesc.lastSeq ∧ desc.lastSeq ≠ 0 then fs.unlink (.live c f desc.lastSeq) else fs

theorem segmentFiles_eq {seq : Nat} (h : Untouched fs fs' (.live c f seq)) :
    segmentFiles fs' c f seq = segmentFiles fs c f seq := h.2

theorem segmentFiles_append_ne (htidy : Tidy fs) {seq seq' : Nat} {bytes : List Byte} (hne : seq' ≠ seq) :
    segmentFiles (fs.append (.live c f seq) bytes) c f seq' = segmentFiles fs c f seq' := by
  refine segmentFiles_eq (untouched_append (by simpa using hne) ?_)
  cases hinode : fs.inode (.live c f seq') with
  | none => exact .inl rfl
  | some i =>
    right
    intro heq
    have := htidy.live_inj hinode heq.symm
    simp only [SpillName.live.injEq] at this
    exact hne this.2.2

theorem segmentFiles_unlink_self {seq : Nat} :
    segmentFiles (fs.unlink (.live c f seq)) c f seq = none := FileSystem.read_unlink_self

theorem segmentFiles_unlink_ne {seq seq' : Nat} (hne : seq' ≠ seq) :
    segmentFiles (fs.unlink (.live c f seq)) c f seq' = segmentFiles fs c f seq' :=
  segmentFiles_eq (untouched_unlink (by simpa using hne))

/-- Unlinking a segment that is not there changes nothing. -/
theorem Holds.unlink_absent {segs : List (List StoredFrame)} (h : Holds (segmentFiles fs c f) desc segs) :
    Holds (segmentFiles (fs.unlink (.live c f (desc.lastSeq + 1))) c f) desc segs := by
  refine h.congr (fun seq => ?_) rfl rfl rfl rfl
  by_cases hseq : seq = desc.lastSeq + 1
  · rw [hseq, segmentFiles_unlink_self, h.absent _ (.inr (.inl (Nat.lt_succ_self _)))]
  · exact segmentFiles_unlink_ne hseq

/-- One more frame. -/
theorem Writing.snoc (h : Writing c f counted fs desc committedDesc kept new) (hfr : fr.Valid) :
    Writing c f counted fs
      { desc with
        tailBytes := desc.tailBytes + spillFrameBytes fr.info
        tailRecords := desc.tailRecords + fr.info.records
        packets := desc.packets + fr.info.records } committedDesc kept (new ++ [fr]) := by
  obtain ⟨hnew, hcase⟩ := h
  have hbytes : (framesBytes (new ++ [fr])).length = (framesBytes new).length + spillFrameBytes fr.info := by
    rw [framesBytes_append, List.length_append, framesBytes_cons, framesBytes_nil, List.append_nil, hfr.length_bytes]
  have hrecords : framesRecords (new ++ [fr]) = framesRecords new + fr.info.records := by
    rw [framesRecords_append, framesRecords_cons, framesRecords_nil, Nat.add_zero]
  refine ⟨fun fr' h' => ?_, ?_⟩
  · rcases List.mem_append.mp h' with h' | h'
    · exact hnew fr' h'
    · exact List.mem_singleton.mp h' ▸ hfr
  · rw [hbytes, hrecords]
    rcases hcase with ⟨lower, top, hkept, hholds, hcounts, hexact, rfl⟩ |
      ⟨segs, hkept, hholds, hcounts, hexact, hnil, rfl⟩
    · exact .inl ⟨lower, top, hkept, hholds, hcounts, hexact, by simp only [Nat.add_assoc]⟩
    · exact .inr ⟨segs, hkept, hholds, hcounts, hexact, hnil, by simp only [Nat.add_assoc]⟩

/-- The frames written are in once the segment is synced. -/
theorem Writing.commit (h : Writing c f counted fs desc committedDesc kept new) (htidy : Tidy fs)
    (hne : new ≠ []) :
    Kept c f counted (fs.append (.live c f desc.lastSeq) (framesBytes new)) desc (kept ++ new) := by
  obtain ⟨hnew, ⟨lower, top, hkept, hholds, hcounts, hexact, rfl⟩ |
    ⟨segs, hkept, hholds, hcounts, hexact, hnil, rfl⟩⟩ := h
  · refine ⟨lower ++ [top ++ new], ?_, hholds.grow hnew ?_ ?_ rfl rfl rfl rfl, fun hc => ?_⟩
    · rw [← hkept]
      simp
    · show (fs.append (.live c f committedDesc.lastSeq) (framesBytes new)).read _ = _
      rw [read_append]
      have hread : fs.read (.live c f committedDesc.lastSeq) = some (framesBytes top) := hexact
      rw [hread, framesBytes_append]
      rfl
    · exact fun seq hseq => segmentFiles_append_ne htidy hseq
    · have := hcounts hc
      unfold CountsTail at this ⊢
      simp only [List.getLast?_append, List.getLast?_singleton, Option.some_or, Option.getD_some] at this ⊢
      rw [framesRecords_append, this]
  · refine ⟨segs ++ [new], ?_, hholds.push hnew hne ?_ ?_ ?_ rfl rfl rfl rfl, fun _ => ?_⟩
    · rw [← hkept]
      simp
    · intro seg hseg
      rw [segmentFiles_unlink_ne (Nat.ne_of_lt (Nat.lt_succ_self _))]
      exact hexact seg hseg
    · show (fs.append (.live c f (committedDesc.lastSeq + 1)) (framesBytes new)).read _ = _
      rw [read_append]
      have hread : fs.read (.live c f (committedDesc.lastSeq + 1)) = some [] := hnil
      rw [hread]
      rfl
    · intro seq hseq
      rw [segmentFiles_append_ne htidy hseq, segmentFiles_unlink_ne hseq]
    · unfold CountsTail
      simp

/-- Whatever has been written to the open top, a failure leaves the synced frames. -/
theorem Writing.fail (h : Writing c f counted fs desc committedDesc kept new) (htidy : Tidy fs)
    (junk : List Byte) :
    Kept c f counted (cleanUp c f (fs.append (.live c f desc.lastSeq) junk) desc committedDesc) committedDesc
      kept := by
  obtain ⟨-, ⟨lower, top, hkept, hholds, hcounts, hexact, rfl⟩ |
    ⟨segs, hkept, hholds, hcounts, hexact, hnil, rfl⟩⟩ := h
  · refine ⟨lower ++ [top], hkept, ?_, hcounts⟩
    rw [cleanUp, if_neg (by simp)]
    refine hholds.stale (?_ : _ = some (framesBytes top ++ junk)) fun seq hseq => segmentFiles_append_ne htidy hseq
    show (fs.append (.live c f committedDesc.lastSeq) junk).read _ = _
    rw [read_append]
    have hread : fs.read (.live c f committedDesc.lastSeq) = some (framesBytes top) := hexact
    rw [hread]
    rfl
  · refine ⟨segs, hkept, ?_, hcounts⟩
    rw [cleanUp, if_pos (by simp)]
    refine hholds.congr (fun seq => ?_) rfl rfl rfl rfl
    by_cases hseq : seq = committedDesc.lastSeq + 1
    · rw [hseq, segmentFiles_unlink_self, segmentFiles_unlink_self]
    · rw [segmentFiles_unlink_ne hseq, segmentFiles_unlink_ne hseq, segmentFiles_append_ne htidy hseq]

/-- A failure before the top is open leaves the synced frames. -/
theorem Prepared.fail (h : Prepared c f counted fs desc committedDesc kept) :
    Kept c f counted (cleanUp c f fs desc committedDesc) committedDesc kept := by
  obtain ⟨rfl, lower, top, hkept, hholds, hcounts⟩ | ⟨segs, hkept, hholds, hcounts, -, rfl⟩ := h
  · rw [cleanUp, if_neg (by simp)]
    exact ⟨_, hkept, hholds, hcounts⟩
  · rw [cleanUp, if_pos (by simp)]
    exact ⟨segs, hkept, hholds.unlink_absent, hcounts⟩

/-- A trim of the top to its logical end keeps the stack, and cuts the file when it succeeds. -/
theorem Trimmed.holds {lower : List (List StoredFrame)} {top : List StoredFrame} {r : SpillFs × Bool}
    (ht : Trimmed fs c f desc.lastSeq desc.tailBytes r)
    (h : Holds (segmentFiles fs c f) desc (lower ++ [top])) :
    Holds (segmentFiles r.1 c f) desc (lower ++ [top]) ∧
      (r.2 = true → segmentFiles r.1 c f desc.lastSeq = some (framesBytes top)) := by
  obtain ⟨-, -, htail, rest, hfile⟩ := h.top_file
  have hread : fs.read (.live c f desc.lastSeq) = some (framesBytes top ++ rest) := hfile
  have hothers : ∀ seq, seq ≠ desc.lastSeq → segmentFiles r.1 c f seq = segmentFiles fs c f seq :=
    fun seq hseq => segmentFiles_eq (ht.others _ (by simpa using hseq) (by simp))
  rcases ht.outcome with ⟨hsame, hshort⟩ | ⟨hok, ⟨bytes, hbytes, hlong, hcut⟩, -⟩
  · refine ⟨h.stale (by rw [segmentFiles_eq hsame, hfile]) hothers, fun hok => ?_⟩
    have hlength := hshort hok _ hread
    rw [List.length_append] at hlength
    obtain rfl : rest = [] := List.eq_nil_of_length_eq_zero (by omega)
    rw [segmentFiles_eq hsame, hfile, List.append_nil]
  · obtain rfl := Option.some.inj (hread.symm.trans hbytes)
    have hexact : segmentFiles r.1 c f desc.lastSeq = some (framesBytes top) := by
      rw [htail, List.take_left] at hcut
      exact hcut
    exact ⟨h.stale (by rw [hexact, List.append_nil]) hothers, fun _ => hexact⟩

/-- The name is not of the stack. -/
def Foreign (c : Bool) (f : Nat) (n : SpillName) : Prop := ∀ seq, n ≠ .live c f seq ∧ n ≠ .cow c f seq

/-- The name does not share its file with the top, or that has bytes behind its logical end, so that
it is copied before it is written to. -/
def Safe (fs : SpillFs) (c : Bool) (f : Nat) (desc : SpillDescriptor) (n : SpillName) : Prop :=
  ∀ i, fs.inode n = some i → fs.inode (.live c f desc.lastSeq) = some i → desc.tailBytes < (fs.content i).length

/-- The name does not share its file with the segment. -/
def Apart (fs : SpillFs) (c : Bool) (f seq : Nat) (n : SpillName) : Prop :=
  fs.inode n = none ∨ fs.inode n ≠ fs.inode (.live c f seq)

theorem Trimmed.untouched {seq tailBytes : Nat} {r : SpillFs × Bool} (ht : Trimmed fs c f seq tailBytes r)
    (hn : Foreign c f n) : Untouched fs r.1 n :=
  ht.others n (hn seq).1 (hn seq).2

/-- The top rolls for these records. -/
def Rolls (desc : SpillDescriptor) (segmentRecords records : Nat) : Prop :=
  desc.lastSeq ≠ 0 ∧ desc.tailRecords > 0 ∧ desc.tailRecords + records > segmentRecords

theorem spillPrepareTop_spec {opens : Prop} (htidy : Tidy fs) (h : Kept c f counted fs desc kept)
    (hn : Foreign c f n) {records : Nat}
    (hsafe : opens → desc.lastSeq ≠ 0 → ¬ Rolls desc segmentRecords records → Safe fs c f desc n)
    (env : TrimEnv) :
    Tidy (spillPrepareTop fs c f desc segmentRecords records env).1 ∧
      Untouched fs (spillPrepareTop fs c f desc segmentRecords records env).1 n ∧
      ((spillPrepareTop fs c f desc segmentRecords records env).2 = none →
        Kept c f counted (spillPrepareTop fs c f desc segmentRecords records env).1 desc kept) ∧
      ∀ desc', (spillPrepareTop fs c f desc segmentRecords records env).2 = some desc' →
        Prepared c f counted (spillPrepareTop fs c f desc segmentRecords records env).1 desc' desc kept ∧
          (opens → Safe (spillPrepareTop fs c f desc segmentRecords records env).1 c f desc' n) := by
  obtain ⟨segs, hkept, hholds, hcounts⟩ := h
  -- A segment that does not exist yet shares its file with no name.
  have hnew : ∀ {fs' : SpillFs} {desc' : SpillDescriptor},
      segmentFiles fs' c f desc'.lastSeq = none → opens → Safe fs' c f desc' n := by
    intro fs' desc' hnone _ i _ hi
    rw [FileSystem.read_eq_none_iff.mp hnone] at hi
    exact absurd hi (by simp)
  unfold spillPrepareTop
  split
  · rename_i hzero
    obtain rfl := hholds.lastSeq_eq_zero.mp hzero
    refine ⟨htidy, .refl fs n, fun hnone => absurd hnone (by simp), fun desc' hdesc => ?_⟩
    obtain rfl := Option.some.inj hdesc
    refine ⟨.inr ⟨[], hkept, hholds, hcounts, fun seg hseg => absurd hseg (by simp), ?_⟩,
      hnew (hholds.absent _ (.inr (.inl (by rw [hzero]; exact Nat.one_pos))))⟩
    rw [if_pos rfl, hzero]
  · rename_i hnonzero
    obtain ⟨lower, top, rfl⟩ := (Holds.cases_top segs).resolve_left (mt hholds.lastSeq_eq_zero.mpr hnonzero)
    split
    · have ht := spillTrim_spec htidy c f desc.lastSeq desc.tailBytes env
      obtain ⟨hheld, hexact⟩ := ht.holds hholds
      dsimp only
      split
      · rename_i hok
        refine ⟨ht.tidy, ht.untouched hn, fun hnone => absurd hnone (by simp), fun desc' hdesc => ?_⟩
        obtain rfl := Option.some.inj hdesc
        refine ⟨.inr ⟨lower ++ [top], hkept, hheld, hcounts, fun seg hseg => ?_, ?_⟩,
          hnew (hheld.absent _ (.inr (.inl (Nat.lt_succ_self _))))⟩
        · obtain rfl : top = seg := by simpa using hseg
          exact hexact hok
        · rw [if_neg (by simp)]
      · exact ⟨ht.tidy, ht.untouched hn, fun _ => ⟨_, hkept, hheld, hcounts⟩, fun desc' hdesc =>
          absurd hdesc (by simp)⟩
    · rename_i hstays
      refine ⟨htidy, .refl fs n, fun hnone => absurd hnone (by simp), fun desc' hdesc => ?_⟩
      obtain rfl := Option.some.inj hdesc
      exact ⟨.inl ⟨rfl, lower, top, hkept, hholds, hcounts⟩,
        fun hopens => hsafe hopens hnonzero fun hrolls => hstays hrolls.2⟩

/-- A trim keeps what is prepared, and a top that it has cut may be written to. -/
theorem Prepared.trimmed {committed : SpillDescriptor} {r : SpillFs × Bool}
    (h : Prepared c f counted fs desc committed kept) (ht : Trimmed fs c f desc.lastSeq desc.tailBytes r) :
    Prepared c f counted r.1 desc committed kept ∧
      (r.2 = true → Writing c f counted (r.1.append (.live c f desc.lastSeq) []) desc committed kept []) := by
  have hnil : ∀ fr ∈ ([] : List StoredFrame), fr.Valid := fun fr hfr => absurd hfr List.not_mem_nil
  rcases h with ⟨rfl, lower, top, hkept, hholds, hcounts⟩ | ⟨segs, hkept, hholds, hcounts, hexact, hdesc⟩
  · obtain ⟨hheld, hcut⟩ := ht.holds hholds
    refine ⟨.inl ⟨rfl, lower, top, hkept, hheld, hcounts⟩, fun hok => ⟨hnil, ?_⟩⟩
    have hread : r.1.read (.live c f desc.lastSeq) = some (framesBytes top) := hcut hok
    have htop : segmentFiles (r.1.append (.live c f desc.lastSeq) []) c f desc.lastSeq = some (framesBytes top) := by
      show FileSystem.read _ _ = _
      rw [read_append, hread, List.append_nil]
      rfl
    refine .inl ⟨lower, top, hkept, ?_, hcounts, htop, rfl⟩
    exact hheld.stale (by rw [htop, List.append_nil]) fun seq hseq => segmentFiles_append_ne ht.tidy hseq
  · have hlast : desc.lastSeq = committed.lastSeq + 1 := by rw [hdesc]
    have habsent : fs.read (.live c f desc.lastSeq) = none := hholds.absent _ (.inr (.inl (by omega)))
    have hsame : Untouched fs r.1 (.live c f desc.lastSeq) := by
      rcases ht.outcome with ⟨hsame, -⟩ | ⟨-, ⟨bytes, hbytes, -⟩, -⟩
      · exact hsame
      · rw [habsent] at hbytes
        exact absurd hbytes (by simp)
    have hfiles : ∀ seq, segmentFiles r.1 c f seq = segmentFiles fs c f seq := fun seq => by
      by_cases hseq : seq = desc.lastSeq
      · rw [hseq]
        exact segmentFiles_eq hsame
      · exact segmentFiles_eq (ht.others _ (by simpa using hseq) (by simp))
    have hheld := hholds.congr hfiles rfl rfl rfl rfl
    have hexact' : ∀ seg, segs.getLast? = some seg → segmentFiles r.1 c f committed.lastSeq = some (framesBytes seg) :=
      fun seg hseg => (hfiles _).trans (hexact seg hseg)
    refine ⟨.inr ⟨segs, hkept, hheld, hcounts, hexact', hdesc⟩, fun _ => ⟨hnil, ?_⟩⟩
    have habsent' : r.1.read (.live c f desc.lastSeq) = none := (hfiles _).trans habsent
    have hothers : ∀ seq, seq ≠ committed.lastSeq + 1 →
        segmentFiles (r.1.append (.live c f desc.lastSeq) []) c f seq = segmentFiles r.1 c f seq :=
      fun seq hseq => segmentFiles_append_ne ht.tidy (by omega)
    refine .inr ⟨segs, hkept, ?_, hcounts, fun seg hseg => ?_, ?_, by rw [hdesc]; rfl⟩
    · refine hheld.congr (fun seq => ?_) rfl rfl rfl rfl
      by_cases hseq : seq = committed.lastSeq + 1
      · rw [hseq, segmentFiles_unlink_self, ← hlast]
        exact habsent'.symm
      · rw [segmentFiles_unlink_ne hseq, hothers seq hseq]
    · rw [hothers _ (by omega)]
      exact hexact' seg hseg
    · show FileSystem.read _ _ = _
      rw [← hlast, read_append, habsent']
      rfl

/-- The name is apart from the top once that has been cut. -/
theorem Trimmed.apart {r : SpillFs × Bool} (ht : Trimmed fs c f desc.lastSeq desc.tailBytes r) (hn : Foreign c f n)
    (hsafe : Safe fs c f desc n) (hok : r.2 = true) : Apart r.1 c f desc.lastSeq n := by
  rcases ht.outcome with ⟨hsame, hshort⟩ | ⟨-, -, hown⟩
  · by_cases hinode : fs.inode n = none
    · exact .inl (by rw [(ht.untouched hn).1, hinode])
    · right
      rw [(ht.untouched hn).1, hsame.1]
      intro heq
      obtain ⟨i, hi⟩ := Option.ne_none_iff_exists'.mp hinode
      have hlong := hsafe i hi (heq ▸ hi)
      have hread : fs.read (.live c f desc.lastSeq) = some (fs.content i) :=
        FileSystem.read_eq_some_iff.mpr ⟨i, heq ▸ hi, rfl⟩
      exact absurd (hshort hok _ hread) (by omega)
  · exact hown n (hn _).1

/-- An append keeps the inodes apart. -/
theorem Apart.append {seq : Nat} (h : Apart fs c f seq n) (hkeeps : Untouched fs (fs.append (.live c f seq) []) n) :
    Apart (fs.append (.live c f seq) []) c f seq n := by
  rcases h with hnone | hne
  · exact .inl (by rw [hkeeps.1, hnone])
  · right
    rw [hkeeps.1]
    unfold FileSystem.append
    split
    · exact hne
    · rw [FileSystem.inode_create_self]
      intro heq
      exact absurd (FileSystem.inode_lt heq) (Nat.lt_irrefl _)

/-- Opening the top: it is cut to the frames it holds, or nothing has happened. -/
theorem spillOpenTop_spec (htidy : Tidy st.fs) (hhandle : st.handle = none)
    (h : Prepared c f counted st.fs st.desc st.committedDesc kept) (hn : Foreign c f n)
    (env : FrameEnv) (hsafe : env.opens = true → Safe st.fs c f st.desc n) :
    ∃ fs', Tidy fs' ∧ Untouched st.fs fs' n ∧
      ((spillOpenTop c f env st = { st with fs := fs', ok := false } ∧
          Prepared c f counted fs' st.desc st.committedDesc kept) ∨
        (spillOpenTop c f env st = { st with fs := fs', handle := some [] } ∧
          Writing c f counted fs' st.desc st.committedDesc kept [] ∧ Apart fs' c f st.desc.lastSeq n)) := by
  have ht := spillTrim_spec htidy c f st.desc.lastSeq st.desc.tailBytes env.trims
  unfold spillOpenTop
  rw [hhandle]
  dsimp only
  generalize spillTrimSegmentToTail st.fs c f st.desc.lastSeq st.desc.tailBytes env.trims = r at ht
  obtain ⟨hprepared, hwriting⟩ := h.trimmed ht
  split
  · rename_i hopen
    rw [Bool.and_eq_true] at hopen
    have hapart := ht.apart hn (hsafe hopen.2) hopen.1
    exact ⟨_, ht.tidy.append c f st.desc.lastSeq [], (ht.untouched hn).trans (untouched_append (hn _).1 hapart),
      .inr ⟨rfl, hwriting hopen.1, hapart.append (untouched_append (hn _).1 hapart)⟩⟩
  · exact ⟨r.1, ht.tidy, ht.untouched hn, .inl ⟨rfl, hprepared⟩⟩

/-! ## The loop -/

variable {fs₀ : SpillFs} {base frames rest : List StoredFrame} {i : Nat}

/-- The state before a frame: all earlier ones are synced or written to the open top. -/
structure Appending (c : Bool) (f : Nat) (counted : Prop) (fs₀ : SpillFs) (n : SpillName) (base frames : List StoredFrame)
    (i : Nat) (st : AppendState) : Prop where
  ok : st.ok = true
  tidy : Tidy st.fs
  untouched : Untouched fs₀ st.fs n
  committed_le : st.committed ≤ i
  phase : (st.handle = none ∧ st.desc = st.committedDesc ∧ st.committed = i ∧
      Kept c f counted st.fs st.desc (base ++ frames.take i)) ∨
    ∃ new, new ≠ [] ∧ st.handle = some (framesBytes new) ∧
      Writing c f counted st.fs st.desc st.committedDesc (base ++ frames.take st.committed) new ∧
      frames.take st.committed ++ new = frames.take i ∧ Apart st.fs c f st.desc.lastSeq n

/-- The state after a failure: whatever the last close writes, the synced frames can be kept. -/
structure AppendFailed (c : Bool) (f : Nat) (counted : Prop) (fs₀ : SpillFs) (n : SpillName) (base frames : List StoredFrame)
    (st : AppendState) : Prop where
  ok : st.ok = false
  tidy : Tidy st.fs
  untouched : Untouched fs₀ st.fs n
  committed_le : st.committed ≤ frames.length
  closed : st.handle = none → Kept c f counted (cleanUp c f st.fs st.desc st.committedDesc) st.committedDesc
    (base ++ frames.take st.committed)
  opened : ∀ pending, st.handle = some pending → Apart st.fs c f st.desc.lastSeq n ∧ ∀ junk,
    Kept c f counted (cleanUp c f (st.fs.append (.live c f st.desc.lastSeq) junk) st.desc st.committedDesc)
      st.committedDesc (base ++ frames.take st.committed)

/-- Closing the top before it rolls syncs the frames written to it. -/
theorem spillCloseBeforeRoll_spec (h : Appending c f counted fs₀ n base frames i st) (hn : Foreign c f n)
    (hi : i ≤ frames.length) (env : FrameEnv) :
    AppendFailed c f counted fs₀ n base frames (spillCloseBeforeRoll c f segmentRecords i fr env st) ∨
      (Appending c f counted fs₀ n base frames i (spillCloseBeforeRoll c f segmentRecords i fr env st) ∧
        ((spillCloseBeforeRoll c f segmentRecords i fr env st).handle = none →
          spillCloseBeforeRoll c f segmentRecords i fr env st = st ∨
            Rolls (spillCloseBeforeRoll c f segmentRecords i fr env st).desc segmentRecords fr.info.records) ∧
        ((spillCloseBeforeRoll c f segmentRecords i fr env st).handle ≠ none →
          ¬ Rolls (spillCloseBeforeRoll c f segmentRecords i fr env st).desc segmentRecords fr.info.records)) := by
  rcases h.phase with ⟨hnone, -, -, -⟩ | ⟨new, hne, hhandle, hwriting, htake, hapart⟩
  · have hsame : spillCloseBeforeRoll c f segmentRecords i fr env st = st := by
      unfold spillCloseBeforeRoll
      rw [hnone]
    rw [hsame]
    exact .inr ⟨h, fun _ => .inl rfl, fun hsome => absurd hnone hsome⟩
  · have htidy : ∀ bytes, Tidy (st.fs.append (.live c f st.desc.lastSeq) bytes) := fun bytes =>
      h.tidy.append c f _ bytes
    have huntouched : ∀ bytes, Untouched fs₀ (st.fs.append (.live c f st.desc.lastSeq) bytes) n := fun bytes =>
      h.untouched.trans (untouched_append (hn _).1 hapart)
    unfold spillCloseBeforeRoll
    rw [hhandle]
    dsimp only
    split
    · rename_i hrolls
      unfold spillCloseSynced
      by_cases hclose : env.closes = true
      · rw [if_pos hclose, if_pos rfl]
        refine .inr ⟨⟨h.ok, htidy _, huntouched _, Nat.le_refl i, .inl ⟨rfl, rfl, rfl, ?_⟩⟩,
          fun _ => .inr hrolls, fun hsome => absurd rfl hsome⟩
        have hkept := hwriting.commit h.tidy hne
        rwa [List.append_assoc, htake] at hkept
      · rw [if_neg hclose, if_neg (by simp)]
        exact .inl ⟨rfl, htidy _, huntouched _, Nat.le_trans h.committed_le hi,
          fun _ => hwriting.fail h.tidy _, fun pending hpending => absurd hpending (by simp)⟩
    · rename_i hstays
      refine .inr ⟨h, fun hnone => absurd (hhandle.symm.trans hnone) (by simp), fun _ => hstays⟩

/-- Writing a frame to the open top. -/
theorem spillWriteFrame_spec (hok : st.ok = true) (htidy : Tidy st.fs) (huntouched : Untouched fs₀ st.fs n)
    (hle : st.committed ≤ i) (hhandle : st.handle = some (framesBytes new))
    (hwriting : Writing c f counted st.fs st.desc st.committedDesc (base ++ frames.take st.committed) new)
    (htake : frames.take st.committed ++ new = frames.take i) (hapart : Apart st.fs c f st.desc.lastSeq n)
    (hfr : frames[i]? = some fr) (hvalid : fr.Valid) (env : FrameEnv) :
    Appending c f counted fs₀ n base frames (i + 1) (spillWriteFrame fr env st) ∨
      AppendFailed c f counted fs₀ n base frames (spillWriteFrame fr env st) := by
  have hi : i < frames.length := (List.getElem?_eq_some_iff.mp hfr).1
  unfold spillWriteFrame
  rw [hhandle, Option.getD_some]
  split
  · right
    exact ⟨rfl, htidy, huntouched, Nat.le_trans hle (Nat.le_of_lt hi), fun hnone => absurd hnone (by simp),
      fun pending _ => ⟨hapart, fun junk => hwriting.fail htidy junk⟩⟩
  · left
    refine ⟨hok, htidy, huntouched, Nat.le_succ_of_le hle, .inr ⟨new ++ [fr], by simp, ?_, hwriting.snoc hvalid, ?_,
      hapart⟩⟩
    · rw [framesBytes_append, framesBytes_cons, framesBytes_nil, List.append_nil]
    · show frames.take st.committed ++ (new ++ [fr]) = _
      rw [← List.append_assoc, htake, List.take_add_one, hfr]
      rfl

/-- One round of the loop. -/
theorem spillAppendLoop_cons (env : AppendEnv) (hn : Foreign c f n) (hfr : frames[i]? = some fr) (hvalid : fr.Valid)
    (h : Appending c f counted fs₀ n base frames i st)
    (hsafe : st.handle = none → (env.frame i).opens = true → st.desc.lastSeq ≠ 0 →
      ¬ Rolls st.desc segmentRecords fr.info.records → Safe st.fs c f st.desc n) (rest : List StoredFrame) :
    AppendFailed c f counted fs₀ n base frames (spillAppendLoop c f segmentRecords env (fr :: rest) i st) ∨
      ∃ st', spillAppendLoop c f segmentRecords env (fr :: rest) i st =
          spillAppendLoop c f segmentRecords env rest (i + 1) st' ∧
        Appending c f counted fs₀ n base frames (i + 1) st' ∧ st'.handle ≠ none := by
  have hi : i < frames.length := (List.getElem?_eq_some_iff.mp hfr).1
  -- A frame written ends the round.
  have hround : ∀ {opened : AppendState}, opened.ok = true →
      (Appending c f counted fs₀ n base frames (i + 1) (spillWriteFrame fr (env.frame i) opened) ∨
        AppendFailed c f counted fs₀ n base frames (spillWriteFrame fr (env.frame i) opened)) →
      AppendFailed c f counted fs₀ n base frames (if (!opened.ok) = true then opened else
          if (!(spillWriteFrame fr (env.frame i) opened).ok) = true then spillWriteFrame fr (env.frame i) opened
          else spillAppendLoop c f segmentRecords env rest (i + 1) (spillWriteFrame fr (env.frame i) opened)) ∨
        ∃ st', (if (!opened.ok) = true then opened else
          if (!(spillWriteFrame fr (env.frame i) opened).ok) = true then spillWriteFrame fr (env.frame i) opened
          else spillAppendLoop c f segmentRecords env rest (i + 1) (spillWriteFrame fr (env.frame i) opened)) =
            spillAppendLoop c f segmentRecords env rest (i + 1) st' ∧
          Appending c f counted fs₀ n base frames (i + 1) st' ∧ st'.handle ≠ none := by
    intro opened hopened hwrite
    rw [if_neg (by rw [hopened]; decide)]
    rcases hwrite with hwrite | hwrite
    · rw [if_neg (by rw [hwrite.ok]; decide)]
      refine .inr ⟨_, rfl, hwrite, ?_⟩
      unfold spillWriteFrame
      split <;> simp
    · rw [if_pos (by rw [hwrite.ok]; rfl)]
      exact .inl hwrite
  rw [spillAppendLoop]
  dsimp only
  rcases spillCloseBeforeRoll_spec h hn (Nat.le_of_lt hi) (env.frame i)
    with hfail | ⟨hclosed, hnone, hsome⟩
  · rw [if_pos (by rw [hfail.ok]; rfl)]
    exact .inl hfail
  · have hsafe' : (spillCloseBeforeRoll c f segmentRecords i fr (env.frame i) st).handle = none →
        (env.frame i).opens = true →
        (spillCloseBeforeRoll c f segmentRecords i fr (env.frame i) st).desc.lastSeq ≠ 0 →
        ¬ Rolls (spillCloseBeforeRoll c f segmentRecords i fr (env.frame i) st).desc segmentRecords fr.info.records →
        Safe (spillCloseBeforeRoll c f segmentRecords i fr (env.frame i) st).fs c f
          (spillCloseBeforeRoll c f segmentRecords i fr (env.frame i) st).desc n := by
      intro hhandle hopens hlast hstays
      rcases hnone hhandle with hsame | hrolls
      · rw [hsame] at hhandle hlast hstays ⊢
        exact hsafe hhandle hopens hlast hstays
      · exact absurd hrolls hstays
    generalize spillCloseBeforeRoll c f segmentRecords i fr (env.frame i) st = closed at hclosed hsome hsafe'
    rw [if_neg (by rw [hclosed.ok]; decide)]
    rcases hclosed.phase with ⟨hhandle, hdesc, hcommitted, hkept⟩ | ⟨new, hne, hhandle, hwriting, htake, hapart⟩
    · -- The top is not open: it is prepared and opened.
      have hprepare := spillPrepareTop_spec hclosed.tidy hkept hn (hsafe' hhandle) (env.frame i).trimsOld
      generalize spillPrepareTop closed.fs c f closed.desc segmentRecords fr.info.records (env.frame i).trimsOld =
        prepared at hprepare
      obtain ⟨fs, desc'⟩ := prepared
      obtain ⟨htidy, huntouched, hstop, hgo⟩ := hprepare
      have huntouched := hclosed.untouched.trans huntouched
      cases desc' with
      | none =>
        left
        refine ⟨rfl, htidy, huntouched, Nat.le_trans (Nat.le_of_eq hcommitted) (Nat.le_of_lt hi), fun _ => ?_,
          fun pending hpending => absurd (hhandle.symm.trans hpending) (by simp)⟩
        rw [← hdesc, cleanUp, if_neg (by simp), hcommitted]
        exact hstop rfl
      | some desc =>
        obtain ⟨hprepared, hsafe⟩ := hgo desc rfl
        rw [hdesc] at hprepared
        let next : AppendState := { closed with fs := fs, desc := desc }
        have hfresh : Tidy next.fs := htidy
        obtain ⟨fs', htidy', huntouched', hopen⟩ := spillOpenTop_spec hfresh hhandle hprepared hn (env.frame i) hsafe
        have huntouched' := huntouched.trans huntouched'
        dsimp only at hopen ⊢
        rcases hopen with ⟨hopened, hprepared'⟩ | ⟨hopened, hwriting, hapart⟩
        · rw [hopened, if_pos (by rfl)]
          left
          refine ⟨rfl, htidy', huntouched', Nat.le_trans (Nat.le_of_eq hcommitted) (Nat.le_of_lt hi), fun _ => ?_,
            fun pending hpending => absurd (hhandle.symm.trans hpending) (by simp)⟩
          have hfail := hprepared'.fail
          rwa [← hcommitted] at hfail
        · rw [hopened]
          rw [← hcommitted] at hwriting
          have htake : frames.take closed.committed ++ [] = frames.take i := by rw [List.append_nil, hcommitted]
          let st' : AppendState := { closed with fs := fs', desc := desc, handle := some [] }
          have hok : st'.ok = true := hclosed.ok
          have hwrite := spillWriteFrame_spec hok htidy' huntouched' (Nat.le_of_eq hcommitted) rfl
            hwriting htake hapart hfr hvalid (env.frame i)
          exact hround hclosed.ok hwrite
    · -- The top is open and takes the frame.
      have hstays := hsome (by rw [hhandle]; simp)
      have hlast : closed.desc.lastSeq ≠ 0 := by
        obtain ⟨-, ⟨lower, top, -, hholds, -, -, hdesc⟩ | ⟨_, -, -, -, -, -, hdesc⟩⟩ := hwriting
        · rw [hdesc]
          exact mt hholds.lastSeq_eq_zero.mp (by simp)
        · rw [hdesc]
          exact Nat.succ_ne_zero _
      have hprepare : spillPrepareTop closed.fs c f closed.desc segmentRecords fr.info.records
          (env.frame i).trimsOld = (closed.fs, some closed.desc) := by
        rw [spillPrepareTop, if_neg hlast, if_neg fun hroll => hstays ⟨hlast, hroll⟩]
      have hopened : spillOpenTop c f (env.frame i) closed = closed := by
        unfold spillOpenTop
        rw [hhandle]
      rw [hprepare]
      dsimp only
      rw [hopened]
      exact hround hclosed.ok (spillWriteFrame_spec hclosed.ok hclosed.tidy hclosed.untouched hclosed.committed_le
        hhandle hwriting htake hapart hfr hvalid (env.frame i))

/-- The loop: all frames are in or written, or a failure has kept some of them. -/
theorem spillAppendLoop_spec (env : AppendEnv) (hn : Foreign c f n) (hvalid : ∀ fr ∈ frames, fr.Valid)
    (hi : i ≤ frames.length) (hrest : frames.drop i = rest) (h : Appending c f counted fs₀ n base frames i st)
    (hsafe : st.handle = none → (env.frame i).opens = true → ∀ fr, frames[i]? = some fr → st.desc.lastSeq ≠ 0 →
      ¬ Rolls st.desc segmentRecords fr.info.records → Safe st.fs c f st.desc n) :
    Appending c f counted fs₀ n base frames frames.length (spillAppendLoop c f segmentRecords env rest i st) ∨
      AppendFailed c f counted fs₀ n base frames (spillAppendLoop c f segmentRecords env rest i st) := by
  induction rest generalizing i st with
  | nil =>
    obtain rfl : i = frames.length := Nat.le_antisymm hi (List.drop_eq_nil_iff.mp hrest)
    exact .inl h
  | cons fr rest ih =>
    have hfr : frames[i]? = some fr := by
      rw [← List.head?_drop, hrest]
      rfl
    have hlt : i < frames.length := (List.getElem?_eq_some_iff.mp hfr).1
    rcases spillAppendLoop_cons env hn hfr (hvalid fr (List.mem_of_getElem? hfr)) h
      (fun hnone hopens => hsafe hnone hopens fr hfr) rest with hfail | ⟨st', hloop, hst', hhandle⟩
    · exact .inr hfail
    · rw [hloop]
      refine ih hlt ?_ hst' fun hnone => absurd hnone hhandle
      rw [← List.tail_drop, hrest]
      rfl

/-- What an append leaves: a prefix of its frames is in, and foreign files are as before unless they
share the top and that is written to in place. -/
theorem spillAppendFrames_spec (htidy : Tidy fs) (h : Kept c f counted fs desc kept)
    (hvalid : ∀ fr ∈ frames, fr.Valid) (segmentRecords : Nat) (env : AppendEnv) :
    Tidy (spillAppendFrames fs c f desc segmentRecords frames env).1 ∧
      (spillAppendFrames fs c f desc segmentRecords frames env).2.2 ≤ frames.length ∧
      Kept c f counted (spillAppendFrames fs c f desc segmentRecords frames env).1
        (spillAppendFrames fs c f desc segmentRecords frames env).2.1
        (kept ++ frames.take (spillAppendFrames fs c f desc segmentRecords frames env).2.2) ∧
      ∀ n, Foreign c f n → ((env.frame 0).opens = true → ∀ fr, frames.head? = some fr → desc.lastSeq ≠ 0 →
          ¬ Rolls desc segmentRecords fr.info.records → Safe fs c f desc n) →
        Untouched fs (spillAppendFrames fs c f desc segmentRecords frames env).1 n := by
  have hrun : ∀ n, Foreign c f n → ((env.frame 0).opens = true → ∀ fr, frames.head? = some fr → desc.lastSeq ≠ 0 →
        ¬ Rolls desc segmentRecords fr.info.records → Safe fs c f desc n) →
      Tidy (spillAppendFrames fs c f desc segmentRecords frames env).1 ∧
      (spillAppendFrames fs c f desc segmentRecords frames env).2.2 ≤ frames.length ∧
      Kept c f counted (spillAppendFrames fs c f desc segmentRecords frames env).1
        (spillAppendFrames fs c f desc segmentRecords frames env).2.1
        (kept ++ frames.take (spillAppendFrames fs c f desc segmentRecords frames env).2.2) ∧
      Untouched fs (spillAppendFrames fs c f desc segmentRecords frames env).1 n := by
    intro n hn hsafe
    have hstart : Appending c f counted fs n kept frames 0 ⟨fs, desc, desc, 0, none, true⟩ :=
      ⟨rfl, htidy, .refl fs n, Nat.le_refl 0, .inl ⟨rfl, rfl, rfl, by rwa [List.take_zero, List.append_nil]⟩⟩
    have hloop := spillAppendLoop_spec env hn hvalid (Nat.zero_le _) List.drop_zero
      hstart fun _ hopens fr hfr => hsafe hopens fr (by rwa [List.head?_eq_getElem?])
    unfold spillAppendFrames
    generalize spillAppendLoop c f segmentRecords env frames 0 ⟨fs, desc, desc, 0, none, true⟩ = st at hloop
    unfold spillAppendEnd spillCloseSynced
    rcases hloop with hloop | hloop
    · rcases hloop.phase with ⟨hhandle, hdesc, hcommitted, hkept⟩ | ⟨new, hne, hhandle, hwriting, htake, hapart⟩
      · rw [hhandle]
        dsimp only
        rw [if_pos hloop.ok, hcommitted]
        exact ⟨hloop.tidy, Nat.le_refl _, hkept, hloop.untouched⟩
      · have huntouched : ∀ bytes, Untouched fs (st.fs.append (.live c f st.desc.lastSeq) bytes) n := fun bytes =>
          hloop.untouched.trans (untouched_append (hn _).1 hapart)
        rw [hhandle]
        dsimp only
        by_cases hclose : env.closes = true
        · rw [if_pos hclose, hloop.ok]
          have hkept := hwriting.commit hloop.tidy hne
          rw [List.append_assoc, htake] at hkept
          exact ⟨hloop.tidy.append c f _ _, Nat.le_refl _, hkept, huntouched _⟩
        · rw [if_neg hclose]
          have hcleaned := hwriting.fail hloop.tidy ((framesBytes new).take env.closeKeeps)
          refine ⟨?_, hloop.committed_le, hcleaned, ?_⟩
          · show Tidy (cleanUp c f _ st.desc st.committedDesc)
            unfold cleanUp
            split
            · exact (hloop.tidy.append c f _ _).unlink _
            · exact hloop.tidy.append c f _ _
          · show Untouched fs (cleanUp c f _ st.desc st.committedDesc) n
            unfold cleanUp
            split
            · exact (huntouched _).trans (untouched_unlink (hn _).1)
            · exact huntouched _
    · cases hhandle : st.handle with
      | none =>
        dsimp only
        rw [if_neg (by rw [hloop.ok]; decide)]
        refine ⟨?_, hloop.committed_le, hloop.closed hhandle, ?_⟩
        · split
          · exact hloop.tidy.unlink _
          · exact hloop.tidy
        · split
          · exact hloop.untouched.trans (untouched_unlink (hn _).1)
          · exact hloop.untouched
      | some pending =>
        obtain ⟨hapart, hkept⟩ := hloop.opened pending hhandle
        have huntouched : ∀ bytes, Untouched fs (st.fs.append (.live c f st.desc.lastSeq) bytes) n := fun bytes =>
          hloop.untouched.trans (untouched_append (hn _).1 hapart)
        have hend : ∀ bytes, Tidy (cleanUp c f (st.fs.append (.live c f st.desc.lastSeq) bytes) st.desc
            st.committedDesc) ∧
            Untouched fs (cleanUp c f (st.fs.append (.live c f st.desc.lastSeq) bytes) st.desc st.committedDesc) n := by
          intro bytes
          unfold cleanUp
          split
          · exact ⟨(hloop.tidy.append c f _ _).unlink _, (huntouched _).trans (untouched_unlink (hn _).1)⟩
          · exact ⟨hloop.tidy.append c f _ _, huntouched _⟩
        dsimp only
        by_cases hclose : env.closes = true
        · rw [if_pos hclose, hloop.ok]
          exact ⟨(hend _).1, hloop.committed_le, hkept _, (hend _).2⟩
        · rw [if_neg hclose]
          exact ⟨(hend _).1, hloop.committed_le, hkept _, (hend _).2⟩
  -- A segment of the other pool is foreign and safe.
  have hfree : ∃ n, Foreign c f n ∧ Safe fs c f desc n :=
    ⟨.live (!c) f 0, fun seq => ⟨by simp, by simp⟩, fun i hi hi' =>
      absurd (htidy.live_inj hi hi') (by simp)⟩
  obtain ⟨n, hn, hsafe⟩ := hfree
  obtain ⟨h₁, h₂, h₃, -⟩ := hrun n hn fun _ _ _ _ _ => hsafe
  exact ⟨h₁, h₂, h₃, fun n hn hsafe => (hrun n hn hsafe).2.2.2⟩

end Append
