-- SUMMARY: Moving a verified segment to the unverified stack: rewritten, renamed as a new top, and only then removed.
import EternityII.Spill.Reload

/-!
# Clearing the verified flag on disk

The flag is in each record, so that a segment changes stacks by being rewritten. The bottom of the
verified stack is rewritten to a `.tmp`, which becomes a new top of the unverified stack; only then
the original goes. A failure leaves the segment where it was.
-/

section Model

variable (P : Puzzle) (tier : TierCodec)

/-- A move: the opens of the rewrite, after how many bytes a write fails, the close, the scans and
the trim of the unverified stack, and the `rename`. -/
structure ResetEnv where
  opensTmp : Bool
  opensSrc : Bool
  failsAfter : Option Nat
  closes : Bool
  scans : Nat → Bool
  trims : TrimEnv
  renames : Bool

/-- `spill_reset_frame`: the frame with the flag of its records cleared. -/
def spillResetFrame (fr : StoredFrame) : Option StoredFrame :=
  match stockTierUnpack P tier fr.info.codec fr.stored fr.info.rawBytes fr.info.records with
  | none => none
  | some raw =>
    let cleared := rawRecordsClearChecked P raw
    match stockTierPack P tier cleared (stockTierPackBound tier stockTierBlockBytes) with
    | none => none
    | some (codec, stored, packed) =>
      if packed ≠ fr.info.records then none
      else some ⟨⟨codec, packed, cleared.length, stored.length⟩, stored⟩

/-- `ctx->bytes`. -/
def framesSize (frames : List StoredFrame) : Nat := (frames.map fun fr => spillFrameBytes fr.info).sum

/-- The frames `spill_reset_rewrite` goes through. -/
def resetFrames (content : List Byte) (limit : Nat) : Option (List StoredFrame) :=
  let stored := spillForEachStoredFrame content (some limit)
  if stored.2 then stored.1.mapM (spillResetFrame P tier) else none

/-- `spill_reset_rewrite` of a verified segment to its `.tmp`: the frames written. -/
def spillResetRewrite (fs : SpillFs) (file seq limit : Nat) (env : ResetEnv) :
    SpillFs × Option (List StoredFrame) :=
  let src := SpillName.live true file seq
  let tmp := SpillName.tmp true file seq
  if limit = 0 then (fs, some [])
  else if !env.opensTmp then (fs.unlink tmp, none)
  else
    let opened := fs.overwrite tmp []
    match (if env.opensSrc then opened.read src else none).bind fun content => resetFrames P tier content limit with
    | none => (opened.unlink tmp, none)
    | some frames =>
      match env.failsAfter with
      | some k => ((opened.overwrite tmp ((framesBytes frames).take k)).unlink tmp, none)
      | none =>
        let written := opened.overwrite tmp (framesBytes frames)
        if env.closes then (written, some frames) else (written.unlink tmp, none)

/-- The start of `spill_reset_commit_locked`: the rewritten segment becomes the top of the
unverified stack. -/
def resetPushTop (s : Spill) (file seq : Nat) (frames : List StoredFrame) (env : ResetEnv) : Spill × Bool :=
  let dst := s.desc false file
  let tmp := SpillName.tmp true file seq
  let dropped := spillDropEmptyTops false file env.scans (dst.lastSeq + 1) s.fs dst
  let trimmed :=
    if dropped.2.lastSeq ≠ 0 then
      spillTrimSegmentToTail dropped.1 false file dropped.2.lastSeq dropped.2.tailBytes env.trims
    else (dropped.1, true)
  let failed := s.put false file (trimmed.1.unlink tmp) dropped.2
  if !trimmed.2 then (failed, false)
  else
    match if env.renames then trimmed.1.rename tmp (.live false file (dropped.2.lastSeq + 1)) else none with
    | none => (failed, false)
    | some renamed => (s.put false file renamed { dropped.2 with
        firstSeq := if dropped.2.lastSeq = 0 then 1 else dropped.2.firstSeq
        lastSeq := dropped.2.lastSeq + 1
        tailBytes := framesSize frames
        tailRecords := framesRecords frames
        packets := dropped.2.packets + framesRecords frames }, true)

/-- The end of `spill_reset_commit_locked`: the original goes from the bottom of its stack. -/
def resetPopBottom (s : Spill) (file seq : Nat) (isTop : Bool) (frames : List StoredFrame) : Spill :=
  let src := s.desc true file
  let packets := if src.packets > framesRecords frames then src.packets - framesRecords frames else 0
  s.put true file (s.fs.unlink (.live true file seq))
    (if isTop then { src with firstSeq := 0, lastSeq := 0, tailBytes := 0, tailRecords := 0, packets := 0 }
    else { src with firstSeq := src.firstSeq + 1, packets := packets })

/-- `spill_reset_commit_locked`: the records moved, `none` when nothing is. -/
def spillResetCommit (s : Spill) (file seq : Nat) (isTop : Bool) (limit : Nat) (frames : List StoredFrame)
    (env : ResetEnv) : Spill × Option Nat :=
  if limit > 0 then
    let pushed := resetPushTop s file seq frames env
    if pushed.2 then (resetPopBottom pushed.1 file seq isTop frames, some (framesRecords frames))
    else (pushed.1, none)
  else (resetPopBottom s file seq isTop frames, some 0)

/-- A round of `spill_reset_checked_file_locked`, on the bottom of the verified stack. -/
def resetBottom (s : Spill) (file : Nat) (env : ResetEnv) : Spill × Option Nat :=
  let src := s.desc true file
  let seq := src.firstSeq
  let isTop := decide (seq = src.lastSeq)
  match if isTop then some src.tailBytes else (s.fs.read (.live true file seq)).map List.length with
  | none => (s, none)
  | some limit =>
    match spillResetRewrite P tier s.fs file seq limit env with
    | (fs, none) => ({ s with fs := fs }, none)
    | (fs, some frames) => spillResetCommit { s with fs := fs } file seq isTop limit frames env

/-- The loop of `spill_reset_checked_file_locked`: the records moved and those left. -/
def resetCheckedFileLoop (file : Nat) (env : Nat → ResetEnv) : Nat → Spill → Nat → Spill × Nat × Nat
  | 0, s, moved => (s, moved, 0)
  | fuel + 1, s, moved =>
    if (s.desc true file).lastSeq = 0 then (s, moved, 0)
    else
      match resetBottom P tier s file (env (s.desc true file).firstSeq) with
      | (s', none) => (s', moved, (s'.desc true file).packets)
      | (s', some k) => resetCheckedFileLoop file env fuel s' (moved + k)

/-- `spill_reset_checked_file_locked`. -/
def spillResetCheckedFileLocked (s : Spill) (file : Nat) (env : Nat → ResetEnv) : Spill × Nat × Nat :=
  resetCheckedFileLoop P tier file env ((s.desc true file).lastSeq + 1) s 0

end Model

/-! ## The rewrite -/

section Rewrite

variable {P : Puzzle} {tier : TierCodec} {fs : SpillFs} {f seq : Nat} {fr fr' : StoredFrame}
  {seg frames : List StoredFrame} {junk : List Byte} {env : ResetEnv}

/-- A rewritten frame is a frame of as many records. -/
theorem spillResetFrame_spec (h : spillResetFrame P tier fr = some fr') :
    fr'.Valid ∧ fr'.info.records = fr.info.records := by
  unfold spillResetFrame at h
  split at h
  · exact absurd h (by simp)
  · dsimp only at h
    split at h
    · exact absurd h (by simp)
    · rename_i codec stored packed hpack
      split at h
      · exact absurd h (by simp)
      · rename_i hrecords
        obtain rfl := Option.some.inj h
        exact ⟨StoredFrame.Valid.of_pack hpack, by simpa using hrecords⟩

theorem mapM_resetFrame_spec (h : seg.mapM (spillResetFrame P tier) = some frames) :
    (∀ fr ∈ frames, fr.Valid) ∧ framesRecords frames = framesRecords seg ∧ (seg ≠ [] → frames ≠ []) := by
  induction seg generalizing frames with
  | nil =>
    obtain rfl : [] = frames := by simpa using h
    exact ⟨fun fr hfr => absurd hfr List.not_mem_nil, rfl, fun hne => hne⟩
  | cons fr seg ih =>
    rw [List.mapM_cons] at h
    obtain ⟨fr', hfr, frames, hframes, rfl⟩ : ∃ fr', spillResetFrame P tier fr = some fr' ∧ ∃ frames',
        seg.mapM (spillResetFrame P tier) = some frames' ∧ fr' :: frames' = frames := by
      simpa [Option.bind_eq_some_iff] using h
    obtain ⟨hvalid, hrecords⟩ := spillResetFrame_spec hfr
    obtain ⟨hvalids, hsum, -⟩ := ih hframes
    refine ⟨fun fr'' hmem => ?_, by rw [framesRecords_cons, framesRecords_cons, hrecords, hsum],
      fun _ => List.cons_ne_nil _ _⟩
    rcases List.mem_cons.mp hmem with rfl | hmem
    · exact hvalid
    · exact hvalids fr'' hmem

theorem framesSize_eq (h : ∀ fr ∈ frames, fr.Valid) : framesSize frames = (framesBytes frames).length := by
  induction frames with
  | nil => rfl
  | cons fr frames ih =>
    have hrest := ih fun fr' h' => h fr' (List.mem_cons_of_mem _ h')
    unfold framesSize at hrest ⊢
    rw [List.map_cons, List.sum_cons, hrest, framesBytes_cons, List.length_append,
      (h fr List.mem_cons_self).length_bytes]

/-- A rewrite writes its `.tmp` and nothing else, and leaves the rewritten frames there or no file. -/
theorem spillResetRewrite_spec (htidy : Tidy fs) (hvalid : ∀ fr ∈ seg, fr.Valid) (hne : seg ≠ [])
    (hread : fs.read (.live true f seq) = some (framesBytes seg ++ junk)) :
    Tidy (spillResetRewrite P tier fs f seq (framesBytes seg).length env).1 ∧
      (∀ n, n ≠ SpillName.tmp true f seq →
        Untouched fs (spillResetRewrite P tier fs f seq (framesBytes seg).length env).1 n) ∧
      ∀ frames, (spillResetRewrite P tier fs f seq (framesBytes seg).length env).2 = some frames →
        seg.mapM (spillResetFrame P tier) = some frames ∧
        (spillResetRewrite P tier fs f seq (framesBytes seg).length env).1.read (.tmp true f seq) =
          some (framesBytes frames) := by
  have hpos := framesBytes_length_pos hvalid hne
  obtain ⟨hopened, hothers⟩ := htidy.overwrite_tmp true f seq []
  -- A rewrite that fails leaves no `.tmp`.
  have hfail : ∀ bytes, Tidy (((fs.overwrite (.tmp true f seq) []).overwrite (.tmp true f seq) bytes).unlink
      (.tmp true f seq)) ∧ ∀ n, n ≠ SpillName.tmp true f seq → Untouched fs (((fs.overwrite (.tmp true f seq)
        []).overwrite (.tmp true f seq) bytes).unlink (.tmp true f seq)) n := by
    intro bytes
    obtain ⟨hwritten, hrest⟩ := hopened.overwrite_tmp true f seq bytes
    exact ⟨hwritten.unlink _, fun n hn => ((hothers n hn).trans (hrest n hn)).trans (untouched_unlink hn)⟩
  unfold spillResetRewrite
  dsimp only
  rw [if_neg (by omega)]
  split
  · exact ⟨htidy.unlink _, fun n hn => untouched_unlink hn, fun frames hframes => absurd hframes (by simp)⟩
  · split
    · exact ⟨hopened.unlink _, fun n hn => (hothers n hn).trans (untouched_unlink hn),
        fun frames hframes => absurd hframes (by simp)⟩
    · rename_i frames hframes
      have hmapM : seg.mapM (spillResetFrame P tier) = some frames := by
        obtain ⟨content, hcontent, hreset⟩ := Option.bind_eq_some_iff.mp hframes
        split at hcontent
        · rw [(hothers _ (by simp)).2, hread] at hcontent
          obtain rfl := Option.some.inj hcontent
          unfold resetFrames at hreset
          rwa [spillForEachStoredFrame_framesBytes hvalid, if_pos rfl] at hreset
        · exact absurd hcontent (by simp)
      split
      · exact ⟨(hfail _).1, (hfail _).2, fun frames hframes => absurd hframes (by simp)⟩
      · split
        · obtain ⟨hwritten, hrest⟩ := hopened.overwrite_tmp true f seq (framesBytes frames)
          refine ⟨hwritten, fun n hn => (hothers n hn).trans (hrest n hn), fun frames' hframes' => ?_⟩
          obtain rfl := Option.some.inj hframes'
          exact ⟨hmapM, FileSystem.read_overwrite⟩
        · exact ⟨(hfail _).1, (hfail _).2, fun frames hframes => absurd hframes (by simp)⟩

end Rewrite

/-! ## The commit -/

section Commit

variable {P : Puzzle} {tier : TierCodec} {s : Spill} {fs fs' : SpillFs} {c : Bool} {f seq : Nat}
  {desc : SpillDescriptor} {counted : Prop} {kept : List StoredFrame} {seg frames : List StoredFrame}
  {segs rest : List (List StoredFrame)} {env : ResetEnv} {n : SpillName}

/-- A stack whose segments are not touched. -/
theorem Kept.congr (h : Kept c f counted fs desc kept) (hfiles : ∀ seq, Untouched fs fs' (.live c f seq)) :
    Kept c f counted fs' desc kept := by
  obtain ⟨segs, hkept, hholds, hcounts⟩ := h
  exact ⟨segs, hkept, hholds.congr (fun seq => segmentFiles_eq (hfiles seq)) rfl rfl rfl rfl, hcounts⟩

/-- The bottom segment is read to its logical end, be it the top or not. -/
theorem Holds.bottom_limit (h : Holds (segmentFiles fs c f) desc (seg :: rest)) :
    ∃ junk, fs.read (.live c f desc.firstSeq) = some (framesBytes seg ++ junk) ∧
      (if decide (desc.firstSeq = desc.lastSeq) = true then some desc.tailBytes
        else (fs.read (.live c f desc.firstSeq)).map List.length) = some (framesBytes seg).length := by
  obtain ⟨junk, hfile, hexact⟩ := h.file 0 seg rfl
  have hread : fs.read (.live c f desc.firstSeq) = some (framesBytes seg ++ junk) := hfile
  have hseqs := h.seqs (by simp)
  rw [List.length_cons] at hseqs
  refine ⟨junk, hread, ?_⟩
  split
  · rename_i htop
    have hnil : rest = [] := List.eq_nil_of_length_eq_zero (by
      have := of_decide_eq_true htop
      omega)
    rw [h.tail seg (by rw [hnil]; rfl)]
  · rename_i htop
    have hrest : 0 < rest.length := by
      have := of_decide_eq_false (Bool.not_eq_true _ ▸ htop)
      omega
    rw [hread, hexact (by rw [List.length_cons]; omega)]
    simp

/-- The bottom segment unlinked, and the descriptor moved up. -/
theorem Holds.pop_bottom {packets : Nat} (h : Holds (segmentFiles fs c f) desc (seg :: rest))
    (hcounts : counted → CountsTail desc (seg :: rest)) (hpackets : packets + framesRecords seg = desc.packets) :
    Holds (segmentFiles (fs.unlink (.live c f desc.firstSeq)) c f)
        (if desc.firstSeq = desc.lastSeq then
          { desc with firstSeq := 0, lastSeq := 0, tailBytes := 0, tailRecords := 0, packets := packets }
        else { desc with firstSeq := desc.firstSeq + 1, packets := packets }) rest ∧
      (counted → CountsTail
        (if desc.firstSeq = desc.lastSeq then
          { desc with firstSeq := 0, lastSeq := 0, tailBytes := 0, tailRecords := 0, packets := packets }
        else { desc with firstSeq := desc.firstSeq + 1, packets := packets }) rest) := by
  have hseqs := h.seqs (by simp)
  rw [List.length_cons] at hseqs
  have hothers : ∀ seq', seq' ≠ desc.firstSeq →
      segmentFiles (fs.unlink (.live c f desc.firstSeq)) c f seq' = segmentFiles fs c f seq' :=
    fun seq' hne => segmentFiles_unlink_ne hne
  by_cases hnil : rest = []
  · subst hnil
    rw [List.length_nil] at hseqs
    rw [if_pos (by omega)]
    exact ⟨h.drop_bottom segmentFiles_unlink_self hothers (fun _ => ⟨rfl, rfl, rfl⟩)
      (fun hne => absurd rfl hne) hpackets, fun _ => rfl⟩
  · have hlen := List.length_pos_iff.mpr hnil
    rw [if_neg (by omega)]
    refine ⟨h.drop_bottom segmentFiles_unlink_self hothers (fun hnil' => absurd hnil' hnil)
      (fun _ => ⟨rfl, rfl, rfl⟩) hpackets, fun hc => ?_⟩
    have := hcounts hc
    unfold CountsTail at this ⊢
    rw [List.getLast?_cons] at this
    obtain ⟨last, hlast⟩ := Option.ne_none_iff_exists'.mp (mt List.getLast?_eq_none_iff.mp hnil)
    rw [hlast] at this ⊢
    exact this

/-- The top cut to its logical end, if there is one. -/
theorem trimTop_spec (htidy : Tidy fs) (h : Holds (segmentFiles fs c f) desc segs) (env : TrimEnv) {r : SpillFs × Bool}
    (hr : r = if desc.lastSeq ≠ 0 then spillTrimSegmentToTail fs c f desc.lastSeq desc.tailBytes env
      else (fs, true)) :
    Tidy r.1 ∧ (∀ n, Foreign c f n → Untouched fs r.1 n) ∧ Holds (segmentFiles r.1 c f) desc segs ∧
      (r.2 = true → ∀ seg, segs.getLast? = some seg → segmentFiles r.1 c f desc.lastSeq = some (framesBytes seg)) := by
  rcases Holds.cases_top segs with rfl | ⟨lower, top, rfl⟩
  · rw [if_neg (by simp [h.lastSeq_eq_zero])] at hr
    subst hr
    exact ⟨htidy, fun n _ => .refl fs n, h, fun _ seg hseg => absurd hseg (by simp)⟩
  · rw [if_pos (mt h.lastSeq_eq_zero.mp (by simp))] at hr
    have ht := spillTrim_spec htidy c f desc.lastSeq desc.tailBytes env
    rw [← hr] at ht
    obtain ⟨hheld, hexact⟩ := ht.holds h
    refine ⟨ht.tidy, fun n hn => ht.untouched hn, hheld, fun hok seg hseg => ?_⟩
    obtain rfl : top = seg := by simpa using hseg
    exact hexact hok

/-- The rewritten segment is the new top, or nothing has changed. -/
theorem resetPushTop_spec (htidy : Tidy s.fs) (h : Kept false f counted s.fs (s.desc false f) kept)
    (htmp : s.fs.read (.tmp true f seq) = some (framesBytes frames)) (hvalid : ∀ fr ∈ frames, fr.Valid)
    (hne : frames ≠ []) :
    Tidy (resetPushTop s f seq frames env).1.fs ∧
      (∀ n, n ≠ .tmp true f seq → Foreign false f n → Untouched s.fs (resetPushTop s f seq frames env).1.fs n) ∧
      (∀ c' f', ¬ (c' = false ∧ f' = f) → (resetPushTop s f seq frames env).1.desc c' f' = s.desc c' f') ∧
      Kept false f counted (resetPushTop s f seq frames env).1.fs ((resetPushTop s f seq frames env).1.desc false f)
        (if (resetPushTop s f seq frames env).2 then kept ++ frames else kept) := by
  obtain ⟨segs, hkept, hholds, hcounts⟩ := h
  obtain ⟨htidy', hforeign, hheld, hexact⟩ := trimTop_spec htidy hholds env.trims rfl
  unfold resetPushTop
  simp only [spillDropEmptyTops_holds hholds]
  generalize (if (s.desc false f).lastSeq ≠ 0 then spillTrimSegmentToTail s.fs false f (s.desc false f).lastSeq
    (s.desc false f).tailBytes env.trims else (s.fs, true)) = r at htidy' hforeign hheld hexact
  have htmp' : r.1.read (.tmp true f seq) = some (framesBytes frames) := by
    rw [(hforeign _ fun seq => ⟨by simp, by simp⟩).2, htmp]
  -- A failure leaves the stack and no `.tmp`.
  have hfail : Tidy (r.1.unlink (.tmp true f seq)) ∧
      (∀ n, n ≠ .tmp true f seq → Foreign false f n → Untouched s.fs (r.1.unlink (.tmp true f seq)) n) ∧
      Kept false f counted (r.1.unlink (.tmp true f seq)) (s.desc false f) kept :=
    ⟨htidy'.unlink _, fun n hn hforeign' => (hforeign n hforeign').trans (untouched_unlink hn),
      Kept.congr ⟨segs, hkept, hheld, hcounts⟩ fun seq => untouched_unlink (by simp)⟩
  have hdesc : ∀ {fs desc}, ∀ c' f', ¬ (c' = false ∧ f' = f) → (s.put false f fs desc).desc c' f' = s.desc c' f' :=
    fun c' f' hne => Spill.put_desc_of_ne hne
  split
  · exact ⟨hfail.1, hfail.2.1, hdesc, by simpa using hfail.2.2⟩
  · rename_i hok
    obtain ⟨renamed, hrename, htidyNew, hnew, hothers⟩ :=
      htidy'.rename_tmp htmp' false f ((s.desc false f).lastSeq + 1)
    split
    · exact ⟨hfail.1, hfail.2.1, hdesc, by simpa using hfail.2.2⟩
    · rename_i renamed' hrenamed
      obtain rfl : renamed = renamed' := by
        split at hrenamed
        · exact Option.some.inj (hrename.symm.trans hrenamed)
        · exact absurd hrenamed (by simp)
      refine ⟨htidyNew, fun n hn hforeign' => (hforeign n hforeign').trans (hothers n hn (hforeign' _).1), hdesc, ?_⟩
      rw [if_pos rfl, Spill.put_desc_self, Spill.put_fs]
      refine ⟨segs ++ [frames], by rw [← hkept]; simp, hheld.push hvalid hne (hexact (by simpa using hok)) hnew ?_ ?_ rfl
        (framesSize_eq hvalid) rfl, fun _ => by simp [CountsTail]⟩
      · exact fun seq' hseq' => segmentFiles_eq (hothers _ (by simp) (by simpa using hseq'))
      · exact if_congr hholds.lastSeq_eq_zero rfl rfl

/-- The original goes from the bottom. -/
theorem resetPopBottom_spec (h : Holds (segmentFiles s.fs true f) (s.desc true f) (seg :: rest))
    (hcounts : counted → CountsTail (s.desc true f) (seg :: rest)) (hseq : seq = (s.desc true f).firstSeq)
    (hrecords : framesRecords frames = framesRecords seg) :
    Holds (segmentFiles
          (resetPopBottom s f seq (decide ((s.desc true f).firstSeq = (s.desc true f).lastSeq)) frames).fs true f)
        ((resetPopBottom s f seq (decide ((s.desc true f).firstSeq = (s.desc true f).lastSeq)) frames).desc true f) rest ∧
      (counted → CountsTail
        ((resetPopBottom s f seq (decide ((s.desc true f).firstSeq = (s.desc true f).lastSeq)) frames).desc true f)
        rest) := by
  have hsum := h.packets
  rw [List.flatten_cons, framesRecords_append] at hsum
  have hpackets : (if (s.desc true f).firstSeq = (s.desc true f).lastSeq then 0 else
      if (s.desc true f).packets > framesRecords frames then (s.desc true f).packets - framesRecords frames else 0) +
        framesRecords seg = (s.desc true f).packets := by
    have hseqs := h.seqs (by simp)
    rw [List.length_cons] at hseqs
    split
    · have hnil : rest = [] := List.eq_nil_of_length_eq_zero (by omega)
      simp [hsum, hnil]
    · rw [hrecords]
      split <;> omega
  have hpop := h.pop_bottom hcounts hpackets
  unfold resetPopBottom
  dsimp only
  rw [Spill.put_desc_self, Spill.put_fs, hseq]
  by_cases htop : (s.desc true f).firstSeq = (s.desc true f).lastSeq
  · rw [if_pos htop, if_pos htop] at hpop
    rwa [if_pos (decide_eq_true htop)]
  · rw [if_neg htop, if_neg htop] at hpop
    rwa [if_neg (by simpa using htop)]

theorem resetPopBottom_tidy {isTop : Bool} (h : Tidy s.fs) : Tidy (resetPopBottom s f seq isTop frames).fs :=
  h.unlink _

theorem resetPopBottom_untouched {isTop : Bool} (hn : n ≠ .live true f seq) :
    Untouched s.fs (resetPopBottom s f seq isTop frames).fs n := untouched_unlink hn

theorem resetPopBottom_desc_of_ne {c' : Bool} {f' : Nat} {isTop : Bool} (h : ¬ (c' = true ∧ f' = f)) :
    (resetPopBottom s f seq isTop frames).desc c' f' = s.desc c' f' := Spill.put_desc_of_ne h

/-- A round moves the frames at the bottom of the verified stack to the top of the other, rewritten,
or moves nothing. -/
theorem resetBottom_spec {kept' : List StoredFrame} (htidy : Tidy s.fs)
    (h : Kept false f counted s.fs (s.desc false f) kept) (h' : Kept true f counted s.fs (s.desc true f) kept')
    (hlast : (s.desc true f).lastSeq ≠ 0) :
    Tidy (resetBottom P tier s f env).1.fs ∧
      (∀ n, n ≠ .live true f (s.desc true f).firstSeq → n ≠ .tmp true f (s.desc true f).firstSeq → Foreign false f n →
        Untouched s.fs (resetBottom P tier s f env).1.fs n) ∧
      (∀ c' f', f' ≠ f → (resetBottom P tier s f env).1.desc c' f' = s.desc c' f') ∧
      ∃ moved frames rest, kept' = moved ++ rest ∧ moved.mapM (spillResetFrame P tier) = some frames ∧
        ((resetBottom P tier s f env).2 = none ∧ moved = [] ∨
          (resetBottom P tier s f env).2 = some (framesRecords moved)) ∧
        Kept false f counted (resetBottom P tier s f env).1.fs ((resetBottom P tier s f env).1.desc false f)
          (kept ++ frames) ∧
        Kept true f counted (resetBottom P tier s f env).1.fs ((resetBottom P tier s f env).1.desc true f) rest := by
  obtain ⟨segs, hkept', hholds, hcounts⟩ := h'
  obtain ⟨seg, rest, rfl⟩ := List.exists_cons_of_ne_nil (mt hholds.lastSeq_eq_zero.mpr hlast)
  have hvalid : ∀ fr ∈ seg, fr.Valid := hholds.valid seg List.mem_cons_self
  have hne : seg ≠ [] := hholds.nonempty seg List.mem_cons_self
  have hpos := framesBytes_length_pos hvalid hne
  obtain ⟨junk, hread, hlimit⟩ := hholds.bottom_limit
  unfold resetBottom
  dsimp only
  rw [hlimit]
  dsimp only
  obtain ⟨htidyTmp, hothersTmp, htmp⟩ := spillResetRewrite_spec (P := P) htidy hvalid hne hread
  cases hrewrite : spillResetRewrite P tier s.fs f (s.desc true f).firstSeq (framesBytes seg).length env with
  | mk fs frames =>
    rw [hrewrite] at htidyTmp hothersTmp htmp
    have hkeptTmp : Kept false f counted fs (s.desc false f) kept :=
      h.congr fun seq => hothersTmp _ (by simp)
    have hholdsTmp : Holds (segmentFiles fs true f) (s.desc true f) (seg :: rest) :=
      hholds.congr (fun seq => segmentFiles_eq (hothersTmp _ (by simp))) rfl rfl rfl rfl
    cases frames with
    | none =>
      exact ⟨htidyTmp, fun n _ hn _ => hothersTmp n hn, fun _ _ _ => rfl, [], [], kept', rfl, rfl, .inl ⟨rfl, rfl⟩,
        by rwa [List.append_nil], _, hkept', hholdsTmp, hcounts⟩
    | some frames =>
      obtain ⟨hmoved, htmp⟩ := htmp frames rfl
      obtain ⟨hvalids, hrecords, hframes⟩ := mapM_resetFrame_spec hmoved
      obtain ⟨htidyPush, hothersPush, hdescPush, hpush⟩ := resetPushTop_spec (s := { s with fs := fs })
        htidyTmp hkeptTmp htmp hvalids (hframes hne)
      dsimp only
      rw [spillResetCommit, if_pos hpos]
      dsimp only
      generalize resetPushTop { s with fs := fs } f (s.desc true f).firstSeq frames env = pushed at *
      have hverified : Holds (segmentFiles pushed.1.fs true f) (pushed.1.desc true f) (seg :: rest) := by
        rw [hdescPush true f (by simp)]
        exact hholdsTmp.congr (fun seq => segmentFiles_eq (hothersPush _ (by simp) fun seq' => ⟨by simp, by simp⟩))
          rfl rfl rfl rfl
      have hcountsPush : counted → CountsTail (pushed.1.desc true f) (seg :: rest) := by
        rw [hdescPush true f (by simp)]
        exact hcounts
      have hothers : ∀ n, n ≠ .tmp true f (s.desc true f).firstSeq → Foreign false f n → Untouched s.fs pushed.1.fs n :=
        fun n hn hforeign => (hothersTmp n hn).trans (hothersPush n hn hforeign)
      split
      · rename_i hok
        rw [if_pos hok] at hpush
        have hpop := resetPopBottom_spec hverified hcountsPush
          (by rw [hdescPush true f (by simp)]) hrecords
        rw [hdescPush true f (by simp)] at hpop
        refine ⟨resetPopBottom_tidy htidyPush, fun n hlive hn hforeign =>
          (hothers n hn hforeign).trans (resetPopBottom_untouched hlive), fun c' f' hf => ?_,
          seg, frames, rest.flatten, hkept'.symm, hmoved, .inr (by rw [hrecords]), ?_, rest, rfl, hpop⟩
        · rw [resetPopBottom_desc_of_ne fun heq => hf heq.2, hdescPush c' f' fun heq => hf heq.2]
        · rw [resetPopBottom_desc_of_ne (by simp)]
          exact hpush.congr fun seq => resetPopBottom_untouched (by simp)
      · rename_i hfail
        rw [if_neg hfail] at hpush
        exact ⟨htidyPush, fun n _ hn hforeign => hothers n hn hforeign, fun c' f' hf => hdescPush c' f' fun heq => hf heq.2,
          [], [], kept', rfl, rfl, .inl ⟨rfl, rfl⟩, by rwa [List.append_nil], _, hkept', hverified, hcountsPush⟩

end Commit
