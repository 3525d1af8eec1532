-- SUMMARY: A reload taken by its critical sections, among transfers, passes and captures: when the stock keeps its records.
import EternityII.Spill.Contents

/-!
# A reload among other operations

A reload reads the top of a stack under the lock of the spill, puts the packets into a list under
the locks of the pool, and moves the logical top back under the lock of the spill again. Between
these the records are in the list and on disk, and nothing keeps another operation from the same
top, nor a capture from seeing both.
-/

/-! ## The stock and its steps -/

/-- A reload after its read: what it has read, and how many of the packets are in a list. -/
structure ReloadFlight (P : Puzzle) where
  isChecked : Bool
  file : Nat
  plan : ReloadPlan P
  inserted : Nat

/-- A take that reads a segment under the top without the lock, and what it has read. -/
structure TakeFlight where
  scan : DiskTakeScan
  read : Option (List StoredFrame)

/-- What `consistent_backup_impl` captures: the lists and the tier, which it holds locked until they
are written, and the snapshot with its manifest. -/
structure Capture (P : Puzzle) where
  lists : StackId → List (Packet P)
  tier : StackId → TierStack
  fs : SpillFs
  manifest : List ManifestEntry

/-- The lists, the tier and the spill, the pass, the operations under way, what the pass has taken,
and whether a backup holds the lists. -/
structure Stock (P : Puzzle) where
  lists : StackId → List (Packet P)
  tier : StackId → TierStack
  spill : Spill
  pass : DiskExpansion
  reloads : List (ReloadFlight P)
  take : Option TakeFlight
  work : List StoredFrame
  frozen : Bool
  captures : List (Capture P)

/-- The critical sections, with the outcomes of their calls. -/
inductive StockOp where
  | reloadRead (isChecked : Bool) (file maxPackets : Nat) (env : ReloadEnv)
  | reloadInsert (i dest : Nat)
  | reloadCommit (i : Nat) (env : ReloadEnv)
  | tierToDisk (isChecked : Bool) (file : Nat) (allowPrepass : Bool) (wanted : Nat) (env : AppendEnv)
  | expansionBegin
  | takeScan (maxRecords : Nat) (opensScan opensRead : Bool) (accepts : List (List Byte × Bool) → Bool)
  | takeRead (opens : Bool) (accepts : List (List Byte × Bool) → Bool)
  | takeCommit
  | freeze
  | snapshot (env : PlaceEnv)
  | thaw

section Steps

variable (P : Puzzle) (tier : TierCodec)

/-- The mark that `stock_spill_expansion_begin` sets on a stack of the tier. -/
def tierExpansionBegin (nbFiles : Nat) (st : StackId → TierStack) (id : StackId) : TierStack :=
  if id.1 = false ∧ id.2 < nbFiles then (st id).setMark (((st id).blocks.getLast?.map TierBlock.seq).getD 0)
  else st id

/-- The frames that a take reads. -/
def takenFrames (fs : SpillFs) (scan : DiskTakeScan) : List StoredFrame :=
  (spillForEachStoredFrame ((fs.read (.live false scan.pick.file scan.pick.seq)).getD []) (some scan.bytes)).1

/-- The commit of a take that has read these frames. -/
def commitTake {P : Puzzle} (s : Stock P) (scan : DiskTakeScan) (frames : List StoredFrame) : Stock P :=
  let r := diskTakeCommit s.spill s.pass scan
  { s with
    spill := r.1
    pass := r.2
    take := none
    work := s.work ++ frames }

/-- A critical section, `none` where it has to wait or is not the next of its operation. -/
def stockStep (s : Stock P) : StockOp → Option (Stock P)
  | .reloadRead c f maxPackets env =>
    if f < s.spill.nbFiles then
      let r := reloadRead P tier s.spill c f maxPackets env
      some { s with
        spill := r.1
        reloads := s.reloads ++ (r.2.map fun plan => ⟨c, f, plan, 0⟩).toList }
    else none
  | .reloadInsert i dest =>
    match s.reloads[i]? with
    | none => none
    | some fl =>
      match fl.plan.packets[fl.inserted]? with
      | none => none
      | some p =>
        if s.frozen ∨ ¬ dest < s.spill.nbFiles then none
        else some { s with
          lists := Function.update s.lists (fl.isChecked, dest) (s.lists (fl.isChecked, dest) ++ [p.unscored])
          reloads := s.reloads.set i { fl with inserted := fl.inserted + 1 } }
  | .reloadCommit i env =>
    match s.reloads[i]? with
    | none => none
    | some fl =>
      if fl.inserted = fl.plan.packets.length then
        some { s with
          spill := reloadCommit s.spill fl.isChecked fl.file fl.plan env
          reloads := s.reloads.eraseIdx i }
      else none
  | .tierToDisk c f allowPrepass wanted env =>
    if f < s.spill.nbFiles then
      let r := tierToDisk s.spill (s.tier (c, f)) c f s.pass.active allowPrepass wanted env
      some { s with
        spill := r.1
        tier := Function.update s.tier (c, f) r.2.1 }
    else none
  | .expansionBegin =>
    if s.frozen then none
    else some { s with
      tier := tierExpansionBegin s.spill.nbFiles s.tier
      pass := diskExpansionBegin s.spill }
  | .takeScan maxRecords opensScan opensRead accepts =>
    match s.take with
    | some _ => none
    | none =>
      match diskTakeScan s.spill s.pass maxRecords opensScan with
      | .inl _ => some s
      | .inr scan =>
        -- The top is read and removed under the lock.
        if scan.pick.top then
          if (diskTakeRead P tier (collect accepts) s.spill.fs scan opensRead []).2 then
            some (commitTake s scan (takenFrames s.spill.fs scan))
          else some s
        else some { s with take := some ⟨scan, none⟩ }
  | .takeRead opens accepts =>
    match s.take with
    | some ⟨scan, none⟩ =>
      if (diskTakeRead P tier (collect accepts) s.spill.fs scan opens []).2 then
        some { s with take := some ⟨scan, some (takenFrames s.spill.fs scan)⟩ }
      else some { s with take := none }
    | _ => none
  | .takeCommit =>
    match s.take with
    | some ⟨scan, some frames⟩ => some (commitTake s scan frames)
    | _ => none
  | .freeze => if s.frozen then none else some { s with frozen := true }
  | .snapshot env =>
    if s.frozen then
      let r := stockSpillSnapshot s.spill env
      some { s with
        spill := r.1
        captures := s.captures ++ [⟨s.lists, s.tier, r.1.fs, r.2⟩] }
    else none
  | .thaw => if s.frozen then some { s with frozen := false } else none

end Steps

/-! ## Records -/

section Records

variable {P : Puzzle} (tier : TierCodec)

/-- The records of the lists, of the tier, of the disk, and of what the pass has taken. -/
def Stock.records (s : Stock P) : Multiset (Packet P) :=
  (∑ id ∈ allStacks s.spill.nbFiles, packetRecords (s.lists id)) +
    (∑ id ∈ allStacks s.spill.nbFiles, frameRecords P tier (s.tier id).frames) +
    (∑ id ∈ allStacks s.spill.nbFiles, frameRecords P tier (diskFrames s.spill id)) + frameRecords P tier s.work

/-- The records that reloads under way have put into a list and not yet taken from the disk. -/
def Stock.copies (s : Stock P) : Multiset (Packet P) :=
  (s.reloads.map fun fl => packetRecords (fl.plan.packets.take fl.inserted)).sum

/-- The records of a capture. -/
def Capture.records (nbFiles : Nat) (cap : Capture P) : Multiset (Packet P) :=
  (∑ id ∈ allStacks nbFiles, packetRecords (cap.lists id)) +
    (∑ id ∈ allStacks nbFiles, frameRecords P tier (cap.tier id).frames) +
    (cap.manifest.map fun e => frameRecords P tier (snapFrames cap.fs e)).sum

end Records

/-! ## The critical sections on segments -/

section Segments

variable {P : Puzzle} {tier : TierCodec} {s : Spill} {segs : StackId → List (List StoredFrame)}

theorem SpillSegs.reloadCommit (h : SpillSegs s segs) {c : Bool} {f : Nat} {plan : ReloadPlan P}
    {lower : List (List StoredFrame)} {pre suf : List StoredFrame} (hsegs : segs (c, f) = lower ++ [pre ++ suf])
    (hstart : plan.start = (framesBytes pre).length) (htake : plan.take = framesRecords suf) (env : ReloadEnv) :
    SpillSegs (reloadCommit s c f plan env)
      (Function.update segs (c, f) (if pre = [] then lower else lower ++ [pre])) := by
  have hholds := h.holds (c, f)
  rw [hsegs] at hholds
  obtain ⟨hleft, -⟩ := reloadCommit_spec hholds (fun hfalse => absurd hfalse id) hstart
    htake fun hfalse => absurd hfalse id
  refine h.update (reloadCommit_tidy h.tidy) hleft (fun c' f' hne => reloadCommit_desc_of_ne hne)
    fun c' f' seq hne => reloadCommit_untouched fun seq' => ?_
  exact SpillName.live_ne_live hne

theorem SpillSegs.takeCommit (h : SpillSegs s segs) {scan : DiskTakeScan} {seg : List StoredFrame}
    {rest : List (List StoredFrame)} (hsegs : segs (false, scan.pick.file) = seg :: rest)
    (hseq : scan.pick.seq = (s.desc false scan.pick.file).firstSeq) (hrecords : scan.records = framesRecords seg)
    (e : DiskExpansion) :
    SpillSegs (diskTakeCommit s e scan).1 (Function.update segs (false, scan.pick.file) rest) := by
  have hholds := h.holds (false, scan.pick.file)
  rw [hsegs] at hholds
  obtain ⟨hleft, -⟩ := diskTakeCommit_spec (e := e) hholds (fun hfalse => absurd hfalse id) hseq
    hrecords
  refine h.update (h.tidy.unlink _) hleft (fun c' f' hne => diskTakeCommit_desc_of_ne hne)
    fun c' f' seq hne => untouched_unlink ?_
  exact SpillName.live_ne_live hne

/-- The frames that a take reads from the bottom. -/
theorem SpillSegs.takenFrames_eq (h : SpillSegs s segs) {scan : DiskTakeScan} {seg : List StoredFrame}
    {rest : List (List StoredFrame)} (hsegs : segs (false, scan.pick.file) = seg :: rest)
    (hseq : scan.pick.seq = (s.desc false scan.pick.file).firstSeq) (hbytes : scan.bytes = (framesBytes seg).length) :
    takenFrames s.fs scan = seg := by
  have hholds := h.holds (false, scan.pick.file)
  rw [hsegs] at hholds
  obtain ⟨junk, hread, -⟩ := hholds.bottom_limit
  unfold takenFrames
  rw [hseq, hread, Option.getD_some, hbytes,
    spillForEachStoredFrame_framesBytes (hholds.valid seg List.mem_cons_self)]

theorem SpillSegs.snapshot (h : SpillSegs s segs) (hclear : SnapshotClear s) {env : PlaceEnv} (hworks : env.CopiesWork) :
    SpillSegs (stockSpillSnapshot s env).1 segs ∧
      ((stockSpillSnapshot s env).2.map fun e =>
          frameRecords P tier (snapFrames (stockSpillSnapshot s env).1.fs e)).sum =
        ∑ id ∈ allStacks s.nbFiles, frameRecords P tier (diskFrames s id) := by
  obtain ⟨htidy, huntouched, hsnap⟩ := stockSpillSnapshot_holds h.tidy
    (fun c f => h.holds (c, f)) hclear hworks
  refine ⟨h.congr htidy (fun _ _ => rfl) huntouched, ?_⟩
  show ((spillWriteManifest s).map _).sum = _
  rw [sum_spillWriteManifest]
  refine Finset.sum_congr rfl fun id hid => ?_
  have hframes := (hsnap id.1 id.2 (mem_allStacks.mp hid)).snapFrames_eq
  rw [h.diskFrames_eq, ← hframes]
  cases manifestEntry s id.1 id.2 <;> rfl

end Segments

/-! ## When the operations stay apart -/

section Apart

variable {P : Puzzle} (tier : TierCodec)

/-- A reload of the stack is under way. -/
def Stock.Reloading (s : Stock P) (c : Bool) (f : Nat) : Prop :=
  ∃ fl ∈ s.reloads, fl.isChecked = c ∧ fl.file = f

/-- A take under way reads the segment that is the top of the stack. -/
def Stock.TakesTop (s : Stock P) (c : Bool) (f : Nat) : Prop :=
  ∃ t, s.take = some t ∧ c = false ∧ t.scan.pick.file = f ∧ t.scan.pick.seq = (s.spill.desc false f).lastSeq

/-- No reload and no append reaches the top of a stack that a reload or a take under way has read,
no take removes one that a reload has read, and a snapshot finds no packet in a list and on disk;
its copies work, and none goes to a file that has another name. -/
def Stock.KeepsApart (s : Stock P) : StockOp → Prop
  | .reloadRead c f maxPackets env =>
    (reloadRead P tier s.spill c f maxPackets env).2 ≠ none → ¬ s.Reloading c f ∧ ¬ s.TakesTop c f
  | .tierToDisk c f allowPrepass wanted env =>
    (tierToDisk s.spill (s.tier (c, f)) c f s.pass.active allowPrepass wanted env).2.2 ≠ 0 →
      ¬ s.Reloading c f ∧ ¬ s.TakesTop c f
  | .takeScan maxRecords opensScan opensRead accepts =>
    ∀ scan, diskTakeScan s.spill s.pass maxRecords opensScan = .inr scan → scan.pick.top = true →
      (diskTakeRead P tier (collect accepts) s.spill.fs scan opensRead []).2 = true →
      ¬ s.Reloading false scan.pick.file
  | .snapshot env => env.CopiesWork ∧ SnapshotClear s.spill ∧ ∀ fl ∈ s.reloads, fl.inserted = 0
  | _ => True

variable {tier}

/-- What is under way has read what is there. -/
structure Stock.Sound (tier : TierCodec) (segs : StackId → List (List StoredFrame)) (total : Multiset (Packet P))
    (s : Stock P) : Prop where
  spill : SpillSegs s.spill segs
  records : s.records tier = total + s.copies
  reloads : ∀ fl ∈ s.reloads, fl.file < s.spill.nbFiles ∧ ∃ lower pre suf,
    segs (fl.isChecked, fl.file) = lower ++ [pre ++ suf] ∧ fl.plan.start = (framesBytes pre).length ∧
      fl.plan.take = framesRecords suf ∧ framesPackets P tier suf = some fl.plan.packets
  apart : s.reloads.Pairwise fun fl fl' => ¬ (fl.isChecked = fl'.isChecked ∧ fl.file = fl'.file)
  take : ∀ t, s.take = some t → ∃ seg rest, segs (false, t.scan.pick.file) = seg :: rest ∧
    t.scan.pick.file < s.spill.nbFiles ∧ t.scan.pick.seq = (s.spill.desc false t.scan.pick.file).firstSeq ∧
    t.scan.bytes = (framesBytes seg).length ∧ t.scan.records = framesRecords seg ∧
    (∀ frames, t.read = some frames → frames = seg) ∧ (rest = [] → ¬ s.Reloading false t.scan.pick.file)
  captures : ∀ cap ∈ s.captures, ∃ taken, taken ≤ frameRecords P tier s.work ∧
    cap.records tier s.spill.nbFiles + taken = total

variable {segs : StackId → List (List StoredFrame)} {total : Multiset (Packet P)} {s : Stock P}

/-- The frames on disk are those of the segments. -/
theorem Stock.records_eq {n : Nat} (h : SpillSegs s.spill segs) (hn : s.spill.nbFiles = n) :
    s.records tier = (∑ id ∈ allStacks n, packetRecords (s.lists id)) +
      (∑ id ∈ allStacks n, frameRecords P tier (s.tier id).frames) +
      (∑ id ∈ allStacks n, frameRecords P tier (segs id).flatten) + frameRecords P tier s.work := by
  unfold Stock.records
  simp only [hn, h.diskFrames_eq]

theorem sound_reloadRead (h : s.Sound tier segs total) {c : Bool} {f maxPackets : Nat} {env : ReloadEnv}
    (hf : f < s.spill.nbFiles) (hapart : s.KeepsApart tier (.reloadRead c f maxPackets env)) :
    Stock.Sound tier segs total { s with
      spill := (reloadRead P tier s.spill c f maxPackets env).1
      reloads := s.reloads ++
        ((reloadRead P tier s.spill c f maxPackets env).2.map fun plan => ⟨c, f, plan, 0⟩).toList } := by
  obtain ⟨hsame, hplan⟩ := reloadRead_spec (P := P)
    (h.spill.holds (c, f))
  have hapart : (_ → _) := hapart
  generalize reloadRead P tier s.spill c f maxPackets env = r at hsame hplan hapart
  obtain ⟨spill, plan⟩ := r
  obtain rfl : spill = s.spill := hsame
  cases plan with
  | none =>
    simp only [Option.map_none, Option.toList_none, List.append_nil]
    exact h
  | some plan =>
    obtain ⟨hreloading, htakes⟩ := hapart (by simp)
    obtain ⟨lower, pre, suf, hsegs, -, -, -, hstart, htake, -, hpackets⟩ := hplan plan rfl
    simp only [Option.map_some, Option.toList_some]
    refine ⟨h.spill, ?_, fun fl hfl => ?_, ?_, fun t ht => ?_, h.captures⟩
    · have hcopies : Stock.copies { s with reloads := s.reloads ++ [⟨c, f, plan, 0⟩] } = s.copies := by
        unfold Stock.copies
        simp
      rw [hcopies]
      exact h.records
    · rcases List.mem_append.mp hfl with hfl | hfl
      · exact h.reloads fl hfl
      · obtain rfl := List.mem_singleton.mp hfl
        exact ⟨hf, lower, pre, suf, hsegs, hstart, htake, hpackets⟩
    · rw [List.pairwise_append]
      refine ⟨h.apart, List.pairwise_singleton _ _, fun fl hfl fl' hfl' heq => ?_⟩
      obtain rfl := List.mem_singleton.mp hfl'
      exact hreloading ⟨fl, hfl, heq⟩
    · obtain ⟨seg, rest, hbottom, hfile, hseq, hbytes, hrecords, hread, hfree⟩ := h.take t ht
      refine ⟨seg, rest, hbottom, hfile, hseq, hbytes, hrecords, hread, fun hrest => ?_⟩
      rintro ⟨fl, hfl, hc, hf'⟩
      rcases List.mem_append.mp hfl with hfl | hfl
      · exact hfree hrest ⟨fl, hfl, hc, hf'⟩
      · obtain rfl := List.mem_singleton.mp hfl
        obtain rfl : c = false := hc
        obtain rfl : f = t.scan.pick.file := hf'
        have hseqs := (h.spill.holds (false, t.scan.pick.file)).seqs (by simp [hbottom])
        rw [hbottom, hrest, List.length_singleton] at hseqs
        refine htakes ⟨t, ht, rfl, rfl, ?_⟩
        rw [hseq]
        dsimp only at hseqs
        omega

/-- A list split at a place. -/
theorem split_getElem? {α : Type*} {l : List α} {i : Nat} {a : α} (h : l[i]? = some a) :
    ∃ pre post, l = pre ++ a :: post ∧ (∀ b, l.set i b = pre ++ b :: post) ∧ l.eraseIdx i = pre ++ post := by
  obtain ⟨hi, rfl⟩ := List.getElem?_eq_some_iff.mp h
  refine ⟨l.take i, l.drop (i + 1), ?_, fun b => List.set_eq_take_append_cons_drop .. |>.trans (if_pos hi), ?_⟩
  · rw [List.getElem_cons_drop, List.take_append_drop]
  · exact List.eraseIdx_eq_take_drop_succ ..

theorem sound_reloadInsert (h : s.Sound tier segs total) {i dest : Nat} {fl : ReloadFlight P} {p : Packet P}
    (hfl : s.reloads[i]? = some fl) (hp : fl.plan.packets[fl.inserted]? = some p) (hdest : dest < s.spill.nbFiles) :
    Stock.Sound tier segs total { s with
      lists := Function.update s.lists (fl.isChecked, dest) (s.lists (fl.isChecked, dest) ++ [p.unscored])
      reloads := s.reloads.set i { fl with inserted := fl.inserted + 1 } } := by
  obtain ⟨pre, post, hreloads, hset, -⟩ := split_getElem? hfl
  have hmem : ∀ fl' ∈ s.reloads.set i { fl with inserted := fl.inserted + 1 },
      ∃ fl₀ ∈ s.reloads, fl'.isChecked = fl₀.isChecked ∧ fl'.file = fl₀.file ∧ fl'.plan = fl₀.plan := by
    intro fl' hfl'
    rw [hset] at hfl'
    rw [hreloads]
    rcases List.mem_append.mp hfl' with hfl' | hfl'
    · exact ⟨fl', List.mem_append_left _ hfl', rfl, rfl, rfl⟩
    · rcases List.mem_cons.mp hfl' with rfl | hfl'
      · exact ⟨fl, by simp, rfl, rfl, rfl⟩
      · exact ⟨fl', by simp [hfl'], rfl, rfl, rfl⟩
  refine ⟨h.spill, ?_, fun fl' hfl' => ?_, ?_, fun t ht => ?_, h.captures⟩
  · have hlists := sum_update_of_add (mem_allStacks.mpr hdest : (fl.isChecked, dest) ∈ allStacks s.spill.nbFiles)
      packetRecords s.lists (a := s.lists (fl.isChecked, dest) ++ [p.unscored]) (m := packetRecords [p]) (by
        rw [packetRecords_append, packetRecords_unscored])
    have hrecords := h.records
    have hcopies : Stock.copies { s with reloads := s.reloads.set i { fl with inserted := fl.inserted + 1 } } =
        s.copies + packetRecords [p] := by
      unfold Stock.copies
      dsimp only
      rw [hset, hreloads]
      simp only [List.map_append, List.map_cons, List.sum_append, List.sum_cons]
      rw [List.take_add_one, hp, packetRecords_append]
      show _ + (_ + packetRecords [p] + _) = _
      abel
    show Stock.records tier _ = total + Stock.copies { s with reloads := _ }
    rw [hcopies, ← add_assoc, ← hrecords]
    unfold Stock.records
    dsimp only
    rw [hlists]
    abel
  · obtain ⟨fl₀, hfl₀, hc, hf, hplan⟩ := hmem fl' hfl'
    rw [hc, hf, hplan]
    exact h.reloads fl₀ hfl₀
  · have hapart := h.apart
    show List.Pairwise _ (s.reloads.set i { fl with inserted := fl.inserted + 1 })
    rw [hset]
    rw [hreloads] at hapart
    simpa only [List.pairwise_append, List.pairwise_cons, List.forall_mem_cons] using hapart
  · obtain ⟨seg, rest, hbottom, hfile, hseq, hbytes, hrecords, hread, hfree⟩ := h.take t ht
    refine ⟨seg, rest, hbottom, hfile, hseq, hbytes, hrecords, hread, fun hrest => ?_⟩
    rintro ⟨fl', hfl', hc', hf'⟩
    obtain ⟨fl₀, hfl₀, hc, hf, -⟩ := hmem fl' hfl'
    exact hfree hrest ⟨fl₀, hfl₀, hc.symm.trans hc', hf.symm.trans hf'⟩

/-- The commit of a reload takes from the disk what is in the list. -/
theorem sound_reloadCommit (h : s.Sound tier segs total) {i : Nat} {fl : ReloadFlight P} {env : ReloadEnv}
    (hfl : s.reloads[i]? = some fl) (hdone : fl.inserted = fl.plan.packets.length) :
    ∃ segs', Stock.Sound tier segs' total { s with
      spill := reloadCommit s.spill fl.isChecked fl.file fl.plan env
      reloads := s.reloads.eraseIdx i } := by
  obtain ⟨before, after, hreloads, -, herase⟩ := split_getElem? hfl
  obtain ⟨hfile, lower, pre, suf, hsegs, hstart, htake, hpackets⟩ := h.reloads fl (List.mem_of_getElem? hfl)
  have hspill := h.spill.reloadCommit hsegs hstart htake env
  -- No other reload is on this stack.
  have hothers : ∀ fl' ∈ s.reloads.eraseIdx i, fl' ∈ s.reloads ∧ (fl'.isChecked, fl'.file) ≠ (fl.isChecked, fl.file) := by
    intro fl' hfl'
    rw [herase] at hfl'
    have hapart := h.apart
    rw [hreloads, List.pairwise_append, List.pairwise_cons] at hapart
    rw [hreloads]
    rcases List.mem_append.mp hfl' with hbefore | hafter
    · refine ⟨List.mem_append_left _ hbefore, fun heq => ?_⟩
      exact hapart.2.2 fl' hbefore fl List.mem_cons_self ⟨congrArg Prod.fst heq, congrArg Prod.snd heq⟩
    · refine ⟨by simp [hafter], fun heq => ?_⟩
      exact hapart.2.1.1 fl' hafter ⟨(congrArg Prod.fst heq).symm, (congrArg Prod.snd heq).symm⟩
  have hflatten : (segs (fl.isChecked, fl.file)).flatten =
      (if pre = [] then lower else lower ++ [pre]).flatten ++ suf := by
    rw [hsegs]
    split
    · rename_i hpre
      simp [hpre]
    · simp
  generalize hleft : (if pre = [] then lower else lower ++ [pre]) = left at hspill hflatten
  refine ⟨_, hspill, ?_, fun fl' hfl' => ?_, ?_, fun t ht => ?_, h.captures⟩
  · have hdisk := sum_update_of_sub (mem_allStacks.mpr hfile : (fl.isChecked, fl.file) ∈ allStacks s.spill.nbFiles)
      (fun segs : List (List StoredFrame) => frameRecords P tier segs.flatten) segs (a := left)
      (m := packetRecords fl.plan.packets) (by
        rw [hflatten, frameRecords_append, frameRecords_of_framesPackets hpackets])
    have hcopies : Stock.copies { s with reloads := s.reloads.eraseIdx i } + packetRecords fl.plan.packets =
        s.copies := by
      unfold Stock.copies
      dsimp only
      rw [herase, hreloads]
      simp only [List.map_append, List.map_cons, List.sum_append, List.sum_cons]
      rw [hdone, List.take_length]
      abel
    have hrecords := h.records
    rw [← hcopies, ← add_assoc] at hrecords
    refine add_right_cancel (b := packetRecords fl.plan.packets) (Eq.trans ?_ hrecords)
    rw [Stock.records_eq h.spill rfl, ← hdisk, Stock.records_eq
      (s := { s with spill := reloadCommit s.spill fl.isChecked fl.file fl.plan env, reloads := _ })
      (n := s.spill.nbFiles) hspill rfl]
    abel
  · obtain ⟨hmem, hne⟩ := hothers fl' hfl'
    rw [Function.update_of_ne hne]
    exact h.reloads fl' hmem
  · exact h.apart.sublist (List.eraseIdx_sublist _ _)
  · obtain ⟨seg, rest, hbottom, htfile, hseq, hbytes, hrecords, hread, hfree⟩ := h.take t ht
    by_cases hsame : (false, t.scan.pick.file) = (fl.isChecked, fl.file)
    · have hc : fl.isChecked = false := (congrArg Prod.fst hsame).symm
      have hf : fl.file = t.scan.pick.file := (congrArg Prod.snd hsame).symm
      have hrest : rest ≠ [] := fun hnil => hfree hnil ⟨fl, List.mem_of_getElem? hfl, hc, hf⟩
      rw [← hsame, hbottom] at hsegs
      -- The segment of the take is under the top.
      obtain ⟨lower', rfl⟩ : ∃ lower', lower = seg :: lower' := by
        cases lower with
        | nil => exact absurd (List.cons.inj hsegs).2 hrest
        | cons seg' lower' => exact ⟨lower', by rw [(List.cons.inj hsegs).1]⟩
      have hcons : ∃ rest', left = seg :: rest' := by
        rw [← hleft]
        split
        · exact ⟨lower', rfl⟩
        · exact ⟨lower' ++ [pre], rfl⟩
      obtain ⟨rest', hcons⟩ := hcons
      have hupdate : Function.update segs (fl.isChecked, fl.file) left (false, t.scan.pick.file) = seg :: rest' := by
        rw [hsame, Function.update_self, hcons]
      refine ⟨seg, rest', hupdate, htfile, ?_, hbytes, hrecords, hread, fun _ => ?_⟩
      · rw [hseq]
        have hholds := hspill.holds (fl.isChecked, fl.file)
        rw [Function.update_self, hcons] at hholds
        have hfirst := reloadCommit_firstSeq (mt hholds.lastSeq_eq_zero.mp (by simp))
        rw [hc, hf] at hfirst ⊢
        exact hfirst.symm
      · rintro ⟨fl', hfl', hc', hf'⟩
        refine (hothers fl' hfl').2 ?_
        rw [hc', hf', hc, hf]
    · refine ⟨seg, rest, by rw [Function.update_of_ne hsame]; exact hbottom, htfile, ?_, hbytes, hrecords, hread,
        fun hrest => ?_⟩
      · rw [hseq]
        exact congrArg _ (reloadCommit_desc_of_ne fun heq => hsame (Prod.ext heq.1 heq.2)).symm
      · rintro ⟨fl', hfl', hc', hf'⟩
        exact hfree hrest ⟨fl', (hothers fl' hfl').1, hc', hf'⟩

/-- A round of a transfer. -/
theorem sound_tierToDisk (h : s.Sound tier segs total) {c : Bool} {f wanted : Nat} {allowPrepass : Bool}
    {env : AppendEnv} (hf : f < s.spill.nbFiles)
    (hapart : s.KeepsApart tier (.tierToDisk c f allowPrepass wanted env)) :
    ∃ segs', Stock.Sound tier segs' total { s with
      spill := (tierToDisk s.spill (s.tier (c, f)) c f s.pass.active allowPrepass wanted env).1
      tier := Function.update s.tier (c, f)
        (tierToDisk s.spill (s.tier (c, f)) c f s.pass.active allowPrepass wanted env).2.1 } := by
  obtain ⟨pre, gone, post, segs', hmoved, -⟩ :=
    tierToDisk_spec h.spill (s.tier (c, f)) c f s.pass.active allowPrepass wanted env
  have hapart : (_ → _) := hapart
  generalize tierToDisk s.spill (s.tier (c, f)) c f s.pass.active allowPrepass wanted env = r at hmoved hapart
  obtain ⟨hnb, -, -⟩ := hmoved.config
  have hid : (c, f) ∈ allStacks s.spill.nbFiles := mem_allStacks.mpr hf
  -- A round that moves nothing leaves the segments, and any other finds the stack free.
  have hstays : r.2.2 = 0 → segs' = segs (c, f) := by
    intro hzero
    obtain rfl := List.eq_nil_of_length_eq_zero (hmoved.count.symm.trans hzero)
    have hholds := hmoved.segs.holds (c, f)
    rw [Function.update_self] at hholds
    exact hmoved.grown.eq_of_nil hholds.nonempty
  refine ⟨_, hmoved.segs, ?_, fun fl hfl => ?_, h.apart, fun t ht => ?_, fun cap hcap => ?_⟩
  · have htier := sum_update_of_sub hid (fun st : TierStack => frameRecords P tier st.frames) s.tier (a := r.2.1)
      (m := frameRecords P tier (gone.map TierBlock.frame)) (by
        unfold TierStack.frames
        rw [hmoved.blocks, hmoved.left]
        simp only [List.map_append, frameRecords_append]
        abel)
    have hdisk := sum_update_of_add hid (fun segs : List (List StoredFrame) => frameRecords P tier segs.flatten) segs
      (a := segs') (m := frameRecords P tier (gone.map TierBlock.frame)) (by
        rw [hmoved.grown.flatten, frameRecords_append])
    have hrecords := h.records
    rw [Stock.records_eq h.spill rfl, ← htier] at hrecords
    rw [Stock.records_eq (s := { s with spill := r.1, tier := _ }) hmoved.segs hnb, hdisk]
    refine Eq.trans ?_ hrecords
    abel
  · obtain ⟨hfile, hlower⟩ := h.reloads fl hfl
    refine ⟨hnb.symm ▸ hfile, ?_⟩
    by_cases hsame : (fl.isChecked, fl.file) = (c, f)
    · have hzero : r.2.2 = 0 := by
        by_contra hne
        exact (hapart hne).1 ⟨fl, hfl, congrArg Prod.fst hsame, congrArg Prod.snd hsame⟩
      rw [hsame, Function.update_self, hstays hzero, ← hsame]
      exact hlower
    · rw [Function.update_of_ne hsame]
      exact hlower
  · obtain ⟨seg, rest, hbottom, htfile, hseq, hbytes, hrecords, hread, hfree⟩ := h.take t ht
    by_cases hsame : (false, t.scan.pick.file) = (c, f)
    · obtain ⟨hc, hf'⟩ := Prod.mk.inj hsame
      subst hc hf'
      have hholds := h.spill.holds (false, t.scan.pick.file)
      rw [hbottom] at hholds
      by_cases hzero : r.2.2 = 0
      · refine ⟨seg, rest, by rw [Function.update_self, hstays hzero, hbottom], hnb.symm ▸ htfile, ?_, hbytes, hrecords,
          hread, hfree⟩
        rw [hseq]
        exact congrArg _ (hmoved.none hzero).symm
      · obtain ⟨hreloading, htakes⟩ := hapart hzero
        have hrest : rest ≠ [] := by
          rintro rfl
          have hseqs := hholds.seqs (by simp)
          rw [List.length_singleton] at hseqs
          refine htakes ⟨t, ht, rfl, rfl, ?_⟩
          rw [hseq]
          dsimp only at hseqs
          omega
        obtain ⟨lower, top, hlower⟩ := (Holds.cases_top rest).resolve_left hrest
        obtain ⟨ext, more, hgrown⟩ := hmoved.grown.under (seg :: lower) top (by rw [hbottom, hlower, List.cons_append])
        refine ⟨seg, lower ++ (top ++ ext) :: more, by rw [Function.update_self, hgrown, List.cons_append],
          hnb.symm ▸ htfile, ?_, hbytes, hrecords, hread, fun hnil => absurd hnil (by simp)⟩
        rw [hseq]
        exact (hmoved.desc.first (mt hholds.lastSeq_eq_zero.mp (by simp))).symm
    · refine ⟨seg, rest, by rw [Function.update_of_ne hsame]; exact hbottom, hnb.symm ▸ htfile, ?_, hbytes, hrecords,
        hread, hfree⟩
      rw [hseq]
      exact congrArg _ (hmoved.others _ _ fun heq => hsame (Prod.ext heq.1 heq.2)).symm
  · rw [show Spill.nbFiles _ = s.spill.nbFiles from hnb]
    exact h.captures cap hcap

/-- The bottom of a stack goes to the pass. -/
theorem sound_commitTake (h : s.Sound tier segs total) {scan : DiskTakeScan} {seg : List StoredFrame}
    {rest : List (List StoredFrame)} (hbottom : segs (false, scan.pick.file) = seg :: rest)
    (hfile : scan.pick.file < s.spill.nbFiles) (hseq : scan.pick.seq = (s.spill.desc false scan.pick.file).firstSeq)
    (hrecords : scan.records = framesRecords seg) (hfree : rest = [] → ¬ s.Reloading false scan.pick.file) :
    ∃ segs', Stock.Sound tier segs' total (commitTake s scan seg) := by
  have hspill := h.spill.takeCommit hbottom hseq hrecords s.pass
  refine ⟨_, hspill, ?_, fun fl hfl => ?_, h.apart, fun t ht => absurd ht (by simp [commitTake]), fun cap hcap => ?_⟩
  · have hdisk := sum_update_of_sub
      (mem_allStacks.mpr hfile : (false, scan.pick.file) ∈ allStacks s.spill.nbFiles)
      (fun segs : List (List StoredFrame) => frameRecords P tier segs.flatten) segs (a := rest)
      (m := frameRecords P tier seg) (by rw [hbottom, List.flatten_cons, frameRecords_append, add_comm])
    have hrecords := h.records
    rw [Stock.records_eq h.spill rfl, ← hdisk] at hrecords
    rw [Stock.records_eq (s := commitTake s scan seg) (n := s.spill.nbFiles) hspill rfl]
    refine Eq.trans ?_ hrecords
    unfold commitTake
    dsimp only
    rw [frameRecords_append]
    abel
  · obtain ⟨hfile', lower, pre, suf, hsegs, hplan⟩ := h.reloads fl hfl
    refine ⟨hfile', ?_⟩
    by_cases hsame : (fl.isChecked, fl.file) = (false, scan.pick.file)
    · rw [hsame, hbottom] at hsegs
      rw [hsame, Function.update_self]
      have hrest : rest ≠ [] := fun hnil => hfree hnil ⟨fl, hfl, congrArg Prod.fst hsame, congrArg Prod.snd hsame⟩
      cases lower with
      | nil => exact absurd (List.cons.inj hsegs).2 hrest
      | cons seg' lower => exact ⟨lower, pre, suf, (List.cons.inj hsegs).2, hplan⟩
    · rw [Function.update_of_ne hsame]
      exact ⟨lower, pre, suf, hsegs, hplan⟩
  · obtain ⟨taken, hle, hcap⟩ := h.captures cap hcap
    refine ⟨taken, le_trans hle ?_, hcap⟩
    unfold commitTake
    dsimp only
    rw [frameRecords_append]
    exact Multiset.le_add_right _ _

/-- A snapshot when no packet is in a list and on disk. -/
theorem sound_snapshot (h : s.Sound tier segs total) {env : PlaceEnv} (hapart : s.KeepsApart tier (.snapshot env)) :
    Stock.Sound tier segs total { s with
      spill := (stockSpillSnapshot s.spill env).1
      captures := s.captures ++
        [⟨s.lists, s.tier, (stockSpillSnapshot s.spill env).1.fs, (stockSpillSnapshot s.spill env).2⟩] } := by
  obtain ⟨hworks, hclear, hnone⟩ := hapart
  obtain ⟨hspill, hsnap⟩ := h.spill.snapshot (P := P) hclear hworks
  have hrecords : Stock.records tier { s with spill := (stockSpillSnapshot s.spill env).1 } = s.records tier := by
    rw [Stock.records_eq h.spill rfl, Stock.records_eq (s := { s with spill := _ }) (n := s.spill.nbFiles) hspill rfl]
  have hcopies : s.copies = 0 := by
    unfold Stock.copies
    refine List.sum_eq_zero fun m hm => ?_
    obtain ⟨fl, hfl, rfl⟩ := List.mem_map.mp hm
    rw [hnone fl hfl, List.take_zero, packetRecords_nil]
  refine ⟨hspill, hrecords.trans h.records, h.reloads, h.apart, h.take, fun cap hcap => ?_⟩
  rcases List.mem_append.mp hcap with hcap | hcap
  · exact h.captures cap hcap
  · obtain rfl := List.mem_singleton.mp hcap
    refine ⟨frameRecords P tier s.work, le_refl _, ?_⟩
    have htotal := h.records
    rw [hcopies, add_zero] at htotal
    rw [← htotal]
    unfold Capture.records Stock.records
    dsimp only
    rw [← hsnap]
    rfl

/-! ## Runs -/

/-- A section that keeps apart from what is under way. -/
theorem stockStep_sound (h : s.Sound tier segs total) {op : StockOp} (hapart : s.KeepsApart tier op) {s' : Stock P}
    (hstep : stockStep P tier s op = some s') : ∃ segs', s'.Sound tier segs' total := by
  cases op with
  | reloadRead c f maxPackets env =>
    simp only [stockStep, Option.ite_none_right_eq_some, Option.some.injEq] at hstep
    obtain ⟨hf, rfl⟩ := hstep
    exact ⟨segs, sound_reloadRead h hf hapart⟩
  | reloadInsert i dest =>
    simp only [stockStep] at hstep
    split at hstep
    · exact absurd hstep (by simp)
    · rename_i fl hfl
      split at hstep
      · exact absurd hstep (by simp)
      · rename_i p hp
        simp only [Option.ite_none_left_eq_some, Option.some.injEq, not_or, not_not] at hstep
        obtain ⟨⟨-, hdest⟩, rfl⟩ := hstep
        exact ⟨segs, sound_reloadInsert h hfl hp hdest⟩
  | reloadCommit i env =>
    simp only [stockStep] at hstep
    split at hstep
    · exact absurd hstep (by simp)
    · rename_i fl hfl
      simp only [Option.ite_none_right_eq_some, Option.some.injEq] at hstep
      obtain ⟨hdone, rfl⟩ := hstep
      exact sound_reloadCommit h hfl hdone
  | tierToDisk c f allowPrepass wanted env =>
    simp only [stockStep, Option.ite_none_right_eq_some, Option.some.injEq] at hstep
    obtain ⟨hf, rfl⟩ := hstep
    exact sound_tierToDisk h hf hapart
  | expansionBegin =>
    simp only [stockStep, Option.ite_none_left_eq_some, Option.some.injEq] at hstep
    obtain ⟨-, rfl⟩ := hstep
    have hframes : ∀ id, (tierExpansionBegin s.spill.nbFiles s.tier id).frames = (s.tier id).frames := by
      intro id
      unfold tierExpansionBegin
      split <;> rfl
    refine ⟨segs, h.spill, ?_, h.reloads, h.apart, h.take, h.captures⟩
    refine Eq.trans ?_ h.records
    unfold Stock.records
    simp only [hframes]
  | takeScan maxRecords opensScan opensRead accepts =>
    simp only [stockStep] at hstep
    split at hstep
    · exact absurd hstep (by simp)
    · split at hstep
      · obtain rfl := Option.some.inj hstep
        exact ⟨segs, h⟩
      · rename_i hnone scan hscan
        obtain ⟨-, seg, rest, hbottom, hfinds⟩ := diskTakeScan_spec
          (fun f => h.spill.holds (false, f)) hscan
        split at hstep
        · rename_i htop
          split at hstep
          · rename_i hread
            obtain rfl := Option.some.inj hstep
            rw [h.spill.takenFrames_eq hbottom hfinds.seq hfinds.bytes]
            exact sound_commitTake h hbottom hfinds.file_lt hfinds.seq hfinds.records
              fun _ => hapart scan hscan htop hread
          · obtain rfl := Option.some.inj hstep
            exact ⟨segs, h⟩
        · rename_i htop
          obtain rfl := Option.some.inj hstep
          refine ⟨segs, h.spill, h.records, h.reloads, h.apart, fun t ht => ?_, h.captures⟩
          obtain rfl := Option.some.inj ht
          exact ⟨seg, rest, hbottom, hfinds.file_lt, hfinds.seq, hfinds.bytes, hfinds.records,
            fun frames hframes => absurd hframes (by simp), fun hrest => absurd (hfinds.top.mpr hrest) htop⟩
  | takeRead opens accepts =>
    simp only [stockStep] at hstep
    split at hstep
    · rename_i scan htake
      obtain ⟨seg, rest, hbottom, hfile, hseq, hbytes, hrecords, -, hfree⟩ := h.take _ htake
      split at hstep
      · obtain rfl := Option.some.inj hstep
        refine ⟨segs, h.spill, h.records, h.reloads, h.apart, fun t ht => ?_, h.captures⟩
        obtain rfl := Option.some.inj ht
        refine ⟨seg, rest, hbottom, hfile, hseq, hbytes, hrecords, fun frames hframes => ?_, hfree⟩
        obtain rfl := Option.some.inj hframes
        exact h.spill.takenFrames_eq hbottom hseq hbytes
      · obtain rfl := Option.some.inj hstep
        exact ⟨segs, h.spill, h.records, h.reloads, h.apart, fun t ht => absurd ht (by simp), h.captures⟩
    · exact absurd hstep (by simp)
  | takeCommit =>
    simp only [stockStep] at hstep
    split at hstep
    · rename_i scan frames htake
      obtain rfl := Option.some.inj hstep
      obtain ⟨seg, rest, hbottom, hfile, hseq, -, hrecords, hread, hfree⟩ := h.take _ htake
      rw [hread frames rfl]
      exact sound_commitTake h hbottom hfile hseq hrecords hfree
    · exact absurd hstep (by simp)
  | freeze =>
    simp only [stockStep, Option.ite_none_left_eq_some, Option.some.injEq] at hstep
    obtain ⟨-, rfl⟩ := hstep
    exact ⟨segs, h.spill, h.records, h.reloads, h.apart, h.take, h.captures⟩
  | snapshot env =>
    simp only [stockStep, Option.ite_none_right_eq_some, Option.some.injEq] at hstep
    obtain ⟨-, rfl⟩ := hstep
    exact ⟨segs, sound_snapshot h hapart⟩
  | thaw =>
    simp only [stockStep, Option.ite_none_right_eq_some, Option.some.injEq] at hstep
    obtain ⟨-, rfl⟩ := hstep
    exact ⟨segs, h.spill, h.records, h.reloads, h.apart, h.take, h.captures⟩

/-- A run whose sections all meet a condition. -/
inductive StockRun (P : Puzzle) (tier : TierCodec) (ok : Stock P → StockOp → Prop) :
    Stock P → List StockOp → Stock P → Prop where
  | nil {s : Stock P} : StockRun P tier ok s [] s
  | cons {s s' s'' : Stock P} {op : StockOp} {ops : List StockOp} (hok : ok s op)
      (hstep : stockStep P tier s op = some s') (hrun : StockRun P tier ok s' ops s'') :
      StockRun P tier ok s (op :: ops) s''

theorem stockRun_sound {ops : List StockOp} {s' : Stock P} (hrun : StockRun P tier (Stock.KeepsApart tier) s ops s')
    (h : s.Sound tier segs total) : ∃ segs', s'.Sound tier segs' total := by
  induction hrun generalizing segs with
  | nil => exact ⟨segs, h⟩
  | cons hok hstep _ ih =>
    obtain ⟨_, h'⟩ := stockStep_sound h hok hstep
    exact ih h'

variable (tier)

/-- Nothing is under way, and the files and descriptors hold stacks of segments. -/
def Stock.Settled (s : Stock P) : Prop :=
  (∃ segs, SpillSegs s.spill segs) ∧ s.reloads = [] ∧ s.take = none ∧ s.captures = []

/-- The records are those at the start, but for the copies of a reload that has not finished; the
descriptors count what is on disk; and a capture has each record once that no pass has taken. -/
structure Stock.Conserves (s₀ s : Stock P) : Prop where
  records : s.records tier = s₀.records tier + s.copies
  packets : ∀ c f, (s.spill.desc c f).packets = framesRecords (diskFrames s.spill (c, f))
  reloads : ∀ fl ∈ s.reloads, fl.plan.take ≤ (s.spill.desc fl.isChecked fl.file).packets
  captures : ∀ cap ∈ s.captures, ∃ taken, taken ≤ frameRecords P tier s.work ∧
    cap.records tier s.spill.nbFiles + taken = s₀.records tier

/-- Where the operations under way are left apart, no record is lost or doubled. -/
theorem stockRun_conserves {s₀ : Stock P} (hsettled : s₀.Settled) {ops : List StockOp}
    (hrun : StockRun P tier (Stock.KeepsApart tier) s₀ ops s) : s₀.Conserves tier s := by
  obtain ⟨⟨segs, hspill⟩, hreloads, htake, hcaptures⟩ := hsettled
  have hstart : s₀.Sound tier segs (s₀.records tier) := by
    refine ⟨hspill, ?_, fun fl hfl => ?_, ?_, fun t ht => ?_, fun cap hcap => ?_⟩
    · unfold Stock.copies
      rw [hreloads, List.map_nil, List.sum_nil, add_zero]
    · rw [hreloads] at hfl
      exact absurd hfl List.not_mem_nil
    · rw [hreloads]
      exact List.Pairwise.nil
    · rw [htake] at ht
      exact absurd ht (by simp)
    · rw [hcaptures] at hcap
      exact absurd hcap List.not_mem_nil
  obtain ⟨segs', h⟩ := stockRun_sound hrun hstart
  refine ⟨h.records, fun c f => ?_, fun fl hfl => ?_, h.captures⟩
  · rw [h.spill.diskFrames_eq, ← (h.spill.holds (c, f)).packets]
  · obtain ⟨-, lower, pre, suf, hsegs, -, hplan, -⟩ := h.reloads fl hfl
    rw [hplan, (h.spill.holds (fl.isChecked, fl.file)).packets, hsegs]
    simp only [List.flatten_append, List.flatten_cons, List.flatten_nil, List.append_nil, framesRecords_append]
    omega

/-! ## A snapshot between the insertion and the commit -/

/-- One record, on disk. -/
def oneSpilled : Stock .p16 where
  lists _ := []
  tier _ := .init
  spill := (spillRun .p16 ⟨none, false⟩ (freshSpill 1 1)
    [.append false 0 [emptyBoardFrame] (by simpa using emptyBoardFrame_valid) allOpen]).1
  pass := ⟨false, fun _ => 0, fun _ => 0⟩
  reloads := []
  take := none
  work := []
  frozen := false
  captures := []

theorem oneSpilled_settled : oneSpilled.Settled := by
  obtain ⟨st, -, h⟩ := @spillRun_refines .p16 ⟨none, false⟩ _ _ _ (SpillRefines.fresh False 1 1)
    [.append false 0 [emptyBoardFrame] (by simpa using emptyBoardFrame_valid) allOpen] fun hfalse => absurd hfalse id
  choose segs _ hholds _ using h.kept
  exact ⟨⟨fun id => segs id.1 id.2, h.tidy, fun id => hholds id.1 id.2⟩, rfl, rfl, rfl⟩

/-- A reload from its read to its commit. -/
theorem stockRun_conserves_reload : ∃ s, StockRun .p16 ⟨none, false⟩ (Stock.KeepsApart ⟨none, false⟩) oneSpilled
      [.reloadRead false 0 1 ⟨fun _ => true, true, true⟩, .reloadInsert 0 0,
        .reloadCommit 0 ⟨fun _ => true, true, true⟩] s ∧
    oneSpilled.Conserves ⟨none, false⟩ s := by
  have hsome : ((stockStep .p16 ⟨none, false⟩ oneSpilled (.reloadRead false 0 1 ⟨fun _ => true, true, true⟩)).bind
      fun s₁ => (stockStep .p16 ⟨none, false⟩ s₁ (.reloadInsert 0 0)).bind
        fun s₂ => stockStep .p16 ⟨none, false⟩ s₂ (.reloadCommit 0 ⟨fun _ => true, true, true⟩)).isSome = true := by
    decide +kernel
  obtain ⟨s, hs⟩ := Option.isSome_iff_exists.mp hsome
  obtain ⟨s₁, h₁, hs⟩ := Option.bind_eq_some_iff.mp hs
  obtain ⟨s₂, h₂, h₃⟩ := Option.bind_eq_some_iff.mp hs
  have hapart : oneSpilled.KeepsApart ⟨none, false⟩ (.reloadRead false 0 1 ⟨fun _ => true, true, true⟩) := by
    refine fun _ => ⟨?_, ?_⟩
    · rintro ⟨fl, hfl, -⟩
      exact absurd hfl List.not_mem_nil
    · rintro ⟨t, ht, -⟩
      exact absurd ht (by simp [oneSpilled])
  have hinsert : s₁.KeepsApart ⟨none, false⟩ (.reloadInsert 0 0) := trivial
  have hcommit : s₂.KeepsApart ⟨none, false⟩ (.reloadCommit 0 ⟨fun _ => true, true, true⟩) := trivial
  have hrun := StockRun.cons hapart h₁ (.cons hinsert h₂ (.cons hcommit h₃ .nil))
  exact ⟨s, hrun, stockRun_conserves ⟨none, false⟩ oneSpilled_settled hrun⟩

/-- The snapshot of a backup that comes between has the record twice. -/
theorem stockRun_snapshot_doubles : ¬ ∀ (s₀ s : Stock .p16) (ops : List StockOp), s₀.Settled →
    StockRun .p16 ⟨none, false⟩ (fun _ _ => True) s₀ ops s → s₀.Conserves ⟨none, false⟩ s := by
  intro hall
  have hcard : ((stockStep .p16 ⟨none, false⟩ oneSpilled (.reloadRead false 0 1 ⟨fun _ => true, true, true⟩)).bind
      fun s₁ => (stockStep .p16 ⟨none, false⟩ s₁ (.reloadInsert 0 0)).bind
        fun s₂ => (stockStep .p16 ⟨none, false⟩ s₂ .freeze).bind
          fun s₃ => (stockStep .p16 ⟨none, false⟩ s₃ (.snapshot .allWork)).map
            fun s => (s.captures.map fun cap => (cap.records ⟨none, false⟩ s.spill.nbFiles).card, s.work.length)) =
      some ([2], 0) := by decide +kernel
  obtain ⟨s₁, h₁, hcard⟩ := Option.bind_eq_some_iff.mp hcard
  obtain ⟨s₂, h₂, hcard⟩ := Option.bind_eq_some_iff.mp hcard
  obtain ⟨s₃, h₃, hcard⟩ := Option.bind_eq_some_iff.mp hcard
  obtain ⟨s, h₄, hcard⟩ := Option.map_eq_some_iff.mp hcard
  obtain ⟨hcap, hwork⟩ := Prod.mk.inj hcard
  have hconserves := hall oneSpilled s _ oneSpilled_settled
    (.cons trivial h₁ (.cons trivial h₂ (.cons trivial h₃ (.cons trivial h₄ .nil))))
  obtain ⟨cap, hmem, hdouble⟩ : ∃ cap ∈ s.captures, (cap.records ⟨none, false⟩ s.spill.nbFiles).card = 2 := by
    have hmem : 2 ∈ s.captures.map fun cap => (cap.records ⟨none, false⟩ s.spill.nbFiles).card := by
      rw [hcap]
      exact List.mem_singleton_self 2
    obtain ⟨cap, hcap, heq⟩ := List.mem_map.mp hmem
    exact ⟨cap, hcap, heq⟩
  obtain ⟨taken, -, htotal⟩ := hconserves.captures cap hmem
  have hone : (oneSpilled.records ⟨none, false⟩).card = 1 := by decide +kernel
  have hle := congrArg Multiset.card htotal
  rw [Multiset.card_add, hdouble, hone] at hle
  omega

end Apart
