-- SUMMARY: Over whole runs, whatever calls fail, the spill is a stack of frames for each pool and file.
import EternityII.Spill.ExpansionTake

/-!
# The spill refines stacks of frames

A stack is a list of frames from the bottom to the top. Appends add at the top, reloads take from
there, expansion passes take from the bottom, and clearing the verified flag moves frames from the
bottom of a verified stack to the top of the unverified one. What a call that fails on the way has
done is a part of the same step.
-/

/-! ## The abstract stacks -/

/-- The frames of each pool and file. -/
abbrev Stacks : Type := Bool → Nat → List StoredFrame

def Stacks.set (st : Stacks) (c : Bool) (f : Nat) (frames : List StoredFrame) : Stacks :=
  Function.update st c (Function.update (st c) f frames)

theorem Stacks.set_self (st : Stacks) (c : Bool) (f : Nat) (frames : List StoredFrame) :
    st.set c f frames c f = frames := by simp [Stacks.set]

theorem Stacks.set_of_ne (st : Stacks) {c c' : Bool} {f f' : Nat} (frames : List StoredFrame)
    (h : ¬ (c' = c ∧ f' = f)) : st.set c f frames c' f' = st c' f' := by
  unfold Stacks.set
  by_cases hc : c' = c
  · subst hc
    simp [Function.update_of_ne fun hf => h ⟨rfl, hf⟩]
  · simp [Function.update_of_ne hc]

@[simp] theorem Stacks.set_eq_self (st : Stacks) (c : Bool) (f : Nat) : st.set c f (st c f) = st := by
  simp [Stacks.set]

/-- An operation on the spill with the outcomes of its calls. An append is given frames that
`stock_tier_pack` has made, and the sink of a pass accepts or refuses by what it has been given. -/
inductive SpillOp where
  | append (isChecked : Bool) (file : Nat) (frames : List StoredFrame) (valid : ∀ fr ∈ frames, fr.Valid)
      (env : AppendEnv)
  | reload (isChecked : Bool) (file maxPackets : Nat) (env : ReloadEnv)
  | reset (file : Nat) (env : ResetEnv)
  | take (pass : DiskExpansion) (accepts : List (List Byte × Bool) → Bool) (maxRecords : Nat)
      (opensScan opensRead : Bool)

/-- What an operation returns. -/
inductive SpillResult (P : Puzzle) where
  | committed (n : Nat)
  | reloaded (packets : List (Packet P))
  | moved (records : Option Nat)
  | taken (r : DiskTake)

/-- A sink that keeps what it is given. -/
def collect (accepts : List (List Byte × Bool) → Bool) (given : List (List Byte × Bool)) (record : List Byte)
    (develop : Bool) : List (List Byte × Bool) × Bool :=
  (given ++ [(record, develop)], accepts (given ++ [(record, develop)]))

section Run

variable (P : Puzzle) (tier : TierCodec)

/-- An operation on the files. -/
def spillStep (s : Spill) : SpillOp → Spill × SpillResult P
  | .append c f frames _ env =>
    let r := spillAppendFrames s.fs c f (s.desc c f) s.segmentRecords frames env
    (s.put c f r.1 r.2.1, .committed r.2.2)
  | .reload c f maxPackets env =>
    let r := stockSpillReload P tier s c f maxPackets env
    (r.1, .reloaded r.2)
  | .reset f env =>
    if (s.desc true f).lastSeq = 0 then (s, .moved none)
    else
      let r := resetBottom P tier s f env
      (r.1, .moved r.2)
  | .take pass accepts maxRecords opensScan opensRead =>
    let r := stockSpillDiskExpansionTake P tier (collect accepts) s pass maxRecords opensScan opensRead []
    (r.1, .taken r.2.2.2)

/-- A run of operations on the files. -/
def spillRun (s : Spill) : List SpillOp → Spill × List (SpillResult P)
  | [] => (s, [])
  | op :: ops =>
    let next := spillStep P tier s op
    let rest := spillRun next.1 ops
    (rest.1, next.2 :: rest.2)

/-- The same operation on stacks. -/
inductive StackStep : Stacks → SpillOp → SpillResult P → Stacks → Prop where
  | append {st : Stacks} {c : Bool} {f : Nat} {frames : List StoredFrame} {valid : ∀ fr ∈ frames, fr.Valid}
      {env : AppendEnv} {n : Nat} (hn : n ≤ frames.length) :
      StackStep st (.append c f frames valid env) (.committed n) (st.set c f (st c f ++ frames.take n))
  | reload {st : Stacks} {c : Bool} {f maxPackets : Nat} {env : ReloadEnv} {kept taken : List StoredFrame}
      {packets : List (Packet P)} (hst : st c f = kept ++ taken) (htaken : framesPackets P tier taken = some packets) :
      StackStep st (.reload c f maxPackets env)
        (.reloaded (packets.map fun p => { p with minCandidats := possibilityMinCandidatsUnknown })) (st.set c f kept)
  | reset {st : Stacks} {f : Nat} {env : ResetEnv} {moved frames rest : List StoredFrame} {records : Option Nat}
      (hst : st true f = moved ++ rest) (hmoved : moved.mapM (spillResetFrame P tier) = some frames)
      (hrecords : records = none ∧ moved = [] ∨ records = some (framesRecords moved)) :
      StackStep st (.reset f env) (.moved records) ((st.set false f (st false f ++ frames)).set true f rest)
  | takeNone {st : Stacks} {pass : DiskExpansion} {accepts : List (List Byte × Bool) → Bool} {maxRecords : Nat}
      {opensScan opensRead : Bool} {r : DiskTake} (hr : ∀ n, r ≠ .taken n) :
      StackStep st (.take pass accepts maxRecords opensScan opensRead) (.taken r) st
  | take {st : Stacks} {pass : DiskExpansion} {accepts : List (List Byte × Bool) → Bool} {maxRecords : Nat}
      {opensScan opensRead : Bool} {f : Nat} {taken rest : List StoredFrame} (hst : st false f = taken ++ rest) :
      StackStep st (.take pass accepts maxRecords opensScan opensRead) (.taken (.taken (framesRecords taken)))
        (st.set false f rest)

/-- The same run on stacks. -/
inductive StackRun : Stacks → List SpillOp → List (SpillResult P) → Stacks → Prop where
  | nil {st : Stacks} : StackRun st [] [] st
  | cons {st st' st'' : Stacks} {op : SpillOp} {ops : List SpillOp} {r : SpillResult P} {rs : List (SpillResult P)}
      (hstep : StackStep P tier st op r st') (hrun : StackRun st' ops rs st'') :
      StackRun st (op :: ops) (r :: rs) st''

end Run

/-! ## Refinement -/

/-- The files and descriptors hold these stacks. -/
structure SpillRefines (counted : Prop) (s : Spill) (st : Stacks) : Prop where
  tidy : Tidy s.fs
  kept : ∀ c f, Kept c f counted s.fs (s.desc c f) (st c f)

/-- A spill just configured. -/
def freshSpill (nbFiles segmentRecords : Nat) : Spill where
  fs := .empty
  desc _ _ := ⟨0, 0, 0, 0, 0, 0⟩
  nbFiles := nbFiles
  segmentRecords := segmentRecords
  generation := 0

theorem SpillRefines.fresh (counted : Prop) (nbFiles segmentRecords : Nat) :
    SpillRefines counted (freshSpill nbFiles segmentRecords) fun _ _ => [] := by
  refine ⟨⟨fun h => absurd h (by simp [freshSpill]), fun c f seq n i h => absurd h (by simp [freshSpill]),
    fun c f seq => FileSystem.inode_empty⟩, fun c f => ⟨[], rfl, ?_, fun _ => rfl⟩⟩
  exact ⟨fun seg hseg => absurd hseg List.not_mem_nil, fun seg hseg => absurd hseg List.not_mem_nil,
    fun _ => ⟨rfl, rfl, rfl⟩, fun hne => absurd rfl hne, fun i seg hseg => absurd hseg (by simp),
    fun seg hseg => absurd hseg (by simp), rfl, fun seq _ => FileSystem.read_empty⟩

/-- The scans of a segment that becomes the top again find its file. -/
def SpillOp.ScansOpen : SpillOp → Prop
  | .reload _ _ _ env => env.commitScans = true
  | _ => True

section SpillRefines

variable {P : Puzzle} {tier : TierCodec} {counted : Prop} {s : Spill} {st : Stacks}

/-- One stack replaced and the others not touched. -/
theorem SpillRefines.update (h : SpillRefines counted s st) {s' : Spill} {c : Bool} {f : Nat} {frames : List StoredFrame}
    (htidy : Tidy s'.fs) (hkept : Kept c f counted s'.fs (s'.desc c f) frames)
    (hdesc : ∀ c' f', ¬ (c' = c ∧ f' = f) → s'.desc c' f' = s.desc c' f')
    (hfiles : ∀ c' f' seq, ¬ (c' = c ∧ f' = f) → Untouched s.fs s'.fs (.live c' f' seq)) :
    SpillRefines counted s' (st.set c f frames) := by
  refine ⟨htidy, fun c' f' => ?_⟩
  by_cases heq : c' = c ∧ f' = f
  · obtain ⟨rfl, rfl⟩ := heq
    rwa [Stacks.set_self]
  · rw [st.set_of_ne frames heq, hdesc c' f' heq]
    exact (h.kept c' f').congr fun seq => hfiles c' f' seq heq

/-- One operation on the files is one on the stacks. -/
theorem spillStep_refines (h : SpillRefines counted s st) (op : SpillOp) (hscans : counted → op.ScansOpen) :
    ∃ st', StackStep P tier st op (spillStep P tier s op).2 st' ∧ SpillRefines counted (spillStep P tier s op).1 st' := by
  cases op with
  | append c f frames valid env =>
    obtain ⟨htidy, hle, hkept, huntouched⟩ :=
      spillAppendFrames_spec h.tidy (h.kept c f) valid s.segmentRecords env
    refine ⟨_, .append hle, h.update htidy (by simpa [spillStep] using hkept)
      (fun c' f' hne => Spill.put_desc_of_ne hne) fun c' f' seq hne => huntouched _ (fun seq' => ⟨?_, by simp⟩)
        fun _ _ _ _ _ i hi hi' => absurd (h.tidy.live_inj hi hi') ?_⟩
    · exact SpillName.live_ne_live hne
    · exact SpillName.live_ne_live hne
  | reload c f maxPackets env =>
    obtain ⟨kept, taken, packets, hst, htaken, hresult, hkept⟩ :=
      stockSpillReload_spec (P := P) (h.kept c f) hscans
    obtain ⟨htidy, hdesc, huntouched⟩ := stockSpillReload_frame (P := P)
      h.tidy (h.kept c f)
    refine ⟨st.set c f kept, ?_, h.update htidy hkept hdesc fun c' f' seq hne => huntouched _ fun seq' => ?_⟩
    · show StackStep P tier st _ (.reloaded (stockSpillReload P tier s c f maxPackets env).2) _
      rw [hresult]
      exact .reload hst htaken
    · exact SpillName.live_ne_live hne
  | reset f env =>
    by_cases hlast : (s.desc true f).lastSeq = 0
    · refine ⟨(st.set false f (st false f ++ [])).set true f (st true f), ?_, ?_⟩
      · simp only [spillStep, if_pos hlast]
        exact .reset rfl rfl (.inl ⟨rfl, rfl⟩)
      · simp only [spillStep, if_pos hlast, List.append_nil, Stacks.set_eq_self]
        exact h
    · obtain ⟨htidy, huntouched, hdesc, moved, frames, rest, hst, hmoved, hrecords, hkept, hkept'⟩ :=
        resetBottom_spec (P := P) h.tidy (h.kept false f) (h.kept true f) hlast
      simp only [spillStep, if_neg hlast]
      refine ⟨_, .reset hst hmoved hrecords, htidy, fun c' f' => ?_⟩
      by_cases hf : f' = f
      · subst hf
        cases c' with
        | true => rwa [Stacks.set_self]
        | false => rwa [Stacks.set_of_ne _ _ (by simp), Stacks.set_self]
      · rw [Stacks.set_of_ne _ _ fun heq => hf heq.2, Stacks.set_of_ne _ _ fun heq => hf heq.2, hdesc c' f' hf]
        refine (h.kept c' f').congr fun seq => huntouched _ ?_ (by simp) fun seq' => ⟨?_, by simp⟩
        · simp only [ne_eq, SpillName.live.injEq]
          exact fun heq => hf heq.2.1
        · simp only [ne_eq, SpillName.live.injEq]
          exact fun heq => hf heq.2.1
  | take pass accepts maxRecords opensScan opensRead =>
    simp only [spillStep, stockSpillDiskExpansionTake]
    cases hscan : diskTakeScan s pass maxRecords opensScan with
    | inl r =>
      refine ⟨st, .takeNone fun n hr => ?_, h⟩
      obtain rfl : r = .taken n := hr
      exact diskTakeScan_ne_taken hscan
    | inr scan =>
      dsimp only
      split
      · choose segs hflat hholds hcounts using fun f => h.kept false f
        obtain ⟨-, seg, rest, hsegs, hspec⟩ := diskTakeScan_spec hholds hscan
        have hholds := hholds scan.pick.file
        have hcounts := hcounts scan.pick.file
        have hst := hflat scan.pick.file
        rw [hsegs] at hholds hcounts hst
        refine ⟨_, hspec.records ▸ .take hst.symm, h.update (h.tidy.unlink _)
          ⟨rest, rfl, diskTakeCommit_spec (e := pass) hholds hcounts hspec.seq hspec.records⟩
          (fun c' f' hne => diskTakeCommit_desc_of_ne (e := pass) hne) fun c' f' seq hne => untouched_unlink ?_⟩
        exact SpillName.live_ne_live hne
      · exact ⟨st, .takeNone fun n hr => by simp at hr, h⟩

/-- A run on the files is one on the stacks. -/
theorem spillRun_refines (h : SpillRefines counted s st) (ops : List SpillOp)
    (hscans : counted → ∀ op ∈ ops, op.ScansOpen) :
    ∃ st', StackRun P tier st ops (spillRun P tier s ops).2 st' ∧ SpillRefines counted (spillRun P tier s ops).1 st' := by
  induction ops generalizing s st with
  | nil => exact ⟨st, .nil, h⟩
  | cons op ops ih =>
    obtain ⟨st', hstep, h'⟩ := spillStep_refines (P := P) h op fun hc => hscans hc op List.mem_cons_self
    obtain ⟨st'', hrun, h''⟩ := ih h' fun hc op' hop => hscans hc op' (List.mem_cons_of_mem _ hop)
    exact ⟨st'', .cons hstep hrun, h''⟩

end SpillRefines

/-! ## What a stack is on disk -/

/-- A descriptor and its segment files are a stack of these frames: where it is empty, what its
counters count, and what its files give read forward and back from the logical top. -/
structure SpillStack (s : Spill) (c : Bool) (f : Nat) (frames : List StoredFrame) : Prop where
  empty : (s.desc c f).lastSeq = 0 ↔ frames = []
  packets : (s.desc c f).packets = framesRecords frames
  segments : ∃ segs : List (List StoredFrame), segs.flatten = frames ∧
    (segs ≠ [] → (s.desc c f).lastSeq + 1 = (s.desc c f).firstSeq + segs.length) ∧
    (∀ i seg, segs[i]? = some seg → ∃ content, s.fs.read (.live c f ((s.desc c f).firstSeq + i)) = some content ∧
      (i + 1 < segs.length → content.length = (framesBytes seg).length) ∧
      spillForEachStoredFrame content (some (framesBytes seg).length) = (seg, true)) ∧
    ∀ top, segs.getLast? = some top → (s.desc c f).tailBytes = (framesBytes top).length ∧
      (s.desc c f).tailRecords = framesRecords top ∧
      ∀ content, s.fs.read (.live c f (s.desc c f).lastSeq) = some content → ∀ maxPackets, ∃ pre suf,
        top = pre ++ suf ∧ suf ≠ [] ∧
        spillBackLoop content maxPackets ((s.desc c f).tailBytes + 1) (s.desc c f).tailBytes 0 =
          some ((framesBytes pre).length, framesRecords suf)

section Stack

variable {P : Puzzle} {tier : TierCodec} {s : Spill} {st : Stacks} {c : Bool} {f : Nat}

theorem Kept.spillStack {frames : List StoredFrame} (h : Kept c f True s.fs (s.desc c f) frames) :
    SpillStack s c f frames := by
  obtain ⟨segs, hkept, hholds, hcounts⟩ := h
  refine ⟨?_, by rw [hholds.packets, hkept], segs, hkept, fun hne => (hholds.seqs hne).2, fun i seg hseg => ?_,
    fun top htop => ?_⟩
  · rw [hholds.lastSeq_eq_zero, ← hkept]
    constructor
    · rintro rfl
      rfl
    · intro hnil
      by_contra hne
      obtain ⟨seg, hseg⟩ := List.exists_mem_of_ne_nil segs hne
      exact hholds.nonempty seg hseg (List.flatten_eq_nil_iff.mp hnil seg hseg)
  · obtain ⟨rest, hfile, hrest⟩ := hholds.file i seg hseg
    refine ⟨_, hfile, fun hlt => by rw [hrest hlt, List.append_nil], ?_⟩
    exact spillForEachStoredFrame_framesBytes (hholds.valid seg (List.mem_of_getElem? hseg)) rest
  · obtain ⟨lower, top', rfl⟩ := (Holds.cases_top segs).resolve_left fun hnil => by
      rw [hnil] at htop
      exact absurd htop (by simp)
    obtain rfl : top' = top := by simpa using htop
    obtain ⟨-, -, htail, rest, hfile⟩ := hholds.top_file
    refine ⟨htail, by simpa [CountsTail] using hcounts trivial, fun content hcontent maxPackets => ?_⟩
    obtain rfl := Option.some.inj (hcontent.symm.trans hfile)
    obtain ⟨pre, suf, hsplit, hback, hsuf⟩ := spillBackLoop_framesBytes
      hholds.valid_top (Nat.lt_succ_of_le (length_le_framesBytes hholds.valid_top)) 0
    rw [Nat.zero_add] at hback
    exact ⟨pre, suf, hsplit, hsuf rfl hholds.nonempty_top, by rw [htail, hback]⟩

/-- In every run where no scan of a segment that becomes the top again fails to open its file, the
spill is the stacks that the run leaves. -/
theorem spillRun_stacks (h : SpillRefines True s st) (ops : List SpillOp) (hscans : ∀ op ∈ ops, op.ScansOpen) :
    ∃ st', StackRun P tier st ops (spillRun P tier s ops).2 st' ∧
      ∀ c f, SpillStack (spillRun P tier s ops).1 c f (st' c f) := by
  obtain ⟨st', hrun, h'⟩ := spillRun_refines (P := P) h ops fun _ => hscans
  exact ⟨st', hrun, fun c f => (h'.kept c f).spillStack⟩

/-- A frame of one record, the empty board. -/
def emptyBoardFrame : StoredFrame := ⟨⟨stockTierCodecRaw, 1, 8, 8⟩, List.replicate 8 0#8⟩

theorem emptyBoardFrame_valid : emptyBoardFrame.Valid := by
  constructor <;> decide

/-- Calls that all succeed. -/
def allOpen : AppendEnv where
  frame _ := ⟨true, 0, ⟨true, ⟨true, true, none⟩, true⟩, ⟨true, ⟨true, true, none⟩, true⟩, true, none⟩
  closes := true
  closeKeeps := 0

/-- Two frames appended, in a segment each, and a reload of the top one. -/
def rollThenReload (commitScans : Bool) : List SpillOp :=
  [.append false 0 [emptyBoardFrame, emptyBoardFrame] (by simpa using emptyBoardFrame_valid) allOpen,
    .reload false 0 1 ⟨fun _ => true, true, commitScans⟩]

theorem spillRun_stacks_rollThenReload :
    ∃ st', StackRun .p16 ⟨none, false⟩ (fun _ _ => []) (rollThenReload true)
        (spillRun .p16 ⟨none, false⟩ (freshSpill 1 1) (rollThenReload true)).2 st' ∧
      ∀ c f, SpillStack (spillRun .p16 ⟨none, false⟩ (freshSpill 1 1) (rollThenReload true)).1 c f (st' c f) := by
  apply spillRun_stacks (SpillRefines.fresh True 1 1)
  intro op hop
  simp only [rollThenReload, List.mem_cons, List.not_mem_nil, or_false] at hop
  rcases hop with rfl | rfl
  · exact trivial
  · rfl

/-- When that scan does not open its file, the top is left with a count of none. -/
theorem spillRun_scan_fails :
    ¬ ∃ frames, SpillStack (spillRun .p16 ⟨none, false⟩ (freshSpill 1 1) (rollThenReload false)).1 false 0 frames := by
  have hdesc : (spillRun .p16 ⟨none, false⟩ (freshSpill 1 1) (rollThenReload false)).1.desc false 0 =
      ⟨1, 1, 1, 40, 0, 1⟩ := by decide +kernel
  rintro ⟨frames, hstack⟩
  obtain ⟨segs, hkept, hseqs, -, htop⟩ := hstack.segments
  have hpackets := hstack.packets
  rw [hdesc] at hseqs htop hpackets
  have hone : segs.length ≤ 1 := by
    by_cases hnil : segs = []
    · simp [hnil]
    · have := hseqs hnil
      dsimp only at this
      omega
  match segs, hone with
  | [], _ =>
    subst hkept
    exact absurd hpackets (by decide)
  | [top], _ =>
    have hcount := (htop top rfl).2.1
    rw [← hkept, List.flatten_singleton, ← hcount] at hpackets
    exact absurd hpackets (by decide)

end Stack
