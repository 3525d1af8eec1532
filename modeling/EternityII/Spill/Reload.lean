-- SUMMARY: Reading back: a reload takes the frames at the top of a stack, or leaves it as it is.
import EternityII.Spill.Append

/-!
# Reading back

A reload goes back from the logical top, frame by frame, and decodes what it has passed. Only then
does the logical top move, so that a frame that does not decode stays where it is.
-/

section Frames

variable {P : Puzzle} {tier : TierCodec} {frames pre suf : List StoredFrame}

/-- The packets of a frame. -/
def framePackets (P : Puzzle) (tier : TierCodec) (fr : StoredFrame) : Option (List (Packet P)) :=
  (stockTierUnpack P tier fr.info.codec fr.stored fr.info.rawBytes fr.info.records).bind fun raw =>
    (tierRecords P raw).bind fun records => records.mapM (recordPacket P)

/-- The packets of some frames. -/
def framesPackets (P : Puzzle) (tier : TierCodec) (frames : List StoredFrame) : Option (List (Packet P)) :=
  (frames.mapM (framePackets P tier)).map List.flatten

/-- One pass after another, where the second does no more than a third. -/
theorem mapM_bind {α β γ : Type*} {g : α → Option β} {h k : β → Option γ} (hk : ∀ b c, h b = some c → k b = some c)
    {as : List α} {bs : List β} {cs : List γ} (hg : as.mapM g = some bs) (hh : bs.mapM h = some cs) :
    as.mapM (fun a => (g a).bind k) = some cs := by
  induction as generalizing bs cs with
  | nil =>
    obtain rfl : [] = bs := by simpa using hg
    simpa using hh
  | cons a as ih =>
    rw [List.mapM_cons] at hg ⊢
    obtain ⟨b, hb, bs', hbs, hcons⟩ : ∃ b, g a = some b ∧ ∃ bs', as.mapM g = some bs' ∧ b :: bs' = bs := by
      simpa [Option.bind_eq_some_iff] using hg
    subst hcons
    rw [List.mapM_cons] at hh
    obtain ⟨c, hc, cs', hcs, rfl⟩ : ∃ c, h b = some c ∧ ∃ cs', bs'.mapM h = some cs' ∧ c :: cs' = cs := by
      simpa [Option.bind_eq_some_iff] using hh
    rw [ih hbs hcs, hb]
    simp [hk b c hc]

theorem framesPackets_nil : framesPackets P tier [] = some [] := rfl

/-- What `tier_decode_block` gives does not depend on the room it has. -/
theorem tierDecodeBlock_eq_some {raw : List Byte} {max : Nat} {packets : List (Packet P)}
    (h : tierDecodeBlock P raw max = some packets) :
    ((tierRecords P raw).bind fun records => records.mapM (recordPacket P)) = some packets := by
  unfold tierDecodeBlock at h
  split at h
  · exact absurd h (by simp)
  · rename_i records hrecords
    split at h
    · exact absurd h (by simp)
    · rw [hrecords, Option.bind_some, h]

/-- Frames read from their bytes. -/
theorem spillWalkFrames_framesBytes (h : ∀ fr ∈ frames, fr.Valid) :
    spillWalkFrames P tier (framesBytes frames) =
      frames.mapM fun fr => stockTierUnpack P tier fr.info.codec fr.stored fr.info.rawBytes fr.info.records := by
  unfold spillWalkFrames
  rw [spillForEachStoredFrame_all h]
  rfl

end Frames

section Reload

variable {P : Puzzle} {tier : TierCodec} {fs : SpillFs} {c : Bool} {f : Nat} {desc desc' : SpillDescriptor}
  {counted : Prop} {kept : List StoredFrame} {segs lower : List (List StoredFrame)} {top : List StoredFrame}

theorem spillDropTop_fs (scans : Bool) :
    (spillDropTop fs c f desc scans).1 = fs.unlink (.live c f desc.lastSeq) := by
  unfold spillDropTop
  dsimp only
  split <;> rfl

/-- An emptied top goes, and the segment under it is the top, with its size and its count. -/
theorem spillDropTop_spec (h : Holds (segmentFiles fs c f) desc (lower ++ [top]))
    (hfirst : desc'.firstSeq = desc.firstSeq) (hlast : desc'.lastSeq = desc.lastSeq)
    (hpackets : desc'.packets + framesRecords top = desc.packets) (scans : Bool) :
    Holds (segmentFiles (fs.unlink (.live c f desc.lastSeq)) c f) (spillDropTop fs c f desc' scans).2 lower ∧
      (scans = true → CountsTail (spillDropTop fs c f desc' scans).2 lower) := by
  obtain ⟨hseq, hpos, -, -⟩ := h.top_file
  have hothers : ∀ seq, seq ≠ desc.lastSeq →
      segmentFiles (fs.unlink (.live c f desc.lastSeq)) c f seq = segmentFiles fs c f seq :=
    fun seq hne => segmentFiles_unlink_ne hne
  unfold spillDropTop
  dsimp only
  rcases Holds.cases_top lower with rfl | ⟨lower, below, rfl⟩
  · rw [List.length_nil] at hseq
    rw [if_pos (by omega)]
    refine ⟨h.pop segmentFiles_unlink_self hothers (fun _ => ⟨rfl, rfl, rfl⟩) (fun hne => absurd rfl hne)
      (fun seg hseg => absurd hseg (by simp)) hpackets, fun _ => rfl⟩
  · rw [List.length_append, List.length_singleton] at hseq
    rw [if_neg (by omega), hlast]
    have hvalid : ∀ fr ∈ below, fr.Valid := h.valid below (by simp)
    have hbelow : (fs.unlink (.live c f desc.lastSeq)).read (.live c f (desc.lastSeq - 1)) =
        some (framesBytes below) := by
      obtain ⟨rest, hfile, hrest⟩ := h.file lower.length below (by simp)
      rw [hrest (by simp), List.append_nil, show desc.firstSeq + lower.length = desc.lastSeq - 1 by omega] at hfile
      have := hothers (desc.lastSeq - 1) (by omega)
      rw [hfile] at this
      exact this
    have hscan := spillForEachStoredFrame_framesBytes hvalid []
    rw [List.append_nil] at hscan
    unfold spillLoadTop
    dsimp only
    rw [hbelow]
    dsimp only
    refine ⟨h.pop segmentFiles_unlink_self hothers (fun hnil => absurd hnil (by simp)) (fun _ => ⟨hfirst, ?_⟩)
      (fun seg hseg => ?_) hpackets, fun hscans => ?_⟩
    · dsimp only
      omega
    · obtain rfl : below = seg := by simpa using hseg
      rfl
    · unfold CountsTail spillScanSegment
      dsimp only
      rw [if_pos hscans, hscan]
      simp

/-- A stack has no empty top to drop. -/
theorem spillDropEmptyTops_holds (h : Holds (segmentFiles fs c f) desc segs) (scans : Nat → Bool) (fuel : Nat) :
    spillDropEmptyTops c f scans (fuel + 1) fs desc = (fs, desc) := by
  rw [spillDropEmptyTops, if_neg]
  rintro ⟨hlast, htail⟩
  obtain ⟨lower, top, rfl⟩ := (Holds.cases_top segs).resolve_left (mt h.lastSeq_eq_zero.mpr hlast)
  have hpos := framesBytes_length_pos h.valid_top h.nonempty_top
  rw [← h.tail top (by simp), htail] at hpos
  exact Nat.lt_irrefl 0 hpos

/-- A read takes frames at the top, one at least. -/
theorem spillReadTop_spec {maxPackets : Nat} {opens : Bool} {plan : ReloadPlan P}
    (h : Holds (segmentFiles fs c f) desc (lower ++ [top]))
    (hplan : spillReadTop P tier fs c f desc maxPackets opens = some plan) :
    ∃ pre suf, top = pre ++ suf ∧ suf ≠ [] ∧ plan.seq = desc.lastSeq ∧ plan.tail = desc.tailBytes ∧
      plan.start = (framesBytes pre).length ∧ plan.take = framesRecords suf ∧
      plan.packets.length = plan.take ∧ framesPackets P tier suf = some plan.packets := by
  obtain ⟨-, -, htail, rest, hfile⟩ := h.top_file
  have hread : fs.read (.live c f desc.lastSeq) = some (framesBytes top ++ rest) := hfile
  have hfuel : top.length < desc.tailBytes + 1 := by
    rw [htail]
    exact Nat.lt_succ_of_le (length_le_framesBytes h.valid_top)
  obtain ⟨pre, suf, htop, hback, hsuf⟩ := spillBackLoop_framesBytes
    h.valid_top hfuel 0
  rw [htail, Nat.zero_add] at hback
  have hvalid : ∀ fr ∈ suf, fr.Valid := fun fr hfr => h.valid_top fr (htop ▸ List.mem_append_right _ hfr)
  have hbytes : ((framesBytes top ++ rest).drop (framesBytes pre).length).take
      ((framesBytes top).length - (framesBytes pre).length) = framesBytes suf := by
    rw [htop, framesBytes_append, List.append_assoc, List.drop_left' rfl, List.length_append,
      Nat.add_sub_cancel_left, List.take_left' rfl]
  unfold spillReadTop at hplan
  rw [hread, htail] at hplan
  split at hplan
  · exact absurd hplan (by simp)
  · rename_i content hcontent
    obtain rfl : framesBytes top ++ rest = content := by
      split at hcontent
      · exact Option.some.inj hcontent
      · exact absurd hcontent (by simp)
    rw [hback] at hplan
    dsimp only at hplan
    rw [hbytes] at hplan
    split at hplan
    · exact absurd hplan (by simp)
    · rw [spillWalkFrames_framesBytes hvalid] at hplan
      split at hplan
      · exact absurd hplan (by simp)
      · rename_i raws hraws
        split at hplan
        · exact absurd hplan (by simp)
        · rename_i packets hpackets
          split at hplan
          · rename_i hcount
            obtain rfl := (Option.some.inj hplan).symm
            refine ⟨pre, suf, htop, hsuf rfl h.nonempty_top, rfl, htail.symm, rfl, rfl, hcount, ?_⟩
            have hdecode := mapM_bind (fun raw packets => tierDecodeBlock_eq_some) hraws hpackets
            unfold framesPackets framePackets
            rw [hdecode]
            rfl
          · exact absurd hplan (by simp)

/-! ## The two critical sections -/

variable {s : Spill} {plan : ReloadPlan P} {pre suf : List StoredFrame} {n : SpillName} {maxPackets : Nat}
  {env : ReloadEnv}

/-- The first one changes nothing, and it reads from the top. -/
theorem reloadRead_spec (h : Holds (segmentFiles s.fs c f) (s.desc c f) segs) :
    (reloadRead P tier s c f maxPackets env).1 = s ∧
      ∀ plan, (reloadRead P tier s c f maxPackets env).2 = some plan → ∃ lower pre suf,
        segs = lower ++ [pre ++ suf] ∧ suf ≠ [] ∧ plan.seq = (s.desc c f).lastSeq ∧
        plan.tail = (s.desc c f).tailBytes ∧ plan.start = (framesBytes pre).length ∧
        plan.take = framesRecords suf ∧ plan.packets.length = plan.take ∧
        framesPackets P tier suf = some plan.packets := by
  unfold reloadRead
  rw [spillDropEmptyTops_holds h]
  dsimp only
  rw [Spill.put_self]
  split
  · exact ⟨rfl, fun plan hplan => absurd hplan (by simp)⟩
  · rename_i hsome
    refine ⟨rfl, fun plan hplan => ?_⟩
    obtain ⟨lower, top, rfl⟩ := (Holds.cases_top segs).resolve_left
      (mt h.lastSeq_eq_zero.mpr fun hzero => hsome (.inr hzero))
    obtain ⟨pre, suf, rfl, hspec⟩ := spillReadTop_spec h hplan
    exact ⟨lower, pre, suf, rfl, hspec⟩

theorem reloadCommit_fs : (reloadCommit s c f plan env).fs =
    if plan.start = 0 then s.fs.unlink (.live c f (s.desc c f).lastSeq) else s.fs := by
  unfold reloadCommit
  dsimp only
  rw [Spill.put_fs]
  split
  · rw [spillDropTop_fs]
  · rfl

theorem reloadCommit_desc_of_ne {c' : Bool} {f' : Nat} (h : ¬ (c' = c ∧ f' = f)) :
    (reloadCommit s c f plan env).desc c' f' = s.desc c' f' := Spill.put_desc_of_ne h

/-- The bottom keeps its number while a segment is left. -/
theorem reloadCommit_firstSeq (h : ((reloadCommit s c f plan env).desc c f).lastSeq ≠ 0) :
    ((reloadCommit s c f plan env).desc c f).firstSeq = (s.desc c f).firstSeq := by
  unfold reloadCommit at h ⊢
  dsimp only at h ⊢
  rw [Spill.put_desc_self] at h ⊢
  split at h
  · rename_i hstart
    rw [if_pos hstart]
    unfold spillDropTop at h ⊢
    dsimp only at h ⊢
    split at h
    · exact absurd rfl h
    · rename_i hle
      rw [if_neg hle]
      unfold spillLoadTop
      split <;> rfl
  · rename_i hstart
    rw [if_neg hstart]

theorem reloadCommit_tidy (h : Tidy s.fs) : Tidy (reloadCommit s c f plan env).fs := by
  rw [reloadCommit_fs]
  split
  · exact h.unlink _
  · exact h

/-- A commit unlinks a segment, or nothing. -/
theorem reloadCommit_untouched (h : ∀ seq, n ≠ .live c f seq) :
    Untouched s.fs (reloadCommit s c f plan env).fs n := by
  rw [reloadCommit_fs]
  split
  · exact untouched_unlink (h _)
  · exact .refl _ _

/-- The second one, on the stack that was read, takes the frames away. -/
theorem reloadCommit_spec (h : Holds (segmentFiles s.fs c f) (s.desc c f) (lower ++ [pre ++ suf]))
    (hcounts : counted → CountsTail (s.desc c f) (lower ++ [pre ++ suf]))
    (hstart : plan.start = (framesBytes pre).length) (htake : plan.take = framesRecords suf)
    (hscans : counted → env.commitScans = true) :
    Holds (segmentFiles (reloadCommit s c f plan env).fs c f) ((reloadCommit s c f plan env).desc c f)
        (if pre = [] then lower else lower ++ [pre]) ∧
      (counted → CountsTail ((reloadCommit s c f plan env).desc c f) (if pre = [] then lower else lower ++ [pre])) := by
  have hvalid : ∀ fr ∈ pre, fr.Valid := fun fr hfr => h.valid_top fr (List.mem_append_left _ hfr)
  have hpackets : subU64 (s.desc c f).packets plan.take + framesRecords suf = (s.desc c f).packets := by
    have hsum := h.packets
    simp only [List.flatten_append, List.flatten_cons, List.flatten_nil, List.append_nil,
      framesRecords_append] at hsum
    rw [htake, subU64, if_pos (by omega)]
    omega
  have hzero : plan.start = 0 ↔ pre = [] := by rw [hstart, framesBytes_eq_nil hvalid]
  by_cases hpre : pre = []
  · subst hpre
    rw [reloadCommit_fs, if_pos (hzero.mpr rfl)]
    unfold reloadCommit
    dsimp only
    rw [if_pos (hzero.mpr rfl), Spill.put_desc_self]
    let desc' : SpillDescriptor := { s.desc c f with
      tailBytes := plan.start
      tailRecords := if (s.desc c f).tailRecords > plan.take then (s.desc c f).tailRecords - plan.take else 0
      packets := subU64 (s.desc c f).packets plan.take }
    have hfirst : desc'.firstSeq = (s.desc c f).firstSeq := rfl
    obtain ⟨hheld, hcounted⟩ := spillDropTop_spec h hfirst rfl (by simpa using hpackets) env.commitScans
    rw [if_pos rfl]
    exact ⟨hheld, fun hc => hcounted (hscans hc)⟩
  · rw [reloadCommit_fs, if_neg (mt hzero.mp hpre)]
    unfold reloadCommit
    dsimp only
    rw [if_neg (mt hzero.mp hpre), Spill.put_desc_self]
    rw [if_neg hpre]
    refine ⟨h.shrink hpre rfl rfl hstart hpackets, fun hc => ?_⟩
    have hcount := hcounts hc
    have hpos := framesRecords_pos hvalid hpre
    unfold CountsTail at hcount ⊢
    simp only [List.getLast?_append, List.getLast?_singleton, Option.some_or, Option.getD_some,
      framesRecords_append] at hcount ⊢
    rw [htake, hcount, if_pos (by omega)]
    omega

/-- A reload run alone takes frames off the top and returns their packets, or does nothing. -/
theorem stockSpillReload_spec (h : Kept c f counted s.fs (s.desc c f) kept)
    (hscans : counted → env.commitScans = true) :
    ∃ kept' taken packets, kept = kept' ++ taken ∧ framesPackets P tier taken = some packets ∧
      (stockSpillReload P tier s c f maxPackets env).2 =
        packets.map (fun p => { p with minCandidats := possibilityMinCandidatsUnknown }) ∧
      Kept c f counted (stockSpillReload P tier s c f maxPackets env).1.fs
        ((stockSpillReload P tier s c f maxPackets env).1.desc c f) kept' := by
  obtain ⟨segs, hkept, hholds, hcounts⟩ := h
  obtain ⟨hsame, hread⟩ := reloadRead_spec (P := P) hholds
  unfold stockSpillReload
  cases hplan : reloadRead P tier s c f maxPackets env with
  | mk s' plan =>
    rw [hplan] at hsame hread
    obtain rfl : s' = s := hsame
    cases plan with
    | none => exact ⟨kept, [], [], (List.append_nil _).symm, framesPackets_nil, rfl, segs, hkept, hholds, hcounts⟩
    | some plan =>
      obtain ⟨lower, pre, suf, rfl, -, -, -, hstart, htake, -, hpackets⟩ := hread plan rfl
      refine ⟨(lower ++ [pre]).flatten, suf, plan.packets, ?_, hpackets, rfl,
        if pre = [] then lower else lower ++ [pre], ?_, reloadCommit_spec hholds hcounts hstart htake hscans⟩
      · rw [← hkept]
        simp
      · split
        · rename_i hpre
          simp [hpre]
        · rfl

/-- A reload touches nothing outside its stack. -/
theorem stockSpillReload_frame (htidy : Tidy s.fs) (h : Kept c f counted s.fs (s.desc c f) kept) :
    Tidy (stockSpillReload P tier s c f maxPackets env).1.fs ∧
      (∀ c' f', ¬ (c' = c ∧ f' = f) → (stockSpillReload P tier s c f maxPackets env).1.desc c' f' = s.desc c' f') ∧
      ∀ n, (∀ seq, n ≠ .live c f seq) → Untouched s.fs (stockSpillReload P tier s c f maxPackets env).1.fs n := by
  obtain ⟨segs, -, hholds, -⟩ := h
  obtain ⟨hsame, -⟩ := reloadRead_spec (P := P) hholds
  unfold stockSpillReload
  cases hplan : reloadRead P tier s c f maxPackets env with
  | mk s' plan =>
    rw [hplan] at hsame
    obtain rfl : s' = s := hsame
    cases plan with
    | none => exact ⟨htidy, fun _ _ _ => rfl, fun n _ => .refl _ n⟩
    | some plan => exact ⟨reloadCommit_tidy htidy, fun c' f' hne => reloadCommit_desc_of_ne hne,
        fun n hn => reloadCommit_untouched hn⟩

end Reload
