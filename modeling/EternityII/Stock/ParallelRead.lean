-- SUMMARY: What the reader of the parallel input has returned, in every interleaving of its parties.
import EternityII.Base.Runs
import EternityII.Stock.ParallelRing

/-! ## The reader -/

/-- What the call under way has copied. -/
def PinReader.dst : PinReader → List Byte
  | .idle => []
  | .reading _ dst => dst
  | .copying _ dst => dst
  | .releasing _ dst => dst

/-- The bytes that the calls of `pin_read` have returned. -/
def Pin.returned (p : Pin) : List Byte := p.results.flatMap fun result => result.2.getD []

/-- The bytes of the slots that the reader has been through, and of the first `pos` of the next. -/
def delivered (items : List PinItem) (consumed pos : Nat) : List Byte :=
  (items.take consumed).flatMap PinItem.bytes ++ (items[consumed]?.elim [] PinItem.bytes).take pos

/-- The slot that the reader is at is ready, and it has `pos` of its bytes. -/
def Pin.AtReady (ringN : Nat) (p : Pin) : Prop :=
  p.consumed < p.produced ∧ (p.slot ringN p.consumed).state = .ready ∧ p.pos ≤ (p.slot ringN p.consumed).outLen

/-- What is true of the slot that the reader is at. -/
def PinReader.At (ringN : Nat) (p : Pin) : PinReader → Prop
  | .idle => True
  | .reading _ _ => True
  | .copying cap dst => p.AtReady ringN ∧ dst.length < cap
  | .releasing _ _ => p.AtReady ringN ∧ p.pos = (p.slot ringN p.consumed).outLen

/-- The reader goes past good slots only, it has returned what it has read, and an error stays. -/
structure PinReads (ringN : Nat) (frames : List PinFrame) (items : List PinItem) (p : Pin) : Prop where
  passed : ∀ item ∈ items.take p.consumed, item.Good
  running : p.reader ≠ .idle → p.stop = false
  part : p.pos = 0 ∨ p.AtReady ringN
  place : p.reader.At ringN p
  account : (∀ result ∈ p.results, result.2 ≠ none) → p.returned ++ p.reader.dst = delivered items p.consumed p.pos
  failed : (∃ result ∈ p.results, result.2 = none) → p.consumed < p.produced ∧
    (p.slot ringN p.consumed).state = .error ∧ p.reader.dst = [] ∧ p.returned <+: delivered items p.consumed p.pos
  stays : p.results.Pairwise fun result next => result.2 = none → next.2 = none ∨ next.2 = some []
  short : ∀ cap dst, (cap, some dst) ∈ p.results → dst.length < cap →
    (∀ f ∈ frames, f.Intact) ∧ p.returned = frames.flatMap PinFrame.content

/-- A step of another party: the reader is where it was, and the slot that it is at is left alone once it
is ready or has an error. -/
structure Pin.Others (ringN : Nat) (p p' : Pin) : Prop where
  consumed : p'.consumed = p.consumed
  produced : p.produced ≤ p'.produced
  pos : p'.pos = p.pos
  stop : p'.stop = p.stop
  reader : p'.reader = p.reader
  results : p'.results = p.results
  slot : p.consumed < p.produced → (p.slot ringN p.consumed).state = .ready ∨ (p.slot ringN p.consumed).state = .error →
    p'.slot ringN p.consumed = p.slot ringN p.consumed

section Reads

variable {ringN : Nat} {frames : List PinFrame} {items items' : List PinItem} {p p' : Pin}

theorem Pin.AtReady.others (h : p.AtReady ringN) (hothers : p.Others ringN p') : p'.AtReady ringN := by
  obtain ⟨hlt, hready, hpos⟩ := h
  rw [AtReady, hothers.consumed, hothers.pos, hothers.slot hlt (.inl hready)]
  exact ⟨hlt.trans_le hothers.produced, hready, hpos⟩

theorem take_prefix (hinit : items <+: items') {n : Nat} (hn : n ≤ items.length) : items'.take n = items.take n := by
  obtain ⟨more, rfl⟩ := hinit
  exact List.take_append_of_le_length hn

/-- Items that are published leave what the reader has taken. -/
theorem delivered_prefix (hinit : items <+: items') {consumed pos : Nat} (hle : consumed ≤ items.length)
    (hpos : pos = 0 ∨ consumed < items.length) : delivered items' consumed pos = delivered items consumed pos := by
  rw [delivered, delivered, take_prefix hinit hle]
  rcases hpos with rfl | hlt
  · rw [List.take_zero, List.take_zero]
  · obtain ⟨more, rfl⟩ := hinit
    rw [List.getElem?_append_left hlt]

/-- The steps of the other parties keep what is true of the reader. -/
theorem PinReads.others (h : PinReads ringN frames items p) (hring : PinRing ringN items p)
    (hothers : p.Others ringN p') (hinit : items <+: items') : PinReads ringN frames items' p' := by
  have hlower : p.consumed ≤ items.length := hring.length ▸ hring.lower
  have hdelivered : delivered items' p.consumed p.pos = delivered items p.consumed p.pos := by
    refine delivered_prefix hinit hlower ?_
    rcases h.part with hzero | hready
    · exact .inl hzero
    · exact .inr (hring.length ▸ hready.1)
  have hreturned : p'.returned = p.returned := congrArg (List.flatMap _) hothers.results
  refine ⟨?_, ?_, ?_, ?_, ?_, ?_, ?_, ?_⟩
  · rw [hothers.consumed, take_prefix hinit hlower]
    exact h.passed
  · rw [hothers.reader, hothers.stop]
    exact h.running
  · rw [hothers.pos]
    exact h.part.imp_right fun hready => hready.others hothers
  · rw [hothers.reader]
    have hplace := h.place
    cases hreader : p.reader with
    | idle => trivial
    | reading cap dst => trivial
    | copying cap dst =>
      rw [hreader] at hplace
      exact ⟨hplace.1.others hothers, hplace.2⟩
    | releasing cap dst =>
      rw [hreader] at hplace
      obtain ⟨hready, hpos⟩ := hplace
      refine ⟨hready.others hothers, ?_⟩
      rw [hothers.consumed, hothers.pos, hothers.slot hready.1 (.inl hready.2.1)]
      exact hpos
  · rw [hothers.results, hreturned, hothers.reader, hothers.consumed, hothers.pos, hdelivered]
    exact h.account
  · rw [hothers.results, hreturned, hothers.reader, hothers.consumed, hothers.pos, hdelivered]
    intro hnone
    obtain ⟨hlt, herror, hdst, hpre⟩ := h.failed hnone
    rw [hothers.slot hlt (.inr herror)]
    exact ⟨hlt.trans_le hothers.produced, herror, hdst, hpre⟩
  · rw [hothers.results]
    exact h.stays
  · rw [hothers.results, hreturned]
    exact h.short

/-- What the reader has taken is read out of the frames. -/
theorem PinReads.delivered_readable (h : PinReads ringN frames items p) (hring : PinRing ringN items p)
    (hpublished : p.dispatcher.Published frames items p.stop) :
    delivered items p.consumed p.pos <+: PinFrame.readable frames := by
  rcases h.part with hzero | ⟨hlt, hready, -⟩
  · rw [delivered, hzero, List.take_zero, List.append_nil]
    exact hpublished.good_initial (List.take_prefix ..) h.passed
  · obtain ⟨item, hitem, hholds⟩ := hring.exists_item le_rfl hlt
    have htake : items.take (p.consumed + 1) = items.take p.consumed ++ [item] := by
      rw [List.take_add_one, hitem]
      rfl
    have hgood : ∀ item' ∈ items.take (p.consumed + 1), item'.Good := by
      intro item' hitem'
      rw [htake] at hitem'
      rcases List.mem_append.mp hitem' with hold | hnew
      · exact h.passed item' hold
      · rw [List.mem_singleton.mp hnew]
        exact (hholds.ready hready).1
    refine List.IsPrefix.trans ?_ (hpublished.good_initial (List.take_prefix ..) hgood)
    rw [delivered, htake, hitem, List.flatMap_append]
    refine (List.prefix_append_right_inj _).mpr ?_
    simpa using List.take_prefix ..

/-- All that the calls have returned, and what the call under way has copied, is read out of the frames. -/
theorem PinReads.returned_readable (h : PinReads ringN frames items p) (hring : PinRing ringN items p)
    (hpublished : p.dispatcher.Published frames items p.stop) :
    p.returned ++ p.reader.dst <+: PinFrame.readable frames := by
  by_cases hnone : ∃ result ∈ p.results, result.2 = none
  · obtain ⟨-, -, hdst, hpre⟩ := h.failed hnone
    rw [hdst, List.append_nil]
    exact hpre.trans (h.delivered_readable hring hpublished)
  · rw [h.account fun result hresult hcontra => hnone ⟨result, hresult, hcontra⟩]
    exact h.delivered_readable hring hpublished

end Reads

/-! ## The steps -/

/-- What a step of the dispatcher does: it goes on, writes into the slot reserved, or publishes it. -/
inductive Pin.Dispatches (ringN : Nat) (p : Pin) : Pin → Prop
  | goes (d : PinDispatcher) (hroom : d.Working → p.dispatcher.Working ∨ p.produced - p.consumed < ringN)
      (hpublished : ∀ frames items, p.dispatcher.Published frames items p.stop → d.Published frames items p.stop) :
      Dispatches ringN p { p with dispatcher := d }
  | writes (s : PinSlot) (hworking : p.dispatcher.Working) (hstate : s.state = (p.slot ringN p.produced).state) :
      Dispatches ringN p (p.setSlot ringN p.produced s)
  | publishes (item : PinItem) (s : PinSlot) (d : PinDispatcher) (hworking : p.dispatcher.Working) (hitem : item.Holds s)
      (hidle : s.state ≠ .inProgress) (hd : ¬ d.Working)
      (hpublished : ∀ frames items, p.dispatcher.Published frames items p.stop →
        d.Published frames (items ++ [item]) p.stop) :
      Dispatches ringN p { p.setSlot ringN p.produced s with produced := p.produced + 1, dispatcher := d }

namespace Pin

variable {ringN nworkers : Nat} {recovers : PinFrame → Bool} {p p' : Pin} {items items' : List PinItem}
variable {frames rest : List PinFrame} {label : PinLabel}

/-- What is published before the next job is what is published at the head of the loop. -/
theorem splitFrame_published (h : Whole frames rest items) : (splitFrame rest).Published frames items [] := by
  cases rest with
  | nil => exact h
  | cons f rest =>
    cases hsize : f.contentSize with
    | known cs =>
      have hne : f.contentSize ≠ .error := by simp [hsize]
      by_cases hfits : cs ≤ pinFrameMax ∧ f.whole = true
      · rw [show splitFrame (f :: rest) = .frame f rest by simp [splitFrame, hsize, hfits]]
        exact ⟨h, cs, hsize⟩
      · have hchunk : ∀ rest, splitFrame (f :: rest) = .chunk f rest f.content := by
          intro rest
          simp only [splitFrame, hsize, if_neg hfits]
        rw [hchunk]
        exact ⟨h.within hne, hchunk, Nat.zero_le _⟩
    | unknown =>
      have hchunk : ∀ rest, splitFrame (f :: rest) = .chunk f rest f.content := by
        intro rest
        simp only [splitFrame, hsize]
      rw [hchunk]
      exact ⟨h.within (by simp [hsize]), hchunk, Nat.zero_le _⟩
    | error =>
      rw [show splitFrame (f :: rest) = .last true by simp [splitFrame, hsize]]
      exact h.partly

theorem dispatch_top (hd : p.dispatcher = .top rest) (h : p.dispatchStep ringN recovers (.top rest) label = some p') :
    p.Dispatches ringN p' := by
  cases label with
  | split =>
    cases Option.some.inj h
    refine .goes _ (fun hworking => absurd hworking id) fun frames items hpublished => ?_
    rw [hd] at hpublished
    exact splitFrame_published hpublished
  | fault =>
    cases Option.some.inj h
    refine .goes _ (fun hworking => absurd hworking id) fun frames items hpublished => ?_
    rw [hd] at hpublished
    exact hpublished.partly
  | _ => cases h

/-- The dispatcher goes to its last slot. -/
theorem dispatches_last (hpublished : ∀ frames items, p.dispatcher.Published frames items p.stop → Partly frames items) :
    p.Dispatches ringN { p with dispatcher := .reserve (.last true) } :=
  .goes _ (fun hworking => absurd hworking id) hpublished

theorem dispatch_fault {job : PinJob} (hpublished : ∀ frames items, p.dispatcher.Published frames items p.stop →
    Partly frames items) (h : p.dispatchFault job = some p') : p.Dispatches ringN p' := by
  cases job with
  | last err => cases h
  | frame f rest => exact Option.some.inj h ▸ dispatches_last hpublished
  | chunk f rest left => exact Option.some.inj h ▸ dispatches_last hpublished

theorem dispatch_reserve {job : PinJob} (hd : p.dispatcher = .reserve job) (h : p.pinReserve ringN job = some p') :
    p.Dispatches ringN p' := by
  have hpartly : ∀ frames items, p.dispatcher.Published frames items p.stop → Partly frames items := by
    intro frames items hpublished
    rw [hd] at hpublished
    exact PinJob.Published.partly hpublished
  by_cases hstop : p.stop = true
  · rw [pinReserve, if_pos hstop] at h
    cases job with
    | last err =>
      cases Option.some.inj h
      exact .goes .finished (fun hworking => absurd hworking id) fun frames items hpublished =>
        .inl ⟨hstop, hpartly frames items hpublished⟩
    | frame f rest => exact Option.some.inj h ▸ dispatches_last hpartly
    | chunk f rest left => exact Option.some.inj h ▸ dispatches_last hpartly
  · rw [pinReserve, if_neg hstop] at h
    split_ifs at h with hfull
    cases Option.some.inj h
    refine .goes _ (fun _ => .inr (Nat.lt_of_not_le hfull)) fun frames items hpublished => ?_
    rw [hd] at hpublished
    exact hpublished

theorem dispatch_stream {job : PinJob} {o : List Byte} {n : Nat} (hd : p.dispatcher = .fill job o)
    (h : p.decompressStream n o job = some p') : p.Dispatches ringN p' := by
  cases job with
  | frame f rest => cases h
  | last err => cases h
  | chunk f rest left =>
    rw [decompressStream, Option.ite_none_right_eq_some] at h
    obtain ⟨⟨-, -, hn⟩, hp'⟩ := h
    cases Option.some.inj hp'
    refine .goes _ (fun _ => .inl (by rw [hd]; trivial)) fun frames items hpublished => ?_
    rw [hd] at hpublished
    refine ⟨?_, hpublished.2.1, ?_⟩
    · rw [List.append_assoc, List.take_append_drop]
      exact hpublished.1
    · rw [List.length_append, List.length_take]
      omega

theorem dispatch_break {job : PinJob} {o : List Byte} (hd : p.dispatcher = .fill job o)
    (h : p.breakStream o job = some p') : p.Dispatches ringN p' := by
  cases job with
  | frame f rest => cases h
  | last err => cases h
  | chunk f rest left =>
    rw [breakStream, Option.ite_none_right_eq_some] at h
    obtain ⟨failure, hfailure, rfl⟩ := Option.map_eq_some_iff.mp h.2
    cases failure with
    | truncated =>
      refine dispatches_last fun frames items hpublished => ?_
      rw [hd] at hpublished
      exact hpublished.1.partly
    | corrupt =>
      refine .goes _ (fun _ => .inl (by rw [hd]; trivial)) fun frames items hpublished => ?_
      rw [hd] at hpublished
      exact ⟨⟨rest, _, hpublished.1⟩, hpublished.2.1, hfailure⟩

/-- After a chunk the dispatcher is within its frame, or past it. -/
theorem afterChunk_published {f : PinFrame} {left : List Byte} {ended stop : Bool}
    (hended : ended = true → left = [] ∧ f.failure = none) (h : Within frames f rest left items) (hf : f.Streamed) :
    (afterChunk f rest left ended).Published frames items stop := by
  cases ended with
  | false => exact ⟨h, hf, Nat.zero_le _⟩
  | true =>
    obtain ⟨rfl, hfailure⟩ := hended rfl
    exact h.whole hfailure

theorem not_working_afterChunk {f : PinFrame} {left : List Byte} {ended : Bool} :
    ¬ (afterChunk f rest left ended).Working := by
  cases ended <;> exact id

theorem dispatch_publish {job : PinJob} {o : List Byte} {ended : Bool} (hd : p.dispatcher = .fill job o)
    (h : p.publishJob ringN ended o job = some p') : p.Dispatches ringN p' := by
  have hworking : p.dispatcher.Working := by
    rw [hd]
    trivial
  cases job with
  | frame f rest =>
    cases hsize : f.contentSize with
    | known cs =>
      simp only [publishJob, hsize, Option.some.injEq] at h
      subst h
      refine .publishes (.frame f) _ (.top rest) hworking (.inl ⟨.inl rfl, rfl⟩) (by simp) id fun frames items hpublished => ?_
      rw [hd] at hpublished
      exact hpublished.1.frame (by simp [hsize])
    | unknown => simp [publishJob, hsize] at h
    | error => simp [publishJob, hsize] at h
  | chunk f rest left =>
    rw [publishJob, Option.ite_none_right_eq_some] at h
    obtain ⟨hguard, h⟩ := h
    have hended : ended = true → left = [] ∧ f.failure = none := by
      rintro rfl
      simpa using hguard
    by_cases hempty : o = []
    · rw [if_pos hempty] at h
      cases Option.some.inj h
      refine .goes _ (fun hcontra => absurd hcontra not_working_afterChunk) fun frames items hpublished => ?_
      rw [hd, hempty] at hpublished
      exact afterChunk_published hended hpublished.1 hpublished.2.1
    · rw [if_neg hempty] at h
      cases Option.some.inj h
      refine .publishes (.chunk o) _ _ hworking ⟨rfl, rfl, rfl⟩ (by simp) not_working_afterChunk
        fun frames items hpublished => ?_
      rw [hd] at hpublished
      exact afterChunk_published hended hpublished.1.chunk hpublished.2.1
  | last err =>
    cases Option.some.inj h
    refine .publishes (.last err) _ .finished hworking rfl (by cases err <;> simp) id fun frames items hpublished => ?_
    rw [hd] at hpublished
    exact .inr ⟨items, err, rfl, hpublished⟩

theorem dispatch_cases {d : PinDispatcher} (hd : p.dispatcher = d) (h : p.dispatchStep ringN recovers d label = some p') :
    p.Dispatches ringN p' := by
  cases d with
  | top rest => exact dispatch_top hd h
  | reserve job =>
    cases label with
    | fault =>
      refine dispatch_fault (fun frames items hpublished => ?_) h
      rw [hd] at hpublished
      exact PinJob.Published.partly hpublished
    | reserve => exact dispatch_reserve hd h
    | _ => cases h
  | fill job o =>
    have hworking : p.dispatcher.Working := by
      rw [hd]
      trivial
    cases label with
    | fault =>
      refine dispatch_fault (fun frames items hpublished => ?_) h
      rw [hd] at hpublished
      exact PinJob.Published.partly hpublished
    | scribble src out outLen => exact Option.some.inj h ▸ .writes _ hworking rfl
    | inflate n => exact dispatch_stream hd h
    | breaks => exact dispatch_break hd h
    | publish ended => exact dispatch_publish hd h
    | _ => cases h
  | spoiled f =>
    have hworking : p.dispatcher.Working := by
      rw [hd]
      trivial
    cases label with
    | scribble src out outLen => exact Option.some.inj h ▸ .writes _ hworking rfl
    | giveUp =>
      obtain ⟨-, hp'⟩ := Option.ite_none_right_eq_some.mp h
      refine Option.some.inj hp' ▸ dispatches_last fun frames items hpublished => ?_
      rw [hd] at hpublished
      exact Partly.of_within hpublished.1
    | _ => cases h
  | finished => cases h

/-- A slot in use keeps what the other parties write beside it. -/
theorem others_setSlot (hring : PinRing ringN items p) {seq : Nat} {s : PinSlot} (hle : p.consumed ≤ seq)
    (hlt : seq < p.consumed + ringN) (hseq : seq < p.produced → (p.slot ringN seq).state ≠ .ready ∧
      (p.slot ringN seq).state ≠ .error) (hinuse : p.consumed < p.produced)
    (hstate : (p.slot ringN p.consumed).state = .ready ∨ (p.slot ringN p.consumed).state = .error) :
    (p.setSlot ringN seq s).slot ringN p.consumed = p.slot ringN p.consumed := by
  have hne : p.consumed ≠ seq := by
    rintro rfl
    exact hstate.elim (hseq hinuse).1 (hseq hinuse).2
  exact slot_setSlot_window hne ⟨hle, hlt⟩ (hring.in_window le_rfl hinuse)

/-- A step of the dispatcher keeps the ring and leaves the reader. -/
theorem Dispatches.keeps (h : p.Dispatches ringN p') (hring : PinRing ringN items p)
    (hpublished : p.dispatcher.Published frames items p.stop) : ∃ items', items <+: items' ∧ PinRing ringN items' p' ∧
      p'.dispatcher.Published frames items' p'.stop ∧ p.Others ringN p' := by
  cases h with
  | goes d hroom hnext =>
    refine ⟨items, List.prefix_rfl, hring.dispatch ?_, hnext frames items hpublished, ?_⟩
    · intro hworking
      rcases hroom hworking with hworking | hlt
      · exact hring.room hworking
      · omega
    · exact ⟨rfl, le_rfl, rfl, rfl, rfl, rfl, fun _ _ => rfl⟩
  | writes s hworking hstate =>
    have hroom := hring.room hworking
    refine ⟨items, List.prefix_rfl, hring.scribble hroom hstate, hpublished, ?_⟩
    exact ⟨rfl, le_rfl, rfl, rfl, rfl, rfl, others_setSlot hring hring.lower hroom fun hlt => absurd hlt (lt_irrefl _)⟩
  | publishes item s d hworking hitem hidle hd hnext =>
    have hroom := hring.room hworking
    refine ⟨items ++ [item], List.prefix_append .., hring.publish hroom hitem hidle hd, hnext frames items hpublished, ?_⟩
    exact ⟨rfl, Nat.le_succ _, rfl, rfl, rfl, rfl,
      others_setSlot hring hring.lower hroom fun hlt => absurd hlt (lt_irrefl _)⟩

theorem takeFrame_dispatcher (i : Nat) : (p.takeFrame ringN i).dispatcher = p.dispatcher := by
  by_cases hlt : p.nextPending ringN < p.produced
  · rw [show p.takeFrame ringN i = _ from if_pos hlt]
    rfl
  · rw [show p.takeFrame ringN i = _ from if_neg hlt]

/-- A worker takes a slot that is to be decompressed. -/
theorem takeFrame_others (hring : PinRing ringN items p) (i : Nat) : p.Others ringN (p.takeFrame ringN i) := by
  by_cases hlt : p.nextPending ringN < p.produced
  · have hstart : max p.pending p.consumed ≤ p.nextPending ringN := le_skipPending _ _
    have hle : p.consumed ≤ p.nextPending ringN := (le_max_right _ _).trans hstart
    have hstops : (p.slot ringN (p.nextPending ringN)).state = .toDecompress := skipPending_stops _ _ (by omega) hlt
    rw [show p.takeFrame ringN i = _ from if_pos hlt]
    refine ⟨rfl, le_rfl, rfl, rfl, rfl, rfl, others_setSlot hring hle (hring.in_window hle hlt).2 fun _ => ?_⟩
    simp [hstops]
  · rw [show p.takeFrame ringN i = _ from if_neg hlt]
    exact ⟨rfl, le_rfl, rfl, rfl, rfl, rfl, fun _ _ => rfl⟩

/-- A worker writes into a slot that is neither ready nor an error. -/
theorem worker_setSlot (hring : PinRing ringN items p) {i seq : Nat} (hi : p.workers i = some seq) (s : PinSlot)
    (hinuse : p.consumed < p.produced)
    (hstate : (p.slot ringN p.consumed).state = .ready ∨ (p.slot ringN p.consumed).state = .error) :
    (p.setSlot ringN seq s).slot ringN p.consumed = p.slot ringN p.consumed := by
  obtain ⟨hle, hlt, hprogress, -⟩ := hring.worker i seq hi
  refine others_setSlot hring hle (hring.in_window hle (hlt.trans_le hring.pending)).2 (fun _ => ?_) hinuse hstate
  simp [hprogress]

end Pin

namespace PinReads

variable {ringN cap : Nat} {frames : List PinFrame} {items : List PinItem} {p : Pin} {dst : List Byte}

/-- No call has returned an error when the reader is not at one. -/
theorem no_error (h : PinReads ringN frames items p) (hstate : (p.slot ringN p.consumed).state ≠ .error) :
    ∀ result ∈ p.results, result.2 ≠ none := by
  intro result hresult hnone
  exact hstate (h.failed ⟨result, hresult, hnone⟩).2.1

/-- A call begins. -/
theorem call (h : PinReads ringN frames items p) (hreader : p.reader = .idle) (hstop : p.stop = false) :
    PinReads ringN frames items { p with reader := .reading cap [] } := by
  refine { h with running := fun _ => hstop, place := trivial, account := ?_, failed := ?_ }
  · have haccount := h.account
    rw [hreader] at haccount
    exact haccount
  · have hfailed := h.failed
    rw [hreader] at hfailed
    exact hfailed

/-- A call returns bytes. -/
theorem returnsBytes (h : PinReads ringN frames items p) (hring : PinRing ringN items p)
    (hpublished : p.dispatcher.Published frames items p.stop) (hreader : p.reader = .reading cap dst)
    (hshort : dst.length < cap → (∀ f ∈ frames, f.Intact) ∧ p.returned ++ dst = frames.flatMap PinFrame.content) :
    PinReads ringN frames items { p with reader := .idle, results := p.results ++ [(cap, some dst)] } := by
  have hreturned : Pin.returned { p with reader := .idle, results := p.results ++ [(cap, some dst)] } = p.returned ++ dst := by
    simp [Pin.returned]
  have hreadable := h.returned_readable hring hpublished
  have haccount := h.account
  have hfailed := h.failed
  rw [hreader] at haccount hfailed hreadable
  have hold : (∃ result ∈ p.results ++ [(cap, some dst)], result.2 = none) → ∃ result ∈ p.results, result.2 = none := by
    rintro ⟨result, hresult, hnone⟩
    rcases List.mem_append.mp hresult with hresult | hresult
    · exact ⟨result, hresult, hnone⟩
    · rw [List.mem_singleton.mp hresult] at hnone
      cases hnone
  refine
    { h with
      running := fun hcontra => absurd rfl hcontra, place := trivial, account := ?_, failed := ?_, stays := ?_, short := ?_ }
  · intro hall
    rw [hreturned]
    change (p.returned ++ dst) ++ [] = _
    rw [List.append_nil]
    exact haccount fun result hresult => hall result (List.mem_append_left _ hresult)
  · intro hnone
    obtain ⟨hlt, herror, hdst, hpre⟩ := hfailed (hold hnone)
    refine ⟨hlt, herror, rfl, ?_⟩
    rw [hreturned, show dst = [] from hdst, List.append_nil]
    exact hpre
  · refine List.pairwise_append.mpr ⟨h.stays, List.pairwise_singleton .., ?_⟩
    intro result hresult next hnext hnone
    rw [List.mem_singleton.mp hnext]
    exact .inr (congrArg some (hfailed ⟨result, hresult, hnone⟩).2.2.1)
  · intro cap' dst' hmem hlt
    rw [hreturned]
    rcases List.mem_append.mp hmem with hmem | hmem
    · obtain ⟨hintact, hall⟩ := h.short cap' dst' hmem hlt
      refine ⟨hintact, ?_⟩
      have hinit : p.returned ++ dst <+: p.returned := hall ▸ hreadable.trans (PinFrame.readable_prefix frames)
      exact (hinit.eq_of_length_le (by simp)).trans hall
    · cases List.mem_singleton.mp hmem
      exact hshort hlt

/-- A call returns an error. -/
theorem returnsError (h : PinReads ringN frames items p) (hreader : p.reader = .reading cap dst)
    (hlt : p.consumed < p.produced) (herror : (p.slot ringN p.consumed).state = .error) :
    PinReads ringN frames items { p with reader := .idle, results := p.results ++ [(cap, none)] } := by
  have hreturned : Pin.returned { p with reader := .idle, results := p.results ++ [(cap, none)] } = p.returned := by
    simp [Pin.returned]
  have haccount := h.account
  rw [hreader] at haccount
  refine
    { h with
      running := fun hcontra => absurd rfl hcontra, place := trivial, account := ?_, failed := ?_, stays := ?_, short := ?_ }
  · intro hall
    exact absurd rfl (hall (cap, none) (List.mem_append_right _ (List.mem_singleton_self _)))
  · intro _
    refine ⟨hlt, herror, rfl, ?_⟩
    rw [hreturned]
    by_cases hnone : ∃ result ∈ p.results, result.2 = none
    · exact (h.failed hnone).2.2.2
    · rw [← haccount fun result hresult hcontra => hnone ⟨result, hresult, hcontra⟩]
      exact List.prefix_append ..
  · refine List.pairwise_append.mpr ⟨h.stays, List.pairwise_singleton .., ?_⟩
    intro result _ next hnext _
    rw [List.mem_singleton.mp hnext]
    exact .inl rfl
  · intro cap' dst' hmem hshort
    rw [hreturned]
    rcases List.mem_append.mp hmem with hmem | hmem
    · exact h.short cap' dst' hmem hshort
    · cases List.mem_singleton.mp hmem

/-- The reader finds the slot that it is at ready. -/
theorem finds (h : PinReads ringN frames items p) (hreader : p.reader = .reading cap dst) (hdst : dst.length < cap)
    (hlt : p.consumed < p.produced) (hready : (p.slot ringN p.consumed).state = .ready) :
    PinReads ringN frames items { p with reader := .copying cap dst } := by
  have hat : p.AtReady ringN := by
    rcases h.part with hzero | hat
    · exact ⟨hlt, hready, hzero ▸ Nat.zero_le _⟩
    · exact hat
  have haccount := h.account
  have hfailed := h.failed
  rw [hreader] at haccount hfailed
  refine { h with running := fun _ => h.running ?_, place := ⟨hat, hdst⟩, account := haccount, failed := hfailed }
  simp [hreader]

/-- The reader copies bytes of the slot. -/
theorem copies (h : PinReads ringN frames items p) (hring : PinRing ringN items p) (hreader : p.reader = .copying cap dst)
    {n : Nat} (hn : n ≤ (p.slot ringN p.consumed).outLen - p.pos) {reader : PinReader}
    (hdst : reader.dst = dst ++ ((p.slot ringN p.consumed).out.drop p.pos).take n)
    (hplace : (p.AtReady ringN → reader.At ringN { p with pos := p.pos + n, reader })) :
    PinReads ringN frames items { p with pos := p.pos + n, reader } := by
  have hat := h.place
  have haccount := h.account
  rw [hreader] at hat haccount
  obtain ⟨hlt, hready, hpos⟩ := hat.1
  obtain ⟨item, hitem, hholds⟩ := hring.exists_item le_rfl hlt
  obtain ⟨-, hout, hlen⟩ := hholds.ready hready
  have hnext : Pin.AtReady ringN { p with pos := p.pos + n, reader } := ⟨hlt, hready, by
    change p.pos + n ≤ (p.slot ringN p.consumed).outLen
    omega⟩
  refine { h with running := fun _ => h.running ?_, part := .inr hnext, place := hplace hat.1, account := ?_, failed := ?_ }
  · simp [hreader]
  · intro hall
    change p.returned ++ reader.dst = delivered items p.consumed (p.pos + n)
    have hbefore : p.returned ++ dst = delivered items p.consumed p.pos := haccount hall
    rw [hdst, ← List.append_assoc, hbefore, delivered, delivered, hitem, List.append_assoc, hout]
    exact congrArg _ List.take_add.symm
  · rintro ⟨result, hresult, hnone⟩
    exact absurd hnone (h.no_error (by simp [hready]) result hresult)

/-- The reader gives the slot back. -/
theorem releases (h : PinReads ringN frames items p) (hring : PinRing ringN items p)
    (hreader : p.reader = .releasing cap dst) :
    PinReads ringN frames items
      { p.setSlot ringN p.consumed { p.slot ringN p.consumed with state := .free } with
        consumed := p.consumed + 1, pos := 0, reader := .reading cap dst } := by
  have hat := h.place
  have haccount := h.account
  rw [hreader] at hat haccount
  obtain ⟨⟨hlt, hready, -⟩, hpos⟩ := hat
  obtain ⟨item, hitem, hholds⟩ := hring.exists_item le_rfl hlt
  obtain ⟨hgood, -, hlen⟩ := hholds.ready hready
  have htake : items.take (p.consumed + 1) = items.take p.consumed ++ [item] := by
    rw [List.take_add_one, hitem]
    rfl
  refine
    { h with
      passed := ?_, running := fun _ => h.running ?_, part := .inl rfl, place := trivial, account := ?_, failed := ?_ }
  · intro item' hitem'
    have hmem : item' ∈ items.take p.consumed ++ [item] := htake ▸ hitem'
    rcases List.mem_append.mp hmem with hold | hnew
    · exact h.passed item' hold
    · rw [List.mem_singleton.mp hnew]
      exact hgood
  · simp [hreader]
  · intro hall
    change p.returned ++ dst = delivered items (p.consumed + 1) 0
    have hbefore : p.returned ++ dst = delivered items p.consumed p.pos := haccount hall
    rw [hbefore, delivered, delivered, htake, hitem, hpos, hlen]
    simp
  · rintro ⟨result, hresult, hnone⟩
    exact absurd hnone (h.no_error (by simp [hready]) result hresult)

/-- At the last slot the reader has all the contents. -/
theorem ends (h : PinReads ringN frames items p) (hring : PinRing ringN items p)
    (hpublished : p.dispatcher.Published frames items p.stop) (hreader : p.reader = .reading cap dst)
    (hlt : p.consumed < p.produced) (hfin : (p.slot ringN p.consumed).state = .fin) :
    (∀ f ∈ frames, f.Intact) ∧ p.returned ++ dst = frames.flatMap PinFrame.content := by
  obtain ⟨item, hitem, hholds⟩ := hring.exists_item le_rfl hlt
  obtain rfl := hholds.fin hfin
  obtain ⟨items₀, rfl, hwhole⟩ := hpublished.whole_of_last (List.mem_of_getElem? hitem)
  have hlength : p.consumed = items₀.length := by
    obtain ⟨hbound, hget⟩ := List.getElem?_eq_some_iff.mp hitem
    rw [List.length_append, List.length_singleton] at hbound
    by_contra hne
    have hin : p.consumed < items₀.length := by omega
    rw [List.getElem_append_left hin] at hget
    exact hwhole.partly.not_last false (hget ▸ List.getElem_mem hin)
  have htake : (items₀ ++ [PinItem.last false]).take p.consumed = items₀ := by
    rw [hlength]
    exact List.take_left
  obtain ⟨hintact, hbytes⟩ := hwhole.all (htake ▸ h.passed)
  have haccount := h.account (h.no_error (by simp [hfin]))
  rw [hreader, delivered, htake, hitem, hbytes] at haccount
  refine ⟨hintact, haccount.trans ?_⟩
  simp [PinItem.bytes]

end PinReads

/-- The ring, what has been published in it, and what has been read. -/
def Pin.Sound (ringN : Nat) (frames : List PinFrame) (p : Pin) : Prop :=
  ∃ items, PinRing ringN items p ∧ p.dispatcher.Published frames items p.stop ∧ PinReads ringN frames items p

namespace Pin

variable {ringN nworkers : Nat} {recovers : PinFrame → Bool} {frames : List PinFrame} {p p' : Pin} {label : PinLabel}

theorem start_sound : (start frames).Sound ringN frames := by
  refine ⟨[], ?_, ⟨[], rfl, .nil⟩, ?_⟩
  · exact
      { length := rfl, lower := le_rfl, upper := Nat.zero_le _, room := fun hworking => absurd hworking id
        holds := fun _ _ _ hitem => by cases hitem
        free := fun _ _ _ => rfl
        waiting := fun _ _ hlt => absurd hlt (Nat.not_lt_zero _)
        busy := fun _ _ hlt => absurd hlt (Nat.not_lt_zero _)
        pending := le_rfl
        worker := fun _ _ hi => by cases hi
        apart := fun _ _ _ hi => by cases hi
        logged := fun _ hdec => absurd hdec List.not_mem_nil
        once := List.nodup_nil }
  · exact
      { passed := fun _ hitem => absurd hitem List.not_mem_nil
        running := fun hcontra => absurd rfl hcontra
        part := .inl rfl
        place := trivial
        account := fun _ => rfl
        failed := fun hnone => by
          obtain ⟨result, hresult, -⟩ := hnone
          exact absurd hresult List.not_mem_nil
        stays := List.Pairwise.nil
        short := fun _ _ hmem => absurd hmem List.not_mem_nil }

/-- A step of `pin_read` at the head of its loop. -/
theorem look_sound {cap : Nat} {dst : List Byte} (h : p.Sound ringN frames) (hreader : p.reader = .reading cap dst)
    (hstep : p.readStep ringN (.reading cap dst) .look = some p') : p'.Sound ringN frames := by
  obtain ⟨items, hring, hpublished, hreads⟩ := h
  simp only [readStep] at hstep
  by_cases hfull : cap ≤ dst.length
  · rw [if_pos hfull] at hstep
    cases Option.some.inj hstep
    exact ⟨items, { hring with }, hpublished, hreads.returnsBytes hring hpublished hreader fun hlt =>
      absurd hlt (Nat.not_lt.mpr hfull)⟩
  · rw [if_neg hfull] at hstep
    by_cases hempty : p.consumed = p.produced
    · rw [if_pos hempty] at hstep
      cases hstep
    · rw [if_neg hempty] at hstep
      have hlt : p.consumed < p.produced := Nat.lt_of_le_of_ne hring.lower hempty
      cases hstate : (p.slot ringN p.consumed).state with
      | error =>
        rw [hstate] at hstep
        cases Option.some.inj hstep
        exact ⟨items, { hring with }, hpublished, hreads.returnsError hreader hlt hstate⟩
      | fin =>
        rw [hstate] at hstep
        cases Option.some.inj hstep
        exact ⟨items, { hring with }, hpublished, hreads.returnsBytes hring hpublished hreader fun _ =>
          hreads.ends hring hpublished hreader hlt hstate⟩
      | ready =>
        rw [hstate] at hstep
        cases Option.some.inj hstep
        exact ⟨items, { hring with }, hpublished, hreads.finds hreader (Nat.lt_of_not_le hfull) hlt hstate⟩
      | free | toDecompress | inProgress =>
        rw [hstate] at hstep
        cases hstep

/-- A step of `pin_read`. -/
theorem read_sound {reader : PinReader} (h : p.Sound ringN frames) (hreader : p.reader = reader)
    (hstep : p.readStep ringN reader label = some p') : p'.Sound ringN frames := by
  obtain ⟨items, hring, hpublished, hreads⟩ := h
  cases reader with
  | idle =>
    cases label with
    | call cap =>
      simp only [readStep] at hstep
      split_ifs at hstep with hstop
      cases Option.some.inj hstep
      exact ⟨items, { hring with }, hpublished, hreads.call hreader (by simpa using hstop)⟩
    | _ => cases hstep
  | reading cap dst =>
    cases label with
    | look => exact look_sound ⟨items, hring, hpublished, hreads⟩ hreader hstep
    | _ => cases hstep
  | copying cap dst =>
    cases label with
    | copy =>
      simp only [readStep] at hstep
      cases Option.some.inj hstep
      refine ⟨items, { hring with }, hpublished, hreads.copies hring hreader (min_le_left _ _) ?_ ?_⟩
      · split_ifs <;> rfl
      · intro hat
        split_ifs with hall
        · exact ⟨⟨hat.1, hat.2.1, hall.le⟩, hall⟩
        · trivial
    | _ => cases hstep
  | releasing cap dst =>
    cases label with
    | release =>
      cases Option.some.inj hstep
      have hat := hreads.place
      rw [hreader] at hat
      exact ⟨items, hring.release hat.1.1 hat.1.2.1 0 _, hpublished, hreads.releases hring hreader⟩
    | _ => cases hstep

/-- Every step keeps the ring, what has been published and what has been read. -/
theorem step_sound (h : p.Sound ringN frames) (hstep : p.step ringN nworkers recovers label = some p') :
    p'.Sound ringN frames := by
  have hdispatch : p.dispatchStep ringN recovers p.dispatcher label = some p' → p'.Sound ringN frames := by
    intro hstep
    obtain ⟨items, hring, hpublished, hreads⟩ := h
    obtain ⟨items', hinit, hring', hpublished', hothers⟩ := (dispatch_cases rfl hstep).keeps hring hpublished
    exact ⟨items', hring', hpublished', hreads.others hring hothers hinit⟩
  cases label with
  | take i =>
    obtain ⟨items, hring, hpublished, hreads⟩ := h
    obtain ⟨⟨-, -, hi⟩, hp'⟩ := Option.ite_none_right_eq_some.mp hstep
    cases Option.some.inj hp'
    have hothers := takeFrame_others hring i
    refine ⟨items, hring.takeFrame hi, ?_, hreads.others hring hothers List.prefix_rfl⟩
    rw [hothers.stop, takeFrame_dispatcher]
    exact hpublished
  | scribbleOut i out =>
    obtain ⟨items, hring, hpublished, hreads⟩ := h
    obtain ⟨seq, hi, rfl⟩ := Option.map_eq_some_iff.mp hstep
    refine ⟨items, hring.scribbleOut hi out, hpublished, hreads.others hring ?_ List.prefix_rfl⟩
    exact ⟨rfl, le_rfl, rfl, rfl, rfl, rfl, worker_setSlot hring hi _⟩
  | finish i context out =>
    obtain ⟨items, hring, hpublished, hreads⟩ := h
    obtain ⟨seq, hi, rfl⟩ := Option.map_eq_some_iff.mp hstep
    refine ⟨items, hring.finishFrame hi context out, hpublished, hreads.others hring ?_ List.prefix_rfl⟩
    exact ⟨rfl, le_rfl, rfl, rfl, rfl, rfl, worker_setSlot hring hi _⟩
  | stop =>
    obtain ⟨items, hring, hpublished, hreads⟩ := h
    simp only [step] at hstep
    cases hreader : p.reader with
    | idle =>
      rw [hreader] at hstep
      cases Option.some.inj hstep
      refine ⟨items, { hring with }, hpublished.stopped, ?_⟩
      have haccount := hreads.account
      have hfailed := hreads.failed
      rw [hreader] at haccount hfailed
      exact
        { hreads with
          running := fun hcontra => absurd rfl hcontra, place := trivial, account := haccount, failed := hfailed }
    | reading cap dst | copying cap dst | releasing cap dst =>
      rw [hreader] at hstep
      cases hstep
  | call cap => exact read_sound h rfl hstep
  | look => exact read_sound h rfl hstep
  | copy => exact read_sound h rfl hstep
  | release => exact read_sound h rfl hstep
  | _ => exact hdispatch hstep

end Pin
