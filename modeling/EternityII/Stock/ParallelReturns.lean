-- SUMMARY: The calls of the reader of the parallel input return, unless a stream fails for ever.
import EternityII.Stock.ParallelRead

/-!
# Calls that return

Until a call of `pin_read` returns, some party goes on, and less remains to be done. The exception is in
the inner loop of the dispatcher, which does not look at the error of `ZSTD_decompressStream`: it calls the
failed stream again, until a call returns 0 or the chunk is full. The real one returns the same error each
time, so that nothing is published any more and `pin_read` waits for ever.
-/

/-! ## A call that returns -/

/-- A failure that is not that of a frame, or `pin_stop`. -/
def PinLabel.Fails : PinLabel → Prop
  | .fault => True
  | .finish _ context _ => context = false
  | .stop => True
  | _ => False

/-- The call under way can end without any other failure than that of a frame. -/
def Pin.CanReturn (ringN nworkers : Nat) (recovers : PinFrame → Bool) (p : Pin) : Prop :=
  ∃ labels p', (∀ label ∈ labels, ¬ label.Fails) ∧ Run.exec (Pin.step ringN nworkers recovers) p labels = some p' ∧
    p'.reader = .idle

/-- The first frame that is not intact is a damaged one that the dispatcher decompresses itself, and no later
call on its stream ends the inner loop. -/
def Stalls (recovers : PinFrame → Bool) (frames : List PinFrame) : Prop :=
  ∃ done f rest, frames = done ++ f :: rest ∧ (∀ g ∈ done, g.Intact) ∧ f.Streamed ∧ f.failure = some .corrupt ∧
    recovers f = false

/-- What the dispatcher has still to do on frames that it has not begun. -/
def framesWork (frames : List PinFrame) : Nat := (frames.map fun f => 20 * f.content.length + 40).sum

/-- What the dispatcher has still to do. -/
def PinDispatcher.work : PinDispatcher → Nat
  | .top frames => framesWork frames + 40
  | .reserve (.frame _ rest) => framesWork rest + 60
  | .reserve (.chunk _ rest left) => framesWork rest + 20 * left.length + 70
  | .reserve (.last _) => 30
  | .fill (.frame _ rest) _ => framesWork rest + 59
  | .fill (.chunk _ rest left) o => framesWork rest + 20 * left.length + 19 * o.length + 69
  | .fill (.last _) _ => 29
  | .spoiled _ => 35
  | .finished => 0

/-- What the reader has still to do before it looks at another slot. -/
def PinReader.work : PinReader → Nat
  | .idle => 0
  | .reading cap dst => 2 * (cap - dst.length) + 2
  | .copying cap dst => 2 * (cap - dst.length) + 1
  | .releasing cap dst => 2 * (cap - dst.length)

/-- What the worker of a slot has still to do. -/
def PinSlotState.work : PinSlotState → Nat
  | .toDecompress => 2
  | .inProgress => 1
  | _ => 0

/-- What remains to be done before the call can return. -/
def Pin.work (ringN : Nat) (p : Pin) : Nat :=
  p.dispatcher.work + 6 * (p.produced - p.consumed) +
    (if p.consumed < p.produced then (p.slot ringN p.consumed).state.work else 0) + p.reader.work

namespace Pin

variable {ringN nworkers : Nat} {recovers : PinFrame → Bool} {frames rest : List PinFrame} {items : List PinItem}
variable {p p' : Pin} {d : PinDispatcher}

/-- A step that is neither a failure nor `pin_stop` and leaves less to be done, or ends the call. -/
def Advances (ringN nworkers : Nat) (recovers : PinFrame → Bool) (p : Pin) : Prop :=
  ∃ label p', ¬ label.Fails ∧ p.step ringN nworkers recovers label = some p' ∧
    (p'.reader = .idle ∨ p'.work ringN < p.work ringN)

theorem work_goes (h : d.work < p.dispatcher.work) : Pin.work ringN { p with dispatcher := d } < p.work ringN := by
  change d.work + _ + _ + _ < p.dispatcher.work + _ + _ + _
  exact Nat.add_lt_add_right (Nat.add_lt_add_right (Nat.add_lt_add_right h _) _) _

theorem state_work_le (state : PinSlotState) : state.work ≤ 2 := by
  cases state <;> decide

/-- A slot that is published is less work than what the dispatcher has done for it. -/
theorem work_publishes (hempty : p.consumed = p.produced) (h : d.work + 8 < p.dispatcher.work) (s : PinSlot) :
    Pin.work ringN { p.setSlot ringN p.produced s with produced := p.produced + 1, dispatcher := d } < p.work ringN := by
  have hstate := state_work_le ((p.setSlot ringN p.produced s).slot ringN p.consumed).state
  have hold : p.work ringN = p.dispatcher.work + p.reader.work := by
    simp [work, hempty]
  rw [hold]
  change d.work + 6 * (p.produced + 1 - p.consumed) + (if p.consumed < p.produced + 1 then
    ((p.setSlot ringN p.produced s).slot ringN p.consumed).state.work else 0) + p.reader.work < _
  rw [if_pos (by omega)]
  omega

theorem framesWork_cons (f : PinFrame) : framesWork (f :: rest) = 20 * f.content.length + 40 + framesWork rest := by
  simp [framesWork]

/-- The next job is less work than its frame. -/
theorem splitFrame_work : (PinDispatcher.reserve (splitFrame rest)).work < (PinDispatcher.top rest).work := by
  cases rest with
  | nil => decide
  | cons f rest =>
    have hcons : framesWork (f :: rest) = _ := framesWork_cons f
    cases hsize : f.contentSize with
    | known cs =>
      by_cases hfits : cs ≤ pinFrameMax ∧ f.whole = true
      · simp only [splitFrame, hsize, if_pos hfits, PinDispatcher.work]
        omega
      · simp only [splitFrame, hsize, if_neg hfits, PinDispatcher.work]
        omega
    | unknown | error =>
      simp only [splitFrame, hsize, PinDispatcher.work]
      omega

theorem advances_goes (label : PinLabel) (hfails : ¬ label.Fails)
    (hstep : p.step ringN nworkers recovers label = some { p with dispatcher := d })
    (h : d.work < p.dispatcher.work) : p.Advances ringN nworkers recovers :=
  ⟨label, _, hfails, hstep, .inr (work_goes h)⟩

theorem advances_publishes (label : PinLabel) {s : PinSlot} (hempty : p.consumed = p.produced)
    (hfails : ¬ label.Fails) (hstep : p.step ringN nworkers recovers label =
      some { p.setSlot ringN p.produced s with produced := p.produced + 1, dispatcher := d })
    (h : d.work + 8 < p.dispatcher.work) : p.Advances ringN nworkers recovers :=
  ⟨label, _, hfails, hstep, .inr (work_publishes hempty h s)⟩

theorem step_publish {job : PinJob} {o : List Byte} (hd : p.dispatcher = .fill job o) (ended : Bool) :
    p.step ringN nworkers recovers (.publish ended) = p.publishJob ringN ended o job := by
  simp only [step, hd, dispatchStep, fillStep]

/-- The inner loop goes on with a chunk of a frame. -/
theorem chunk_advances {f : PinFrame} {left o : List Byte} (hempty : p.consumed = p.produced)
    (hd : p.dispatcher = .fill (.chunk f rest left) o) (ho : o.length ≤ pinChunk) : p.Advances ringN nworkers recovers := by
  have hchunk : 0 < pinChunk := by decide
  have hwork : p.dispatcher.work = framesWork rest + 20 * left.length + 19 * o.length + 69 := by
    rw [hd]
    rfl
  rcases ho.eq_or_lt with hfull | hroom
  · -- the chunk is full
    have hne : o ≠ [] := by
      rintro rfl
      exact absurd hfull hchunk.ne
    refine advances_publishes (d := .reserve (.chunk f rest left)) (s := { p.slot ringN p.produced with
      out := o, outLen := o.length, state := .ready }) (.publish false) hempty id ?_ ?_
    · rw [step_publish hd, publishJob, if_pos (.inr ⟨rfl, hfull⟩), if_neg hne]
      rfl
    · rw [hwork]
      change framesWork rest + 20 * left.length + 70 + 8 < _
      omega
  · by_cases hleft : left = []
    · cases hfailure : f.failure with
      | none =>
        by_cases hne : o = []
        · refine advances_goes (d := .top rest) (.publish true) id ?_ ?_
          · rw [step_publish hd, publishJob, if_pos (.inl ⟨rfl, hleft, hfailure⟩), if_pos hne]
            rfl
          · rw [hwork]
            change framesWork rest + 40 < _
            omega
        · refine advances_publishes (d := .top rest) (s := { p.slot ringN p.produced with
            out := o, outLen := o.length, state := .ready }) (.publish true) hempty id ?_ ?_
          · rw [step_publish hd, publishJob, if_pos (.inl ⟨rfl, hleft, hfailure⟩), if_neg hne]
            rfl
          · rw [hwork]
            change framesWork rest + 40 + 8 < _
            omega
      | some failure =>
        have hstep : p.step ringN nworkers recovers .breaks = p.breakStream o (.chunk f rest left) := by
          simp only [step, hd, dispatchStep, fillStep]
        rw [breakStream, if_pos ⟨hleft, hroom⟩, hfailure] at hstep
        refine advances_goes .breaks id hstep ?_
        rw [hwork]
        cases failure
        · change 30 < _
          omega
        · change 35 < _
          omega
    · have hlength : 0 < left.length := List.length_pos_iff.mpr hleft
      have hstep : p.step ringN nworkers recovers (.inflate (min left.length (pinChunk - o.length))) =
          p.decompressStream (min left.length (pinChunk - o.length)) o (.chunk f rest left) := by
        simp only [step, hd, dispatchStep, fillStep]
      rw [decompressStream, if_pos ⟨hroom, min_le_left _ _, by omega⟩] at hstep
      refine advances_goes _ id hstep ?_
      rw [hwork]
      change framesWork rest + 20 * (left.drop _).length + 19 * (o ++ left.take _).length + 69 < _
      rw [List.length_drop, List.length_append, List.length_take]
      omega

/-- The dispatcher that fills a slot goes on. -/
theorem fill_advances {job : PinJob} {o : List Byte} (hempty : p.consumed = p.produced)
    (hd : p.dispatcher = .fill job o) (hjob : job.Published frames items o) : p.Advances ringN nworkers recovers := by
  cases job with
  | frame f rest =>
    obtain ⟨-, cs, hsize⟩ := hjob
    refine advances_publishes (d := .top rest) (s := { p.slot ringN p.produced with
      src := some f, outLen := cs, state := .toDecompress }) (.publish true) hempty id ?_ ?_
    · rw [step_publish hd]
      simp only [publishJob, hsize]
      rfl
    · rw [hd]
      change framesWork rest + 40 + 8 < framesWork rest + 59
      omega
  | chunk f rest left => exact chunk_advances hempty hd hjob.2.2
  | last err =>
    refine advances_publishes (d := .finished) (s := { p.slot ringN p.produced with
      outLen := 0, state := if err then .error else .fin }) (.publish true) hempty id ?_ ?_
    · rw [step_publish hd]
      rfl
    · rw [hd]
      change 0 + 8 < 29
      omega

/-- The dispatcher goes on when the ring is empty. -/
theorem dispatch_advances (hring : PinRing ringN items p) (hpublished : p.dispatcher.Published frames items p.stop)
    (hr : 0 < ringN) (hstalls : ¬ Stalls recovers frames)
    (hempty : p.consumed = p.produced) (hstop : p.stop = false) (hpassed : ∀ item ∈ items, item.Good) :
    p.Advances ringN nworkers recovers := by
  cases hd : p.dispatcher with
  | top rest =>
    refine advances_goes (d := .reserve (splitFrame rest)) .split id ?_ ?_
    · simp only [step, hd, dispatchStep]
    · rw [hd]
      exact splitFrame_work
  | reserve job =>
    have hstep : p.step ringN nworkers recovers .reserve = p.pinReserve ringN job := by
      simp only [step, hd, dispatchStep]
    rw [pinReserve, if_neg (by simp [hstop]), if_neg (by omega)] at hstep
    refine advances_goes .reserve id hstep ?_
    rw [hd]
    cases job with
    | frame f rest | last err => exact Nat.lt_succ_self _
    | chunk f rest left => exact Nat.lt_succ_self _
  | fill job o =>
    rw [hd] at hpublished
    exact fill_advances hempty hd hpublished
  | spoiled f =>
    rw [hd] at hpublished
    obtain ⟨⟨rest, left, hwithin⟩, hstreamed, hfailure⟩ := hpublished
    obtain ⟨done, hframes, hintact⟩ := hwithin.intact hpassed
    have hrecovers : recovers f = true := by
      by_contra hnot
      exact hstalls ⟨done, f, rest, hframes, hintact, hstreamed, hfailure, Bool.not_eq_true _ ▸ hnot⟩
    refine advances_goes (d := .reserve (.last true)) .giveUp id ?_ ?_
    · simp only [step, hd, dispatchStep, hrecovers, if_true]
    · rw [hd]
      change 30 < 35
      decide
  | finished =>
    rw [hd] at hpublished
    rcases hpublished with ⟨hcontra, -⟩ | ⟨items₀, err, rfl, -⟩
    · rw [hstop] at hcontra
      cases hcontra
    · exact absurd (hpassed (.last err) (by simp)) id

theorem work_of_lt (hlt : p.consumed < p.produced) : p.work ringN = p.dispatcher.work + 6 * (p.produced - p.consumed) +
    (p.slot ringN p.consumed).state.work + p.reader.work := by
  rw [work, if_pos hlt]

/-- The slot that the reader waits for is nearer to its end. -/
theorem work_setSlot {pending : Nat} {workers : Nat → Option Nat} {decompressed : List Nat} {s : PinSlot}
    (hlt : p.consumed < p.produced) (h : s.state.work < (p.slot ringN p.consumed).state.work) :
    Pin.work ringN { p.setSlot ringN p.consumed s with pending, workers, decompressed } < p.work ringN := by
  have hself : (p.setSlot ringN p.consumed s).slot ringN p.consumed = s := slot_setSlot
  rw [work_of_lt hlt]
  change p.dispatcher.work + 6 * (p.produced - p.consumed) + (if p.consumed < p.produced then
    ((p.setSlot ringN p.consumed s).slot ringN p.consumed).state.work else 0) + p.reader.work < _
  rw [if_pos hlt, hself]
  omega

/-- The slot that the reader waits for goes on. -/
theorem slot_advances (hring : PinRing ringN items p) (hn : 0 < nworkers) (hstop : p.stop = false)
    (hlt : p.consumed < p.produced)
    (hstate : (p.slot ringN p.consumed).state = .toDecompress ∨ (p.slot ringN p.consumed).state = .inProgress) :
    p.Advances ringN nworkers recovers := by
  rcases hstate with hstate | hstate
  · -- no worker has a slot yet, and the first worker takes this one
    have hpending : p.pending ≤ p.consumed := hring.waiting p.consumed le_rfl hlt hstate
    have hidle : p.workers 0 = none := by
      cases hworker : p.workers 0 with
      | none => rfl
      | some seq =>
        obtain ⟨hle, hlt', -⟩ := hring.worker 0 seq hworker
        omega
    have hnext : p.nextPending ringN = p.consumed := by
      rw [nextPending, max_eq_right hpending]
      obtain ⟨n, hcount⟩ := Nat.exists_eq_succ_of_ne_zero (Nat.sub_ne_zero_of_lt hlt)
      rw [hcount, skipPending, if_neg (by simp [hstate])]
    refine ⟨.take 0, _, id, if_pos ⟨hstop, hn, hidle⟩, .inr ?_⟩
    rw [show p.takeFrame ringN 0 = _ from if_pos (hnext.symm ▸ hlt), hnext]
    refine work_setSlot hlt ?_
    rw [hstate]
    exact Nat.lt_succ_self _
  · obtain ⟨i, hi⟩ := hring.busy p.consumed le_rfl hlt hstate
    obtain ⟨item, hitem, hholds⟩ := hring.exists_item le_rfl hlt
    obtain ⟨f, rfl, hsrc⟩ := hholds.src (.inr hstate)
    have hended := (PinItem.holds_decompress hsrc true []).2
    refine ⟨.finish i true [], p.finishFrame ringN i p.consumed true [], by simp [PinLabel.Fails], ?_, .inr ?_⟩
    · simp only [step, hi, Option.map_some]
    · refine work_setSlot hlt ?_
      rcases hended with hended | hended
      · rw [hended, hstate]
        decide
      · rw [hended, hstate]
        decide

/-- The reader goes on from a slot that it is at. -/
theorem copy_advances {cap : Nat} {dst : List Byte} (hreads : PinReads ringN frames items p)
    (hring : PinRing ringN items p) (hreader : p.reader = .copying cap dst) : p.Advances ringN nworkers recovers := by
  have hat := hreads.place
  rw [hreader] at hat
  obtain ⟨⟨hlt, hready, hpos⟩, hdst⟩ := hat
  obtain ⟨item, -, hholds⟩ := hring.exists_item le_rfl hlt
  obtain ⟨-, hout, hlen⟩ := hholds.ready hready
  have hn : ((p.slot ringN p.consumed).out.drop p.pos).length = (p.slot ringN p.consumed).outLen - p.pos := by
    rw [List.length_drop, hout, hlen]
  have hstep : p.step ringN nworkers recovers .copy = p.readStep ringN (.copying cap dst) .copy := by
    simp only [step, hreader]
  simp only [readStep] at hstep
  refine ⟨.copy, _, id, hstep, .inr (Nat.add_lt_add_left ?_ _)⟩
  rw [hreader]
  split_ifs with hall
  · simp only [PinReader.work, List.length_append, List.length_take]
    omega
  · simp only [PinReader.work, List.length_append, List.length_take]
    omega

/-- The slot that is given back is more than what the reader does for the next. -/
theorem work_releases {cap : Nat} {dst : List Byte} (hlt : p.consumed < p.produced) (hreader : p.reader = .releasing cap dst)
    (s : PinSlot) : Pin.work ringN { p.setSlot ringN p.consumed s with
      consumed := p.consumed + 1, pos := 0, reader := .reading cap dst } < p.work ringN := by
  have hstate := state_work_le ((p.setSlot ringN p.consumed s).slot ringN (p.consumed + 1)).state
  rw [work_of_lt hlt, hreader]
  change p.dispatcher.work + 6 * (p.produced - (p.consumed + 1)) + (if p.consumed + 1 < p.produced then
    ((p.setSlot ringN p.consumed s).slot ringN (p.consumed + 1)).state.work else 0) + (2 * (cap - dst.length) + 2) <
    _ + _ + _ + 2 * (cap - dst.length)
  split_ifs with hnext
  · omega
  · omega

/-- Until the call returns, some party goes on. -/
theorem Sound.advances (h : p.Sound ringN frames) (hr : 0 < ringN) (hn : 0 < nworkers)
    (hstalls : ¬ Stalls recovers frames)
    (hcall : p.reader ≠ .idle) : p.Advances ringN nworkers recovers := by
  obtain ⟨items, hring, hpublished, hreads⟩ := h
  have hstop := hreads.running hcall
  cases hreader : p.reader with
  | idle => exact absurd hreader hcall
  | reading cap dst =>
    have hlook : p.step ringN nworkers recovers .look = p.readStep ringN (.reading cap dst) .look := by
      simp only [step, hreader]
    by_cases hfull : cap ≤ dst.length
    · exact ⟨.look, _, id, hlook.trans (if_pos hfull), .inl rfl⟩
    · simp only [readStep, if_neg hfull] at hlook
      by_cases hempty : p.consumed = p.produced
      · refine dispatch_advances hring hpublished hr hstalls hempty hstop ?_
        have hpassed := hreads.passed
        rwa [hempty, ← hring.length, List.take_length] at hpassed
      · have hlt : p.consumed < p.produced := Nat.lt_of_le_of_ne hring.lower hempty
        rw [if_neg hempty] at hlook
        cases hstate : (p.slot ringN p.consumed).state with
        | free =>
          obtain ⟨item, -, hholds⟩ := hring.exists_item le_rfl hlt
          exact absurd hstate hholds.not_free
        | toDecompress => exact slot_advances hring hn hstop hlt (.inl hstate)
        | inProgress => exact slot_advances hring hn hstop hlt (.inr hstate)
        | ready =>
          rw [hstate] at hlook
          refine ⟨.look, _, id, hlook, .inr (Nat.add_lt_add_left ?_ _)⟩
          rw [hreader]
          exact Nat.lt_succ_self _
        | fin | error =>
          rw [hstate] at hlook
          exact ⟨.look, _, id, hlook, .inl rfl⟩
  | copying cap dst => exact copy_advances hreads hring hreader
  | releasing cap dst =>
    have hat := hreads.place
    rw [hreader] at hat
    have hstep : p.step ringN nworkers recovers .release = p.readStep ringN (.releasing cap dst) .release := by
      simp only [step, hreader]
    exact ⟨.release, _, id, hstep, .inr (work_releases hat.1.1 hreader _)⟩

/-- A call can return, by as many of these steps as there is work. -/
theorem Sound.canReturn (h : p.Sound ringN frames) (hr : 0 < ringN) (hn : 0 < nworkers)
    (hstalls : ¬ Stalls recovers frames) :
    p.CanReturn ringN nworkers recovers := by
  induction hwork : p.work ringN using Nat.strong_induction_on generalizing p with
  | _ work ih =>
    subst hwork
    by_cases hidle : p.reader = .idle
    · exact ⟨[], p, fun _ hmem => absurd hmem List.not_mem_nil, rfl, hidle⟩
    · obtain ⟨label, p', hfails, hstep, hdone⟩ := h.advances hr hn hstalls hidle
      rcases hdone with hdone | hless
      · refine ⟨[label], p', List.forall_mem_singleton.mpr hfails, ?_, hdone⟩
        rw [Run.exec, hstep]
        rfl
      · obtain ⟨labels, p'', hall, hexec, hdone⟩ := ih (p'.work ringN) hless (step_sound h hstep) rfl
        refine ⟨label :: labels, p'', List.forall_mem_cons.mpr ⟨hfails, hall⟩, ?_, hdone⟩
        rw [Run.exec, hstep]
        exact hexec

end Pin

/-- What no interleaving breaks: the bytes returned are those of the frames in their order, as far as the first
that is not intact; a call returns less than its capacity only at the end of frames that are all intact, and
after an error none returns anything; the slot under the dispatcher is no more in use, a frame has one worker
and goes through it once, and a slot is given back once it is read in full. -/
structure PinSafe (ringN : Nat) (frames : List PinFrame) (p : Pin) : Prop where
  returned : p.returned <+: PinFrame.readable frames
  short : ∀ cap dst, (cap, some dst) ∈ p.results → dst.length < cap →
    (∀ f ∈ frames, f.Intact) ∧ p.returned = frames.flatMap PinFrame.content
  stays : p.results.Pairwise fun result next => result.2 = none → next.2 = none ∨ next.2 = some []
  reserved : p.dispatcher.Working → (p.slot ringN p.produced).state = .free ∧
    ∀ seq, p.consumed ≤ seq → seq < p.produced → seq % ringN ≠ p.produced % ringN
  worker : ∀ i seq, p.workers i = some seq → p.consumed ≤ seq ∧ seq < p.produced ∧
    (p.slot ringN seq).state = .inProgress ∧ ∀ j, p.workers j = some seq → j = i
  once : p.decompressed.Nodup
  inFull : ∀ cap dst, p.reader = .releasing cap dst → p.pos = (p.slot ringN p.consumed).outLen

/-- What the parallel input promises of a state: the call under way can return, with the bytes of the frames
or with the error of the first that is not intact. -/
structure PinRight (ringN nworkers : Nat) (recovers : PinFrame → Bool) (frames : List PinFrame) (p : Pin) : Prop
    extends PinSafe ringN frames p where
  returns : p.CanReturn ringN nworkers recovers

theorem Pin.Sound.safe {ringN : Nat} {frames : List PinFrame} {p : Pin} (h : p.Sound ringN frames) :
    PinSafe ringN frames p := by
  obtain ⟨items, hring, hpublished, hreads⟩ := h
  refine
    { returned := (List.prefix_append ..).trans (hreads.returned_readable hring hpublished), short := hreads.short
      stays := hreads.stays, reserved := ?_, worker := ?_, once := hring.once, inFull := ?_ }
  · intro hworking
    have hroom := hring.room hworking
    exact ⟨hring.free p.produced le_rfl hroom, fun seq hle hlt => (Pin.mod_ne hlt (by omega)).symm⟩
  · intro i seq hi
    obtain ⟨hle, hlt, hstate, -⟩ := hring.worker i seq hi
    exact ⟨hle, hlt.trans_le hring.pending, hstate, fun j hj => hring.apart j i seq hj hi⟩
  · intro cap dst hreader
    have hplace := hreads.place
    rw [hreader] at hplace
    exact hplace.2

/-- Every state that an interleaving reaches is sound. -/
theorem pin_sound {ringN nworkers : Nat} {recovers : PinFrame → Bool} {frames : List PinFrame} {p : Pin}
    (hrun : Run (Pin.step ringN nworkers recovers) (fun _ _ => True) (Pin.start frames) p) : p.Sound ringN frames :=
  hrun.invariant Pin.start_sound fun h _ hstep => Pin.step_sound h hstep

/-- The parallel input keeps its promises in every interleaving, unless the dispatcher decompresses itself the
first frame that is not intact, and its stream fails for ever. -/
theorem pin_right {ringN nworkers : Nat} (hr : 0 < ringN) (hn : 0 < nworkers) {recovers : PinFrame → Bool}
    {frames : List PinFrame} (hstalls : ¬ Stalls recovers frames) {p : Pin}
    (hrun : Run (Pin.step ringN nworkers recovers) (fun _ _ => True) (Pin.start frames) p) :
    PinRight ringN nworkers recovers frames p where
  toPinSafe := (pin_sound hrun).safe
  returns := (pin_sound hrun).canReturn hr hn hstalls

/-- Two bytes in a frame that fits, then the end. -/
theorem pin_right_read : ∃ p, Run.exec (Pin.step 32 1 fun _ => false) (Pin.start [⟨.known 2, true, [7, 9], none⟩])
      [.split, .reserve, .publish true, .take 0, .call 3, .finish 0 true [], .look, .copy, .release, .split, .reserve,
        .publish true, .look] = some p ∧ p.results = [(3, some [7, 9])] ∧
    PinRight 32 1 (fun _ => false) [⟨.known 2, true, [7, 9], none⟩] p := by
  have hexec : ∃ p, Run.exec (Pin.step 32 1 fun _ => false) (Pin.start [⟨.known 2, true, [7, 9], none⟩])
      [.split, .reserve, .publish true, .take 0, .call 3, .finish 0 true [], .look, .copy, .release, .split, .reserve,
        .publish true, .look] = some p ∧ p.results = [(3, some [7, 9])] := ⟨_, rfl, rfl⟩
  obtain ⟨p, hexec, hresults⟩ := hexec
  refine ⟨p, hexec, hresults, pin_right (by decide) (by decide) ?_ (Run.of_exec (fun _ _ _ => trivial) hexec)⟩
  rintro ⟨done, f, rest, hframes, -, -, hfailure, -⟩
  have hmem : f ∈ [(⟨.known 2, true, [7, 9], none⟩ : PinFrame)] := by
    rw [hframes]
    exact List.mem_append_right _ (List.mem_cons_self ..)
  rw [List.mem_singleton.mp hmem] at hfailure
  cases hfailure

/-! ## A call that never returns -/

/-- The dispatcher is with a stream that fails for ever, and the reader waits for a slot. -/
structure Pin.Stalled (recovers : PinFrame → Bool) (p : Pin) : Prop where
  spoiled : ∃ f, p.dispatcher = .spoiled f ∧ recovers f = false
  empty : p.consumed = p.produced
  waits : ∃ cap dst, p.reader = .reading cap dst ∧ dst.length < cap

namespace Pin

variable {ringN nworkers : Nat} {recovers : PinFrame → Bool} {p p' : Pin} {label : PinLabel}

/-- Nothing is published any more, and the reader waits still. -/
theorem Stalled.step (h : p.Stalled recovers) (hstep : p.step ringN nworkers recovers label = some p') :
    p'.Stalled recovers := by
  obtain ⟨⟨f, hd, hrecovers⟩, hempty, cap, dst, hreader, hdst⟩ := h
  cases label with
  | take i =>
    obtain ⟨-, hp'⟩ := Option.ite_none_right_eq_some.mp hstep
    cases Option.some.inj hp'
    by_cases hlt : p.nextPending ringN < p.produced
    · rw [show p.takeFrame ringN i = _ from if_pos hlt]
      exact ⟨⟨f, hd, hrecovers⟩, hempty, cap, dst, hreader, hdst⟩
    · rw [show p.takeFrame ringN i = _ from if_neg hlt]
      exact ⟨⟨f, hd, hrecovers⟩, hempty, cap, dst, hreader, hdst⟩
  | scribbleOut i out | finish i context out =>
    obtain ⟨seq, -, rfl⟩ := Option.map_eq_some_iff.mp hstep
    exact ⟨⟨f, hd, hrecovers⟩, hempty, cap, dst, hreader, hdst⟩
  | scribble src out outLen =>
    simp only [Pin.step, hd, dispatchStep] at hstep
    cases Option.some.inj hstep
    exact ⟨⟨f, hd, hrecovers⟩, hempty, cap, dst, hreader, hdst⟩
  | look =>
    simp only [Pin.step, hreader, readStep, if_neg (Nat.not_le.mpr hdst), if_pos hempty] at hstep
    cases hstep
  | _ => simp [Pin.step, hd, hreader, dispatchStep, readStep, hrecovers] at hstep

/-- The call under way never returns. -/
theorem Stalled.not_canReturn (h : p.Stalled recovers) : ¬ p.CanReturn ringN nworkers recovers := by
  rintro ⟨labels, p', -, hexec, hidle⟩
  have hrun : Run (Pin.step ringN nworkers recovers) (fun _ _ => True) p p' := Run.of_exec (fun _ _ _ => trivial) hexec
  have hstalled : p'.Stalled recovers := hrun.invariant h fun h _ hstep => h.step hstep
  obtain ⟨cap, dst, hreader, -⟩ := hstalled.waits
  cases hidle.symm.trans hreader

end Pin

/-- A frame without a size whose first block is damaged. -/
def damagedFrame : PinFrame := ⟨.unknown, true, [], some .corrupt⟩

/-- The stream of a damaged frame fails at its first call and at each later one, and the first call of
`pin_read` never returns. -/
theorem pin_stalls : ¬ ∀ p, Run (Pin.step 32 1 fun _ => false) (fun _ _ => True) (Pin.start [damagedFrame]) p →
    PinRight 32 1 (fun _ => false) [damagedFrame] p := by
  intro hall
  have hexec : ∃ p, Run.exec (Pin.step 32 1 fun _ => false) (Pin.start [damagedFrame])
      [.split, .reserve, .breaks, .call 1] = some p ∧ p.Stalled fun _ => false := by
    refine ⟨_, rfl, ⟨damagedFrame, rfl, rfl⟩, rfl, 1, [], rfl, by decide⟩
  obtain ⟨p, hexec, hstalled⟩ := hexec
  exact hstalled.not_canReturn (hall p (Run.of_exec (fun _ _ _ => trivial) hexec)).returns
