-- SUMMARY: The runs of an expansion: what it covers and counts, and what it has reached when it ends.
import EternityII.Expand.Steps
import EternityII.Spill.Contents
import Mathlib.Tactic.FinCases

/-!
# The runs of an expansion

Whatever the threads of the passes and the other threads do, the expansion covers the boards that it covered when
it began, with those of the packets that have been added, each as often; the bytes of its queues and batches are
counted exactly; and a pass ends only when its queue is empty.
-/

namespace Expansion

/-! ## The steps, case by case -/

section Cases

variable {P : Puzzle} (ps : PieceSet P) (map : MapBigArray) (cfg : ExpandConfig)

/-- A step is one of a thread of the pass, of the caller of the passes, or of the others. -/
inductive Moves (s : Expansion P) : ExpandLabel P → Expansion P → Prop
  | thread {label : ExpandLabel P} {s' : Expansion P} {i : Nat} (passing : s.phase = .passing) (running : i < s.nbWorkers)
      (step : s.workerStep ps map cfg i (s.workers i) label = some s') : Moves s label s'
  | drain (room : Nat) (between : s.phase = .between) : Moves s (.drain room) (s.drainStep room)
  | border {cut : List (List (List Byte))} {s' : Expansion P} {stalled : Bool} (drained : s.phase = .drained stalled)
      (step : s.borderStep cfg cut stalled = some s') : Moves s (.border cut) s'
  | start {recourse : Bool} {threads : List (Nat × Nat)} {s' : Expansion P} {stalled : Bool} (bordered : s.phase = .bordered stalled)
      (step : s.startStep cfg recourse threads stalled = some s') : Moves s (.start recourse threads) s'
  | finish {stop : Bool} {s' : Expansion P} (passing : s.phase = .passing) (step : s.finishStep cfg stop = some s') :
      Moves s (.finish stop) s'
  | evict {f n tierBytes : Nat} {top : Option Nat} {s' : Expansion P} (step : s.evictStep f n top tierBytes = some s') :
      Moves s (.evict f n top tierBytes) s'
  | defer {k tierBytes : Nat} {top : Option Nat} {s' : Expansion P} (step : s.deferStep k top tierBytes = some s') :
      Moves s (.defer k top tierBytes) s'
  | serve (wantChecked : Bool) (f : Nat) : Moves s (.serve wantChecked f) (s.serveStep wantChecked f)
  | add (packet : Packet P) (freeUnchecked freeChecked : Nat → Bool) :
      Moves s (.add packet freeUnchecked freeChecked) (s.addStep packet freeUnchecked freeChecked)

theorem step_moves {s s' : Expansion P} {label : ExpandLabel P} (h : s.step ps map cfg label = some s') :
    s.solution = none ∧ s.Moves ps map cfg label s' := by
  unfold Expansion.step at h
  obtain ⟨hsolution, hstep⟩ := Option.ite_none_left_eq_some.mp h
  clear h
  rename' hstep => h
  refine ⟨Option.not_isSome_iff_eq_none.mp hsolution, ?_⟩
  split at h
  · split at h
    · rename_i hphase
      obtain ⟨hi, hstep⟩ := Option.ite_none_right_eq_some.mp h
      exact .thread hphase hi hstep
    · cases h
  · split at h
    · rename_i hphase _
      obtain ⟨-, hsome⟩ := Option.ite_none_right_eq_some.mp h
      obtain rfl := Option.some.inj hsome
      exact .drain _ hphase
    · rename_i hphase _
      exact .border hphase h
    · rename_i hphase _
      exact .start hphase h
    · rename_i hphase _
      exact .finish hphase h
    · exact .evict h
    · exact .defer h
    · obtain rfl := Option.some.inj h
      exact .serve _ _
    · obtain rfl := Option.some.inj h
      exact .add _ _ _
    · cases h

end Cases

/-! ## The invariant -/

section Invariant

variable {P : Puzzle} (ps : PieceSet P)

/-- The queue of the pass is empty. -/
def Drained (s : Expansion P) : Prop := s.work.file = [] ∧ s.work.hold = []

/-- What the threads of an expansion find whenever they go on. -/
structure Sound (s : Expansion P) : Prop where
  records : ∀ r ∈ s.records, GoodRecord ps r
  checked : ∀ r ∈ s.stock.checked.files.flatten, GoodRecord ps r
  worker : ∀ i < s.nbWorkers, (s.workers i).Good ps
  fits : ∀ i < s.nbWorkers, (s.workers i).Fits
  synced : s.work.published = workBytesOf s.work.file + workBytesOf s.work.hold
  bytes : s.workBytes = s.work.published + ∑ i ∈ Finset.range s.nbWorkers, (s.workers i).bytes
  busy : s.busy = ∑ i ∈ Finset.range s.nbWorkers, (s.workers i).held
  refilling : s.refilling.toNat = ∑ i ∈ Finset.range s.nbWorkers, (s.workers i).reading
  waits : ∀ i < s.nbWorkers, ∀ since, (s.workers i).stage = .waiting since →
    since ≤ s.wakes ∧ (since < s.wakes ∨ s.refilling = true ∨ 0 < s.busy)
  empty : ∀ i < s.nbWorkers, (s.workers i).stage.Refills → s.Drained
  nothing : ∀ i < s.nbWorkers, (s.workers i).stage.Exhausts → s.source.below = []
  queue : s.phase = .passing → s.Drained ∨ s.flags.aborted = true ∨ ∃ i < s.nbWorkers, ¬ (s.workers i).stage.Leaves
  leaves : ∀ i < s.nbWorkers, (s.workers i).stage.Leaves →
    s.flags.aborted = true ∨ s.flags.capReached = true ∨ s.diskPhase = false
  nonempty : ∀ part ∈ s.source.below, part.1 ≠ []
  idle : s.phase ≠ .passing → s.nbWorkers = 0
  still : s.phase = .between ∨ (∃ b, s.phase = .stopped b) → s.Drained
  calm : s.flags.aborted = true → s.phase = .passing ∨ ∃ b, s.phase = .stopped b

variable {ps} {s s' : Expansion P} {i : Nat} {w' : ExpandWorker P} {cfg : ExpandConfig}

theorem Sound.unchecked (h : s.Sound ps) : ∀ r ∈ s.stock.unchecked.files.flatten, GoodRecord ps r := by
  intro r hr
  refine h.records r ?_
  simp only [Expansion.records, List.mem_append]
  exact .inl (.inl (.inl hr))

theorem Sound.ready (h : s.Sound ps) (hi : i < s.nbWorkers) : Ready ps s (s.workers i) :=
  ⟨h.records, h.worker i hi, h.fits i hi, h.synced, h.empty i hi, h.nothing i hi⟩

theorem total_step (hstep : ThreadStep ps cfg s s' i (s.workers i) w') (hi : i < s.nbWorkers) (g : ExpandWorker P → Nat) :
    ∑ j ∈ Finset.range s'.nbWorkers, g (s'.workers j) + g (s.workers i) =
      ∑ j ∈ Finset.range s.nbWorkers, g (s.workers j) + g w' := by
  rw [hstep.nbWorkers, hstep.workers]
  exact sum_update_add (Finset.mem_range.mpr hi) g s.workers w'

theorem share_le (hi : i < s.nbWorkers) (g : ExpandWorker P → Nat) :
    g (s.workers i) ≤ ∑ j ∈ Finset.range s.nbWorkers, g (s.workers j) :=
  Finset.single_le_sum (f := fun j => g (s.workers j)) (fun _ _ => Nat.zero_le _) (Finset.mem_range.mpr hi)

/-- Only one thread reads the source at a time. -/
theorem Sound.reads_unique (h : s.Sound ps) {j : Nat} (hi : i < s.nbWorkers) (hj : j < s.nbWorkers)
    (hreads : (s.workers i).stage.Reads) (hreads' : (s.workers j).stage.Reads) : i = j := by
  by_contra hij
  have hpair : ∑ k ∈ {i, j}, (s.workers k).reading = 2 := by
    rw [Finset.sum_pair hij]
    unfold ExpandWorker.reading
    rw [if_pos hreads, if_pos hreads']
  have hsub : ({i, j} : Finset Nat) ⊆ Finset.range s.nbWorkers := by
    intro k hk
    obtain rfl | hk := Finset.mem_insert.mp hk
    · exact Finset.mem_range.mpr hi
    · rw [Finset.mem_singleton.mp hk]
      exact Finset.mem_range.mpr hj
  have hle : ∑ k ∈ {i, j}, (s.workers k).reading ≤ ∑ k ∈ Finset.range s.nbWorkers, (s.workers k).reading :=
    Finset.sum_le_sum_of_subset hsub
  rw [hpair, ← h.refilling] at hle
  exact absurd (hle.trans (Bool.toNat_le _)) (by decide)

theorem reads_of_refills {stage : ExpandStage P} (h : stage.Refills) : stage.Reads := by
  cases stage with
  | refilling _ | publishing _ _ => trivial
  | _ => exact h.elim

/-- What a thread waits for is still to come, or it has been woken. -/
theorem woken_step (hstep : ThreadStep ps cfg s s' i (s.workers i) w') {since : Nat}
    (h : since ≤ s.wakes ∧ (since < s.wakes ∨ s.refilling = true ∨ 0 < s.busy)) :
    since ≤ s'.wakes ∧ (since < s'.wakes ∨ s'.refilling = true ∨ 0 < s'.busy) := by
  obtain ⟨hle, hwoken⟩ := h
  obtain ⟨hmono, hwake⟩ := hstep.wakes
  refine ⟨hle.trans hmono, ?_⟩
  by_contra hnone
  obtain ⟨hlt, hreads, hbusy⟩ : ¬ since < s'.wakes ∧ ¬ s'.refilling = true ∧ ¬ 0 < s'.busy := by
    simpa only [not_or] using hnone
  have hstill : ¬ (s'.busy < s.busy ∨ s'.refilling.toNat < s.refilling.toNat) := fun h => hlt (hle.trans_lt (hwake h))
  obtain h | h | h := hwoken
  · exact hlt (h.trans_le hmono)
  · refine hstill (.inr ?_)
    rw [h, Bool.eq_false_iff.mpr hreads]
    decide
  · exact hstill (.inl (Nat.lt_of_le_of_lt (Nat.not_lt.mp hbusy) h))

/-- What is left in the queue has a thread that stays for it. -/
theorem Sound.queue_step (h : s.Sound ps) (hphase : s.phase = .passing) (hi : i < s.nbWorkers)
    (hstep : ThreadStep ps cfg s s' i (s.workers i) w') :
    s'.Drained ∨ s'.flags.aborted = true ∨ ∃ j < s'.nbWorkers, ¬ (s'.workers j).stage.Leaves := by
  by_cases hempty : s'.Drained
  · exact .inl hempty
  · refine .inr ?_
    have hself : ¬ w'.stage.Leaves → ∃ j < s'.nbWorkers, ¬ (s'.workers j).stage.Leaves := fun hstays =>
      ⟨i, hstep.nbWorkers ▸ hi, by rwa [hstep.workers, Function.update_self]⟩
    obtain hfull | ⟨-, hstays⟩ := hstep.queue (not_and_or.mp hempty)
    · obtain hdrained | haborted | ⟨j, hj, hstays⟩ := h.queue hphase
      · exact absurd hdrained (not_and_or.mpr hfull)
      · exact .inl (hstep.flags.aborted haborted)
      · by_cases hji : j = i
        · by_cases hleaves : w'.stage.Leaves
          · obtain hleft | haborted | ⟨hfile, hhold, -⟩ := hstep.leaves hleaves
            · exact absurd (hji ▸ hleft) hstays
            · exact .inl haborted
            · exact absurd ⟨hfile, hhold⟩ hempty
          · exact .inr (hself hleaves)
        · exact .inr ⟨j, hstep.nbWorkers ▸ hj, by rwa [hstep.workers, Function.update_of_ne hji]⟩
    · exact .inr (hself hstays)

theorem Sound.thread (h : s.Sound ps) (hphase : s.phase = .passing) (hi : i < s.nbWorkers)
    (hstep : ThreadStep ps cfg s s' i (s.workers i) w') : s'.Sound ps := by
  have hothers : ∀ j, j ≠ i → s'.workers j = s.workers j := by
    intro j hj
    rw [hstep.workers, Function.update_of_ne hj]
  have hself : s'.workers i = w' := by rw [hstep.workers, Function.update_self]
  have hbytes : s.work.published + (s.workers i).bytes ≤ s.workBytes := by
    rw [h.bytes]
    exact Nat.add_le_add_left (share_le hi _) _
  have hheld : (s.workers i).held ≤ s.busy := h.busy ▸ share_le hi _
  have hreading : (s.workers i).reading ≤ s.refilling.toNat := h.refilling ▸ share_le hi _
  -- A thread is the one that went on, or one that did not.
  have hcases : ∀ {p : ExpandWorker P → Prop}, p w' → (∀ j < s.nbWorkers, j ≠ i → p (s.workers j)) →
      ∀ j < s'.nbWorkers, p (s'.workers j) := by
    intro p hw' hrest j hj
    rw [hstep.nbWorkers] at hj
    by_cases hji : j = i
    · rw [hji, hself]
      exact hw'
    · rw [hothers j hji]
      exact hrest j hj hji
  have hdrained : s.Drained → ¬ (s.workers i).stage.Reads → s'.Drained := by
    intro hdrained hreads
    by_contra hnot
    obtain hfull | ⟨hread, -⟩ := hstep.queue (not_and_or.mp hnot)
    · exact hfull.elim (absurd hdrained.1) (absurd hdrained.2)
    · exact hreads hread
  have hraised : (s.flags.aborted = true ∨ s.flags.capReached = true ∨ s.diskPhase = false) →
      s'.flags.aborted = true ∨ s'.flags.capReached = true ∨ s'.diskPhase = false := by
    rintro (haborted | hcap | hdisk)
    · exact .inl (hstep.flags.aborted haborted)
    · exact .inr (.inl (hstep.flags.capReached hcap))
    · exact .inr (.inr (Bool.eq_false_iff.mpr fun h => Bool.false_ne_true (hdisk.symm.trans (hstep.diskPhase h))))
  refine {
    records := hstep.carries.records
    checked := hstep.carries.checked h.checked
    worker := hcases hstep.carries.worker fun j hj _ => h.worker j hj
    fits := hcases hstep.fits fun j hj _ => h.fits j hj
    synced := hstep.synced
    bytes := ?_
    busy := ?_
    refilling := ?_
    waits := hcases (p := fun w => ∀ since, w.stage = .waiting since →
      since ≤ s'.wakes ∧ (since < s'.wakes ∨ s'.refilling = true ∨ 0 < s'.busy)) ?_ ?_
    empty := hcases (p := fun w => w.stage.Refills → s'.Drained) hstep.empty ?_
    nothing := hcases (p := fun w => w.stage.Exhausts → s'.source.below = []) hstep.nothing ?_
    queue := fun _ => h.queue_step hphase hi hstep
    leaves := hcases (p := fun w => w.stage.Leaves → s'.flags.aborted = true ∨ s'.flags.capReached = true ∨ s'.diskPhase = false)
      ?_ ?_
    nonempty := hstep.nonempty h.nonempty
    idle := fun h => absurd (hstep.phase.trans hphase) h
    still := fun h => ?_
    calm := fun _ => .inl (hstep.phase.trans hphase) }
  · have htotal := total_step hstep hi ExpandWorker.bytes
    have hstepBytes := hstep.bytes hbytes
    have hsum := h.bytes
    omega
  · have htotal := total_step hstep hi ExpandWorker.held
    have hstepBusy := hstep.busy hheld
    have hsum := h.busy
    omega
  · have htotal := total_step hstep hi ExpandWorker.reading
    have hstepRefilling := hstep.refilling hreading
    have hsum := h.refilling
    omega
  · intro since hwaiting
    obtain ⟨hle, hreads | hbusy⟩ := hstep.waits since hwaiting
    · exact ⟨hle, .inr (.inl hreads)⟩
    · exact ⟨hle, .inr (.inr hbusy)⟩
  · exact fun j hj _ since hwaiting => woken_step hstep (h.waits j hj since hwaiting)
  · intro j hj hji hrefills
    exact hdrained (h.empty j hj hrefills) fun hreads => hji (h.reads_unique hj hi (reads_of_refills hrefills) hreads)
  · intro j hj _ hexhausts
    by_contra hbelow
    exact hstep.below hbelow (h.nothing j hj hexhausts)
  · intro hleaves
    obtain hleft | haborted | ⟨-, -, hends⟩ := hstep.leaves hleaves
    · exact hraised (h.leaves i hi hleft)
    · exact .inl haborted
    · exact .inr hends
  · exact fun j hj _ hleaves => hraised (h.leaves j hj hleaves)
  · rw [hstep.phase, hphase] at h
    obtain h | ⟨b, h⟩ := h <;> cases h

theorem Sound.of_stock (h : s.Sound ps) {stock : LocalStock} {source : SpillSource} {served added : List (Packet P)}
    (hrecords : ∀ r ∈ stock.unchecked.files.flatten ++ source.records, r ∈ s.stock.unchecked.files.flatten ++ s.source.records ∨
      GoodRecord ps r)
    (hchecked : ∀ r ∈ stock.checked.files.flatten, r ∈ s.stock.checked.files.flatten ∨ GoodRecord ps r)
    (hbelow : s.source.below = [] → source.below = [])
    (hnonempty : (∀ part ∈ s.source.below, part.1 ≠ []) → ∀ part ∈ source.below, part.1 ≠ []) :
    ({ s with stock, source, served, added } : Expansion P).Sound ps := by
  refine { h with
    records := fun r hr => ?_
    checked := fun r hr => (hchecked r hr).elim (h.checked r) id
    nothing := fun i hi hexhausts => hbelow (h.nothing i hi hexhausts)
    nonempty := hnonempty h.nonempty }
  have hrest := h.records r
  simp only [Expansion.records, List.append_assoc] at hr hrest
  rw [← List.append_assoc] at hr hrest
  obtain hr | hr := List.mem_append.mp hr
  · exact (hrecords r hr).elim (fun hr => hrest (List.mem_append_left _ hr)) id
  · exact hrest (List.mem_append_right _ hr)

theorem sum_of_idle (h : s.nbWorkers = 0) (g : ExpandWorker P → Nat) : ∑ j ∈ Finset.range s.nbWorkers, g (s.workers j) = 0 := by
  rw [h, Finset.sum_range_zero]

/-- Between the passes no thread is there. -/
theorem Sound.of_idle (hidle : s.nbWorkers = 0) (hphase : s.phase ≠ .passing) (hrecords : ∀ r ∈ s.records, GoodRecord ps r)
    (hchecked : ∀ r ∈ s.stock.checked.files.flatten, GoodRecord ps r)
    (hsynced : s.work.published = workBytesOf s.work.file + workBytesOf s.work.hold) (hbytes : s.workBytes = s.work.published)
    (hbusy : s.busy = 0) (hrefilling : s.refilling = false) (hnonempty : ∀ part ∈ s.source.below, part.1 ≠ [])
    (hstill : s.phase = .between ∨ (∃ b, s.phase = .stopped b) → s.Drained)
    (hcalm : s.flags.aborted = true → s.phase = .passing ∨ ∃ b, s.phase = .stopped b) : s.Sound ps := by
  have hnone : ∀ {p : Nat → Prop}, ∀ i < s.nbWorkers, p i := fun i hi => absurd (hidle ▸ hi) (Nat.not_lt_zero i)
  refine ⟨hrecords, hchecked, hnone, hnone, hsynced, ?_, ?_, ?_, hnone, hnone, hnone, fun h => absurd h hphase, hnone, hnonempty,
    fun _ => hidle, hstill, hcalm⟩
  · rw [sum_of_idle hidle, hbytes, Nat.add_zero]
  · rw [sum_of_idle hidle, hbusy]
  · rw [sum_of_idle hidle, hrefilling]
    rfl

theorem Sound.idle_counts (h : s.Sound ps) (hphase : s.phase ≠ .passing) : s.nbWorkers = 0 ∧ s.workBytes = s.work.published ∧
    s.busy = 0 ∧ s.refilling = false := by
  have hidle := h.idle hphase
  refine ⟨hidle, ?_, ?_, ?_⟩
  · rw [h.bytes, sum_of_idle hidle, Nat.add_zero]
  · rw [h.busy, sum_of_idle hidle]
  · have hzero := h.refilling
    rw [sum_of_idle hidle] at hzero
    exact Bool.toNat_eq_zero.mp hzero

/-- Before a pass has started no stop has been requested, and nothing is counted but the queue. -/
theorem Sound.before (h : s.Sound ps) (hbefore : s.phase = .between ∨ ∃ b, s.phase = .drained b ∨ s.phase = .bordered b) :
    s.flags.aborted = false ∧ s.nbWorkers = 0 ∧ s.workBytes = s.work.published ∧ s.busy = 0 ∧ s.refilling = false := by
  obtain ⟨hpassing, hstopped⟩ : s.phase ≠ .passing ∧ ∀ b, s.phase ≠ .stopped b := by
    obtain h | ⟨b, h | h⟩ := hbefore <;> rw [h] <;> exact ⟨(fun h => by cases h), fun b h => by cases h⟩
  refine ⟨Bool.eq_false_iff.mpr fun haborted => ?_, h.idle_counts hpassing⟩
  obtain hphase | ⟨b, hphase⟩ := h.calm haborted
  · exact hpassing hphase
  · exact hstopped b hphase

/-- The drain moves records of the pool to the queue. -/
theorem Sound.drain_count (h : s.Sound ps) (hphase : s.phase = .between) (room : Nat) (r : List Byte) :
    (s.drainStep room).records.count r = s.records.count r := by
  have hrecord : ∀ file ∈ s.stock.unchecked.files, ∀ r ∈ file, IsRecord P r := by
    intro file hfile r hr
    exact (h.unchecked r (List.mem_flatten.mpr ⟨file, hfile, hr⟩)).read.1
  have hcount := (drainFiles_perm hrecord room).count_eq r
  obtain ⟨hfile, hhold⟩ := h.still (.inl hphase)
  simp only [Expansion.records, Expansion.drainStep, Expansion.workSync, foldl_poolPut, List.count_append, List.nil_append, hfile,
    hhold,
    List.count_nil] at hcount ⊢
  omega

theorem Sound.drain (h : s.Sound ps) (hphase : s.phase = .between) (room : Nat) : (s.drainStep room).Sound ps := by
  obtain ⟨hcalm, hidle, hbytes, hbusy, hrefilling⟩ := h.before (.inl hphase)
  obtain ⟨hfile, hhold⟩ := h.still (.inl hphase)
  have hzero : s.workBytes = 0 := by
    rw [hbytes, h.synced, hfile, hhold]
    rfl
  have hperm : (s.drainStep room).records.Perm s.records := List.perm_iff_count.mpr (h.drain_count hphase room)
  refine .of_idle hidle (fun h => by cases h) (fun r hr => h.records r (hperm.mem_iff.mp hr)) h.checked rfl ?_ hbusy hrefilling
    h.nonempty (fun h => ?_) fun haborted => ?_
  · have hsync := Expansion.workSync_bytes { s with work := ⟨(drainFiles P room s.stock.unchecked.files).1.foldl poolPut [], [], 0, 0⟩ }
      (Nat.zero_le _)
    have hsync : (s.drainStep room).workBytes + 0 = s.workBytes + (s.drainStep room).work.published := hsync
    omega
  · obtain h | ⟨b, h⟩ := h <;> cases h
  · exact absurd (hcalm.symm.trans haborted) Bool.false_ne_true

theorem Sound.border (h : s.Sound ps) {stalled : Bool} (hphase : s.phase = .drained stalled) {cut : List (List (List Byte))}
    (hstep : s.borderStep cfg cut stalled = some s') :
    s'.Sound ps ∧ ∃ source, s' = { s with phase := .bordered stalled, source } ∧ source.records.Perm s.source.records := by
  obtain ⟨hcalm, hidle, hbytes, hbusy, hrefilling⟩ := h.before (.inr ⟨_, .inl hphase⟩)
  unfold borderStep at hstep
  split at hstep
  · obtain ⟨hcut, hsome⟩ := Option.ite_none_right_eq_some.mp hstep
    obtain rfl := Option.some.inj hsome
    rw [Bool.and_eq_true, List.isPerm_iff, List.all_eq_true] at hcut
    obtain ⟨hperm, hall⟩ := hcut
    have hsource : (SpillSource.mk (cut.map fun part => (part, [])) [] 0).records = cut.flatten := by
      simp [SpillSource.records, List.flatMap_map, List.flatMap_id']
    rw [← hsource] at hperm
    have hrecords : ({ s with phase := .bordered stalled, source := ⟨cut.map fun part => (part, []), [], 0⟩ } : Expansion
      P).records.Perm
        s.records := ((hperm.append_left _).append_right _).append_right _
    refine ⟨.of_idle hidle (fun h => by cases h) (fun r hr => h.records r (hrecords.mem_iff.mp hr)) h.checked h.synced hbytes hbusy
      hrefilling (fun part hpart => ?_) (fun h => ?_) fun haborted => absurd (hcalm.symm.trans haborted) Bool.false_ne_true, _, rfl, hperm⟩
    · obtain ⟨records, hrecords, rfl⟩ := List.mem_map.mp hpart
      have hne := hall records hrecords
      rintro (rfl : records = [])
      exact Bool.false_ne_true hne
    · obtain h | ⟨b, h⟩ := h <;> cases h
  · obtain rfl := Option.some.inj hstep
    refine ⟨.of_idle hidle (fun h => by cases h) h.records h.checked h.synced hbytes hbusy hrefilling h.nonempty (fun h => ?_)
      fun haborted => absurd (hcalm.symm.trans haborted) Bool.false_ne_true, s.source, rfl, .refl _⟩
    obtain h | ⟨b, h⟩ := h <;> cases h

theorem Sound.start (h : s.Sound ps) {stalled : Bool} (hphase : s.phase = .bordered stalled) {recourse : Bool}
    {threads : List (Nat × Nat)}
    (hstep : s.startStep cfg recourse threads stalled = some s') : s'.Sound ps := by
  obtain ⟨-, -, hbytes, -⟩ := h.before (.inr ⟨_, .inr hphase⟩)
  obtain ⟨⟨hpos, -, hsizes⟩, hsome⟩ := Option.ite_none_right_eq_some.mp hstep
  obtain rfl := Option.some.inj hsome
  have hmax : ∀ i < threads.length, 0 < (threads.getD i (0, 0)).1 := by
    intro i hi
    rw [List.getD_eq_getElem _ _ hi]
    obtain h | h := hsizes _ (List.getElem_mem hi) <;> rw [h] <;> decide
  refine {
    records := h.records
    checked := h.checked
    worker := fun i hi => ⟨fun r hr => absurd hr List.not_mem_nil, fun p hp => absurd hp List.not_mem_nil⟩
    fits := fun i hi => ⟨fun _ => ⟨rfl, rfl⟩, fun _ => rfl, fun _ => rfl, fun _ => rfl, fun _ => rfl, fun _ => rfl, fun _ => trivial,
      rfl,
      hmax i hi⟩
    synced := h.synced
    bytes := ?_
    busy := ?_
    refilling := ?_
    waits := fun i hi since hwaiting => by cases hwaiting
    empty := fun i hi => False.elim
    nothing := fun i hi => False.elim
    queue := fun _ => .inr (.inr ⟨0, hpos, id⟩)
    leaves := fun i hi => False.elim
    nonempty := h.nonempty
    idle := fun h => absurd rfl h
    still := fun h => ?_
    calm := fun _ => .inl rfl }
  · exact hbytes.trans (Nat.add_zero _).symm |>.trans (congrArg _ (Finset.sum_eq_zero fun i hi => rfl).symm)
  · exact (Finset.sum_eq_zero fun i hi => rfl).symm
  · exact (Finset.sum_eq_zero fun i hi => rfl).symm
  · obtain h | ⟨b, h⟩ := h <;> cases h

/-- A thread at its end has nothing. -/
theorem Sound.ended (h : s.Sound ps) (hi : i < s.nbWorkers) (hended : (s.workers i).stage = .ended) :
    (s.workers i).records = [] ∧ (s.workers i).packets = [] ∧ (s.workers i).bytes = 0 ∧ (s.workers i).held = 0 ∧
      (s.workers i).reading = 0 := by
  have hf : (s.workers i).FitsAt .ended := hended ▸ h.fits i hi
  obtain ⟨hfresh, hfreshHold⟩ := hf.fresh id
  have hpublished := hf.published
  unfold ExpandWorker.records ExpandWorker.packets ExpandWorker.bytes ExpandWorker.held ExpandWorker.reading
  rw [hpublished, hfresh, hfreshHold, hf.drawn id, hf.batch id, hf.children id, hf.unstored id, hf.block trivial, hended]
  exact ⟨rfl, rfl, rfl, if_neg fun h => (hf.holding h).elim id id, rfl⟩

/-- What the end of a pass changes. -/
structure Finishes (cfg : ExpandConfig) (s s' : Expansion P) : Prop where
  ended : ∀ i < s.nbWorkers, (s.workers i).stage = .ended
  nbWorkers : s'.nbWorkers = 0
  stock : s'.stock = s.stock
  records : s'.source.records = s.source.records
  below : s'.source.below = []
  others : s'.served = s.served ∧ s'.added = s.added ∧ s'.solution = s.solution
  counts : s'.busy = s.busy ∧ s'.refilling = s.refilling
  work : s'.work.file = (if s.flags.aborted then [] else s.work.file) ∧ s'.work.hold = if s.flags.aborted then [] else s.work.hold
  synced : s'.work.published = workBytesOf s'.work.file + workBytesOf s'.work.hold
  bytes : s.work.published ≤ s.workBytes → s'.workBytes + s.work.published = s.workBytes + s'.work.published
  capReached : s'.flags.capReached = s.flags.capReached
  aborted : s'.flags.aborted = false → s.flags.aborted = false
  phase : (s'.phase = .stopped true ∧ s.flags.shallowProduced = false ∧ s.flags.shallowDeferred = false ∧
      (s.diskLeft && !s.flags.capReached) = false ∧ s.source.prepassDeferred = 0 ∧ s.work.returned = 0) ∨
    (s'.phase = .between ∧ s'.flags.aborted = false) ∨ s'.phase = .stopped false

theorem finishStep_spec {stop : Bool} (hstep : s.finishStep cfg stop = some s') : Finishes cfg s s' := by
  obtain ⟨hall, hsome⟩ := Option.ite_none_right_eq_some.mp hstep
  obtain rfl := Option.some.inj hsome
  refine ⟨fun i hi => ?_, rfl, rfl, List.nil_append _, rfl, ⟨rfl, rfl, rfl⟩, ⟨rfl, rfl⟩, ?_, rfl, fun h => ?_, rfl, fun h => ?_, ?_⟩
  · have hended := hall i hi
    cases hstage : (s.workers i).stage with
    | ended => rfl
    | _ =>
      rw [hstage] at hended
      cases hended
  · cases s.flags.aborted <;> exact ⟨rfl, rfl⟩
  · have hwork : (if s.flags.aborted = true then { s.work with file := [], hold := [] } else s.work).published = s.work.published := by
      split <;> rfl
    have hsync := Expansion.workSync_bytes
      { s with work := if s.flags.aborted then { s.work with file := [], hold := [] } else s.work } (by dsimp only; rw [hwork]; exact h)
    dsimp only at hsync
    rwa [hwork] at hsync
  · exact (Bool.or_eq_false_iff.mp h).1
  · dsimp only
    split
    · rename_i hself
      rw [Bool.and_eq_true, Bool.not_eq_true', Bool.not_eq_true'] at hself
      simp only [Bool.or_eq_false_iff, decide_eq_false_iff_not, Nat.not_lt, Nat.le_zero] at hself
      obtain ⟨hproduced, ⟨⟨hdeferred, hleft⟩, hprepass⟩, hreturned⟩ := hself
      exact .inl ⟨rfl, hproduced, hdeferred, hleft, hprepass, hreturned⟩
    · exact (em (_ ∧ _ ∧ _)).elim (fun hgoes => .inr (.inl ⟨if_pos hgoes, hgoes.2.2⟩)) fun hstops => .inr (.inr (if_neg hstops))

theorem Finishes.phase_ne (h : Finishes cfg s s') : s'.phase ≠ .passing := by
  obtain ⟨h, -⟩ | ⟨h, -⟩ | h := h.phase <;> rw [h] <;> exact fun h => by cases h

theorem Sound.finish_drained (h : s.Sound ps) (hphase : s.phase = .passing) (hfinish : Finishes cfg s s') : s'.Drained := by
  obtain ⟨hfile, hhold⟩ := hfinish.work
  cases haborted : s.flags.aborted with
  | true =>
    rw [haborted] at hfile hhold
    exact ⟨hfile, hhold⟩
  | false =>
    rw [haborted] at hfile hhold
    obtain hdrained | haborted' | ⟨i, hi, hstays⟩ := h.queue hphase
    · exact ⟨hfile.trans hdrained.1, hhold.trans hdrained.2⟩
    · exact absurd (haborted.symm.trans haborted') Bool.false_ne_true
    · rw [hfinish.ended i hi] at hstays
      exact absurd trivial hstays

theorem Sound.finish (h : s.Sound ps) (hphase : s.phase = .passing) (hfinish : Finishes cfg s s') : s'.Sound ps := by
  obtain ⟨hfile, hhold⟩ := h.finish_drained hphase hfinish
  have hnone : ∀ g : ExpandWorker P → Nat, (∀ i < s.nbWorkers, g (s.workers i) = 0) →
      ∑ i ∈ Finset.range s.nbWorkers, g (s.workers i) = 0 :=
    fun g hg => Finset.sum_eq_zero fun i hi => hg i (Finset.mem_range.mp hi)
  have hbytes : s.workBytes = s.work.published := by
    rw [h.bytes, hnone _ fun i hi => (h.ended hi (hfinish.ended i hi)).2.2.1, Nat.add_zero]
  have hsynced := hfinish.bytes hbytes.ge
  obtain ⟨hbusy, hrefilling⟩ := hfinish.counts
  refine .of_idle hfinish.nbWorkers hfinish.phase_ne (fun r hr => ?_) ?_ hfinish.synced ?_ ?_ ?_ ?_ ?_ fun haborted => ?_
  · unfold Expansion.records at hr
    rw [hfile, hhold, List.append_nil, List.append_nil, hfinish.stock, hfinish.records] at hr
    exact h.records r (List.mem_append_left _ (List.mem_append_left _ hr))
  · rw [hfinish.stock]
    exact h.checked
  · omega
  · rw [hbusy, h.busy, hnone _ fun i hi => (h.ended hi (hfinish.ended i hi)).2.2.2.1]
  · have hzero := h.refilling
    rw [hnone _ fun i hi => (h.ended hi (hfinish.ended i hi)).2.2.2.2] at hzero
    rw [hrefilling]
    exact Bool.toNat_eq_zero.mp hzero
  · rw [hfinish.below]
    exact fun part hpart => absurd hpart List.not_mem_nil
  · exact fun _ => ⟨hfile, hhold⟩
  · obtain ⟨hphase', -⟩ | ⟨-, hgoes⟩ | hphase' := hfinish.phase
    · exact .inr ⟨_, hphase'⟩
    · exact absurd (hgoes.symm.trans haborted) Bool.false_ne_true
    · exact .inr ⟨_, hphase'⟩

theorem load_eq (s : Expansion P) (b : Grid P) : s.load ps b =
    recordLoad ps s.stock.unchecked.files.flatten b + recordLoad ps s.source.records b + recordLoad ps s.work.file b +
      recordLoad ps s.work.hold b + recordLoad ps s.stock.checked.files.flatten b + packetLoad ps s.served b +
      ∑ i ∈ Finset.range s.nbWorkers, (s.workers i).load ps b := congrArg (· + _) (s.shared_eq b)

/-- What is covered when the records only go from one place to another. -/
theorem load_of_perm {b : Grid P} (hrecords : s'.records.Perm s.records)
    (hchecked : s'.stock.checked.files = s.stock.checked.files) (hserved : s'.served = s.served)
    (hthreads : ∑ i ∈ Finset.range s'.nbWorkers, (s'.workers i).load ps b = ∑ i ∈ Finset.range s.nbWorkers, (s.workers i).load ps b) :
    s'.load ps b = s.load ps b := by
  unfold Expansion.load Expansion.shared
  rw [recordLoad_perm hrecords, hchecked, hserved, hthreads]

/-- Records go between the lists and the source. -/
theorem Sound.of_moved (h : s.Sound ps) {stock : LocalStock} {source : SpillSource}
    (hperm : (stock.unchecked.files.flatten ++ source.records).Perm (s.stock.unchecked.files.flatten ++ s.source.records))
    (hchecked : stock.checked.files = s.stock.checked.files) (hbelow : s.source.below = [] → source.below = [])
    (hnonempty : (∀ part ∈ s.source.below, part.1 ≠ []) → ∀ part ∈ source.below, part.1 ≠ []) :
    ({ s with stock, source } : Expansion P).Sound ps ∧ ∀ b, ({ s with stock, source } : Expansion P).load ps b = s.load ps b := by
  refine ⟨h.of_stock (fun r hr => .inl (hperm.mem_iff.mp hr)) (fun r hr => .inl (by rwa [← hchecked])) hbelow hnonempty, fun b => ?_⟩
  exact load_of_perm ((hperm.append_right _).append_right _) hchecked rfl rfl

theorem Sound.evict (h : s.Sound ps) {f n tierBytes : Nat} {top : Option Nat} (hstep : s.evictStep f n top tierBytes = some s') :
    s'.Sound ps ∧ ∀ b, s'.load ps b = s.load ps b := by
  obtain ⟨source, hplace, rfl⟩ := Option.map_eq_some_iff.mp hstep
  obtain ⟨hperm, hbelow, hnonempty, -⟩ := SpillSource.place_perm hplace
  have hfiles : s.stock.unchecked.files.flatten.Perm
    ((s.stock.unchecked.files.set f ((s.stock.unchecked.files.getD f []).drop n)).flatten ++
      (s.stock.unchecked.files.getD f []).take n) := by
    refine flatten_set_out ?_
    exact (List.Perm.of_eq (List.take_append_drop n _).symm).trans List.perm_append_comm
  refine h.of_moved ?_ rfl hbelow hnonempty
  refine List.perm_iff_count.mpr fun r => ?_
  have hcount := hperm.count_eq r
  have hfilesCount := hfiles.count_eq r
  simp only [List.count_append] at hcount hfilesCount ⊢
  omega

theorem Sound.defer (h : s.Sound ps) {k tierBytes : Nat} {top : Option Nat} (hstep : s.deferStep k top tierBytes = some s') :
    s'.Sound ps ∧ ∀ b, s'.load ps b = s.load ps b := by
  unfold deferStep at hstep
  split at hstep
  · cases hstep
  · rename_i part hpart
    obtain ⟨source, hplace, rfl⟩ := Option.map_eq_some_iff.mp hstep
    obtain ⟨hperm, hbelow, hnonempty, -⟩ := SpillSource.place_perm hplace
    refine h.of_moved (List.Perm.append_left _ ?_) rfl (fun hnil => hbelow ?_) fun hall =>
      hnonempty fun part' hpart' => hall part' (List.mem_of_mem_eraseIdx hpart')
    · exact hperm.trans (List.perm_append_comm.trans (SpillSource.records_erase hpart).symm)
    · rw [hnil]
      rfl

/-- A packet that is taken from a file: what is left, and what it covers. -/
theorem scrollLoop_out {files : List PoolFile} (hgood : ∀ r ∈ files.flatten, GoodRecord ps r) (f n : Nat) :
    (∀ r ∈ (files.set f (scrollLoop P n (files.getD f [])).2).flatten, r ∈ files.flatten) ∧
      ∀ b, recordLoad ps (files.set f (scrollLoop P n (files.getD f [])).2).flatten b +
        packetLoad ps (scrollLoop P n (files.getD f [])).1 b = recordLoad ps files.flatten b := by
  have hfile : ∀ r ∈ files.getD f [], GoodRecord ps r := by
    intro r hr
    by_cases hf : f < files.length
    · rw [List.getD_eq_getElem _ _ hf] at hr
      exact hgood r (List.mem_flatten.mpr ⟨_, List.getElem_mem hf, hr⟩)
    · rw [List.getD_eq_default _ _ (Nat.not_lt.mp hf)] at hr
      exact absurd hr List.not_mem_nil
  obtain ⟨-, hsplit, -⟩ := scrollLoop_spec (fun r hr => (hfile r hr).read.1) n
  have hpackets := scrollLoop_good hfile n
  have hout := flatten_set_out ((List.Perm.of_eq hsplit).trans (.append_left _ (List.reverse_perm _)))
  refine ⟨fun r hr => hout.mem_iff.mpr (List.mem_append_left _ hr), fun b => ?_⟩
  rw [recordLoad_split hout, recordLoad_filterMap fun p hp => (hpackets p hp).wellFormed]

theorem Sound.serve (h : s.Sound ps) (wantChecked : Bool) (f : Nat) :
    (s.serveStep wantChecked f).Sound ps ∧ ∀ b, (s.serveStep wantChecked f).load ps b = s.load ps b := by
  cases wantChecked with
  | false =>
    obtain ⟨hmem, hload⟩ := scrollLoop_out h.unchecked f 1
    refine ⟨h.of_stock (fun r hr => .inl ?_) (fun r hr => .inl hr) id id, fun b => ?_⟩
    · exact (List.mem_append.mp hr).elim (fun hr => List.mem_append_left _ (hmem r hr)) (List.mem_append_right _)
    · have hload := hload b
      rw [load_eq, s.load_eq]
      simp only [serveStep, LocalStock.scrollAt, LocalStock.pool, LocalStock.setPool, packetLoad_append, Bool.false_eq_true, if_false]
      omega
  | true =>
    obtain ⟨hmem, hload⟩ := scrollLoop_out h.checked f 1
    refine ⟨h.of_stock (fun r hr => .inl hr) (fun r hr => .inl (hmem r hr)) id id, fun b => ?_⟩
    have hload := hload b
    rw [load_eq, s.load_eq]
    simp only [serveStep, LocalStock.scrollAt, LocalStock.pool, LocalStock.setPool, packetLoad_append, if_true]
    omega

theorem Sound.add (h : s.Sound ps) {packet : Packet P} {freeUnchecked freeChecked : Nat → Bool}
    (hallowed : s.Allowed ps (.add packet freeUnchecked freeChecked)) :
    (s.addStep packet freeUnchecked freeChecked).Sound ps ∧
      ∀ b, (s.addStep packet freeUnchecked freeChecked).load ps b + packetLoad ps s.added b =
        s.load ps b + packetLoad ps (s.addStep packet freeUnchecked freeChecked).added b := by
  obtain ⟨hpacket, hunchecked, hchecked⟩ := hallowed
  have hput := putToLocal_inserted s.measured hpacket.wellFormed hunchecked hchecked
  refine ⟨h.of_stock (fun r hr => ?_) (fun r hr => ?_) id id, fun b => ?_⟩
  · obtain hr | hr := List.mem_append.mp hr
    · exact (hput.unchecked r hr).imp (List.mem_append_left _) fun hrecord => ⟨packet, hpacket.wellFormed, hrecord⟩
    · exact .inl (List.mem_append_right _ hr)
  · exact (hput.checked r hr).imp_right fun hrecord => ⟨packet, hpacket.wellFormed, hrecord⟩
  · have hload := hput.load b
    unfold addStep
    rw [load_eq, s.load_eq, packetLoad_append]
    dsimp only [measured] at hload ⊢
    omega

/-- A step keeps the invariant, and as long as nothing is given up and no board is found complete it covers what it
covered, with what has been added. -/
theorem Sound.step (h : s.Sound ps) (al : MapAllocs) (htarget : cfg.targetLevel.toNat ≤ P.eternParts) {label : ExpandLabel P}
    (hallowed : s.Allowed ps label) (hstep : s.step ps (prepareMapPart ps al) cfg label = some s') :
    s'.Sound ps ∧ (s'.flags.aborted = false → s'.solution = none → s.flags.aborted = false ∧ s.solution = none ∧
      ∀ b, s'.load ps b + packetLoad ps s.added b = s.load ps b + packetLoad ps s'.added b) := by
  obtain ⟨hsolution, hmoves⟩ := step_moves ps _ cfg hstep
  cases hmoves with
  | thread passing running step =>
    obtain ⟨w', hthread⟩ := workerStep_spec al htarget (h.ready running) hallowed step
    refine ⟨h.thread passing running hthread, fun haborted hsolution' => ⟨?_, hsolution, fun b => ?_⟩⟩
    · exact Bool.eq_false_iff.mpr fun h => Bool.false_ne_true (haborted.symm.trans (hthread.flags.aborted h))
    · have htotal := total_step hthread running (ExpandWorker.load ps · b)
      have hbalance := hthread.carries.balance haborted hsolution' b
      unfold Expansion.load
      rw [hthread.added]
      omega
  | drain room between =>
    refine ⟨h.drain between room, fun haborted _ => ⟨haborted, hsolution, fun b => congrArg (· + _) ?_⟩⟩
    exact load_of_perm (List.perm_iff_count.mpr (h.drain_count between room)) rfl rfl rfl
  | border drained step =>
    obtain ⟨hsound, source, rfl, hperm⟩ := h.border drained step
    refine ⟨hsound, fun haborted _ => ⟨haborted, hsolution, fun b => congrArg (· + _) ?_⟩⟩
    exact load_of_perm (((hperm.append_left _).append_right _).append_right _) rfl rfl rfl
  | start bordered step =>
    refine ⟨h.start bordered step, fun _ _ => ?_⟩
    obtain ⟨haborted, hidle, -⟩ := h.before (.inr ⟨_, .inr bordered⟩)
    obtain ⟨-, hsome⟩ := Option.ite_none_right_eq_some.mp step
    obtain rfl := Option.some.inj hsome
    refine ⟨haborted, hsolution, fun b => congrArg (· + _) (load_of_perm (.refl _) rfl rfl ?_)⟩
    rw [sum_of_idle hidle (ExpandWorker.load ps · b)]
    exact Finset.sum_eq_zero fun i hi => rfl
  | finish passing step =>
    have hfinish := finishStep_spec step
    refine ⟨h.finish passing hfinish, fun haborted _ => ⟨hfinish.aborted haborted, hsolution, fun b => ?_⟩⟩
    obtain ⟨hserved, hadded, -⟩ := hfinish.others
    obtain ⟨hfile, hhold⟩ := hfinish.work
    rw [hfinish.aborted haborted, if_neg Bool.false_ne_true] at hfile hhold
    rw [hadded]
    refine congrArg (· + _) (load_of_perm ?_ (by rw [hfinish.stock]) hserved ?_)
    · unfold Expansion.records
      rw [hfile, hhold, hfinish.stock, hfinish.records]
    · rw [sum_of_idle hfinish.nbWorkers (ExpandWorker.load ps · b)]
      refine (Finset.sum_eq_zero fun i hi => ?_).symm
      obtain ⟨hrecords, hpackets, -⟩ := h.ended (Finset.mem_range.mp hi) (hfinish.ended i (Finset.mem_range.mp hi))
      unfold ExpandWorker.load
      rw [hrecords, hpackets]
      rfl
  | evict step =>
    obtain ⟨hsound, hload⟩ := h.evict step
    obtain ⟨source, -, rfl⟩ := Option.map_eq_some_iff.mp step
    exact ⟨hsound, fun haborted _ => ⟨haborted, hsolution, fun b => congrArg (· + _) (hload b)⟩⟩
  | defer step =>
    obtain ⟨hsound, hload⟩ := h.defer step
    unfold deferStep at step
    split at step
    · cases step
    · obtain ⟨source, -, rfl⟩ := Option.map_eq_some_iff.mp step
      exact ⟨hsound, fun haborted _ => ⟨haborted, hsolution, fun b => congrArg (· + _) (hload b)⟩⟩
  | serve wantChecked f =>
    obtain ⟨hsound, hload⟩ := h.serve wantChecked f
    exact ⟨hsound, fun haborted _ => ⟨haborted, hsolution, fun b => congrArg (· + _) (hload b)⟩⟩
  | add packet freeUnchecked freeChecked =>
    obtain ⟨hsound, hload⟩ := h.add hallowed
    exact ⟨hsound, fun haborted _ => ⟨haborted, hsolution, hload⟩⟩

end Invariant

/-! ## No thread waits for nothing -/

section Progress

variable {P : Puzzle} {ps : PieceSet P} {s s' : Expansion P} {i : Nat}

/-- A turn of a search in which nothing is asked of it. -/
def continueTurn : Turn := ⟨.continue_, .continue_, false, 0, 0, 0, false, false⟩

/-- Nothing from outside is behind the step: no wake-up for nothing, no request. -/
def Plain : ExpandLabel P → Prop
  | .take _ spurious => spurious = false
  | .child _ turns => ∀ t ∈ turns, t.request = .continue_
  | _ => True

/-- A step of a thread that waits for nothing, at each place in the code: the tier takes blocks, and all locks are taken. -/
def plainLabel (i : Nat) : ExpandStage P → ExpandLabel P
  | .entering | .looping | .waiting _ | .ended => .take i false
  | .refilling _ => .source i 0 0 false false 0
  | .publishing _ _ => .publish i
  | .decoding => .decode i
  | .working => .treat i
  | .developing => .child i (List.replicate expandProofBudget continueTurn)
  | .flushing _ => .flush i true 0
  | .restoring _ => .restore i
  | .storing _ _ _ => .store i (fun _ => false) (fun _ => false)
  | .refused _ _ _ _ => .react i false false
  | .returning _ _ _ _ => .giveBack i 0

theorem request_continue : ∀ t ∈ List.replicate expandProofBudget continueTurn, t.request = .continue_ := by
  intro t ht
  rw [List.eq_of_mem_replicate ht]
  rfl

theorem plainLabel_allowed (stage : ExpandStage P) :
    (plainLabel i stage).thread = some i ∧ Plain (plainLabel i stage) ∧ s.Allowed ps (plainLabel i stage) := by
  cases stage with
  | storing packet wait next => exact ⟨rfl, trivial, .inr fun _ _ => rfl, .inr fun _ _ => rfl⟩
  | developing => exact ⟨rfl, request_continue, trivial⟩
  | entering | looping | waiting since | ended => exact ⟨rfl, rfl, trivial⟩
  | _ => exact ⟨rfl, trivial, trivial⟩

/-- A thread that does not wait, or that has been woken, goes on. -/
theorem worker_moves (al : MapAllocs) (cfg : ExpandConfig) (hgood : (s.workers i).Good ps) (hended : (s.workers i).stage ≠ .ended)
    (hwoken : ∀ since, (s.workers i).stage = .waiting since → since < s.wakes) :
    (s.workerStep ps (prepareMapPart ps al) cfg i (s.workers i) (plainLabel i (s.workers i).stage)).isSome := by
  generalize s.workers i = w at hgood hended hwoken
  cases hstage : w.stage with
  | ended => exact absurd hstage hended
  | waiting since =>
    simp only [plainLabel, workerStep, takeStep, hstage]
    rw [if_pos (.inl (hwoken since hstage))]
    rfl
  | refilling prefetch =>
    simp only [plainLabel, workerStep, sourceStep, hstage]
    cases hbelow : s.source.below with
    | nil => rfl
    | cons part below =>
      dsimp only [List.getElem?_cons_zero]
      split <;> rfl
  | developing =>
    simp only [plainLabel, workerStep, childStep, hstage]
    cases hchildren : w.children with
    | nil => rfl
    | cons child rest =>
      have hchild : child.Good ps := hgood.packets child (by simp [ExpandWorker.packets, hchildren])
      have hanswer := closes_isSome al cfg hchild.wellFormed request_continue List.length_replicate
      dsimp only
      split
      · rfl
      · split
        · rename_i hnone
          rw [hnone] at hanswer
          cases hanswer
        · rfl
        · split
          · rfl
          · split <;> rfl
  | _ =>
    simp only [plainLabel, workerStep, takeStep, publishStep, decodeStep, treatStep, flushStep, restoreStep, storeStep, reactStep,
      giveBackStep, hstage]
    repeat' first | rfl | split

theorem stays_of_reads {stage : ExpandStage P} (h : stage.Reads) : stage ≠ .ended ∧ ¬ stage.Waits := by
  cases stage with
  | refilling _ | publishing _ _ => exact ⟨(fun h => by cases h), id⟩
  | _ => exact h.elim

theorem stays_of_holds {stage : ExpandStage P} (h : stage.Holds) : stage ≠ .ended ∧ ¬ stage.Waits := by
  cases stage with
  | waiting _ | ended => exact h.elim False.elim False.elim
  | _ => exact ⟨(fun h => by cases h), id⟩

/-- While a pass goes on, one of its threads can: a thread that waits has been woken, or another one will wake it. -/
theorem Sound.progress (h : s.Sound ps) (al : MapAllocs) (cfg : ExpandConfig) (hphase : s.phase = .passing)
    (hsolution : s.solution = none) :
    (∀ i < s.nbWorkers, (s.workers i).stage = .ended) ∨ ∃ i < s.nbWorkers, ∃ (label : ExpandLabel P) (s' : Expansion P),
      label.thread = some i ∧ Plain label ∧ s.Allowed ps label ∧ s.step ps (prepareMapPart ps al) cfg label = some s' := by
  have hgoes : (∃ i < s.nbWorkers, (s.workers i).stage ≠ .ended ∧ ∀ since, (s.workers i).stage = .waiting since → since < s.wakes) →
      ∃ i < s.nbWorkers, ∃ (label : ExpandLabel P) (s' : Expansion P),
        label.thread = some i ∧ Plain label ∧ s.Allowed ps label ∧ s.step ps (prepareMapPart ps al) cfg label = some s' := by
    rintro ⟨i, hi, hended, hwoken⟩
    obtain ⟨s', hstep⟩ := Option.isSome_iff_exists.mp (worker_moves al cfg (h.worker i hi) hended hwoken)
    obtain ⟨hthread, hplain, hallowed⟩ := plainLabel_allowed (s.workers i).stage
    refine ⟨i, hi, _, s', hthread, hplain, hallowed, ?_⟩
    unfold Expansion.step
    rw [hsolution, hthread, hphase]
    dsimp only
    rw [Option.isSome_none, if_neg Bool.false_ne_true, if_pos hi]
    exact hstep
  by_cases hall : ∀ i < s.nbWorkers, (s.workers i).stage = .ended
  · exact .inl hall
  · refine .inr (hgoes ?_)
    push Not at hall
    obtain ⟨i, hi, hended⟩ := hall
    by_cases hwaits : ∃ since, (s.workers i).stage = .waiting since ∧ ¬ since < s.wakes
    · obtain ⟨since, hstage, hlate⟩ := hwaits
      obtain ⟨-, hwoken⟩ := h.waits i hi since hstage
      -- Another thread reads the source, or counts as busy: it does not wait, and is not at its end.
      have hother : ∀ (g : ExpandWorker P → Nat), 0 < ∑ j ∈ Finset.range s.nbWorkers, g (s.workers j) →
          (∀ j < s.nbWorkers, g (s.workers j) ≠ 0 → (s.workers j).stage ≠ .ended ∧ ¬ (s.workers j).stage.Waits) →
          ∃ j < s.nbWorkers, (s.workers j).stage ≠ .ended ∧ ∀ since, (s.workers j).stage = .waiting since → since < s.wakes := by
        intro g hpos hg
        obtain ⟨j, hj, hne⟩ := Finset.exists_ne_zero_of_sum_ne_zero hpos.ne'
        obtain ⟨hended, hstays⟩ := hg j (Finset.mem_range.mp hj) hne
        refine ⟨j, Finset.mem_range.mp hj, hended, fun since hstage => ?_⟩
        rw [hstage] at hstays
        exact absurd trivial hstays
      obtain hwoken | hreads | hbusy := hwoken
      · exact absurd hwoken hlate
      · refine hother ExpandWorker.reading (by rw [← h.refilling, hreads]; exact Nat.one_pos) fun j hj hne => stays_of_reads ?_
        by_contra hnot
        exact hne (if_neg hnot)
      · refine hother ExpandWorker.held (h.busy ▸ hbusy) fun j hj hne => stays_of_holds ((h.fits j hj).holding ?_)
        by_contra hnot
        exact hne (if_neg hnot)
    · refine ⟨i, hi, hended, fun since hstage => ?_⟩
      by_contra hlate
      exact hwaits ⟨since, hstage, hlate⟩

end Progress

/-! ## The runs -/

section Whole

variable {P : Puzzle} (ps : PieceSet P) (al : MapAllocs) (cfg : ExpandConfig)

/-- An expansion that begins: no pass is going on, and the stock holds records of legal boards. -/
structure Begins (s : Expansion P) : Prop where
  phase : s.phase = .between
  nbWorkers : s.nbWorkers = 0
  work : s.work = ⟨[], [], 0, 0⟩
  workBytes : s.workBytes = 0
  busy : s.busy = 0
  refilling : s.refilling = false
  below : s.source.below = []
  aborted : s.flags.aborted = false
  records : ∀ r ∈ s.records, GoodRecord ps r
  checked : ∀ r ∈ s.stock.checked.files.flatten, GoodRecord ps r

/-- The runs of an expansion, with the threads of its passes and the others in any order. -/
abbrev Runs (start s : Expansion P) : Prop := Run (step ps (prepareMapPart ps al) cfg) (fun s label => s.Allowed ps label) start s

variable {ps al cfg} {start s : Expansion P}

theorem Begins.sound (h : Begins ps start) : start.Sound ps := by
  refine .of_idle h.nbWorkers (by rw [h.phase]; exact fun h => by cases h) h.records h.checked ?_ ?_ h.busy h.refilling ?_ (fun _ => ?_)
    fun haborted => ?_
  · rw [h.work]
    rfl
  · rw [h.workBytes, h.work]
  · rw [h.below]
    exact fun part hpart => absurd hpart List.not_mem_nil
  · rw [Drained, h.work]
    exact ⟨rfl, rfl⟩
  · exact absurd (h.aborted.symm.trans haborted) Bool.false_ne_true

/-- What every state of an expansion satisfies. -/
theorem Runs.sound (hrun : Runs ps al cfg start s) (hbegins : Begins ps start) (htarget : cfg.targetLevel.toNat ≤ P.eternParts) :
    s.Sound ps :=
  Run.invariant hrun hbegins.sound fun h hallowed hstep => (h.step al htarget hallowed hstep).1

theorem Runs.load (hrun : Runs ps al cfg start s) (hbegins : Begins ps start) (htarget : cfg.targetLevel.toNat ≤ P.eternParts)
    (haborted : s.flags.aborted = false) (hsolution : s.solution = none) (b : Grid P) :
    s.load ps b + packetLoad ps start.added b = start.load ps b + packetLoad ps s.added b := by
  induction hrun with
  | refl => rfl
  | tail run allowed next ih =>
    obtain ⟨hbefore, hnone, hload⟩ := ((Runs.sound run hbegins htarget).step al htarget allowed next).2 haborted hsolution
    have ih := ih hbefore hnone
    have hload := hload b
    omega

/-- What an expansion keeps, whatever the threads of its passes and the others do: it covers each board as often as when it began,
with what has been added, unless it is stopped or has found a complete board; what its queues, batches and readings weigh
is counted exactly; and between two passes the queue is empty and nothing is counted for it. -/
theorem expansion_conserves (hbegins : Begins ps start) (htarget : cfg.targetLevel.toNat ≤ P.eternParts)
    (hrun : Runs ps al cfg start s) :
    (s.flags.aborted = false → s.solution = none →
      ∀ b, s.load ps b + packetLoad ps start.added b = start.load ps b + packetLoad ps s.added b) ∧
    s.workBytes = workBytesOf s.work.file + workBytesOf s.work.hold + ∑ i ∈ Finset.range s.nbWorkers, (s.workers i).bytes ∧
    (s.phase = .between ∨ (∃ b, s.phase = .stopped b) → s.Drained ∧ s.nbWorkers = 0 ∧ s.workBytes = 0) := by
  have hsound := Runs.sound hrun hbegins htarget
  refine ⟨Runs.load hrun hbegins htarget, hsound.synced ▸ hsound.bytes, fun hphase => ?_⟩
  have hne : s.phase ≠ .passing := by
    obtain h | ⟨b, h⟩ := hphase <;> rw [h] <;> exact fun h => by cases h
  obtain ⟨hfile, hhold⟩ := hsound.still hphase
  obtain ⟨hidle, hbytes, -⟩ := hsound.idle_counts hne
  refine ⟨⟨hfile, hhold⟩, hidle, ?_⟩
  rw [hbytes, hsound.synced, hfile, hhold]
  rfl

/-- The record of an empty board. -/
def emptyRecord : List Byte := [0#8, 0#8, 0#8, 0#8, 255#8, 255#8, 0#8, 0#8]

/-- An empty board in the unverified pool. -/
def oneBoard : Expansion .p16 where
  phase := .between
  rounds := 0
  uncounted := 0
  stock := ⟨⟨[[emptyRecord]], 0, Nat.one_pos⟩, ⟨[[]], 0, Nat.one_pos⟩, 0, 0⟩
  source := ⟨[], [], 0⟩
  workBytes := 0
  work := ⟨[], [], 0, 0⟩
  nbWorkers := 0
  workers _ := .create 1 0
  busy := 0
  refilling := false
  wakes := 0
  diskPhase := false
  diskLeft := false
  diskRecourse := false
  flags := ⟨false, false, false, false, false, false, false, false⟩
  counts := ⟨0, 0, 0, 0, 0, 0, 0, 0⟩
  solution := none
  served := []
  added := []

/-- An expansion to level 1, on one thread and without a disk. -/
def toFirstLevel : ExpandConfig := ⟨1, 1, 1000, 64, false, false, false, false, false⟩

def calmAllocs : MapAllocs := ⟨false, fun _ => false, false, false⟩

theorem oneBoard_begins (pieces : PieceSet .p16) : Begins pieces oneBoard where
  phase := rfl
  nbWorkers := rfl
  work := rfl
  workBytes := rfl
  busy := rfl
  refilling := rfl
  below := rfl
  aborted := rfl
  records r hr := by
    obtain rfl := List.mem_singleton.mp (show r ∈ [emptyRecord] from hr)
    exact ⟨Frame.packet fun _ => false, emptyBoard_wellFormed pieces, by decide +kernel⟩
  checked r hr := absurd hr List.not_mem_nil

/-- A pass on one thread: the board is developed, and its four children come into the pool one after the other. -/
def wholePass : List (ExpandLabel .p16) :=
  let child : List (ExpandLabel .p16) := [.child 0 [], .store 0 (fun _ => true) (fun _ => true)]
  [.drain 9, .border [], .start false [(1, 0)], .take 0 false, .decode 0, .treat 0] ++ child ++ child ++ child ++ child ++
    [.child 0 [], .treat 0, .take 0 false, .flush 0 false 0, .finish false]

theorem notLast_of_free (stock : LocalStock) : NotLast (trylockMaxSweeps * stock.unchecked.files.length) (fun _ => true) ∧
    NotLast (trylockMaxSweeps * stock.checked.files.length) (fun _ => true) := by
  have hfree : ∀ n, 0 < n → NotLast (trylockMaxSweeps * n) (fun _ => true) := fun n hn =>
    .inl ⟨0, by unfold trylockMaxSweeps; omega, rfl⟩
  exact ⟨hfree _ stock.unchecked.files_pos, hfree _ stock.checked.files_pos⟩

theorem wholePass_allowed (pieces : PieceSet .p16) : ∀ label ∈ wholePass, ∀ s : Expansion .p16, s.Allowed pieces label := by
  intro label hlabel s
  have hfree := notLast_of_free s.stock
  fin_cases hlabel <;> first | exact trivial | exact hfree

theorem wholePass_run : ∃ s, Run.exec (step (Frame.pieces .p16) (prepareMapPart (Frame.pieces .p16) calmAllocs) toFirstLevel) oneBoard
    wholePass =
    some s ∧ s.flags.aborted = false ∧ s.flags.capReached = false ∧ s.solution = none ∧ s.added = [] ∧ s.phase = .stopped true := by
  have hrun : ((Run.exec (step (Frame.pieces .p16) (prepareMapPart (Frame.pieces .p16) calmAllocs) toFirstLevel) oneBoard wholePass).any
      fun s => !s.flags.aborted && !s.flags.capReached && s.solution.isNone && s.added.isEmpty && decide (s.phase = .stopped true)) =
        true := by
    decide +kernel
  obtain ⟨s, hs, hends⟩ := (Option.any_eq_true _ _).mp hrun
  simp only [Bool.and_eq_true, Bool.not_eq_true', Option.isNone_iff_eq_none, List.isEmpty_iff, decide_eq_true_eq] at hends
  obtain ⟨⟨⟨⟨haborted, hcap⟩, hsolution⟩, hadded⟩, hphase⟩ := hends
  exact ⟨s, hs, haborted, hcap, hsolution, hadded, hphase⟩

/-- The pass leaves four boards that cover, together, what the empty board covers. -/
theorem expansion_conserves_whole : ∃ s,
    Run.exec (step (Frame.pieces .p16) (prepareMapPart (Frame.pieces .p16) calmAllocs) toFirstLevel) oneBoard wholePass = some s ∧
      s.Drained ∧ s.workBytes = 0 ∧ ∀ b, s.load (Frame.pieces .p16) b = oneBoard.load (Frame.pieces .p16) b := by
  obtain ⟨s, hs, haborted, -, hsolution, hadded, hphase⟩ := wholePass_run
  obtain ⟨hload, -, hends⟩ := expansion_conserves (oneBoard_begins _) (by decide) (Run.of_exec (wholePass_allowed _) hs)
  obtain ⟨hdrained, -, hbytes⟩ := hends (.inr ⟨true, hphase⟩)
  refine ⟨s, hs, hdrained, hbytes, fun b => ?_⟩
  have hload := hload haborted hsolution b
  rw [hadded] at hload
  exact Nat.add_right_cancel hload

/-- Where an expansion has not ended, a thread of its pass can go on without a request from outside and without being woken for
nothing, or the pass can end; and at most one thread reads the source. -/
theorem expansion_goes_on (hbegins : Begins ps start) (htarget : cfg.targetLevel.toNat ≤ P.eternParts) (hrun : Runs ps al cfg start s)
    (hphase : s.phase = .passing) (hsolution : s.solution = none) :
    (∃ (label : ExpandLabel P) (s' : Expansion P), Plain label ∧ s.Allowed ps label ∧ s.step ps (prepareMapPart ps al) cfg label =
      some s' ∧
      ((∃ i < s.nbWorkers, label.thread = some i) ∨ (label = .finish false ∧ s'.Drained))) ∧
    ∀ i < s.nbWorkers, ∀ j < s.nbWorkers, (s.workers i).stage.Reads → (s.workers j).stage.Reads → i = j := by
  have hsound := Runs.sound hrun hbegins htarget
  refine ⟨?_, fun i hi j hj => hsound.reads_unique hi hj⟩
  obtain hall | ⟨i, hi, label, s', hthread, hplain, hallowed, hstep⟩ := hsound.progress al cfg hphase hsolution
  · have hends : (s.finishStep cfg false).isSome := by
      unfold finishStep
      rw [if_pos fun i hi => by rw [hall i hi]]
      rfl
    obtain ⟨s', hs'⟩ := Option.isSome_iff_exists.mp hends
    refine ⟨.finish false, s', trivial, trivial, ?_, .inr ⟨rfl, hsound.finish_drained hphase (finishStep_spec hs')⟩⟩
    unfold Expansion.step
    rw [hsolution, hphase]
    exact hs'
  · exact ⟨label, s', hplain, hallowed, hstep, .inl ⟨i, hi, hthread⟩⟩

theorem expansion_goes_on_started : ∃ s : Expansion .p16, s.phase = .passing ∧ ∃ (label : ExpandLabel .p16) (s' : Expansion .p16),
    Plain label ∧
    s.step (Frame.pieces .p16) (prepareMapPart (Frame.pieces .p16) calmAllocs) toFirstLevel label = some s' := by
  let started : List (ExpandLabel .p16) := [.drain 9, .border [], .start false [(1, 0)]]
  have hallowed : ∀ label ∈ started, ∀ s : Expansion .p16, s.Allowed (Frame.pieces .p16) label := by
    intro label hlabel s
    simp only [started] at hlabel
    fin_cases hlabel <;> exact trivial
  obtain ⟨s, hs⟩ : ∃ s, Run.exec (step (Frame.pieces .p16) (prepareMapPart (Frame.pieces .p16) calmAllocs) toFirstLevel) oneBoard
    started =
      some s ∧ s.phase = .passing ∧ s.solution = none := ⟨_, rfl, rfl, rfl⟩
  obtain ⟨⟨label, s', hplain, -, hstep, -⟩, -⟩ :=
    expansion_goes_on (oneBoard_begins _) (by decide) (Run.of_exec hallowed hs.1) hs.2.1 hs.2.2
  exact ⟨s, hs.2.1, label, s', hplain, hstep⟩

end Whole

end Expansion
