-- SUMMARY: An expansion that ends by itself has reached its level.
import EternityII.Expand.Runs

/-!
# The level of an expansion

An expansion goes on as long as a pass may have left something below the target level: a packet that it did not
develop, a packet that came from the disk after its border, records of the queue that went back to the pool, a part
of the disk that was not read. When it ends by itself, nothing of the unverified stock is below that level.
-/

namespace Expansion

variable {P : Puzzle} (cfg : ExpandConfig)

/-- What is asked of the others: a packet that is added is at the target level, and nothing under the border is put
off before the threads of the pass have started. -/
def Steady (s : Expansion P) : ExpandLabel P → Prop
  | .add packet _ _ => ¬ packet.alloc < cfg.targetLevel
  | .defer _ _ _ => ∀ stalled, s.phase ≠ .bordered stalled
  | _ => True

/-- What is at the target level in each phase of an expansion. -/
structure Leveled (s : Expansion P) : Prop where
  drained : s.phase = .drained false → ∀ r ∈ s.stock.unchecked.files.flatten, DeepRecord cfg P r
  bordered : s.phase = .bordered false → s.Risen cfg
  running : s.phase = .passing → 0 < s.nbWorkers
  threads : s.phase = .passing → s.Quiet → (∀ i < s.nbWorkers, (s.workers i).Deep cfg) ∧ s.Risen cfg
  read : s.phase = .passing → cfg.disk = true → s.diskPhase = false → s.diskLeft = true ∨ s.source.below = []
  stopped : s.phase = .stopped true → s.flags.capReached = false → s.flags.aborted = false → s.Risen cfg
  below : (∃ b, s.phase = .stopped b) → s.source.below = []

variable {cfg} {ps : PieceSet P} {s s' : Expansion P} {i : Nat} {w' : ExpandWorker P}

theorem Leveled.thread (h : s.Leveled cfg) (hphase : s.phase = .passing) (hi : i < s.nbWorkers)
    (hstep : ThreadStep ps cfg s s' i (s.workers i) w') : s'.Leveled cfg where
  drained h := absurd (hstep.phase.symm.trans h) (by rw [hphase]; exact fun h => by cases h)
  bordered h := absurd (hstep.phase.symm.trans h) (by rw [hphase]; exact fun h => by cases h)
  running _ := hstep.nbWorkers ▸ h.running hphase
  threads _ hquiet := by
    have hbefore : s.Quiet := by
      refine ⟨hstep.flags.low hquiet.flags, ?_, ?_⟩
      · exact Nat.le_zero.mp (hquiet.returned ▸ hstep.returned)
      · rw [← hstep.prepassDeferred]
        exact hquiet.prepassDeferred
    obtain ⟨hdeep, hrisen⟩ := h.threads hphase hbefore
    obtain ⟨hdeep', hrisen'⟩ := hstep.levels hquiet (hdeep i hi) hrisen
    refine ⟨fun j hj => ?_, hrisen'⟩
    rw [hstep.nbWorkers] at hj
    rw [hstep.workers]
    by_cases hji : j = i
    · rw [hji, Function.update_self]
      exact hdeep'
    · rw [Function.update_of_ne hji]
      exact hdeep j hj
  read _ hdisk hphase' := by
    obtain ⟨hbefore, hleft⟩ | hleft | hbelow := hstep.diskLeft hphase'
    · refine (h.read hphase hdisk hbefore).imp (fun hleft' => hleft.trans hleft') fun hnil => ?_
      by_contra hne
      exact hstep.below hne hnil
    · exact .inl hleft
    · exact .inr hbelow
  stopped h := absurd (hstep.phase.symm.trans h) (by rw [hphase]; exact fun h => by cases h)
  below h := by
    obtain ⟨b, h⟩ := h
    exact absurd (hstep.phase.symm.trans h) (by rw [hphase]; exact fun h => by cases h)

/-- The phases in which something is asked of the source, and of the records that come to it. -/
def Watched (s : Expansion P) (source : SpillSource) : Prop :=
  s.phase = .bordered false ∨ (s.phase = .passing ∧ source.prepassDeferred = 0) ∨ s.phase = .stopped true

/-- What other threads do to the lists and the source keeps the level, when what they bring is at it. -/
theorem Leveled.of_stock (h : s.Leveled cfg) {stock : LocalStock} {source : SpillSource} {served added : List (Packet P)}
    (hlists : ∀ r ∈ stock.unchecked.files.flatten, r ∈ s.stock.unchecked.files.flatten ∨ DeepRecord cfg P r)
    (hsource : s.Watched source → s.Risen cfg → ∀ r ∈ source.below.flatMap Prod.snd ++ source.above,
      r ∈ s.source.below.flatMap Prod.snd ++ s.source.above ∨ DeepRecord cfg P r)
    (hprepass : source.prepassDeferred = 0 → s.source.prepassDeferred = 0) (hbelow : s.source.below = [] → source.below = []) :
    ({ s with stock, source, served, added } : Expansion P).Leveled cfg := by
  have hrisen : s.Watched source → s.Risen cfg → ({ s with stock, source, served, added } : Expansion P).Risen cfg :=
    fun hwatched hrisen => ⟨fun r hr => (hlists r hr).elim (hrisen.lists r) id,
      fun hdisk r hr => (hsource hwatched hrisen r hr).elim (hrisen.source hdisk r) id⟩
  refine ⟨fun hphase r hr => (hlists r hr).elim (h.drained hphase r) id, fun hphase => hrisen (.inl hphase) (h.bordered hphase),
    h.running, fun hphase hquiet => ?_, fun hphase hdisk hread => (h.read hphase hdisk hread).imp_right hbelow,
    fun hphase hcap haborted => hrisen (.inr (.inr hphase)) (h.stopped hphase hcap haborted), fun hphase => hbelow (h.below hphase)⟩
  obtain ⟨hdeep, hbefore⟩ := h.threads hphase ⟨hquiet.flags, hquiet.returned, hprepass hquiet.prepassDeferred⟩
  exact ⟨hdeep, hrisen (.inr (.inl ⟨hphase, hquiet.prepassDeferred⟩)) hbefore⟩

/-- Records that come to the source come above the border, or on top of a segment under it. -/
theorem mem_place {source source' : SpillSource} {top : Option Nat} {records : List (List Byte)}
    (h : source.place top records = some source') :
    ∀ r ∈ source'.below.flatMap Prod.snd ++ source'.above, r ∈ source.below.flatMap Prod.snd ++ source.above ∨ r ∈ records := by
  cases top with
  | none =>
    obtain rfl := Option.some.inj h
    intro r hr
    simp only [List.mem_append] at hr ⊢
    obtain hr | hr | hr := hr
    · exact .inl (.inl hr)
    · exact .inl (.inr hr)
    · exact .inr hr
  | some k =>
    obtain ⟨-, hsome⟩ := Option.ite_none_right_eq_some.mp h
    obtain rfl := Option.some.inj hsome
    intro r hr
    obtain hr | hr := List.mem_append.mp hr
    · obtain ⟨part, hpart, hr⟩ := List.mem_flatMap.mp hr
      obtain ⟨j, hj, rfl⟩ := List.mem_iff_getElem.mp hpart
      rw [List.length_modify] at hj
      rw [List.getElem_modify] at hr
      have hold : ∀ r ∈ source.below[j].2, r ∈ source.below.flatMap Prod.snd ++ source.above := fun r hr =>
        List.mem_append_left _ (List.mem_flatMap.mpr ⟨_, List.getElem_mem hj, hr⟩)
      split at hr
      · exact (List.mem_append.mp hr).imp_left (hold r)
      · exact .inl (hold r hr)
    · exact .inl (List.mem_append_right _ hr)

theorem Leveled.evict (h : s.Leveled cfg) {f n tierBytes : Nat} {top : Option Nat} (hstep : s.evictStep f n top tierBytes = some s') :
    s'.Leveled cfg := by
  obtain ⟨source, hplace, rfl⟩ := Option.map_eq_some_iff.mp hstep
  obtain ⟨-, hbelow, -, hprepass⟩ := SpillSource.place_perm hplace
  have hfiles := flatten_set_out ((List.Perm.of_eq (List.take_append_drop n (s.stock.unchecked.files.getD f [])).symm).trans
    List.perm_append_comm)
  refine h.of_stock (fun r hr => .inl (hfiles.mem_iff.mpr (List.mem_append_left _ hr))) (fun _ hrisen r hr => ?_)
    (fun hzero => hprepass.symm.trans hzero) hbelow
  exact (mem_place hplace r hr).imp_right fun hr => hrisen.lists r (hfiles.mem_iff.mpr (List.mem_append_right _ hr))

theorem Leveled.defer (h : s.Leveled cfg) (hsound : s.Sound ps) {k tierBytes : Nat} {top : Option Nat}
    (hsteady : s.Steady cfg (.defer k top tierBytes)) (hstep : s.deferStep k top tierBytes = some s') : s'.Leveled cfg := by
  unfold deferStep at hstep
  split at hstep
  · cases hstep
  · rename_i part hpart
    obtain ⟨source, hplace, rfl⟩ := Option.map_eq_some_iff.mp hstep
    obtain ⟨-, hbelow, -, hprepass⟩ := SpillSource.place_perm hplace
    have hmem : part ∈ s.source.below := List.mem_of_getElem? hpart
    refine h.of_stock (fun r hr => .inl hr) (fun hwatched _ => ?_) (fun hzero => ?_) fun hnil => absurd (hnil ▸ hmem) List.not_mem_nil
    · obtain hphase | ⟨-, hzero⟩ | hphase := hwatched
      · exact absurd hphase (hsteady false)
      · have hlength : (part.1 ++ part.2).length = 0 := (Nat.add_eq_zero_iff.mp hzero).2
        exact absurd (List.append_eq_nil_iff.mp (List.length_eq_zero_iff.mp hlength)).1 (hsound.nonempty part hmem)
      · exact absurd (h.below ⟨true, hphase⟩ ▸ hmem) List.not_mem_nil
    · exact hprepass.symm.trans (Nat.add_eq_zero_iff.mp hzero).1

theorem Leveled.serve (h : s.Leveled cfg) (hsound : s.Sound ps) (wantChecked : Bool) (f : Nat) : (s.serveStep wantChecked f).Leveled
    cfg := by
  cases wantChecked with
  | true => exact h.of_stock (fun r hr => .inl hr) (fun _ _ r hr => .inl hr) id id
  | false =>
    obtain ⟨hmem, -⟩ := scrollLoop_out hsound.unchecked f 1
    exact h.of_stock (fun r hr => .inl (hmem r hr)) (fun _ _ r hr => .inl hr) id id

theorem Leveled.add (h : s.Leveled cfg) {packet : Packet P} {freeUnchecked freeChecked : Nat → Bool}
    (hallowed : s.Allowed ps (.add packet freeUnchecked freeChecked)) (hdeep : ¬ packet.alloc < cfg.targetLevel) :
    (s.addStep packet freeUnchecked freeChecked).Leveled cfg := by
  obtain ⟨hpacket, hunchecked, hchecked⟩ := hallowed
  have hput := putToLocal_inserted s.measured hpacket.wellFormed hunchecked hchecked
  refine h.of_stock (fun r hr => ?_) (fun _ _ r hr => .inl hr) id id
  exact (hput.unchecked r hr).imp_right fun hrecord => deepRecord_of_good hpacket hrecord hdeep

theorem Leveled.drain (room : Nat) : (s.drainStep room).Leveled cfg where
  drained h r hr := by
    have hnone : ((drainFiles P room s.stock.unchecked.files).2.any fun file => !file.isEmpty) = false := by
      injection h
    obtain ⟨file, hfile, hr⟩ := List.mem_flatten.mp hr
    have hempty := List.any_eq_false.mp hnone file hfile
    rw [Bool.not_eq_true, Bool.not_eq_false', List.isEmpty_iff] at hempty
    exact absurd (hempty ▸ hr) List.not_mem_nil
  bordered h := by cases h
  running h := by cases h
  threads h := by cases h
  read h := by cases h
  stopped h := by cases h
  below h := by
    obtain ⟨b, h⟩ := h
    cases h

theorem Leveled.border (h : s.Leveled cfg) {stalled : Bool} (hphase : s.phase = .drained stalled) {cut : List (List (List Byte))}
    (hstep : s.borderStep cfg cut stalled = some s') : s'.Leveled cfg := by
  have hbordered : ∀ source : SpillSource, (cfg.disk = true → source.below.flatMap Prod.snd ++ source.above = []) →
      ({ s with phase := .bordered stalled, source } : Expansion P).Leveled cfg := by
    refine fun source hnil => ⟨(fun h => by cases h), fun hstalled => ?_, (fun h => by cases h), (fun h => by cases h),
      (fun h => by cases h), (fun h => by cases h), fun h => ?_⟩
    · obtain rfl : stalled = false := by injection hstalled
      refine ⟨h.drained hphase, fun hdisk r hr => ?_⟩
      rw [hnil hdisk] at hr
      exact absurd hr List.not_mem_nil
    · obtain ⟨b, h⟩ := h
      cases h
  unfold borderStep at hstep
  split at hstep
  · obtain ⟨-, hsome⟩ := Option.ite_none_right_eq_some.mp hstep
    obtain rfl := Option.some.inj hsome
    refine hbordered _ fun _ => ?_
    rw [List.append_nil, List.flatMap_map, List.flatMap_eq_nil_iff]
    exact fun part _ => rfl
  · rename_i hdisk
    obtain rfl := Option.some.inj hstep
    exact hbordered s.source fun h => absurd h hdisk

theorem Leveled.start (h : s.Leveled cfg) {stalled : Bool} (hphase : s.phase = .bordered stalled) {recourse : Bool}
    {threads : List (Nat × Nat)} (hstep : s.startStep cfg recourse threads stalled = some s') : s'.Leveled cfg := by
  obtain ⟨⟨hpos, -, -⟩, hsome⟩ := Option.ite_none_right_eq_some.mp hstep
  obtain rfl := Option.some.inj hsome
  refine ⟨(fun h => by cases h), (fun h => by cases h), fun _ => hpos, fun _ hquiet => ⟨fun i hi => ?_, ?_⟩, fun _ hdisk hread => ?_,
    (fun h => by cases h), fun h => ?_⟩
  · exact ⟨fun r hr => absurd hr List.not_mem_nil, fun p hp => absurd hp List.not_mem_nil⟩
  · obtain rfl : stalled = false := hquiet.flags.shallowProduced
    exact ⟨(h.bordered hphase).lists, (h.bordered hphase).source⟩
  · exact absurd (hdisk.symm.trans hread) (fun h => by cases h)
  · obtain ⟨b, h⟩ := h
    cases h

/-- A pass after which the expansion ends by itself has put off nothing, and left nothing of the disk. -/
theorem Leveled.finish (h : s.Leveled cfg) (hsound : s.Sound ps) (hphase : s.phase = .passing) (hfinish : Finishes cfg s s') :
    s'.Leveled cfg := by
  refine ⟨fun h => ?_, fun h => ?_, fun h => absurd h hfinish.phase_ne, fun h => absurd h hfinish.phase_ne,
    fun h => absurd h hfinish.phase_ne, fun hstopped hcap haborted => ?_, fun _ => hfinish.below⟩
  · obtain ⟨h', -⟩ | ⟨h', -⟩ | h' := hfinish.phase <;> cases h'.symm.trans h
  · obtain ⟨h', -⟩ | ⟨h', -⟩ | h' := hfinish.phase <;> cases h'.symm.trans h
  · obtain ⟨-, hproduced, hdeferred, hleft, hprepass, hreturned⟩ | ⟨h', -⟩ | h' := hfinish.phase
    · rw [hfinish.capReached] at hcap
      have haborted := hfinish.aborted haborted
      rw [hcap, Bool.not_false, Bool.and_true] at hleft
      obtain ⟨-, hrisen⟩ := h.threads hphase ⟨⟨haborted, hcap, hdeferred, hproduced⟩, hreturned, hprepass⟩
      -- A thread that is at its end has found the disk read, and the queue empty.
      have hread : s.diskPhase = false := by
        have hpos := h.running hphase
        obtain haborted' | hcap' | hread := hsound.leaves 0 hpos (by rw [hfinish.ended 0 hpos]; trivial)
        · exact absurd (haborted.symm.trans haborted') Bool.false_ne_true
        · exact absurd (hcap.symm.trans hcap') Bool.false_ne_true
        · exact hread
      refine ⟨fun r hr => hrisen.lists r (by rwa [hfinish.stock] at hr), fun hdisk r hr => hrisen.source hdisk r ?_⟩
      have hnil : s.source.below = [] := by
        obtain hleft' | hnil := h.read hphase hdisk hread
        · exact absurd (hleft.symm.trans hleft') Bool.false_ne_true
        · exact hnil
      have hrecords := hfinish.records
      unfold SpillSource.records at hrecords
      rw [hfinish.below, hnil, List.flatMap_nil, List.nil_append, List.nil_append] at hrecords
      rw [hfinish.below, hrecords] at hr
      exact List.mem_append_right _ hr
    · cases h'.symm.trans hstopped
    · cases h'.symm.trans hstopped

theorem Leveled.step {al : MapAllocs} (htarget : cfg.targetLevel.toNat ≤ P.eternParts) (h : s.Leveled cfg) (hsound : s.Sound ps)
    {label : ExpandLabel P} (hallowed : s.Allowed ps label) (hsteady : s.Steady cfg label)
    (hstep : s.step ps (prepareMapPart ps al) cfg label = some s') : s'.Leveled cfg := by
  obtain ⟨-, hmoves⟩ := step_moves ps (prepareMapPart ps al) cfg hstep
  cases hmoves with
  | thread passing running step =>
    obtain ⟨w', hthread⟩ := workerStep_spec al htarget (hsound.ready running) hallowed step
    exact h.thread passing running hthread
  | drain room between => exact .drain room
  | border drained step => exact h.border drained step
  | start bordered step => exact h.start bordered step
  | finish passing step => exact h.finish hsound passing (finishStep_spec step)
  | evict step => exact h.evict step
  | defer step => exact h.defer hsound hsteady step
  | serve wantChecked f => exact h.serve hsound wantChecked f
  | add packet freeUnchecked freeChecked => exact h.add hallowed hsteady

variable {al : MapAllocs} {start : Expansion P}

/-- An expansion that ends by itself, below the limit on what a pass produces, has reached its level: every packet of the
unverified lists, and with a disk every one of the tier and the disk, is at the target level. -/
theorem expansion_reaches_level (hbegins : Begins ps start) (htarget : cfg.targetLevel.toNat ≤ P.eternParts)
    (hrun : Run (step ps (prepareMapPart ps al) cfg) (fun s label => s.Allowed ps label ∧ s.Steady cfg label) start s)
    (hphase : s.phase = .stopped true) (hcap : s.flags.capReached = false) (haborted : s.flags.aborted = false) :
    ∀ r ∈ s.stock.unchecked.files.flatten ++ (if cfg.disk then s.source.records else []),
      ∃ p : Packet P, recordPacket P r = some p ∧ cfg.targetLevel ≤ p.alloc := by
  have hleveled : start.Leveled cfg := by
    have hphase := hbegins.phase
    refine ⟨fun h => ?_, fun h => ?_, fun h => ?_, fun h => ?_, fun h => ?_, fun h => ?_, fun ⟨b, h⟩ => ?_⟩ <;>
      cases hphase.symm.trans h
  have hkept : s.Sound ps ∧ s.Leveled cfg :=
    Run.invariant (I := fun s => s.Sound ps ∧ s.Leveled cfg) hrun ⟨hbegins.sound, hleveled⟩ fun h hallowed hstep =>
      ⟨(h.1.step al htarget hallowed.1 hstep).1, h.2.step htarget h.1 hallowed.1 hallowed.2 hstep⟩
  obtain ⟨hsound, hleveled⟩ := hkept
  have hrisen := hleveled.stopped hphase hcap haborted
  intro r hr
  obtain ⟨hgood, hdeep⟩ : GoodRecord ps r ∧ DeepRecord cfg P r := by
    obtain hr | hr := List.mem_append.mp hr
    · exact ⟨hsound.unchecked r hr, hrisen.lists r hr⟩
    · split at hr
      · rename_i hdisk
        refine ⟨hsound.records r ?_, hrisen.source hdisk r ?_⟩
        · exact List.mem_append_left _ (List.mem_append_left _ (List.mem_append_right _ hr))
        · rw [SpillSource.records, hleveled.below ⟨true, hphase⟩, List.flatMap_nil, List.nil_append] at hr
          exact List.mem_append_right _ hr
      · exact absurd hr List.not_mem_nil
  obtain ⟨-, p, hread, -⟩ := hgood.read
  exact ⟨p, hread, UInt16.not_lt.mp (hdeep p hread)⟩

theorem expansion_reaches_level_whole : ∃ s,
    Run.exec (step (Frame.pieces .p16) (prepareMapPart (Frame.pieces .p16) calmAllocs) toFirstLevel) oneBoard wholePass = some s ∧
      ∀ r ∈ s.stock.unchecked.files.flatten, ∃ p : Packet .p16, recordPacket .p16 r = some p ∧ 1 ≤ p.alloc := by
  obtain ⟨s, hs, haborted, hcap, -, -, hphase⟩ := wholePass_run
  have hsteady : ∀ label ∈ wholePass, ∀ s : Expansion .p16, s.Steady toFirstLevel label := by
    intro label hlabel s
    fin_cases hlabel <;> exact trivial
  refine ⟨s, hs, fun r hr => ?_⟩
  have hreaches := expansion_reaches_level (oneBoard_begins _) (by decide)
    (Run.of_exec (fun label hlabel s => ⟨wholePass_allowed (Frame.pieces .p16) label hlabel s, hsteady label hlabel s⟩) hs) hphase
      hcap haborted
  exact hreaches r (List.mem_append_left _ hr)

end Expansion
