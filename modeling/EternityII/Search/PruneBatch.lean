-- SUMMARY: The pruner: a batch of packets is settled one by one, with no completion dropped.
import EternityII.Search.Prune
import EternityII.Stock.PutToServer

/-!
# The batches of the pruner

`autoprune_step` takes a batch of packets and decides them one after the other. What stays
alive is collected and handed to `add_possibility` in batches, before the packets a stop has
left over and before the acknowledgement.
-/

/-! ## The batch -/

/-- What a pruner does outside, in order. -/
inductive PruneEvent (P : Puzzle) where
  | recordSolution (board : Packet P)
  | addPossibility (packets : List (Packet P))
  | sendPossibilityAnalysed

/-- The boards recorded in a list of events. -/
def recordedBoards {P : Puzzle} (events : List (PruneEvent P)) : List (Packet P) :=
  events.filterMap fun
    | .recordSolution board => some board
    | _ => none

/-- The packets handed to `add_possibility` in a list of events. -/
def addedPackets {P : Puzzle} (events : List (PruneEvent P)) : List (Packet P) :=
  events.flatMap fun
    | .addPossibility packets => packets
    | _ => []

/-- The packets still alive, in the order of the batch. -/
def alivePackets {P : Puzzle} (fates : List (PruneFate P)) : List (Packet P) :=
  fates.filterMap fun fate =>
    match fate.verdict with
    | .alive work => some work
    | _ => none

/-- The state of the loop: the fates of the packets before the index `a`, the events so far,
and the `prune_alive_batch_t`. -/
structure PruneState (P : Puzzle) where
  fates : List (PruneFate P)
  events : List (PruneEvent P)
  buf : List (Packet P)
  cap : Nat

namespace PruneState

variable {P : Puzzle}

/-- `prune_alive_init`; `alloc` says whether the buffer could be allocated. -/
def init (batchSize : Nat) (alloc : Bool) : PruneState P where
  fates := []
  events := []
  buf := []
  cap := if alloc then min batchSize addBatchMax else 0

/-- `prune_alive_flush`. -/
def flush (st : PruneState P) : PruneState P :=
  if st.buf.length = 0 then st
  else { st with events := st.events ++ [.addPossibility st.buf], buf := [] }

/-- `prune_alive_push`. -/
def push (st : PruneState P) (pk : Packet P) : PruneState P :=
  if st.cap = 0 then { st with events := st.events ++ [.addPossibility [pk]] }
  else
    let st := { st with buf := st.buf ++ [pk] }
    if st.buf.length = st.cap then st.flush else st

/-- The bookkeeping for one packet: its solutions are recorded, and an alive one is pushed. -/
def settle (st : PruneState P) (fate : PruneFate P) : PruneState P :=
  let st := { st with
    fates := st.fates ++ [fate]
    events := st.events ++ fate.recorded.map .recordSolution }
  match fate.verdict with
  | .alive work => st.push work
  | _ => st

/-- `requeue_unprocessed_packets`. -/
def requeue (st : PruneState P) (unprocessed : List (Packet P)) : PruneState P :=
  if unprocessed.length = 0 then st
  else { st with events := st.events ++ [.addPossibility unprocessed] }

end PruneState

/-- What one turn of the loop reads: `request`, twice, and the turns of the bounded search. -/
structure PruneTurn where
  request : Request
  requestAgain : Request
  dfs : List Turn

/-- How the loop of `autoprune_step` stands; `running` and `exits` give the state before the
packet under treatment. -/
inductive PruneLoop (P : Puzzle) where
  | ended (stopSeen : Bool) (unprocessed : List (Packet P)) (st : PruneState P)
  | running (st : PruneState P)
  | exits (st : PruneState P)

/-- How a call of `autoprune_step` stands; a finished one has seen a stop or not. -/
inductive PruneOutcome (P : Puzzle) where
  | finished (stopped : Bool) (st : PruneState P)
  | running (st : PruneState P)
  | exits (st : PruneState P)

section Step

variable {P : Puzzle} (ps : PieceSet P) (map : MapBigArray) (cfg : PruneConfig)

/-- The loop over the packets from the index `a` on. -/
def autopruneLoop : List PruneTurn → List (Packet P) → PruneState P → PruneLoop P
  | _, [], st => .ended false [] st
  | [], _ :: _, st => .running st
  | t :: turns, possibility :: rest, st =>
    if t.request = .stop then .ended true (possibility :: rest) st
    else if t.requestAgain.isPause then autopruneLoop turns (possibility :: rest) st
    else
      match pruneCheck ps map cfg t.dfs possibility with
      | .running => .running st
      | .exits => .exits st
      | .decided fate => autopruneLoop turns rest (st.settle fate)

/-- `autoprune_step` on a batch. `REQUEST_STOP` is never withdrawn: when the loop has seen
it, so do the tests after the loop, and `stopAtEnd` says whether it has come by then. -/
def autopruneStep (alloc : Bool) (turns : List PruneTurn) (stopAtEnd : Bool)
    (aposs : List (Packet P)) : PruneOutcome P :=
  match autopruneLoop ps map cfg turns aposs (.init aposs.length alloc) with
  | .running st => .running st
  | .exits st => .exits st
  | .ended stopSeen unprocessed st =>
    let st := st.flush
    if stopSeen || stopAtEnd then
      let st := st.requeue unprocessed
      .finished true { st with events := st.events ++ [.sendPossibilityAnalysed] }
    else .finished false st

end Step

/-! ## The loop -/

/-- The state of the loop after the packets of `processed`: each has one fate, their
solutions are recorded, and what stays alive has been added or waits in the buffer, which
has room for one more packet. -/
structure BatchSpec {P : Puzzle} (ps : PieceSet P) (processed : List (Packet P)) (st : PruneState P) :
    Prop where
  fates : List.Forall₂ (FateSpec ps) processed st.fates
  recorded : recordedBoards st.events = st.fates.flatMap PruneFate.recorded
  added : addedPackets st.events ++ st.buf = alivePackets st.fates
  open_ : .sendPossibilityAnalysed ∉ st.events
  room : st.cap = 0 ∧ st.buf = [] ∨ st.buf.length < st.cap

section Events

variable {P : Puzzle}

@[simp] theorem recordedBoards_nil : recordedBoards ([] : List (PruneEvent P)) = [] := rfl

@[simp] theorem recordedBoards_append (l l' : List (PruneEvent P)) :
    recordedBoards (l ++ l') = recordedBoards l ++ recordedBoards l' := List.filterMap_append

@[simp] theorem recordedBoards_map (l : List (Packet P)) :
    recordedBoards (l.map .recordSolution) = l := by
  unfold recordedBoards
  rw [List.filterMap_map]
  exact List.filterMap_some

@[simp] theorem recordedBoards_add (l : List (Packet P)) :
    recordedBoards [PruneEvent.addPossibility l] = [] := rfl

@[simp] theorem recordedBoards_analysed :
    recordedBoards [(PruneEvent.sendPossibilityAnalysed : PruneEvent P)] = [] := rfl

@[simp] theorem addedPackets_nil : addedPackets ([] : List (PruneEvent P)) = [] := rfl

@[simp] theorem addedPackets_append (l l' : List (PruneEvent P)) :
    addedPackets (l ++ l') = addedPackets l ++ addedPackets l' := List.flatMap_append

@[simp] theorem addedPackets_map (l : List (Packet P)) :
    addedPackets (l.map .recordSolution) = [] := by
  unfold addedPackets
  rw [List.flatMap_map]
  exact List.flatMap_eq_nil_iff.mpr fun _ _ => rfl

@[simp] theorem addedPackets_add (l : List (Packet P)) :
    addedPackets [PruneEvent.addPossibility l] = l := List.flatMap_singleton _ _

@[simp] theorem addedPackets_analysed :
    addedPackets [(PruneEvent.sendPossibilityAnalysed : PruneEvent P)] = [] := rfl

@[simp] theorem alivePackets_append (l l' : List (PruneFate P)) :
    alivePackets (l ++ l') = alivePackets l ++ alivePackets l' := List.filterMap_append

theorem alivePackets_singleton {fate : PruneFate P} {work : Packet P} (h : fate.verdict = .alive work) :
    alivePackets [fate] = [work] := by
  simp [alivePackets, h]

theorem alivePackets_singleton_nil {fate : PruneFate P} (h : ∀ work, fate.verdict ≠ .alive work) :
    alivePackets [fate] = [] := by
  unfold alivePackets
  cases hv : fate.verdict <;> simp_all

theorem mem_alivePackets {fates : List (PruneFate P)} {work : Packet P} :
    work ∈ alivePackets fates ↔ ∃ fate ∈ fates, fate.verdict = .alive work := by
  unfold alivePackets
  rw [List.mem_filterMap]
  refine exists_congr fun fate => and_congr_right fun _ => ?_
  cases fate.verdict <;> simp

end Events

section Loop

variable {P : Puzzle} {ps : PieceSet P} {map : MapBigArray} {cfg : PruneConfig}
  {processed : List (Packet P)} {st : PruneState P}

theorem batchSpec_init (n : Nat) (alloc : Bool) : BatchSpec ps [] (.init n alloc : PruneState P) where
  fates := .nil
  recorded := rfl
  added := rfl
  open_ := List.not_mem_nil
  room := by
    rcases Nat.eq_zero_or_pos (PruneState.init n alloc : PruneState P).cap with hcap | hcap
    · exact .inl ⟨hcap, rfl⟩
    · exact .inr hcap

/-- A flush hands the buffer over, and leaves everything else. -/
theorem PruneState.flush_spec (st : PruneState P) :
    addedPackets st.flush.events = addedPackets st.events ++ st.buf ∧
      recordedBoards st.flush.events = recordedBoards st.events ∧
      (.sendPossibilityAnalysed ∈ st.flush.events ↔ .sendPossibilityAnalysed ∈ st.events) ∧
      st.flush.buf = [] ∧ st.flush.fates = st.fates ∧ st.flush.cap = st.cap := by
  unfold PruneState.flush
  split
  · rename_i hempty
    have hbuf := List.eq_nil_of_length_eq_zero hempty
    simp [hbuf]
  · simp

/-- Pushing a packet adds it behind those already alive. -/
theorem PruneState.push_spec {st : PruneState P} (pk : Packet P)
    (hroom : st.cap = 0 ∧ st.buf = [] ∨ st.buf.length < st.cap) :
    addedPackets (st.push pk).events ++ (st.push pk).buf = addedPackets st.events ++ st.buf ++ [pk] ∧
      recordedBoards (st.push pk).events = recordedBoards st.events ∧
      (.sendPossibilityAnalysed ∈ (st.push pk).events ↔ .sendPossibilityAnalysed ∈ st.events) ∧
      ((st.push pk).cap = 0 ∧ (st.push pk).buf = [] ∨ (st.push pk).buf.length < (st.push pk).cap) ∧
      (st.push pk).fates = st.fates := by
  unfold PruneState.push
  split
  · rename_i hcap
    have hbuf : st.buf = [] := hroom.elim And.right fun hlt => by omega
    simp [hcap, hbuf]
  · rename_i hcap
    have hlt : st.buf.length < st.cap := hroom.resolve_left fun h => hcap h.1
    dsimp only
    split
    · obtain ⟨hadded, hrecorded, hmem, hbuf, hfates, hcap'⟩ :=
        PruneState.flush_spec { st with buf := st.buf ++ [pk] }
      refine ⟨?_, hrecorded, hmem, ?_, hfates⟩
      · rw [hadded, hbuf, List.append_nil, List.append_assoc]
      · rw [hbuf, hcap']
        exact .inr (Nat.pos_of_ne_zero hcap)
    · rename_i hfull
      refine ⟨by rw [List.append_assoc], rfl, .rfl, .inr ?_, rfl⟩
      change (st.buf ++ [pk]).length < st.cap
      rw [List.length_append, List.length_singleton] at hfull ⊢
      omega

/-- One packet of the batch is settled. -/
theorem BatchSpec.settle {q : Packet P} {fate : PruneFate P} (h : BatchSpec ps processed st)
    (hfate : FateSpec ps q fate) : BatchSpec ps (processed ++ [q]) (st.settle fate) := by
  have hfates : List.Forall₂ (FateSpec ps) (processed ++ [q]) (st.fates ++ [fate]) :=
    List.rel_append h.fates (.cons hfate .nil)
  have hrecorded : recordedBoards (st.events ++ fate.recorded.map .recordSolution) =
      (st.fates ++ [fate]).flatMap PruneFate.recorded := by
    simp [h.recorded]
  have hopen : (.sendPossibilityAnalysed : PruneEvent P) ∉
      st.events ++ fate.recorded.map .recordSolution := by
    simp [h.open_]
  unfold PruneState.settle
  dsimp only
  split
  · rename_i work hverdict
    obtain ⟨hadded, hrecorded', hmem, hroom, hfates'⟩ := @PruneState.push_spec P
      { st with
        fates := st.fates ++ [fate]
        events := st.events ++ fate.recorded.map .recordSolution } work h.room
    exact {
      fates := hfates' ▸ hfates
      recorded := by rw [hrecorded', hfates', hrecorded]
      added := by
        rw [hadded, hfates', alivePackets_append, alivePackets_singleton hverdict, ← h.added]
        simp
      open_ := fun hin => hopen (hmem.mp hin)
      room := hroom }
  · rename_i hverdict
    exact {
      fates := hfates
      recorded := hrecorded
      added := by
        rw [alivePackets_append, alivePackets_singleton_nil hverdict, ← h.added]
        simp
      open_ := hopen
      room := h.room }

/-- How the loop stands after some of its packets. -/
inductive LoopSpec (ps : PieceSet P) (processed rest : List (Packet P)) : PruneLoop P → Prop
  | ended {stopSeen : Bool} {done unprocessed : List (Packet P)} {st : PruneState P}
      (split : rest = done ++ unprocessed) (all : stopSeen = false → unprocessed = [])
      (batch : BatchSpec ps (processed ++ done) st) :
      LoopSpec ps processed rest (.ended stopSeen unprocessed st)
  | running {done : List (Packet P)} {st : PruneState P} (batch : BatchSpec ps (processed ++ done) st) :
      LoopSpec ps processed rest (.running st)
  | exits {done : List (Packet P)} {st : PruneState P} (batch : BatchSpec ps (processed ++ done) st) :
      LoopSpec ps processed rest (.exits st)

theorem LoopSpec.cons {q : Packet P} {rest : List (Packet P)} {res : PruneLoop P}
    (h : LoopSpec ps (processed ++ [q]) rest res) : LoopSpec ps processed (q :: rest) res := by
  cases h with
  | ended split all batch =>
    rw [List.append_assoc] at batch
    exact .ended (by rw [split]; rfl) all batch
  | running batch =>
    rw [List.append_assoc] at batch
    exact .running batch
  | exits batch =>
    rw [List.append_assoc] at batch
    exact .exits batch

/-- The loop settles its packets from the first on. -/
theorem autopruneLoop_spec (cfg : PruneConfig) (turns : List PruneTurn) (hmap : MapOf ps map)
    {rest : List (Packet P)}
    (hrest : ∀ q ∈ rest, q.WellFormed ps ∧ q.AllocHonest) (h : BatchSpec ps processed st) :
    LoopSpec ps processed rest (autopruneLoop ps map cfg turns rest st) := by
  induction turns generalizing rest processed st with
  | nil =>
    cases rest with
    | nil => exact .ended rfl (fun _ => rfl) ((List.append_nil processed).symm ▸ h)
    | cons q rest => exact .running ((List.append_nil processed).symm ▸ h)
  | cons t turns ih =>
    cases rest with
    | nil => exact .ended rfl (fun _ => rfl) ((List.append_nil processed).symm ▸ h)
    | cons q rest =>
      rw [autopruneLoop]
      split
      · exact .ended rfl (by simp) ((List.append_nil processed).symm ▸ h)
      · split
        · exact ih hrest h
        · split
          · exact .running ((List.append_nil processed).symm ▸ h)
          · exact .exits ((List.append_nil processed).symm ▸ h)
          · rename_i fate hcheck
            obtain ⟨hq, halloc⟩ := hrest q List.mem_cons_self
            have hfate := pruneCheck_spec hmap hq halloc hcheck
            exact (ih (fun p hp => hrest p (List.mem_cons_of_mem q hp)) (h.settle hfate)).cons

end Loop

/-! ## Whole batches -/

section Batch

variable {P : Puzzle} {ps : PieceSet P} {map : MapBigArray} {cfg : PruneConfig}

/-- The completions of the packets with a fate are recorded or still alive. -/
theorem completions_of_fates {processed : List (Packet P)} {fates : List (PruneFate P)}
    (h : List.Forall₂ (FateSpec ps) processed fates) {q : Packet P} (hq : q ∈ processed) {b : Grid P}
    (hb : b ∈ q.completions ps) :
    (∃ s ∈ fates.flatMap PruneFate.recorded, s.grid = b) ∨
      ∃ p ∈ alivePackets fates, b ∈ p.completions ps := by
  induction h with
  | nil => exact absurd hq List.not_mem_nil
  | @cons q' fate processed fates hfate _ ih =>
    rcases List.mem_cons.mp hq with rfl | hq
    · rcases hfate.covered b hb with ⟨s, hs, hsb⟩ | ⟨work, hwork, hbwork⟩
      · exact .inl ⟨s, List.mem_flatMap.mpr ⟨fate, List.mem_cons_self, hs⟩, hsb⟩
      · exact .inr ⟨work, mem_alivePackets.mpr ⟨fate, List.mem_cons_self, hwork⟩, hbwork⟩
    · rcases ih hq with ⟨s, hs, hsb⟩ | ⟨p, hp, hbp⟩
      · exact .inl ⟨s, List.mem_append_right _ hs, hsb⟩
      · obtain ⟨fate', hfate', hverdict⟩ := mem_alivePackets.mp hp
        exact .inr ⟨p, mem_alivePackets.mpr ⟨fate', List.mem_cons_of_mem _ hfate', hverdict⟩, hbp⟩

/-- What the tests after the loop leave of its state. -/
structure StepSpec (ps : PieceSet P) (aposs : List (Packet P)) (stopped : Bool) (st : PruneState P)
    (processed unprocessed : List (Packet P)) : Prop where
  split : aposs = processed ++ unprocessed
  all : stopped = false → unprocessed = []
  fates : List.Forall₂ (FateSpec ps) processed st.fates
  recorded : recordedBoards st.events = st.fates.flatMap PruneFate.recorded
  added : addedPackets st.events = alivePackets st.fates ++ unprocessed
  last : ∃ before, .sendPossibilityAnalysed ∉ before ∧
    st.events = before ++ if stopped then [.sendPossibilityAnalysed] else []

/-- Requeued packets are added as they came. -/
theorem PruneState.requeue_spec (st : PruneState P) (unprocessed : List (Packet P)) :
    addedPackets (st.requeue unprocessed).events = addedPackets st.events ++ unprocessed ∧
      recordedBoards (st.requeue unprocessed).events = recordedBoards st.events ∧
      (.sendPossibilityAnalysed ∈ (st.requeue unprocessed).events ↔
        .sendPossibilityAnalysed ∈ st.events) ∧
      (st.requeue unprocessed).fates = st.fates := by
  unfold PruneState.requeue
  split
  · rename_i hempty
    have hnil := List.eq_nil_of_length_eq_zero hempty
    simp [hnil]
  · simp

theorem autopruneStep_spec (hmap : MapOf ps map) {alloc : Bool} {turns : List PruneTurn}
    {stopAtEnd stopped : Bool} {aposs : List (Packet P)}
    (haposs : ∀ q ∈ aposs, q.WellFormed ps ∧ q.AllocHonest) {st : PruneState P}
    (h : autopruneStep ps map cfg alloc turns stopAtEnd aposs = .finished stopped st) :
    ∃ processed unprocessed, StepSpec ps aposs stopped st processed unprocessed := by
  have hloop := autopruneLoop_spec cfg turns hmap haposs
    (batchSpec_init aposs.length alloc)
  unfold autopruneStep at h
  split at h
  · exact absurd h (by simp)
  · exact absurd h (by simp)
  · rename_i stopSeen unprocessed st₀ hended
    rw [hended] at hloop
    cases hloop with
    | @ended _ done _ _ hsplit hall batch =>
      rw [List.nil_append] at batch
      obtain ⟨hadded, hrecorded, hopen, -, hfates, -⟩ := PruneState.flush_spec st₀
      dsimp only at h
      split at h
      · obtain ⟨rfl, rfl⟩ := PruneOutcome.finished.inj h
        obtain ⟨hadded', hrecorded', hopen', hfates'⟩ := PruneState.requeue_spec st₀.flush unprocessed
        exact ⟨done, unprocessed, {
          split := hsplit
          all := by simp
          fates := by
            show List.Forall₂ _ _ (st₀.flush.requeue unprocessed).fates
            rw [hfates', hfates]
            exact batch.fates
          recorded := by
            show recordedBoards (_ ++ _) = _
            rw [recordedBoards_append, recordedBoards_analysed, List.append_nil, hrecorded', hrecorded,
              hfates', hfates, batch.recorded]
          added := by
            show addedPackets (_ ++ _) = _
            rw [addedPackets_append, addedPackets_analysed, List.append_nil, hadded', hadded,
              hfates', hfates, batch.added]
          last := ⟨_, fun hin => batch.open_ (hopen.mp (hopen'.mp hin)), rfl⟩ }⟩
      · rename_i hquiet
        obtain ⟨rfl, rfl⟩ := PruneOutcome.finished.inj h
        have hseen : stopSeen = false := by
          cases stopSeen
          · rfl
          · exact absurd rfl hquiet
        obtain rfl := hall hseen
        exact ⟨done, [], {
          split := hsplit
          all := fun _ => rfl
          fates := hfates ▸ batch.fates
          recorded := by rw [hrecorded, hfates, batch.recorded]
          added := by rw [hadded, hfates, batch.added, List.append_nil]
          last := ⟨_, fun hin => batch.open_ (hopen.mp hin), (List.append_nil _).symm⟩ }⟩

/-- A step that is not over, or ends with the process, has acknowledged nothing. -/
theorem autopruneStep_open (hmap : MapOf ps map) {alloc : Bool} {turns : List PruneTurn}
    {stopAtEnd : Bool} {aposs : List (Packet P)}
    (haposs : ∀ q ∈ aposs, q.WellFormed ps ∧ q.AllocHonest) {st : PruneState P}
    (h : autopruneStep ps map cfg alloc turns stopAtEnd aposs = .running st ∨
      autopruneStep ps map cfg alloc turns stopAtEnd aposs = .exits st) :
    .sendPossibilityAnalysed ∉ st.events := by
  have hloop := autopruneLoop_spec cfg turns hmap haposs
    (batchSpec_init aposs.length alloc)
  unfold autopruneStep at h
  split at h
  · rename_i st₀ hrunning
    rw [hrunning] at hloop
    obtain rfl : st₀ = st := by simpa using h
    cases hloop with
    | running batch => exact batch.open_
  · rename_i st₀ hexits
    rw [hexits] at hloop
    obtain rfl : st₀ = st := by simpa using h
    cases hloop with
    | exits batch => exact batch.open_
  · dsimp only at h
    split at h
    · exact absurd h (by simp)
    · exact absurd h (by simp)

end Batch

/-! ## A step that nothing interrupts is over -/

section Finishes

variable {P : Puzzle} {ps : PieceSet P} {map : MapBigArray}

end Finishes

/-! ## No completion is dropped -/
