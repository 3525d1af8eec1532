-- SUMMARY: The fork orchestrator: its pure transition table, the driver's turns, and when live children match the state.
import EternityII.Base.Runs
import Mathlib.Data.List.Range
import Mathlib.Logic.Function.Basic

/-!
# The fork orchestrator

`orchestrator_step` decides the state under `g_orch_mutex`, for whichever thread posts an
event. The driver runs on a thread of its own: it reads the pending spawn and the state in
one critical section, then forks, reaps or stops children without the mutex, and writes the
state again at the end of a stop or of a failed start. Every access under the mutex, every
fork and every death of a child is one step here.
-/

/-! ## The transition table -/

/-- `orch_state_t`. -/
inductive OrchState
  | waitingConfig
  | countdown
  | configuring
  | running
  | stopping
  | applying
  | exiting
  deriving DecidableEq, Repr

/-- `orch_event_t`. -/
inductive OrchEvent
  | configBegun
  | start
  | stopForks
  | restart
  | exit
  | childDied
  deriving DecidableEq, Repr

/-- `orch_error_t`. -/
inductive OrchError
  | ok
  | alreadyRunning
  | unsupported
  | notRunning
  deriving DecidableEq, Repr

/-- `orch_actions_t`. -/
structure OrchActions where
  spawnForks : Bool
  stopForks : Bool
  error : OrchError
  deriving DecidableEq, Repr

/-- `orchestrator_step`. -/
def orchestratorStep (s : OrchState) : OrchEvent → OrchState × OrchActions
  | .configBegun =>
    if s = .waitingConfig ∨ s = .countdown then (.configuring, ⟨false, false, .ok⟩)
    else (s, ⟨false, false, .ok⟩)
  | .start =>
    -- `ORCH_APPLYING` is left out on purpose: the driver posts this event at the end of a restart
    if s = .running ∨ s = .stopping ∨ s = .exiting then (s, ⟨false, false, .alreadyRunning⟩)
    else (.running, ⟨true, false, .ok⟩)
  | .stopForks | .restart =>
    if s ≠ .running then (s, ⟨false, false, .notRunning⟩) else (.stopping, ⟨false, true, .ok⟩)
  | .exit => (.exiting, ⟨false, false, .ok⟩)
  | .childDied => (s, ⟨false, false, .ok⟩)

/-! ## The driver -/

/-- Where `fork_orchestrator_run` stands in its turn. -/
inductive DriverPc
  /-- Waiting on `g_orch_cond`. -/
  | head
  /-- Past the critical section, with what it read. -/
  | dispatch (doSpawn : Bool) (snapshot : OrchState)
  /-- In the loop of `orchestrator_spawn_forks`. -/
  | spawning (c forkError : Nat)
  /-- No child was created. -/
  | spawnFailed
  /-- The countdown has elapsed. -/
  | countdownElapsed
  /-- In `orchestrator_do_stop_forks`, with `restart_after_stop` as it was read. -/
  | stopForks (restart : Bool)
  /-- All children are reaped. -/
  | stopped (restart : Bool)
  /-- In `orchestrator_apply_restart_config`, at its request of quiescence. -/
  | applying
  /-- The request was refused. -/
  | refused
  /-- The staged configuration is applied. -/
  | applied
  /-- At the count of the children that closes a turn. -/
  | turnEnd
  /-- Out of the loop. -/
  | exited
  deriving DecidableEq, Repr

/-- The variables of the orchestrator, the slots of the children (`none` for a pid of -1), the
processes that are alive, and the driver. `turns` counts the turns that are over. -/
structure ForkOrchestrator where
  state : OrchState
  pendingSpawn : Bool
  restartAfterStop : Bool
  nbThreads : Nat
  childrensPid : Nat → Option Nat
  alive : Nat → Bool
  nextPid : Nat
  requestStop : Bool
  everRunning : Bool
  forksParked : Bool
  driver : DriverPc
  turns : Nat

/-- What one turn of the loop in `orchestrator_spawn_forks` meets. -/
inductive ForkOutcome
  | quiescenceRefused
  | forkFailed
  | created
  /-- `waitpid` right after the fork already reports a failure. -/
  | createdAndFailed
  deriving DecidableEq, Repr

/-- What a step of the driver finds outside: the number of forks in the staged configuration (or
the current one), whether the countdown has elapsed, whether the quiescence of a restart is
reached, and the outcome of a fork. -/
structure OrchOutcome where
  nbThreads : Nat
  elapsed : Bool
  quiesced : Bool
  fork : ForkOutcome

/-- What may happen next. No thread posts `EV_EXIT`, and only the driver posts
`EV_CHILD_DIED`. -/
inductive OrchStep
  | post (ev : OrchEvent)
  | childDies (pid : Nat)
  | requestStop
  | driver (o : OrchOutcome)

namespace ForkOrchestrator

/-- `fork_orchestrator_init_state` and `init_childs`. -/
def initState (configLoadedAtBoot : Bool) (nbThreads : Nat) : ForkOrchestrator where
  state := if configLoadedAtBoot then .countdown else .waitingConfig
  pendingSpawn := false
  restartAfterStop := false
  nbThreads := nbThreads
  childrensPid _ := none
  alive _ := false
  nextPid := 1
  requestStop := false
  everRunning := false
  forksParked := false
  driver := .head
  turns := 0

/-- `fork_orchestrator_post_event`. -/
def postEvent (s : ForkOrchestrator) (ev : OrchEvent) : ForkOrchestrator :=
  let (state, actions) := orchestratorStep s.state ev
  { s with
    state := state
    pendingSpawn := s.pendingSpawn || actions.spawnForks
    restartAfterStop :=
      if actions.stopForks = true ∧ actions.error = .ok then ev = .restart else s.restartAfterStop }

/-- `count_created_forks`. -/
def countCreatedForks (s : ForkOrchestrator) : Nat :=
  (List.range s.nbThreads).countP fun c => (s.childrensPid c).isSome

/-- `reap_dead_child_slots`. -/
def reapDeadChildSlots (s : ForkOrchestrator) : ForkOrchestrator :=
  { s with childrensPid := fun c =>
      if c < s.nbThreads ∧ (s.childrensPid c).any (fun pid => !s.alive pid) then none
      else s.childrensPid c }

/-- The slots after `orchestrator_do_stop_forks`. -/
def clearSlots (s : ForkOrchestrator) : ForkOrchestrator :=
  { s with childrensPid := fun c => if c < s.nbThreads then none else s.childrensPid c }

/-- Every child in a slot is dead, so that `orchestrator_do_stop_forks` has reaped it. -/
def allReaped (s : ForkOrchestrator) : Bool :=
  (List.range s.nbThreads).all fun c => (s.childrensPid c).all fun pid => !s.alive pid

/-- Write a slot. -/
def setSlot (s : ForkOrchestrator) (c : Nat) (pid : Option Nat) : ForkOrchestrator :=
  { s with childrensPid := Function.update s.childrensPid c pid }

/-- The end of `orchestrator_spawn_forks`, and what the driver does with its result. -/
def endSpawn (s : ForkOrchestrator) : ForkOrchestrator :=
  if s.countCreatedForks = 0 then { s with driver := .spawnFailed }
  else { s with everRunning := true, forksParked := false, driver := .turnEnd }

/-- A fork that was refused or that failed; the tenth ends the loop. -/
def forkRefused (s : ForkOrchestrator) (c forkError : Nat) : ForkOrchestrator :=
  if forkError + 1 ≥ 10 then (s.setSlot c none).endSpawn
  else { s.setSlot c none with driver := .spawning (c + 1) (forkError + 1) }

/-- One turn of the loop in `orchestrator_spawn_forks`. -/
def spawnStep (s : ForkOrchestrator) (c forkError : Nat) (fork : ForkOutcome) : ForkOrchestrator :=
  if c < s.nbThreads ∧ s.requestStop = false then
    match fork with
    | .quiescenceRefused => s.forkRefused c forkError
    | .forkFailed => s.forkRefused c forkError
    | .created =>
      { s.setSlot c (some s.nextPid) with
        alive := Function.update s.alive s.nextPid true
        nextPid := s.nextPid + 1
        driver := .spawning (c + 1) forkError }
    | .createdAndFailed =>
      { s.setSlot c (some s.nextPid) with
        nextPid := s.nextPid + 1
        driver := .spawning c forkError }
  else s.endSpawn

/-- The branch of a turn after its critical section. -/
def dispatch (s : ForkOrchestrator) (doSpawn : Bool) (snapshot : OrchState) (o : OrchOutcome) :
    ForkOrchestrator :=
  if doSpawn then
    -- `fork_orchestrator_apply_staged_config` and `ensure_childs_capacity`
    { s with nbThreads := o.nbThreads, driver := .spawning 0 0 }
  else match snapshot with
    | .countdown => { s with driver := if o.elapsed then .countdownElapsed else .turnEnd }
    -- `EV_CHILD_DIED` changes nothing
    | .running => { s.reapDeadChildSlots.postEvent .childDied with driver := .turnEnd }
    | .stopping => { s with driver := .stopForks s.restartAfterStop }
    | _ => { s with driver := .turnEnd }

/-- `orchestrator_apply_restart_config` once the gate is quiesced. -/
def applyRestartConfig (s : ForkOrchestrator) (nbThreads : Nat) : ForkOrchestrator :=
  if nbThreads ≠ s.nbThreads then { s with nbThreads := nbThreads, childrensPid := fun _ => none }
  else s

/-- The end of a turn: leave the loop, or start the next turn. -/
def closeTurn (s : ForkOrchestrator) : ForkOrchestrator :=
  { s with
    turns := s.turns + 1
    driver :=
      if s.countCreatedForks = 0 ∧
          (s.requestStop = true ∨ s.everRunning = true ∧ s.forksParked = false) then .exited
      else .head }

/-- One step of `fork_orchestrator_run`. -/
def driverStep (s : ForkOrchestrator) (o : OrchOutcome) : Option ForkOrchestrator :=
  match s.driver with
  | .head => some { s with pendingSpawn := false, driver := .dispatch s.pendingSpawn s.state }
  | .dispatch doSpawn snapshot => some (s.dispatch doSpawn snapshot o)
  | .spawning c forkError => some (s.spawnStep c forkError o.fork)
  | .spawnFailed => some { s with state := .waitingConfig, forksParked := true, driver := .turnEnd }
  | .countdownElapsed => some { s.postEvent .start with driver := .turnEnd }
  | .stopForks restart =>
    if s.allReaped then some { s.clearSlots with driver := .stopped restart } else none
  | .stopped true => some { s with state := .applying, forksParked := true, driver := .applying }
  | .stopped false => some { s with state := .waitingConfig, forksParked := true, driver := .turnEnd }
  | .applying =>
    some (if o.quiesced then { s.applyRestartConfig o.nbThreads with driver := .applied }
      else { s with driver := .refused })
  | .refused => some { s with state := .waitingConfig, driver := .turnEnd }
  | .applied => some { s.postEvent .start with driver := .turnEnd }
  | .turnEnd => some s.closeTurn
  | .exited => none

/-- One step of one thread or process. -/
def step (s : ForkOrchestrator) : OrchStep → Option ForkOrchestrator
  | .post ev => if ev = .exit ∨ ev = .childDied then none else some (s.postEvent ev)
  | .childDies pid => if s.alive pid then some { s with alive := Function.update s.alive pid false } else none
  | .requestStop => some { s with requestStop := true }
  | .driver o => s.driverStep o

/-- Some child is alive. -/
def Live (s : ForkOrchestrator) : Prop := ∃ pid, s.alive pid = true

/-- No spawn is pending when the driver goes back to `ORCH_WAITING_CONFIG` after a refused
restart: `EV_START` was not accepted while the restart was under way. -/
def RestartUndisturbed (s : ForkOrchestrator) : OrchStep → Prop
  | .driver _ => s.driver = .refused → s.pendingSpawn = false
  | _ => True

/-- The step is no accepted `EV_START` of another thread. -/
def NoStart (s : ForkOrchestrator) : OrchStep → Prop
  | .post ev => ev = .start → (orchestratorStep s.state .start).2.error ≠ .ok
  | _ => True

instance (s : ForkOrchestrator) : (a : OrchStep) → Decidable (s.RestartUndisturbed a)
  | .driver _ => inferInstanceAs (Decidable (s.driver = .refused → s.pendingSpawn = false))
  | .post _ | .childDies _ | .requestStop => inferInstanceAs (Decidable True)

instance (s : ForkOrchestrator) : (a : OrchStep) → Decidable (s.NoStart a)
  | .post ev =>
    inferInstanceAs (Decidable (ev = .start → (orchestratorStep s.state .start).2.error ≠ .ok))
  | .driver _ | .childDies _ | .requestStop => inferInstanceAs (Decidable True)

end ForkOrchestrator

/-! ## What the operations do -/

namespace ForkOrchestrator

variable {s s' : ForkOrchestrator} {ev : OrchEvent}

/-- The states with a life cycle of children under way. -/
def Working (s : ForkOrchestrator) : Prop := s.state = .running ∨ s.state = .stopping

/-- What a posted event changes. -/
theorem postEvent_cases (hexit : ev ≠ .exit) :
    s.postEvent ev = s ∨
      (ev = .configBegun ∧ (s.state = .waitingConfig ∨ s.state = .countdown) ∧
        s.postEvent ev = { s with state := .configuring }) ∨
      (ev = .start ∧ ¬ s.Working ∧ s.state ≠ .exiting ∧
        s.postEvent ev = { s with state := .running, pendingSpawn := true }) ∨
      ((ev = .stopForks ∨ ev = .restart) ∧ s.state = .running ∧
        s.postEvent ev = { s with state := .stopping, restartAfterStop := ev = .restart }) := by
  cases ev with
  | configBegun =>
    by_cases hstate : s.state = .waitingConfig ∨ s.state = .countdown
    · exact .inr (.inl ⟨rfl, hstate, by simp [postEvent, orchestratorStep, hstate]⟩)
    · exact .inl (by simp [postEvent, orchestratorStep, hstate])
  | start =>
    by_cases hstate : s.state = .running ∨ s.state = .stopping ∨ s.state = .exiting
    · exact .inl (by simp [postEvent, orchestratorStep, hstate])
    · refine .inr (.inr (.inl ⟨rfl, ?_, ?_, by simp [postEvent, orchestratorStep, hstate]⟩))
      · exact fun hworking => hstate (hworking.imp_right .inl)
      · exact fun hexiting => hstate (.inr (.inr hexiting))
  | stopForks =>
    by_cases hstate : s.state = .running
    · exact .inr (.inr (.inr ⟨.inl rfl, hstate, by simp [postEvent, orchestratorStep, hstate]⟩))
    · exact .inl (by simp [postEvent, orchestratorStep, hstate])
  | restart =>
    by_cases hstate : s.state = .running
    · exact .inr (.inr (.inr ⟨.inr rfl, hstate, by simp [postEvent, orchestratorStep, hstate]⟩))
    · exact .inl (by simp [postEvent, orchestratorStep, hstate])
  | exit => exact absurd rfl hexit
  | childDied => exact .inl (by simp [postEvent, orchestratorStep])

theorem postEvent_childDied (s : ForkOrchestrator) : s.postEvent .childDied = s := by
  simp [postEvent, orchestratorStep]

/-- `EV_START` changes nothing while children run or are being stopped. -/
theorem postEvent_start_of_working (hwork : s.Working) : s.postEvent .start = s := by
  have hexit : OrchEvent.start ≠ .exit := by simp
  rcases postEvent_cases hexit with heq | ⟨hev, -⟩ | ⟨-, hidle, -⟩ | ⟨hev, -⟩
  · exact heq
  · cases hev
  · exact absurd hwork hidle
  · rcases hev with hev | hev <;> cases hev

/-- A turn of the loop that forks leaves the variables under the mutex. -/
theorem spawnStep_frame (s : ForkOrchestrator) (c forkError : Nat) (fork : ForkOutcome) :
    (s.spawnStep c forkError fork).state = s.state ∧
      (s.spawnStep c forkError fork).restartAfterStop = s.restartAfterStop ∧
      (s.spawnStep c forkError fork).pendingSpawn = s.pendingSpawn ∧
      (s.spawnStep c forkError fork).turns = s.turns ∧
      ((s.spawnStep c forkError fork).driver = .turnEnd ∨ (s.spawnStep c forkError fork).driver = .spawnFailed ∨
        ∃ c' forkError', (s.spawnStep c forkError fork).driver = .spawning c' forkError') := by
  have hend : ∀ u : ForkOrchestrator, u.endSpawn.state = u.state ∧
      u.endSpawn.restartAfterStop = u.restartAfterStop ∧ u.endSpawn.pendingSpawn = u.pendingSpawn ∧
      u.endSpawn.turns = u.turns ∧ (u.endSpawn.driver = .turnEnd ∨ u.endSpawn.driver = .spawnFailed ∨
        ∃ c' forkError', u.endSpawn.driver = .spawning c' forkError') := by
    intro u
    unfold endSpawn
    split
    · exact ⟨rfl, rfl, rfl, rfl, .inr (.inl rfl)⟩
    · exact ⟨rfl, rfl, rfl, rfl, .inl rfl⟩
  have hrefused : (s.forkRefused c forkError).state = s.state ∧
      (s.forkRefused c forkError).restartAfterStop = s.restartAfterStop ∧
      (s.forkRefused c forkError).pendingSpawn = s.pendingSpawn ∧
      (s.forkRefused c forkError).turns = s.turns ∧
      ((s.forkRefused c forkError).driver = .turnEnd ∨ (s.forkRefused c forkError).driver = .spawnFailed ∨
        ∃ c' forkError', (s.forkRefused c forkError).driver = .spawning c' forkError') := by
    unfold forkRefused
    split
    · exact hend (s.setSlot c none)
    · exact ⟨rfl, rfl, rfl, rfl, .inr (.inr ⟨_, _, rfl⟩)⟩
  unfold spawnStep
  split
  · cases fork with
    | quiescenceRefused => exact hrefused
    | forkFailed => exact hrefused
    | created => exact ⟨rfl, rfl, rfl, rfl, .inr (.inr ⟨_, _, rfl⟩)⟩
    | createdAndFailed => exact ⟨rfl, rfl, rfl, rfl, .inr (.inr ⟨_, _, rfl⟩)⟩
  · exact hend s

/-- `EV_START` is accepted unless children run or are being stopped. -/
theorem start_ok_iff (s : OrchState) : (orchestratorStep s .start).2.error = .ok ↔
    s ≠ .running ∧ s ≠ .stopping ∧ s ≠ .exiting := by
  cases s <;> decide

/-- After a turn the driver waits again or has left its loop. -/
theorem closeTurn_driver (s : ForkOrchestrator) : s.closeTurn.driver = .exited ∨ s.closeTurn.driver = .head := by
  unfold closeTurn
  dsimp only
  split
  · exact .inl rfl
  · exact .inr rfl

/-- When no slot holds a child, no child of a slot is alive. -/
theorem countCreatedForks_eq_zero : s.countCreatedForks = 0 ↔ ∀ c, c < s.nbThreads → s.childrensPid c = none := by
  simp [countCreatedForks, List.countP_eq_zero]

theorem allReaped_iff : s.allReaped = true ↔
    ∀ c, c < s.nbThreads → ∀ pid, s.childrensPid c = some pid → s.alive pid = false := by
  simp only [allReaped, List.all_eq_true, List.mem_range, Option.all_eq_true, Bool.not_eq_true']

/-! ## The invariant -/

/-- What holds at each place of the driver's turn. -/
def DriverInv (s : ForkOrchestrator) : Prop :=
  match s.driver with
  | .dispatch true _ => ¬ s.Live ∧ s.pendingSpawn = false ∧ s.Working
  | .dispatch false snapshot => snapshot = .stopping → s.state = .stopping ∧ s.pendingSpawn = false
  | .spawning c _ => s.pendingSpawn = false ∧ s.Working ∧
      ∀ c', c ≤ c' → ∀ pid, s.childrensPid c' = some pid → s.alive pid = false
  | .spawnFailed => ¬ s.Live ∧ s.pendingSpawn = false ∧ s.Working
  | .stopForks restart => s.state = .stopping ∧ s.pendingSpawn = false ∧ s.restartAfterStop = restart
  | .stopped restart =>
    ¬ s.Live ∧ s.state = .stopping ∧ s.pendingSpawn = false ∧ s.restartAfterStop = restart
  | .applying | .refused | .applied => ¬ s.Live ∧ (s.Working → s.pendingSpawn = true)
  | .exited => ¬ s.Live
  | .head | .countdownElapsed | .turnEnd => True

/-- The invariant: a live child is in a slot and in a state that allows it, a pending spawn finds
no live child, and the driver's place fits. -/
structure Inv (s : ForkOrchestrator) : Prop where
  inSlot : ∀ pid, s.alive pid = true → ∃ c, c < s.nbThreads ∧ s.childrensPid c = some pid
  fresh : ∀ c pid, s.childrensPid c = some pid → pid < s.nextPid
  live : s.Live → s.Working
  pending : s.pendingSpawn = true → ¬ s.Live ∧ s.Working
  driver : s.DriverInv

theorem Inv.not_live (h : s.Inv) (hcount : s.countCreatedForks = 0) : ¬ s.Live := by
  rintro ⟨pid, hpid⟩
  obtain ⟨c, hc, hslot⟩ := h.inSlot pid hpid
  rw [countCreatedForks_eq_zero.mp hcount c hc] at hslot
  cases hslot

theorem Inv.not_live_of_not_working (h : s.Inv) (hidle : ¬ s.Working) : ¬ s.Live :=
  fun hlive => hidle (h.live hlive)

theorem inv_initState (configLoadedAtBoot : Bool) (nbThreads : Nat) :
    (initState configLoadedAtBoot nbThreads).Inv where
  inSlot pid hpid := by cases hpid
  fresh c pid hslot := by cases hslot
  live := by
    rintro ⟨pid, hpid⟩
    cases hpid
  pending hpending := by cases hpending
  driver := trivial

/-- A step of another thread that keeps the life cycle under way keeps what holds at the driver's
place. -/
theorem DriverInv.transfer (h : s.DriverInv) (hslots : s'.childrensPid = s.childrensPid)
    (halive : s'.alive = s.alive) (hdriver : s'.driver = s.driver)
    (hworking : s.Working → s'.Working ∧ s'.pendingSpawn = s.pendingSpawn)
    (hstopping : s.state = .stopping → s'.state = .stopping ∧ s'.restartAfterStop = s.restartAfterStop)
    (hstarted : s'.Working → s.Working ∨ s'.pendingSpawn = true) : s'.DriverInv := by
  have hlive : s'.Live ↔ s.Live := by rw [Live, Live, halive]
  unfold DriverInv at h ⊢
  rw [hdriver, hlive, hslots, halive]
  have hstop : s.state = .stopping ∧ s.pendingSpawn = false →
      s'.state = .stopping ∧ s'.pendingSpawn = false := by
    intro ⟨hstate, hpending⟩
    exact ⟨(hstopping hstate).1, (hworking (.inr hstate)).2.trans hpending⟩
  cases hpc : s.driver with
  | dispatch doSpawn snapshot =>
    rw [hpc] at h
    cases doSpawn with
    | false => exact fun hsnapshot => hstop (h hsnapshot)
    | true =>
      obtain ⟨hnone, hpending, hwork⟩ := h
      exact ⟨hnone, (hworking hwork).2.trans hpending, (hworking hwork).1⟩
  | spawning c forkError =>
    rw [hpc] at h
    obtain ⟨hpending, hwork, hdead⟩ := h
    exact ⟨(hworking hwork).2.trans hpending, (hworking hwork).1, hdead⟩
  | spawnFailed =>
    rw [hpc] at h
    obtain ⟨hnone, hpending, hwork⟩ := h
    exact ⟨hnone, (hworking hwork).2.trans hpending, (hworking hwork).1⟩
  | stopForks restart =>
    rw [hpc] at h
    obtain ⟨hstate, hpending, hrestart⟩ := h
    obtain ⟨hstate', hpending'⟩ := hstop ⟨hstate, hpending⟩
    exact ⟨hstate', hpending', (hstopping hstate).2.trans hrestart⟩
  | stopped restart =>
    rw [hpc] at h
    obtain ⟨hnone, hstate, hpending, hrestart⟩ := h
    obtain ⟨hstate', hpending'⟩ := hstop ⟨hstate, hpending⟩
    exact ⟨hnone, hstate', hpending', (hstopping hstate).2.trans hrestart⟩
  | applying | refused | applied =>
    rw [hpc] at h
    refine ⟨h.1, fun hwork' => ?_⟩
    rcases hstarted hwork' with hwork | hpending
    · exact (hworking hwork).2.trans (h.2 hwork)
    · exact hpending
  | exited =>
    rw [hpc] at h
    exact h
  | head | countdownElapsed | turnEnd => trivial

/-- A posted event keeps the invariant. -/
theorem Inv.postEvent (h : s.Inv) (hexit : ev ≠ .exit) : (s.postEvent ev).Inv := by
  rcases postEvent_cases hexit with heq | ⟨-, hstate, heq⟩ | ⟨-, hidle, -, heq⟩ | ⟨-, hstate, heq⟩
  · rw [heq]
    exact h
  · have hidle : ¬ s.Working := by
      rintro (hrunning | hstopping) <;> simp_all
    rw [heq]
    refine ⟨h.inSlot, h.fresh, fun hlive => absurd (h.live hlive) hidle,
      fun hpending => absurd (h.pending hpending).2 hidle, ?_⟩
    refine h.driver.transfer rfl rfl rfl (fun hwork => absurd hwork hidle)
      (fun hstopping => absurd (.inr hstopping) hidle) ?_
    rintro (hwork | hwork) <;> cases hwork
  · rw [heq]
    have hnone := h.not_live_of_not_working hidle
    exact ⟨h.inSlot, h.fresh, fun _ => .inl rfl, fun _ => ⟨hnone, .inl rfl⟩,
      h.driver.transfer rfl rfl rfl (fun hwork => absurd hwork hidle)
        (fun hstopping => absurd (.inr hstopping) hidle) fun _ => .inr rfl⟩
  · rw [heq]
    refine ⟨h.inSlot, h.fresh, fun _ => .inr rfl, fun hpending => ⟨(h.pending hpending).1, .inr rfl⟩,
      h.driver.transfer rfl rfl rfl (fun _ => ⟨.inr rfl, rfl⟩) (fun hstopping => ?_) fun _ => .inl (.inl hstate)⟩
    rw [hstate] at hstopping
    cases hstopping

/-- The death of a child keeps the invariant. -/
theorem Inv.childDies (h : s.Inv) (pid : Nat) :
    ({ s with alive := Function.update s.alive pid false } : ForkOrchestrator).Inv := by
  have hdead : ∀ p, Function.update s.alive pid false p = true → s.alive p = true := by
    intro p hp
    by_cases heq : p = pid
    · rw [heq, Function.update_self] at hp
      cases hp
    · rwa [Function.update_of_ne heq] at hp
  have hlive : ({ s with alive := Function.update s.alive pid false } : ForkOrchestrator).Live → s.Live :=
    fun ⟨p, hp⟩ => ⟨p, hdead p hp⟩
  refine ⟨fun p hp => h.inSlot p (hdead p hp), h.fresh, fun hl => h.live (hlive hl),
    fun hpending => ⟨mt hlive (h.pending hpending).1, (h.pending hpending).2⟩, ?_⟩
  have hdriver := h.driver
  unfold DriverInv at hdriver ⊢
  cases hpc : s.driver with
  | dispatch doSpawn snapshot =>
    rw [hpc] at hdriver
    cases doSpawn with
    | false => exact hdriver
    | true => exact ⟨mt hlive hdriver.1, hdriver.2⟩
  | spawning c forkError =>
    rw [hpc] at hdriver
    refine ⟨hdriver.1, hdriver.2.1, fun c' hc' p hp => ?_⟩
    exact Bool.eq_false_iff.mpr fun hp' => by
      simpa [hdriver.2.2 c' hc' p hp] using hdead p hp'
  | spawnFailed | stopped restart | applying | refused | applied =>
    rw [hpc] at hdriver
    exact ⟨mt hlive hdriver.1, hdriver.2⟩
  | stopForks restart =>
    rw [hpc] at hdriver
    exact hdriver
  | exited =>
    rw [hpc] at hdriver
    exact mt hlive hdriver
  | head | countdownElapsed | turnEnd => trivial

/-- A step that only moves the driver on. -/
theorem Inv.moveTo (h : s.Inv) {pc : DriverPc} (hdriver : ({ s with driver := pc } : ForkOrchestrator).DriverInv) :
    ({ s with driver := pc } : ForkOrchestrator).Inv :=
  ⟨h.inSlot, h.fresh, h.live, h.pending, hdriver⟩

/-- The driver goes back to `ORCH_WAITING_CONFIG` while no child is alive and no spawn is pending. -/
theorem Inv.park (h : s.Inv) (hnone : ¬ s.Live) (hpending : s.pendingSpawn = false) (parked : Bool) :
    ({ s with state := .waitingConfig, forksParked := parked, driver := .turnEnd } : ForkOrchestrator).Inv := by
  refine ⟨h.inSlot, h.fresh, fun hlive => absurd hlive hnone, fun hpending' => ?_, trivial⟩
  rw [show s.pendingSpawn = true from hpending'] at hpending
  cases hpending

/-- The end of the loop that forks. -/
theorem Inv.endSpawn (h : s.Inv) (hpending : s.pendingSpawn = false) (hwork : s.Working) : s.endSpawn.Inv := by
  unfold ForkOrchestrator.endSpawn
  split
  · rename_i hcount
    exact h.moveTo ⟨h.not_live hcount, hpending, hwork⟩
  · exact ⟨h.inSlot, h.fresh, h.live, h.pending, trivial⟩

/-- A slot without a live child is overwritten, by -1 or by a new process that may be alive. -/
theorem Inv.fillSlot (h : s.Inv) (hpending : s.pendingSpawn = false) (hwork : s.Working) {c nextPid : Nat}
    {pid : Option Nat} {alive : Nat → Bool} {pc : DriverPc} (hc : c < s.nbThreads)
    (hdead : ∀ p, s.childrensPid c = some p → s.alive p = false)
    (halive : ∀ p, alive p = true → s.alive p = true ∨ pid = some p)
    (hnext : s.nextPid ≤ nextPid) (hfresh : ∀ p, pid = some p → p < nextPid)
    (hdriver : ({ s.setSlot c pid with alive := alive, nextPid := nextPid, driver := pc } :
      ForkOrchestrator).DriverInv) :
    ({ s.setSlot c pid with alive := alive, nextPid := nextPid, driver := pc } : ForkOrchestrator).Inv := by
  refine ⟨fun p hp => ?_, fun c' p hslot => ?_, fun _ => hwork, fun hpending' => ?_, hdriver⟩
  · rcases halive p hp with hold | hnew
    · obtain ⟨c', hc', hslot⟩ := h.inSlot p hold
      have hne : c' ≠ c := by
        rintro rfl
        rw [hdead p hslot] at hold
        cases hold
      exact ⟨c', hc', (Function.update_of_ne hne _ _).trans hslot⟩
    · exact ⟨c, hc, (Function.update_self _ _ _).trans hnew⟩
  · change Function.update s.childrensPid c pid c' = some p at hslot
    by_cases heq : c' = c
    · rw [heq, Function.update_self] at hslot
      exact hfresh p hslot
    · rw [Function.update_of_ne heq] at hslot
      exact Nat.lt_of_lt_of_le (h.fresh c' p hslot) hnext
  · rw [show s.pendingSpawn = true from hpending'] at hpending
    cases hpending

/-- A fork that was refused or that failed. -/
theorem Inv.forkRefused (h : s.Inv) {c forkError : Nat} (hpc : s.driver = .spawning c forkError)
    (hc : c < s.nbThreads) : (s.forkRefused c forkError).Inv := by
  have hdriver := h.driver
  rw [DriverInv, hpc] at hdriver
  obtain ⟨hpending, hwork, hdead⟩ := hdriver
  have hdead' : ∀ c', c ≤ c' → ∀ pid, (s.setSlot c none).childrensPid c' = some pid → s.alive pid = false := by
    intro c' hc' pid hslot
    change Function.update s.childrensPid c none c' = some pid at hslot
    by_cases heq : c' = c
    · rw [heq, Function.update_self] at hslot
      cases hslot
    · rw [Function.update_of_ne heq] at hslot
      exact hdead c' hc' pid hslot
  have hfill : ∀ (pc : DriverPc), ({ s.setSlot c none with driver := pc } : ForkOrchestrator).DriverInv →
      ({ s.setSlot c none with driver := pc } : ForkOrchestrator).Inv := fun pc hpc' =>
    h.fillSlot hpending hwork hc (hdead c le_rfl) (fun _ hp => .inl hp) le_rfl (fun _ hp => by cases hp) hpc'
  unfold ForkOrchestrator.forkRefused
  split
  · refine Inv.endSpawn (hfill s.driver ?_) hpending hwork
    rw [DriverInv, show ({ s.setSlot c none with driver := s.driver } : ForkOrchestrator).driver = _ from hpc]
    exact ⟨hpending, hwork, hdead'⟩
  · exact hfill _ ⟨hpending, hwork, fun c' hc' => hdead' c' (Nat.le_of_succ_le hc')⟩

/-- One turn of the loop that forks. -/
theorem Inv.spawnStep (h : s.Inv) {c forkError : Nat} (hpc : s.driver = .spawning c forkError)
    (fork : ForkOutcome) : (s.spawnStep c forkError fork).Inv := by
  have hdriver := h.driver
  rw [DriverInv, hpc] at hdriver
  obtain ⟨hpending, hwork, hdead⟩ := hdriver
  unfold ForkOrchestrator.spawnStep
  split
  · rename_i hgo
    cases fork with
    | quiescenceRefused => exact h.forkRefused hpc hgo.1
    | forkFailed => exact h.forkRefused hpc hgo.1
    | created =>
      refine h.fillSlot hpending hwork hgo.1 (hdead c le_rfl) (fun p hp => ?_) (Nat.le_succ _)
        (fun p hp => ?_) ⟨hpending, hwork, fun c' hc' pid hslot => ?_⟩
      · by_cases heq : p = s.nextPid
        · exact .inr (by rw [heq])
        · exact .inl (by rwa [Function.update_of_ne heq] at hp)
      · cases hp
        exact Nat.lt_succ_self _
      · -- the slots further up hold older processes, all dead
        change Function.update s.childrensPid c (some s.nextPid) c' = some pid at hslot
        rw [Function.update_of_ne (Nat.ne_of_gt hc')] at hslot
        show Function.update s.alive s.nextPid true pid = false
        rw [Function.update_of_ne (Nat.ne_of_lt (h.fresh c' pid hslot))]
        exact hdead c' (Nat.le_of_succ_le hc') pid hslot
    | createdAndFailed =>
      have hnew : s.alive s.nextPid = false := by
        refine Bool.eq_false_iff.mpr fun halive => ?_
        obtain ⟨c', -, hslot⟩ := h.inSlot _ halive
        exact absurd (h.fresh c' _ hslot) (lt_irrefl _)
      refine h.fillSlot hpending hwork hgo.1 (hdead c le_rfl) (fun _ hp => .inl hp) (Nat.le_succ _)
        (fun p hp => ?_) ⟨hpending, hwork, fun c' hc' pid hslot => ?_⟩
      · cases hp
        exact Nat.lt_succ_self _
      · change Function.update s.childrensPid c (some s.nextPid) c' = some pid at hslot
        by_cases heq : c' = c
        · rw [heq, Function.update_self] at hslot
          cases hslot
          exact hnew
        · rw [Function.update_of_ne heq] at hslot
          exact hdead c' hc' pid hslot
  · exact h.endSpawn hpending hwork

/-- Only slots of dead children are cleared. -/
theorem Inv.reapDeadChildSlots (h : s.Inv) :
    ({ s.reapDeadChildSlots with driver := .turnEnd } : ForkOrchestrator).Inv := by
  refine ⟨fun pid hpid => ?_, fun c pid hslot => ?_, h.live, h.pending, trivial⟩
  · obtain ⟨c, hc, hslot⟩ := h.inSlot pid hpid
    refine ⟨c, hc, (if_neg ?_).trans hslot⟩
    rw [hslot, Option.any_some]
    intro hdead
    simp [show s.alive pid = true from hpid] at hdead
  · change (if _ then none else s.childrensPid c) = some pid at hslot
    split at hslot
    · cases hslot
    · exact h.fresh c pid hslot

/-- The branch of a turn. -/
theorem Inv.dispatch (h : s.Inv) {doSpawn : Bool} {snapshot : OrchState}
    (hpc : s.driver = .dispatch doSpawn snapshot) (o : OrchOutcome) : (s.dispatch doSpawn snapshot o).Inv := by
  have hdriver := h.driver
  unfold DriverInv at hdriver
  rw [hpc] at hdriver
  unfold ForkOrchestrator.dispatch
  cases doSpawn with
  | true =>
    obtain ⟨hnone, hpending, hwork⟩ := hdriver
    rw [if_pos rfl]
    refine ⟨fun pid hpid => absurd ⟨pid, hpid⟩ hnone, h.fresh, h.live, h.pending, hpending, hwork, ?_⟩
    intro c _ pid _
    exact Bool.eq_false_iff.mpr fun hpid => hnone ⟨pid, hpid⟩
  | false =>
    rw [if_neg (by simp)]
    cases snapshot with
    | countdown =>
      apply h.moveTo
      split <;> trivial
    | running =>
      rw [postEvent_childDied]
      exact h.reapDeadChildSlots
    | stopping =>
      obtain ⟨hstate, hpending⟩ := hdriver rfl
      exact h.moveTo ⟨hstate, hpending, rfl⟩
    | waitingConfig | configuring | applying | exiting => exact h.moveTo trivial

/-- The critical section at the head of a turn. -/
theorem Inv.head (h : s.Inv) :
    ({ s with pendingSpawn := false, driver := .dispatch s.pendingSpawn s.state } : ForkOrchestrator).Inv := by
  refine ⟨h.inSlot, h.fresh, h.live, fun hpending => (by cases hpending), ?_⟩
  rw [DriverInv]
  cases hpending : s.pendingSpawn with
  | true => exact ⟨(h.pending hpending).1, rfl, (h.pending hpending).2⟩
  | false => exact fun hsnapshot => ⟨hsnapshot, rfl⟩

/-- The slots are rebuilt while no child is alive. -/
theorem Inv.applyRestartConfig (h : s.Inv) (hdriver : ¬ s.Live ∧ (s.Working → s.pendingSpawn = true))
    (nbThreads : Nat) : ({ s.applyRestartConfig nbThreads with driver := .applied } : ForkOrchestrator).Inv := by
  unfold ForkOrchestrator.applyRestartConfig
  split
  · exact ⟨fun pid hpid => absurd ⟨pid, hpid⟩ hdriver.1, fun c pid hslot => (by cases hslot), h.live, h.pending,
      hdriver⟩
  · exact h.moveTo hdriver

/-- The end of a turn: the driver leaves its loop only without children. -/
theorem Inv.closeTurn (h : s.Inv) : s.closeTurn.Inv := by
  refine ⟨h.inSlot, h.fresh, h.live, h.pending, ?_⟩
  by_cases hleave : s.countCreatedForks = 0 ∧
      (s.requestStop = true ∨ s.everRunning = true ∧ s.forksParked = false)
  · rw [DriverInv, show s.closeTurn.driver = .exited from if_pos hleave]
    exact h.not_live hleave.1
  · rw [DriverInv, show s.closeTurn.driver = .head from if_neg hleave]
    trivial

/-- One step of the driver keeps the invariant, except the end of a refused restart with a spawn
pending. -/
theorem Inv.driverStep (h : s.Inv) {o : OrchOutcome} (hok : s.RestartUndisturbed (.driver o))
    (hstep : s.driverStep o = some s') : s'.Inv := by
  have hdriver := h.driver
  unfold DriverInv at hdriver
  unfold ForkOrchestrator.driverStep at hstep
  cases hpc : s.driver with
  | head =>
    rw [hpc] at hstep
    cases hstep
    exact h.head
  | dispatch doSpawn snapshot =>
    rw [hpc] at hstep
    cases hstep
    exact h.dispatch hpc o
  | spawning c forkError =>
    rw [hpc] at hstep
    cases hstep
    exact h.spawnStep hpc o.fork
  | spawnFailed =>
    rw [hpc] at hstep hdriver
    cases hstep
    exact h.park hdriver.1 hdriver.2.1 true
  | countdownElapsed =>
    rw [hpc] at hstep
    cases hstep
    exact (h.postEvent (by simp)).moveTo trivial
  | stopForks restart =>
    rw [hpc] at hstep hdriver
    obtain ⟨hreaped, hs'⟩ := Option.ite_none_right_eq_some.mp hstep
    cases hs'
    have hnone : ¬ s.Live := by
      rintro ⟨pid, hpid⟩
      obtain ⟨c, hc, hslot⟩ := h.inSlot pid hpid
      rw [allReaped_iff.mp hreaped c hc pid hslot] at hpid
      cases hpid
    refine ⟨fun pid hpid => absurd ⟨pid, hpid⟩ hnone, fun c pid hslot => ?_, h.live, h.pending, hnone, hdriver⟩
    change (if c < s.nbThreads then none else s.childrensPid c) = some pid at hslot
    split at hslot
    · cases hslot
    · exact h.fresh c pid hslot
  | stopped restart =>
    rw [hpc] at hstep hdriver
    obtain ⟨hnone, hstate, hpending, -⟩ := hdriver
    cases restart with
    | true =>
      cases hstep
      have hpending' : ¬ s.pendingSpawn = true := by simp [hpending]
      refine ⟨h.inSlot, h.fresh, fun hlive => absurd hlive hnone, fun hset => absurd hset hpending', hnone, ?_⟩
      rintro (hwork | hwork) <;> cases hwork
    | false =>
      cases hstep
      exact h.park hnone hpending true
  | applying =>
    rw [hpc] at hstep hdriver
    cases hstep
    split
    · exact h.applyRestartConfig hdriver o.nbThreads
    · exact h.moveTo hdriver
  | refused =>
    rw [hpc] at hstep hdriver
    cases hstep
    exact h.park hdriver.1 (hok hpc) s.forksParked
  | applied =>
    rw [hpc] at hstep
    cases hstep
    exact (h.postEvent (by simp)).moveTo trivial
  | turnEnd =>
    rw [hpc] at hstep
    cases hstep
    exact h.closeTurn
  | exited =>
    rw [hpc] at hstep
    cases hstep

/-- One step keeps the invariant, except the end of a refused restart with a spawn pending. -/
theorem Inv.step (h : s.Inv) {a : OrchStep} (hok : s.RestartUndisturbed a) (hstep : s.step a = some s') :
    s'.Inv := by
  cases a with
  | post ev =>
    obtain ⟨hposted, hs'⟩ := Option.ite_none_left_eq_some.mp hstep
    cases hs'
    exact h.postEvent fun hexit => hposted (.inl hexit)
  | childDies pid =>
    obtain ⟨-, hs'⟩ := Option.ite_none_right_eq_some.mp hstep
    cases hs'
    exact h.childDies pid
  | requestStop =>
    cases hstep
    exact ⟨h.inSlot, h.fresh, h.live, h.pending, h.driver.transfer rfl rfl rfl (fun hwork => ⟨hwork, rfl⟩)
      (fun hstopping => ⟨hstopping, rfl⟩) .inl⟩
  | driver o => exact h.driverStep hok hstep

/-! ## A stop that was accepted -/

/-- The ends of turns up to the one after which an accepted stop has been carried out, for a place of
the driver and a pending spawn. -/
def turnsToStop (pc : DriverPc) (pendingSpawn : Bool) : Nat :=
  match pc with
  | .head => if pendingSpawn then 2 else 1
  | .dispatch true _ | .spawning _ _ => 2
  | .dispatch false .stopping | .stopForks _ | .stopped _ | .spawnFailed => 1
  | _ => if pendingSpawn then 3 else 2

/-- A stop is accepted and due before turn `t` ends, or it has been carried out. -/
def StopDue (t : Nat) (s : ForkOrchestrator) : Prop :=
  (s.state = .stopping ∧ s.restartAfterStop = false ∧
      (s.driver = .exited ∨ s.turns + turnsToStop s.driver s.pendingSpawn ≤ t)) ∨
    (¬ s.Live ∧ s.pendingSpawn = false ∧ (s.state = .waitingConfig ∨ s.state = .configuring) ∧
      (s.driver = .head ∨ s.driver = .turnEnd ∨ s.driver = .exited ∨
        ∃ snapshot, s.driver = .dispatch false snapshot ∧
          (snapshot = .waitingConfig ∨ snapshot = .configuring)))

theorem turnsToStop_pos (pc : DriverPc) (pendingSpawn : Bool) : 0 < turnsToStop pc pendingSpawn := by
  unfold turnsToStop
  split
  all_goals first | exact Nat.succ_pos _ | (split <;> exact Nat.succ_pos _)

theorem turnsToStop_le (pc : DriverPc) (pendingSpawn : Bool) : turnsToStop pc pendingSpawn ≤ 3 := by
  unfold turnsToStop
  split
  all_goals first | omega | (split <;> omega)

/-- The stop is carried out in the turn under way. -/
theorem StopDue.parked {t : Nat} {parked : Bool} (hnone : ¬ s.Live) (hpending : s.pendingSpawn = false) :
    StopDue t { s with state := .waitingConfig, forksParked := parked, driver := .turnEnd } :=
  .inr ⟨hnone, hpending, .inl rfl, .inr (.inl rfl)⟩

/-- A step of another thread that posts no accepted `EV_START`. -/
theorem StopDue.postEvent {t : Nat} (h : StopDue t s) (hexit : ev ≠ .exit)
    (hstart : ev = .start → (orchestratorStep s.state .start).2.error ≠ .ok) : StopDue t (s.postEvent ev) := by
  rcases postEvent_cases hexit with heq | ⟨-, hstate, heq⟩ | ⟨hev, hidle, hexiting, heq⟩ | ⟨-, hstate, heq⟩
  · rw [heq]
    exact h
  · rw [heq]
    rcases h with ⟨hstopping, -⟩ | ⟨hnone, hpending, -, hdriver⟩
    · rw [hstopping] at hstate
      rcases hstate with hstate | hstate <;> cases hstate
    · exact .inr ⟨hnone, hpending, .inr rfl, hdriver⟩
  · refine absurd ((start_ok_iff s.state).mpr ⟨?_, ?_, hexiting⟩) (hstart hev)
    · exact fun hrunning => hidle (.inl hrunning)
    · exact fun hstopping => hidle (.inr hstopping)
  · rcases h with ⟨hstopping, -⟩ | ⟨-, -, hidle, -⟩
    · rw [hstopping] at hstate
      cases hstate
    · rcases hidle with hidle | hidle <;> rw [hidle] at hstate <;> cases hstate

/-- A stop is accepted and due before turn `t` ends. -/
structure Stopping (t : Nat) (s : ForkOrchestrator) : Prop where
  state : s.state = .stopping
  restart : s.restartAfterStop = false
  bound : s.turns + turnsToStop s.driver s.pendingSpawn ≤ t

/-- A step that leaves the state and brings the stop no further away. -/
theorem Stopping.kept {t : Nat} (h : Stopping t s) {u : ForkOrchestrator} (hstate : u.state = s.state)
    (hrestart : u.restartAfterStop = s.restartAfterStop) (hturns : u.turns = s.turns)
    (hle : turnsToStop u.driver u.pendingSpawn ≤ turnsToStop s.driver s.pendingSpawn) : StopDue t u := by
  refine .inl ⟨hstate.trans h.state, hrestart.trans h.restart, .inr ?_⟩
  rw [hturns]
  exact (Nat.add_le_add_left hle _).trans h.bound

/-- The branch of a turn. -/
theorem Stopping.dispatch {t : Nat} (h : Stopping t s) {doSpawn : Bool} {snapshot : OrchState}
    (hpc : s.driver = .dispatch doSpawn snapshot) (o : OrchOutcome) : StopDue t (s.dispatch doSpawn snapshot o) := by
  unfold ForkOrchestrator.dispatch
  cases doSpawn with
  | true =>
    rw [if_pos rfl]
    refine h.kept rfl rfl rfl ?_
    rw [hpc]
    exact le_rfl
  | false =>
    rw [if_neg (by simp)]
    cases snapshot with
    | countdown =>
      refine h.kept rfl rfl rfl ?_
      rw [hpc]
      cases o.elapsed <;> exact le_rfl
    | running =>
      rw [postEvent_childDied]
      refine h.kept rfl rfl rfl ?_
      rw [hpc]
      exact le_rfl
    | waitingConfig | configuring | stopping | applying | exiting =>
      refine h.kept rfl rfl rfl ?_
      rw [hpc]
      exact le_rfl

/-- A turn of the loop that spawns, with no spawn pending. -/
theorem Stopping.spawnStep {t c forkError : Nat} (h : Stopping t s) (hpc : s.driver = .spawning c forkError)
    (hpending : s.pendingSpawn = false) (fork : ForkOutcome) : StopDue t (s.spawnStep c forkError fork) := by
  obtain ⟨hs, hr, hp, ht, hd⟩ := spawnStep_frame s c forkError fork
  refine h.kept hs hr ht ?_
  rw [hpc, hp, hpending]
  rcases hd with hd | hd | ⟨c', forkError', hd⟩
  · rw [hd]
    exact le_rfl
  · rw [hd]
    exact Nat.le_succ 1
  · rw [hd]
    exact le_rfl

/-- The end of a turn. -/
theorem Stopping.closeTurn {t : Nat} (h : Stopping t s) (hpc : s.driver = .turnEnd) : StopDue t s.closeTurn := by
  have hbound := h.bound
  rw [hpc] at hbound
  rcases s.closeTurn_driver with hleave | hnext
  · exact .inl ⟨h.state, h.restart, .inl hleave⟩
  · refine .inl ⟨h.state, h.restart, .inr (le_trans ?_ hbound)⟩
    show s.turns + 1 + turnsToStop s.closeTurn.driver s.pendingSpawn ≤ _
    rw [hnext, Nat.add_assoc]
    apply Nat.add_le_add_left
    cases s.pendingSpawn <;> decide

/-- One step of the driver, from an accepted stop. -/
theorem Stopping.driverStep {t : Nat} (h : Stopping t s) (hinv : s.Inv) {o : OrchOutcome}
    (hok : s.RestartUndisturbed (.driver o)) (hstep : s.driverStep o = some s') : StopDue t s' := by
  have hdriver := hinv.driver
  have hwork : s.Working := .inr h.state
  -- a start is refused, so a post changes nothing
  have hpost := postEvent_start_of_working hwork
  unfold DriverInv at hdriver
  unfold ForkOrchestrator.driverStep at hstep
  cases hpc : s.driver with
  | head =>
    rw [hpc] at hstep
    cases hstep
    refine h.kept rfl rfl rfl ?_
    rw [hpc, h.state]
    cases s.pendingSpawn <;> exact le_rfl
  | dispatch doSpawn snapshot =>
    rw [hpc] at hstep
    cases hstep
    exact h.dispatch hpc o
  | spawning c forkError =>
    rw [hpc] at hstep hdriver
    cases hstep
    exact h.spawnStep hpc hdriver.1 o.fork
  | spawnFailed =>
    rw [hpc] at hstep hdriver
    cases hstep
    exact .parked hdriver.1 hdriver.2.1
  | countdownElapsed =>
    rw [hpc] at hstep
    cases hstep
    rw [hpost]
    refine h.kept rfl rfl rfl ?_
    rw [hpc]
    exact le_rfl
  | stopForks restart =>
    rw [hpc] at hstep hdriver
    obtain ⟨hreaped, hs'⟩ := Option.ite_none_right_eq_some.mp hstep
    cases hs'
    refine h.kept rfl rfl rfl ?_
    rw [hpc]
    exact le_rfl
  | stopped restart =>
    rw [hpc] at hstep hdriver
    obtain ⟨hnone, -, hpending, hr⟩ := hdriver
    rw [h.restart] at hr
    subst hr
    cases hstep
    exact .parked hnone hpending
  | applying =>
    rw [hpc] at hstep
    cases hstep
    split
    · unfold ForkOrchestrator.applyRestartConfig
      split
      all_goals
        refine h.kept rfl rfl rfl ?_
        rw [hpc]
        exact le_rfl
    · refine h.kept rfl rfl rfl ?_
      rw [hpc]
      exact le_rfl
  | refused =>
    rw [hpc] at hdriver
    have hpending := hdriver.2 hwork
    rw [hok hpc] at hpending
    cases hpending
  | applied =>
    rw [hpc] at hstep
    cases hstep
    rw [hpost]
    refine h.kept rfl rfl rfl ?_
    rw [hpc]
    exact le_rfl
  | turnEnd =>
    rw [hpc] at hstep
    cases hstep
    exact h.closeTurn hpc
  | exited =>
    rw [hpc] at hstep
    cases hstep

/-- One step of the driver, while a stop is due. -/
theorem StopDue.driverStep {t : Nat} (h : StopDue t s) (hinv : s.Inv) {o : OrchOutcome}
    (hok : s.RestartUndisturbed (.driver o)) (hstep : s.driverStep o = some s') : StopDue t s' := by
  rcases h with ⟨hstate, hrestart, hexited | hbound⟩ | ⟨hnone, hpending, hstate, hdriver⟩
  · unfold ForkOrchestrator.driverStep at hstep
    rw [hexited] at hstep
    cases hstep
  · exact Stopping.driverStep ⟨hstate, hrestart, hbound⟩ hinv hok hstep
  · unfold ForkOrchestrator.driverStep at hstep
    rcases hdriver with hpc | hpc | hpc | ⟨snapshot, hpc, hsnapshot⟩
    · rw [hpc] at hstep
      cases hstep
      exact .inr ⟨hnone, rfl, hstate, .inr (.inr (.inr ⟨s.state, by rw [hpending], hstate⟩))⟩
    · rw [hpc] at hstep
      cases hstep
      rcases s.closeTurn_driver with hleave | hnext
      · exact .inr ⟨hnone, hpending, hstate, .inr (.inr (.inl hleave))⟩
      · exact .inr ⟨hnone, hpending, hstate, .inl hnext⟩
    · rw [hpc] at hstep
      cases hstep
    · rw [hpc] at hstep
      cases hstep
      unfold ForkOrchestrator.dispatch
      rw [if_neg (by simp)]
      rcases hsnapshot with rfl | rfl
      all_goals exact .inr ⟨hnone, hpending, hstate, .inr (.inl rfl)⟩

/-- One step, while a stop is due. -/
theorem StopDue.step {t : Nat} (h : StopDue t s) (hinv : s.Inv) {a : OrchStep}
    (hok : s.RestartUndisturbed a) (hstart : s.NoStart a) (hstep : s.step a = some s') : StopDue t s' := by
  cases a with
  | post ev =>
    obtain ⟨hposted, hs'⟩ := Option.ite_none_left_eq_some.mp hstep
    cases hs'
    exact h.postEvent (fun hexit => hposted (.inl hexit)) hstart
  | childDies pid =>
    obtain ⟨-, hs'⟩ := Option.ite_none_right_eq_some.mp hstep
    cases hs'
    refine h.imp_right fun ⟨hnone, hrest⟩ => ⟨?_, hrest⟩
    rintro ⟨p, hp⟩
    refine hnone ⟨p, ?_⟩
    by_cases heq : p = pid
    · subst heq
      simp at hp
    · simpa [heq] using hp
  | requestStop =>
    cases hstep
    exact h
  | driver o => exact h.driverStep hinv hok hstep

end ForkOrchestrator

/-! ## Runs -/

namespace ForkOrchestrator

variable {s s' : ForkOrchestrator}

/-- The invariant holds along a run that no spawn disturbs. -/
theorem Inv.run (h : s.Inv) (hrun : Run ForkOrchestrator.step RestartUndisturbed s s') : s'.Inv :=
  hrun.invariant h fun hinv hok hstep => hinv.step hok hstep

/-- A stop that was accepted stays due until it has been carried out. -/
theorem StopDue.run {t : Nat} (h : StopDue t s) (hinv : s.Inv)
    (hrun : Run ForkOrchestrator.step (fun s a => s.RestartUndisturbed a ∧ s.NoStart a) s s') : StopDue t s' ∧ s'.Inv :=
  hrun.invariant (I := fun u => StopDue t u ∧ u.Inv) ⟨h, hinv⟩ fun hI hok hstep =>
    ⟨hI.1.step hI.2 hok.1 hok.2 hstep, hI.2.step hok.1 hstep⟩

/-- Once the turn is over before which a stop was due, no child is alive. -/
theorem StopDue.not_live {t : Nat} (h : StopDue t s) (hinv : s.Inv)
    (hover : t ≤ s.turns ∨ s.driver = .exited) : ¬ s.Live := by
  have hexit : s.driver = .exited → ¬ s.Live := by
    intro hpc
    have hdriver := hinv.driver
    rwa [DriverInv, hpc] at hdriver
  rcases h with ⟨-, -, hpc | hbound⟩ | ⟨hnone, -⟩
  · exact hexit hpc
  · rcases hover with hturns | hpc
    · have hpos := turnsToStop_pos s.driver s.pendingSpawn
      omega
    · exact hexit hpc
  · exact hnone

end ForkOrchestrator

namespace ForkOrchestrator

/-- One fork, which succeeds; the countdown has not elapsed and the quiescence is refused. -/
def oneFork : OrchStep := .driver ⟨1, false, false, .created⟩

/-- A start, up to the turn after the fork. -/
def startOne : List OrchStep := .post .start :: List.replicate 5 oneFork

/-- A stop: the child dies, and three turns go by. -/
def stopAll : List OrchStep :=
  [oneFork, oneFork, .childDies 1, oneFork, oneFork, oneFork] ++ List.replicate 6 oneFork

/-- A restart during whose application an operator starts the forks; its quiescence is refused,
and the next turn forks. -/
def startDuringRestart : List OrchStep :=
  [.post .restart, oneFork, oneFork, .childDies 1, oneFork, oneFork, .post .start] ++ List.replicate 8 oneFork

end ForkOrchestrator
