-- SUMMARY: The automatic mix of search and prune forks: when a change of dosage keeps a search fork running.
import EternityII.Base.Runs
import Mathlib.Algebra.Ring.Nat
import Mathlib.Data.List.Range

/-!
# The automatic mix of roles

Every ten seconds the server may change by one the dosage that it sends to all sessions: how
many forks of each session prune the stock instead of searching. Its decision reads the forks
of the fleet by the mode that each session was launched in; the dosage converts forks inside
each session.
-/

/-! ## Roles inside a session -/

/-- `CLIENT_MODE_SEARCH`, `CLIENT_MODE_PRUNER`, `CLIENT_MODE_GPU_PRUNER`. -/
inductive ClientMode
  | search
  | pruner
  | gpuPruner
  deriving DecidableEq, Repr

/-- `fork_role_t`. -/
inductive ForkRole
  | search
  | prune
  deriving DecidableEq, Repr

/-- `resolve_pruner_forks`. -/
def resolvePrunerForks (prunerForksRequested : Int) (prunerMode : Bool) (nbForks : Int) : Int :=
  if nbForks ≤ 0 then 0
  else
    let n := if 0 ≤ prunerForksRequested then prunerForksRequested else if prunerMode then nbForks else 0
    let n := if n < 0 then 0 else n
    if n > nbForks then nbForks else n

/-- `fork_role_for`. -/
def forkRoleFor (forkSeq nbForks prunerForks : Int) : ForkRole :=
  if forkSeq < 0 ∨ nbForks ≤ 0 ∨ nbForks ≤ forkSeq then .search
  else
    let prunerForks := if prunerForks < 0 then 0 else prunerForks
    let prunerForks := if prunerForks > nbForks then nbForks else prunerForks
    if nbForks - prunerForks ≤ forkSeq then .prune else .search

/-- A session of the control registry: its machine, what its client announced, and the number of
prune forks among its forks. -/
structure ControlSession where
  machineUid : Nat
  mode : ClientMode
  nbForks : Int
  prunerForks : Int
  deriving DecidableEq, Repr

/-- The forks of a session that search. -/
def ControlSession.searchForks (s : ControlSession) : Nat :=
  (List.range s.nbForks.toNat).countP fun forkSeq : Nat => forkRoleFor forkSeq s.nbForks s.prunerForks = .search

/-- A session applies a dosage. -/
def ControlSession.applyDosage (s : ControlSession) (prunerForks : Int) : ControlSession :=
  { s with prunerForks := resolvePrunerForks prunerForks (s.mode ≠ .search) s.nbForks }

/-- `control_registry_count_role_forks`: by the mode of the launch. -/
def controlRegistryCountRoleForks (sessions : List ControlSession) : Int × Int :=
  sessions.foldl (fun (nbSearch, nbPrune) s =>
    if s.mode = .search then (nbSearch + s.nbForks, nbPrune) else (nbSearch, nbPrune + s.nbForks)) (0, 0)

/-! ## The decision -/

/-- `ROLE_MIX_MIN_TICKS_DEFAULT`. -/
def roleMixMinTicksDefault : Int := 12

/-- `ROLE_MIX_MAX_DOSAGE`. -/
def roleMixMaxDosage : Int := 8

/-- `ROLE_MIX_BACKLOG_FLOOR`. -/
def roleMixBacklogFloor : UInt64 := 8

/-- `MAX_CONTROL_SESSIONS`. -/
def maxControlSessions : Nat := 64

/-- `MAX_KNOWN_CLIENTS`. -/
def maxKnownClients : Nat := 4 * maxControlSessions

/-- `role_mix_decision_t`. -/
inductive RoleMixDecision
  | decreasePrune
  | keep
  | increasePrune
  deriving DecidableEq, Repr

/-- The value of the enumeration. -/
def RoleMixDecision.toInt : RoleMixDecision → Int
  | .decreasePrune => -1
  | .keep => 0
  | .increasePrune => 1

/-- `compute_desired_role_mix`. -/
def computeDesiredRoleMix (uncheckedStock checkedStock : UInt64) (ramPressureHigh : Bool)
    (searchStarvedDelta pruneStarvedDelta : UInt64) (nbSearch nbPrune : Int) : RoleMixDecision :=
  if nbSearch ≤ 0 ∧ 0 < nbPrune then .decreasePrune
  else if nbSearch + nbPrune ≤ 0 then .keep
  else if 0 < searchStarvedDelta ∨ 0 < pruneStarvedDelta then
    if 0 < nbPrune then .decreasePrune else .keep
  else
    -- "never 0 searcher, never 100% pruner"
    let guardMinSearch : Bool := nbSearch ≤ 1
    if guardMinSearch = false ∧ ramPressureHigh = true then .increasePrune
    else if guardMinSearch = false ∧ roleMixBacklogFloor < uncheckedStock ∧
        2 * checkedStock < uncheckedStock then .increasePrune
    else if 0 < nbPrune ∧ roleMixBacklogFloor < checkedStock ∧ 2 * uncheckedStock < checkedStock then
      .decreasePrune
    else .keep

/-! ## The fleet -/

/-- `auto_role_mix_state_t`. -/
structure AutoRoleMixState where
  lastSearchStarved : UInt64
  lastPruneStarved : UInt64
  currentDosage : Int
  ticksSinceChange : Int
  deriving DecidableEq, Repr

/-- The sessions, `g_desired_roles`, and the state of the policy. -/
structure Fleet where
  sessions : List ControlSession
  desiredRoles : List (Nat × Int)
  mix : AutoRoleMixState
  deriving DecidableEq, Repr

/-- What a turn of `check_server_step` finds: the stocks, the memory pressure, the counters of
starved requests, and which sessions have room for two commands in their queue. -/
structure RoleMixTick where
  uncheckedStock : UInt64
  checkedStock : UInt64
  ramPressureHigh : Bool
  searchStarved : UInt64
  pruneStarved : UInt64
  accepts : Nat → Bool

/-- What may happen to the fleet. -/
inductive FleetStep
  | connect (machineUid : Nat) (mode : ClientMode) (nbForks prunerForksRequested : Int)
  | disconnect (index : Nat)
  | tick (t : RoleMixTick)

/-- `desired_role_set_locked`. -/
def desiredRoleSet (roles : List (Nat × Int)) (machineUid : Nat) (prunerForks : Int) : List (Nat × Int) :=
  if roles.any fun r => r.1 = machineUid then
    roles.map fun r => if r.1 = machineUid then (machineUid, prunerForks) else r
  else if roles.length < maxKnownClients then roles ++ [(machineUid, prunerForks)]
  else roles

namespace Fleet

/-- The server at its start. -/
def start : Fleet := ⟨[], [], ⟨0, 0, 0, 0⟩⟩

/-- The search forks that really run. -/
def searchForks (f : Fleet) : Nat := (f.sessions.map ControlSession.searchForks).sum

/-- `control_registry_register`: the dosage wanted for the machine replaces the one that the client
was launched with. -/
def register (f : Fleet) (machineUid : Nat) (mode : ClientMode) (nbForks prunerForksRequested : Int) : Fleet :=
  if f.sessions.length < maxControlSessions then
    let requested := (f.desiredRoles.lookup machineUid).getD prunerForksRequested
    { f with sessions := f.sessions ++ [(⟨machineUid, mode, nbForks, 0⟩ : ControlSession).applyDosage requested] }
  else f

/-- `control_registry_apply_role_dosage` without a target. -/
def applyRoleDosage (f : Fleet) (accepts : Nat → Bool) (prunerForks : Int) : Fleet :=
  { f with
    sessions := f.sessions.mapIdx fun i s => if accepts i then s.applyDosage prunerForks else s
    desiredRoles := (f.sessions.zipIdx.filter fun si => accepts si.2).foldl
      (fun roles si => desiredRoleSet roles si.1.machineUid prunerForks) f.desiredRoles }

/-- What the policy decides on a turn. -/
def decision (f : Fleet) (t : RoleMixTick) : RoleMixDecision :=
  let (nbSearch, nbPrune) := controlRegistryCountRoleForks f.sessions
  computeDesiredRoleMix t.uncheckedStock t.checkedStock t.ramPressureHigh
    (t.searchStarved - f.mix.lastSearchStarved) (t.pruneStarved - f.mix.lastPruneStarved) nbSearch nbPrune

/-- The dosage one step further, within the bounds of the policy. -/
def clampDosage (currentDosage : Int) (decision : RoleMixDecision) : Int :=
  let nextDosage := currentDosage + decision.toInt
  let nextDosage := if nextDosage < 0 then 0 else nextDosage
  if nextDosage > roleMixMaxDosage then roleMixMaxDosage else nextDosage

/-- The automatic mix in one turn of `check_server_step`. -/
def tick (f : Fleet) (t : RoleMixTick) : Fleet :=
  let decision := f.decision t
  let mix := { f.mix with
    lastSearchStarved := t.searchStarved
    lastPruneStarved := t.pruneStarved
    ticksSinceChange := f.mix.ticksSinceChange + 1 }
  let f := { f with mix := mix }
  if decision ≠ .keep ∧ roleMixMinTicksDefault ≤ mix.ticksSinceChange then
    let nextDosage := clampDosage mix.currentDosage decision
    if nextDosage ≠ mix.currentDosage then
      { f.applyRoleDosage t.accepts nextDosage with
        mix := { mix with currentDosage := nextDosage, ticksSinceChange := 0 } }
    else f
  else f

/-- One event. -/
def step (f : Fleet) : FleetStep → Option Fleet
  | .connect machineUid mode nbForks prunerForksRequested =>
    some (f.register machineUid mode nbForks prunerForksRequested)
  | .disconnect index => some { f with sessions := f.sessions.eraseIdx index }
  | .tick t => some (f.tick t)

/-- A turn is safe: when it moves the dosage while some fork searches, some session that takes the
new dosage has more forks than that, or some session that does not take it has a search fork. -/
def TickSafe (f : Fleet) (t : RoleMixTick) : Prop :=
  f.decision t ≠ .keep → roleMixMinTicksDefault ≤ f.mix.ticksSinceChange + 1 →
    clampDosage f.mix.currentDosage (f.decision t) ≠ f.mix.currentDosage → 0 < f.searchForks →
      ∃ i s, f.sessions[i]? = some s ∧
        if t.accepts i then clampDosage f.mix.currentDosage (f.decision t) < s.nbForks else 0 < s.searchForks

/-- Sessions come, none goes, and every turn is safe. -/
def SafeStep (f : Fleet) : FleetStep → Prop
  | .connect .. => True
  | .disconnect _ => False
  | .tick t => f.TickSafe t

end Fleet

/-! ## Search forks -/

/-- A session has a search fork when it has more forks than prune forks. -/
theorem ControlSession.searchForks_pos {s : ControlSession} :
    0 < s.searchForks ↔ 0 < s.nbForks ∧ s.prunerForks < s.nbForks := by
  rw [searchForks, List.countP_pos_iff]
  simp only [List.mem_range, decide_eq_true_eq]
  constructor
  · rintro ⟨forkSeq, hseq, hrole⟩
    unfold forkRoleFor at hrole
    have hpos : 0 < s.nbForks := by omega
    refine ⟨hpos, ?_⟩
    by_contra hnot
    rw [if_neg (by omega)] at hrole
    dsimp only at hrole
    rw [if_pos] at hrole
    · cases hrole
    · split <;> split <;> omega
  · rintro ⟨hpos, hlt⟩
    refine ⟨0, by omega, ?_⟩
    unfold forkRoleFor
    rw [if_neg (by omega)]
    dsimp only
    rw [if_neg]
    split <;> split <;> omega

/-- A session that takes a dosage keeps a search fork when it has more forks than that. -/
theorem ControlSession.applyDosage_searchForks_pos {s : ControlSession} {d : Int} (hd : 0 ≤ d) :
    0 < (s.applyDosage d).searchForks ↔ d < s.nbForks := by
  rw [searchForks_pos]
  show 0 < s.nbForks ∧ resolvePrunerForks d _ s.nbForks < s.nbForks ↔ _
  unfold resolvePrunerForks
  by_cases hpos : s.nbForks ≤ 0
  · rw [if_pos hpos]
    omega
  · rw [if_neg hpos, if_pos hd]
    dsimp only
    rw [if_neg (Int.not_lt.mpr hd)]
    split <;> omega

namespace Fleet

variable {f f' : Fleet} {t : RoleMixTick}

theorem searchForks_pos : 0 < f.searchForks ↔ ∃ (i : Nat) (s : ControlSession), f.sessions[i]? = some s ∧ 0 < s.searchForks := by
  rw [searchForks, List.sum_pos_iff_exists_pos_nat]
  simp only [List.mem_map]
  constructor
  · rintro ⟨n, ⟨s, hs, rfl⟩, hpos⟩
    obtain ⟨i, hi⟩ := List.mem_iff_getElem?.mp hs
    exact ⟨i, s, hi, hpos⟩
  · rintro ⟨i, s, hi, hpos⟩
    exact ⟨s.searchForks, ⟨s, List.mem_of_getElem? hi, rfl⟩, hpos⟩

theorem clampDosage_nonneg (current : Int) (decision : RoleMixDecision) : 0 ≤ clampDosage current decision := by
  unfold clampDosage roleMixMaxDosage
  dsimp only
  split <;> split <;> omega

/-- The search forks after a dosage has been applied. -/
theorem applyRoleDosage_searchForks_pos (f : Fleet) (accepts : Nat → Bool) {d : Int} (hd : 0 ≤ d) :
    0 < (f.applyRoleDosage accepts d).searchForks ↔
      ∃ i s, f.sessions[i]? = some s ∧ if accepts i then d < s.nbForks else 0 < s.searchForks := by
  rw [searchForks_pos]
  simp only [applyRoleDosage, List.getElem?_mapIdx, Option.map_eq_some_iff]
  constructor
  · rintro ⟨i, -, ⟨s, hs, rfl⟩, hpos⟩
    refine ⟨i, s, hs, ?_⟩
    split at hpos
    · rwa [if_pos ‹_›, ← ControlSession.applyDosage_searchForks_pos hd]
    · rwa [if_neg ‹_›]
  · rintro ⟨i, s, hs, hpos⟩
    refine ⟨i, _, ⟨s, hs, rfl⟩, ?_⟩
    split at hpos
    · rwa [if_pos ‹_›, ControlSession.applyDosage_searchForks_pos hd]
    · rwa [if_neg ‹_›]

/-- A turn keeps a search fork exactly when it is safe. -/
theorem tick_searchForks_pos : (0 < f.searchForks → 0 < (f.tick t).searchForks) ↔ f.TickSafe t := by
  unfold tick TickSafe
  dsimp only
  split
  · rename_i hchange
    split
    · rename_i hmoves
      have hd := clampDosage_nonneg f.mix.currentDosage (f.decision t)
      have happlied : _ ↔ _ := f.applyRoleDosage_searchForks_pos t.accepts hd
      constructor
      · intro h _ _ _ hpos
        exact happlied.mp (h hpos)
      · intro h hpos
        exact happlied.mpr (h hchange.1 hchange.2 hmoves hpos)
    · rename_i hstays
      exact iff_of_true (fun hpos => hpos) fun _ _ hmoves => absurd hmoves hstays
  · rename_i hkeep
    exact iff_of_true (fun hpos => hpos) fun hdecision hticks => absurd ⟨hdecision, hticks⟩ hkeep

/-- A session that connects takes no search fork away. -/
theorem register_searchForks (f : Fleet) (machineUid : Nat) (mode : ClientMode)
    (nbForks prunerForksRequested : Int) :
    f.searchForks ≤ (f.register machineUid mode nbForks prunerForksRequested).searchForks := by
  unfold register
  split
  · simp [searchForks]
  · exact le_rfl

/-- One event keeps a search fork. -/
theorem step_searchForks_pos {a : FleetStep} (hpos : 0 < f.searchForks) (hsafe : f.SafeStep a)
    (hstep : f.step a = some f') : 0 < f'.searchForks := by
  cases a with
  | connect machineUid mode nbForks prunerForksRequested =>
    cases hstep
    exact Nat.lt_of_lt_of_le hpos (register_searchForks ..)
  | disconnect index => exact absurd hsafe id
  | tick t =>
    cases hstep
    exact tick_searchForks_pos.mpr hsafe hpos

end Fleet

/-! ## The policy -/

/-- For every fleet, every turn and every run from it: a turn leaves a search fork running, when one
ran, exactly when it is safe; and along a run of connections and safe turns a search fork that runs is
followed by one that runs. -/
theorem fleet_keepsSearchFork (f : Fleet) :
    (∀ t, (0 < f.searchForks → 0 < (f.tick t).searchForks) ↔ f.TickSafe t) ∧
      ∀ f', Run Fleet.step Fleet.SafeStep f f' → 0 < f.searchForks → 0 < f'.searchForks := by
  refine ⟨fun t => Fleet.tick_searchForks_pos, ?_⟩
  intro f' hrun hpos
  exact hrun.invariant (I := fun g => 0 < g.searchForks) hpos fun hI hsafe hstep =>
    Fleet.step_searchForks_pos hI hsafe hstep

namespace Fleet

/-- A turn under memory pressure, with room in every queue. -/
def underPressure : RoleMixTick := ⟨0, 0, true, 0, 0, fun _ => true⟩

/-- One session with two forks connects, and twenty-three turns go by under memory pressure. -/
def oneSession : List FleetStep := .connect 0 .search 2 (-1) :: List.replicate 23 (.tick underPressure)

end Fleet

/-- The next turn takes the last search fork of the fleet: the count that the policy guards is of two
search forks. -/
theorem fleet_loses_searchFork : ∃ f, Run Fleet.step (fun _ _ => True) .start f ∧
    f.decision Fleet.underPressure = .increasePrune ∧ f.searchForks = 1 ∧
      (f.tick Fleet.underPressure).searchForks = 0 := by
  have hrun : ((Run.exec Fleet.step .start Fleet.oneSession).map fun f =>
      (f.decision Fleet.underPressure, f.searchForks, (f.tick Fleet.underPressure).searchForks)) =
      some (.increasePrune, 1, 0) := by decide +kernel
  obtain ⟨f, hexec, hf⟩ := Option.map_eq_some_iff.mp hrun
  simp only [Prod.mk.injEq] at hf
  exact ⟨f, Run.of_exec (fun _ _ _ => trivial) hexec, hf⟩
