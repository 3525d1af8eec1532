-- SUMMARY: The periodic backup of the server: a change is written again exactly when no due write is lost.
import Mathlib.Data.List.Induction
import Mathlib.Tactic.Common

/-!
# Autobackup

Every ten seconds the server asks one gate for each artefact whether it has changed since its last
write. A gate that answers yes takes the counter as written at once; the write comes after it, may
fail or be skipped, and its outcome is only logged. The stock and the analysed pool share one write
and are left alone while an expansion pass runs.
-/

/-- What is backed up. -/
inductive Artefact
  | stock
  | analysed
  | bestBoard
  | knownClients
  deriving DecidableEq, Repr

/-- `BACKUP_OK`, `BACKUP_SKIPPED_MAINTENANCE`, `BACKUP_SKIPPED_EXPANSION`, `BACKUP_ERROR`. -/
inductive BackupResult
  | ok
  | skippedMaintenance
  | skippedExpansion
  | error
  deriving DecidableEq, Repr

/-- `autobackup_gate_t`. -/
structure AutobackupGate where
  lastBack : Nat
  lastUpdates : Nat
  deriving DecidableEq, Repr

/-- `should_autobackup`. -/
def shouldAutobackup (gate : AutobackupGate) (currentUpdates : Nat) : Bool × AutobackupGate :=
  if 6 ≤ gate.lastBack ∧ gate.lastUpdates ≠ currentUpdates then (true, ⟨0, currentUpdates⟩)
  else if gate.lastBack < 6 then (false, { gate with lastBack := gate.lastBack + 1 })
  else (false, gate)

/-- What a turn of `check_server_step` finds: the growth of the counters since the last turn, whether an
expansion pass runs, and what the write of each artefact would return. -/
structure ServerTick where
  growth : Artefact → Nat
  expansionPass : Bool
  write : Artefact → BackupResult

/-- `autobackup_state_t`, the counters of changes, and the counter that the last successful write of
each artefact contains. -/
structure BackupServer where
  backupState : Artefact → AutobackupGate
  updates : Artefact → Nat
  saved : Artefact → Nat

/-- The gates that a turn consults. -/
def gateConsulted (autobackupEnabled expansionPass : Bool) : Artefact → Bool
  | .stock | .analysed => autobackupEnabled && !expansionPass
  | .bestBoard | .knownClients => autobackupEnabled

/-- The writes that follow: one `consistent_backup` for the stock and the analysed pool. -/
def writeAttempted (due : Artefact → Bool) : Artefact → Bool
  | .stock | .analysed => due .stock || due .analysed
  | .bestBoard => due .bestBoard
  | .knownClients => due .knownClients

/-- The part of `check_server_step` that backs up. -/
def checkServerStep (autobackupEnabled : Bool) (s : BackupServer) (t : ServerTick) : BackupServer :=
  let updates := fun a => s.updates a + t.growth a
  let gate := fun a =>
    if gateConsulted autobackupEnabled t.expansionPass a then shouldAutobackup (s.backupState a) (updates a)
    else (false, s.backupState a)
  { backupState := fun a => (gate a).2
    updates := updates
    saved := fun a =>
      if writeAttempted (fun a => (gate a).1) a = true ∧ t.write a = .ok then updates a else s.saved a }

/-- The turns of `check_server` with autobackup on. -/
def checkServer (s : BackupServer) (ticks : List ServerTick) : BackupServer := ticks.foldl (checkServerStep true) s

/-- The server before its first turn. -/
def BackupServer.start : BackupServer := ⟨fun _ => ⟨0, 0⟩, fun _ => 0, fun _ => 0⟩

/-! ## One turn -/

/-- No gate remembers a counter that no successful write contains. -/
def BackupServer.Honest (s : BackupServer) : Prop := ∀ a, (s.backupState a).lastUpdates ≤ s.saved a

/-- No write contains more than there is. -/
def BackupServer.Bounded (s : BackupServer) : Prop := ∀ a, s.saved a ≤ s.updates a

/-- The gate of `a` is consulted, six turns old, and its counter has moved. -/
def GateDue (s : BackupServer) (t : ServerTick) (a : Artefact) : Prop :=
  gateConsulted true t.expansionPass a = true ∧ 6 ≤ (s.backupState a).lastBack ∧
    (s.backupState a).lastUpdates ≠ s.updates a + t.growth a

instance (s : BackupServer) (t : ServerTick) (a : Artefact) : Decidable (GateDue s t a) := by
  unfold GateDue; infer_instance

/-- Each artefact whose gate is due is written, or nothing of it is left to write. -/
def WritesWhatIsDue (s : BackupServer) (t : ServerTick) : Prop :=
  ∀ a, GateDue s t a → t.write a = .ok ∨ s.saved a = s.updates a + t.growth a

section Step

variable {s : BackupServer} {t : ServerTick} {a : Artefact}

/-- A due gate takes the counter as written, and its write is attempted. -/
theorem checkServerStep_due (h : GateDue s t a) :
    (checkServerStep true s t).backupState a = ⟨0, s.updates a + t.growth a⟩ ∧
      (checkServerStep true s t).saved a = if t.write a = .ok then s.updates a + t.growth a else s.saved a := by
  obtain ⟨hconsulted, hdue⟩ := h
  have hgate : shouldAutobackup (s.backupState a) (s.updates a + t.growth a) = (true, ⟨0, s.updates a + t.growth a⟩) :=
    if_pos hdue
  unfold checkServerStep
  dsimp only
  constructor
  · rw [if_pos hconsulted, hgate]
  · cases a <;> simp [writeAttempted, hconsulted, hgate]

/-- A gate that is not due keeps its counter. -/
theorem checkServerStep_notDue (h : ¬GateDue s t a) :
    ((checkServerStep true s t).backupState a).lastUpdates = (s.backupState a).lastUpdates ∧
      ((gateConsulted true t.expansionPass a = true ∧ (s.backupState a).lastBack < 6) →
        ((checkServerStep true s t).backupState a).lastBack = (s.backupState a).lastBack + 1) := by
  unfold checkServerStep
  dsimp only
  by_cases hconsulted : gateConsulted true t.expansionPass a = true
  · have hdue : ¬(6 ≤ (s.backupState a).lastBack ∧ (s.backupState a).lastUpdates ≠ s.updates a + t.growth a) :=
      fun hdue => h ⟨hconsulted, hdue⟩
    rw [if_pos hconsulted, shouldAutobackup, if_neg hdue]
    split
    · exact ⟨rfl, fun _ => rfl⟩
    · rename_i hfull
      exact ⟨rfl, fun hless => absurd hless.2 hfull⟩
  · rw [if_neg hconsulted]
    exact ⟨rfl, fun hless => absurd hless.1 hconsulted⟩

/-- Without a due gate among the two the shared write is not attempted. -/
theorem checkServerStep_idle (hstock : ¬GateDue s t .stock) (hanalysed : ¬GateDue s t .analysed) :
    (checkServerStep true s t).saved .stock = s.saved .stock := by
  have hgate : ∀ {a}, ¬GateDue s t a → (if gateConsulted true t.expansionPass a = true then
      shouldAutobackup (s.backupState a) (s.updates a + t.growth a) else (false, s.backupState a)).1 = false := by
    intro a h
    split
    · rename_i hconsulted
      rw [shouldAutobackup, if_neg fun hdue => h ⟨hconsulted, hdue⟩]
      split <;> rfl
    · rfl
  unfold checkServerStep
  dsimp only
  rw [writeAttempted, hgate hstock, hgate hanalysed, if_neg]
  exact fun h => Bool.noConfusion h.1

theorem checkServerStep_saved (s : BackupServer) (t : ServerTick) (a : Artefact) :
    (checkServerStep true s t).saved a = s.updates a + t.growth a ∨ (checkServerStep true s t).saved a = s.saved a := by
  unfold checkServerStep
  dsimp only
  split
  · exact .inl rfl
  · exact .inr rfl

theorem BackupServer.Bounded.step (h : s.Bounded) (t : ServerTick) : (checkServerStep true s t).Bounded := by
  intro a
  have hle := h a
  have hupdates : (checkServerStep true s t).updates a = s.updates a + t.growth a := rfl
  rcases checkServerStep_saved s t a with hsaved | hsaved <;> omega

/-- A turn leaves the gates honest exactly when it writes what is due. -/
theorem BackupServer.Honest.step_iff (h : s.Honest) (hbounded : s.Bounded) :
    (checkServerStep true s t).Honest ↔ WritesWhatIsDue s t := by
  apply forall_congr'
  intro a
  have hle := hbounded a
  by_cases hdue : GateDue s t a
  · obtain ⟨hgate, hsaved⟩ := checkServerStep_due hdue
    rw [hgate, hsaved]
    dsimp only
    by_cases hok : t.write a = .ok
    · rw [if_pos hok]
      exact iff_of_true (Nat.le_refl _) fun _ => .inl hok
    · rw [if_neg hok]
      constructor
      · intro hless _
        exact .inr (by omega)
      · intro hwritten
        exact Nat.le_of_eq ((hwritten hdue).resolve_left hok).symm
  · have hkept : ((checkServerStep true s t).backupState a).lastUpdates ≤ (checkServerStep true s t).saved a := by
      have hhonest := h a
      rw [(checkServerStep_notDue hdue).1]
      rcases checkServerStep_saved s t a with hsaved | hsaved <;> omega
    exact iff_of_true hkept fun hdue' => absurd hdue' hdue

end Step

/-! ## Turns without traffic -/

/-- A turn without traffic and without an expansion pass, in which every write succeeds. -/
structure ServerTick.Quiet (t : ServerTick) : Prop where
  growth : ∀ a, t.growth a = 0
  expansionPass : t.expansionPass = false
  write : ∀ a, t.write a = .ok

/-- Seven turns without traffic write every change. -/
def BackupServer.CatchesUp (s : BackupServer) : Prop :=
  ∀ later, 7 ≤ later.length → (∀ t ∈ later, t.Quiet) → ∀ a, (checkServer s later).saved a = s.updates a

section Quiet

variable {s : BackupServer} {t : ServerTick} {a : Artefact}

theorem ServerTick.Quiet.consulted (ht : t.Quiet) (a : Artefact) : gateConsulted true t.expansionPass a = true := by
  rw [ht.expansionPass]
  cases a <;> rfl

theorem ServerTick.Quiet.updates (ht : t.Quiet) (s : BackupServer) :
    (checkServerStep true s t).updates = s.updates := by
  funext a
  show s.updates a + t.growth a = s.updates a
  rw [ht.growth a, Nat.add_zero]

theorem ServerTick.Quiet.writes (ht : t.Quiet) (s : BackupServer) : WritesWhatIsDue s t := fun a _ => .inl (ht.write a)

/-- What is written stays written. -/
theorem ServerTick.Quiet.saved (ht : t.Quiet) (h : s.saved a = s.updates a) :
    (checkServerStep true s t).saved a = s.updates a := by
  rcases checkServerStep_saved s t a with hsaved | hsaved
  · rw [hsaved, ht.growth a, Nat.add_zero]
  · rw [hsaved, h]

/-- A pending change is written at once when the gate is six turns old, or the gate grows older. -/
theorem ServerTick.Quiet.pending (ht : t.Quiet) (h : s.Honest) (hpending : s.saved a < s.updates a) :
    (checkServerStep true s t).saved a = s.updates a ∨
      (s.backupState a).lastBack < 6 ∧
        ((checkServerStep true s t).backupState a).lastBack = (s.backupState a).lastBack + 1 := by
  have hmoved : (s.backupState a).lastUpdates ≠ s.updates a + t.growth a := by
    have hhonest := h a
    rw [ht.growth a, Nat.add_zero]
    omega
  by_cases hold : 6 ≤ (s.backupState a).lastBack
  · have hdue : GateDue s t a := ⟨ht.consulted a, hold, hmoved⟩
    refine .inl ?_
    rw [(checkServerStep_due hdue).2, if_pos (ht.write a), ht.growth a, Nat.add_zero]
  · have hnot : ¬GateDue s t a := fun hdue => hold hdue.2.1
    have hless := Nat.not_le.mp hold
    exact .inr ⟨hless, (checkServerStep_notDue hnot).2 ⟨ht.consulted a, hless⟩⟩

/-- The change of an artefact is written once its gate has grown old enough. -/
theorem checkServer_quiet {later : List ServerTick} (hquiet : ∀ t ∈ later, t.Quiet) (h : s.Honest) (hbounded : s.Bounded)
    (henough : s.saved a = s.updates a ∨ 6 - (s.backupState a).lastBack < later.length) :
    (checkServer s later).saved a = s.updates a := by
  induction later generalizing s with
  | nil => exact henough.resolve_right (Nat.not_lt_zero _)
  | cons t later ih =>
    obtain ⟨ht, hlater⟩ := List.forall_mem_cons.mp hquiet
    have hhonest := (h.step_iff hbounded).mpr (ht.writes s)
    have hnext := ih hlater hhonest (hbounded.step t)
    rw [ht.updates] at hnext
    apply hnext
    by_cases hsaved : s.saved a = s.updates a
    · exact .inl (ht.saved hsaved)
    · have hpending : s.saved a < s.updates a := Nat.lt_of_le_of_ne (hbounded a) hsaved
      have hlength := henough.resolve_left hsaved
      rw [List.length_cons] at hlength
      rcases ht.pending h hpending with hwritten | ⟨hyoung, holder⟩
      · exact .inl hwritten
      · refine .inr ?_
        rw [holder]
        omega

theorem BackupServer.Honest.catchesUp (h : s.Honest) (hbounded : s.Bounded) : s.CatchesUp := by
  intro later hlength hquiet a
  apply checkServer_quiet hquiet h hbounded
  exact .inr (by omega)

end Quiet

/-! ## Every run -/

theorem checkServer_append (s : BackupServer) (ticks ticks' : List ServerTick) :
    checkServer s (ticks ++ ticks') = checkServer (checkServer s ticks) ticks' := List.foldl_append

theorem checkServer_start_bounded (ticks : List ServerTick) : (checkServer .start ticks).Bounded := by
  induction ticks using List.reverseRecOn with
  | nil => exact fun _ => Nat.le_refl 0
  | append_singleton ticks t ih =>
    rw [checkServer_append]
    exact ih.step t

/-- Along a run no gate takes a lost write for a saved one, and every change is written again within
seven turns, exactly when each turn of the run writes what is due. -/
theorem checkServer_keepsChanges_iff (ticks : List ServerTick) :
    (∀ done rest, ticks = done ++ rest → (checkServer .start done).Honest ∧ (checkServer .start done).CatchesUp) ↔
      ∀ done t rest, ticks = done ++ t :: rest → WritesWhatIsDue (checkServer .start done) t := by
  constructor
  · intro hkeeps done t rest hticks
    have hbefore := (hkeeps done (t :: rest) hticks).1
    have hafter := (hkeeps (done ++ [t]) rest (by rw [hticks, List.append_assoc, List.singleton_append])).1
    rw [checkServer_append] at hafter
    exact (hbefore.step_iff (checkServer_start_bounded done)).mp hafter
  · intro hwrites
    have hhonest : ∀ done rest, ticks = done ++ rest → (checkServer .start done).Honest := by
      intro done
      induction done using List.reverseRecOn with
      | nil => exact fun _ _ _ => Nat.le_refl 0
      | append_singleton done t ih =>
        intro rest hticks
        rw [List.append_assoc, List.singleton_append] at hticks
        have hbefore := ih (t :: rest) hticks
        rw [checkServer_append]
        exact (hbefore.step_iff (checkServer_start_bounded done)).mpr (hwrites done t rest hticks)
    intro done rest hticks
    have hdone := hhonest done rest hticks
    exact ⟨hdone, hdone.catchesUp (checkServer_start_bounded done)⟩

/-- A turn in which only the stock has grown, as the write of the stock ends. -/
def ServerTick.stock (growth : Nat) (write : BackupResult) : ServerTick :=
  ⟨fun a => if a = .stock then growth else 0, false, fun a => if a = .stock then write else .ok⟩

/-- Six turns later the stock has changed three times and its write is skipped. -/
def skippedBackup : List ServerTick := List.replicate 6 (.stock 0 .ok) ++ [.stock 3 .skippedMaintenance]

/-- The gate takes the skipped write for a saved one, and no number of further turns writes it. -/
theorem skippedBackup_lost :
    ((checkServer .start skippedBackup).backupState .stock).lastUpdates = 3 ∧
      ∀ n, (checkServer .start (skippedBackup ++ List.replicate n (.stock 0 .ok))).updates .stock = 3 ∧
        (checkServer .start (skippedBackup ++ List.replicate n (.stock 0 .ok))).saved .stock = 0 := by
  refine ⟨rfl, fun n => ?_⟩
  -- Neither of the two gates that lead to a write of the stock is ever due.
  suffices h : ∀ s : BackupServer, (s.backupState .stock).lastUpdates = s.updates .stock →
      (s.backupState .analysed).lastUpdates = s.updates .analysed →
      (checkServer s (List.replicate n (.stock 0 .ok))).updates .stock = s.updates .stock ∧
        (checkServer s (List.replicate n (.stock 0 .ok))).saved .stock = s.saved .stock by
    rw [checkServer_append]
    exact h _ rfl rfl
  induction n with
  | zero => exact fun s _ _ => ⟨rfl, rfl⟩
  | succ n ih =>
    intro s hstock hanalysed
    have hnotDue : ∀ {a}, (s.backupState a).lastUpdates = s.updates a → (ServerTick.stock 0 .ok).growth a = 0 →
        ¬GateDue s (.stock 0 .ok) a := by
      intro a heq hgrowth hdue
      exact hdue.2.2 (by rw [heq, hgrowth, Nat.add_zero])
    have hstock' := hnotDue hstock rfl
    have hanalysed' := hnotDue hanalysed rfl
    have hnext := ih (checkServerStep true s (.stock 0 .ok)) ((checkServerStep_notDue hstock').1.trans hstock)
      ((checkServerStep_notDue hanalysed').1.trans hanalysed)
    rw [checkServerStep_idle hstock' hanalysed'] at hnext
    exact hnext
