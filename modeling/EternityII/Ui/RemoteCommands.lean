-- SUMMARY: The dispatchers of the commands that come over the network, and when they do what the console does.
import EternityII.Ui.CommandLines

/-!
# Remote commands

A command that comes over the network does not go through the console, whose `strtok` is not reentrant. Two
dispatchers handle it by hand. Each command they handle does what its interpreter does; one command is
missing from them, and one accepts an argument that its interpreter refuses.
-/

/-! ## Handlers -/

section Handlers

variable {σ : Type}

/-- A handler that sets a number. -/
def setRemote (set : Int → ControlState σ → ControlState σ) : Interpreter AdminCmdResult σ := fun _ save s =>
  match strtok save with
  | some (arg, _) => (.ok, set (atoiInt arg) s)
  | none => (.badArgs, s)

/-- A handler that calls an interpreter and reports its failure. -/
def interpreterRemote (run : ControlState σ → CommandOutcome Int σ) (s : ControlState σ) : CommandOutcome AdminCmdResult σ :=
  (if (run s).1 = 0 then .ok else .badArgs, (run s).2)

/-- A handler that calls an operation, whatever it answers. -/
def callRemote (op : ControlState σ → CommandOutcome Int σ) (s : ControlState σ) : CommandOutcome AdminCmdResult σ := (.ok, (op s).2)

/-- `admin_remote_clients_command`. -/
def adminRemoteClientsCommand : Interpreter AdminCmdResult σ := fun ops rest s =>
  match controlTarget rest with
  | none => (.badArgs, s)
  | some (target, rest) =>
    if ¬ controlCommandAllowed rest then (.forbidden, s)
    else
      match target with
      | some target =>
        let (posted, s) := ops.sendCommandTo target rest s
        (if posted = 1 then .ok else .badArgs, s)
      | none => (.ok, ops.broadcastCommand rest s)

/-- `admin_remote_clients_roles`. -/
def adminRemoteClientsRoles : Interpreter AdminCmdResult σ := fun ops rest s =>
  match controlTarget rest with
  | none => (.badArgs, s)
  | some (target, rest) =>
    match rolesCount rest with
    | none => (.badArgs, s)
    | some n =>
      let (touched, s) := ops.applyRoleDosage target n s
      (if target.isSome ∧ touched ≠ 1 then .badArgs else .ok, s)

/-- `admin_remote_clients_work`, on the word that `strtok_r` gives it. -/
def adminRemoteClientsWork : Interpreter AdminCmdResult σ := fun ops save s =>
  match strtok save with
  | none => (.badArgs, s)
  | some (target, _) => (if ops.resolveClientUid target s ≠ 1 then .badArgs else .ok, s)

/-- `admin_remote_config`. -/
def adminRemoteConfig : Interpreter AdminCmdResult σ := fun ops rest s =>
  let rest := rest.dropWhile (· = ' ')
  if s.server then if rest = [] then (.ok, s) else (.forbidden, s)
  else if rest = [] then (.ok, s)
  else
    match rest.dropWhile (· ≠ ' ') with
    | [] => (.badArgs, s)
    | _ :: after =>
      let value := after.dropWhile (· = ' ')
      if value = [] then (.badArgs, s)
      else
        let (status, s) := ops.stageConfigLine (configLine (rest.takeWhile (· ≠ ' ')) (value.takeWhile (· ≠ ' '))) s
        (if status = .set ∨ status = .ignored then .ok else .badArgs, s)

/-- The branch `pause`. -/
def pauseRemote : Interpreter AdminCmdResult σ := fun ops _ s =>
  (.ok, ops.broadcastCommand "pause".toList { s with request := adminPauseTransition s.request true })

/-- The branch `resume`. -/
def resumeRemote : Interpreter AdminCmdResult σ := fun ops _ s =>
  (.ok, ops.broadcastCommand "resume".toList { s with request := adminPauseTransition s.request false })

/-- The branch `sortDesc`. -/
def sortDescRemote : Interpreter AdminCmdResult σ := fun ops save s =>
  match strtok save with
  | some (arg, _) => (.ok, ops.sortDMono (atoiInt arg) s)
  | none => (.ok, (ops.sortDescending s).2)

/-- The branch `rebalance`: an argument that is no positive number is passed over. -/
def rebalanceRemote : Interpreter AdminCmdResult σ := fun ops save s =>
  let budget :=
    match strtok save with
    | some (arg, _) => if atoiInt arg > 0 then atoiInt arg else s.rebalanceBudget
    | none => s.rebalanceBudget
  (.ok, (ops.rebalanceStep budget s).2)

/-- The branch `stockMaxRam`. -/
def stockMaxRamRemote : Interpreter AdminCmdResult σ := fun ops save s =>
  match strtok save with
  | some (arg, _) =>
    let mo := atoiInt arg
    (.ok, ops.configureRamLimit mo { s with stockMaxRamMb := mo })
  | none => (.badArgs, s)

/-- The branch `spill`. -/
def spillRemote : Interpreter AdminCmdResult σ := fun ops save s =>
  match strtok save with
  | some (arg, _) => if atoiInt arg ≤ 0 then (.badArgs, s) else (.ok, (ops.spillStep (atoiInt arg) s).2)
  | none => (.ok, (ops.spillStep stockSpillBlockPackets s).2)

/-! ## The dispatchers -/

/-- The branches of `admin_apply_remote_command`, in their order. -/
def remoteBranches (σ : Type) : List (List Char × Interpreter AdminCmdResult σ) :=
  [("clientsCommand".toList, adminRemoteClientsCommand),
   ("clientsCmd".toList, adminRemoteClientsCommand),
   ("clientsRoles".toList, adminRemoteClientsRoles),
   ("clientsWork".toList, adminRemoteClientsWork),
   ("config".toList, adminRemoteConfig),
   ("start".toList, fun ops save => interpreterRemote (startInterpreter ops save)),
   ("stopForks".toList, fun ops save => interpreterRemote (stopForksInterpreter ops save)),
   ("configApply".toList, fun ops save => interpreterRemote (configApplyInterpreter ops save)),
   ("configSave".toList, fun ops save => interpreterRemote (configSaveInterpreter ops save)),
   ("pause".toList, pauseRemote),
   ("resume".toList, resumeRemote),
   ("limit".toList, setRemote fun n s => { s with maxSearchBySec := n }),
   ("maxStockByThread".toList, setRemote fun n s => { s with maxStockByThread := n }),
   ("prunerBatch".toList, setRemote fun n s => { s with prunerBatchSize := prunerBatchClamp n }),
   ("prunerDfsBudget".toList, setRemote fun n s => { s with prunerDfsBudget := prunerDfsBudgetClamp n })]

/-- The branches of `admin_apply_privileged_command`, in their order. -/
def privilegedBranches (σ : Type) : List (List Char × Interpreter AdminCmdResult σ) :=
  [("backup".toList, fun ops save => callRemote (ops.backupApply ((strtok save).map Prod.fst))),
   ("restore".toList, fun ops save => callRemote (ops.restoreWithArgs ((strtok save).map Prod.fst)
      ((strtok save).bind fun file => (strtok file.2).map Prod.fst))),
   ("sortAsc".toList, fun ops _ => callRemote ops.sortAscending),
   ("sortAscFiles".toList, fun ops _ => callRemote ops.sortAscendingFiles),
   ("sortDesc".toList, sortDescRemote),
   ("sortDescFiles".toList, fun ops _ => callRemote ops.sortDescendingFiles),
   ("sortDescMulti".toList, fun ops _ => callRemote ops.sortDescendingMthread),
   ("split".toList, fun ops _ => callRemote ops.splitDatas),
   ("regroup".toList, fun ops _ => callRemote ops.regroupDatas),
   ("rebalance".toList, rebalanceRemote),
   ("stockMaxRam".toList, stockMaxRamRemote),
   ("spill".toList, spillRemote)]

/-- The branch of a word; without one, the arguments are bad. -/
def takeBranch (branches : List (List Char × Interpreter AdminCmdResult σ)) (ops : Operations σ) (word save : List Char)
    (s : ControlState σ) : CommandOutcome AdminCmdResult σ :=
  match branches.lookup word with
  | some run => run ops save s
  | none => (.badArgs, s)

/-- `admin_apply_remote_command`. -/
def adminApplyRemoteCommand (ops : Operations σ) (line : List Char) (s : ControlState σ) : CommandOutcome AdminCmdResult σ :=
  if ¬ controlCommandAllowed line then (.forbidden, s)
  else
    match strtok line with
    | none => (.badArgs, s)
    | some (word, save) =>
      if s.server ∧ clientOnlyCommands.contains word then (.forbidden, s) else takeBranch (remoteBranches σ) ops word save s

/-- `admin_apply_privileged_command`. -/
def adminApplyPrivilegedCommand (ops : Operations σ) (line : List Char) (s : ControlState σ) : CommandOutcome AdminCmdResult σ :=
  if controlCommandAllowed line then adminApplyRemoteCommand ops line s
  else if ¬ controlCommandPrivileged line then (.forbidden, s)
  else
    match strtok line with
    | none => (.badArgs, s)
    | some (word, save) => takeBranch (privilegedBranches σ) ops word save s

end Handlers

/-! ## Agreement -/

/-- Both leave the same state, or both refuse. -/
def Agree {σ : Type} (remote : CommandOutcome AdminCmdResult σ) (console : CommandOutcome Int σ) : Prop :=
  remote.2 = console.2 ∨ (remote.1 ≠ .ok ∧ console.1 ≠ 0)

/-- The first word of a line. -/
def firstWord (line : List Char) : List Char := line.takeWhile (· ≠ ' ')

/-- The second word of a line. -/
def argument? (line : List Char) : Option (List Char) :=
  ((strtok line).bind fun word => strtok word.2).map Prod.fst

/-- A line does not set the abandon depth to another value, and does not ask for a rebalancing of nothing or
less where one of the default size would change something. -/
def CommandClean {σ : Type} (ops : Operations σ) (line : List Char) (s : ControlState σ) : Prop :=
  (firstWord line = "shallowRootAbandonDepth".toList →
    ∀ arg, argument? line = some arg → atoiInt arg = s.shallowRootAbandonDepth) ∧
  (firstWord line = "rebalance".toList →
    ∀ arg, argument? line = some arg → atoiInt arg ≤ 0 → (ops.rebalanceStep s.rebalanceBudget s).2 = s)

section Agreement

variable {σ : Type} {ops : Operations σ} {save : List Char} {s : ControlState σ}

theorem setRemote_agree (set : Int → ControlState σ → ControlState σ) :
    Agree (setRemote set ops save s) (setInterpreter set ops save s) := by
  unfold setRemote setInterpreter
  cases strtok save with
  | none => exact .inl rfl
  | some word => exact .inl rfl

theorem interpreterRemote_agree (run : ControlState σ → CommandOutcome Int σ) : Agree (interpreterRemote run s) (run s) := .inl rfl

theorem callRemote_agree (op : ControlState σ → CommandOutcome Int σ) : Agree (callRemote op s) (op s) := .inl rfl

theorem clientsCommand_agree : Agree (adminRemoteClientsCommand ops save s) (clientsCmdInterpreter ops save s) := by
  unfold adminRemoteClientsCommand clientsCmdInterpreter
  cases controlTarget save with
  | none => exact .inl rfl
  | some found =>
    obtain ⟨target, rest⟩ := found
    dsimp only
    by_cases hallowed : controlCommandAllowed rest
    · rw [if_neg (not_not_intro hallowed), if_neg (not_not_intro hallowed)]
      cases target with
      | none => exact .inl rfl
      | some target => exact .inl rfl
    · rw [if_pos hallowed, if_pos hallowed]
      exact .inl rfl

theorem clientsRoles_agree : Agree (adminRemoteClientsRoles ops save s) (clientsRolesInterpreter ops save s) := by
  unfold adminRemoteClientsRoles clientsRolesInterpreter
  cases controlTarget save with
  | none => exact .inl rfl
  | some found =>
    dsimp only
    cases rolesCount found.2 with
    | none => exact .inl rfl
    | some n => exact .inl rfl

theorem clientsWork_agree : Agree (adminRemoteClientsWork ops save s) (clientsWorkInterpreter ops save s) := by
  unfold adminRemoteClientsWork clientsWorkInterpreter
  cases strtok save with
  | none => exact .inl rfl
  | some word => exact .inl rfl

theorem config_agree : Agree (adminRemoteConfig ops save s) (configInterpreter ops save s) := by
  unfold adminRemoteConfig configInterpreter strtok
  dsimp only
  by_cases hrest : save.dropWhile (· = ' ') = []
  · rw [if_pos hrest, if_pos hrest, if_pos hrest]
    left
    split <;> rfl
  · rw [if_neg hrest, if_neg hrest, if_neg hrest]
    dsimp only
    by_cases hserver : s.server
    · rw [if_pos hserver, if_pos hserver]
      exact .inl rfl
    · rw [if_neg hserver, if_neg hserver]
      -- the key is cut off at the next space, where there is one
      cases hafter : (save.dropWhile (· = ' ')).dropWhile (· ≠ ' ') with
      | nil => exact .inl rfl
      | cons c after =>
        have hdrop : (c :: after).drop 1 = after := rfl
        dsimp only
        rw [hdrop]
        by_cases hvalue : after.dropWhile (· = ' ') = []
        · rw [if_pos hvalue, if_pos hvalue]
          exact .inl rfl
        · rw [if_neg hvalue, if_neg hvalue]
          exact .inl rfl

theorem sortDesc_agree : Agree (sortDescRemote ops save s) (sortDescendingInterpreter ops save s) := by
  unfold sortDescRemote sortDescendingInterpreter
  cases strtok save with
  | none => exact .inl rfl
  | some word => exact .inl rfl

theorem stockMaxRam_agree : Agree (stockMaxRamRemote ops save s) (stockMaxRamInterpreter ops save s) := by
  unfold stockMaxRamRemote stockMaxRamInterpreter
  cases strtok save with
  | none => exact .inl rfl
  | some word => exact .inl rfl

theorem spill_agree : Agree (spillRemote ops save s) (spillInterpreter ops save s) := by
  unfold spillRemote spillInterpreter budgetInterpreter
  cases strtok save with
  | none => exact .inl rfl
  | some word =>
    dsimp only
    by_cases hn : atoiInt word.1 ≤ 0
    · rw [if_pos hn, if_pos hn]
      exact .inl rfl
    · rw [if_neg hn, if_neg hn]
      exact .inl rfl

/-- The two ways of a rebalancing differ for a number that is not positive. -/
theorem rebalance_agree_iff : Agree (rebalanceRemote ops save s) (rebalanceInterpreter ops save s) ↔
    ∀ arg, (strtok save).map Prod.fst = some arg → atoiInt arg ≤ 0 → (ops.rebalanceStep s.rebalanceBudget s).2 = s := by
  unfold rebalanceRemote rebalanceInterpreter budgetInterpreter
  cases strtok save with
  | none => exact iff_of_true (.inl rfl) nofun
  | some word =>
    dsimp only
    by_cases hn : atoiInt word.1 ≤ 0
    · rw [if_neg (Int.not_lt.mpr hn), if_pos hn]
      constructor
      · rintro (hsame | ⟨hok, -⟩) arg - -
        · exact hsame
        · exact absurd rfl hok
      · intro hsame
        exact .inl (hsame word.1 rfl hn)
    · rw [if_pos (Int.not_le.mp hn), if_neg hn]
      refine iff_of_true (.inl rfl) ?_
      rintro arg ⟨⟩ hle
      exact absurd hle hn

/-- No branch sets the abandon depth. -/
theorem shallowRootAbandonDepth_agree_iff :
    Agree (AdminCmdResult.badArgs, s) (shallowRootAbandonDepthInterpreter ops save s) ↔
      ∀ arg, (strtok save).map Prod.fst = some arg → atoiInt arg = s.shallowRootAbandonDepth := by
  unfold shallowRootAbandonDepthInterpreter setInterpreter
  cases strtok save with
  | none => exact iff_of_true (.inl rfl) nofun
  | some word =>
    constructor
    · rintro (hsame | ⟨-, hrefused⟩) arg ⟨⟩
      · exact (congrArg ControlState.shallowRootAbandonDepth hsame).symm
      · exact absurd rfl hrefused
    · intro hsame
      left
      show s = { s with shallowRootAbandonDepth := atoiInt word.1 }
      rw [hsame word.1 rfl]

/-! ## Every command of the table -/

/-- What the dispatchers make of a word of the table and its class. -/
def remoteAnswer (ops : Operations σ) (cls : ControlCommandClass) (word save : List Char) (s : ControlState σ) :
    CommandOutcome AdminCmdResult σ :=
  if cls = .writeServerOnly then takeBranch (privilegedBranches σ) ops word save s
  else if s.server ∧ clientOnlyCommands.contains word then (.forbidden, s)
  else takeBranch (remoteBranches σ) ops word save s

/-- What the console makes of a word. -/
def consoleAnswer (ops : Operations σ) (word rest : List Char) (s : ControlState σ) : CommandOutcome Int σ :=
  match findCommand σ word with
  | none => (-1, s)
  | some (name, run) => if s.server ∧ clientOnlyCommands.contains name then (-1, s) else run ops rest s

variable {line word name : List Char} {cls : ControlCommandClass} {run : Interpreter Int σ}
  {branch : Interpreter AdminCmdResult σ}

theorem consoleAnswer_eq (hfind : findCommand σ word = some (name, run)) (hname : name ∉ clientOnlyCommands) :
    consoleAnswer ops word save s = run ops save s := by
  rw [consoleAnswer, hfind]
  exact if_neg fun hmask => hname (List.contains_iff_mem.mp hmask.2)

theorem agree_of_privileged (hbranch : (privilegedBranches σ).lookup word = some branch)
    (hfind : findCommand σ word = some (name, run)) (hname : name ∉ clientOnlyCommands)
    (h : Agree (branch ops save s) (run ops save s)) :
    Agree (remoteAnswer ops .writeServerOnly word save s) (consoleAnswer ops word save s) := by
  rw [remoteAnswer, if_pos rfl, takeBranch, hbranch, consoleAnswer_eq hfind hname]
  exact h

theorem agree_of_remote (hcls : cls ≠ .writeServerOnly) (hbranch : (remoteBranches σ).lookup word = some branch)
    (hfind : findCommand σ word = some (name, run)) (hname : word ∈ clientOnlyCommands ↔ name ∈ clientOnlyCommands)
    (h : Agree (branch ops save s) (run ops save s)) :
    Agree (remoteAnswer ops cls word save s) (consoleAnswer ops word save s) := by
  rw [← List.contains_iff_mem, ← List.contains_iff_mem] at hname
  rw [remoteAnswer, if_neg hcls, takeBranch, hbranch, consoleAnswer, hfind]
  dsimp only
  by_cases hmask : s.server ∧ clientOnlyCommands.contains word
  · rw [if_pos hmask, if_pos ⟨hmask.1, hname.mp hmask.2⟩]
    exact .inl rfl
  · rw [if_neg hmask, if_neg fun h => hmask ⟨h.1, hname.mpr h.2⟩]
    exact h

/-- Every command but two is handled as the console handles it. -/
theorem table_agree (hmem : (word, cls) ∈ commandTable) (hdepth : word ≠ "shallowRootAbandonDepth".toList)
    (hrebalance : word ≠ "rebalance".toList) :
    Agree (remoteAnswer ops cls word save s) (consoleAnswer ops word save s) := by
  simp only [commandTable, List.mem_cons, Prod.mk.injEq, List.not_mem_nil, or_false] at hmem
  rcases hmem with ⟨rfl, rfl⟩ | ⟨rfl, rfl⟩ | ⟨rfl, rfl⟩ | ⟨rfl, rfl⟩ | ⟨rfl, rfl⟩ | ⟨rfl, rfl⟩ | ⟨rfl, rfl⟩ | ⟨rfl, rfl⟩ |
    ⟨rfl, rfl⟩ | ⟨rfl, rfl⟩ | ⟨rfl, rfl⟩ | ⟨rfl, rfl⟩ | ⟨rfl, rfl⟩ | ⟨rfl, rfl⟩ | ⟨rfl, rfl⟩ | ⟨rfl, rfl⟩ | ⟨rfl, rfl⟩ |
    ⟨rfl, rfl⟩ | ⟨rfl, rfl⟩ | ⟨rfl, rfl⟩ | ⟨rfl, rfl⟩ | ⟨rfl, rfl⟩ | ⟨rfl, rfl⟩ | ⟨rfl, rfl⟩ | ⟨rfl, rfl⟩ | ⟨rfl, rfl⟩ |
    ⟨rfl, rfl⟩ | ⟨rfl, rfl⟩
  · exact agree_of_remote (by decide) rfl rfl (by decide) clientsWork_agree
  · exact agree_of_remote (by decide) rfl rfl (by decide) (.inl rfl)
  · exact agree_of_remote (by decide) rfl rfl (by decide) (.inl rfl)
  · exact agree_of_remote (by decide) rfl rfl (by decide) (setRemote_agree _)
  · exact agree_of_remote (by decide) rfl rfl (by decide) (setRemote_agree _)
  · exact absurd rfl hdepth
  · exact agree_of_remote (by decide) rfl rfl (by decide) (setRemote_agree _)
  · exact agree_of_remote (by decide) rfl rfl (by decide) (setRemote_agree _)
  · exact agree_of_remote (by decide) rfl rfl (by decide) clientsCommand_agree
  · exact agree_of_remote (by decide) rfl rfl (by decide) clientsCommand_agree
  · exact agree_of_remote (by decide) rfl rfl (by decide) clientsRoles_agree
  · exact agree_of_remote (by decide) rfl rfl (by decide) (interpreterRemote_agree _)
  · exact agree_of_remote (by decide) rfl rfl (by decide) (interpreterRemote_agree _)
  · exact agree_of_remote (by decide) rfl rfl (by decide) (interpreterRemote_agree _)
  · exact agree_of_remote (by decide) rfl rfl (by decide) config_agree
  · exact agree_of_remote (by decide) rfl rfl (by decide) (interpreterRemote_agree _)
  · exact agree_of_privileged rfl rfl (by decide) (callRemote_agree _)
  · exact agree_of_privileged rfl rfl (by decide) (callRemote_agree _)
  · exact agree_of_privileged rfl rfl (by decide) (callRemote_agree _)
  · exact agree_of_privileged rfl rfl (by decide) (callRemote_agree _)
  · exact agree_of_privileged rfl rfl (by decide) sortDesc_agree
  · exact agree_of_privileged rfl rfl (by decide) (callRemote_agree _)
  · exact agree_of_privileged rfl rfl (by decide) (callRemote_agree _)
  · exact agree_of_privileged rfl rfl (by decide) (callRemote_agree _)
  · exact agree_of_privileged rfl rfl (by decide) (callRemote_agree _)
  · exact absurd rfl hrebalance
  · exact agree_of_privileged rfl rfl (by decide) stockMaxRam_agree
  · exact agree_of_privileged rfl rfl (by decide) spill_agree

/-- A line of the table has a word of the table in front. -/
theorem strtok_of_classify (h : controlCommandClassify line ≠ .unknown) :
    (firstWord line, controlCommandClassify line) ∈ commandTable ∧
      strtok line = some (firstWord line, (line.dropWhile (· ≠ ' ')).drop 1) := by
  unfold controlCommandClassify at h ⊢
  dsimp only at h ⊢
  by_cases hempty : line.takeWhile (· ≠ ' ') = []
  · rw [if_pos hempty] at h
    exact absurd rfl h
  · rw [if_neg hempty] at h ⊢
    refine ⟨?_, ?_⟩
    · cases hfind : commandTable.find? fun entry => entry.1 = line.takeWhile (· ≠ ' ') with
      | none =>
        rw [hfind] at h
        exact absurd rfl h
      | some entry =>
        have hword : entry.1 = line.takeWhile (· ≠ ' ') := by simpa using List.find?_some hfind
        dsimp only
        rw [firstWord, ← hword]
        exact List.mem_of_find?_eq_some hfind
    · -- no space stands in front
      have hfront : line.dropWhile (· = ' ') = line := by
        cases line with
        | nil => rfl
        | cons c line =>
          by_cases hc : c = ' '
          · exact absurd (List.takeWhile_cons_of_neg (by simpa using hc)) hempty
          · exact List.dropWhile_cons_of_neg (by simpa using hc)
      have hline : line ≠ [] := by
        rintro rfl
        exact hempty rfl
      rw [strtok, hfront]
      exact if_neg hline

/-- What the dispatchers make of a line of the table. -/
theorem adminApplyPrivilegedCommand_eq (h : controlCommandClassify line ≠ .unknown) :
    adminApplyPrivilegedCommand ops line s =
      remoteAnswer ops (controlCommandClassify line) (firstWord line) ((line.dropWhile (· ≠ ' ')).drop 1) s := by
  have hstrtok := (strtok_of_classify h).2
  cases hcls : controlCommandClassify line with
  | unknown => exact absurd hcls h
  | readOnly =>
    have hallowed : controlCommandAllowed line = true := decide_eq_true (.inl hcls)
    rw [adminApplyPrivilegedCommand, if_pos hallowed, adminApplyRemoteCommand, if_neg (not_not_intro hallowed), hstrtok]
    exact (if_neg (by decide)).symm
  | writeRelayable =>
    have hallowed : controlCommandAllowed line = true := decide_eq_true (.inr hcls)
    rw [adminApplyPrivilegedCommand, if_pos hallowed, adminApplyRemoteCommand, if_neg (not_not_intro hallowed), hstrtok]
    exact (if_neg (by decide)).symm
  | writeServerOnly =>
    have hnot : ¬ controlCommandAllowed line = true := by
      rw [controlCommandAllowed, hcls]
      decide
    have hprivileged : controlCommandPrivileged line = true := decide_eq_true hcls
    rw [adminApplyPrivilegedCommand, if_neg hnot, if_neg (not_not_intro hprivileged), hstrtok]
    exact (if_pos rfl).symm

theorem agree_usageAnswer {remote : CommandOutcome AdminCmdResult σ} {console : CommandOutcome Int σ} :
    Agree remote (usageAnswer console) ↔ Agree remote console := by
  have hzero : (usageAnswer console).1 ≠ 0 ↔ console.1 ≠ 0 := by
    unfold usageAnswer
    split
    · rename_i husage
      rw [husage]
      exact iff_of_true (show (-1 : Int) ≠ 0 by decide) (by decide)
    · exact Iff.rfl
  exact or_congr Iff.rfl (and_congr Iff.rfl hzero)

/-- What the console makes of a line of the table. -/
theorem doCommandLine_agree_iff (h : controlCommandClassify line ≠ .unknown) {remote : CommandOutcome AdminCmdResult σ} :
    Agree remote (doCommandLine ops line s) ↔
      Agree remote (consoleAnswer ops (firstWord line) ((line.dropWhile (· ≠ ' ')).drop 1) s) := by
  rw [doCommandLine, (strtok_of_classify h).2, consoleAnswer]
  dsimp only
  cases findCommand σ (firstWord line) with
  | none => exact Iff.rfl
  | some found =>
    dsimp only
    split
    · exact Iff.rfl
    · exact agree_usageAnswer

/-- The network does what the console does exactly when the line is clean. -/
theorem adminApplyPrivilegedCommand_agree_iff (ops : Operations σ) (line : List Char) (s : ControlState σ)
    (h : controlCommandClassify line ≠ .unknown) :
    Agree (adminApplyPrivilegedCommand ops line s) (doCommandLine ops line s) ↔ CommandClean ops line s := by
  obtain ⟨hmem, hstrtok⟩ := strtok_of_classify h
  have hargument : argument? line = (strtok ((line.dropWhile (· ≠ ' ')).drop 1)).map Prod.fst := by
    rw [argument?, hstrtok, Option.bind_some]
  rw [adminApplyPrivilegedCommand_eq h, doCommandLine_agree_iff h, CommandClean, hargument]
  have hclass : (("shallowRootAbandonDepth".toList, controlCommandClassify line) ∈ commandTable →
      controlCommandClassify line = .writeRelayable) ∧ (("rebalance".toList, controlCommandClassify line) ∈ commandTable →
      controlCommandClassify line = .writeServerOnly) := by
    cases controlCommandClassify line <;> decide
  by_cases hdepth : firstWord line = "shallowRootAbandonDepth".toList
  · rw [hdepth] at hmem ⊢
    rw [hclass.1 hmem, and_iff_left fun heq => absurd heq (by decide), imp_iff_right (Eq.refl "shallowRootAbandonDepth".toList)]
    have hanswer : remoteAnswer ops .writeRelayable "shallowRootAbandonDepth".toList
        ((line.dropWhile (· ≠ ' ')).drop 1) s = (.badArgs, s) := by
      rw [remoteAnswer, if_neg (by decide), if_neg fun hmask => absurd hmask.2 (by decide)]
      rfl
    have hfind : findCommand σ "shallowRootAbandonDepth".toList =
        some ("shallowRootAbandonDepth".toList, shallowRootAbandonDepthInterpreter) := rfl
    rw [hanswer, consoleAnswer_eq hfind (by decide)]
    exact shallowRootAbandonDepth_agree_iff
  · by_cases hrebalance : firstWord line = "rebalance".toList
    · rw [hrebalance] at hmem ⊢
      rw [hclass.2 hmem, and_iff_right fun heq => absurd heq (by decide), imp_iff_right (Eq.refl "rebalance".toList)]
      have hfind : findCommand σ "rebalance".toList = some ("rebalance".toList, rebalanceInterpreter) := rfl
      rw [consoleAnswer_eq hfind (by decide)]
      exact rebalance_agree_iff
    · refine iff_of_true (table_agree hmem hdepth hrebalance) ⟨fun heq => absurd heq hdepth, fun heq => absurd heq hrebalance⟩

end Agreement

namespace RemoteExample

/-- Two files of the stock, by their sizes; a rebalancing moves from the first to the second. -/
def operations : Operations (Nat × Nat) where
  broadcastCommand _ s := s
  sendCommandTo _ _ s := (0, s)
  applyRoleDosage _ _ s := (0, s)
  resolveClientUid _ _ := 0
  stageConfigLine _ s := (.unknownKey, s)
  start s := (-1, s)
  stopForks s := (-1, s)
  configApply s := (-1, s)
  configSave s := (-1, s)
  backupApply _ s := (0, s)
  restoreWithArgs _ _ s := (0, s)
  sortAscending s := (0, s)
  sortAscendingFiles s := (0, s)
  sortDescending s := (0, s)
  sortDescendingFiles s := (0, s)
  sortDescendingMthread s := (0, s)
  sortDMono _ s := s
  splitDatas s := (0, s)
  regroupDatas s := (0, s)
  rebalanceStep n s :=
    let moved := min n.toNat ((s.world.1 - s.world.2) / 2)
    (moved, { s with world := (s.world.1 - moved, s.world.2 + moved) })
  configureRamLimit _ s := s
  spillStep _ s := (0, s)
  other _ _ s := (0, s)

/-- A server with ten possibilities in one file. -/
def state : ControlState (Nat × Nat) :=
  ⟨true, requestContinue, 0, 0, 0, 1024, 0, 0, 1000, (10, 0)⟩

end RemoteExample

/-- `limit 5` does the same on both ways. -/
theorem adminApplyPrivilegedCommand_agree_iff_limit :
    Agree (adminApplyPrivilegedCommand RemoteExample.operations "limit 5".toList RemoteExample.state)
      (doCommandLine RemoteExample.operations "limit 5".toList RemoteExample.state) ↔
    CommandClean RemoteExample.operations "limit 5".toList RemoteExample.state :=
  adminApplyPrivilegedCommand_agree_iff RemoteExample.operations "limit 5".toList RemoteExample.state (by decide)

/-- The abandon depth cannot be set over the network, and a rebalancing of nothing moves possibilities there. -/
theorem adminApplyPrivilegedCommand_differs :
    controlCommandClassify "shallowRootAbandonDepth 128".toList = .writeRelayable ∧
    ¬ Agree (adminApplyPrivilegedCommand RemoteExample.operations "shallowRootAbandonDepth 128".toList RemoteExample.state)
      (doCommandLine RemoteExample.operations "shallowRootAbandonDepth 128".toList RemoteExample.state) ∧
    controlCommandClassify "rebalance 0".toList = .writeServerOnly ∧
    ¬ Agree (adminApplyPrivilegedCommand RemoteExample.operations "rebalance 0".toList RemoteExample.state)
      (doCommandLine RemoteExample.operations "rebalance 0".toList RemoteExample.state) := by
  refine ⟨by decide, ?_, by decide, ?_⟩
  · rintro (hsame | ⟨-, hrefused⟩)
    · exact absurd (congrArg ControlState.shallowRootAbandonDepth hsame) (by decide)
    · exact absurd hrefused (by decide)
  · rintro (hsame | ⟨hok, -⟩)
    · exact absurd (congrArg ControlState.world hsame) (by decide)
    · exact absurd hok (by decide)
