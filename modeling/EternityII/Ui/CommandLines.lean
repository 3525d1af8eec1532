-- SUMMARY: The console: the settings its commands change, their interpreters, and how a line finds its interpreter.
import EternityII.App.WorkConnection
import EternityII.Base.Decimal
import EternityII.Net.ControlCommands

/-! ## Words and numbers -/

/-- `strtok` on spaces: the next word, and what the cursor stands on behind it. -/
def strtok (s : List Char) : Option (List Char × List Char) :=
  let s := s.dropWhile (· = ' ')
  if s = [] then none else some (s.takeWhile (· ≠ ' '), (s.dropWhile (· ≠ ' ')).drop 1)

/-- `INT_MAX`. -/
def intMax : Int := 2 ^ 31 - 1

/-- `atoi` on a 32-bit `int`: a 64-bit number, cut to its low half. -/
def atoiInt (s : List Char) : Int := (max (-2 ^ 63) (min (2 ^ 63 - 1) (Decimal.atoi s))).bmod (2 ^ 32)

/-- `strcasecmp`. -/
def sameIgnoringCase (s t : List Char) : Bool := s.map Char.toLower = t.map Char.toLower

/-! ## State -/

/-- `REQUEST_CONTINUE`. -/
def requestContinue : Int := 0

/-- `REQUEST_PAUSE`. -/
def requestPause : Int := 2

/-- `REQUEST_ADMIN_PAUSE`. -/
def requestAdminPause : Int := 3

/-- The settings that commands change, beside everything else the process holds. -/
structure ControlState (σ : Type) where
  server : Bool
  request : Int
  maxSearchBySec : Int
  maxStockByThread : Int
  shallowRootAbandonDepth : Int
  prunerBatchSize : Int
  prunerDfsBudget : Int
  stockMaxRamMb : Int
  rebalanceBudget : Int
  world : σ
deriving DecidableEq

/-- `client_config_line_status_t`. -/
inductive ConfigLineStatus where
  | ignored
  | set
  | unknownKey
  | invalidValue
deriving DecidableEq

/-- What an interpreter answers, and the state it leaves. -/
abbrev CommandOutcome (ρ σ : Type) := ρ × ControlState σ

/-- The operations that commands call. -/
structure Operations (σ : Type) where
  broadcastCommand : List Char → ControlState σ → ControlState σ
  sendCommandTo : List Char → List Char → ControlState σ → CommandOutcome Int σ
  applyRoleDosage : Option (List Char) → Int → ControlState σ → CommandOutcome Int σ
  resolveClientUid : List Char → ControlState σ → Int
  stageConfigLine : List Char → ControlState σ → CommandOutcome ConfigLineStatus σ
  start : ControlState σ → CommandOutcome Int σ
  stopForks : ControlState σ → CommandOutcome Int σ
  configApply : ControlState σ → CommandOutcome Int σ
  configSave : ControlState σ → CommandOutcome Int σ
  backupApply : Option (List Char) → ControlState σ → CommandOutcome Int σ
  restoreWithArgs : Option (List Char) → Option (List Char) → ControlState σ → CommandOutcome Int σ
  sortAscending : ControlState σ → CommandOutcome Int σ
  sortAscendingFiles : ControlState σ → CommandOutcome Int σ
  sortDescending : ControlState σ → CommandOutcome Int σ
  sortDescendingFiles : ControlState σ → CommandOutcome Int σ
  sortDescendingMthread : ControlState σ → CommandOutcome Int σ
  sortDMono : Int → ControlState σ → ControlState σ
  splitDatas : ControlState σ → CommandOutcome Int σ
  regroupDatas : ControlState σ → CommandOutcome Int σ
  rebalanceStep : Int → ControlState σ → CommandOutcome Int σ
  configureRamLimit : Int → ControlState σ → ControlState σ
  spillStep : Int → ControlState σ → CommandOutcome Int σ
  /-- The interpreters of the commands that may not come over the network. -/
  other : List Char → List Char → ControlState σ → CommandOutcome Int σ

/-! ## Interpreters -/

/-- `CMD_ERR_USAGE`. -/
def cmdErrUsage : Int := -3

/-- `PRUNER_DFS_BUDGET_MAX`. -/
def prunerDfsBudgetMax : Int := 10000000

/-- `STOCK_SPILL_BLOCK_PACKETS`. -/
def stockSpillBlockPackets : Int := 4096

/-- `pruner_batch_clamp`. -/
def prunerBatchClamp (v : Int) : Int := if v < 1 then 1 else if v > prunerBatchMax then prunerBatchMax else v

/-- `pruner_dfs_budget_clamp`. -/
def prunerDfsBudgetClamp (v : Int) : Int :=
  if v < 0 then 0 else if v > prunerDfsBudgetMax then prunerDfsBudgetMax else v

/-- `admin_pause_transition`. -/
def adminPauseTransition (current : Int) (wantPause : Bool) : Int :=
  if wantPause then if current = requestContinue ∨ current = requestPause then requestAdminPause else current
  else if current = requestAdminPause then requestContinue
  else current

/-- What stands behind a command that may name a session with `--to`: the session and the rest; `none` where
something is missing. -/
def controlTarget (rest : List Char) : Option (Option (List Char) × List Char) :=
  let rest := rest.dropWhile (· = ' ')
  if rest = [] then none
  else if "--to ".toList <+: rest then
    let rest := (rest.drop 5).dropWhile (· = ' ')
    match rest.dropWhile (· ≠ ' ') with
    | [] => none
    | _ :: after =>
      let after := after.dropWhile (· = ' ')
      if after = [] then none else some (some (rest.takeWhile (· ≠ ' ')), after)
  else some (none, rest)

/-- The number of pruner forks of `clientsRoles`; what `strtol` would cut off at its bounds is too large. -/
def rolesCount (rest : List Char) : Option Int := (Decimal.strtolWhole rest).filter fun n => 0 ≤ n ∧ n ≤ intMax

/-- The line that `config` prepares, in a buffer of 600. -/
def configLine (key value : List Char) : List Char := (key ++ (" = ".toList ++ value)).take 599

/-- An interpreter, on what the cursor of `strtok` stands on. -/
abbrev Interpreter (ρ σ : Type) := Operations σ → List Char → ControlState σ → CommandOutcome ρ σ

section Interpreters

variable {σ : Type}

/-- A command that sets a number. -/
def setInterpreter (set : Int → ControlState σ → ControlState σ) : Interpreter Int σ := fun _ rest s =>
  match strtok rest with
  | some (arguments, _) => (0, set (atoiInt arguments) s)
  | none => (cmdErrUsage, s)

/-- `limit_interpreter`. -/
def limitInterpreter : Interpreter Int σ := setInterpreter fun n s => { s with maxSearchBySec := n }

/-- `max_stock_by_thread_interpreter`. -/
def maxStockByThreadInterpreter : Interpreter Int σ := setInterpreter fun n s => { s with maxStockByThread := n }

/-- `shallow_root_abandon_depth_interpreter`. -/
def shallowRootAbandonDepthInterpreter : Interpreter Int σ :=
  setInterpreter fun n s => { s with shallowRootAbandonDepth := n }

/-- `pruner_batch_interpreter`. -/
def prunerBatchInterpreter : Interpreter Int σ :=
  setInterpreter fun n s => { s with prunerBatchSize := prunerBatchClamp n }

/-- `pruner_dfs_budget_interpreter`. -/
def prunerDfsBudgetInterpreter : Interpreter Int σ :=
  setInterpreter fun n s => { s with prunerDfsBudget := prunerDfsBudgetClamp n }

/-- `stock_max_ram_interpreter`. -/
def stockMaxRamInterpreter : Interpreter Int σ := fun ops rest s =>
  match strtok rest with
  | none => (cmdErrUsage, s)
  | some (arguments, _) =>
    let mo := atoiInt arguments
    (0, ops.configureRamLimit mo { s with stockMaxRamMb := mo })

/-- `pause_interpreter`. -/
def pauseInterpreter : Interpreter Int σ := fun ops _ s =>
  (0, ops.broadcastCommand "pause".toList { s with request := adminPauseTransition s.request true })

/-- `resume_interpreter`. -/
def resumeInterpreter : Interpreter Int σ := fun ops _ s =>
  (0, ops.broadcastCommand "resume".toList { s with request := adminPauseTransition s.request false })

/-- `clients_cmd_interpreter`. -/
def clientsCmdInterpreter : Interpreter Int σ := fun ops rest s =>
  match controlTarget rest with
  | none => (cmdErrUsage, s)
  | some (target, rest) =>
    if ¬ controlCommandAllowed rest then (-1, s)
    else
      match target with
      | some target =>
        let (posted, s) := ops.sendCommandTo target rest s
        (if posted ≠ 1 then -1 else 0, s)
      | none => (0, ops.broadcastCommand rest s)

/-- `clients_roles_interpreter`. -/
def clientsRolesInterpreter : Interpreter Int σ := fun ops rest s =>
  match controlTarget rest with
  | none => (cmdErrUsage, s)
  | some (target, rest) =>
    match rolesCount rest with
    | none => (cmdErrUsage, s)
    | some n =>
      let (touched, s) := ops.applyRoleDosage target n s
      (if target.isSome ∧ touched ≠ 1 then -1 else 0, s)

/-- `clients_work_interpreter`. -/
def clientsWorkInterpreter : Interpreter Int σ := fun ops rest s =>
  match strtok rest with
  | none => (cmdErrUsage, s)
  | some (target, _) => (if ops.resolveClientUid target s ≠ 1 then -1 else 0, s)

/-- `config_interpreter`. -/
def configInterpreter : Interpreter Int σ := fun ops rest s =>
  match strtok rest with
  | none => (0, s)
  | some (key, rest) =>
    if s.server then (-1, s)
    else
      match strtok rest with
      | none => (cmdErrUsage, s)
      | some (value, _) =>
        let (status, s) := ops.stageConfigLine (configLine key value) s
        (if status = .set ∨ status = .ignored then 0 else -1, s)

/-- `start_interpreter`. -/
def startInterpreter : Interpreter Int σ := fun ops _ s => ops.start s

/-- `stop_forks_interpreter`. -/
def stopForksInterpreter : Interpreter Int σ := fun ops _ s => ops.stopForks s

/-- `config_apply_interpreter`. -/
def configApplyInterpreter : Interpreter Int σ := fun ops _ s => ops.configApply s

/-- `config_save_interpreter`. -/
def configSaveInterpreter : Interpreter Int σ := fun ops _ s => ops.configSave s

/-- `backup_interpreter`. -/
def backupInterpreter : Interpreter Int σ := fun ops rest s => ops.backupApply ((strtok rest).map Prod.fst) s

/-- `restore_interpreter`. -/
def restoreInterpreter : Interpreter Int σ := fun ops rest s =>
  ops.restoreWithArgs ((strtok rest).map Prod.fst) ((strtok rest).bind fun first => (strtok first.2).map Prod.fst) s

/-- `sort_ascending_interpreter`. -/
def sortAscendingInterpreter : Interpreter Int σ := fun ops _ s => ops.sortAscending s

/-- `sort_ascending_files_interpreter`. -/
def sortAscendingFilesInterpreter : Interpreter Int σ := fun ops _ s => ops.sortAscendingFiles s

/-- `sort_descending_interpreter`. -/
def sortDescendingInterpreter : Interpreter Int σ := fun ops rest s =>
  match strtok rest with
  | none => ops.sortDescending s
  | some (arguments, _) => (0, ops.sortDMono (atoiInt arguments) s)

/-- `sort_descending_files_interpreter`. -/
def sortDescendingFilesInterpreter : Interpreter Int σ := fun ops _ s => ops.sortDescendingFiles s

/-- `sortdm_interpreter`. -/
def sortdmInterpreter : Interpreter Int σ := fun ops _ s => ops.sortDescendingMthread s

/-- `split_interpreter`. -/
def splitInterpreter : Interpreter Int σ := fun ops _ s => ops.splitDatas s

/-- `regroup_interpreter`. -/
def regroupInterpreter : Interpreter Int σ := fun ops _ s => ops.regroupDatas s

/-- A command with a budget, which is the default where none is given and may not be nought or less. -/
def budgetInterpreter (default : ControlState σ → Int) (step : Int → ControlState σ → CommandOutcome Int σ)
    (rest : List Char) (s : ControlState σ) : CommandOutcome Int σ :=
  match strtok rest with
  | none => (0, (step (default s) s).2)
  | some (arguments, _) =>
    let n := atoiInt arguments
    if n ≤ 0 then (cmdErrUsage, s) else (0, (step n s).2)

/-- `rebalance_interpreter`. -/
def rebalanceInterpreter : Interpreter Int σ := fun ops => budgetInterpreter ControlState.rebalanceBudget ops.rebalanceStep

/-- `spill_interpreter`. -/
def spillInterpreter : Interpreter Int σ := fun ops => budgetInterpreter (fun _ => stockSpillBlockPackets) ops.spillStep

end Interpreters

/-! ## The table -/

/-- What stands behind a name: an interpreter, or the name it is an alias of. -/
inductive CommandEntry (σ : Type) where
  | interpreter (run : Interpreter Int σ)
  | aliasOf (name : List Char)

/-- An interpreter that no line from the network reaches. -/
def CommandEntry.other (σ : Type) (name : List Char) : CommandEntry σ := .interpreter fun ops => ops.other name

/-- `commands`: the names and what they stand for. -/
def commands (σ : Type) : List (List Char × CommandEntry σ) :=
  [("help".toList, .other σ "help".toList),
   ("exit".toList, .other σ "exit".toList),
   ("clear".toList, .other σ "clear".toList),
   ("config".toList, .interpreter configInterpreter),
   ("configSave".toList, .interpreter configSaveInterpreter),
   ("start".toList, .interpreter startInterpreter),
   ("stopForks".toList, .interpreter stopForksInterpreter),
   ("configApply".toList, .interpreter configApplyInterpreter),
   ("pause".toList, .interpreter pauseInterpreter),
   ("resume".toList, .interpreter resumeInterpreter),
   ("limit".toList, .interpreter limitInterpreter),
   ("maxStockByThread".toList, .interpreter maxStockByThreadInterpreter),
   ("shallowRootAbandonDepth".toList, .interpreter shallowRootAbandonDepthInterpreter),
   ("prunerBatch".toList, .interpreter prunerBatchInterpreter),
   ("prunerDfsBudget".toList, .interpreter prunerDfsBudgetInterpreter),
   ("sortAsc".toList, .interpreter sortAscendingInterpreter),
   ("sortAscFiles".toList, .interpreter sortAscendingFilesInterpreter),
   ("sortDesc".toList, .interpreter sortDescendingInterpreter),
   ("sortDescFiles".toList, .interpreter sortDescendingFilesInterpreter),
   ("sortDescMulti".toList, .interpreter sortdmInterpreter),
   ("split".toList, .interpreter splitInterpreter),
   ("regroup".toList, .interpreter regroupInterpreter),
   ("removeNoNext".toList, .other σ "removeNoNext".toList),
   ("expand".toList, .other σ "expand".toList),
   ("restockAnalysed".toList, .other σ "restockAnalysed".toList),
   ("rebalance".toList, .interpreter rebalanceInterpreter),
   ("resetChecked".toList, .other σ "resetChecked".toList),
   ("stockMemory".toList, .other σ "stockMemory".toList),
   ("stockMaxRam".toList, .interpreter stockMaxRamInterpreter),
   ("spill".toList, .interpreter spillInterpreter),
   ("min".toList, .other σ "min".toList),
   ("backup".toList, .interpreter backupInterpreter),
   ("restore".toList, .interpreter restoreInterpreter),
   ("import".toList, .other σ "import".toList),
   ("loadJson".toList, .other σ "loadJson".toList),
   ("check".toList, .other σ "check".toList),
   ("print".toList, .other σ "print".toList),
   ("printFile".toList, .other σ "printFile".toList),
   ("printAnalysed".toList, .other σ "printAnalysed".toList),
   ("statistic".toList, .other σ "statistic".toList),
   ("checkDatas".toList, .other σ "checkDatas".toList),
   ("checkDuplicate".toList, .other σ "checkDuplicate".toList),
   ("checkOrigin".toList, .other σ "checkOrigin".toList),
   ("checkFiles".toList, .other σ "checkFiles".toList),
   ("checkFile".toList, .other σ "checkFile".toList),
   ("checkDirections".toList, .other σ "checkDirections".toList),
   ("clients".toList, .other σ "clients".toList),
   ("clientsStats".toList, .other σ "clientsStats".toList),
   ("clientsCommand".toList, .interpreter clientsCmdInterpreter),
   ("clientsRoles".toList, .interpreter clientsRolesInterpreter),
   ("knownClients".toList, .other σ "knownClients".toList),
   ("clientsWork".toList, .interpreter clientsWorkInterpreter),
   ("leaseDuration".toList, .other σ "leaseDuration".toList),
   ("?".toList, .aliasOf "help".toList),
   ("quit".toList, .aliasOf "exit".toList),
   ("cls".toList, .aliasOf "clear".toList),
   ("stats".toList, .aliasOf "statistic".toList),
   ("sorta".toList, .aliasOf "sortAsc".toList),
   ("sortaf".toList, .aliasOf "sortAscFiles".toList),
   ("sortdf".toList, .aliasOf "sortDescFiles".toList),
   ("sortd".toList, .aliasOf "sortDesc".toList),
   ("sortdm".toList, .aliasOf "sortDescMulti".toList),
   ("rmnonext".toList, .aliasOf "removeNoNext".toList),
   ("prune".toList, .aliasOf "removeNoNext".toList),
   ("clientsCmd".toList, .aliasOf "clientsCommand".toList)]

/-- `find_command`: the canonical name and its interpreter. An alias names a canonical entry. -/
def findCommand (σ : Type) (instruction : List Char) : Option (List Char × Interpreter Int σ) :=
  match (commands σ).find? fun c => sameIgnoringCase c.1 instruction with
  | none => none
  | some (name, .interpreter run) => some (name, run)
  | some (_, .aliasOf canonical) =>
    match (commands σ).find? fun c => sameIgnoringCase c.1 canonical with
    | some (name, .interpreter run) => some (name, run)
    | _ => none

/-- The `client_only` commands of `command_scope_classify`. -/
def clientOnlyCommands : List (List Char) := ["start".toList, "stopForks".toList, "configApply".toList]

/-- The answer of a command: a bad argument recalls the usage. -/
def usageAnswer {σ : Type} (answer : CommandOutcome Int σ) : CommandOutcome Int σ :=
  (if answer.1 = cmdErrUsage then -1 else answer.1, answer.2)

/-- `do_command_line`, without the wait for the start of the server and without the children: it finds the
interpreter of a line and calls it. -/
def doCommandLine {σ : Type} (ops : Operations σ) (command : List Char) (s : ControlState σ) : CommandOutcome Int σ :=
  match strtok command with
  | none => (0, s)
  | some (instruction, rest) =>
    match findCommand σ instruction with
    | none => (-1, s)
    | some (name, run) => if s.server ∧ clientOnlyCommands.contains name then (-1, s) else usageAnswer (run ops rest s)
