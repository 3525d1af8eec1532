-- SUMMARY: The control commands: the table of those that may come over the network, and the class of a command line.
import Mathlib.Data.List.Basic

/-! ## The table -/

/-- `control_command_class_t`. -/
inductive ControlCommandClass where
  | unknown
  | readOnly
  | writeRelayable
  | writeServerOnly
deriving DecidableEq

/-- `ADMIN_CMD_OK`, `ADMIN_CMD_FORBIDDEN` and `ADMIN_CMD_BAD_ARGS`: the answer to a control command. -/
inductive AdminCmdResult where
  | ok
  | forbidden
  | badArgs
deriving DecidableEq

/-- `g_command_table`. -/
def commandTable : List (List Char × ControlCommandClass) :=
  [("clientsWork".toList, .readOnly),
   ("pause".toList, .writeRelayable),
   ("resume".toList, .writeRelayable),
   ("limit".toList, .writeRelayable),
   ("maxStockByThread".toList, .writeRelayable),
   ("shallowRootAbandonDepth".toList, .writeRelayable),
   ("prunerBatch".toList, .writeRelayable),
   ("prunerDfsBudget".toList, .writeRelayable),
   ("clientsCommand".toList, .writeRelayable),
   ("clientsCmd".toList, .writeRelayable),
   ("clientsRoles".toList, .writeRelayable),
   ("start".toList, .writeRelayable),
   ("stopForks".toList, .writeRelayable),
   ("configApply".toList, .writeRelayable),
   ("config".toList, .writeRelayable),
   ("configSave".toList, .writeRelayable),
   ("restore".toList, .writeServerOnly),
   ("backup".toList, .writeServerOnly),
   ("sortAsc".toList, .writeServerOnly),
   ("sortAscFiles".toList, .writeServerOnly),
   ("sortDesc".toList, .writeServerOnly),
   ("sortDescFiles".toList, .writeServerOnly),
   ("sortDescMulti".toList, .writeServerOnly),
   ("split".toList, .writeServerOnly),
   ("regroup".toList, .writeServerOnly),
   ("rebalance".toList, .writeServerOnly),
   ("stockMaxRam".toList, .writeServerOnly),
   ("spill".toList, .writeServerOnly)]

/-! ## Classes -/

/-- `control_command_classify`: the class of the word at the front of the line, up to the first space. -/
def controlCommandClassify (command : List Char) : ControlCommandClass :=
  let word := command.takeWhile (· ≠ ' ')
  if word = [] then .unknown
  else
    match commandTable.find? fun entry => entry.1 = word with
    | some entry => entry.2
    | none => .unknown

/-- `control_command_privileged`. -/
def controlCommandPrivileged (command : List Char) : Bool := controlCommandClassify command = .writeServerOnly

/-- `control_command_allowed`. -/
def controlCommandAllowed (command : List Char) : Bool :=
  controlCommandClassify command = .readOnly ∨ controlCommandClassify command = .writeRelayable
