-- SUMMARY: The configuration file of a server, and which configurations of a client or a server their files give back.
import EternityII.App.ClientConfig

/-!
# The configuration of a server

The file of a server has the grammar of the file of a client, with other keys. A configuration that is saved is
given back by its file when each of its values is one that a line can give: what the command line and the
console accept is not checked against the file.
-/

open KeyValue

/-! ## Keys -/

/-- `LLONG_MAX`. -/
def llongMax : Int := 2 ^ 63 - 1

/-- The keys of `server_config_t`. -/
inductive ServerKey where
  | nbThreads
  | partsFile
  | expandLevel
  | expandMaxStock
  | expandMaxLevels
  | expandThreads
  | httpPort
  | httpTokenFile
  | stockFiles
  | stockMaxRam
  | stockSpillDir
  | rebalanceBudget
  | stockHotMax
  | stockHotMin
  | tcpTimeout
  | autoRoles
  | stopOnSolution
  | headless
  | sortEnabled
  | sortInterval
  | sortDirection
  | sortLockAttempts
  | rmnonextEnabled
  | rmnonextInterval
  | rebalanceEnabled
  | autobackupEnabled
deriving DecidableEq

/-- 0 or 1. -/
@[reducible]
def switchInt : ValueKind := .number 0 1 (by decide)

/-- The branches of `server_config_parse_line`: what is taken for each key. -/
@[reducible]
def ServerKey.kind : ServerKey → ValueKind
  | .nbThreads => positiveInt
  | .partsFile => .text
  | .expandLevel => nonNegativeInt
  | .expandMaxStock => .number 1 llongMax (by decide)
  | .expandMaxLevels => positiveInt
  | .expandThreads => nonNegativeInt
  | .httpPort => .number 1 65535 (by decide)
  | .httpTokenFile => .text
  | .stockFiles => positiveInt
  | .stockMaxRam => positiveInt
  | .stockSpillDir => .text
  | .rebalanceBudget => positiveInt
  | .stockHotMax => positiveInt
  | .stockHotMin => positiveInt
  | .tcpTimeout => positiveInt
  | .autoRoles => switchInt
  | .stopOnSolution => switchInt
  | .headless => switchInt
  | .sortEnabled => switchInt
  | .sortInterval => positiveInt
  | .sortDirection => .choice "asc".toList "desc".toList (by decide)
  | .sortLockAttempts => positiveInt
  | .rmnonextEnabled => switchInt
  | .rmnonextInterval => positiveInt
  | .rebalanceEnabled => switchInt
  | .autobackupEnabled => switchInt

/-- The names of the keys in the file. -/
def ServerKey.name : ServerKey → List Char
  | .nbThreads => "nb_threads".toList
  | .partsFile => "parts_file".toList
  | .expandLevel => "expand_level".toList
  | .expandMaxStock => "expand_max_stock".toList
  | .expandMaxLevels => "expand_max_levels".toList
  | .expandThreads => "expand_threads".toList
  | .httpPort => "http_port".toList
  | .httpTokenFile => "http_token_file".toList
  | .stockFiles => "stock_files".toList
  | .stockMaxRam => "stock_max_ram".toList
  | .stockSpillDir => "stock_spill_dir".toList
  | .rebalanceBudget => "rebalance_budget".toList
  | .stockHotMax => "stock_hot_max".toList
  | .stockHotMin => "stock_hot_min".toList
  | .tcpTimeout => "tcp_timeout".toList
  | .autoRoles => "auto_roles".toList
  | .stopOnSolution => "stop_on_solution".toList
  | .headless => "headless".toList
  | .sortEnabled => "sort_enabled".toList
  | .sortInterval => "sort_interval".toList
  | .sortDirection => "sort_direction".toList
  | .sortLockAttempts => "sort_lock_attempts".toList
  | .rmnonextEnabled => "rmnonext_enabled".toList
  | .rmnonextInterval => "rmnonext_interval".toList
  | .rebalanceEnabled => "rebalance_enabled".toList
  | .autobackupEnabled => "autobackup_enabled".toList

/-- The file of a server, its lines in the order of `server_config_format`. -/
@[reducible]
def serverSchema : Schema ServerKey where
  keys := [.nbThreads, .partsFile, .expandLevel, .expandMaxStock, .expandMaxLevels, .expandThreads, .httpPort,
    .httpTokenFile, .stockFiles, .stockMaxRam, .stockSpillDir, .rebalanceBudget, .stockHotMax, .stockHotMin, .tcpTimeout,
    .autoRoles, .stopOnSolution, .headless, .sortEnabled, .sortInterval, .sortDirection, .sortLockAttempts,
    .rmnonextEnabled, .rmnonextInterval, .rebalanceEnabled, .autobackupEnabled]
  name := ServerKey.name
  kind := ServerKey.kind
  width := 19
  mem_keys k := by cases k <;> decide
  nodup_names := by decide
  isName k := by cases k <;> decide

/-- `server_config_t`: a key has a value when its `has_` field is set. -/
abbrev ServerConfig : Type := serverSchema.Config

/-! ## Lines and files -/

/-- `server_config_line_status_t`. -/
inductive ServerConfigLineStatus where
  | set
  | ignored
  | unknownKey
  | invalidValue
  | obsoleteKey
deriving DecidableEq

/-- The keys for which `server_config_obsolete_key_replacement` has a replacement. -/
def obsoleteKeys : List (List Char) := ["stock_hot_floor".toList, "stock_hot_reload".toList]

/-- `server_config_parse_line`. -/
def serverConfigParseLine (line : List Char) (cfg : ServerConfig) : ServerConfigLineStatus × ServerConfig :=
  match serverSchema.parseLine line with
  | .ignored => (.ignored, cfg)
  | .unknown key => (if obsoleteKeys.contains key then .obsoleteKey else .unknownKey, cfg)
  | .invalid => (.invalidValue, cfg)
  | .set k v => (.set, Schema.Line.apply cfg (.set k v))

/-- `server_config_load`, on the text of a file. -/
def serverConfigLoad (text : List Char) (cfg : ServerConfig) : ServerConfig :=
  (fileLines text).foldl (fun cfg line => (serverConfigParseLine line cfg).2) cfg

/-- `server_config_format`; `none` where the text does not fit with its end. -/
def serverConfigFormat (cfg : ServerConfig) (outSize : Nat) : Option (List Char) :=
  let text := serverSchema.format cfg
  if text.length < outSize then some text else none

/-- `server_config_save`: the text of the file, where it can be written. -/
def serverConfigSave (cfg : ServerConfig) : Option (List Char) := serverConfigFormat cfg configBufferSize

/-! ## What a file gives back -/

theorem serverConfigParseLine_snd (line : List Char) (cfg : ServerConfig) :
    (serverConfigParseLine line cfg).2 = (serverSchema.parseLine line).apply cfg := by
  unfold serverConfigParseLine
  cases serverSchema.parseLine line with
  | ignored => rfl
  | unknown key => rfl
  | invalid => rfl
  | set k v => rfl

theorem serverConfigLoad_eq (text : List Char) (cfg : ServerConfig) :
    serverConfigLoad text cfg = serverSchema.load text cfg :=
  congrArg (fun f => (fileLines text).foldl f cfg) (funext fun cfg => funext fun line => serverConfigParseLine_snd line cfg)

theorem clientConfigLoad_eq (text : List Char) (cfg : ClientConfigValues) :
    clientConfigLoad text cfg = clientSchema.load text cfg :=
  congrArg (fun f => (fileLines text).foldl f cfg) (funext fun cfg => funext fun line => clientConfigParseLine_snd line cfg)

theorem clientConfigSave_eq {cfg : ClientConfigValues} (h : (clientSchema.format cfg).length < configBufferSize) :
    clientConfigSave cfg = some (clientSchema.format cfg) := if_pos h

theorem serverConfigSave_eq {cfg : ServerConfig} (h : (serverSchema.format cfg).length < configBufferSize) :
    serverConfigSave cfg = some (serverSchema.format cfg) := if_pos h

/-- A configuration that is saved is given back exactly when each of its values is one that the parser can give. -/
theorem configSave_load_iff (client : ClientConfigValues) (server : ServerConfig) :
    (∀ text ∈ clientConfigSave client,
      (clientConfigLoad text clientSchema.init = client ↔ clientSchema.Fits client)) ∧
    ∀ text ∈ serverConfigSave server,
      (serverConfigLoad text serverSchema.init = server ↔ serverSchema.Fits server) := by
  constructor
  · intro text htext
    obtain ⟨-, heq⟩ := Option.ite_none_right_eq_some.mp htext
    cases heq
    rw [clientConfigLoad_eq]
    exact Schema.load_format_iff
  · intro text htext
    obtain ⟨-, heq⟩ := Option.ite_none_right_eq_some.mp htext
    cases heq
    rw [serverConfigLoad_eq]
    exact Schema.load_format_iff

namespace ConfigExample

/-- A client after `maxStockByThread -1`. -/
def client : ClientConfigValues := clientConfigCaptureEffective { ClientConfigExample.globals with maxStockByThread := -1 }

/-- A server that was started with `--http-token-file token#1`. -/
def server : ServerConfig
  | .nbThreads => some (80 : Int)
  | .partsFile => some "data/pieces.csv".toList
  | .expandLevel => some (0 : Int)
  | .expandMaxStock => some (1000000 : Int)
  | .expandMaxLevels => some (10 : Int)
  | .expandThreads => some (0 : Int)
  | .httpPort => some (8080 : Int)
  | .httpTokenFile => some "token#1".toList
  | .stockFiles => some (10 : Int)
  | .stockMaxRam => none
  | .stockSpillDir => some "./eternityii-spill".toList
  | .rebalanceBudget => some (1000 : Int)
  | .stockHotMax => some (100000 : Int)
  | .stockHotMin => some (10000 : Int)
  | .tcpTimeout => some (30 : Int)
  | .autoRoles => some (0 : Int)
  | .stopOnSolution => some (0 : Int)
  | .headless => some (0 : Int)
  | .sortEnabled => some (0 : Int)
  | .sortInterval => some (60 : Int)
  | .sortDirection => some (0 : Int)
  | .sortLockAttempts => some (3 : Int)
  | .rmnonextEnabled => some (1 : Int)
  | .rmnonextInterval => some (60 : Int)
  | .rebalanceEnabled => some (1 : Int)
  | .autobackupEnabled => some (1 : Int)

end ConfigExample

set_option maxRecDepth 4000 in
/-- The negative bound is refused when the file is read, and the path is cut at its comment sign. -/
theorem configSave_load_loses :
    (∃ text ∈ clientConfigSave ConfigExample.client,
      clientConfigLoad text clientSchema.init .maxStockByThread = none ∧
        clientConfigLoad text clientSchema.init ≠ ConfigExample.client) ∧
    ∃ text ∈ serverConfigSave ConfigExample.server,
      serverConfigLoad text serverSchema.init .httpTokenFile = some "token".toList ∧
        serverConfigLoad text serverSchema.init ≠ ConfigExample.server := by
  have hclient := @clientConfigSave_eq ConfigExample.client (by decide)
  have hserver := @serverConfigSave_eq ConfigExample.server (by decide)
  have hbound : clientConfigLoad (clientSchema.format ConfigExample.client) clientSchema.init .maxStockByThread = none :=
    rfl
  have hpath : serverConfigLoad (serverSchema.format ConfigExample.server) serverSchema.init .httpTokenFile =
      some "token".toList := rfl
  refine ⟨⟨_, hclient, hbound, fun heq => ?_⟩, ⟨_, hserver, hpath, fun heq => ?_⟩⟩
  · rw [heq] at hbound
    cases hbound
  · rw [heq] at hpath
    exact absurd hpath (by decide)
