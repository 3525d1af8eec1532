-- SUMMARY: The configuration of a client: its keys, its globals, and when what is saved is what start uses.
import EternityII.Base.KeyValueFile
import EternityII.Ui.CommandLines

/-!
# The configuration of a client

A client holds its configuration in globals. Lines of `config` prepare changes in a configuration of its own,
which `start` applies to the globals, and which `configSave` lays over the captured ones to write them to the
file. Both enumerate the keys by hand.
-/

open KeyValue

/-! ## Keys -/

/-- `INT_MIN`. -/
def intMin : Int := -2 ^ 31

/-- The keys of `client_config_t`. -/
inductive ClientKey where
  | nbForks
  | prunerForks
  | serverHost
  | partsFile
  | maxStockByThread
  | shallowRootAbandonDepth
  | limit
  | prunerBatch
  | dfsBudget
deriving DecidableEq

/-- An `int` from 1 on. -/
@[reducible]
def positiveInt : ValueKind := .number 1 intMax (by decide)

/-- An `int` from 0 on. -/
@[reducible]
def nonNegativeInt : ValueKind := .number 0 intMax (by decide)

/-- The branches of `client_config_parse_line`: what is taken for each key. -/
@[reducible]
def ClientKey.kind : ClientKey → ValueKind
  | .nbForks => positiveInt
  | .prunerForks => nonNegativeInt
  | .serverHost => .text
  | .partsFile => .text
  | .maxStockByThread => nonNegativeInt
  | .shallowRootAbandonDepth => nonNegativeInt
  | .limit => .unsigned
  | .prunerBatch => .clamped intMin intMax 1 prunerBatchMax (by decide)
  | .dfsBudget => .clamped intMin intMax 0 prunerDfsBudgetMax (by decide)

/-- The names of the keys in the file. -/
def ClientKey.name : ClientKey → List Char
  | .nbForks => "nb_forks".toList
  | .prunerForks => "pruner_forks".toList
  | .serverHost => "server_host".toList
  | .partsFile => "parts_file".toList
  | .maxStockByThread => "max_stock_by_thread".toList
  | .shallowRootAbandonDepth => "shallow_root_abandon_depth".toList
  | .limit => "limit".toList
  | .prunerBatch => "pruner_batch".toList
  | .dfsBudget => "dfs_budget".toList

/-- The file of a client, its lines in the order of `client_config_format`. -/
@[reducible]
def clientSchema : Schema ClientKey where
  keys := [.nbForks, .prunerForks, .serverHost, .partsFile, .maxStockByThread, .shallowRootAbandonDepth, .limit,
    .prunerBatch, .dfsBudget]
  name := ClientKey.name
  kind := ClientKey.kind
  width := 20
  mem_keys k := by cases k <;> decide
  nodup_names := by decide
  isName k := by cases k <;> decide

/-- `client_config_t`: a key has a value when its `has_` field is set. -/
abbrev ClientConfigValues : Type := clientSchema.Config

/-! ## Lines and files -/

/-- `client_config_parse_line`. -/
def clientConfigParseLine (line : List Char) (cfg : ClientConfigValues) : ConfigLineStatus × ClientConfigValues :=
  match clientSchema.parseLine line with
  | .ignored => (.ignored, cfg)
  | .unknown _ => (.unknownKey, cfg)
  | .invalid => (.invalidValue, cfg)
  | .set k v => (.set, Schema.Line.apply cfg (.set k v))

/-- `client_config_load`, on the text of a file. -/
def clientConfigLoad (text : List Char) (cfg : ClientConfigValues) : ClientConfigValues :=
  (fileLines text).foldl (fun cfg line => (clientConfigParseLine line cfg).2) cfg

/-- `client_config_format`; `none` where the text does not fit with its end. -/
def clientConfigFormat (cfg : ClientConfigValues) (outSize : Nat) : Option (List Char) :=
  let text := clientSchema.format cfg
  if text.length < outSize then some text else none

/-- The buffer of a save. -/
def configBufferSize : Nat := 1024

/-- `client_config_save`: the text of the file, where it can be written. -/
def clientConfigSave (cfg : ClientConfigValues) : Option (List Char) := clientConfigFormat cfg configBufferSize

/-! ## Globals -/

/-- The globals of a client that its configuration covers. -/
structure ClientGlobals where
  nbThreads : Int
  prunerForksRequested : Int
  serverHost : Option (List Char)
  partsFiles : Option (List Char)
  maxStockByThread : Int
  shallowRootAbandonDepth : Int
  maxSearchBySec : Nat
  prunerBatchSize : Int
  prunerDfsBudget : Int

/-- `client_config_capture_effective`. -/
def clientConfigCaptureEffective (g : ClientGlobals) : ClientConfigValues
  | .nbForks => some g.nbThreads
  | .prunerForks => if g.prunerForksRequested ≥ 0 then some g.prunerForksRequested else none
  | .serverHost => g.serverHost.filter (· ≠ [])
  | .partsFile => g.partsFiles
  | .maxStockByThread => some g.maxStockByThread
  | .shallowRootAbandonDepth => some g.shallowRootAbandonDepth
  | .limit => some g.maxSearchBySec
  | .prunerBatch => some g.prunerBatchSize
  | .dfsBudget => some g.prunerDfsBudget

/-- `client_config_apply_direct`. -/
def clientConfigApplyDirect (cfg : ClientConfigValues) (g : ClientGlobals) : ClientGlobals where
  nbThreads := (cfg .nbForks).getD g.nbThreads
  prunerForksRequested := (cfg .prunerForks).getD g.prunerForksRequested
  serverHost := (cfg .serverHost).or g.serverHost
  partsFiles := (cfg .partsFile).or g.partsFiles
  maxStockByThread := (cfg .maxStockByThread).getD g.maxStockByThread
  shallowRootAbandonDepth := (cfg .shallowRootAbandonDepth).getD g.shallowRootAbandonDepth
  maxSearchBySec := (cfg .limit).getD g.maxSearchBySec
  prunerBatchSize := (cfg .prunerBatch).getD g.prunerBatchSize
  prunerDfsBudget := (cfg .dfsBudget).getD g.prunerDfsBudget

/-- `client_config_diff_t`. -/
inductive ClientConfigDiff where
  | hotOnly
  | needsRestart
deriving DecidableEq

/-- `client_config_diff`. -/
def clientConfigDiff (current staged : ClientConfigValues) : ClientConfigDiff :=
  if staged .nbForks ≠ none ∧ staged .nbForks ≠ current .nbForks then .needsRestart
  else if staged .prunerForks ≠ none ∧ staged .prunerForks ≠ current .prunerForks then .needsRestart
  else if staged .serverHost ≠ none ∧ staged .serverHost ≠ current .serverHost then .needsRestart
  else if staged .partsFile ≠ none ∧ staged .partsFile ≠ current .partsFile then .needsRestart
  else .hotOnly

/-! ## The prepared configuration -/

/-- `fork_orchestrator_stage_config_line`, on the prepared configuration. -/
def stageConfigLine (staged : ClientConfigValues) (line : List Char) : ClientConfigValues := (clientConfigParseLine line staged).2

/-- What some lines prepare; a line that is not accepted changes nothing. -/
def stagedConfig (lines : List (List Char)) : ClientConfigValues := lines.foldl stageConfigLine clientSchema.init

/-- `fork_orchestrator_merge_staged_config`: it has no branch for `pruner_forks`. -/
def forkOrchestratorMergeStagedConfig (staged out : ClientConfigValues) : ClientConfigValues
  | .nbForks => (staged .nbForks).or (out .nbForks)
  | .prunerForks => out .prunerForks
  | .serverHost => (staged .serverHost).or (out .serverHost)
  | .partsFile => (staged .partsFile).or (out .partsFile)
  | .maxStockByThread => (staged .maxStockByThread).or (out .maxStockByThread)
  | .shallowRootAbandonDepth => (staged .shallowRootAbandonDepth).or (out .shallowRootAbandonDepth)
  | .limit => (staged .limit).or (out .limit)
  | .prunerBatch => (staged .prunerBatch).or (out .prunerBatch)
  | .dfsBudget => (staged .dfsBudget).or (out .dfsBudget)

/-- The configuration that `configSave` writes. -/
def savedConfig (staged : ClientConfigValues) (g : ClientGlobals) : ClientConfigValues :=
  forkOrchestratorMergeStagedConfig staged (clientConfigCaptureEffective g)

/-- The configuration that `start` uses: that of the globals after the prepared one is applied. -/
def startConfig (staged : ClientConfigValues) (g : ClientGlobals) : ClientConfigValues :=
  clientConfigCaptureEffective (clientConfigApplyDirect staged g)

/-- The configuration that `config` shows: the prepared values, and the effective ones for the other keys. -/
def shownConfig (staged : ClientConfigValues) (g : ClientGlobals) : ClientConfigValues := fun k =>
  (staged k).or (clientConfigCaptureEffective g k)

/-- The four globals that forks have from their start stay as they were. -/
def KeepsForks (g g' : ClientGlobals) : Prop :=
  g'.nbThreads = g.nbThreads ∧ g'.prunerForksRequested = g.prunerForksRequested ∧ g'.serverHost = g.serverHost ∧
    g'.partsFiles = g.partsFiles

/-! ## What is saved is what start uses -/

/-- The configuration that is saved, and the one that is shown, are the one that `start` uses; and only a change
of what forks have from their start asks for a restart. -/
structure ConfigRight (staged : ClientConfigValues) (g : ClientGlobals) : Prop where
  saved : savedConfig staged g = startConfig staged g
  shown : shownConfig staged g = startConfig staged g
  diff : clientConfigDiff (clientConfigCaptureEffective g) staged = .hotOnly ↔
    KeepsForks g (clientConfigApplyDirect staged g)

section Configuration

variable {staged : ClientConfigValues} {g : ClientGlobals}

theorem clientConfigParseLine_snd (line : List Char) (cfg : ClientConfigValues) :
    (clientConfigParseLine line cfg).2 = (clientSchema.parseLine line).apply cfg := by
  unfold clientConfigParseLine
  cases clientSchema.parseLine line with
  | ignored => rfl
  | unknown key => rfl
  | invalid => rfl
  | set k v => rfl

/-- What is prepared can come from the parser. -/
theorem fits_stagedConfig (lines : List (List Char)) : clientSchema.Fits (stagedConfig lines) := by
  have hrun : ∀ (lines : List (List Char)) (cfg : ClientConfigValues), clientSchema.Fits cfg →
      clientSchema.Fits (lines.foldl stageConfigLine cfg) := by
    intro lines
    induction lines with
    | nil => exact fun cfg h => h
    | cons line lines ih =>
      intro cfg h
      refine ih _ ?_
      rw [stageConfigLine, clientConfigParseLine_snd]
      exact h.apply line
  exact hrun lines _ Schema.fits_init

/-- The prepared value of each key, or else the effective one, is what `start` uses. -/
theorem shownConfig_eq (h : clientSchema.Fits staged) : shownConfig staged g = startConfig staged g := by
  funext k
  cases k with
  | nbForks => exact Option.or_some
  | maxStockByThread => exact Option.or_some
  | shallowRootAbandonDepth => exact Option.or_some
  | limit => exact Option.or_some
  | prunerBatch => exact Option.or_some
  | dfsBudget => exact Option.or_some
  | partsFile => rfl
  | prunerForks =>
    have hstart : startConfig staged g .prunerForks = if (staged .prunerForks).getD g.prunerForksRequested ≥ 0 then
        some ((staged .prunerForks).getD g.prunerForksRequested) else none := rfl
    rw [shownConfig, hstart]
    cases hv : staged .prunerForks with
    | none => rfl
    | some n =>
      have hn : (0 : Int) ≤ n := (h .prunerForks n hv).1
      exact (if_pos hn).symm
  | serverHost =>
    have hstart : startConfig staged g .serverHost = ((staged .serverHost).or g.serverHost).filter (· ≠ []) := rfl
    rw [shownConfig, hstart]
    cases hv : staged .serverHost with
    | none => rfl
    | some t =>
      have ht : t ≠ [] := (h .serverHost t hv).ne_nil
      rw [Option.some_or, Option.some_or, Option.filter_some, if_pos (decide_eq_true ht)]

/-- The saved configuration differs from the one that `start` uses in nothing but the pruner forks. -/
theorem savedConfig_eq_iff (h : clientSchema.Fits staged) : savedConfig staged g = startConfig staged g ↔
    (staged .prunerForks = none ∨ staged .prunerForks = clientConfigCaptureEffective g .prunerForks) := by
  rw [← shownConfig_eq h]
  constructor
  · intro heq
    have hkey : clientConfigCaptureEffective g .prunerForks =
        (staged .prunerForks).or (clientConfigCaptureEffective g .prunerForks) := congrFun heq .prunerForks
    cases hv : staged .prunerForks with
    | none => exact .inl rfl
    | some n =>
      rw [hv, Option.some_or] at hkey
      exact .inr hkey.symm
  · intro hkey
    funext k
    cases k with
    | prunerForks =>
      show clientConfigCaptureEffective g .prunerForks =
        (staged .prunerForks).or (clientConfigCaptureEffective g .prunerForks)
      rcases hkey with hnone | hsame
      · rw [hnone, Option.none_or]
      · rw [hsame, Option.or_self]
    | nbForks => rfl
    | serverHost => rfl
    | partsFile => rfl
    | maxStockByThread => rfl
    | shallowRootAbandonDepth => rfl
    | limit => rfl
    | prunerBatch => rfl
    | dfsBudget => rfl

/-- No restart is asked for when each of the four keys is not prepared or has its value already. -/
theorem clientConfigDiff_eq_hotOnly {current : ClientConfigValues} : clientConfigDiff current staged = .hotOnly ↔
    (staged .nbForks = none ∨ staged .nbForks = current .nbForks) ∧
    (staged .prunerForks = none ∨ staged .prunerForks = current .prunerForks) ∧
    (staged .serverHost = none ∨ staged .serverHost = current .serverHost) ∧
    (staged .partsFile = none ∨ staged .partsFile = current .partsFile) := by
  unfold clientConfigDiff
  split
  · rename_i h
    exact iff_of_false nofun fun h' => h'.1.elim h.1 h.2
  · rename_i h₁
    split
    · rename_i h
      exact iff_of_false nofun fun h' => h'.2.1.elim h.1 h.2
    · rename_i h₂
      split
      · rename_i h
        exact iff_of_false nofun fun h' => h'.2.2.1.elim h.1 h.2
      · rename_i h₃
        split
        · rename_i h
          exact iff_of_false nofun fun h' => h'.2.2.2.elim h.1 h.2
        · rename_i h₄
          exact iff_of_true rfl ⟨Decidable.or_iff_not_not_and_not.mpr h₁, Decidable.or_iff_not_not_and_not.mpr h₂,
            Decidable.or_iff_not_not_and_not.mpr h₃, Decidable.or_iff_not_not_and_not.mpr h₄⟩

theorem getD_eq_iff {α : Type} {o : Option α} {a : α} : o.getD a = a ↔ o = none ∨ o = some a := by
  cases o with
  | none => exact iff_of_true rfl (.inl rfl)
  | some b => exact ⟨fun h => .inr (congrArg some h), fun h => h.elim nofun Option.some.inj⟩

theorem or_eq_iff {α : Type} {o o' : Option α} : o.or o' = o' ↔ o = none ∨ o = o' := by
  cases o with
  | none => exact iff_of_true rfl (.inl rfl)
  | some a => exact ⟨.inr, fun h => h.elim nofun id⟩

/-- Whether a restart is asked for. -/
theorem clientConfigDiff_capture_iff (h : clientSchema.Fits staged) :
    clientConfigDiff (clientConfigCaptureEffective g) staged = .hotOnly ↔
      KeepsForks g (clientConfigApplyDirect staged g) := by
  rw [clientConfigDiff_eq_hotOnly]
  refine and_congr getD_eq_iff.symm (and_congr ?_ (and_congr ?_ or_eq_iff.symm))
  · -- a number that is not requested is no prepared one
    rw [show (clientConfigApplyDirect staged g).prunerForksRequested =
      (staged .prunerForks).getD g.prunerForksRequested from rfl, getD_eq_iff]
    have hcaptured : clientConfigCaptureEffective g .prunerForks =
        if g.prunerForksRequested ≥ 0 then some g.prunerForksRequested else none := rfl
    rw [hcaptured]
    by_cases hrequested : g.prunerForksRequested ≥ 0
    · rw [if_pos hrequested]
    · rw [if_neg hrequested]
      refine ⟨fun hnone => .inl (hnone.elim id id), fun hkept => hkept.elim .inl fun hsome => ?_⟩
      exact absurd (h .prunerForks _ hsome).1 hrequested
  · -- nor is an empty host
    rw [show (clientConfigApplyDirect staged g).serverHost = (staged .serverHost).or g.serverHost from rfl, or_eq_iff]
    have hcaptured : clientConfigCaptureEffective g .serverHost = g.serverHost.filter (· ≠ []) := rfl
    rw [hcaptured]
    cases hhost : g.serverHost with
    | none => exact Iff.rfl
    | some host =>
      by_cases hempty : host = []
      · subst hempty
        refine ⟨fun hnone => .inl (hnone.elim id id), fun hkept => hkept.elim .inl fun hsome => ?_⟩
        exact absurd rfl (h .serverHost _ hsome).ne_nil
      · rw [Option.filter_some, if_pos (decide_eq_true hempty)]

end Configuration

/-- After any lines, what is saved is what `start` uses exactly when no line prepares another number of pruner
forks than the one in use. -/
theorem configRight_iff (g : ClientGlobals) (lines : List (List Char)) : ConfigRight (stagedConfig lines) g ↔
    (stagedConfig lines .prunerForks = none ∨
      stagedConfig lines .prunerForks = clientConfigCaptureEffective g .prunerForks) := by
  have hfits := fits_stagedConfig lines
  constructor
  · intro h
    exact (savedConfig_eq_iff hfits).mp h.saved
  · intro h
    exact ⟨(savedConfig_eq_iff hfits).mpr h, shownConfig_eq hfits, clientConfigDiff_capture_iff hfits⟩

namespace ClientConfigExample

/-- A client of four forks, for which no number of pruner forks is requested. -/
def globals : ClientGlobals := ⟨4, -1, some "localhost".toList, none, 1000, 0, 0, 100, 0⟩

end ClientConfigExample

/-- `config pruner_forks 2`, then `configSave`: the file has no pruner forks, and `start` uses two. -/
theorem savedConfig_forgets :
    savedConfig (stagedConfig ["pruner_forks = 2".toList]) ClientConfigExample.globals .prunerForks = none ∧
    startConfig (stagedConfig ["pruner_forks = 2".toList]) ClientConfigExample.globals .prunerForks = some (2 : Int) ∧
    ¬ ConfigRight (stagedConfig ["pruner_forks = 2".toList]) ClientConfigExample.globals := by
  have hsaved : savedConfig (stagedConfig ["pruner_forks = 2".toList]) ClientConfigExample.globals .prunerForks = none := rfl
  have hstart : startConfig (stagedConfig ["pruner_forks = 2".toList]) ClientConfigExample.globals .prunerForks =
      some (2 : Int) := rfl
  refine ⟨hsaved, hstart, fun h => ?_⟩
  cases hsaved.symm.trans ((congrFun h.saved .prunerForks).trans hstart)
