-- SUMMARY: The registry of control sessions: what a session receives, and the pairs of dosage commands.
import EternityII.App.RoleMix
import EternityII.Base.Decimal
import EternityII.Base.RingBuffer

/-!
# The control registry

Each control session has a slot with a ring of sixteen commands. Two levels of locks guard them: one
mutex of the registry for registrations, broadcasts, targeted sends and dosages, one mutex for each
slot for a single post or wait. A broadcast or a dosage posts slot by slot, and between two of its
posts a slot may be read or written by others. A new dosage is two commands, posted one after the
other; they belong together.
-/

/-- `CONTROL_SESSION_QUEUE_CAP`. -/
def controlSessionQueueCap : Nat := 16

/-- `CONTROL_COMMAND_LINE_MAX`. -/
def controlCommandLineMax : Nat := 256

/-- `CLIENT_UID_BYTES`. -/
def clientUidBytes : Nat := 16

/-- `CTRL_COMMAND`. -/
def ctrlCommand : UInt8 := 5

/-- `control_pending_command_t`. -/
structure PendingCommand where
  cmd : UInt8
  commandLine : List Char
  deriving DecidableEq, Repr

/-- What a session announces: `control_hello_t`, the fields that the registry reads. -/
structure ControlHello where
  machineUid : Nat
  clientUid : Nat
  label : List Char
  deriving DecidableEq, Repr

/-- `control_session_t`. -/
structure ControlSlot where
  inUse : Bool
  sessionNo : Nat
  hello : ControlHello
  queue : RingBuffer PendingCommand

/-- `copy_bounded_command_line`. -/
def copyBoundedCommandLine (source : List Char) : List Char := source.take (controlCommandLineMax - 1)

/-- `command_line_first_word_is`. -/
def commandLineFirstWordIs (commandLine : Option (List Char)) (word : List Char) : Bool :=
  match commandLine with
  | none => false
  | some line => word.isPrefixOf line && (line.drop word.length).head?.all (· = ' ')

/-! ## Targets -/

/-- `strtoull` in base ten on a whole string; `none` where it stops early or sets `errno`. -/
def strtoull (s : List Char) : Option Nat :=
  let s := s.dropWhile Decimal.isSpace
  let negative := s.head? = some '-'
  let digits := if negative ∨ s.head? = some '+' then s.tail else s
  if digits = [] ∨ !digits.all Char.isDigit then none
  else
    let v := Nat.ofDigitChars 10 digits 0
    if v ≥ 2 ^ 64 then none else some (if negative then (2 ^ 64 - v) % 2 ^ 64 else v)

/-- `hex_nibble`. -/
def hexNibble (c : Char) : Option Nat :=
  if '0' ≤ c ∧ c ≤ '9' then some (c.toNat - '0'.toNat)
  else if 'a' ≤ c ∧ c ≤ 'f' then some (c.toNat - 'a'.toNat + 10)
  else if 'A' ≤ c ∧ c ≤ 'F' then some (c.toNat - 'A'.toNat + 10)
  else none

/-- `target_matches_session_no`. -/
def targetMatchesSessionNo (target : List Char) (sessionNo : Nat) : Bool := strtoull target = some sessionNo

/-- `target_matches_client_uid`. -/
def targetMatchesClientUid (target : List Char) (clientUid : Nat) : Bool :=
  target.length = 2 * clientUidBytes &&
    target.foldlM (fun n c => (hexNibble c).map (16 * n + ·)) 0 = some clientUid

/-- One of the three ways to name a session. -/
def ControlSlot.hit (s : ControlSlot) (target : List Char) : Bool :=
  targetMatchesSessionNo target s.sessionNo || targetMatchesClientUid target s.hello.clientUid ||
    target = s.hello.label

/-! ## The registry -/

/-- Where a command comes from: one of the two commands of a dosage, or anything else. -/
inductive CommandOrigin
  | plain
  | config (prunerForks : Int)
  | apply (prunerForks : Int)
  deriving DecidableEq, Repr

/-- A command taken into the queue of a session. -/
structure AcceptedCommand where
  command : PendingCommand
  origin : CommandOrigin
  deriving DecidableEq, Repr

/-- What the holder of the registry's mutex still has to post. -/
inductive RegistryTask
  | post (index : Nat) (cmd : UInt8) (commandLine : Option (List Char))
  | config (index : Nat) (prunerForks : Int)
  | apply (index : Nat) (prunerForks : Int)
  deriving DecidableEq, Repr

/-- The registry, the thread inside `g_registry_mutex`, and the history: what each session number has
accepted and received, and the dosage of the last pair queued for each machine. -/
structure ControlRegistry where
  slots : Nat → ControlSlot
  nextSessionNo : Nat
  desiredPauseState : Bool
  desiredRoles : List (Nat × Int)
  holder : Option (List RegistryTask)
  accepted : Nat → List AcceptedCommand
  received : Nat → List PendingCommand
  lastDosage : Nat → Option Int

/-- `"config pruner_forks %d"`. -/
def configCommand (prunerForks : Int) : AcceptedCommand :=
  ⟨⟨ctrlCommand, copyBoundedCommandLine ("config pruner_forks ".toList ++ Decimal.print prunerForks)⟩,
    .config prunerForks⟩

/-- `"configApply"`. -/
def configApplyCommand (prunerForks : Int) : AcceptedCommand :=
  ⟨⟨ctrlCommand, copyBoundedCommandLine "configApply".toList⟩, .apply prunerForks⟩

/-- `"pause"` in the queue of a new session. -/
def pauseCommand : AcceptedCommand := ⟨⟨ctrlCommand, copyBoundedCommandLine "pause".toList⟩, .plain⟩

/-- A command posted for any other reason. -/
def plainCommand (cmd : UInt8) (commandLine : Option (List Char)) : AcceptedCommand :=
  ⟨⟨cmd, copyBoundedCommandLine (commandLine.getD [])⟩, .plain⟩

namespace ControlRegistry

/-- The registry before its first session. -/
def start : ControlRegistry where
  slots _ := ⟨false, 0, ⟨0, 0, []⟩, ⟨fun _ => ⟨0, []⟩, 0, 0⟩⟩
  nextSessionNo := 1
  desiredPauseState := false
  desiredRoles := []
  holder := none
  accepted _ := []
  received _ := []
  lastDosage _ := none

variable (g : ControlRegistry)

/-- `control_registry_post_command`; `none` for -1. -/
def post (index : Nat) (c : AcceptedCommand) : Option ControlRegistry :=
  let s := g.slots index
  if index < maxControlSessions ∧ s.inUse = true ∧ s.queue.count < controlSessionQueueCap then
    some { g with
      slots := Function.update g.slots index { s with queue := s.queue.push controlSessionQueueCap c.command }
      accepted := Function.update g.accepted s.sessionNo (g.accepted s.sessionNo ++ [c]) }
  else none

/-- `control_registry_wait_command`: where there is a command it is taken, otherwise nothing changes. -/
def waitCommand (index : Nat) : ControlRegistry :=
  let s := g.slots index
  if index < maxControlSessions ∧ s.inUse = true ∧ 0 < s.queue.count then
    { g with
      slots := Function.update g.slots index { s with queue := s.queue.pop controlSessionQueueCap }
      received := Function.update g.received s.sessionNo (g.received s.sessionNo ++ [s.queue.front]) }
  else g

/-- The dosage that a registration puts into the new queue: the one wanted for the machine, where there
is room for both of its commands. -/
def preloadDosage (machineUid : Nat) : Option Int :=
  (g.desiredRoles.lookup machineUid).filter fun _ =>
    (if g.desiredPauseState then 1 else 0) + 2 ≤ controlSessionQueueCap

/-- What a registration puts into the new queue. -/
def preload (machineUid : Nat) : List AcceptedCommand :=
  (if g.desiredPauseState then [pauseCommand] else []) ++
    ((g.preloadDosage machineUid).map fun prunerForks =>
      [configCommand prunerForks, configApplyCommand prunerForks]).getD []

/-- `control_registry_register`. -/
def register (hello : ControlHello) : ControlRegistry :=
  match (List.range maxControlSessions).find? fun i => !(g.slots i).inUse with
  | none => g
  | some index =>
    let preload := g.preload hello.machineUid
    { g with
      slots := Function.update g.slots index
        { inUse := true
          sessionNo := g.nextSessionNo
          hello := hello
          queue := (preload.map AcceptedCommand.command).foldl (RingBuffer.push controlSessionQueueCap)
            (g.slots index).queue.clear }
      nextSessionNo := g.nextSessionNo + 1
      accepted := Function.update g.accepted g.nextSessionNo preload
      lastDosage := Function.update g.lastDosage hello.machineUid
        ((g.preloadDosage hello.machineUid).or (g.lastDosage hello.machineUid)) }

/-- `control_registry_unregister`. -/
def unregister (index : Nat) : ControlRegistry :=
  if index < maxControlSessions then
    { g with
      slots := Function.update g.slots index
        { g.slots index with inUse := false, queue := (g.slots index).queue.clear } }
  else g

/-- The one slot that a target names. -/
def resolve (target : List Char) : Option Nat :=
  let hits := (List.range maxControlSessions).filter fun i => (g.slots i).inUse && (g.slots i).hit target
  if hits.length = 1 then hits.head? else none

/-- `control_registry_broadcast_command` up to its loop. -/
def broadcastCommand (cmd : UInt8) (commandLine : Option (List Char)) : ControlRegistry :=
  { g with
    desiredPauseState :=
      if cmd = ctrlCommand ∧ commandLineFirstWordIs commandLine "pause".toList = true then true
      else if cmd = ctrlCommand ∧ commandLineFirstWordIs commandLine "resume".toList = true then false
      else g.desiredPauseState
    holder := some ((List.range maxControlSessions).map fun i => .post i cmd commandLine) }

/-- `control_registry_send_command_to` up to its post. -/
def sendCommandTo (target : Option (List Char)) (cmd : UInt8) (commandLine : Option (List Char)) :
    ControlRegistry :=
  match target with
  | none => g
  | some target => { g with holder := some ((g.resolve target).toList.map fun i => .post i cmd commandLine) }

/-- `control_registry_apply_role_dosage` up to its posts. -/
def applyRoleDosage (target : Option (List Char)) (prunerForks : Int) : ControlRegistry :=
  let indices := if target.getD [] = [] then List.range maxControlSessions
    else (g.resolve (target.getD [])).toList
  { g with holder := some (indices.map fun i => .config i prunerForks) }

/-- The holder of the mutex does its next post, or leaves the mutex. -/
def advance : Option ControlRegistry :=
  match g.holder with
  | none => none
  | some [] => some { g with holder := none }
  | some (.post index cmd commandLine :: rest) =>
    some { (g.post index (plainCommand cmd commandLine)).getD g with holder := some rest }
  | some (.config index prunerForks :: rest) =>
    match g.post index (configCommand prunerForks) with
    | some g => some { g with holder := some (.apply index prunerForks :: rest) }
    | none => some { g with holder := some rest }
  | some (.apply index prunerForks :: rest) =>
    match g.post index (configApplyCommand prunerForks) with
    | some g =>
      -- `copy_machine_uid_if_active_locked` and `desired_role_set_locked`
      let machineUid := (g.slots index).hello.machineUid
      some { g with
        desiredRoles := desiredRoleSet g.desiredRoles machineUid prunerForks
        lastDosage := Function.update g.lastDosage machineUid (some prunerForks)
        holder := some rest }
    | none => some { g with holder := some rest }

end ControlRegistry

/-- The calls of the registry, and the posts of a call that holds its mutex. -/
inductive ControlAction
  | register (hello : ControlHello)
  | unregister (index : Nat)
  | postCommand (index : Nat) (cmd : UInt8) (commandLine : Option (List Char))
  | waitCommand (index : Nat)
  | broadcastCommand (cmd : UInt8) (commandLine : Option (List Char))
  | sendCommandTo (target : Option (List Char)) (cmd : UInt8) (commandLine : Option (List Char))
  | applyRoleDosage (target : Option (List Char)) (prunerForks : Int)
  | advance

/-- One step of some thread. The calls that need the registry's mutex wait until it is free. -/
def ControlRegistry.step (g : ControlRegistry) : ControlAction → Option ControlRegistry
  | .register hello => if g.holder.isSome then none else some (g.register hello)
  | .unregister index => if g.holder.isSome then none else some (g.unregister index)
  | .postCommand index cmd commandLine => some ((g.post index (plainCommand cmd commandLine)).getD g)
  | .waitCommand index => some (g.waitCommand index)
  | .broadcastCommand cmd commandLine =>
    if g.holder.isSome then none else some (g.broadcastCommand cmd commandLine)
  | .sendCommandTo target cmd commandLine =>
    if g.holder.isSome then none else some (g.sendCommandTo target cmd commandLine)
  | .applyRoleDosage target prunerForks =>
    if g.holder.isSome then none else some (g.applyRoleDosage target prunerForks)
  | .advance => g.advance

/-! ## What a session receives -/

/-- The commands that a session number has accepted, its preloads first. -/
def ControlRegistry.commands (g : ControlRegistry) (sessionNo : Nat) : List PendingCommand :=
  (g.accepted sessionNo).map AcceptedCommand.command

/-- Each session number has received a prefix of what it has accepted, and the queue of its slot holds
the rest. No two slots have the same number. -/
structure Delivered (g : ControlRegistry) : Prop where
  received : ∀ sessionNo, g.received sessionNo <+: g.commands sessionNo
  queued : ∀ i, (g.slots i).inUse = true → g.commands (g.slots i).sessionNo =
    g.received (g.slots i).sessionNo ++ (g.slots i).queue.toList controlSessionQueueCap
  unique : ∀ i j, (g.slots i).inUse = true → (g.slots j).inUse = true →
    (g.slots i).sessionNo = (g.slots j).sessionNo → i = j

/-- The invariant behind it: the numbers to come have no history. -/
structure DeliveryInv (g : ControlRegistry) : Prop extends Delivered g where
  bound : ∀ i, (g.slots i).inUse = true → i < maxControlSessions
  ring : ∀ i, (g.slots i).queue.head < controlSessionQueueCap
  number : ∀ i, (g.slots i).sessionNo < g.nextSessionNo
  fresh : ∀ n, g.nextSessionNo ≤ n → g.accepted n = [] ∧ g.received n = []

section Delivery

variable {g g' : ControlRegistry}

/-- Only the slots, the next number and the two histories matter. -/
theorem DeliveryInv.congr (h : DeliveryInv g) (hslots : g'.slots = g.slots) (hnext : g'.nextSessionNo = g.nextSessionNo)
    (haccepted : g'.accepted = g.accepted) (hreceived : g'.received = g.received) : DeliveryInv g' := by
  cases g'
  cases g
  subst hslots hnext haccepted hreceived
  exact ⟨⟨h.received, h.queued, h.unique⟩, h.bound, h.ring, h.number, h.fresh⟩

/-- A call that needs the registry's mutex finds it free. -/
theorem ControlRegistry.locked_eq_some {g₁ : ControlRegistry}
    (h : (if g.holder.isSome = true then none else some g₁) = some g') : g.holder = none ∧ g' = g₁ := by
  obtain ⟨hfree, heq⟩ := Option.ite_none_left_eq_some.mp h
  exact ⟨Option.not_isSome_iff_eq_none.mp hfree, (Option.some.inj heq).symm⟩

theorem deliveryInv_start : DeliveryInv .start where
  received _ := List.prefix_rfl
  queued _ h := absurd h Bool.false_ne_true
  unique _ _ h := absurd h Bool.false_ne_true
  bound _ h := absurd h Bool.false_ne_true
  ring _ := Nat.zero_lt_succ _
  number _ := Nat.one_pos
  fresh _ _ := ⟨rfl, rfl⟩

/-- A change of one slot: the histories of the others stay, and the new occupant has a number of its
own. -/
theorem DeliveryInv.of_update (h : DeliveryInv g) {index : Nat} {s : ControlSlot}
    (hslots : g'.slots = Function.update g.slots index s) (hnext : g.nextSessionNo ≤ g'.nextSessionNo)
    (hothers : ∀ i, i ≠ index → (g.slots i).inUse = true →
      g'.accepted (g.slots i).sessionNo = g.accepted (g.slots i).sessionNo ∧
        g'.received (g.slots i).sessionNo = g.received (g.slots i).sessionNo)
    (hown : s.inUse = true → index < maxControlSessions ∧
      (∀ i, i ≠ index → (g.slots i).inUse = true → (g.slots i).sessionNo ≠ s.sessionNo) ∧
      g'.commands s.sessionNo = g'.received s.sessionNo ++ s.queue.toList controlSessionQueueCap)
    (hring : s.queue.head < controlSessionQueueCap) (hnumber : s.sessionNo < g'.nextSessionNo)
    (hreceived : ∀ n, g'.received n <+: g'.commands n)
    (hfresh : ∀ n, g'.nextSessionNo ≤ n → g'.accepted n = [] ∧ g'.received n = []) : DeliveryInv g' := by
  have hself : g'.slots index = s := by rw [hslots, Function.update_self]
  have hother : ∀ i, i ≠ index → g'.slots i = g.slots i := by
    intro i hi
    rw [hslots, Function.update_of_ne hi]
  refine ⟨⟨hreceived, fun i hi => ?_, fun i j hi hj heq => ?_⟩, fun i hi => ?_, fun i => ?_, fun i => ?_, hfresh⟩
  · by_cases hindex : i = index
    · subst hindex
      rw [hself] at hi ⊢
      exact (hown hi).2.2
    · rw [hother i hindex] at hi ⊢
      obtain ⟨haccepted, hrec⟩ := hothers i hindex hi
      rw [ControlRegistry.commands, haccepted, hrec]
      exact h.queued i hi
  · by_cases hindex : i = index
    · subst hindex
      by_contra hne
      rw [hself] at hi heq
      rw [hother j (Ne.symm hne)] at hj heq
      exact (hown hi).2.1 j (Ne.symm hne) hj heq.symm
    · rw [hother i hindex] at hi heq
      by_cases hj' : j = index
      · subst hj'
        rw [hself] at hj heq
        exact absurd heq ((hown hj).2.1 i hindex hi)
      · rw [hother j hj'] at hj heq
        exact h.unique i j hi hj heq
  · by_cases hindex : i = index
    · subst hindex
      rw [hself] at hi
      exact (hown hi).1
    · rw [hother i hindex] at hi
      exact h.bound i hi
  · by_cases hindex : i = index
    · subst hindex
      rw [hself]
      exact hring
    · rw [hother i hindex]
      exact h.ring i
  · by_cases hindex : i = index
    · subst hindex
      rw [hself]
      exact hnumber
    · rw [hother i hindex]
      exact Nat.lt_of_lt_of_le (h.number i) hnext

/-- What a post that is accepted does. -/
theorem ControlRegistry.post_eq_some {index : Nat} {c : AcceptedCommand} (h : g.post index c = some g') :
    (index < maxControlSessions ∧ (g.slots index).inUse = true ∧ (g.slots index).queue.count < controlSessionQueueCap) ∧
      g' = { g with
        slots := Function.update g.slots index
          { g.slots index with queue := (g.slots index).queue.push controlSessionQueueCap c.command }
        accepted := Function.update g.accepted (g.slots index).sessionNo
          (g.accepted (g.slots index).sessionNo ++ [c]) } := by
  obtain ⟨hroom, heq⟩ := Option.ite_none_right_eq_some.mp h
  exact ⟨hroom, (Option.some.inj heq).symm⟩

/-- A post keeps who sits where. -/
theorem ControlRegistry.post_slots {index : Nat} {c : AcceptedCommand} (h : g.post index c = some g') (i : Nat) :
    (g'.slots i).inUse = (g.slots i).inUse ∧ (g'.slots i).sessionNo = (g.slots i).sessionNo ∧
      (g'.slots i).hello = (g.slots i).hello := by
  obtain ⟨-, rfl⟩ := ControlRegistry.post_eq_some h
  by_cases hi : i = index
  · subst hi
    simp only [Function.update_self, and_self]
  · simp only [Function.update_of_ne hi, and_self]

/-- An occupied slot has a number that no other occupied slot has. -/
theorem DeliveryInv.sessionNo_ne (h : DeliveryInv g) {index i : Nat} (huse : (g.slots index).inUse = true)
    (hi : i ≠ index) (hinUse : (g.slots i).inUse = true) : (g.slots i).sessionNo ≠ (g.slots index).sessionNo :=
  fun heq => hi (h.unique i index hinUse huse heq)

theorem DeliveryInv.post (h : DeliveryInv g) {index : Nat} {c : AcceptedCommand} (hpost : g.post index c = some g') :
    DeliveryInv g' := by
  obtain ⟨⟨hbound, huse, hroom⟩, rfl⟩ := ControlRegistry.post_eq_some hpost
  have hqueued := h.queued index huse
  refine h.of_update rfl le_rfl (fun i hi hinUse => ?_) (fun _ => ⟨hbound, fun i hi hinUse => ?_, ?_⟩) (h.ring index)
    (h.number index) (fun n => ?_) (fun n hn => ?_)
  · exact ⟨Function.update_of_ne (h.sessionNo_ne huse hi hinUse) _ _, rfl⟩
  · exact h.sessionNo_ne huse hi hinUse
  · rw [ControlRegistry.commands] at hqueued ⊢
    dsimp only
    rw [Function.update_self, List.map_append, hqueued, RingBuffer.toList_push hroom, List.append_assoc]
    rfl
  · rw [ControlRegistry.commands]
    dsimp only
    by_cases hn : n = (g.slots index).sessionNo
    · subst hn
      rw [Function.update_self, List.map_append]
      exact (h.received _).trans (List.prefix_append _ _)
    · rw [Function.update_of_ne hn]
      exact h.received n
  · have hne : n ≠ (g.slots index).sessionNo := Nat.ne_of_gt (Nat.lt_of_lt_of_le (h.number index) hn)
    dsimp only
    rw [Function.update_of_ne hne]
    exact h.fresh n hn

theorem DeliveryInv.waitCommand (h : DeliveryInv g) (index : Nat) : DeliveryInv (g.waitCommand index) := by
  rw [ControlRegistry.waitCommand]
  split
  · rename_i htaken
    obtain ⟨hbound, huse, hcount⟩ := htaken
    have hqueued := h.queued index huse
    rw [RingBuffer.toList_pop (h.ring index) hcount] at hqueued
    refine h.of_update rfl le_rfl (fun i hi hinUse => ?_) (fun _ => ⟨hbound, fun i hi hinUse => ?_, ?_⟩)
      (Nat.mod_lt _ (Nat.zero_lt_succ _)) (h.number index) (fun n => ?_) (fun n hn => ?_)
    · exact ⟨rfl, Function.update_of_ne (h.sessionNo_ne huse hi hinUse) _ _⟩
    · exact h.sessionNo_ne huse hi hinUse
    · dsimp only
      rw [Function.update_self, List.append_assoc]
      exact hqueued
    · dsimp only
      by_cases hn : n = (g.slots index).sessionNo
      · subst hn
        rw [Function.update_self]
        refine ⟨RingBuffer.toList controlSessionQueueCap ((g.slots index).queue.pop controlSessionQueueCap), ?_⟩
        rw [List.append_assoc]
        exact hqueued.symm
      · rw [Function.update_of_ne hn]
        exact h.received n
    · have hne : n ≠ (g.slots index).sessionNo := Nat.ne_of_gt (Nat.lt_of_lt_of_le (h.number index) hn)
      dsimp only
      rw [Function.update_of_ne hne]
      exact h.fresh n hn
  · exact h

/-- What is put into a new queue fits. -/
theorem ControlRegistry.length_preload_le (machineUid : Nat) :
    (g.preload machineUid).length ≤ controlSessionQueueCap := by
  have hpause : (if g.desiredPauseState then [pauseCommand] else []).length ≤ 1 := by
    split <;> decide
  have hdosage : (((g.preloadDosage machineUid).map fun prunerForks =>
      [configCommand prunerForks, configApplyCommand prunerForks]).getD []).length ≤ 2 := by
    cases g.preloadDosage machineUid with
    | none => exact Nat.zero_le _
    | some prunerForks => exact le_rfl
  rw [ControlRegistry.preload, List.length_append]
  exact (Nat.add_le_add hpause hdosage).trans (by decide)

theorem DeliveryInv.register (h : DeliveryInv g) (hello : ControlHello) : DeliveryInv (g.register hello) := by
  rw [ControlRegistry.register]
  split
  · exact h
  · rename_i index hfound
    have hbound : index < maxControlSessions := List.mem_range.mp (List.mem_of_find?_eq_some hfound)
    have hfree : (g.slots index).queue.clear.count +
        ((g.preload hello.machineUid).map AcceptedCommand.command).length ≤ controlSessionQueueCap := by
      rw [RingBuffer.count_clear, List.length_map, Nat.zero_add]
      exact g.length_preload_le hello.machineUid
    obtain ⟨hlist, hhead⟩ := RingBuffer.toList_foldl_push hfree
    have hnew : g.received g.nextSessionNo = [] := (h.fresh _ le_rfl).2
    have hold : ∀ i, (g.slots i).sessionNo ≠ g.nextSessionNo := fun i => Nat.ne_of_lt (h.number i)
    refine h.of_update rfl (Nat.le_succ _) (fun i _ _ => ?_) (fun _ => ⟨hbound, fun i _ _ => hold i, ?_⟩) ?_
      (Nat.lt_succ_self _) (fun n => ?_) (fun n hn => ?_)
    · exact ⟨Function.update_of_ne (hold i) _ _, rfl⟩
    · rw [ControlRegistry.commands]
      dsimp only
      rw [Function.update_self, hlist, hnew]
      rfl
    · dsimp only
      rw [hhead]
      exact Nat.zero_lt_succ _
    · rw [ControlRegistry.commands]
      dsimp only
      by_cases hn : n = g.nextSessionNo
      · subst hn
        rw [hnew]
        exact List.nil_prefix
      · rw [Function.update_of_ne hn]
        exact h.received n
    · have hne : n ≠ g.nextSessionNo := Nat.ne_of_gt hn
      dsimp only
      rw [Function.update_of_ne hne]
      exact h.fresh n (Nat.le_of_succ_le hn)

theorem DeliveryInv.unregister (h : DeliveryInv g) (index : Nat) : DeliveryInv (g.unregister index) := by
  rw [ControlRegistry.unregister]
  split
  · refine h.of_update rfl le_rfl (fun i _ _ => ⟨rfl, rfl⟩) (fun huse => absurd huse Bool.false_ne_true)
      (Nat.zero_lt_succ _) (h.number index) h.received h.fresh
  · exact h

/-- A post that may be refused. -/
theorem DeliveryInv.post_getD (h : DeliveryInv g) (index : Nat) (c : AcceptedCommand) :
    DeliveryInv ((g.post index c).getD g) := by
  cases hpost : g.post index c with
  | none => exact h
  | some g' => exact h.post hpost

theorem DeliveryInv.advance (h : DeliveryInv g) (hadvance : g.advance = some g') : DeliveryInv g' := by
  unfold ControlRegistry.advance at hadvance
  split at hadvance
  · cases hadvance
  · cases hadvance
    exact h.congr rfl rfl rfl rfl
  · cases hadvance
    exact (h.post_getD _ _).congr rfl rfl rfl rfl
  · split at hadvance
    · rename_i hpost
      cases hadvance
      exact (h.post hpost).congr rfl rfl rfl rfl
    · cases hadvance
      exact h.congr rfl rfl rfl rfl
  · split at hadvance
    · rename_i hpost
      cases hadvance
      exact (h.post hpost).congr rfl rfl rfl rfl
    · cases hadvance
      exact h.congr rfl rfl rfl rfl

/-- Every step of every thread keeps the invariant. -/
theorem DeliveryInv.step (h : DeliveryInv g) {a : ControlAction} (hstep : g.step a = some g') : DeliveryInv g' := by
  cases a with
  | register hello =>
    obtain ⟨-, rfl⟩ := ControlRegistry.locked_eq_some hstep
    exact h.register hello
  | unregister index =>
    obtain ⟨-, rfl⟩ := ControlRegistry.locked_eq_some hstep
    exact h.unregister index
  | postCommand index cmd commandLine =>
    cases hstep
    exact h.post_getD index _
  | waitCommand index =>
    cases hstep
    exact h.waitCommand index
  | broadcastCommand cmd commandLine =>
    obtain ⟨-, rfl⟩ := ControlRegistry.locked_eq_some hstep
    exact h.congr rfl rfl rfl rfl
  | sendCommandTo target cmd commandLine =>
    obtain ⟨-, rfl⟩ := ControlRegistry.locked_eq_some hstep
    cases target <;> exact h.congr rfl rfl rfl rfl
  | applyRoleDosage target prunerForks =>
    obtain ⟨-, rfl⟩ := ControlRegistry.locked_eq_some hstep
    exact h.congr rfl rfl rfl rfl
  | advance => exact h.advance hstep

end Delivery

/-! ## The dosage that is remembered -/

/-- For each machine to whose session a pair was queued, the dosage of the last such pair is the one
remembered, unless the table was full without the machine. -/
def Remembered (g : ControlRegistry) : Prop :=
  ∀ machineUid prunerForks, g.lastDosage machineUid = some prunerForks →
    g.desiredRoles.lookup machineUid = some prunerForks ∨
      (g.desiredRoles.lookup machineUid = none ∧ maxKnownClients ≤ g.desiredRoles.length)

section Remembering

variable {roles : List (Nat × Int)} {machineUid m : Nat} {prunerForks : Int}

theorem any_key_iff : (roles.any fun r => r.1 = machineUid) = true ↔ roles.lookup machineUid ≠ none := by
  constructor
  · intro hany hnone
    obtain ⟨r, hr, hkey⟩ := List.any_eq_true.mp hany
    exact bne_iff_ne.mp (List.lookup_eq_none_iff.mp hnone r hr) (of_decide_eq_true hkey).symm
  · intro hsome
    by_contra hany
    refine hsome (List.lookup_eq_none_iff.mpr fun r hr => bne_iff_ne.mpr fun heq => hany ?_)
    exact List.any_eq_true.mpr ⟨r, hr, decide_eq_true heq.symm⟩

/-- A machine that is not in the table. -/
theorem desiredRoleSet_of_new (hnew : roles.lookup machineUid = none) :
    desiredRoleSet roles machineUid prunerForks =
      if roles.length < maxKnownClients then roles ++ [(machineUid, prunerForks)] else roles :=
  if_neg fun hany => any_key_iff.mp hany hnew

/-- Replacing the dosage of a machine that is in the table. -/
theorem lookup_map_dosage (m : Nat) :
    (roles.map fun r => if r.1 = machineUid then (machineUid, prunerForks) else r).lookup m =
      if m = machineUid then (roles.lookup m).map fun _ => prunerForks else roles.lookup m := by
  induction roles with
  | nil =>
    rw [List.map_nil, List.lookup_nil, Option.map_none, ite_self]
  | cons r roles ih =>
    obtain ⟨k, f⟩ := r
    rw [List.map_cons, List.lookup_cons, List.lookup_cons, ih]
    by_cases hk : k = machineUid
    · subst hk
      rw [if_pos rfl]
      by_cases hm : m = k
      · subst hm
        rw [if_pos rfl, if_pos rfl, beq_self_eq_true]
        rfl
      · rw [if_neg hm, if_neg hm, beq_false_of_ne hm]
    · rw [if_neg hk]
      by_cases hm : m = machineUid
      · subst hm
        rw [if_pos rfl, if_pos rfl, beq_false_of_ne (Ne.symm hk)]
      · rw [if_neg hm, if_neg hm]

/-- The new dosage is remembered, unless the table is full without the machine. -/
theorem lookup_desiredRoleSet_self :
    (desiredRoleSet roles machineUid prunerForks).lookup machineUid = some prunerForks ∨
      ((desiredRoleSet roles machineUid prunerForks).lookup machineUid = none ∧
        maxKnownClients ≤ (desiredRoleSet roles machineUid prunerForks).length) := by
  cases hlookup : roles.lookup machineUid with
  | none =>
    rw [desiredRoleSet_of_new hlookup]
    split
    · rw [List.lookup_append, hlookup, List.lookup_cons, beq_self_eq_true]
      exact Or.inl rfl
    · rename_i hfull
      exact Or.inr ⟨hlookup, Nat.le_of_not_lt hfull⟩
  | some f =>
    have hknown : (roles.any fun r => r.1 = machineUid) = true := by
      rw [any_key_iff, hlookup]
      exact Option.some_ne_none f
    rw [desiredRoleSet, if_pos hknown, lookup_map_dosage, if_pos rfl, hlookup]
    exact Or.inl rfl

/-- Nothing changes for the other machines, and the table never shrinks. -/
theorem lookup_desiredRoleSet_of_ne (hm : m ≠ machineUid) :
    (desiredRoleSet roles machineUid prunerForks).lookup m = roles.lookup m := by
  unfold desiredRoleSet
  split
  · rw [lookup_map_dosage, if_neg hm]
  · split
    · rw [List.lookup_append, List.lookup_cons, beq_false_of_ne hm, List.lookup_nil, Option.or_none]
    · rfl

theorem length_le_desiredRoleSet : roles.length ≤ (desiredRoleSet roles machineUid prunerForks).length := by
  unfold desiredRoleSet
  split
  · rw [List.length_map]
  · split
    · rw [List.length_append]
      exact Nat.le_add_right _ _
    · exact le_rfl

variable {g g' : ControlRegistry}

theorem Remembered.congr (h : Remembered g) (hroles : g'.desiredRoles = g.desiredRoles)
    (hlast : g'.lastDosage = g.lastDosage) : Remembered g' := by
  rw [Remembered, hroles, hlast]
  exact h

/-- The dosage of a pair is remembered as the pair is completed. -/
theorem Remembered.applied (h : Remembered g)
    (hroles : g'.desiredRoles = desiredRoleSet g.desiredRoles machineUid prunerForks)
    (hlast : g'.lastDosage = Function.update g.lastDosage machineUid (some prunerForks)) : Remembered g' := by
  intro m f hf
  rw [hlast] at hf
  rw [hroles]
  by_cases hm : m = machineUid
  · subst hm
    rw [Function.update_self] at hf
    cases hf
    exact lookup_desiredRoleSet_self
  · rw [Function.update_of_ne hm] at hf
    rw [lookup_desiredRoleSet_of_ne hm]
    exact (h m f hf).imp_right fun ⟨hnone, hfull⟩ => ⟨hnone, hfull.trans length_le_desiredRoleSet⟩

/-- A preload queues the dosage that is remembered. -/
theorem Remembered.preloaded (h : Remembered g) (machineUid : Nat) (hroles : g'.desiredRoles = g.desiredRoles)
    (hlast : g'.lastDosage = Function.update g.lastDosage machineUid
      ((g.preloadDosage machineUid).or (g.lastDosage machineUid))) : Remembered g' := by
  intro m f hf
  rw [hlast] at hf
  rw [hroles]
  by_cases hm : m = machineUid
  · subst hm
    rw [Function.update_self, Option.or_eq_some_iff] at hf
    obtain hpreload | ⟨-, hkept⟩ := hf
    · exact Or.inl (Option.filter_eq_some_iff.mp hpreload).1
    · exact h m f hkept
  · rw [Function.update_of_ne hm] at hf
    exact h m f hf

theorem remembered_start : Remembered .start := by
  intro m f hf
  cases hf

/-- A post that may be refused does not touch the table. -/
theorem Remembered.post_getD (h : Remembered g) (index : Nat) (c : AcceptedCommand) :
    Remembered ((g.post index c).getD g) := by
  cases hpost : g.post index c with
  | none => exact h
  | some g' =>
    obtain ⟨-, rfl⟩ := ControlRegistry.post_eq_some hpost
    exact h

theorem Remembered.advance (h : Remembered g) (hadvance : g.advance = some g') : Remembered g' := by
  unfold ControlRegistry.advance at hadvance
  split at hadvance
  · cases hadvance
  · cases hadvance
    exact h
  · cases hadvance
    exact (h.post_getD _ _).congr rfl rfl
  · split at hadvance
    · rename_i hpost
      cases hadvance
      obtain ⟨-, rfl⟩ := ControlRegistry.post_eq_some hpost
      exact h
    · cases hadvance
      exact h
  · split at hadvance
    · rename_i hpost
      cases hadvance
      obtain ⟨-, rfl⟩ := ControlRegistry.post_eq_some hpost
      exact h.applied rfl rfl
    · cases hadvance
      exact h

/-- Every step remembers the dosage of the pair that it completes. -/
theorem Remembered.step (h : Remembered g) {a : ControlAction} (hstep : g.step a = some g') : Remembered g' := by
  cases a with
  | register hello =>
    obtain ⟨-, rfl⟩ := ControlRegistry.locked_eq_some hstep
    unfold ControlRegistry.register
    split
    · exact h
    · exact h.preloaded hello.machineUid rfl rfl
  | unregister index =>
    obtain ⟨-, rfl⟩ := ControlRegistry.locked_eq_some hstep
    unfold ControlRegistry.unregister
    split <;> exact h
  | postCommand index cmd commandLine =>
    cases hstep
    exact h.post_getD index _
  | waitCommand index =>
    cases hstep
    unfold ControlRegistry.waitCommand
    dsimp only
    split <;> exact h
  | broadcastCommand cmd commandLine =>
    obtain ⟨-, rfl⟩ := ControlRegistry.locked_eq_some hstep
    exact h
  | sendCommandTo target cmd commandLine =>
    obtain ⟨-, rfl⟩ := ControlRegistry.locked_eq_some hstep
    cases target <;> exact h
  | applyRoleDosage target prunerForks =>
    obtain ⟨-, rfl⟩ := ControlRegistry.locked_eq_some hstep
    exact h
  | advance => exact h.advance hstep

end Remembering

/-! ## Pairs of dosage commands -/

/-- Each first command of a dosage is followed by its second, and each second follows its first. -/
def Paired : List CommandOrigin → Prop
  | [] => True
  | .plain :: origins => Paired origins
  | .config prunerForks :: .apply prunerForks' :: origins => prunerForks = prunerForks' ∧ Paired origins
  | _ => False

/-- Where the commands that a session number has accepted come from. -/
def ControlRegistry.origins (g : ControlRegistry) (sessionNo : Nat) : List CommandOrigin :=
  (g.accepted sessionNo).map AcceptedCommand.origin

/-- The dosage whose first command the session has accepted and whose second is about to be posted. -/
def ControlRegistry.openDosage (g : ControlRegistry) (sessionNo : Nat) : Option Int :=
  match g.holder with
  | some (.apply index prunerForks :: _) =>
    if (g.slots index).inUse = true ∧ (g.slots index).sessionNo = sessionNo then some prunerForks else none
  | _ => none

/-- A session number has accepted whole pairs only, up to the one that is being posted. -/
def PairsQueued (sessionNo : Nat) (g : ControlRegistry) : Prop :=
  ∃ origins, Paired origins ∧
    g.origins sessionNo = origins ++ (g.openDosage sessionNo).toList.map CommandOrigin.config

/-- Between the two posts of a dosage to a session no other post is accepted on its slot, and the second one
finds room. -/
def DosageKept (sessionNo : Nat) (g : ControlRegistry) : ControlAction → Prop
  | .postCommand index _ _ => (g.slots index).sessionNo = sessionNo →
      ∀ prunerForks rest, g.holder = some (.apply index prunerForks :: rest) →
        controlSessionQueueCap ≤ (g.slots index).queue.count
  | .advance => ∀ index prunerForks rest, g.holder = some (.apply index prunerForks :: rest) →
      (g.slots index).sessionNo = sessionNo → (g.slots index).queue.count < controlSessionQueueCap
  | _ => True

/-- The pairs of a session, and what the holder of the mutex has to do: only its next post can be the second
of a pair, and the session of the first is still there. -/
structure PairInv (sessionNo : Nat) (g : ControlRegistry) : Prop extends DeliveryInv g where
  paired : PairsQueued sessionNo g
  opened : ∀ index prunerForks rest, g.holder = some (.apply index prunerForks :: rest) → (g.slots index).inUse = true
  later : ∀ task rest, g.holder = some (task :: rest) → ∀ index prunerForks, .apply index prunerForks ∉ rest

section Pairs

variable {g g' : ControlRegistry} {index n : Nat} {prunerForks : Int} {c : AcceptedCommand}

theorem Paired.append {l l' : List CommandOrigin} (h : Paired l) (h' : Paired l') : Paired (l ++ l') := by
  fun_induction Paired l with
  | case1 => exact h'
  | case2 l ih => exact ih h
  | case3 f f' l ih => exact ⟨h.1, ih h.2⟩
  | case4 => exact h.elim

theorem Paired.append_plain {l : List CommandOrigin} (h : Paired l) : Paired (l ++ [.plain]) := by
  have hplain : Paired [.plain] := trivial
  exact h.append hplain

theorem ControlRegistry.openDosage_congr (hholder : g'.holder = g.holder)
    (hslots : ∀ i, (g'.slots i).inUse = (g.slots i).inUse ∧ (g'.slots i).sessionNo = (g.slots i).sessionNo) :
    g'.openDosage n = g.openDosage n := by
  unfold ControlRegistry.openDosage
  rw [hholder]
  split
  · rename_i i _ _ _
    rw [(hslots i).1, (hslots i).2]
  · rfl

theorem ControlRegistry.openDosage_eq_none
    (h : ∀ index prunerForks rest, g.holder ≠ some (.apply index prunerForks :: rest)) : g.openDosage n = none := by
  unfold ControlRegistry.openDosage
  split
  · rename_i hholder
    exact absurd hholder (h _ _ _)
  · rfl

theorem ControlRegistry.openDosage_apply {rest : List RegistryTask}
    (h : g.holder = some (.apply index prunerForks :: rest)) :
    g.openDosage n =
      if (g.slots index).inUse = true ∧ (g.slots index).sessionNo = n then some prunerForks else none := by
  rw [ControlRegistry.openDosage, h]

/-- With no pair under way, all pairs are whole. -/
theorem pairsQueued_iff (h : g.openDosage n = none) : PairsQueued n g ↔ Paired (g.origins n) := by
  rw [PairsQueued, h]
  constructor
  · rintro ⟨l, hl, heq⟩
    rw [heq, Option.toList_none, List.map_nil, List.append_nil]
    exact hl
  · intro hl
    exact ⟨_, hl, (List.append_nil _).symm⟩

/-- An accepted post adds one command to the session of the slot. -/
theorem ControlRegistry.origins_post_self (h : g.post index c = some g') :
    g'.origins (g.slots index).sessionNo = g.origins (g.slots index).sessionNo ++ [c.origin] := by
  obtain ⟨-, rfl⟩ := ControlRegistry.post_eq_some h
  rw [ControlRegistry.origins, ControlRegistry.origins]
  dsimp only
  rw [Function.update_self, List.map_append, List.map_singleton]

theorem ControlRegistry.origins_post_of_ne (h : g.post index c = some g') (hn : n ≠ (g.slots index).sessionNo) :
    g'.origins n = g.origins n := by
  obtain ⟨-, rfl⟩ := ControlRegistry.post_eq_some h
  rw [ControlRegistry.origins, ControlRegistry.origins]
  dsimp only
  rw [Function.update_of_ne hn]

/-- Where no pair is under way, a post that belongs to no pair keeps all pairs whole. -/
theorem paired_origins_post (h : Paired (g.origins n)) (hc : c.origin = .plain) :
    Paired (((g.post index c).getD g).origins n) := by
  cases hpost : g.post index c with
  | none => exact h
  | some g' =>
    rw [Option.getD_some]
    by_cases hn : n = (g.slots index).sessionNo
    · subst hn
      rw [ControlRegistry.origins_post_self hpost, hc]
      exact h.append_plain
    · rw [ControlRegistry.origins_post_of_ne hpost hn]
      exact h

theorem ControlRegistry.post_holder (h : g.post index c = some g') : g'.holder = g.holder := by
  obtain ⟨-, rfl⟩ := ControlRegistry.post_eq_some h
  rfl

/-- While no pair is under way, whatever the holder of the mutex does next. -/
theorem PairInv.of_closed (hinv : DeliveryInv g) (hpaired : Paired (g.origins n))
    (hholder : ∀ tasks, g.holder = some tasks → ∀ index prunerForks, .apply index prunerForks ∉ tasks) :
    PairInv n g := by
  have hnone : ∀ index prunerForks rest, g.holder ≠ some (.apply index prunerForks :: rest) :=
    fun index prunerForks rest heq => hholder _ heq index prunerForks (List.mem_cons_self ..)
  refine ⟨hinv, (pairsQueued_iff (ControlRegistry.openDosage_eq_none hnone)).mpr hpaired, ?_, ?_⟩
  · intro index prunerForks rest heq
    exact absurd heq (hnone index prunerForks rest)
  · intro task rest heq index prunerForks hmem
    exact hholder _ heq index prunerForks (List.mem_cons_of_mem task hmem)

/-- Where the next post is not the second of a pair, all pairs are whole. -/
theorem PairInv.paired_origins (h : PairInv n g)
    (hholder : ∀ index prunerForks rest, g.holder ≠ some (.apply index prunerForks :: rest)) : Paired (g.origins n) :=
  (pairsQueued_iff (ControlRegistry.openDosage_eq_none hholder)).mp h.paired

theorem PairInv.paired_of_free (h : PairInv n g) (hholder : g.holder = none) : Paired (g.origins n) := by
  refine h.paired_origins fun index prunerForks rest heq => ?_
  rw [hholder] at heq
  cases heq

/-- Where the next post is another one than the second of a pair, all pairs are whole. -/
theorem PairInv.paired_of_next (h : PairInv n g) {task : RegistryTask} {rest : List RegistryTask}
    (hholder : g.holder = some (task :: rest)) (htask : ∀ index prunerForks, task ≠ .apply index prunerForks) :
    Paired (g.origins n) := by
  refine h.paired_origins fun index prunerForks rest' heq => ?_
  rw [hholder] at heq
  cases heq
  exact htask index prunerForks rfl

/-- The holder of the mutex has done a post and goes on with the rest, all pairs being whole. -/
theorem PairInv.advanced (h : PairInv n g) {task : RegistryTask} {rest : List RegistryTask}
    (hholder : g.holder = some (task :: rest)) (hinv : DeliveryInv g') (hpaired : Paired (g'.origins n))
    (hnext : g'.holder = some rest) : PairInv n g' := by
  refine .of_closed hinv hpaired fun tasks heq => ?_
  rw [hnext] at heq
  cases heq
  exact h.later task rest hholder

theorem pairInv_start : PairInv n .start := by
  refine .of_closed deliveryInv_start trivial fun tasks heq => ?_
  cases heq

/-- A step that adds no command and keeps who sits where. -/
theorem PairInv.congr (h : PairInv n g) (hinv : DeliveryInv g') (hholder : g'.holder = g.holder)
    (haccepted : g'.accepted = g.accepted)
    (hslots : ∀ i, (g'.slots i).inUse = (g.slots i).inUse ∧ (g'.slots i).sessionNo = (g.slots i).sessionNo) :
    PairInv n g' := by
  refine ⟨hinv, ?_, ?_, ?_⟩
  · rw [PairsQueued, ControlRegistry.openDosage_congr hholder hslots, ControlRegistry.origins, haccepted]
    exact h.paired
  · intro index prunerForks rest heq
    rw [hholder] at heq
    rw [(hslots index).1]
    exact h.opened index prunerForks rest heq
  · intro task rest heq
    rw [hholder] at heq
    exact h.later task rest heq

theorem ControlRegistry.waitCommand_slots (index i : Nat) :
    ((g.waitCommand index).slots i).inUse = (g.slots i).inUse ∧
      ((g.waitCommand index).slots i).sessionNo = (g.slots i).sessionNo := by
  unfold ControlRegistry.waitCommand
  dsimp only
  split
  · by_cases hi : i = index
    · subst hi
      simp only [Function.update_self, and_self]
    · simp only [Function.update_of_ne hi, and_self]
  · exact ⟨rfl, rfl⟩

theorem PairInv.waitCommand (h : PairInv n g) (index : Nat) : PairInv n (g.waitCommand index) := by
  refine h.congr (h.toDeliveryInv.waitCommand index) ?_ ?_ (ControlRegistry.waitCommand_slots index)
  · unfold ControlRegistry.waitCommand
    dsimp only
    split <;> rfl
  · unfold ControlRegistry.waitCommand
    dsimp only
    split <;> rfl

/-- A post that belongs to no pair, by anyone, outside of the slot of a pair under way. -/
theorem PairInv.post (h : PairInv n g) (hc : c.origin = .plain) (hpost : g.post index c = some g')
    (hkept : (g.slots index).sessionNo = n → ∀ prunerForks rest, g.holder = some (.apply index prunerForks :: rest) →
      controlSessionQueueCap ≤ (g.slots index).queue.count) : PairInv n g' := by
  have hslots := ControlRegistry.post_slots hpost
  have hholder := ControlRegistry.post_holder hpost
  obtain ⟨⟨-, huse, hroom⟩, -⟩ := ControlRegistry.post_eq_some hpost
  have hclosed : n = (g.slots index).sessionNo → g.openDosage n = none := by
    intro hn
    unfold ControlRegistry.openDosage
    split
    · rename_i i prunerForks rest hnext
      rw [if_neg]
      rintro ⟨hi, heq⟩
      have hindex : i = index := h.unique i index hi huse (heq.trans hn)
      subst hindex
      exact absurd hroom (Nat.not_lt.mpr (hkept heq prunerForks rest hnext))
    · rfl
  refine ⟨h.toDeliveryInv.post hpost, ?_, ?_, ?_⟩
  · rw [PairsQueued, ControlRegistry.openDosage_congr hholder fun i => ⟨(hslots i).1, (hslots i).2.1⟩]
    obtain ⟨l, hl, heq⟩ := h.paired
    by_cases hn : n = (g.slots index).sessionNo
    · rw [hclosed hn] at heq ⊢
      subst hn
      rw [ControlRegistry.origins_post_self hpost, heq, hc]
      refine ⟨l ++ [.plain], hl.append_plain, ?_⟩
      rw [Option.toList_none, List.map_nil, List.append_nil, List.append_nil]
    · rw [ControlRegistry.origins_post_of_ne hpost hn]
      exact ⟨l, hl, heq⟩
  · intro i prunerForks rest heq
    rw [hholder] at heq
    rw [(hslots i).1]
    exact h.opened i prunerForks rest heq
  · intro task rest heq
    rw [hholder] at heq
    exact h.later task rest heq

theorem paired_preload (machineUid : Nat) : Paired ((g.preload machineUid).map AcceptedCommand.origin) := by
  rw [ControlRegistry.preload, List.map_append]
  refine Paired.append ?_ ?_
  · cases g.desiredPauseState <;> trivial
  · cases g.preloadDosage machineUid with
    | none => trivial
    | some prunerForks => exact ⟨rfl, trivial⟩

theorem PairInv.register (h : PairInv n g) (hholder : g.holder = none) (hello : ControlHello) :
    PairInv n (g.register hello) := by
  have hpaired := h.paired_of_free hholder
  refine .of_closed (h.toDeliveryInv.register hello) ?_ ?_
  · unfold ControlRegistry.register
    split
    · exact hpaired
    · rw [ControlRegistry.origins]
      dsimp only
      by_cases hn : n = g.nextSessionNo
      · subst hn
        rw [Function.update_self]
        exact paired_preload hello.machineUid
      · rw [Function.update_of_ne hn]
        exact hpaired
  · intro tasks heq
    have hkept : (g.register hello).holder = g.holder := by
      unfold ControlRegistry.register
      split <;> rfl
    rw [hkept, hholder] at heq
    cases heq

theorem PairInv.unregister (h : PairInv n g) (hholder : g.holder = none) (index : Nat) :
    PairInv n (g.unregister index) := by
  have hpaired := h.paired_of_free hholder
  refine .of_closed (h.toDeliveryInv.unregister index) ?_ ?_
  · unfold ControlRegistry.unregister
    split <;> exact hpaired
  · intro tasks heq
    have hkept : (g.unregister index).holder = g.holder := by
      unfold ControlRegistry.unregister
      split <;> rfl
    rw [hkept, hholder] at heq
    cases heq

/-- A call that takes the mutex and has not posted yet. -/
theorem PairInv.enter (h : PairInv n g) (hholder : g.holder = none) (hinv : DeliveryInv g') {tasks : List RegistryTask}
    (htasks : ∀ index prunerForks, .apply index prunerForks ∉ tasks) (haccepted : g'.accepted = g.accepted)
    (hnext : g'.holder = some tasks) : PairInv n g' := by
  have hpaired := h.paired_of_free hholder
  refine .of_closed hinv ?_ ?_
  · rw [ControlRegistry.origins, haccepted]
    exact hpaired
  · intro tasks' heq
    rw [hnext] at heq
    cases heq
    exact htasks

theorem RegistryTask.apply_not_mem_map {indices : List Nat} {task : Nat → RegistryTask}
    (htask : ∀ i, task i ≠ .apply index prunerForks) : .apply index prunerForks ∉ indices.map task := by
  intro hmem
  obtain ⟨i, -, heq⟩ := List.mem_map.mp hmem
  exact htask i heq

/-- The second post of a pair: with room for it, it closes the pair. -/
theorem PairInv.post_apply (h : PairInv n g) {rest : List RegistryTask}
    (hholder : g.holder = some (.apply index prunerForks :: rest))
    (hpost : g.post index (configApplyCommand prunerForks) = some g') : Paired (g'.origins n) := by
  obtain ⟨l, hl, heq⟩ := h.paired
  rw [ControlRegistry.openDosage_apply hholder] at heq
  by_cases hn : n = (g.slots index).sessionNo
  · subst hn
    rw [if_pos ⟨h.opened index prunerForks rest hholder, rfl⟩] at heq
    rw [ControlRegistry.origins_post_self hpost, heq, List.append_assoc]
    have hpair : Paired [.config prunerForks, .apply prunerForks] := ⟨rfl, trivial⟩
    exact hl.append hpair
  · have hother : ¬ ((g.slots index).inUse = true ∧ (g.slots index).sessionNo = n) := fun hsame => hn hsame.2.symm
    rw [if_neg hother, Option.toList_none, List.map_nil, List.append_nil] at heq
    rw [ControlRegistry.origins_post_of_ne hpost hn, heq]
    exact hl

/-- The first post of a pair opens the pair. -/
theorem PairInv.post_config (h : PairInv n g) {rest : List RegistryTask}
    (hholder : g.holder = some (.config index prunerForks :: rest))
    (hpost : g.post index (configCommand prunerForks) = some g') :
    PairInv n { g' with holder := some (.apply index prunerForks :: rest) } := by
  have hpaired := h.paired_of_next hholder fun _ _ => RegistryTask.noConfusion
  have hslots := ControlRegistry.post_slots hpost
  obtain ⟨⟨-, huse, -⟩, -⟩ := ControlRegistry.post_eq_some hpost
  refine ⟨(h.toDeliveryInv.post hpost).congr rfl rfl rfl rfl, ⟨g.origins n, hpaired, ?_⟩, ?_, ?_⟩
  · rw [ControlRegistry.openDosage_apply rfl]
    dsimp only
    rw [(hslots index).1, (hslots index).2.1]
    by_cases hn : n = (g.slots index).sessionNo
    · subst hn
      rw [if_pos ⟨huse, rfl⟩]
      exact ControlRegistry.origins_post_self hpost
    · have hother : ¬ ((g.slots index).inUse = true ∧ (g.slots index).sessionNo = n) := fun hsame => hn hsame.2.symm
      rw [if_neg hother, Option.toList_none, List.map_nil, List.append_nil]
      have hkept := ControlRegistry.origins_post_of_ne hpost hn
      exact hkept
  · intro i f rest' heq
    cases heq
    exact (hslots index).1.trans huse
  · intro task rest' heq
    cases heq
    exact h.later _ rest hholder

theorem PairInv.advance (h : PairInv n g) (hkept : DosageKept n g .advance) (hadvance : g.advance = some g') :
    PairInv n g' := by
  have hinv := h.toDeliveryInv.advance hadvance
  unfold ControlRegistry.advance at hadvance
  split at hadvance
  · cases hadvance
  · rename_i hholder
    cases hadvance
    have hpaired := h.paired_origins fun i f rest heq => by
      rw [hholder] at heq
      cases heq
    refine .of_closed hinv hpaired fun tasks heq => ?_
    cases heq
  · rename_i index cmd commandLine rest hholder
    cases hadvance
    have hpaired := h.paired_of_next hholder fun _ _ => RegistryTask.noConfusion
    exact h.advanced hholder hinv (paired_origins_post hpaired rfl) rfl
  · rename_i index prunerForks rest hholder
    split at hadvance
    · rename_i hpost
      cases hadvance
      exact h.post_config hholder hpost
    · cases hadvance
      exact h.advanced hholder hinv (h.paired_of_next hholder fun _ _ => RegistryTask.noConfusion) rfl
  · rename_i index prunerForks rest hholder
    split at hadvance
    · rename_i hpost
      cases hadvance
      have hpaired := h.post_apply hholder hpost
      exact h.advanced hholder hinv hpaired rfl
    · rename_i hrefused
      cases hadvance
      have huse := h.opened index prunerForks rest hholder
      -- the refused second post is that of another session
      have hpaired : Paired (g.origins n) := by
        refine (pairsQueued_iff ?_).mp h.paired
        rw [ControlRegistry.openDosage_apply hholder, if_neg]
        rintro ⟨-, hn⟩
        rw [ControlRegistry.post, if_pos ⟨h.bound index huse, huse, hkept index prunerForks rest hholder hn⟩] at hrefused
        cases hrefused
      exact h.advanced hholder hinv hpaired rfl

/-- Every step that keeps the two posts of a dosage together keeps the pairs whole. -/
theorem PairInv.step (h : PairInv n g) {a : ControlAction} (hkept : DosageKept n g a) (hstep : g.step a = some g') :
    PairInv n g' := by
  have hinv := h.toDeliveryInv.step hstep
  cases a with
  | register hello =>
    obtain ⟨hfree, rfl⟩ := ControlRegistry.locked_eq_some hstep
    exact h.register hfree hello
  | unregister index =>
    obtain ⟨hfree, rfl⟩ := ControlRegistry.locked_eq_some hstep
    exact h.unregister hfree index
  | postCommand index cmd commandLine =>
    cases hstep
    cases hpost : g.post index (plainCommand cmd commandLine) with
    | none => exact h
    | some g' => exact h.post rfl hpost hkept
  | waitCommand index =>
    cases hstep
    exact h.waitCommand index
  | broadcastCommand cmd commandLine =>
    obtain ⟨hfree, rfl⟩ := ControlRegistry.locked_eq_some hstep
    refine h.enter hfree hinv (fun i f => ?_) rfl rfl
    exact RegistryTask.apply_not_mem_map fun i => RegistryTask.noConfusion
  | sendCommandTo target cmd commandLine =>
    obtain ⟨hfree, rfl⟩ := ControlRegistry.locked_eq_some hstep
    cases target with
    | none => exact h
    | some target =>
      refine h.enter hfree hinv (fun i f => ?_) rfl rfl
      exact RegistryTask.apply_not_mem_map fun i => RegistryTask.noConfusion
  | applyRoleDosage target prunerForks =>
    obtain ⟨hfree, rfl⟩ := ControlRegistry.locked_eq_some hstep
    refine h.enter hfree hinv (fun i f => ?_) rfl rfl
    exact RegistryTask.apply_not_mem_map fun i => RegistryTask.noConfusion
  | advance => exact h.advance hkept hstep

end Pairs

/-! ## A full queue and a full table -/

/-- Fifteen commands wait for a session as its dosage is sent. -/
def fillQueue : List ControlAction :=
  .register ⟨0, 0, ['x']⟩ ::
    (List.replicate 15 [ControlAction.sendCommandTo (some ['x']) ctrlCommand (some "pause".toList), .advance,
      .advance]).flatten ++ [.applyRoleDosage (some ['x']) 3, .advance, .advance]

/-- No session, and no call under way. -/
structure Vacant (g : ControlRegistry) : Prop where
  holder : g.holder = none
  slots : ∀ i, (g.slots i).inUse = false
  resumed : g.desiredPauseState = false

section Visits

variable {g : ControlRegistry} {machineUid : Nat} {prunerForks : Int}

/-- The session gets the first slot, with an empty queue. -/
theorem Vacant.register (h : Vacant g) (hnew : g.desiredRoles.lookup machineUid = none) :
    ∃ s : ControlSlot, (s.inUse = true ∧ s.hello = ⟨machineUid, 0, ['x']⟩ ∧ s.queue.count = 0) ∧
      ∃ accepted lastDosage, g.register ⟨machineUid, 0, ['x']⟩ =
        { g with
          slots := Function.update g.slots 0 s
          nextSessionNo := g.nextSessionNo + 1
          accepted := accepted
          lastDosage := lastDosage } := by
  have hfree : (fun i => !(g.slots i).inUse) = fun _ => true := by
    funext i
    rw [h.slots i]
    rfl
  have hfind : (List.range maxControlSessions).find? (fun i => !(g.slots i).inUse) = some 0 := by
    rw [hfree]
    decide
  have hpreload : g.preload machineUid = [] := by
    rw [ControlRegistry.preload, ControlRegistry.preloadDosage, h.resumed, hnew]
    rfl
  rw [ControlRegistry.register, hfind]
  dsimp only
  rw [hpreload]
  exact ⟨⟨true, g.nextSessionNo, ⟨machineUid, 0, ['x']⟩, (g.slots 0).queue.clear⟩, ⟨rfl, rfl, rfl⟩, _, _, rfl⟩

/-- Its label names it and nobody else. -/
theorem Vacant.resolve (h : Vacant g) {g' : ControlRegistry} {s : ControlSlot} (huse : s.inUse = true)
    (hlabel : s.hello.label = ['x']) (hslots : g'.slots = Function.update g.slots 0 s) :
    g'.resolve ['x'] = some 0 := by
  have hhits : (fun i => (g'.slots i).inUse && (g'.slots i).hit ['x']) = fun i => decide (i = 0) := by
    funext i
    rw [hslots]
    cases i with
    | zero =>
      rw [Function.update_self, huse, ControlSlot.hit, hlabel, decide_eq_true rfl, Bool.or_true, Bool.and_true]
      rfl
    | succ i =>
      rw [Function.update_of_ne (Nat.succ_ne_zero i), h.slots]
      rfl
  rw [ControlRegistry.resolve, hhits]
  decide

theorem ControlRegistry.advance_config {g' : ControlRegistry} {index : Nat} {rest : List RegistryTask}
    (hholder : g.holder = some (.config index prunerForks :: rest))
    (hpost : g.post index (configCommand prunerForks) = some g') :
    g.step .advance = some { g' with holder := some (.apply index prunerForks :: rest) } := by
  rw [ControlRegistry.step, ControlRegistry.advance, hholder]
  dsimp only
  rw [hpost]

theorem ControlRegistry.advance_apply {g' : ControlRegistry} {index : Nat} {rest : List RegistryTask}
    (hholder : g.holder = some (.apply index prunerForks :: rest))
    (hpost : g.post index (configApplyCommand prunerForks) = some g') :
    g.step .advance = some { g' with
      desiredRoles := desiredRoleSet g'.desiredRoles (g'.slots index).hello.machineUid prunerForks
      lastDosage := Function.update g'.lastDosage (g'.slots index).hello.machineUid (some prunerForks)
      holder := some rest } := by
  rw [ControlRegistry.step, ControlRegistry.advance, hholder]
  dsimp only
  rw [hpost]

theorem ControlRegistry.advance_done (hholder : g.holder = some []) :
    g.step .advance = some { g with holder := none } := by
  rw [ControlRegistry.step, ControlRegistry.advance, hholder]

/-- Both posts of a dosage, to the first slot with an empty queue. -/
theorem ControlRegistry.exec_dosage (hholder : g.holder = some [.config 0 prunerForks]) (huse : (g.slots 0).inUse = true)
    (hempty : (g.slots 0).queue.count = 0) :
    ∃ s accepted, Run.exec ControlRegistry.step g [.advance, .advance, .advance] = some { g with
      slots := Function.update g.slots 0 s
      accepted := accepted
      desiredRoles := desiredRoleSet g.desiredRoles (g.slots 0).hello.machineUid prunerForks
      lastDosage := Function.update g.lastDosage (g.slots 0).hello.machineUid (some prunerForks)
      holder := none } := by
  have hroom : (g.slots 0).queue.count < controlSessionQueueCap := by
    rw [hempty]
    decide
  obtain ⟨g₁, hconfig⟩ : ∃ g₁, g.post 0 (configCommand prunerForks) = some g₁ :=
    ⟨_, if_pos ⟨by decide, huse, hroom⟩⟩
  have hfirst := ControlRegistry.advance_config hholder hconfig
  obtain ⟨-, rfl⟩ := ControlRegistry.post_eq_some hconfig
  have hroom' : (g.slots 0).queue.count + 1 < controlSessionQueueCap := by
    rw [hempty]
    decide
  obtain ⟨g₂, happly⟩ : ∃ g₂, ControlRegistry.post
      { g with
        slots := Function.update g.slots 0
          { g.slots 0 with queue := (g.slots 0).queue.push controlSessionQueueCap (configCommand prunerForks).command }
        accepted := Function.update g.accepted (g.slots 0).sessionNo
          (g.accepted (g.slots 0).sessionNo ++ [configCommand prunerForks])
        holder := some [.apply 0 prunerForks] } 0 (configApplyCommand prunerForks) = some g₂ := by
    refine ⟨_, if_pos ⟨by decide, ?_⟩⟩
    dsimp only
    rw [Function.update_self]
    exact ⟨huse, hroom'⟩
  have hsecond := ControlRegistry.advance_apply rfl happly
  obtain ⟨-, rfl⟩ := ControlRegistry.post_eq_some happly
  simp only [Run.exec, hfirst, hsecond, Option.bind_some, ControlRegistry.advance_done, Function.update_self,
    Function.update_idem]
  exact ⟨_, _, rfl⟩

/-- A session of a machine comes, gets a dosage and leaves. -/
theorem Vacant.visit (h : Vacant g) (prunerForks : Int) (hnew : g.desiredRoles.lookup machineUid = none) :
    ∃ g', Run ControlRegistry.step (fun _ _ => True) g g' ∧ Vacant g' ∧
      g'.desiredRoles = desiredRoleSet g.desiredRoles machineUid prunerForks ∧
      g'.lastDosage machineUid = some prunerForks := by
  obtain ⟨s, ⟨huse, hhello, hempty⟩, accepted, lastDosage, hregister⟩ := h.register hnew
  have hresolve : (g.register ⟨machineUid, 0, ['x']⟩).resolve ['x'] = some 0 := by
    refine h.resolve huse ?_ (congrArg ControlRegistry.slots hregister)
    rw [hhello]
  have hcome : g.step (.register ⟨machineUid, 0, ['x']⟩) = some (g.register ⟨machineUid, 0, ['x']⟩) := by
    rw [ControlRegistry.step, h.holder]
    rfl
  have hcall : (g.register ⟨machineUid, 0, ['x']⟩).step (.applyRoleDosage (some ['x']) prunerForks) =
      some { g.register ⟨machineUid, 0, ['x']⟩ with holder := some [.config 0 prunerForks] } := by
    rw [ControlRegistry.step, ControlRegistry.applyRoleDosage, Option.getD_some, if_neg (List.cons_ne_nil _ _), hresolve,
      hregister, h.holder]
    rfl
  rw [hregister] at hcome hcall
  have hself : Function.update g.slots 0 s 0 = s := Function.update_self ..
  obtain ⟨s', accepted', hposts⟩ := ControlRegistry.exec_dosage (g := { g with
      slots := Function.update g.slots 0 s
      nextSessionNo := g.nextSessionNo + 1
      accepted := accepted
      lastDosage := lastDosage
      holder := some [.config 0 prunerForks] }) rfl
    ((congrArg ControlSlot.inUse hself).trans huse) ((congrArg (fun s => s.queue.count) hself).trans hempty)
  dsimp only at hposts
  rw [hself, Function.update_idem, hhello] at hposts
  have hdosage : Run ControlRegistry.step (fun _ _ => True) _ _ := Run.of_exec (fun _ _ _ => trivial) hposts
  have hrun := ((Run.refl.tail trivial hcome).tail trivial hcall).trans hdosage
  refine ⟨_, hrun.tail (a := .unregister 0) trivial rfl, ⟨rfl, fun i => ?_, h.resumed⟩, rfl, Function.update_self ..⟩
  rw [ControlRegistry.unregister, if_pos (by decide)]
  dsimp only
  rw [Function.update_idem]
  by_cases hi : i = 0
  · subst hi
    rw [Function.update_self]
  · rw [Function.update_of_ne hi]
    exact h.slots i

/-- The table fills up, one machine after the other. -/
theorem exists_fullTable (n : Nat) (hn : n ≤ maxKnownClients) :
    ∃ g, Run ControlRegistry.step (fun _ _ => True) .start g ∧ Vacant g ∧ g.desiredRoles.length = n ∧
      ∀ machineUid, n ≤ machineUid → g.desiredRoles.lookup machineUid = none := by
  induction n with
  | zero => exact ⟨_, .refl, ⟨rfl, fun _ => rfl, rfl⟩, rfl, fun _ _ => rfl⟩
  | succ n ih =>
    obtain ⟨g, hrun, hvacant, hlength, hunknown⟩ := ih (Nat.le_of_succ_le hn)
    obtain ⟨g', hvisit, hvacant', hroles, -⟩ := hvacant.visit 3 (hunknown n le_rfl)
    refine ⟨g', hrun.trans hvisit, hvacant', ?_, fun m hm => ?_⟩
    · rw [hroles, desiredRoleSet_of_new (hunknown n le_rfl), hlength, if_pos (Nat.lt_of_succ_le hn), List.length_append,
        hlength, List.length_singleton]
    · rw [hroles, lookup_desiredRoleSet_of_ne (Nat.ne_of_gt hm)]
      exact hunknown m (Nat.le_of_succ_le hm)

end Visits

/-- Whatever the threads do, each session number receives a prefix of what it has accepted, in order and
each command once, and the dosage of the last pair queued for a machine is the one remembered, unless
the table was full without the machine. As long as no other post comes between the two of a dosage to a
session and the second one finds room, both are queued for it, one behind the other, or none. -/
theorem controlRegistry_run :
    (∀ g, Run ControlRegistry.step (fun _ _ => True) .start g → Delivered g ∧ Remembered g) ∧
      ∀ sessionNo g, Run ControlRegistry.step (DosageKept sessionNo) .start g → PairsQueued sessionNo g := by
  constructor
  · intro g hrun
    have hdelivered := hrun.invariant deliveryInv_start fun h _ hstep => h.step hstep
    have hremembered := hrun.invariant remembered_start fun h _ hstep => h.step hstep
    exact ⟨hdelivered.toDelivered, hremembered⟩
  · intro sessionNo g hrun
    exact (hrun.invariant pairInv_start fun h hkept hstep => h.step hkept hstep).paired

/-- A queue with room for one more command takes `config pruner_forks 3` and refuses `configApply`. With
256 machines in the table the dosage of the next machine is not remembered. -/
theorem controlRegistry_unpaired :
    (∃ g, Run ControlRegistry.step (fun _ _ => True) .start g ∧ ¬ PairsQueued 1 g) ∧
      ∃ g, Run ControlRegistry.step (fun _ _ => True) .start g ∧
        g.lastDosage maxKnownClients = some 3 ∧ g.desiredRoles.lookup maxKnownClients = none := by
  constructor
  · have hend : (Run.exec ControlRegistry.step .start fillQueue).map (fun g => (g.origins 1, g.openDosage 1)) =
        some (List.replicate 15 .plain ++ [.config 3], none) := by
      decide +kernel
    obtain ⟨g, hexec, heq⟩ := Option.map_eq_some_iff.mp hend
    obtain ⟨horigins, hopen⟩ := Prod.mk.inj heq
    refine ⟨g, Run.of_exec (fun _ _ _ => trivial) hexec, fun hqueued => ?_⟩
    obtain ⟨l, hl, hl'⟩ := hqueued
    rw [hopen, horigins, Option.toList_none, List.map_nil, List.append_nil] at hl'
    rw [← hl'] at hl
    exact hl
  · obtain ⟨g, hrun, hvacant, hlength, hunknown⟩ := exists_fullTable maxKnownClients le_rfl
    have hnew := hunknown maxKnownClients le_rfl
    obtain ⟨g', hvisit, -, hroles, hlast⟩ := hvacant.visit 3 hnew
    refine ⟨g', hrun.trans hvisit, hlast, ?_⟩
    rw [hroles, desiredRoleSet_of_new hnew, if_neg (Nat.not_lt.mpr hlength.ge)]
    exact hnew
