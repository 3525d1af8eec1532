-- SUMMARY: The registry of the known machines: the entries of machines, their sessions, and the file they are saved to.
import EternityII.App.RoleMix
import EternityII.App.WorkConnection
import EternityII.Base.SlotTable

/-!
# The registry of known clients

The server keeps an entry for each machine it has seen, with the sessions the machine has open now and with
totals that outlive them. The entry is written by the hello, the statistics and the end of a control session, and
by the records of a file; when every slot is in use, a new machine takes the slot of the machine without a
session that was seen last the longest ago. The calls hold one mutex each, so a run of the registry is a sequence
of calls.
-/

/-! ## Entries -/

/-- `KNOWN_CLIENT_MAX_SESSIONS`. -/
def knownClientMaxSessions : Nat := 8

/-- `PEER_IP_MAX_LEN`. -/
def peerIpMaxLen : Nat := 46

/-- `CLIENT_MODE_SEARCH`. -/
def clientModeSearch : Byte := 0

/-- `copy_bounded_string`: the text in front of the first null byte, cut to what fits. -/
def copyBoundedString (outSize : Nat) (source : Option (List Byte)) : List Byte :=
  ((source.getD []).takeWhile (· ≠ 0)).take (outSize - 1)

/-- `known_client_session_t`. -/
structure KnownSession where
  clientUid : List Byte
  mode : Byte
  connectTime : Int
  lastPrunerChecked : UInt64
  lastPrunerRemoved : UInt64
  deriving DecidableEq

/-- What the entry of a machine is told. -/
inductive ClientEvent
  | hello (now : Int) (clientUid : List Byte) (mode : Byte)
  | stats (clientUid : List Byte) (prunerChecked prunerRemoved : UInt64)
  | bye (now : Int) (clientUid : List Byte)
  | record (nbConnections : UInt32) (prunerChecked prunerRemoved uptimeSeconds : UInt64)
  deriving DecidableEq

/-- `known_client_t`. The history is not in the source: it is what the entry was told since its machine took the
slot, the latest event first, and no function reads it. -/
structure KnownClient where
  machineUid : List Byte
  label : List Byte
  peerIp : List Byte
  mode : Byte
  nbActiveSessions : Int
  nbActiveSearch : Int
  nbActivePrune : Int
  nbConnectionsTotal : Int32
  firstSeen : Int
  lastSeen : Int
  totalPrunerChecked : UInt64
  totalPrunerRemoved : UInt64
  bestMaxResult : UInt64
  cumulativeUptimeSeconds : UInt64
  sessions : List (Option KnownSession)
  history : List ClientEvent
  deriving DecidableEq

/-- `control_stats_t`, the fields that the registry reads. -/
structure ControlStats where
  maxResult : UInt64
  prunerChecked : UInt64
  prunerRemoved : UInt64

/-- `known_client_record_t`. -/
structure KnownClientRecord where
  machineUid : List Byte
  label : List Byte
  peerIp : List Byte
  mode : Byte
  nbConnectionsTotal : UInt32
  firstSeen : Int
  lastSeen : Int
  totalPrunerChecked : UInt64
  totalPrunerRemoved : UInt64
  bestMaxResult : UInt64
  cumulativeUptimeSeconds : UInt64
  deriving DecidableEq

namespace KnownClient

/-- An entry filled with zeros, and the machine it is for. -/
def blank (machineUid : List Byte) : KnownClient :=
  ⟨machineUid, [], [], 0, 0, 0, 0, 0, 0, 0, 0, 0, 0, 0, List.replicate knownClientMaxSessions none, []⟩

/-- `find_session_index`, with the session. -/
def findSession (c : KnownClient) (clientUid : List Byte) : Option (Nat × KnownSession) :=
  SlotTable.findSlot (fun s => decide (s.clientUid = clientUid)) c.sessions

/-- What `known_clients_registry_on_connect` writes to the entry of the machine, whether or not the session gets a slot. -/
def greet (now : Int) (identity : ClientIdentity) (peerIp : Option (List Byte)) (c : KnownClient) : KnownClient :=
  { c with
    label := copyBoundedString clientLabelMax (some identity.label)
    peerIp := copyBoundedString peerIpMaxLen peerIp
    mode := identity.mode
    lastSeen := now
    nbConnectionsTotal := c.nbConnectionsTotal + 1
    history := .hello now identity.clientUid identity.mode :: c.history }

/-- `known_clients_registry_on_connect` on the entry of the machine, and whether it gets past the table of sessions. -/
def onConnect (now : Int) (identity : ClientIdentity) (peerIp : Option (List Byte)) (c : KnownClient) :
    KnownClient × Bool :=
  let c := c.greet now identity peerIp
  match c.findSession identity.clientUid with
  | some (sidx, s) => ({ c with sessions := c.sessions.set sidx (some { s with connectTime := now }) }, true)
  | none =>
    match SlotTable.freeSlot c.sessions with
    | none => (c, false)
    | some sidx =>
      ({ c with
          sessions := c.sessions.set sidx (some ⟨identity.clientUid, identity.mode, now, 0, 0⟩)
          nbActiveSessions := c.nbActiveSessions + 1
          nbActiveSearch := if identity.mode = clientModeSearch then c.nbActiveSearch + 1 else c.nbActiveSearch
          nbActivePrune := if identity.mode = clientModeSearch then c.nbActivePrune else c.nbActivePrune + 1 },
        true)

/-- The total of a machine and the last value of a session, after a report of the session. -/
def countGrowth (total last reported : UInt64) : UInt64 × UInt64 :=
  if last ≤ reported then (total + (reported - last), reported) else (total, last)

/-- The session part of `known_clients_registry_on_stats`. -/
def countStats (clientUid : List Byte) (stats : ControlStats) (c : KnownClient) : KnownClient :=
  match c.findSession clientUid with
  | none => c
  | some (sidx, s) =>
    let checked := countGrowth c.totalPrunerChecked s.lastPrunerChecked stats.prunerChecked
    let removed := countGrowth c.totalPrunerRemoved s.lastPrunerRemoved stats.prunerRemoved
    { c with
      totalPrunerChecked := checked.1
      totalPrunerRemoved := removed.1
      sessions := c.sessions.set sidx (some { s with lastPrunerChecked := checked.2, lastPrunerRemoved := removed.2 }) }

/-- `known_clients_registry_on_stats` on the entry of the machine. -/
def onStats (now : Int) (clientUid : List Byte) (stats : ControlStats) (c : KnownClient) : KnownClient :=
  let c := c.countStats clientUid stats
  { c with
    bestMaxResult := if stats.maxResult > c.bestMaxResult then stats.maxResult else c.bestMaxResult
    lastSeen := now
    history := .stats clientUid stats.prunerChecked stats.prunerRemoved :: c.history }

/-- The session part of `known_clients_registry_on_disconnect`. -/
def closeSession (now : Int) (clientUid : List Byte) (c : KnownClient) : KnownClient :=
  match c.findSession clientUid with
  | none => c
  | some (sidx, s) =>
    let elapsed := now - s.connectTime
    { c with
      cumulativeUptimeSeconds :=
        if elapsed > 0 then c.cumulativeUptimeSeconds + UInt64.ofNat elapsed.toNat else c.cumulativeUptimeSeconds
      sessions := c.sessions.set sidx none
      nbActiveSessions := c.nbActiveSessions - 1
      nbActiveSearch := if s.mode = clientModeSearch then c.nbActiveSearch - 1 else c.nbActiveSearch
      nbActivePrune := if s.mode = clientModeSearch then c.nbActivePrune else c.nbActivePrune - 1 }

/-- `known_clients_registry_on_disconnect` on the entry of the machine. -/
def onDisconnect (now : Int) (clientUid : List Byte) (c : KnownClient) : KnownClient :=
  let c := c.closeSession now clientUid
  { c with
    lastSeen := now
    history := .bye now clientUid :: c.history }

/-- `fill_record_from_entry`. -/
def fillRecord (c : KnownClient) : KnownClientRecord where
  machineUid := c.machineUid
  label := copyBoundedString clientLabelMax (some c.label)
  peerIp := copyBoundedString peerIpMaxLen (some c.peerIp)
  mode := c.mode
  nbConnectionsTotal := c.nbConnectionsTotal.toUInt32
  firstSeen := c.firstSeen
  lastSeen := c.lastSeen
  totalPrunerChecked := c.totalPrunerChecked
  totalPrunerRemoved := c.totalPrunerRemoved
  bestMaxResult := c.bestMaxResult
  cumulativeUptimeSeconds := c.cumulativeUptimeSeconds

end KnownClient

namespace KnownClientRecord

/-- What the entry of a machine is told by a record. -/
def event (rec : KnownClientRecord) : ClientEvent :=
  .record rec.nbConnectionsTotal rec.totalPrunerChecked rec.totalPrunerRemoved rec.cumulativeUptimeSeconds

/-- `apply_persisted_record` on a new entry. -/
def newEntry (rec : KnownClientRecord) : KnownClient :=
  { KnownClient.blank rec.machineUid with
    label := copyBoundedString clientLabelMax (some rec.label)
    peerIp := copyBoundedString peerIpMaxLen (some rec.peerIp)
    mode := rec.mode
    nbConnectionsTotal := rec.nbConnectionsTotal.toInt32
    firstSeen := rec.firstSeen
    lastSeen := rec.lastSeen
    totalPrunerChecked := rec.totalPrunerChecked
    totalPrunerRemoved := rec.totalPrunerRemoved
    bestMaxResult := rec.bestMaxResult
    cumulativeUptimeSeconds := rec.cumulativeUptimeSeconds
    history := [rec.event] }

/-- `apply_persisted_record` on the entry of a machine that is known. -/
def merge (rec : KnownClientRecord) (c : KnownClient) : KnownClient :=
  { c with
    nbConnectionsTotal := c.nbConnectionsTotal + rec.nbConnectionsTotal.toInt32
    firstSeen := if c.firstSeen = 0 ∨ rec.firstSeen < c.firstSeen then rec.firstSeen else c.firstSeen
    lastSeen := if rec.lastSeen > c.lastSeen then rec.lastSeen else c.lastSeen
    totalPrunerChecked := c.totalPrunerChecked + rec.totalPrunerChecked
    totalPrunerRemoved := c.totalPrunerRemoved + rec.totalPrunerRemoved
    bestMaxResult := if rec.bestMaxResult > c.bestMaxResult then rec.bestMaxResult else c.bestMaxResult
    cumulativeUptimeSeconds := c.cumulativeUptimeSeconds + rec.cumulativeUptimeSeconds
    history := rec.event :: c.history }

end KnownClientRecord

/-! ## The registry -/

/-- `g_known_clients` and `g_known_clients_mutation_count`. -/
structure KnownClients where
  clients : List (Option KnownClient)
  mutationCount : UInt64
  deriving DecidableEq

/-- `KNOWN_CLIENTS_FILE_MAGIC`. -/
def knownClientsFileMagic : UInt32 := 0x314c434b

/-- A file with a header: `known_clients_file_header_t`, and the records that can be read behind it. -/
structure KnownClientsFile where
  magic : UInt32
  count : UInt32
  records : List KnownClientRecord
  deriving DecidableEq

namespace KnownClients

/-- The registry of a server that starts. -/
def empty : KnownClients := ⟨List.replicate maxKnownClients none, 0⟩

/-- The entries in use, in the order of their slots. -/
def entries (g : KnownClients) : List KnownClient := g.clients.reduceOption

/-- A write to one slot. -/
def put (g : KnownClients) (idx : Nat) (c : KnownClient) : KnownClients :=
  { g with clients := g.clients.set idx (some c) }

/-- `g_known_clients_mutation_count++`. -/
def mutated (g : KnownClients) : KnownClients := { g with mutationCount := g.mutationCount + 1 }

/-- `find_machine_index`, with the entry. -/
def findMachine (g : KnownClients) (machineUid : List Byte) : Option (Nat × KnownClient) :=
  SlotTable.findSlot (fun c => decide (c.machineUid = machineUid)) g.clients

/-- The second loop of `allocate_machine_slot`, from a slot on: the slot and the `last_seen` of its victim. It
is reached when no slot is free. -/
def oldestDisconnected : Nat → Option (Nat × Int) → List (Option KnownClient) → Option (Nat × Int)
  | _, victim, [] => victim
  | i, victim, none :: rest => oldestDisconnected (i + 1) victim rest
  | i, victim, some c :: rest =>
    if c.nbActiveSessions = 0 ∧ victim.all (fun (_, oldest) => decide (c.lastSeen < oldest)) then
      oldestDisconnected (i + 1) (some (i, c.lastSeen)) rest
    else oldestDisconnected (i + 1) victim rest

/-- `allocate_machine_slot`; the caller writes over the entry of the slot. -/
def allocateMachineSlot (g : KnownClients) : Option Nat :=
  match SlotTable.freeSlot g.clients with
  | some idx => some idx
  | none => (oldestDisconnected 0 none g.clients).map (·.1)

/-- The end of `known_clients_registry_on_connect`, once the machine has an entry. -/
def connectEntry (g : KnownClients) (now : Int) (identity : ClientIdentity) (peerIp : Option (List Byte))
    (idx : Nat) (c : KnownClient) : KnownClients :=
  let (c, tracked) := c.onConnect now identity peerIp
  let g := g.put idx c
  if tracked then g.mutated else g

/-- `known_clients_registry_on_connect`. -/
def onConnect (g : KnownClients) (now : Int) (identity : ClientIdentity) (peerIp : Option (List Byte)) : KnownClients :=
  match g.findMachine identity.machineUid with
  | some (idx, c) => g.connectEntry now identity peerIp idx c
  | none =>
    match g.allocateMachineSlot with
    | none => g
    | some idx =>
      g.connectEntry now identity peerIp idx { KnownClient.blank identity.machineUid with firstSeen := now }

/-- `known_clients_registry_on_stats`. -/
def onStats (g : KnownClients) (now : Int) (machineUid clientUid : List Byte) (stats : ControlStats) : KnownClients :=
  match g.findMachine machineUid with
  | none => g
  | some (idx, c) => (g.put idx (c.onStats now clientUid stats)).mutated

/-- `known_clients_registry_on_disconnect`. -/
def onDisconnect (g : KnownClients) (now : Int) (machineUid clientUid : List Byte) : KnownClients :=
  match g.findMachine machineUid with
  | none => g
  | some (idx, c) => (g.put idx (c.onDisconnect now clientUid)).mutated

/-- `known_clients_registry_save`: what it writes. -/
def save (g : KnownClients) : KnownClientsFile :=
  let records := g.entries.map KnownClient.fillRecord
  ⟨knownClientsFileMagic, UInt32.ofNat records.length, records⟩

/-- `apply_persisted_record`. -/
def applyPersistedRecord (g : KnownClients) (rec : KnownClientRecord) : KnownClients :=
  match g.findMachine rec.machineUid with
  | some (idx, c) => g.put idx (rec.merge c)
  | none =>
    match g.allocateMachineSlot with
    | none => g
    | some idx => g.put idx rec.newEntry

/-- `known_clients_registry_load`; `none` is a file that cannot be read, or is too short for a header. -/
def load (g : KnownClients) (file : Option KnownClientsFile) : Int × KnownClients :=
  match file with
  | none => (-1, g)
  | some file =>
    if file.magic ≠ knownClientsFileMagic then (-1, g)
    else (0, (file.records.take file.count.toNat).foldl applyPersistedRecord g)

/-! ## Runs -/

/-- A call to the registry that writes to it. -/
inductive Call
  | connect (now : Int) (identity : ClientIdentity) (peerIp : Option (List Byte))
  | stats (now : Int) (machineUid clientUid : List Byte) (stats : ControlStats)
  | disconnect (now : Int) (machineUid clientUid : List Byte)
  | load (file : Option KnownClientsFile)

/-- One call. -/
def step (g : KnownClients) : Call → KnownClients
  | .connect now identity peerIp => g.onConnect now identity peerIp
  | .stats now machineUid clientUid stats => g.onStats now machineUid clientUid stats
  | .disconnect now machineUid clientUid => g.onDisconnect now machineUid clientUid
  | .load file => (g.load file).2

/-- The registry after the calls of a run. -/
def run (calls : List Call) : KnownClients := calls.foldl step empty

end KnownClients
