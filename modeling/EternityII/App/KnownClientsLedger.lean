-- SUMMARY: What the entry of a machine has to say of the events it was told, in every run of the registry.
import EternityII.App.KnownClients

/-!
# The ledger of a known machine

The ledger of a machine is read off the events its entry was told: the sessions that are open, those that ended
and when, what each of them reported, and what files added. An entry agrees with the ledger of its history, and
every call to the registry keeps that agreement.
-/

/-! ## Ledgers -/

/-- A session that was opened: its first and its last hello, and the highest counts it has reported. -/
structure SessionLedger where
  clientUid : List Byte
  mode : Byte
  began : Int
  refreshed : Int
  checked : UInt64
  removed : UInt64

/-- The ledger of a machine. A machine has at most eight sessions open; another one is not followed. -/
structure ClientLedger where
  connections : Nat
  replays : Nat
  loadedChecked : Nat
  loadedRemoved : Nat
  loadedUptime : Nat
  active : List SessionLedger
  ended : List (SessionLedger × Int)

/-- The higher one of two counts. -/
def highest (a b : UInt64) : UInt64 := if a ≤ b then b else a

namespace SessionLedger

/-- A hello that is told again. -/
def refresh (now : Int) (s : SessionLedger) : SessionLedger := { s with refreshed := now }

/-- The counts of a session after a report. -/
def report (checked removed : UInt64) (s : SessionLedger) : SessionLedger :=
  { s with checked := highest s.checked checked, removed := highest s.removed removed }

/-- The session as the table of the entry holds it. -/
def session (s : SessionLedger) : KnownSession := ⟨s.clientUid, s.mode, s.refreshed, s.checked, s.removed⟩

end SessionLedger

namespace ClientLedger

/-- The ledger of a machine that was told nothing. -/
def blank : ClientLedger := ⟨0, 0, 0, 0, 0, [], []⟩

/-- What the session of a client does. -/
def onSession (clientUid : List Byte) (f : SessionLedger → SessionLedger) (active : List SessionLedger) :
    List SessionLedger :=
  active.map fun s => if s.clientUid = clientUid then f s else s

/-- A hello opens a session, unless it is told again or no session can be added. -/
def hello (l : ClientLedger) (now : Int) (clientUid : List Byte) (mode : Byte) : ClientLedger :=
  let l := { l with connections := l.connections + 1 }
  if ∃ s ∈ l.active, s.clientUid = clientUid then
    { l with replays := l.replays + 1, active := onSession clientUid (.refresh now) l.active }
  else if l.active.length < knownClientMaxSessions then
    { l with active := ⟨clientUid, mode, now, now, 0, 0⟩ :: l.active }
  else l

/-- The session of a client ends. -/
def bye (l : ClientLedger) (now : Int) (clientUid : List Byte) : ClientLedger :=
  { l with
    active := l.active.filter fun s => s.clientUid ≠ clientUid
    ended := (l.active.filter fun s => s.clientUid = clientUid).map (·, now) ++ l.ended }

/-- One more event. -/
def tell (l : ClientLedger) : ClientEvent → ClientLedger
  | .hello now clientUid mode => l.hello now clientUid mode
  | .stats clientUid checked removed => { l with active := onSession clientUid (.report checked removed) l.active }
  | .bye now clientUid => l.bye now clientUid
  | .record connections checked removed uptime =>
    { l with
      connections := l.connections + connections.toNat
      loadedChecked := l.loadedChecked + checked.toNat
      loadedRemoved := l.loadedRemoved + removed.toNat
      loadedUptime := l.loadedUptime + uptime.toNat }

/-- The ledger of a history, the latest event first. -/
def ofHistory : List ClientEvent → ClientLedger
  | [] => blank
  | event :: history => (ofHistory history).tell event

/-- The sessions that were opened, whether or not they ended. -/
def opened (l : ClientLedger) : List SessionLedger := l.active ++ l.ended.map (·.1)

/-- What the sessions reported, each since it began: a session counts from zero. -/
def grown (l : ClientLedger) (count : SessionLedger → UInt64) : Nat := (l.opened.map fun s => (count s).toNat).sum

/-- The time of the sessions that ended, each from a hello of its own on. -/
def timeSince (l : ClientLedger) (start : SessionLedger → Int) : Nat :=
  (l.ended.map fun (s, now) => (now - start s).toNat).sum

/-- Without a hello that is told again, the last hello of a session is its first one. -/
theorem refreshed_eq_began (history : List ClientEvent) (h : (ofHistory history).replays = 0) :
    ∀ s ∈ (ofHistory history).opened, s.refreshed = s.began := by
  induction history with
  | nil => exact fun s hs => absurd hs List.not_mem_nil
  | cons event history ih =>
    cases event with
    | hello now clientUid mode =>
      simp only [ofHistory, tell, hello] at h ⊢
      split at h
      case isTrue => exact absurd h (Nat.succ_ne_zero _)
      case isFalse hnew =>
        rw [if_neg hnew]
        split at h
        case isTrue hroom =>
          rw [if_pos hroom]
          intro s hs
          cases hs with
          | head => rfl
          | tail _ hs => exact ih h s hs
        case isFalse hroom =>
          rw [if_neg hroom]
          exact ih h
    | stats clientUid checked removed =>
      intro s hs
      rcases List.mem_append.mp hs with hs | hs
      · obtain ⟨s, hmem, rfl⟩ := List.mem_map.mp hs
        have hold : s.refreshed = s.began := ih h s (List.mem_append_left _ hmem)
        split
        · exact hold
        · exact hold
      · exact ih h s (List.mem_append_right _ hs)
    | bye now clientUid =>
      intro s hs
      apply ih h
      rw [opened] at hs ⊢
      simp only [ofHistory, tell, bye, List.map_append, List.map_map, List.mem_append, List.mem_filter, List.mem_map,
        Function.comp_apply, exists_eq_right] at hs
      rw [List.mem_append, List.mem_map]
      grind
    | record connections checked removed uptime => exact ih h

/-- Where no session lost a hello, the time from the last hello on is the time from the first one on. -/
theorem timeSince_refreshed (l : ClientLedger) (h : ∀ s ∈ l.opened, s.refreshed = s.began) :
    l.timeSince (·.refreshed) = l.timeSince (·.began) := by
  apply congrArg List.sum
  refine List.map_congr_left fun ⟨s, now⟩ hs => ?_
  have hmem : s ∈ l.opened := List.mem_append_right _ (List.mem_map.mpr ⟨(s, now), hs, rfl⟩)
  show (now - s.refreshed).toNat = (now - s.began).toNat
  rw [h s hmem]

variable {l : ClientLedger} {clientUid : List Byte} {count : SessionLedger → UInt64}

/-- Without a session of the client nothing happens. -/
theorem onSession_eq_self {active : List SessionLedger} (h : ¬ ∃ s ∈ active, s.clientUid = clientUid)
    (f : SessionLedger → SessionLedger) : onSession clientUid f active = active := by
  refine (List.map_congr_left fun s hs => ?_).trans (List.map_id active)
  exact if_neg fun huid => h ⟨s, hs, huid⟩

theorem bye_eq_self (h : ¬ ∃ s ∈ l.active, s.clientUid = clientUid) (now : Int) : l.bye now clientUid = l := by
  have hkept : l.active.filter (fun s => s.clientUid ≠ clientUid) = l.active :=
    List.filter_eq_self.mpr fun s hs => decide_eq_true fun huid => h ⟨s, hs, huid⟩
  have hgone : l.active.filter (fun s => s.clientUid = clientUid) = [] :=
    List.filter_eq_nil_iff.mpr fun s hs huid => h ⟨s, hs, of_decide_eq_true huid⟩
  rw [bye, hkept, hgone]
  rfl

/-- The end of a session changes no count. -/
theorem grown_bye (l : ClientLedger) (now : Int) (clientUid : List Byte) (count : SessionLedger → UInt64) :
    (l.bye now clientUid).grown count = l.grown count := by
  have hopened : (l.bye now clientUid).opened.Perm l.opened := by
    have hparts := (List.filter_append_perm (fun s : SessionLedger => decide (s.clientUid ≠ clientUid)) l.active)
    simp only [opened, bye, List.map_append, List.map_map, ← List.append_assoc]
    apply List.Perm.append_right
    refine List.Perm.trans (List.Perm.of_eq ?_) hparts
    congr 1
    simp [Function.comp_def]
  exact (hopened.map _).sum_nat

/-- A hello changes no count and ends no session. -/
theorem grown_hello (l : ClientLedger) (now : Int) (clientUid : List Byte) (mode : Byte)
    (hrefresh : ∀ s, count (.refresh now s) = count s) (hnew : count ⟨clientUid, mode, now, now, 0, 0⟩ = 0) :
    (l.hello now clientUid mode).grown count = l.grown count := by
  rw [hello]
  split
  · simp only [grown, opened, onSession, List.map_append, List.map_map]
    congr 2
    refine List.map_congr_left fun s _ => ?_
    show (count (if s.clientUid = clientUid then .refresh now s else s)).toNat = (count s).toNat
    split
    · rw [hrefresh]
    · rfl
  · split
    · show ((count _).toNat :: _).sum = _
      rw [hnew, List.sum_cons]
      exact Nat.zero_add _
    · rfl

theorem hello_loaded (l : ClientLedger) (now : Int) (clientUid : List Byte) (mode : Byte) :
    (l.hello now clientUid mode).connections = l.connections + 1 ∧
      (l.hello now clientUid mode).loadedChecked = l.loadedChecked ∧
      (l.hello now clientUid mode).loadedRemoved = l.loadedRemoved ∧
      (l.hello now clientUid mode).loadedUptime = l.loadedUptime ∧
      (l.hello now clientUid mode).ended = l.ended := by
  rw [hello]
  split
  · exact ⟨rfl, rfl, rfl, rfl, rfl⟩
  · split
    · exact ⟨rfl, rfl, rfl, rfl, rfl⟩
    · exact ⟨rfl, rfl, rfl, rfl, rfl⟩

end ClientLedger

/-! ## Entries agree with their ledgers -/

open ClientLedger

/-- The sessions of an entry that are in use. -/
def KnownClient.used (c : KnownClient) : List KnownSession := c.sessions.reduceOption

/-- The ledger of an entry. -/
def KnownClient.ledger (c : KnownClient) : ClientLedger := ClientLedger.ofHistory c.history

/-- The sessions of a machine and the counters kept for them agree with a ledger. -/
structure KnownClient.SessionsAgree (c : KnownClient) (l : ClientLedger) : Prop where
  slots : c.sessions.length = knownClientMaxSessions
  sessions : c.used.Perm (l.active.map SessionLedger.session)
  distinct : (c.used.map (·.clientUid)).Nodup
  active : c.nbActiveSessions = c.used.length
  search : c.nbActiveSearch = c.used.countP (fun s => s.mode = clientModeSearch)
  prune : c.nbActivePrune = c.used.countP (fun s => s.mode ≠ clientModeSearch)

/-- The totals of a machine agree with a ledger, as far as 64 bits hold them. -/
structure KnownClient.TotalsAgree (c : KnownClient) (l : ClientLedger) : Prop where
  connections : c.nbConnectionsTotal.toUInt32.toNat = l.connections % 2 ^ 32
  checked : c.totalPrunerChecked.toNat = (l.loadedChecked + l.grown (·.checked)) % 2 ^ 64
  removed : c.totalPrunerRemoved.toNat = (l.loadedRemoved + l.grown (·.removed)) % 2 ^ 64
  uptime : c.cumulativeUptimeSeconds.toNat = (l.loadedUptime + l.timeSince (·.refreshed)) % 2 ^ 64

/-- The texts of an entry fit their fields. -/
structure KnownClient.TextsFit (c : KnownClient) : Prop where
  label : copyBoundedString clientLabelMax (some c.label) = c.label
  peerIp : copyBoundedString peerIpMaxLen (some c.peerIp) = c.peerIp

/-- An entry agrees with its ledger. -/
structure KnownClient.Agrees (c : KnownClient) : Prop where
  sessions : c.SessionsAgree c.ledger
  totals : c.TotalsAgree c.ledger
  texts : c.TextsFit

theorem copyBoundedString_copyBoundedString (outSize : Nat) (source : Option (List Byte)) :
    copyBoundedString outSize (some (copyBoundedString outSize source)) = copyBoundedString outSize source := by
  have hclear : ∀ b ∈ copyBoundedString outSize source, decide (b ≠ 0) = true := by
    intro b hb
    have hfront : b ∈ (source.getD []).takeWhile (fun b => decide (b ≠ 0)) := List.mem_of_mem_take hb
    exact List.mem_takeWhile_imp (p := fun b : Byte => decide (b ≠ 0)) hfront
  have hfit : (copyBoundedString outSize source).length ≤ outSize - 1 := List.length_take_le ..
  calc copyBoundedString outSize (some (copyBoundedString outSize source))
      = ((copyBoundedString outSize source).takeWhile fun b => decide (b ≠ 0)).take (outSize - 1) := rfl
    _ = (copyBoundedString outSize source).take (outSize - 1) := by rw [List.takeWhile_eq_self_iff.mpr hclear]
    _ = copyBoundedString outSize source := List.take_of_length_le hfit

namespace KnownClient

variable {c : KnownClient} {l : ClientLedger} {clientUid : List Byte} {sidx : Nat} {s : KnownSession}

/-! ## Sessions -/

/-- A session that is found stands in its slot, and nowhere else. -/
theorem findSession_eq_some (h : c.findSession clientUid = some (sidx, s)) :
    s.clientUid = clientUid ∧ ∃ before after, c.used = before ++ s :: after ∧
      ∀ x : Option KnownSession, (c.sessions.set sidx x).reduceOption = before ++ (x.toList ++ after) := by
  obtain ⟨hslot, huid⟩ := SlotTable.findSlot_eq_some h
  exact ⟨of_decide_eq_true huid, SlotTable.reduceOption_set hslot⟩

theorem findSession_eq_none_iff : c.findSession clientUid = none ↔ ∀ s ∈ c.used, s.clientUid ≠ clientUid := by
  rw [findSession, SlotTable.findSlot_eq_none_iff]
  exact forall₂_congr fun s _ => decide_eq_false_iff_not

/-- A client has a session in the table when it has one in the ledger. -/
theorem SessionsAgree.mem_iff (h : c.SessionsAgree l) :
    (∃ s ∈ l.active, s.clientUid = clientUid) ↔ ∃ s ∈ c.used, s.clientUid = clientUid := by
  constructor
  · rintro ⟨s, hs, huid⟩
    exact ⟨s.session, h.sessions.mem_iff.mpr (List.mem_map_of_mem hs), huid⟩
  · rintro ⟨s, hs, huid⟩
    obtain ⟨t, ht, rfl⟩ := List.mem_map.mp (h.sessions.mem_iff.mp hs)
    exact ⟨t, ht, huid⟩

theorem mem_used_of_findSession (h : c.findSession clientUid = some (sidx, s)) : s ∈ c.used := by
  obtain ⟨-, before, after, hused, -⟩ := findSession_eq_some h
  rw [hused]
  exact List.mem_append_right _ (List.mem_cons_self ..)

/-- A client whose session is found has one in the ledger. -/
theorem SessionsAgree.opened_of_found (h : c.SessionsAgree l) (hfound : c.findSession clientUid = some (sidx, s)) :
    ∃ s ∈ l.active, s.clientUid = clientUid :=
  h.mem_iff.mpr ⟨s, mem_used_of_findSession hfound, (findSession_eq_some hfound).1⟩

/-- A client whose session is not found has none in the ledger. -/
theorem SessionsAgree.closed_of_not_found (h : c.SessionsAgree l) (hnone : c.findSession clientUid = none) :
    ¬ ∃ s ∈ l.active, s.clientUid = clientUid := by
  intro hopen
  obtain ⟨s, hs, huid⟩ := h.mem_iff.mp hopen
  exact findSession_eq_none_iff.mp hnone s hs huid

/-- What a session does in its slot is what the session of its client does in the ledger. -/
theorem perm_onSession {before after : List KnownSession} {active : List SessionLedger}
    (hsessions : (before ++ s :: after).Perm (active.map SessionLedger.session))
    (hdistinct : ((before ++ s :: after).map (·.clientUid)).Nodup)
    {f : KnownSession → KnownSession} {g : SessionLedger → SessionLedger} (hfg : ∀ t, (g t).session = f t.session) :
    (before ++ f s :: after).Perm ((onSession s.clientUid g active).map SessionLedger.session) := by
  have hchange := (hsessions.map fun t => if t.clientUid = s.clientUid then f t else t)
  rw [SlotTable.map_key_of_nodup f hdistinct, List.map_map] at hchange
  refine hchange.trans (List.Perm.of_eq ?_)
  rw [onSession, List.map_map]
  refine List.map_congr_left fun t _ => ?_
  show (if t.clientUid = s.clientUid then f t.session else t.session)
    = (if t.clientUid = s.clientUid then g t else t).session
  split
  · exact (hfg t).symm
  · rfl

/-- The agreement is about the table, the counters of its roles and the sessions of the ledger. -/
theorem SessionsAgree.congr (h : c.SessionsAgree l) {c' : KnownClient} {l' : ClientLedger}
    (hsessions : c'.sessions = c.sessions) (hactive : c'.nbActiveSessions = c.nbActiveSessions)
    (hsearch : c'.nbActiveSearch = c.nbActiveSearch) (hprune : c'.nbActivePrune = c.nbActivePrune)
    (hl : l'.active = l.active) : c'.SessionsAgree l' := by
  have hused : c'.used = c.used := congrArg List.reduceOption hsessions
  refine ⟨hsessions ▸ h.slots, ?_, ?_, ?_, ?_, ?_⟩
  · rw [hused, hl]
    exact h.sessions
  · rw [hused]
    exact h.distinct
  · rw [hused, hactive]
    exact h.active
  · rw [hused, hsearch]
    exact h.search
  · rw [hused, hprune]
    exact h.prune

/-- A session in use changes in its slot, and keeps its client and its role. -/
theorem SessionsAgree.update (h : c.SessionsAgree l) (hfound : c.findSession clientUid = some (sidx, s))
    {f : KnownSession → KnownSession} {g : SessionLedger → SessionLedger} (hfg : ∀ t, (g t).session = f t.session)
    (huid : (f s).clientUid = s.clientUid) (hmode : (f s).mode = s.mode) :
    ({ c with sessions := c.sessions.set sidx (some (f s)) } : KnownClient).SessionsAgree
      { l with active := onSession clientUid g l.active } := by
  obtain ⟨rfl, before, after, hused, hset⟩ := findSession_eq_some hfound
  have hdistinct := h.distinct
  have hsessions := h.sessions
  rw [hused] at hdistinct hsessions
  have hafter : ({ c with sessions := c.sessions.set sidx (some (f s)) } : KnownClient).used = before ++ f s :: after :=
    hset (some (f s))
  refine ⟨(List.length_set ..).trans h.slots, ?_, ?_, ?_, ?_, ?_⟩
  · rw [hafter]
    exact perm_onSession hsessions hdistinct hfg
  · rw [hafter, List.map_append, List.map_cons, huid, ← List.map_cons, ← List.map_append]
    exact hdistinct
  · rw [hafter, h.active, hused, List.length_append, List.length_append, List.length_cons, List.length_cons]
  · rw [hafter, h.search, hused, List.countP_append, List.countP_append, List.countP_cons, List.countP_cons, hmode]
  · rw [hafter, h.prune, hused, List.countP_append, List.countP_append, List.countP_cons, List.countP_cons, hmode]

/-- A session opens in a free slot. -/
theorem SessionsAgree.insert (h : c.SessionsAgree l) (hnew : ∀ s ∈ c.used, s.clientUid ≠ clientUid)
    (hfree : SlotTable.freeSlot c.sessions = some sidx) (now : Int) (mode : Byte) :
    ({ c with
        sessions := c.sessions.set sidx (some ⟨clientUid, mode, now, 0, 0⟩)
        nbActiveSessions := c.nbActiveSessions + 1
        nbActiveSearch := if mode = clientModeSearch then c.nbActiveSearch + 1 else c.nbActiveSearch
        nbActivePrune := if mode = clientModeSearch then c.nbActivePrune else c.nbActivePrune + 1 } :
      KnownClient).SessionsAgree { l with active := ⟨clientUid, mode, now, now, 0, 0⟩ :: l.active } := by
  obtain ⟨before, after, hused, hset⟩ := SlotTable.reduceOption_set (SlotTable.freeSlot_eq_some hfree)
  have hafter : (c.sessions.set sidx (some ⟨clientUid, mode, now, 0, 0⟩)).reduceOption =
      before ++ (⟨clientUid, mode, now, 0, 0⟩ : KnownSession) :: after := hset _
  have hopen : (before ++ (⟨clientUid, mode, now, 0, 0⟩ : KnownSession) :: after).Perm
      (⟨clientUid, mode, now, 0, 0⟩ :: c.used) := by
    rw [used, hused]
    exact List.perm_middle
  refine ⟨(List.length_set ..).trans h.slots, ?_, ?_, ?_, ?_, ?_⟩
  · rw [used, hafter]
    exact hopen.trans (h.sessions.cons _)
  · rw [used, hafter]
    refine (hopen.map _).nodup_iff.mpr (List.nodup_cons.mpr ⟨?_, h.distinct⟩)
    rintro hmem
    obtain ⟨s, hs, huid⟩ := List.mem_map.mp hmem
    exact hnew s hs huid
  · rw [used, hafter]
    show c.nbActiveSessions + 1 = _
    rw [h.active, hopen.length_eq, List.length_cons]
    rfl
  · rw [used, hafter]
    show (if mode = clientModeSearch then c.nbActiveSearch + 1 else c.nbActiveSearch) = _
    rw [hopen.countP_eq, List.countP_cons, h.search]
    split
    case isTrue hmode => simp [hmode]
    case isFalse hmode => simp [hmode]
  · rw [used, hafter]
    show (if mode = clientModeSearch then c.nbActivePrune else c.nbActivePrune + 1) = _
    rw [hopen.countP_eq, List.countP_cons, h.prune]
    split
    case isTrue hmode => simp [hmode]
    case isFalse hmode => simp [hmode]

/-- A session leaves its slot. -/
theorem SessionsAgree.remove (h : c.SessionsAgree l) (hfound : c.findSession clientUid = some (sidx, s)) (now : Int) :
    ({ c with
        sessions := c.sessions.set sidx none
        nbActiveSessions := c.nbActiveSessions - 1
        nbActiveSearch := if s.mode = clientModeSearch then c.nbActiveSearch - 1 else c.nbActiveSearch
        nbActivePrune := if s.mode = clientModeSearch then c.nbActivePrune else c.nbActivePrune - 1 } :
      KnownClient).SessionsAgree (l.bye now clientUid) := by
  obtain ⟨rfl, before, after, hused, hset⟩ := findSession_eq_some hfound
  have hdistinct := h.distinct
  have hsessions := h.sessions
  rw [hused] at hdistinct hsessions
  have hafter : (c.sessions.set sidx none).reduceOption = before ++ after := hset none
  refine ⟨(List.length_set ..).trans h.slots, ?_, ?_, ?_, ?_, ?_⟩
  · rw [used, hafter]
    have hgone := hsessions.filter fun t => decide (t.clientUid ≠ s.clientUid)
    rw [SlotTable.filter_key_ne_of_nodup hdistinct, List.filter_map] at hgone
    exact hgone
  · rw [used, hafter]
    exact hdistinct.sublist (((List.sublist_cons_self s after).append_left before).map _)
  · rw [used, hafter]
    show c.nbActiveSessions - 1 = _
    rw [h.active, hused, List.length_append, List.length_append, List.length_cons]
    push_cast
    ring
  · rw [used, hafter]
    show (if s.mode = clientModeSearch then c.nbActiveSearch - 1 else c.nbActiveSearch) = _
    rw [h.search, hused, List.countP_append, List.countP_append, List.countP_cons]
    split
    case isTrue hmode =>
      simp [hmode]
      ring
    case isFalse hmode => simp [hmode]
  · rw [used, hafter]
    show (if s.mode = clientModeSearch then c.nbActivePrune else c.nbActivePrune - 1) = _
    rw [h.prune, hused, List.countP_append, List.countP_append, List.countP_cons]
    split
    case isTrue hmode => simp [hmode]
    case isFalse hmode =>
      simp [hmode]
      ring

/-- Both roles together are the sessions. -/
theorem SessionsAgree.roles (h : c.SessionsAgree l) : c.nbActiveSessions = c.nbActiveSearch + c.nbActivePrune := by
  have hsplit := List.length_eq_countP_add_countP (fun s : KnownSession => decide (s.mode = clientModeSearch)) (l := c.used)
  rw [h.active, h.search, h.prune, hsplit]
  simp

/-! ## Totals -/

/-- What the sessions of a ledger reported, as the table holds it. -/
theorem SessionsAgree.grown_eq (h : c.SessionsAgree l) {count : SessionLedger → UInt64} {last : KnownSession → UInt64}
    (hlast : ∀ s : SessionLedger, last s.session = count s) :
    l.grown count = (c.used.map fun s => (last s).toNat).sum + ((l.ended.map (·.1)).map fun s => (count s).toNat).sum := by
  have htable : (c.used.map fun s => (last s).toNat).sum = (l.active.map fun s => (count s).toNat).sum := by
    rw [(h.sessions.map _).sum_nat, List.map_map]
    congr 1
    exact List.map_congr_left fun s _ => congrArg UInt64.toNat (hlast s)
  rw [grown, opened, List.map_append, List.sum_append_nat, htable]

/-- A session that reports adds to the counts what its own count grows by. -/
theorem SessionsAgree.grown_update (h : c.SessionsAgree l) (hfound : c.findSession clientUid = some (sidx, s))
    {f : KnownSession → KnownSession} {g : SessionLedger → SessionLedger} (hfg : ∀ t, (g t).session = f t.session)
    (huid : (f s).clientUid = s.clientUid) (hmode : (f s).mode = s.mode)
    (count : SessionLedger → UInt64) (last : KnownSession → UInt64)
    (hlast : ∀ s : SessionLedger, last s.session = count s) :
    ({ l with active := onSession clientUid g l.active } : ClientLedger).grown count + (last s).toNat =
      l.grown count + (last (f s)).toNat := by
  have hupdate := h.update hfound hfg huid hmode
  obtain ⟨-, before, after, hused, hset⟩ := findSession_eq_some hfound
  have hafter : ({ c with sessions := c.sessions.set sidx (some (f s)) } : KnownClient).used = before ++ f s :: after :=
    hset (some (f s))
  rw [h.grown_eq hlast, hupdate.grown_eq hlast, hused, hafter]
  simp only [List.map_append, List.map_cons, List.sum_append_nat, List.sum_cons]
  omega

/-- A count takes the growth of its session, and the session the highest count it reported. -/
theorem countGrowth_eq (total last reported : UInt64) :
    (countGrowth total last reported).2 = highest last reported ∧ last ≤ highest last reported ∧
      (countGrowth total last reported).1.toNat =
        (total.toNat + ((highest last reported).toNat - last.toNat)) % 2 ^ 64 := by
  rw [countGrowth, highest]
  split
  case isTrue hle =>
    refine ⟨rfl, hle, ?_⟩
    rw [UInt64.toNat_add, UInt64.toNat_sub_of_le _ _ hle]
  case isFalse =>
    refine ⟨rfl, UInt64.le_refl last, ?_⟩
    rw [Nat.sub_self, Nat.add_zero, Nat.mod_eq_of_lt total.toNat_lt]

/-- A total takes what the count of one session grows by. -/
theorem total_of_growth {total : UInt64} {loaded grown grown' : Nat} {last reported : UInt64}
    (htotal : total.toNat = (loaded + grown) % 2 ^ 64)
    (hgrown : grown' + last.toNat = grown + (highest last reported).toNat) :
    (countGrowth total last reported).1.toNat = (loaded + grown') % 2 ^ 64 := by
  obtain ⟨-, hle, hsum⟩ := countGrowth_eq total last reported
  have hle' : last.toNat ≤ (highest last reported).toNat := UInt64.le_iff_toNat_le.mp hle
  rw [hsum, htotal]
  omega

/-- The end of a session adds its time. -/
theorem SessionsAgree.timeSince_bye (h : c.SessionsAgree l) (hfound : c.findSession clientUid = some (sidx, s))
    (now : Int) :
    (l.bye now clientUid).timeSince (·.refreshed) = (now - s.connectTime).toNat + l.timeSince (·.refreshed) := by
  obtain ⟨rfl, before, after, hused, -⟩ := findSession_eq_some hfound
  have hdistinct := h.distinct
  have hsessions := h.sessions
  rw [hused] at hdistinct hsessions
  -- the session is the only one of its client in the ledger, too
  have hone := hsessions.filter fun t => decide (t.clientUid = s.clientUid)
  rw [SlotTable.filter_key_of_nodup hdistinct, List.filter_map] at hone
  obtain ⟨t, ht, hts⟩ := List.map_eq_singleton_iff.mp (List.singleton_perm.mp hone).symm
  have hgone : l.active.filter (fun t => t.clientUid = s.clientUid) = [t] := ht
  rw [timeSince, bye, hgone, ← hts]
  rfl

/-! ## Events -/

/-- What a hello leaves of an entry: its machine, its history with the hello, and its other sessions. -/
theorem onConnect_history (c : KnownClient) (now : Int) (identity : ClientIdentity) (peerIp : Option (List Byte)) :
    (c.onConnect now identity peerIp).1.machineUid = c.machineUid ∧
      (c.onConnect now identity peerIp).1.history = .hello now identity.clientUid identity.mode :: c.history ∧
      (c.onConnect now identity peerIp).1.nbConnectionsTotal = c.nbConnectionsTotal + 1 := by
  rw [onConnect]
  split
  · exact ⟨rfl, rfl, rfl⟩
  · split
    · exact ⟨rfl, rfl, rfl⟩
    · exact ⟨rfl, rfl, rfl⟩

theorem SessionsAgree.onConnect (h : c.SessionsAgree l) (now : Int) (identity : ClientIdentity)
    (peerIp : Option (List Byte)) :
    (c.onConnect now identity peerIp).1.SessionsAgree (l.hello now identity.clientUid identity.mode) := by
  have hgreet : (c.greet now identity peerIp).SessionsAgree { l with connections := l.connections + 1 } :=
    h.congr rfl rfl rfl rfl rfl
  rw [KnownClient.onConnect, hello]
  split
  case h_1 sidx s hfound =>
    rw [if_pos (hgreet.opened_of_found hfound)]
    exact (hgreet.update hfound (f := fun t => { t with connectTime := now }) (fun _ => rfl) rfl rfl).congr
      rfl rfl rfl rfl rfl
  case h_2 hnone =>
    have hnew : ∀ s ∈ c.used, s.clientUid ≠ identity.clientUid := findSession_eq_none_iff.mp hnone
    have hcount : l.active.length = c.used.length := by rw [h.sessions.length_eq, List.length_map]
    rw [if_neg (hgreet.closed_of_not_found hnone)]
    split
    case h_1 hfull =>
      have hall : c.used.length = c.sessions.length := SlotTable.freeSlot_eq_none_iff.mp hfull
      rw [if_neg (Nat.not_lt.mpr (Nat.le_of_eq (by rw [hcount, hall, h.slots])))]
      exact hgreet
    case h_2 sidx hfree =>
      have hroom : l.active.length < knownClientMaxSessions := by
        rw [hcount, ← h.slots]
        refine lt_of_le_of_ne (List.reduceOption_length_le _) fun hall => ?_
        have hfull : SlotTable.freeSlot c.sessions = none := SlotTable.freeSlot_eq_none_iff.mpr hall
        cases hfull.symm.trans hfree
      rw [if_pos hroom]
      exact hgreet.insert hnew hfree now identity.mode

theorem toNat_toUInt32_succ (n : Int32) : (n + 1).toUInt32.toNat = (n.toUInt32.toNat + 1) % 2 ^ 32 := by
  rw [Int32.toUInt32_add, UInt32.toNat_add]
  rfl

theorem TotalsAgree.onConnect (h : c.TotalsAgree l) (now : Int) (identity : ClientIdentity)
    (peerIp : Option (List Byte)) :
    (c.onConnect now identity peerIp).1.TotalsAgree (l.hello now identity.clientUid identity.mode) := by
  obtain ⟨hconnections, hchecked, hremoved, huptime, hended⟩ :=
    hello_loaded l now identity.clientUid identity.mode
  have hsame : (c.onConnect now identity peerIp).1.totalPrunerChecked = c.totalPrunerChecked ∧
      (c.onConnect now identity peerIp).1.totalPrunerRemoved = c.totalPrunerRemoved ∧
      (c.onConnect now identity peerIp).1.cumulativeUptimeSeconds = c.cumulativeUptimeSeconds := by
    rw [KnownClient.onConnect]
    split
    · exact ⟨rfl, rfl, rfl⟩
    · split
      · exact ⟨rfl, rfl, rfl⟩
      · exact ⟨rfl, rfl, rfl⟩
  refine ⟨?_, ?_, ?_, ?_⟩
  · rw [(onConnect_history c now identity peerIp).2.2, toNat_toUInt32_succ, hconnections, h.connections]
    omega
  · rw [hsame.1, hchecked, grown_hello l now identity.clientUid identity.mode (fun _ => rfl) rfl]
    exact h.checked
  · rw [hsame.2.1, hremoved, grown_hello l now identity.clientUid identity.mode (fun _ => rfl) rfl]
    exact h.removed
  · rw [hsame.2.2, huptime, timeSince, hended]
    exact h.uptime

theorem Agrees.onConnect (h : c.Agrees) (now : Int) (identity : ClientIdentity) (peerIp : Option (List Byte)) :
    (c.onConnect now identity peerIp).1.Agrees := by
  have hledger : (c.onConnect now identity peerIp).1.ledger = c.ledger.hello now identity.clientUid identity.mode := by
    rw [ledger, (onConnect_history c now identity peerIp).2.1]
    rfl
  refine ⟨hledger ▸ h.sessions.onConnect now identity peerIp, hledger ▸ h.totals.onConnect now identity peerIp, ?_⟩
  have hlabel := copyBoundedString_copyBoundedString clientLabelMax (some identity.label)
  have hpeerIp := copyBoundedString_copyBoundedString peerIpMaxLen peerIp
  rw [KnownClient.onConnect]
  split
  · exact ⟨hlabel, hpeerIp⟩
  · split
    · exact ⟨hlabel, hpeerIp⟩
    · exact ⟨hlabel, hpeerIp⟩

/-- The session part of a report leaves the machine, its history and its texts. -/
theorem countStats_frame (c : KnownClient) (clientUid : List Byte) (stats : ControlStats) :
    (c.countStats clientUid stats).machineUid = c.machineUid ∧ (c.countStats clientUid stats).history = c.history ∧
      (c.countStats clientUid stats).label = c.label ∧ (c.countStats clientUid stats).peerIp = c.peerIp := by
  rw [countStats]
  split
  · exact ⟨rfl, rfl, rfl, rfl⟩
  · exact ⟨rfl, rfl, rfl, rfl⟩

/-- The session part of a report. -/
theorem countStats_agrees (h : c.Agrees) (clientUid : List Byte) (stats : ControlStats) :
    let l := c.ledger
    let l' := { l with active := onSession clientUid (.report stats.prunerChecked stats.prunerRemoved) l.active }
    (c.countStats clientUid stats).SessionsAgree l' ∧ (c.countStats clientUid stats).TotalsAgree l' := by
  intro l l'
  rw [countStats]
  split
  case h_1 hnone =>
    have hsame : l' = l := by
      show { l with active := onSession clientUid _ l.active } = l
      rw [onSession_eq_self (h.sessions.closed_of_not_found hnone)]
    rw [hsame]
    exact ⟨h.sessions, h.totals⟩
  case h_2 sidx s hfound =>
    let f (t : KnownSession) : KnownSession :=
      { t with
        lastPrunerChecked := highest t.lastPrunerChecked stats.prunerChecked
        lastPrunerRemoved := highest t.lastPrunerRemoved stats.prunerRemoved }
    have hfg (t : SessionLedger) :
        (t.report stats.prunerChecked stats.prunerRemoved).session = f t.session := rfl
    have hchecked := h.sessions.grown_update hfound (f := f) hfg rfl rfl
      (·.checked) (·.lastPrunerChecked) fun _ => rfl
    have hremoved := h.sessions.grown_update hfound (f := f) hfg rfl rfl
      (·.removed) (·.lastPrunerRemoved) fun _ => rfl
    refine ⟨?_, h.totals.connections, total_of_growth h.totals.checked hchecked,
      total_of_growth h.totals.removed hremoved, h.totals.uptime⟩
    have hupdate := h.sessions.update hfound (f := f) hfg rfl rfl
    have hsession : ({ s with
        lastPrunerChecked := (countGrowth c.totalPrunerChecked s.lastPrunerChecked stats.prunerChecked).2
        lastPrunerRemoved := (countGrowth c.totalPrunerRemoved s.lastPrunerRemoved stats.prunerRemoved).2 } :
          KnownSession) = f s := by
      rw [(countGrowth_eq ..).1, (countGrowth_eq ..).1]
    refine hupdate.congr ?_ rfl rfl rfl rfl
    exact congrArg (fun t => c.sessions.set sidx (some t)) hsession

theorem Agrees.onStats (h : c.Agrees) (now : Int) (clientUid : List Byte) (stats : ControlStats) :
    (c.onStats now clientUid stats).Agrees := by
  obtain ⟨hsessions, htotals⟩ := countStats_agrees h clientUid stats
  obtain ⟨-, hhistory, hlabel, hpeerIp⟩ := countStats_frame c clientUid stats
  have hnext : (c.onStats now clientUid stats).history =
      .stats clientUid stats.prunerChecked stats.prunerRemoved :: c.history := congrArg (_ :: ·) hhistory
  have hledger : (c.onStats now clientUid stats).ledger =
      { c.ledger with
        active := onSession clientUid (.report stats.prunerChecked stats.prunerRemoved) c.ledger.active } := by
    rw [ledger, hnext]
    rfl
  refine ⟨?_, ?_, ?_⟩
  · rw [hledger]
    exact hsessions.congr rfl rfl rfl rfl rfl
  · rw [hledger]
    exact ⟨htotals.connections, htotals.checked, htotals.removed, htotals.uptime⟩
  · have htexts : (c.countStats clientUid stats).TextsFit :=
      ⟨hlabel ▸ h.texts.label, hpeerIp ▸ h.texts.peerIp⟩
    exact ⟨htexts.label, htexts.peerIp⟩

/-- The session part of the end of a session leaves the machine, its history and its texts. -/
theorem closeSession_frame (c : KnownClient) (now : Int) (clientUid : List Byte) :
    (c.closeSession now clientUid).machineUid = c.machineUid ∧ (c.closeSession now clientUid).history = c.history ∧
      (c.closeSession now clientUid).label = c.label ∧ (c.closeSession now clientUid).peerIp = c.peerIp := by
  rw [closeSession]
  split
  · exact ⟨rfl, rfl, rfl, rfl⟩
  · exact ⟨rfl, rfl, rfl, rfl⟩

/-- The session part of the end of a session. -/
theorem closeSession_agrees (h : c.Agrees) (now : Int) (clientUid : List Byte) :
    (c.closeSession now clientUid).SessionsAgree (c.ledger.bye now clientUid) ∧
      (c.closeSession now clientUid).TotalsAgree (c.ledger.bye now clientUid) := by
  rw [closeSession]
  split
  case h_1 hnone =>
    rw [bye_eq_self (h.sessions.closed_of_not_found hnone)]
    exact ⟨h.sessions, h.totals⟩
  case h_2 sidx s hfound =>
    refine ⟨(h.sessions.remove hfound now).congr rfl rfl rfl rfl rfl, h.totals.connections, ?_, ?_, ?_⟩
    · rw [grown_bye]
      exact h.totals.checked
    · rw [grown_bye]
      exact h.totals.removed
    · rw [h.sessions.timeSince_bye hfound now]
      have huptime := h.totals.uptime
      show (if now - s.connectTime > 0 then _ else c.cumulativeUptimeSeconds).toNat =
        (c.ledger.loadedUptime + _) % 2 ^ 64
      split
      case isTrue hpos =>
        rw [UInt64.toNat_add, UInt64.toNat_ofNat', huptime]
        omega
      case isFalse hneg =>
        have hzero : (now - s.connectTime).toNat = 0 := Int.toNat_eq_zero.mpr (not_lt.mp hneg)
        rw [hzero, Nat.zero_add]
        exact huptime

theorem Agrees.onDisconnect (h : c.Agrees) (now : Int) (clientUid : List Byte) :
    (c.onDisconnect now clientUid).Agrees := by
  obtain ⟨hsessions, htotals⟩ := closeSession_agrees h now clientUid
  obtain ⟨-, hhistory, hlabel, hpeerIp⟩ := closeSession_frame c now clientUid
  have hnext : (c.onDisconnect now clientUid).history = .bye now clientUid :: c.history := congrArg (_ :: ·) hhistory
  have hledger : (c.onDisconnect now clientUid).ledger = c.ledger.bye now clientUid := by
    rw [ledger, hnext]
    rfl
  refine ⟨?_, ?_, ?_⟩
  · rw [hledger]
    exact hsessions.congr rfl rfl rfl rfl rfl
  · rw [hledger]
    exact ⟨htotals.connections, htotals.checked, htotals.removed, htotals.uptime⟩
  · have htexts : (c.closeSession now clientUid).TextsFit :=
      ⟨hlabel ▸ h.texts.label, hpeerIp ▸ h.texts.peerIp⟩
    exact ⟨htexts.label, htexts.peerIp⟩

/-- A record adds its totals to those of an entry. -/
theorem Agrees.merge (h : c.Agrees) (rec : KnownClientRecord) : (rec.merge c).Agrees := by
  refine ⟨h.sessions.congr rfl rfl rfl rfl rfl, ⟨?_, ?_, ?_, ?_⟩, h.texts.label, h.texts.peerIp⟩
  · show (c.nbConnectionsTotal + rec.nbConnectionsTotal.toInt32).toUInt32.toNat =
      (c.ledger.connections + rec.nbConnectionsTotal.toNat) % 2 ^ 32
    rw [Int32.toUInt32_add, UInt32.toNat_add, UInt32.toUInt32_toInt32, h.totals.connections]
    omega
  · show (c.totalPrunerChecked + rec.totalPrunerChecked).toNat =
      (c.ledger.loadedChecked + rec.totalPrunerChecked.toNat + c.ledger.grown (·.checked)) % 2 ^ 64
    rw [UInt64.toNat_add, h.totals.checked]
    omega
  · show (c.totalPrunerRemoved + rec.totalPrunerRemoved).toNat =
      (c.ledger.loadedRemoved + rec.totalPrunerRemoved.toNat + c.ledger.grown (·.removed)) % 2 ^ 64
    rw [UInt64.toNat_add, h.totals.removed]
    omega
  · show (c.cumulativeUptimeSeconds + rec.cumulativeUptimeSeconds).toNat =
      (c.ledger.loadedUptime + rec.cumulativeUptimeSeconds.toNat + c.ledger.timeSince (·.refreshed)) % 2 ^ 64
    rw [UInt64.toNat_add, h.totals.uptime]
    omega

/-- An entry without an event. -/
theorem agrees_blank (machineUid : List Byte) (now : Int) :
    ({ blank machineUid with firstSeen := now } : KnownClient).Agrees := by
  refine ⟨⟨rfl, ?_, ?_, ?_, ?_, ?_⟩, ⟨rfl, rfl, rfl, rfl⟩, rfl, rfl⟩
  · exact List.Perm.refl []
  · exact List.nodup_nil
  · rfl
  · rfl
  · rfl

/-- The entry of a record. -/
theorem agrees_newEntry (rec : KnownClientRecord) : rec.newEntry.Agrees := by
  refine ⟨(agrees_blank rec.machineUid 0).sessions.congr rfl rfl rfl rfl rfl, ⟨?_, ?_, ?_, ?_⟩,
    copyBoundedString_copyBoundedString .., copyBoundedString_copyBoundedString ..⟩
  · show rec.nbConnectionsTotal.toInt32.toUInt32.toNat = (0 + rec.nbConnectionsTotal.toNat) % 2 ^ 32
    have hlt := rec.nbConnectionsTotal.toNat_lt
    rw [UInt32.toUInt32_toInt32]
    omega
  · show rec.totalPrunerChecked.toNat = (0 + rec.totalPrunerChecked.toNat + 0) % 2 ^ 64
    have hlt := rec.totalPrunerChecked.toNat_lt
    omega
  · show rec.totalPrunerRemoved.toNat = (0 + rec.totalPrunerRemoved.toNat + 0) % 2 ^ 64
    have hlt := rec.totalPrunerRemoved.toNat_lt
    omega
  · show rec.cumulativeUptimeSeconds.toNat = (0 + rec.cumulativeUptimeSeconds.toNat + 0) % 2 ^ 64
    have hlt := rec.cumulativeUptimeSeconds.toNat_lt
    omega

end KnownClient
