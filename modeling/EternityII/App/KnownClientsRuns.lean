-- SUMMARY: Every run of the registry of known machines: its counters, evictions, file and mutations.
import EternityII.App.KnownClientsLedger

/-!
# Runs of the registry of known clients

Every call writes to the entry of one machine, or of one machine after the other: it changes an entry that is
there, or puts a new one into a free slot or the slot of a machine without a session. So the entries agree with
their ledgers and a machine with a session keeps its entry. A call that writes is counted, except for one: a
machine with eight sessions that says hello for a ninth one is written to and not counted.
-/

open KnownClient

namespace KnownClients

variable {g g' : KnownClients} {machineUid : List Byte} {fresh c : KnownClient} {f : KnownClient → KnownClient}
  {idx : Nat}

/-! ## Slots -/

/-- The entry that is found stands in its slot. -/
theorem findMachine_eq_some (h : g.findMachine machineUid = some (idx, c)) :
    c.machineUid = machineUid ∧ ∃ before after, g.entries = before ++ c :: after ∧
      ∀ c' : KnownClient, (g.put idx c').entries = before ++ c' :: after := by
  obtain ⟨hslot, huid⟩ := SlotTable.findSlot_eq_some h
  obtain ⟨before, after, hentries, hset⟩ := SlotTable.reduceOption_set hslot
  exact ⟨of_decide_eq_true huid, before, after, hentries, fun c' => hset (some c')⟩

theorem findMachine_eq_none_iff : g.findMachine machineUid = none ↔ ∀ c ∈ g.entries, c.machineUid ≠ machineUid := by
  rw [findMachine, SlotTable.findSlot_eq_none_iff]
  exact forall₂_congr fun c _ => decide_eq_false_iff_not

/-- A victim has no session. -/
theorem oldestDisconnected_eq {i j : Nat} {oldest : Int} {victim : Option (Nat × Int)} {t : List (Option KnownClient)}
    (h : oldestDisconnected i victim t = some (j, oldest)) :
    victim = some (j, oldest) ∨ ∃ k c, t[k]? = some (some c) ∧ j = i + k ∧ c.nbActiveSessions = 0 := by
  induction t generalizing i victim with
  | nil => exact .inl h
  | cons slot t ih =>
    have hrest {victim : Option (Nat × Int)} (h : oldestDisconnected (i + 1) victim t = some (j, oldest)) :
        victim = some (j, oldest) ∨ ∃ k c, (slot :: t)[k]? = some (some c) ∧ j = i + k ∧ c.nbActiveSessions = 0 := by
      rcases ih h with hvictim | ⟨k, c, hk, hj, hc⟩
      · exact .inl hvictim
      · refine .inr ⟨k + 1, c, ?_, ?_, hc⟩
        · rw [List.getElem?_cons_succ]
          exact hk
        · omega
    cases slot with
    | none => exact hrest h
    | some c =>
      rw [oldestDisconnected] at h
      split at h
      case isTrue hc =>
        rcases hrest h with hvictim | hlater
        · cases hvictim
          exact .inr ⟨0, c, rfl, rfl, hc.1⟩
        · exact .inr hlater
      case isFalse => exact hrest h

/-- The slot of a new machine is free, or the slot of a machine without a session. -/
theorem allocateMachineSlot_eq_some (h : g.allocateMachineSlot = some idx) :
    ∃ before old after, g.entries = before ++ (old.toList ++ after) ∧
      (∀ c : KnownClient, old = some c → c.nbActiveSessions = 0) ∧
      ∀ c' : KnownClient, (g.put idx c').entries = before ++ c' :: after := by
  obtain ⟨old, hslot, hold⟩ : ∃ old, g.clients[idx]? = some old ∧
      ∀ c : KnownClient, old = some c → c.nbActiveSessions = 0 := by
    rw [allocateMachineSlot] at h
    split at h
    case h_1 i hfree =>
      cases h
      exact ⟨none, SlotTable.freeSlot_eq_some hfree, fun _ hc => by cases hc⟩
    case h_2 =>
      obtain ⟨⟨j, oldest⟩, hvictim, rfl⟩ := Option.map_eq_some_iff.mp h
      rcases oldestDisconnected_eq hvictim with hnone | ⟨k, c, hk, hj, hc⟩
      · cases hnone
      · refine ⟨some c, ?_, fun c' hc' => ?_⟩
        · show g.clients[j]? = some (some c)
          rw [hj, Nat.zero_add]
          exact hk
        · cases hc'
          exact hc
  obtain ⟨before, after, hentries, hset⟩ := SlotTable.reduceOption_set hslot
  exact ⟨before, old, after, hentries, hold, fun c' => hset (some c')⟩

/-! ## What a call writes -/

/-- What an event of a machine leaves: its entry is changed, or there was none and a new entry has taken a slot
that no session needs, or nothing happened. -/
inductive Settled (g g' : KnownClients) (machineUid : List Byte) (fresh : KnownClient)
    (f : KnownClient → KnownClient) : Prop
  | changed (before after : List KnownClient) (c : KnownClient) (hc : c.machineUid = machineUid)
      (hold : g.entries = before ++ c :: after) (hnew : g'.entries = before ++ f c :: after)
  | added (before after : List KnownClient) (old : Option KnownClient)
      (hunknown : ∀ c ∈ g.entries, c.machineUid ≠ machineUid)
      (hvictim : ∀ c : KnownClient, old = some c → c.nbActiveSessions = 0)
      (hold : g.entries = before ++ (old.toList ++ after)) (hnew : g'.entries = before ++ fresh :: after)
  | ignored (hsame : g'.entries = g.entries)

/-- The entries fill at most the slots there are, belong to distinct machines and agree with their ledgers. -/
structure Inv (g : KnownClients) : Prop where
  slots : g.clients.length = maxKnownClients
  distinct : (g.entries.map (·.machineUid)).Nodup
  agrees : ∀ c ∈ g.entries, c.Agrees

theorem inv_settled (h : g.Inv) (hset : Settled g g' machineUid fresh f) (hslots : g'.clients.length = g.clients.length)
    (hf : ∀ c : KnownClient, c.Agrees → (f c).machineUid = c.machineUid ∧ (f c).Agrees)
    (hfresh : fresh.machineUid = machineUid ∧ fresh.Agrees) : g'.Inv := by
  have hdistinct := h.distinct
  have hagrees := h.agrees
  cases hset with
  | changed before after c hc hold hnew =>
    rw [hold] at hdistinct hagrees
    rw [List.forall_mem_append, List.forall_mem_cons] at hagrees
    obtain ⟨hbefore, hc', hafter⟩ := hagrees
    obtain ⟨huid, hfc⟩ := hf c hc'
    refine ⟨hslots.trans h.slots, ?_, ?_⟩
    · rw [hnew, List.map_append, List.map_cons, huid, ← List.map_cons, ← List.map_append]
      exact hdistinct
    · rw [hnew, List.forall_mem_append, List.forall_mem_cons]
      exact ⟨hbefore, hfc, hafter⟩
  | added before after old hunknown hvictim hold hnew =>
    rw [hold] at hdistinct hagrees hunknown
    have hsub : (before ++ after).Sublist (before ++ (old.toList ++ after)) :=
      (List.sublist_append_right ..).append_left before
    refine ⟨hslots.trans h.slots, ?_, ?_⟩
    · rw [hnew]
      have hfirst : ((before ++ fresh :: after).map (·.machineUid)).Perm
          (machineUid :: (before ++ after).map (·.machineUid)) := by
        rw [← hfresh.1]
        exact List.perm_middle.map _
      refine hfirst.nodup_iff.mpr (List.nodup_cons.mpr ⟨fun hmem => ?_, hdistinct.sublist (hsub.map _)⟩)
      obtain ⟨c, hc, huid⟩ := List.mem_map.mp hmem
      exact hunknown c (hsub.subset hc) huid
    · rw [List.forall_mem_append, List.forall_mem_append] at hagrees
      rw [hnew, List.forall_mem_append, List.forall_mem_cons]
      exact ⟨hagrees.1, hfresh.2, hagrees.2.2⟩
  | ignored hsame =>
    refine ⟨hslots.trans h.slots, ?_, ?_⟩
    · rw [hsame]
      exact hdistinct
    · rw [hsame]
      exact hagrees

/-- A machine with a session keeps its entry, as it is or changed by the event. -/
theorem mem_settled (hset : Settled g g' machineUid fresh f) (hc : c ∈ g.entries) (hactive : c.nbActiveSessions ≠ 0) :
    c ∈ g'.entries ∨ f c ∈ g'.entries := by
  cases hset with
  | changed before after d hd hold hnew =>
    rw [hold] at hc
    rw [hnew]
    grind
  | added before after old hunknown hvictim hold hnew =>
    rw [hold] at hc
    rw [hnew]
    left
    rcases List.mem_append.mp hc with hmem | hmem
    · exact List.mem_append_left _ hmem
    · rcases List.mem_append.mp hmem with hmem | hmem
      · exact absurd (hvictim c (Option.mem_toList.mp hmem)) hactive
      · exact List.mem_append_right _ (List.mem_cons_of_mem _ hmem)
  | ignored hsame => exact .inl (hsame ▸ hc)

theorem entries_connectEntry (g : KnownClients) (now : Int) (identity : ClientIdentity)
    (peerIp : Option (List Byte)) (idx : Nat) (c : KnownClient) :
    (g.connectEntry now identity peerIp idx c).clients = (g.put idx (c.onConnect now identity peerIp).1).clients := by
  rw [connectEntry]
  split
  rename_i c' tracked heq
  rw [heq]
  cases tracked
  · rfl
  · rfl

/-- The entry of a machine that says hello for the first time. -/
def helloEntry (now : Int) (identity : ClientIdentity) (peerIp : Option (List Byte)) : KnownClient :=
  (({ blank identity.machineUid with firstSeen := now } : KnownClient).onConnect now identity peerIp).1

theorem onConnect_settled (g : KnownClients) (now : Int) (identity : ClientIdentity) (peerIp : Option (List Byte)) :
    Settled g (g.onConnect now identity peerIp) identity.machineUid (helloEntry now identity peerIp)
      (fun c => (c.onConnect now identity peerIp).1) := by
  rw [KnownClients.onConnect]
  split
  case h_1 idx c hfound =>
    obtain ⟨huid, before, after, hold, hput⟩ := findMachine_eq_some hfound
    refine .changed before after c huid hold ?_
    rw [entries, entries_connectEntry]
    exact hput _
  case h_2 hnone =>
    have hunknown := findMachine_eq_none_iff.mp hnone
    split
    case h_1 => exact .ignored rfl
    case h_2 idx hslot =>
      obtain ⟨before, old, after, hold, hvictim, hput⟩ := allocateMachineSlot_eq_some hslot
      refine .added before after old hunknown hvictim hold ?_
      rw [entries, entries_connectEntry]
      exact hput _

theorem onStats_settled (g : KnownClients) (now : Int) (machineUid clientUid : List Byte) (stats : ControlStats)
    (fresh : KnownClient) :
    Settled g (g.onStats now machineUid clientUid stats) machineUid fresh (·.onStats now clientUid stats) := by
  rw [KnownClients.onStats]
  split
  case h_1 => exact .ignored rfl
  case h_2 idx c hfound =>
    obtain ⟨huid, before, after, hold, hput⟩ := findMachine_eq_some hfound
    exact .changed before after c huid hold (hput _)

theorem onDisconnect_settled (g : KnownClients) (now : Int) (machineUid clientUid : List Byte) (fresh : KnownClient) :
    Settled g (g.onDisconnect now machineUid clientUid) machineUid fresh (·.onDisconnect now clientUid) := by
  rw [KnownClients.onDisconnect]
  split
  case h_1 => exact .ignored rfl
  case h_2 idx c hfound =>
    obtain ⟨huid, before, after, hold, hput⟩ := findMachine_eq_some hfound
    exact .changed before after c huid hold (hput _)

theorem applyPersistedRecord_settled (g : KnownClients) (rec : KnownClientRecord) :
    Settled g (g.applyPersistedRecord rec) rec.machineUid rec.newEntry rec.merge := by
  rw [applyPersistedRecord]
  split
  case h_1 idx c hfound =>
    obtain ⟨huid, before, after, hold, hput⟩ := findMachine_eq_some hfound
    exact .changed before after c huid hold (hput _)
  case h_2 hnone =>
    have hunknown := findMachine_eq_none_iff.mp hnone
    split
    case h_1 => exact .ignored rfl
    case h_2 idx hslot =>
      obtain ⟨before, old, after, hold, hvictim, hput⟩ := allocateMachineSlot_eq_some hslot
      exact .added before after old hunknown hvictim hold (hput _)

/-! ## Calls and runs -/

theorem inv_onConnect (h : g.Inv) (now : Int) (identity : ClientIdentity) (peerIp : Option (List Byte)) :
    (g.onConnect now identity peerIp).Inv := by
  have hblank := agrees_blank identity.machineUid now
  refine inv_settled h (onConnect_settled g now identity peerIp) ?_
    (fun c hc => ⟨(onConnect_history c now identity peerIp).1, hc.onConnect now identity peerIp⟩)
    ⟨(onConnect_history ..).1, hblank.onConnect now identity peerIp⟩
  rw [KnownClients.onConnect]
  split
  · rw [entries_connectEntry]
    exact List.length_set ..
  · split
    · rfl
    · rw [entries_connectEntry]
      exact List.length_set ..

theorem inv_onStats (h : g.Inv) (now : Int) (machineUid clientUid : List Byte) (stats : ControlStats) :
    (g.onStats now machineUid clientUid stats).Inv := by
  refine inv_settled h (onStats_settled g now machineUid clientUid stats (blank machineUid)) ?_
    (fun c hc => ⟨?_, hc.onStats now clientUid stats⟩) ⟨rfl, agrees_blank machineUid 0⟩
  · rw [KnownClients.onStats]
    split
    · rfl
    · exact List.length_set ..
  · exact (countStats_frame c clientUid stats).1

theorem inv_onDisconnect (h : g.Inv) (now : Int) (machineUid clientUid : List Byte) :
    (g.onDisconnect now machineUid clientUid).Inv := by
  refine inv_settled h (onDisconnect_settled g now machineUid clientUid (blank machineUid)) ?_
    (fun c hc => ⟨?_, hc.onDisconnect now clientUid⟩) ⟨rfl, agrees_blank machineUid 0⟩
  · rw [KnownClients.onDisconnect]
    split
    · rfl
    · exact List.length_set ..
  · exact (closeSession_frame c now clientUid).1

theorem inv_applyPersistedRecord (h : g.Inv) (rec : KnownClientRecord) : (g.applyPersistedRecord rec).Inv := by
  refine inv_settled h (applyPersistedRecord_settled g rec) ?_ (fun c hc => ⟨rfl, hc.merge rec⟩)
    ⟨rfl, agrees_newEntry rec⟩
  rw [applyPersistedRecord]
  split
  · exact List.length_set ..
  · split
    · rfl
    · exact List.length_set ..

theorem inv_records (h : g.Inv) (records : List KnownClientRecord) : (records.foldl applyPersistedRecord g).Inv := by
  induction records generalizing g with
  | nil => exact h
  | cons rec records ih => exact ih (inv_applyPersistedRecord h rec)

/-- What a load does, if anything: the records it reads, one after the other. -/
theorem load_eq (g : KnownClients) (file : Option KnownClientsFile) :
    ∃ records : List KnownClientRecord, (g.load file).2 = records.foldl applyPersistedRecord g := by
  cases file with
  | none => exact ⟨[], rfl⟩
  | some file =>
    rw [load]
    split
    · exact ⟨[], rfl⟩
    · exact ⟨_, rfl⟩

theorem inv_step (h : g.Inv) (call : Call) : (g.step call).Inv := by
  cases call with
  | connect now identity peerIp => exact inv_onConnect h now identity peerIp
  | stats now machineUid clientUid stats => exact inv_onStats h now machineUid clientUid stats
  | disconnect now machineUid clientUid => exact inv_onDisconnect h now machineUid clientUid
  | load file =>
    obtain ⟨records, hload⟩ := load_eq g file
    show (g.load file).2.Inv
    rw [hload]
    exact inv_records h records

theorem inv_empty : empty.Inv := by
  have hnone : empty.entries = [] := List.reduceOption_replicate_none
  refine ⟨List.length_replicate, ?_, ?_⟩
  · rw [hnone]
    exact List.nodup_nil
  · rw [hnone]
    exact fun c hc => absurd hc List.not_mem_nil

theorem run_append (calls : List Call) (call : Call) : run (calls ++ [call]) = (run calls).step call := by
  rw [run, List.foldl_append]
  rfl

/-- The entries of every run agree with their ledgers. -/
theorem inv_run (calls : List Call) : (run calls).Inv := by
  induction calls using List.reverseRecOn with
  | nil => exact inv_empty
  | append_singleton calls call ih =>
    rw [run_append]
    exact inv_step ih call

/-! ## Eviction -/

/-- The entry of a machine is still there: what it was told before, it was told. -/
def KeepsEntry (g : KnownClients) (c : KnownClient) : Prop :=
  ∃ c' ∈ g.entries, c'.machineUid = c.machineUid ∧ c.history <:+ c'.history

theorem keepsEntry_of_settled (hset : Settled g g' machineUid fresh f) (hc : c ∈ g.entries)
    (hactive : c.nbActiveSessions ≠ 0) {event : ClientEvent}
    (hf : (f c).machineUid = c.machineUid ∧ (f c).history = event :: c.history) : g'.KeepsEntry c := by
  rcases mem_settled hset hc hactive with hmem | hmem
  · exact ⟨c, hmem, rfl, List.suffix_refl _⟩
  · exact ⟨f c, hmem, hf.1, hf.2 ▸ List.suffix_cons event c.history⟩

/-- Records keep the sessions of an entry. -/
theorem keepsEntry_records (records : List KnownClientRecord) {c₀ : KnownClient} (hc : c ∈ g.entries)
    (hactive : c.nbActiveSessions ≠ 0) (huid : c.machineUid = c₀.machineUid) (hhistory : c₀.history <:+ c.history) :
    (records.foldl applyPersistedRecord g).KeepsEntry c₀ := by
  induction records generalizing g c with
  | nil => exact ⟨c, hc, huid, hhistory⟩
  | cons rec records ih =>
    rcases mem_settled (applyPersistedRecord_settled g rec) hc hactive with hmem | hmem
    · exact ih hmem hactive huid hhistory
    · exact ih hmem hactive huid (hhistory.trans (List.suffix_cons rec.event c.history))

theorem keepsEntry_step (hc : c ∈ g.entries) (hactive : c.nbActiveSessions ≠ 0) (call : Call) :
    (g.step call).KeepsEntry c := by
  cases call with
  | connect now identity peerIp =>
    obtain ⟨huid, hhistory, -⟩ := onConnect_history c now identity peerIp
    exact keepsEntry_of_settled (onConnect_settled g now identity peerIp) hc hactive ⟨huid, hhistory⟩
  | stats now machineUid clientUid stats =>
    obtain ⟨huid, hhistory, -⟩ := countStats_frame c clientUid stats
    exact keepsEntry_of_settled (onStats_settled g now machineUid clientUid stats c) hc hactive
      ⟨huid, congrArg (ClientEvent.stats clientUid stats.prunerChecked stats.prunerRemoved :: ·) hhistory⟩
  | disconnect now machineUid clientUid =>
    obtain ⟨huid, hhistory, -⟩ := closeSession_frame c now clientUid
    exact keepsEntry_of_settled (onDisconnect_settled g now machineUid clientUid c) hc hactive
      ⟨huid, congrArg (ClientEvent.bye now clientUid :: ·) hhistory⟩
  | load file =>
    obtain ⟨records, hload⟩ := load_eq g file
    show (g.load file).2.KeepsEntry c
    rw [hload]
    exact keepsEntry_records records hc hactive rfl (List.suffix_refl _)

/-! ## Mutations -/

/-- A hello, a report or the end of a session that changes what a save would write is counted. -/
def CountsChange (g : KnownClients) : Call → Prop
  | .load _ => True
  | call => (g.step call).save ≠ g.save → (g.step call).mutationCount = g.mutationCount + 1

/-- A hello of a known machine, which has all its sessions in use, and none of them is the session of the hello. -/
def Untracked (g : KnownClients) : Call → Prop
  | .connect _ identity _ =>
    ∃ c ∈ g.entries, c.machineUid = identity.machineUid ∧ c.used.length = knownClientMaxSessions ∧
      ∀ s ∈ c.used, s.clientUid ≠ identity.clientUid
  | _ => False

/-- A hello does not get past the table when it is full of other sessions. -/
theorem onConnect_untracked_iff (hslots : c.sessions.length = knownClientMaxSessions) (now : Int)
    (identity : ClientIdentity) (peerIp : Option (List Byte)) :
    (c.onConnect now identity peerIp).2 = false ↔
      c.used.length = knownClientMaxSessions ∧ ∀ s ∈ c.used, s.clientUid ≠ identity.clientUid := by
  rw [KnownClient.onConnect]
  split
  case h_1 sidx s hfound =>
    have hs : s ∈ c.used := mem_used_of_findSession hfound
    exact ⟨fun h => Bool.noConfusion h, fun h => absurd (findSession_eq_some hfound).1 (h.2 s hs)⟩
  case h_2 hnone =>
    have hnew : ∀ s ∈ c.used, s.clientUid ≠ identity.clientUid := findSession_eq_none_iff.mp hnone
    split
    case h_1 hfull =>
      have hall : c.used.length = c.sessions.length := SlotTable.freeSlot_eq_none_iff.mp hfull
      exact ⟨fun _ => ⟨hall.trans hslots, hnew⟩, fun _ => rfl⟩
    case h_2 sidx hfree =>
      refine ⟨fun h => Bool.noConfusion h, fun h => ?_⟩
      have hfull : SlotTable.freeSlot c.sessions = none :=
        SlotTable.freeSlot_eq_none_iff.mpr (h.1.trans hslots.symm)
      cases hfull.symm.trans hfree

theorem mutationCount_connectEntry (g : KnownClients) (now : Int) (identity : ClientIdentity)
    (peerIp : Option (List Byte)) (idx : Nat) (c : KnownClient) :
    (g.connectEntry now identity peerIp idx c).mutationCount =
      if (c.onConnect now identity peerIp).2 = true then g.mutationCount + 1 else g.mutationCount := by
  rw [connectEntry]
  split
  rename_i c' tracked heq
  rw [heq]
  cases tracked
  · rfl
  · rfl

/-- Every hello changes what a save would write of the machine. -/
theorem fillRecord_onConnect_ne (c : KnownClient) (now : Int) (identity : ClientIdentity)
    (peerIp : Option (List Byte)) : (c.onConnect now identity peerIp).1.fillRecord ≠ c.fillRecord := by
  intro heq
  have hcount : (c.onConnect now identity peerIp).1.nbConnectionsTotal.toUInt32 = c.nbConnectionsTotal.toUInt32 :=
    congrArg KnownClientRecord.nbConnectionsTotal heq
  rw [(onConnect_history c now identity peerIp).2.2] at hcount
  have hnext := toNat_toUInt32_succ c.nbConnectionsTotal
  have hlt := c.nbConnectionsTotal.toUInt32.toNat_lt
  rw [hcount] at hnext
  omega

theorem save_connectEntry_ne (hfound : g.findMachine machineUid = some (idx, c)) (now : Int)
    (identity : ClientIdentity) (peerIp : Option (List Byte)) :
    (g.connectEntry now identity peerIp idx c).save ≠ g.save := by
  obtain ⟨-, before, after, hold, hput⟩ := findMachine_eq_some hfound
  have hentries : (g.connectEntry now identity peerIp idx c).entries =
      before ++ (c.onConnect now identity peerIp).1 :: after := by
    rw [entries, entries_connectEntry]
    exact hput _
  intro heq
  have hrecords := congrArg KnownClientsFile.records heq
  simp only [save, hentries, hold, List.map_append, List.map_cons] at hrecords
  exact fillRecord_onConnect_ne c now identity peerIp (List.cons.inj (List.append_cancel_left hrecords)).1

theorem ne_succ (n : UInt64) : n ≠ n + 1 := by
  intro heq
  have hnat := congrArg UInt64.toNat heq
  have hone : (1 : UInt64).toNat = 1 := rfl
  have hlt := n.toNat_lt
  rw [UInt64.toNat_add, hone] at hnat
  omega

/-- The hello of a known machine is untracked when it does not get past the table of sessions. -/
theorem untracked_iff (h : g.Inv) {now : Int} {identity : ClientIdentity} {peerIp : Option (List Byte)}
    (hfound : g.findMachine identity.machineUid = some (idx, c)) :
    Untracked g (.connect now identity peerIp) ↔ (c.onConnect now identity peerIp).2 = false := by
  obtain ⟨huid, before, after, hold, -⟩ := findMachine_eq_some hfound
  have hc : c ∈ g.entries := hold ▸ List.mem_append_right _ (List.mem_cons_self ..)
  rw [onConnect_untracked_iff (h.agrees c hc).sessions.slots]
  constructor
  · rintro ⟨d, hd, hduid, hfull⟩
    cases List.inj_on_of_nodup_map h.distinct hd hc (hduid.trans huid.symm)
    exact hfull
  · exact fun hfull => ⟨c, hc, huid, hfull⟩

/-- A hello is counted when it changes what a save would write, unless it is for a session that gets no slot. -/
theorem countsChange_connect_iff (h : g.Inv) (now : Int) (identity : ClientIdentity) (peerIp : Option (List Byte)) :
    CountsChange g (.connect now identity peerIp) ↔ ¬ Untracked g (.connect now identity peerIp) := by
  show ((g.onConnect now identity peerIp).save ≠ g.save →
    (g.onConnect now identity peerIp).mutationCount = g.mutationCount + 1) ↔ _
  rw [KnownClients.onConnect]
  split
  case h_1 idx c hfound =>
    have hsave := save_connectEntry_ne hfound now identity peerIp
    rw [untracked_iff h hfound, mutationCount_connectEntry]
    cases htracked : (c.onConnect now identity peerIp).2
    · exact ⟨fun hcounts => absurd (hcounts hsave) (ne_succ g.mutationCount), fun hnot => absurd rfl hnot⟩
    · exact ⟨fun _ => nofun, fun _ _ => rfl⟩
  case h_2 hnone =>
    have hunknown := findMachine_eq_none_iff.mp hnone
    have htracked : ¬ Untracked g (.connect now identity peerIp) := fun ⟨c, hc, huid, _⟩ => hunknown c hc huid
    refine iff_of_true ?_ htracked
    split
    case h_1 => exact fun hchange => absurd rfl hchange
    case h_2 idx hslot =>
      intro _
      rw [mutationCount_connectEntry]
      exact if_pos rfl

theorem countsChange_iff (h : g.Inv) (call : Call) : CountsChange g call ↔ ¬ Untracked g call := by
  cases call with
  | connect now identity peerIp => exact countsChange_connect_iff h now identity peerIp
  | stats now machineUid clientUid stats =>
    refine iff_of_true ?_ id
    show (g.onStats now machineUid clientUid stats).save ≠ g.save →
      (g.onStats now machineUid clientUid stats).mutationCount = _
    rw [KnownClients.onStats]
    split
    · exact fun hchange => absurd rfl hchange
    · exact fun _ => rfl
  | disconnect now machineUid clientUid =>
    refine iff_of_true ?_ id
    show (g.onDisconnect now machineUid clientUid).save ≠ g.save →
      (g.onDisconnect now machineUid clientUid).mutationCount = _
    rw [KnownClients.onDisconnect]
    split
    · exact fun hchange => absurd rfl hchange
    · exact fun _ => rfl
  | load file => exact iff_of_true trivial id

/-! ## The file -/

/-- The fields of an entry that a save writes are those of another one. -/
structure Restored (c c' : KnownClient) : Prop where
  machineUid : c'.machineUid = c.machineUid
  label : c'.label = c.label
  peerIp : c'.peerIp = c.peerIp
  mode : c'.mode = c.mode
  nbConnectionsTotal : c'.nbConnectionsTotal = c.nbConnectionsTotal
  firstSeen : c'.firstSeen = c.firstSeen
  lastSeen : c'.lastSeen = c.lastSeen
  totalPrunerChecked : c'.totalPrunerChecked = c.totalPrunerChecked
  totalPrunerRemoved : c'.totalPrunerRemoved = c.totalPrunerRemoved
  bestMaxResult : c'.bestMaxResult = c.bestMaxResult
  cumulativeUptimeSeconds : c'.cumulativeUptimeSeconds = c.cumulativeUptimeSeconds

theorem restored_newEntry (h : c.TextsFit) : Restored c c.fillRecord.newEntry where
  machineUid := rfl
  label := (copyBoundedString_copyBoundedString clientLabelMax (some c.label)).trans h.label
  peerIp := (copyBoundedString_copyBoundedString peerIpMaxLen (some c.peerIp)).trans h.peerIp
  mode := rfl
  nbConnectionsTotal := Int32.toInt32_toUInt32 c.nbConnectionsTotal
  firstSeen := rfl
  lastSeen := rfl
  totalPrunerChecked := rfl
  totalPrunerRemoved := rfl
  bestMaxResult := rfl
  cumulativeUptimeSeconds := rfl

/-- A registry whose first slots are used. -/
def packed (cs : List KnownClient) (n : Nat) (mutationCount : UInt64) : KnownClients :=
  ⟨cs.map some ++ List.replicate n none, mutationCount⟩

theorem entries_packed (cs : List KnownClient) (n : Nat) (mutationCount : UInt64) :
    (packed cs n mutationCount).entries = cs := SlotTable.reduceOption_append_replicate cs n

/-- A record of a new machine goes to the slot behind the used ones. -/
theorem applyPersistedRecord_packed {cs : List KnownClient} {rec : KnownClientRecord} (n : Nat) (mutationCount : UInt64)
    (hnew : ∀ c ∈ cs, c.machineUid ≠ rec.machineUid) :
    (packed cs (n + 1) mutationCount).applyPersistedRecord rec = packed (cs ++ [rec.newEntry]) n mutationCount := by
  have hunknown : (packed cs (n + 1) mutationCount).findMachine rec.machineUid = none := by
    rw [findMachine_eq_none_iff, entries_packed]
    exact hnew
  have hslot : (packed cs (n + 1) mutationCount).allocateMachineSlot = some cs.length := by
    rw [allocateMachineSlot, packed, SlotTable.freeSlot_append_replicate]
  rw [applyPersistedRecord, hunknown, hslot]
  show KnownClients.mk _ _ = _
  rw [packed, packed, SlotTable.set_append_replicate]

/-- The records of distinct machines fill the slots in their order. -/
theorem foldl_applyPersistedRecord_packed (records : List KnownClientRecord) (cs : List KnownClient) (n : Nat)
    (mutationCount : UInt64) (hroom : records.length ≤ n)
    (hdistinct : (cs.map (·.machineUid) ++ records.map (·.machineUid)).Nodup) :
    (records.foldl applyPersistedRecord (packed cs n mutationCount)).entries = cs ++ records.map (·.newEntry) := by
  induction records generalizing cs n with
  | nil => rw [List.foldl_nil, entries_packed, List.map_nil, List.append_nil]
  | cons rec records ih =>
    obtain ⟨n, rfl⟩ : ∃ m, n = m + 1 := ⟨n - 1, by rw [List.length_cons] at hroom; omega⟩
    rw [List.map_cons, List.nodup_middle, List.nodup_cons, List.mem_append, not_or] at hdistinct
    have hnew : ∀ c ∈ cs, c.machineUid ≠ rec.machineUid := fun c hc heq =>
      hdistinct.1.1 (heq ▸ List.mem_map_of_mem hc)
    have hnext : ((cs ++ [rec.newEntry]).map (·.machineUid) ++ records.map (·.machineUid)).Nodup := by
      rw [List.map_append, List.append_assoc]
      exact List.nodup_middle.mpr (List.nodup_cons.mpr ⟨fun hmem => (List.mem_append.mp hmem).elim hdistinct.1.1
        hdistinct.1.2, hdistinct.2⟩)
    rw [List.foldl_cons, applyPersistedRecord_packed n mutationCount hnew, ih (cs ++ [rec.newEntry]) n
      (Nat.le_of_succ_le_succ hroom) hnext, List.append_assoc]
    rfl

/-- A load into an empty registry gives back what was saved, entry by entry. -/
theorem load_save (h : g.Inv) :
    (empty.load (some g.save)).1 = 0 ∧ List.Forall₂ Restored g.entries (empty.load (some g.save)).2.entries := by
  have hcount : g.entries.length ≤ maxKnownClients := (List.reduceOption_length_le _).trans_eq h.slots
  have hheader : (UInt32.ofNat (g.entries.map fillRecord).length).toNat = (g.entries.map fillRecord).length := by
    rw [UInt32.toNat_ofNat', List.length_map]
    exact Nat.mod_eq_of_lt (hcount.trans_lt (by decide))
  have hload : empty.load (some g.save) = (0, (g.entries.map fillRecord).foldl applyPersistedRecord empty) := by
    rw [load, save]
    simp only [ne_eq, not_true_eq_false, if_false, hheader, List.take_length]
  have hrestored : ((g.entries.map fillRecord).foldl applyPersistedRecord empty).entries =
      (g.entries.map fillRecord).map (·.newEntry) := by
    have hdistinct : ((g.entries.map fillRecord).map (·.machineUid)).Nodup := by
      rw [List.map_map]
      exact h.distinct
    exact foldl_applyPersistedRecord_packed _ [] maxKnownClients 0 (by rw [List.length_map]; exact hcount) hdistinct
  rw [hload]
  refine ⟨rfl, ?_⟩
  rw [hrestored, List.map_map, List.forall₂_map_right_iff]
  exact List.forall₂_same.mpr fun c hc => restored_newEntry (h.agrees c hc).texts

/-! ## What the registry promises -/

/-- What an entry promises in every run. The time of a session counts from its last hello on. -/
structure Kept (c : KnownClient) : Prop where
  active : c.nbActiveSessions = c.used.length
  roles : c.nbActiveSessions = c.nbActiveSearch + c.nbActivePrune
  nonneg : 0 ≤ c.nbActiveSessions ∧ 0 ≤ c.nbActiveSearch ∧ 0 ≤ c.nbActivePrune
  checked : c.totalPrunerChecked.toNat = (c.ledger.loadedChecked + c.ledger.grown (·.checked)) % 2 ^ 64
  removed : c.totalPrunerRemoved.toNat = (c.ledger.loadedRemoved + c.ledger.grown (·.removed)) % 2 ^ 64
  uptime : c.cumulativeUptimeSeconds.toNat = (c.ledger.loadedUptime + c.ledger.timeSince (·.refreshed)) % 2 ^ 64

/-- What it is meant to promise besides: no counter is negative, and the time of a session counts from its begin on. -/
structure Right (c : KnownClient) : Prop extends Kept c where
  connections : 0 ≤ c.nbConnectionsTotal.toInt
  lifetime : c.cumulativeUptimeSeconds.toNat = (c.ledger.loadedUptime + c.ledger.timeSince (·.began)) % 2 ^ 64

theorem kept_of_agrees (h : c.Agrees) : Kept c where
  active := h.sessions.active
  roles := h.sessions.roles
  nonneg := by
    rw [h.sessions.active, h.sessions.search, h.sessions.prune]
    exact ⟨Int.natCast_nonneg _, Int.natCast_nonneg _, Int.natCast_nonneg _⟩
  checked := h.totals.checked
  removed := h.totals.removed
  uptime := h.totals.uptime

/-- A machine that was told of less than 2^31 connections, and no hello of a session twice. -/
theorem right_of_agrees (h : c.Agrees) (hconnections : c.ledger.connections < 2 ^ 31) (hreplays : c.ledger.replays = 0) :
    Right c where
  toKept := kept_of_agrees h
  connections := by
    have hcount : c.nbConnectionsTotal.toUInt32.toNat = c.ledger.connections :=
      h.totals.connections.trans (Nat.mod_eq_of_lt (hconnections.trans (by decide)))
    have hsmall : 2 * c.nbConnectionsTotal.toBitVec.toNat < 2 ^ 32 := by
      rw [show c.nbConnectionsTotal.toBitVec.toNat = c.ledger.connections from hcount]
      omega
    rw [← Int32.toInt_toBitVec, BitVec.toInt_eq_toNat_of_lt hsmall]
    exact Int.natCast_nonneg _
  lifetime := by
    rw [h.totals.uptime,
      ClientLedger.timeSince_refreshed c.ledger (ClientLedger.refreshed_eq_began c.history hreplays)]

/-- A run that stays clear of what the registry does not keep up with: each machine is told of less than 2^31
connections and of no hello of a session that is in use, and no machine with all its sessions in use says hello
for another one. -/
def Meets (calls : List Call) : Prop :=
  ∀ before, before <+: calls →
    (∀ c ∈ (run before).entries, c.ledger.connections < 2 ^ 31 ∧ c.ledger.replays = 0) ∧
      ∀ call, before ++ [call] <+: calls → ¬ Untracked (run before) call

/-- In every run, the counters of every entry are those of its ledger, a machine with a session keeps its entry, a
call that changes what a save would write is counted unless it is a hello for a session that gets no slot, and a
load into an empty registry gives back what was saved. In a run that meets the condition, the registry does all
that it is meant to in every state and step. -/
theorem registry_right (calls : List Call) :
    ((∀ c ∈ (run calls).entries, Kept c) ∧
      (∀ call, ∀ c ∈ (run calls).entries, c.nbActiveSessions ≠ 0 → ((run calls).step call).KeepsEntry c) ∧
      (∀ call, CountsChange (run calls) call ↔ ¬ Untracked (run calls) call) ∧
      (empty.load (some (run calls).save)).1 = 0 ∧
      List.Forall₂ Restored (run calls).entries (empty.load (some (run calls).save)).2.entries) ∧
    (Meets calls → ∀ before, before <+: calls →
      (∀ c ∈ (run before).entries, Right c) ∧
        ∀ call, before ++ [call] <+: calls → CountsChange (run before) call) := by
  have hinv := inv_run calls
  refine ⟨⟨fun c hc => kept_of_agrees (hinv.agrees c hc), fun call c hc hactive => keepsEntry_step hc hactive call,
    countsChange_iff hinv, (load_save hinv).1, (load_save hinv).2⟩, ?_⟩
  intro hmeets before hbefore
  obtain ⟨hledgers, htracked⟩ := hmeets before hbefore
  constructor
  · intro c hc
    obtain ⟨hconnections, hreplays⟩ := hledgers c hc
    exact right_of_agrees ((inv_run before).agrees c hc) hconnections hreplays
  · intro call hcall
    exact (countsChange_iff (inv_run before) call).mpr (htracked call hcall)

/-- The hello of one of the sessions of a machine. -/
def sessionHello (session : Byte) : Call :=
  .connect 1000 ⟨List.replicate 16 1, List.replicate 16 session, [0, 0, 0, 0], clientModeSearch, []⟩ none

/-- A run of one hello meets the condition. -/
theorem registry_right_oneSession : ∀ c ∈ (run [sessionHello 1]).entries, Right c := by
  have hmeets : Meets [sessionHello 1] := by
    intro before hbefore
    rcases List.prefix_cons_iff.mp hbefore with rfl | ⟨rest, rfl, hrest⟩
    · refine ⟨by decide +kernel, fun call hcall huntracked => ?_⟩
      obtain rfl : call = sessionHello 1 := (List.cons_prefix_cons.mp hcall).1
      obtain ⟨c, hc, -⟩ := huntracked
      revert hc
      exact (by decide +kernel : (run []).entries = []) ▸ List.not_mem_nil
    · cases List.prefix_nil.mp hrest
      refine ⟨by decide +kernel, fun call hcall => ?_⟩
      exact absurd hcall.length_le (by simp)
  exact ((registry_right [sessionHello 1]).2 hmeets _ (List.prefix_refl _)).1

/-- The ninth session of a machine changes what a save would write, and is not counted. -/
theorem ninthSession_uncounted :
    ¬ CountsChange (run ([1, 2, 3, 4, 5, 6, 7, 8].map sessionHello)) (sessionHello 9) := by
  intro hcounts
  have hcount := hcounts (by decide +kernel)
  revert hcount
  decide +kernel

end KnownClients
