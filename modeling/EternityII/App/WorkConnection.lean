-- SUMMARY: A work connection of the server: what it serves comes back to the stock or stays under a lease.
import EternityII.App.FeedThread
import EternityII.Stock.LeaseReclaim

/-!
# A work connection

A work connection takes packets out of the stock and puts them in the analysed pool before it sends
them. Two things bring back what is never acknowledged. A packet recorded for a client that has said
who it is carries a lease, and a reclaim takes it back once the lease has expired and the client is
gone. When the connection ends, the last batch served on it goes back into the stock, unless the
client is known to be alive. Batches before the last one are forgotten.
-/

/-! ## The analysed pool -/

/-- `AnalysedIndexNode`: who holds the element, and the deadline of its lease. -/
structure AnalysedNode where
  hasOwner : Bool
  ownerUid : List Byte
  leaseDeadline : Int

/-- An element of the analysed pool and its node, if it has one. -/
structure PoolElement (P : Puzzle) where
  packet : Packet P
  node : Option AnalysedNode

/-- `file_possibility_analysed` with `analysed_index`, and `analysed_index_may_be_incomplete`. -/
structure AnalysedPool (P : Puzzle) where
  files : List (List (PoolElement P))
  mayBeIncomplete : Bool
  files_pos : 0 < files.length

section Pool

variable {P : Puzzle}

namespace PoolElement

/-- The element is in the index and its packet is the possibility. -/
def indexedAs (possibility : Packet P) (e : PoolElement P) : Bool :=
  e.node.isSome && decide (comparePossibility e.packet possibility = 0)

/-- The element has an owner and a deadline. -/
def leased (e : PoolElement P) : Bool :=
  match e.node with
  | none => false
  | some node => node.hasOwner && decide (node.leaseDeadline > 0)

/-- What `datamanager_reclaim_expired_leases` takes back. -/
def reclaimable (now : Int) (ownerAlive : List Byte → Bool) (e : PoolElement P) : Bool :=
  match e.node with
  | none => false
  | some node => node.hasOwner && analysedLeaseIsExpired node.leaseDeadline now && !ownerAlive node.ownerUid

end PoolElement

/-- Remove the last element with a property. -/
def eraseLastP {α : Type} (p : α → Bool) (l : List α) : List α := (l.reverse.eraseP p).reverse

/-- The element of a file that an acknowledgement removes: the one indexed last, for the nodes of a
bucket stand in that order, and otherwise the first of the file, if the index may have missed it. -/
def removeElement (incomplete : Bool) (possibility : Packet P) (file : List (PoolElement P)) :
    Option (List (PoolElement P)) :=
  if file.any (·.indexedAs possibility) then some (eraseLastP (·.indexedAs possibility) file)
  else if incomplete && file.any fun e => comparePossibility e.packet possibility = 0 then
    some (file.eraseP fun e => comparePossibility e.packet possibility = 0)
  else none

/-- The loop of `remove_possibility_analysed`: the file from which it removes and what is left of it, or
the value it returns. The attempt `i` locks its file or waits; every turn ends a file or a wait, which
bounds the fuel. -/
def removeLoop (incomplete : Bool) (possibility : Packet P) (scanStart : Nat) (free : Nat → Bool)
    (files : List (List (PoolElement P))) : Nat → Nat → Nat → Nat → Except Int (Nat × List (PoolElement P))
  | 0, _, _, _ => .error (-1)
  | fuel + 1, i, step, waits =>
    if free i then
      let currfile := (scanStart + step) % files.length
      match removeElement incomplete possibility (files.getD currfile []) with
      | some file => .ok (currfile, file)
      | none =>
        if step + 1 ≥ files.length then .error 1
        else removeLoop incomplete possibility scanStart free files fuel (i + 1) (step + 1) waits
    else if waits + 1 ≥ trylockMaxSweeps then .error (-1)
    else removeLoop incomplete possibility scanStart free files fuel (i + 1) step (waits + 1)

/-- `remove_possibility_analysed` with `thread < 0`. -/
def AnalysedPool.remove (pool : AnalysedPool P) (possibility : Packet P) (preferredFile : Nat) (free : Nat → Bool) :
    AnalysedPool P × Int :=
  let scanStart := if preferredFile < pool.files.length then preferredFile else 0
  match removeLoop pool.mayBeIncomplete possibility scanStart free pool.files
      (trylockMaxSweeps + pool.files.length) 0 0 0 with
  | .ok (currfile, file) =>
    ({ pool with
      files := pool.files.set currfile file
      files_pos := by rw [List.length_set]; exact pool.files_pos }, 0)
  | .error result => (pool, result)

/-- What one recording reads: the locks and the memory of the analysed pool, the clock, and the locks of
the stock if the packet goes back there. -/
structure RecordingTurn where
  add : AnalysedAdd
  now : Nat
  freeUnchecked : Nat → Bool
  freeChecked : Nat → Bool

/-- The node `analysed_index_add` makes. -/
def analysedNode (analysedLeaseSeconds : Int) (owner : Option (List Byte)) (now : Nat) : AnalysedNode :=
  match owner with
  | some uid => ⟨true, uid, if analysedLeaseSeconds > 0 then now + analysedLeaseSeconds else 0⟩
  | none => ⟨false, [], 0⟩

/-- `add_possibility_analysed_impl` with `thread ≥ 0`. -/
def AnalysedPool.add (pool : AnalysedPool P) (possibility : Packet P) (thread : Nat) (analysedLeaseSeconds : Int)
    (owner : Option (List Byte)) (turn : RecordingTurn) : AnalysedPool P × Int :=
  match firstFree turn.add.free trylockMaxSweeps 0 with
  | none => (pool, -1)
  | some _ =>
    if turn.add.element then
      let node := if turn.add.node then some (analysedNode analysedLeaseSeconds owner turn.now) else none
      ({ files := pool.files.modify thread (· ++ [⟨possibility, node⟩])
         mayBeIncomplete := pool.mayBeIncomplete || !turn.add.node
         files_pos := by rw [List.length_modify]; exact pool.files_pos }, 0)
    else (pool, 0)

end Pool

/-! ## The identity of a client -/

/-- `client_identity_t`. -/
structure ClientIdentity where
  machineUid : List Byte
  clientUid : List Byte
  forkSeq : List Byte
  mode : Byte
  label : List Byte

/-- `CLIENT_LABEL_MAX`. -/
def clientLabelMax : Nat := 32

/-- `CLIENT_IDENTITY_WIRE_MIN_SIZE`. -/
def clientIdentityWireMinSize : Nat := 16 + 16 + 4 + 1 + 1

/-- `CLIENT_IDENTITY_WIRE_MAX_SIZE`. -/
def clientIdentityWireMaxSize : Nat := clientIdentityWireMinSize + (clientLabelMax - 1)

/-- `client_identity_decode`: the value it returns, and what it leaves in `out`. The fields in front of
the label are written before the length of the label is looked at. -/
def clientIdentityDecode (buf : List Byte) (len : Nat) (out : ClientIdentity) : Int × ClientIdentity :=
  if len < clientIdentityWireMinSize then (-1, out)
  else
    let written : ClientIdentity :=
      ⟨buf.take 16, (buf.drop 16).take 16, (buf.drop 32).take 4, buf.getD 36 0, out.label⟩
    let labelLen := (buf.getD 37 0).toNat
    if labelLen > clientLabelMax - 1 then (-1, written)
    else if clientIdentityWireMinSize + labelLen > len then (-1, written)
    else (0, { written with label := (buf.drop 38).take labelLen })

/-! ## The connection -/

/-- `PRUNER_BATCH_MAX`. -/
def prunerBatchMax : Int := 65536

/-- `clamp_pruner_batch`. -/
def clampPrunerBatch (requested : Int) : Int :=
  if requested < 1 then 1 else if requested > prunerBatchMax then prunerBatchMax else requested

/-- `version`, `analysed_lease_seconds`, and the slot of the connection. -/
structure WorkConfig where
  version : Int
  analysedLeaseSeconds : Int
  compteur : Nat

/-- Where a connection stands: in the loop of `communicate_with_client`, out of it, or finished. -/
inductive ConnectionPhase
  | open_ | closing | ended
  deriving DecidableEq

/-- The server as a connection sees it, and the connection; `acked` are the packets it has acknowledged,
`unowned` those it has recorded before it knew its client and that neither an acknowledgement nor the
end of the connection has settled yet. -/
structure WorkConnection (P : Puzzle) where
  stock : LocalStock
  analysed : AnalysedPool P
  identity : ClientIdentity
  hasIdentity : Bool
  versionSupported : Bool
  lastSent : Option (List (Packet P))
  phase : ConnectionPhase
  acked : List (Packet P)
  unowned : List (Packet P)

/-- What a client asks once its version is supported. A field that does not arrive whole is `none`; the
packets of a batch are those that arrive. -/
inductive WorkRequest (P : Puzzle)
  | get (found : Option (Bool × Nat)) (turn : Nat → RecordingTurn)
  | getToCheck (found : Option Nat) (turn : Nat → RecordingTurn)
  | getToCheckBatch (requested : Option Int) (found : Option Nat) (turn : Nat → RecordingTurn)
  | possibilityAnalysed (possibility : Option (Packet P)) (free : Nat → Bool)
  | possibilityAnalysedBatch (m : Option Int) (packets : List (Packet P)) (free : Nat → Nat → Bool)
  | clientHello (len : Option Int) (buf : List Byte)

/-- What the server receives on the connection. -/
inductive WorkInstruction (P : Puzzle)
  | checkVersion (clientVersion : Option Int)
  | request (r : WorkRequest P)

/-- What `record_batch_analysed_for_client` leaves: the packets kept in the batch, and the pools. -/
structure BatchRecord (P : Puzzle) where
  kept : List (Packet P)
  analysed : AnalysedPool P
  stock : LocalStock

/-- What giving one packet of the last batch back reads. -/
structure RequeueTurn where
  free : Nat → Bool
  freeUnchecked : Nat → Bool
  freeChecked : Nat → Bool

namespace WorkConnection

variable {P : Puzzle}

/-- A connection that has just been accepted. -/
def accepted (stock : LocalStock) (analysed : AnalysedPool P) (identity : ClientIdentity) : WorkConnection P :=
  ⟨stock, analysed, identity, false, false, none, .open_, [], []⟩

variable (c : WorkConfig) (w : WorkConnection P)

/-- `server_analysed_file_hint`. -/
def fileHint : Nat := c.compteur % w.analysed.files.length

/-- The owner a packet is recorded for. -/
def owner : Option (List Byte) := if w.hasIdentity then some w.identity.clientUid else none

/-- The loop of `record_batch_analysed_for_client` from its packet `p` on. -/
def recordBatch (hint : Nat) (owner : Option (List Byte)) (turn : Nat → RecordingTurn) :
    Nat → List (Packet P) → AnalysedPool P → LocalStock → BatchRecord P
  | _, [], analysed, stock => ⟨[], analysed, stock⟩
  | p, possibility :: batch, analysed, stock =>
    let added := analysed.add possibility hint c.analysedLeaseSeconds owner (turn p)
    if added.2 = 0 then
      let rest := recordBatch hint owner turn (p + 1) batch added.1 stock
      { rest with kept := possibility :: rest.kept }
    else
      recordBatch hint owner turn (p + 1) batch added.1
        (putToLocal stock [possibility] (turn p).freeUnchecked (turn p).freeChecked).1

/-- A batch that has been taken out of the stock is recorded and sent; whether the client gets it makes
no difference here. -/
def serve (taken : List (Packet P) × LocalStock) (turn : Nat → RecordingTurn) : WorkConnection P :=
  let r := recordBatch c (w.fileHint c) w.owner turn 0 taken.1 w.analysed taken.2
  { w with
    stock := r.stock
    analysed := r.analysed
    lastSent := some r.kept
    unowned := if w.hasIdentity then w.unowned else w.unowned ++ r.kept }

/-- A packet is acknowledged. -/
def acknowledge (possibility : Packet P) (free : Nat → Bool) : WorkConnection P :=
  let removed := w.analysed.remove possibility (w.fileHint c) free
  if removed.2 = 0 then
    { w with
      analysed := removed.1
      acked := possibility :: w.acked
      unowned := eraseLastP (fun q => comparePossibility q possibility = 0) w.unowned }
  else { w with analysed := removed.1 }

/-- The loop over the packets of a batch that arrive, from the packet `p` on. -/
def acknowledgeBatch (free : Nat → Nat → Bool) : Nat → List (Packet P) → WorkConnection P → WorkConnection P
  | _, [], w => w
  | p, possibility :: packets, w => acknowledgeBatch free (p + 1) packets (w.acknowledge c possibility (free p))

/-- `communicate_with_client_step` on a client with a supported version; whether the loop goes on. -/
def answer : WorkRequest P → WorkConnection P × Bool
  | .get found turn => (w.serve c (scrollFromLocal P w.stock 1 found) turn, true)
  | .getToCheck found turn => (w.serve c (scrollFromLocal P w.stock 1 (found.map (false, ·))) turn, true)
  | .getToCheckBatch none _ _ => (w, false)
  | .getToCheckBatch (some requested) found turn =>
    (w.serve c (scrollFromLocal P w.stock (clampPrunerBatch requested) (found.map (false, ·))) turn, true)
  | .possibilityAnalysed none _ => (w, false)
  | .possibilityAnalysed (some possibility) free => (w.acknowledge c possibility free, true)
  | .possibilityAnalysedBatch none _ _ => (w, false)
  | .possibilityAnalysedBatch (some m) packets free =>
    if m < 0 ∨ m > prunerBatchMax then (w, false)
    else (acknowledgeBatch c free 0 (packets.take m.toNat) w, decide (m.toNat ≤ packets.length))
  | .clientHello none _ => (w, false)
  | .clientHello (some len) buf =>
    if len < 0 ∨ len > clientIdentityWireMaxSize then (w, false)
    else if buf.length < len.toNat then (w, false)
    else
      let decoded := clientIdentityDecode buf len.toNat w.identity
      ({ w with identity := decoded.2, hasIdentity := w.hasIdentity || decide (decoded.1 = 0) }, true)

/-- `communicate_with_client_step`. -/
def communicateWithClientStep : WorkInstruction P → WorkConnection P × Bool
  | .checkVersion none => (w, false)
  | .checkVersion (some clientVersion) =>
    ({ w with versionSupported := w.versionSupported || decide (c.version = clientVersion) }, true)
  | .request r => if w.versionSupported then w.answer c r else (w, false)

/-- A packet of the last batch goes back into the stock, unless it has been acknowledged. -/
def requeueOne (t : RequeueTurn) (possibility : Packet P) : WorkConnection P :=
  let removed := w.analysed.remove possibility (w.fileHint c) t.free
  if removed.2 = 1 then { w with analysed := removed.1 }
  else
    { w with
      analysed := removed.1
      stock := (putToLocal w.stock [possibility] t.freeUnchecked t.freeChecked).1
      unowned :=
        if removed.2 = 0 then eraseLastP (fun q => comparePossibility q possibility = 0) w.unowned
        else w.unowned }

/-- The loop of `requeue_last_sent_possibility` from its packet `rp` on. -/
def requeueLoop (turn : Nat → RequeueTurn) : Nat → List (Packet P) → WorkConnection P → WorkConnection P
  | _, [], w => w
  | rp, possibility :: lastSent, w => requeueLoop turn (rp + 1) lastSent (w.requeueOne c (turn rp) possibility)

/-- `requeue_last_sent_possibility`; `alive` is `owner_control_session_alive`. -/
def requeueLastSentPossibility (alive : List Byte → Bool) (turn : Nat → RequeueTurn) : WorkConnection P :=
  match w.lastSent with
  | none => w
  | some lastSent =>
    if w.hasIdentity && alive w.identity.clientUid then w else requeueLoop c turn 0 lastSent w

end WorkConnection

/-- What happens to a connection: an instruction is received, or it ends. -/
inductive ConnectionStep (P : Puzzle)
  | instruction (i : WorkInstruction P)
  | disconnect (alive : List Byte → Bool) (turn : Nat → RequeueTurn)

/-- One step of `communicate_with_client`. The client may leave at any point, and the loop may have
ended the connection itself. -/
def WorkConnection.step {P : Puzzle} (c : WorkConfig) (w : WorkConnection P) : ConnectionStep P → Option (WorkConnection P)
  | .instruction i =>
    if w.phase = .open_ then
      let answered := w.communicateWithClientStep c i
      some { answered.1 with phase := if answered.2 then .open_ else .closing }
    else none
  | .disconnect alive turn =>
    if w.phase = .ended then none
    else some { w.requeueLastSentPossibility c alive turn with phase := .ended }

/-! ## What is accounted for -/

section Account

variable {P : Puzzle}

/-- The keys of the elements of a pool that have a property. -/
def AnalysedPool.keys (which : PoolElement P → Bool) (pool : AnalysedPool P) : Multiset (PacketKey P) :=
  ((pool.files.flatten.filter which).map fun e => e.packet.key : List (PacketKey P))

/-- The keys under a lease. -/
def AnalysedPool.leasedKeys (pool : AnalysedPool P) : Multiset (PacketKey P) := pool.keys PoolElement.leased

/-- The keys without a lease. -/
def AnalysedPool.unleasedKeys (pool : AnalysedPool P) : Multiset (PacketKey P) := pool.keys fun e => !e.leased

/-- The keys of some packets. -/
def packetKeys (packets : List (Packet P)) : Multiset (PacketKey P) := (packets.map Packet.key : List (PacketKey P))

/-- What was in the stock or under a lease when the connection began still is, except for what has been
acknowledged, and the connection has left nothing without a lease in the analysed pool. -/
structure Accounted (start w : WorkConnection P) : Prop where
  kept : start.stock.keys P + start.analysed.leasedKeys ≤
    w.stock.keys P + w.analysed.leasedKeys + packetKeys w.acked
  stray : w.analysed.unleasedKeys ≤ start.analysed.unleasedKeys

/-- A reclaim takes an element back from some moment on, once its owner is gone. -/
def PoolElement.HasWayBack (e : PoolElement P) : Prop :=
  ∃ deadline : Int, ∀ now ≥ deadline, ∀ ownerAlive : List Byte → Bool,
    (∀ node, e.node = some node → ownerAlive node.ownerUid = false) → e.reclaimable now ownerAlive = true

/-- The stock takes a packet: it fits under the cap and a file is locked in time. -/
def LocalStock.TakesBack (stock : LocalStock) (possibility : Packet P) (freeUnchecked freeChecked : Nat → Bool) : Prop :=
  stock.Takes (decide (possibility.checked = 1)) [possibility]
    (if possibility.checked = 1 then freeChecked else freeUnchecked)

/-- There is memory for every packet of a batch that is recorded, and the stock takes back the others. -/
def RecordsAll (turn : Nat → RecordingTurn) : Nat → List (Packet P) → LocalStock → Prop
  | _, [], _ => True
  | p, possibility :: batch, stock =>
    if (firstFree (turn p).add.free trylockMaxSweeps 0).isSome then
      (turn p).add.element = true ∧ (turn p).add.node = true ∧ RecordsAll turn (p + 1) batch stock
    else
      stock.TakesBack possibility (turn p).freeUnchecked (turn p).freeChecked ∧
        RecordsAll turn (p + 1) batch (putToLocal stock [possibility] (turn p).freeUnchecked (turn p).freeChecked).1

namespace WorkConnection

variable (c : WorkConfig)

/-- For every packet of the last batch the analysed pool is searched in time, and the stock takes those
that are found. -/
def GivesBack (turn : Nat → RequeueTurn) : Nat → List (Packet P) → WorkConnection P → Prop
  | _, [], _ => True
  | rp, possibility :: lastSent, w =>
    (w.analysed.remove possibility (w.fileHint c) (turn rp).free).2 ≠ -1 ∧
      ((w.analysed.remove possibility (w.fileHint c) (turn rp).free).2 = 0 →
        w.stock.TakesBack possibility (turn rp).freeUnchecked (turn rp).freeChecked) ∧
      GivesBack turn (rp + 1) lastSent (w.requeueOne c (turn rp) possibility)

end WorkConnection

/-- Before a batch is served, the packets recorded without an owner have all been acknowledged. -/
def WorkRequest.Settles (w : WorkConnection P) : WorkRequest P → Prop
  | .get found turn =>
    w.unowned = [] ∧ RecordsAll turn 0 (scrollFromLocal P w.stock 1 found).1 (scrollFromLocal P w.stock 1 found).2
  | .getToCheck found turn =>
    w.unowned = [] ∧ RecordsAll turn 0 (scrollFromLocal P w.stock 1 (found.map (false, ·))).1
      (scrollFromLocal P w.stock 1 (found.map (false, ·))).2
  | .getToCheckBatch (some requested) found turn =>
    w.unowned = [] ∧
      RecordsAll turn 0 (scrollFromLocal P w.stock (clampPrunerBatch requested) (found.map (false, ·))).1
        (scrollFromLocal P w.stock (clampPrunerBatch requested) (found.map (false, ·))).2
  | _ => True

/-- No step forgets a packet: before a batch is served and when a client stays alive, the packets recorded
without an owner have all been acknowledged, and what goes back to the stock finds its place there. -/
def ConnectionStep.Settles (c : WorkConfig) (w : WorkConnection P) : ConnectionStep P → Prop
  | .instruction (.request r) => w.versionSupported = true → r.Settles w
  | .instruction _ => True
  | .disconnect alive turn =>
    if w.hasIdentity && alive w.identity.clientUid then w.unowned = []
    else w.GivesBack c turn 0 (w.lastSent.getD [])

end Account

/-! ## Taking an element out -/

section Removal

variable {P : Puzzle} {possibility : Packet P}

theorem eraseLastP_append_right {α : Type} {p : α → Bool} {own : List α} (h : own.any p = true) (old : List α) :
    eraseLastP p (old ++ own) = old ++ eraseLastP p own := by
  obtain ⟨a, ha, hp⟩ := List.any_eq_true.mp h
  unfold eraseLastP
  rw [List.reverse_append, List.eraseP_append_left hp _ (List.mem_reverse.mpr ha), List.reverse_append,
    List.reverse_reverse]

theorem eraseLastP_append_left {α : Type} {p : α → Bool} {own : List α} (h : ∀ a ∈ own, p a = false) (old : List α) :
    eraseLastP p (old ++ own) = eraseLastP p old ++ own := by
  have hnone : ∀ a ∈ own.reverse, ¬ p a = true := fun a ha => by
    rw [h a (List.mem_reverse.mp ha)]
    exact Bool.false_ne_true
  unfold eraseLastP
  rw [List.reverse_append, List.eraseP_append_right _ hnone, List.reverse_append, List.reverse_reverse]

/-- What an erasure at the end takes. -/
theorem eraseLastP_perm {α : Type} {p : α → Bool} {l : List α} (h : l.any p = true) :
    ∃ a, p a = true ∧ l.Perm (a :: eraseLastP p l) := by
  obtain ⟨a, ha, hp⟩ := List.any_eq_true.mp h
  obtain ⟨a', l₁, l₂, -, hmatch, hreverse, herase⟩ := List.exists_of_eraseP (List.mem_reverse.mpr ha) hp
  refine ⟨a', hmatch, ?_⟩
  unfold eraseLastP
  rw [herase]
  refine (List.reverse_perm l).symm.trans ?_
  rw [hreverse]
  exact List.perm_middle.trans ((List.reverse_perm _).symm.cons a')

theorem map_eraseLastP {α β : Type} {f : α → β} {p : α → Bool} {q : β → Bool} {l : List α}
    (h : ∀ a ∈ l, p a = q (f a)) : (eraseLastP p l).map f = eraseLastP q (l.map f) := by
  have hreverse : (l.map f).reverse = l.reverse.map f := List.map_reverse.symm
  unfold eraseLastP
  rw [List.map_reverse, hreverse, List.eraseP_map]
  refine congrArg (fun l => (List.map f l).reverse) (IndexedFile.eraseP_congr fun a ha => ?_)
  exact h a (List.mem_reverse.mp ha)

theorem eraseLastP_eq_self {α : Type} {p : α → Bool} {l : List α} (h : ∀ a ∈ l, p a = false) : eraseLastP p l = l :=
  eraseLastP_append_left h []

theorem mem_of_mem_eraseLastP {α : Type} {p : α → Bool} {l : List α} {a : α} (h : a ∈ eraseLastP p l) : a ∈ l :=
  List.mem_reverse.mp (List.mem_of_mem_eraseP (List.mem_reverse.mp h))

theorem indexedAs_iff {e : PoolElement P} (h : e.node.isSome = true) :
    e.indexedAs possibility = decide (comparePossibility e.packet possibility = 0) := by
  unfold PoolElement.indexedAs
  rw [h, Bool.true_and]

/-- What is left of a file whose last elements are indexed: it is one of them that goes, if one matches. -/
inductive RemovedFrom (possibility : Packet P) (old own : List (PoolElement P)) : Option (List (PoolElement P)) → Prop
  | absent (unmatched : ∀ e ∈ own, comparePossibility e.packet possibility ≠ 0) : RemovedFrom possibility old own none
  | own (found : own.any (·.indexedAs possibility) = true) :
      RemovedFrom possibility old own (some (old ++ eraseLastP (·.indexedAs possibility) own))
  | old (unmatched : ∀ e ∈ own, comparePossibility e.packet possibility ≠ 0) (e : PoolElement P)
      (old' : List (PoolElement P)) (key : comparePossibility e.packet possibility = 0) (perm : old.Perm (e :: old')) :
      RemovedFrom possibility old own (some (old' ++ own))

theorem removeElement_spec (possibility : Packet P) (incomplete : Bool) (old : List (PoolElement P)) {own : List (PoolElement P)}
    (hindexed : ∀ e ∈ own, e.node.isSome = true) :
    RemovedFrom possibility old own (removeElement incomplete possibility (old ++ own)) := by
  unfold removeElement
  cases hown : own.any (·.indexedAs possibility) with
  | true =>
    rw [List.any_append, hown, Bool.or_true, if_pos rfl, eraseLastP_append_right hown]
    exact .own hown
  | false =>
    have hunmatched : ∀ e ∈ own, e.indexedAs possibility = false :=
      fun e he => Bool.eq_false_iff.mpr (List.any_eq_false.mp hown e he)
    have hnone : ∀ e ∈ own, comparePossibility e.packet possibility ≠ 0 := by
      intro e he heq
      have hfalse := hunmatched e he
      rw [indexedAs_iff (hindexed e he), heq] at hfalse
      exact absurd hfalse (by decide)
    rw [List.any_append, hown, Bool.or_false]
    split
    · rename_i hfound
      obtain ⟨e, hmatch, hperm⟩ := eraseLastP_perm hfound
      rw [eraseLastP_append_left hunmatched]
      rw [PoolElement.indexedAs, Bool.and_eq_true, decide_eq_true_iff] at hmatch
      exact .old hnone e _ hmatch.2 hperm
    · split
      · rename_i hfallback
        obtain ⟨-, hany⟩ := Bool.and_eq_true _ _ ▸ hfallback
        obtain ⟨e, he, hmatch⟩ := List.any_eq_true.mp hany
        have hold : e ∈ old := by
          rcases List.mem_append.mp he with hold | hown
          · exact hold
          · exact absurd (of_decide_eq_true hmatch) (hnone e hown)
        obtain ⟨e', l₁, l₂, -, hkey, hsplit, herase⟩ :=
          List.exists_of_eraseP (p := fun e : PoolElement P => comparePossibility e.packet possibility = 0) hold hmatch
        rw [List.eraseP_append_left (p := fun e : PoolElement P => comparePossibility e.packet possibility = 0) hmatch own hold, herase]
        refine .old hnone e' _ (of_decide_eq_true hkey) ?_
        rw [hsplit]
        exact List.perm_middle
      · exact .absent hnone

/-- How the loop ends: it removes from the file it starts with, if the packet is there. -/
inductive RemovalEnd (incomplete : Bool) (possibility : Packet P) (scanStart : Nat)
    (files : List (List (PoolElement P))) : Except Int (Nat × List (PoolElement P)) → Prop
  | timeout : RemovalEnd incomplete possibility scanStart files (.error (-1))
  | absent (here : removeElement incomplete possibility (files.getD scanStart []) = none) :
      RemovalEnd incomplete possibility scanStart files (.error 1)
  | removed (f : Nat) (file : List (PoolElement P)) (lt : f < files.length)
      (found : removeElement incomplete possibility (files.getD f []) = some file)
      (first : f = scanStart ∨ removeElement incomplete possibility (files.getD scanStart []) = none) :
      RemovalEnd incomplete possibility scanStart files (.ok (f, file))

theorem removeLoop_end (possibility : Packet P) (incomplete : Bool) {scanStart : Nat} {files : List (List (PoolElement P))} (free : Nat → Bool)
    (hstart : scanStart < files.length) (fuel i step waits : Nat)
    (hstep : step = 0 ∨ removeElement incomplete possibility (files.getD scanStart []) = none) :
    RemovalEnd incomplete possibility scanStart files
      (removeLoop incomplete possibility scanStart free files fuel i step waits) := by
  have hpos : 0 < files.length := Nat.zero_lt_of_lt hstart
  induction fuel generalizing i step waits with
  | zero => exact .timeout
  | succ fuel ih =>
    have hzero : step = 0 → (scanStart + step) % files.length = scanStart := by
      rintro rfl
      rw [Nat.add_zero, Nat.mod_eq_of_lt hstart]
    unfold removeLoop
    split
    · dsimp only
      split
      · rename_i file hfound
        exact .removed _ _ (Nat.mod_lt _ hpos) hfound (hstep.imp_left hzero)
      · rename_i hnone
        have hhere : removeElement incomplete possibility (files.getD scanStart []) = none := by
          rcases hstep with hz | hhere
          · rwa [hzero hz] at hnone
          · exact hhere
        split
        · exact .absent hhere
        · exact ih (i + 1) (step + 1) waits (.inr hhere)
    · split
      · exact .timeout
      · exact ih (i + 1) step (waits + 1) hstep

/-- The file ends with the elements of some packets, indexed and without a lease. -/
def EndsWith (file : List (PoolElement P)) (unowned : List (Packet P)) : Prop :=
  ∃ old own, file = old ++ own ∧ own.map PoolElement.packet = unowned ∧
    ∀ e ∈ own, e.node.isSome = true ∧ e.leased = false

theorem endsWith_nil (file : List (PoolElement P)) : EndsWith file [] :=
  ⟨file, [], (List.append_nil file).symm, rfl, fun _ h => absurd h List.not_mem_nil⟩

/-- What `remove_possibility_analysed` does to a pool whose preferred file ends with some packets. -/
inductive PoolRemoval (pool : AnalysedPool P) (possibility : Packet P) (hint : Nat) (unowned : List (Packet P)) :
    AnalysedPool P × Int → Prop
  | timeout : PoolRemoval pool possibility hint unowned (pool, -1)
  | absent (unmatched : ∀ q ∈ unowned, comparePossibility q possibility ≠ 0) :
      PoolRemoval pool possibility hint unowned (pool, 1)
  | removed (pool' : AnalysedPool P) (e : PoolElement P) (key : comparePossibility e.packet possibility = 0)
      (perm : pool.files.flatten.Perm (e :: pool'.files.flatten))
      (length : pool'.files.length = pool.files.length)
      (ends : EndsWith (pool'.files.getD hint [])
        (eraseLastP (fun q => comparePossibility q possibility = 0) unowned))
      (mine : (∃ q ∈ unowned, comparePossibility q possibility = 0) → e.leased = false) :
      PoolRemoval pool possibility hint unowned (pool', 0)

theorem flatten_set_split {α : Type} {files : List (List α)} {i : Nat} {a : α} {file : List α} (hi : i < files.length)
    (h : (files.getD i []).Perm (a :: file)) : files.flatten.Perm (a :: (files.set i file).flatten) := by
  rw [List.set_eq_modify]
  exact @flatten_modify_split _ files i [a] (fun _ => file) hi h

theorem AnalysedPool.remove_spec (pool : AnalysedPool P) (possibility : Packet P) {hint : Nat} (free : Nat → Bool)
    {unowned : List (Packet P)} (hhint : hint < pool.files.length)
    (hends : EndsWith (pool.files.getD hint []) unowned) :
    PoolRemoval pool possibility hint unowned (pool.remove possibility hint free) := by
  obtain ⟨old, own, hfile, hmap, hown⟩ := hends
  have hindexed : ∀ e ∈ own, e.node.isSome = true := fun e he => (hown e he).1
  have hhere := removeElement_spec possibility pool.mayBeIncomplete old hindexed
  rw [← hfile] at hhere
  have hunmatched : (∀ e ∈ own, comparePossibility e.packet possibility ≠ 0) →
      ∀ q ∈ unowned, comparePossibility q possibility ≠ 0 := by
    intro hnone q hq
    rw [← hmap] at hq
    obtain ⟨e, he, rfl⟩ := List.mem_map.mp hq
    exact hnone e he
  have herased : (∀ q ∈ unowned, comparePossibility q possibility ≠ 0) →
      eraseLastP (fun q => comparePossibility q possibility = 0) unowned = unowned :=
    fun hnone => eraseLastP_eq_self fun q hq => decide_eq_false (hnone q hq)
  have hend := removeLoop_end possibility pool.mayBeIncomplete free hhint
    (trylockMaxSweeps + pool.files.length) 0 0 0 (.inl rfl)
  unfold AnalysedPool.remove
  dsimp only
  rw [if_pos hhint]
  generalize removeLoop pool.mayBeIncomplete possibility hint free pool.files
    (trylockMaxSweeps + pool.files.length) 0 0 0 = ended at hend
  cases hend with
  | timeout => exact .timeout
  | absent here =>
    rw [here] at hhere
    cases hhere with
    | absent unmatched => exact .absent (hunmatched unmatched)
  | removed f file lt found first =>
    by_cases hf : f = hint
    · subst hf
      rw [found] at hhere
      dsimp only
      cases hhere with
      | own matched =>
        obtain ⟨e, hmatch, hperm⟩ := eraseLastP_perm matched
        rw [PoolElement.indexedAs, Bool.and_eq_true, decide_eq_true_iff] at hmatch
        have hmem : e ∈ own := hperm.mem_iff.mpr List.mem_cons_self
        refine .removed _ e hmatch.2 (flatten_set_split lt ?_) (List.length_set ..) ?_ fun _ => (hown e hmem).2
        · rw [hfile]
          exact (hperm.append_left old).trans List.perm_middle
        · dsimp only
          rw [List.getD_eq_getElem _ _ (by rwa [List.length_set]), List.getElem_set_self]
          refine ⟨old, _, rfl, ?_, fun e he => hown e (mem_of_mem_eraseLastP he)⟩
          rw [← hmap]
          exact map_eraseLastP (q := fun q => decide (comparePossibility q possibility = 0))
            fun e he => indexedAs_iff (hindexed e he)
      | old unmatched e old' key perm =>
        refine .removed _ e key (flatten_set_split lt ?_) (List.length_set ..) ?_ ?_
        · rw [hfile]
          exact perm.append_right own
        · dsimp only
          rw [List.getD_eq_getElem _ _ (by rwa [List.length_set]), List.getElem_set_self,
            herased (hunmatched unmatched)]
          exact ⟨old', own, rfl, hmap, hown⟩
        · rintro ⟨q, hq, hzero⟩
          exact absurd hzero (hunmatched unmatched q hq)
    · have hnone := first.resolve_left hf
      rw [hnone] at hhere
      cases hhere with
      | absent unmatched =>
        have hnothing : ∀ e ∈ ([] : List (PoolElement P)), e.node.isSome = true := fun _ h => absurd h List.not_mem_nil
        have hother := removeElement_spec possibility pool.mayBeIncomplete (pool.files.getD f []) hnothing
        rw [List.append_nil, found] at hother
        dsimp only
        have hsame : (pool.files.set f file).getD hint [] = pool.files.getD hint [] := by
          rw [List.getD_eq_getElem?_getD, List.getD_eq_getElem?_getD, List.getElem?_set_ne hf]
        have hends : EndsWith ((pool.files.set f file).getD hint [])
            (eraseLastP (fun q => comparePossibility q possibility = 0) unowned) := by
          rw [hsame, herased (hunmatched unmatched)]
          exact ⟨old, own, hfile, hmap, hown⟩
        have hmine : ∀ e : PoolElement P, (∃ q ∈ unowned, comparePossibility q possibility = 0) → e.leased = false := by
          rintro e ⟨q, hq, hzero⟩
          exact absurd hzero (hunmatched unmatched q hq)
        generalize hleft : some file = left at hother
        cases hother with
        | absent _ => cases hleft
        | own found => exact absurd found Bool.false_ne_true
        | old _ e old' key perm =>
          cases hleft
          refine .removed _ e key (flatten_set_split lt ?_) (List.length_set ..) hends (hmine e)
          rw [List.append_nil]
          exact perm

end Removal

/-! ## Counting -/

section Counting

variable {P : Puzzle} {pool pool' : AnalysedPool P} {possibility : Packet P}

theorem keys_of_flatten_perm (which : PoolElement P → Bool) {new : List (PoolElement P)} (h : pool'.files.flatten.Perm (pool.files.flatten ++ new)) :
    pool'.keys which = pool.keys which + (((new.filter which).map fun e => e.packet.key : List (PacketKey P))) := by
  unfold AnalysedPool.keys
  rw [Multiset.coe_add, ← List.map_append, ← List.filter_append]
  exact Multiset.coe_eq_coe.mpr ((h.filter which).map _)

/-- A pool and the element taken out of it. -/
theorem keys_of_taken (which : PoolElement P → Bool) {e : PoolElement P} (h : pool.files.flatten.Perm (e :: pool'.files.flatten)) :
    pool.keys which = (if which e then {e.packet.key} else 0) + pool'.keys which := by
  have hswap : pool.files.flatten.Perm (pool'.files.flatten ++ [e]) :=
    h.trans (List.perm_append_singleton e _).symm
  rw [keys_of_flatten_perm which hswap, add_comm]
  refine congrArg (· + pool'.keys which) ?_
  cases hwhich : which e with
  | true =>
    rw [List.filter_cons_of_pos hwhich, if_pos rfl]
    rfl
  | false =>
    rw [List.filter_cons_of_neg (Bool.eq_false_iff.mp hwhich), if_neg Bool.false_ne_true]
    rfl

theorem packetKeys_nil : packetKeys ([] : List (Packet P)) = 0 := rfl

theorem packetKeys_cons (packets : List (Packet P)) :
    packetKeys (possibility :: packets) = {possibility.key} + packetKeys packets := rfl

/-- The keys of some packets before and after the last one with a key is erased. -/
theorem packetKeys_eraseLastP (possibility : Packet P) (packets : List (Packet P)) :
    (∃ q ∈ packets, comparePossibility q possibility = 0) ∧
        packetKeys packets = {possibility.key} +
          packetKeys (eraseLastP (fun q => comparePossibility q possibility = 0) packets) ∨
      (∀ q ∈ packets, comparePossibility q possibility ≠ 0) ∧
        eraseLastP (fun q => comparePossibility q possibility = 0) packets = packets := by
  by_cases h : ∃ q ∈ packets, comparePossibility q possibility = 0
  · refine .inl ⟨h, ?_⟩
    obtain ⟨q, hq, hzero⟩ := h
    have hany : packets.any (fun q => comparePossibility q possibility = 0) = true :=
      List.any_eq_true.mpr ⟨q, hq, decide_eq_true hzero⟩
    obtain ⟨q', hmatch, hperm⟩ := eraseLastP_perm hany
    have hkey : q'.key = possibility.key := comparePossibility_eq_zero.mp (of_decide_eq_true hmatch)
    rw [← hkey, ← packetKeys_cons]
    exact Multiset.coe_eq_coe.mpr (hperm.map Packet.key)
  · have hnone : ∀ q ∈ packets, comparePossibility q possibility ≠ 0 := fun q hq hzero => h ⟨q, hq, hzero⟩
    exact .inr ⟨hnone, eraseLastP_eq_self fun q hq => decide_eq_false (hnone q hq)⟩

/-- A removal takes one key out of the pool; if it takes it from those without a lease, and a packet
recorded without an owner has it, then from those packets too. -/
theorem counts_of_removed {unowned : List (Packet P)} {e : PoolElement P}
    (hkey : comparePossibility e.packet possibility = 0) (hperm : pool.files.flatten.Perm (e :: pool'.files.flatten))
    (hmine : (∃ q ∈ unowned, comparePossibility q possibility = 0) → e.leased = false) :
    pool.leasedKeys + packetKeys unowned ≤ pool'.leasedKeys + {possibility.key} +
        packetKeys (eraseLastP (fun q => comparePossibility q possibility = 0) unowned) ∧
      pool'.unleasedKeys + packetKeys unowned ≤ pool.unleasedKeys +
        packetKeys (eraseLastP (fun q => comparePossibility q possibility = 0) unowned) := by
  have hequal : e.packet.key = possibility.key := comparePossibility_eq_zero.mp hkey
  have hleased : pool.leasedKeys = _ + pool'.leasedKeys := keys_of_taken PoolElement.leased hperm
  have hunleased : pool.unleasedKeys = _ + pool'.unleasedKeys := keys_of_taken (fun e => !e.leased) hperm
  rw [hequal] at hleased hunleased
  rcases packetKeys_eraseLastP possibility unowned with ⟨hfound, hkeys⟩ | ⟨-, hsame⟩
  · have hfree := hmine hfound
    rw [hleased, hunleased, hkeys, hfree]
    rw [if_neg Bool.false_ne_true, if_pos (by rfl), zero_add]
    constructor
    · rw [add_assoc]
    · rw [← add_assoc, add_comm pool'.unleasedKeys]
  · rw [hsame, hleased, hunleased]
    constructor
    · rw [add_comm pool'.leasedKeys]
      refine Multiset.add_le_add_iff_right.mpr (Multiset.add_le_add_iff_right.mpr ?_)
      split
      · exact le_refl _
      · exact Multiset.zero_le _
    · exact Multiset.add_le_add_iff_right.mpr (Multiset.le_add_left _ _)

end Counting

/-! ## The stock -/

section Stock

variable {P : Puzzle} {stock : LocalStock} {possibility : Packet P} {freeUnchecked freeChecked : Nat → Bool}

theorem Packet.Loaded.exists_record (h : possibility.Loaded) :
    ∃ record, recordOf possibility = some record ∧ recordKey P record = some possibility.key := by
  unfold Packet.Loaded storedKeys at h
  cases hrecord : recordOf possibility with
  | none =>
    rw [List.filterMap_cons_none hrecord] at h
    cases h
  | some record =>
    rw [List.filterMap_cons_some hrecord, List.filterMap_nil] at h
    cases hkey : recordKey P record with
    | none =>
      rw [List.filterMap_cons_none hkey] at h
      cases h
    | some key =>
      rw [List.filterMap_cons_some hkey, List.filterMap_nil, List.singleton_inj] at h
      exact ⟨record, rfl, hkey.trans (congrArg some h)⟩

theorem routed_singleton (possibility : Packet P) (b : Bool) :
    routed [possibility] b = if decide (possibility.checked = 1) = b then [possibility] else [] := by
  unfold routed
  rw [List.filter_singleton]
  cases decide (possibility.checked = 1) <;> cases b <;> rfl

theorem putToPool_routed_nil {packets : List (Packet P)} {b : Bool} (h : routed packets b = []) (stock : LocalStock)
    (free : Nat → Bool) : putToPool stock packets b free = (stock, .ok) :=
  if_pos (congrArg List.length h)

/-- One packet only concerns the pool for it. -/
theorem putToLocal_singleton (stock : LocalStock) (possibility : Packet P) (freeUnchecked freeChecked : Nat → Bool) :
    (putToLocal stock [possibility] freeUnchecked freeChecked).1 =
      (putToPool stock [possibility] (decide (possibility.checked = 1))
        (if decide (possibility.checked = 1) then freeChecked else freeUnchecked)).1 := by
  unfold putToLocal
  dsimp only
  cases hchecked : decide (possibility.checked = 1) with
  | true =>
    have hnone : routed [possibility] false = [] := by
      rw [routed_singleton, hchecked]
      rfl
    rw [putToPool_routed_nil hnone]
    rfl
  | false =>
    have hnone : routed [possibility] true = [] := by
      rw [routed_singleton, hchecked]
      rfl
    rw [putToPool_routed_nil hnone]
    rfl

/-- One packet that the stock takes back. -/
theorem putToLocal_takesBack (h : stock.TakesBack possibility freeUnchecked freeChecked) :
    (putToLocal stock [possibility] freeUnchecked freeChecked).1.records.Perm
      (stock.records ++ (recordOf possibility).toList) := by
  have hlist : [possibility].filterMap recordOf = (recordOf possibility).toList := by
    cases hrecord : recordOf possibility with
    | none => rw [List.filterMap_cons_none hrecord]; rfl
    | some record => rw [List.filterMap_cons_some hrecord]; rfl
  have hrouted : routed [possibility] (decide (possibility.checked = 1)) = [possibility] := by
    rw [routed_singleton, if_pos rfl]
  have hfree : (if decide (possibility.checked = 1) then freeChecked else freeUnchecked) =
      if possibility.checked = 1 then freeChecked else freeUnchecked :=
    if_congr decide_eq_true_iff rfl rfl
  unfold LocalStock.TakesBack at h
  rw [putToLocal_singleton, hfree]
  have hstored := (putToPool_stored (by rw [hrouted]; exact List.cons_ne_nil _ _) (hrouted.symm ▸ h)).1
  rwa [hrouted, hlist] at hstored

theorem keys_takesBack (hloaded : possibility.Loaded) (h : stock.TakesBack possibility freeUnchecked freeChecked) :
    (putToLocal stock [possibility] freeUnchecked freeChecked).1.keys P = stock.keys P + {possibility.key} := by
  obtain ⟨record, hrecord, hkey⟩ := hloaded.exists_record
  have hperm := putToLocal_takesBack h
  rw [hrecord] at hperm
  rw [keys_of_perm hperm, Option.toList_some, List.filterMap_cons_some hkey]
  rfl

theorem ofPackets_putToLocal (hstock : stock.OfPackets P) :
    (putToLocal stock [possibility] freeUnchecked freeChecked).1.OfPackets P := by
  obtain ⟨stored, hperm, -⟩ := putToLocal_records stock [possibility] freeUnchecked freeChecked
  intro record hrecord
  rcases List.mem_append.mp (hperm.mem_iff.mp hrecord) with hold | hnew
  · exact hstock record hold
  · obtain ⟨q, -, hq⟩ := List.mem_filterMap.mp hnew
    exact ⟨q, hq⟩

/-- The packets a loop scrolls off a file have the keys of the records it takes, and load again. -/
theorem scrollLoop_taken {file : PoolFile} (h : ∀ record ∈ file, IsRecord P record) (toMove : Nat) :
    ∃ taken, file.Perm (taken ++ (scrollLoop P toMove file).2) ∧
      taken.filterMap (recordKey P) = (scrollLoop P toMove file).1.map Packet.key ∧
      ∀ p ∈ (scrollLoop P toMove file).1, p.Loaded := by
  induction toMove generalizing file with
  | zero => exact ⟨[], .refl _, rfl, fun p hp => absurd hp List.not_mem_nil⟩
  | succ toMove ih =>
    rcases List.eq_nil_or_concat file with rfl | ⟨file, record, rfl⟩
    · exact ⟨[], .refl _, rfl, fun p hp => absurd hp List.not_mem_nil⟩
    · rw [List.concat_eq_append] at h ⊢
      have hrecord : IsRecord P record := h record (List.mem_append_right _ (List.mem_singleton_self record))
      obtain ⟨packet, hscroll, hof⟩ := poolScroll_concat hrecord file
      have hload : recordPacket P record = some packet := by
        have hfirst := congrArg Prod.fst hscroll
        have hlen := hrecord.length_le
        unfold poolScroll scrollSized at hfirst
        rw [List.getLast?_concat] at hfirst
        dsimp only at hfirst
        rwa [if_neg (Nat.not_lt.mpr hlen)] at hfirst
      have hkey : recordKey P record = some packet.key := by
        rw [recordKey, hload]
        rfl
      obtain ⟨taken, hperm, hkeys, hloaded⟩ := ih fun r hr => h r (List.mem_append_left _ hr)
      rw [scrollLoop, hscroll]
      refine ⟨record :: taken, ?_, ?_, ?_⟩
      · exact (List.perm_append_singleton record file).trans (hperm.cons record)
      · rw [List.filterMap_cons_some hkey, hkeys]
        rfl
      · intro p hp
        rcases List.mem_cons.mp hp with rfl | hp
        · exact recordPacket_loaded hof hload
        · exact hloaded p hp

/-- Taking records out of one file of a stock. -/
theorem keys_of_set {stock' : LocalStock} {files : List PoolFile} {other taken rest : List (List Byte)} {file : Nat}
    (hstock : stock.OfPackets P) (hbefore : stock.records.Perm (files.flatten ++ other))
    (hafter : stock'.records.Perm ((files.set file rest).flatten ++ other))
    (htaken : (files.getD file []).Perm (taken ++ rest)) :
    stock.keys P = stock'.keys P + (taken.filterMap (recordKey P) : List (PacketKey P)) ∧ stock'.OfPackets P := by
  have hflatten : files.flatten.Perm (taken ++ (files.set file rest).flatten) := by
    by_cases hlt : file < files.length
    · rw [List.set_eq_modify]
      exact flatten_modify_split (f := fun _ => rest) hlt htaken
    · rw [List.getD_eq_default _ _ (Nat.not_lt.mp hlt)] at htaken
      obtain ⟨rfl, -⟩ := List.append_eq_nil_iff.mp htaken.nil_eq.symm
      rw [List.set_eq_of_length_le (Nat.not_lt.mp hlt)]
      rfl
  have hperm : stock.records.Perm (stock'.records ++ taken) := by
    refine hbefore.trans ((hflatten.append_right other).trans ?_)
    rw [List.append_assoc]
    exact List.perm_append_comm.trans (hafter.symm.append_right taken)
  refine ⟨keys_of_perm hperm, fun record hrecord => hstock record ?_⟩
  exact hperm.mem_iff.mpr (List.mem_append_left _ hrecord)

/-- What a batch is taken out of. -/
theorem scrollFromLocal_keys (hstock : stock.OfPackets P) (maxResult : Int) (found : Option (Bool × Nat)) :
    stock.keys P = (scrollFromLocal P stock maxResult found).2.keys P +
        packetKeys (scrollFromLocal P stock maxResult found).1 ∧
      (scrollFromLocal P stock maxResult found).2.OfPackets P ∧
      ∀ p ∈ (scrollFromLocal P stock maxResult found).1, p.Loaded := by
  unfold scrollFromLocal
  split
  · exact ⟨(add_zero _).symm, hstock, fun p hp => absurd hp List.not_mem_nil⟩
  · rename_i checked file
    have hpool := stock.records_perm checked
    have hrecords : ∀ record ∈ (stock.pool checked).files.getD file [], IsRecord P record := by
      intro record hrecord
      refine hstock record (hpool.mem_iff.mpr (List.mem_append_left _ ?_))
      by_cases hlt : file < (stock.pool checked).files.length
      · rw [List.getD_eq_getElem _ _ hlt] at hrecord
        exact List.mem_flatten.mpr ⟨_, List.getElem_mem hlt, hrecord⟩
      · rw [List.getD_eq_default _ _ (Nat.not_lt.mp hlt)] at hrecord
        exact absurd hrecord List.not_mem_nil
    obtain ⟨taken, hperm, hkeys, hloaded⟩ := scrollLoop_taken hrecords maxResult.toNat
    have hafter := stock.records_setPool checked
      { stock.pool checked with
        files := (stock.pool checked).files.set file
          (scrollLoop P maxResult.toNat ((stock.pool checked).files.getD file [])).2
        files_pos := by rw [List.length_set]; exact (stock.pool checked).files_pos }
    obtain ⟨hsplit, hof⟩ := keys_of_set hstock hpool hafter hperm
    refine ⟨?_, hof, fun p hp => hloaded p (List.mem_reverse.mp hp)⟩
    rw [hsplit, hkeys]
    refine congrArg (LocalStock.keys P _ + ·) (Multiset.coe_eq_coe.mpr ?_)
    exact (List.reverse_perm _).symm.map Packet.key

end Stock

/-! ## Recording a batch -/

section Recording

variable {P : Puzzle} {c : WorkConfig} {owner : Option (List Byte)} {turn : Nat → RecordingTurn} {hint : Nat}

/-- The keys of the packets that are recorded without a lease. -/
def unleasedPart (owner : Option (List Byte)) (kept : List (Packet P)) : Multiset (PacketKey P) :=
  if owner.isSome then 0 else packetKeys kept

/-- What recording a batch does: every packet is in the pool or back in the stock. -/
structure RecordedBatch (hint : Nat) (owner : Option (List Byte)) (batch : List (Packet P)) (analysed : AnalysedPool P)
    (stock : LocalStock) (r : BatchRecord P) : Prop where
  length : r.analysed.files.length = analysed.files.length
  encoded : r.stock.OfPackets P
  subset : ∀ q ∈ r.kept, q ∈ batch
  leased : r.stock.keys P + r.analysed.leasedKeys + unleasedPart owner r.kept =
    stock.keys P + analysed.leasedKeys + packetKeys batch
  unleased : r.analysed.unleasedKeys = analysed.unleasedKeys + unleasedPart owner r.kept
  ends : ∃ new, r.analysed.files.getD hint [] = analysed.files.getD hint [] ++ new ∧
    new.map PoolElement.packet = r.kept ∧ ∀ e ∈ new, e.node.isSome = true ∧ e.leased = owner.isSome

theorem unleasedPart_cons (owner : Option (List Byte)) (possibility : Packet P) (kept : List (Packet P)) :
    unleasedPart owner (possibility :: kept) = (if owner.isSome then 0 else {possibility.key}) + unleasedPart owner kept := by
  unfold unleasedPart
  split
  · rfl
  · rfl

/-- An element more in a pool. -/
theorem keys_of_added {pool pool' : AnalysedPool P} {e : PoolElement P}
    (h : pool'.files.flatten.Perm (pool.files.flatten ++ [e])) :
    pool'.leasedKeys = pool.leasedKeys + (if e.leased then {e.packet.key} else 0) ∧
      pool'.unleasedKeys = pool.unleasedKeys + (if e.leased then 0 else {e.packet.key}) := by
  have hswap : pool'.files.flatten.Perm (e :: pool.files.flatten) := h.trans (List.perm_append_singleton e _)
  have hleased : pool'.leasedKeys = _ := keys_of_taken PoolElement.leased hswap
  have hunleased : pool'.unleasedKeys = _ := keys_of_taken (fun e => !e.leased) hswap
  rw [hleased, hunleased, add_comm pool.leasedKeys, add_comm pool.unleasedKeys]
  refine ⟨rfl, congrArg (· + pool.unleasedKeys) ?_⟩
  cases e.leased <;> rfl

theorem leased_analysedNode {seconds : Int} (hleases : 0 < seconds) (possibility : Packet P) (owner : Option (List Byte))
    (now : Nat) : (⟨possibility, some (analysedNode seconds owner now)⟩ : PoolElement P).leased = owner.isSome := by
  cases owner with
  | none => rfl
  | some uid =>
    have hdeadline : (now : Int) + seconds > 0 := by omega
    unfold PoolElement.leased analysedNode
    dsimp only
    rw [if_pos hleases, decide_eq_true hdeadline]
    rfl

/-- A recording for which there is memory puts one element at the end of the file. -/
theorem AnalysedPool.add_spec (pool : AnalysedPool P) (possibility : Packet P) (hint : Nat) (seconds : Int)
    (owner : Option (List Byte)) {t : RecordingTurn}
    (hfree : (firstFree t.add.free trylockMaxSweeps 0).isSome = true) (helement : t.add.element = true)
    (hnode : t.add.node = true) :
    (pool.add possibility hint seconds owner t).2 = 0 ∧
      (pool.add possibility hint seconds owner t).1.files =
        pool.files.modify hint (· ++ [⟨possibility, some (analysedNode seconds owner t.now)⟩]) := by
  obtain ⟨i, hi⟩ := Option.isSome_iff_exists.mp hfree
  unfold AnalysedPool.add
  rw [hi]
  dsimp only
  rw [if_pos helement]
  refine ⟨rfl, ?_⟩
  dsimp only
  rw [if_pos hnode]

/-- Without the lock nothing is recorded. -/
theorem AnalysedPool.add_refused (pool : AnalysedPool P) (possibility : Packet P) (seconds : Int) {t : RecordingTurn}
    (hbusy : ¬ (firstFree t.add.free trylockMaxSweeps 0).isSome = true) :
    pool.add possibility hint seconds owner t = (pool, -1) := by
  unfold AnalysedPool.add
  rw [Option.not_isSome_iff_eq_none.mp hbusy]

theorem recordBatch_spec (owner : Option (List Byte)) (hleases : 0 < c.analysedLeaseSeconds) (p : Nat) (batch : List (Packet P))
    (analysed : AnalysedPool P) (stock : LocalStock) (hhint : hint < analysed.files.length)
    (hstock : stock.OfPackets P) (hloaded : ∀ q ∈ batch, q.Loaded) (hrecords : RecordsAll turn p batch stock) :
    RecordedBatch hint owner batch analysed stock
      (WorkConnection.recordBatch c hint owner turn p batch analysed stock) := by
  induction batch generalizing p analysed stock with
  | nil =>
    refine ⟨rfl, hstock, fun q hq => hq, ?_, ?_, [], (List.append_nil _).symm, rfl, fun _ h => absurd h List.not_mem_nil⟩
    · unfold unleasedPart
      split <;> rfl
    · unfold unleasedPart
      split <;> exact (add_zero _).symm
  | cons possibility batch ih =>
    obtain ⟨hfirst, hrest⟩ := List.forall_mem_cons.mp hloaded
    unfold RecordsAll at hrecords
    unfold WorkConnection.recordBatch
    dsimp only
    split at hrecords
    · rename_i hfree
      obtain ⟨helement, hnode, hrecords⟩ := hrecords
      obtain ⟨hzero, hfiles⟩ := analysed.add_spec possibility hint c.analysedLeaseSeconds owner hfree
        helement hnode
      rw [if_pos hzero]
      generalize (analysed.add possibility hint c.analysedLeaseSeconds owner (turn p)).1 = pool at hfiles
      have hlength : pool.files.length = analysed.files.length := by rw [hfiles, List.length_modify]
      have hlease := leased_analysedNode hleases possibility owner (turn p).now
      generalize hnew : (⟨possibility, some (analysedNode c.analysedLeaseSeconds owner (turn p).now)⟩ : PoolElement P) =
        new at hfiles hlease
      have hpacket : new.packet = possibility := by rw [← hnew]
      have hindexed : new.node.isSome = true := by
        rw [← hnew]
        rfl
      have hperm : pool.files.flatten.Perm (analysed.files.flatten ++ [new]) := by
        rw [hfiles]
        exact flatten_modify_perm [new] hhint
      have hspec := ih (p + 1) pool stock (by rwa [hlength]) hstock hrest hrecords
      generalize WorkConnection.recordBatch c hint owner turn (p + 1) batch pool stock = r at hspec
      obtain ⟨hleased, hunleased⟩ := keys_of_added hperm
      rw [hlease, hpacket] at hleased hunleased
      refine ⟨hspec.length.trans hlength, hspec.encoded, fun q hq => ?_, ?_, ?_, ?_⟩
      · rcases List.mem_cons.mp hq with rfl | hq
        · exact List.mem_cons_self
        · exact List.mem_cons_of_mem _ (hspec.subset q hq)
      · have hwhole : (if owner.isSome then {possibility.key} else 0 : Multiset (PacketKey P)) +
            (if owner.isSome then 0 else {possibility.key}) = {possibility.key} := by
          split
          · exact add_zero _
          · exact zero_add _
        calc r.stock.keys P + r.analysed.leasedKeys + unleasedPart owner (possibility :: r.kept)
            = r.stock.keys P + r.analysed.leasedKeys + unleasedPart owner r.kept +
                (if owner.isSome then 0 else {possibility.key}) := by
              rw [unleasedPart_cons, add_comm (ite _ _ _), ← add_assoc]
          _ = stock.keys P + analysed.leasedKeys + packetKeys batch +
                ((if owner.isSome then {possibility.key} else 0) + (if owner.isSome then 0 else {possibility.key})) := by
              rw [hspec.leased, hleased]
              ac_rfl
          _ = stock.keys P + analysed.leasedKeys + packetKeys (possibility :: batch) := by
              rw [hwhole, packetKeys_cons]
              ac_rfl
      · rw [hspec.unleased, hunleased, unleasedPart_cons, add_assoc]
      · obtain ⟨others, hends, hmap, hothers⟩ := hspec.ends
        refine ⟨new :: others, ?_, ?_, ?_⟩
        · rw [hends, hfiles, List.getD_eq_getElem _ _ (by rwa [List.length_modify]), List.getElem_modify_eq,
            List.getD_eq_getElem _ _ hhint, List.append_assoc]
          rfl
        · rw [List.map_cons, hpacket, hmap]
        · exact List.forall_mem_cons.mpr ⟨⟨hindexed, hlease⟩, hothers⟩
    · rename_i hbusy
      obtain ⟨htakes, hrecords⟩ := hrecords
      rw [analysed.add_refused possibility c.analysedLeaseSeconds hbusy, if_neg (show ¬ (-1 : Int) = 0 by decide)]
      have hkeys := keys_takesBack hfirst htakes
      have hspec := ih (p + 1) analysed _ hhint (ofPackets_putToLocal hstock) hrest hrecords
      refine ⟨hspec.length, hspec.encoded, fun q hq => List.mem_cons_of_mem _ (hspec.subset q hq), ?_, hspec.unleased,
        hspec.ends⟩
      rw [hspec.leased, hkeys, packetKeys_cons, ← add_assoc]
      refine congrArg (· + packetKeys batch) ?_
      rw [add_assoc, add_assoc, add_comm analysed.leasedKeys]

end Recording

/-! ## The invariant -/

section Connection

variable {P : Puzzle} {c : WorkConfig} {start w w' : WorkConnection P} {left : List (Packet P)} {possibility : Packet P}

/-- A key that moves from under a lease, or from the packets without an owner, to somewhere else. -/
theorem kept_of_removed {A S L L' K O O' : Multiset (PacketKey P)} {k : PacketKey P} (hkept : A ≤ S + L + K + O)
    (hleased : L + O ≤ L' + {k} + O') : A ≤ S + L' + K + O' + {k} :=
  calc A ≤ S + K + (L + O) := hkept.trans (le_of_eq (by ac_rfl))
    _ ≤ S + K + (L' + {k} + O') := Multiset.add_le_add_iff_left.mpr hleased
    _ = S + L' + K + O' + {k} := by ac_rfl

theorem stray_of_removed {U U' V O O' : Multiset (PacketKey P)} (hstray : U ≤ V + O) (hunleased : U' + O ≤ U + O') :
    U' ≤ V + O' := by
  have hsum : U' + O ≤ V + O' + O :=
    calc U' + O ≤ U + O' := hunleased
      _ ≤ V + O + O' := Multiset.add_le_add_iff_right.mpr hstray
      _ = V + O' + O := by ac_rfl
  exact Multiset.add_le_add_iff_right.mp hsum

/-- The packets recorded without an owner are the only ones not accounted for: they stand at the end of
the file of the connection, and they are among those that can still go back. -/
structure ConnectionInv (c : WorkConfig) (start : WorkConnection P) (left : List (Packet P)) (w : WorkConnection P) :
    Prop where
  encoded : w.stock.OfPackets P
  loaded : ∀ p ∈ left, p.Loaded
  sent : packetKeys w.unowned ≤ packetKeys left
  ends : EndsWith (w.analysed.files.getD (w.fileHint c) []) w.unowned
  kept : start.stock.keys P + start.analysed.leasedKeys ≤
    w.stock.keys P + w.analysed.leasedKeys + packetKeys w.acked + packetKeys w.unowned
  stray : w.analysed.unleasedKeys ≤ start.analysed.unleasedKeys + packetKeys w.unowned

theorem packetKeys_eq_zero {packets : List (Packet P)} : packetKeys packets = 0 ↔ packets = [] := by
  unfold packetKeys
  rw [Multiset.coe_eq_zero, List.map_eq_nil_iff]

theorem ConnectionInv.unowned_eq_nil (h : ConnectionInv c start [] w) : w.unowned = [] :=
  packetKeys_eq_zero.mp (Multiset.le_zero.mp h.sent)

theorem ConnectionInv.accounted (h : ConnectionInv c start left w) (hnone : w.unowned = []) : Accounted start w := by
  have hkept := h.kept
  have hstray := h.stray
  rw [hnone, packetKeys_nil, add_zero] at hkept hstray
  exact ⟨hkept, hstray⟩

theorem fileHint_lt (w : WorkConnection P) : w.fileHint c < w.analysed.files.length :=
  Nat.mod_lt _ w.analysed.files_pos

theorem fileHint_congr (h : w'.analysed.files.length = w.analysed.files.length) : w'.fileHint c = w.fileHint c :=
  congrArg (c.compteur % ·) h

theorem not_mem_packetKeys {packets : List (Packet P)} (h : ∀ q ∈ packets, comparePossibility q possibility ≠ 0) :
    possibility.key ∉ packetKeys packets := by
  intro hmem
  obtain ⟨q, hq, hkey⟩ := List.mem_map.mp (Multiset.mem_coe.mp hmem)
  exact h q hq (comparePossibility_eq_zero.mpr hkey)

/-- Without the packet that has just been looked at, what is left still covers the others. -/
theorem packetKeys_le_of_erase {packets : List (Packet P)}
    (h : packetKeys packets ≤ packetKeys (possibility :: left)) :
    packetKeys (eraseLastP (fun q => comparePossibility q possibility = 0) packets) ≤ packetKeys left := by
  rw [packetKeys_cons] at h
  rcases packetKeys_eraseLastP possibility packets with ⟨-, hkeys⟩ | ⟨hnone, hsame⟩
  · rw [hkeys] at h
    exact Multiset.add_le_add_iff_left.mp h
  · rw [hsame]
    rw [Multiset.singleton_add] at h
    exact (Multiset.le_cons_of_notMem (not_mem_packetKeys hnone)).mp h

theorem packetKeys_erase_le (packets : List (Packet P)) :
    packetKeys (eraseLastP (fun q => comparePossibility q possibility = 0) packets) ≤ packetKeys packets := by
  rcases packetKeys_eraseLastP possibility packets with ⟨-, hkeys⟩ | ⟨-, hsame⟩
  · rw [hkeys]
    exact Multiset.le_add_left _ _
  · rw [hsame]

theorem ConnectionInv.acknowledge (h : ConnectionInv c start left w) (possibility : Packet P) (free : Nat → Bool) :
    ConnectionInv c start left (w.acknowledge c possibility free) := by
  have hremoval := w.analysed.remove_spec possibility free (fileHint_lt (c := c) w) h.ends
  unfold WorkConnection.acknowledge
  dsimp only
  generalize w.analysed.remove possibility (w.fileHint c) free = removed at hremoval
  cases hremoval with
  | timeout => exact h
  | absent _ => exact h
  | removed pool' e key perm length ends mine =>
    obtain ⟨hleased, hunleased⟩ := counts_of_removed key perm mine
    rw [if_pos rfl]
    refine ⟨h.encoded, h.loaded, (packetKeys_erase_le w.unowned).trans h.sent, ?_, ?_, ?_⟩
    · rw [fileHint_congr (w := w) length]
      exact ends
    · refine (kept_of_removed h.kept hleased).trans (le_of_eq ?_)
      rw [packetKeys_cons]
      ac_rfl
    · exact stray_of_removed h.stray hunleased

theorem ConnectionInv.acknowledgeBatch (h : ConnectionInv c start left w) (free : Nat → Nat → Bool) (p : Nat)
    (packets : List (Packet P)) : ConnectionInv c start left (WorkConnection.acknowledgeBatch c free p packets w) := by
  induction packets generalizing p w with
  | nil => exact h
  | cons possibility packets ih => exact ih (h.acknowledge possibility (free p)) (p + 1)

/-- A packet of the last batch that is looked for and, if it is found, taken by the stock. -/
theorem ConnectionInv.requeueOne (h : ConnectionInv c start (possibility :: left) w) {t : RequeueTurn}
    (hsearched : (w.analysed.remove possibility (w.fileHint c) t.free).2 ≠ -1)
    (htakes : (w.analysed.remove possibility (w.fileHint c) t.free).2 = 0 →
      w.stock.TakesBack possibility t.freeUnchecked t.freeChecked) :
    ConnectionInv c start left (w.requeueOne c t possibility) := by
  obtain ⟨hfirst, hrest⟩ := List.forall_mem_cons.mp h.loaded
  have hremoval := w.analysed.remove_spec possibility t.free (fileHint_lt (c := c) w) h.ends
  have hsent := packetKeys_le_of_erase h.sent
  unfold WorkConnection.requeueOne
  dsimp only
  generalize w.analysed.remove possibility (w.fileHint c) t.free = removed at hremoval hsearched htakes
  cases hremoval with
  | timeout => exact absurd rfl hsearched
  | absent unmatched =>
    rw [if_pos rfl]
    rw [eraseLastP_eq_self fun q hq => decide_eq_false (unmatched q hq)] at hsent
    exact ⟨h.encoded, hrest, hsent, h.ends, h.kept, h.stray⟩
  | removed pool' e key perm length ends mine =>
    obtain ⟨hleased, hunleased⟩ := counts_of_removed key perm mine
    have hkeys := keys_takesBack hfirst (htakes rfl)
    rw [if_neg (show ¬ (0 : Int) = 1 by decide), if_pos rfl]
    refine ⟨ofPackets_putToLocal h.encoded, hrest, hsent, ?_, ?_, ?_⟩
    · rw [fileHint_congr (w := w) length]
      exact ends
    · dsimp only
      refine (kept_of_removed h.kept hleased).trans (le_of_eq ?_)
      rw [hkeys]
      ac_rfl
    · exact stray_of_removed h.stray hunleased

/-- After the whole batch nothing is left that is not accounted for. -/
theorem ConnectionInv.requeueLoop {turn : Nat → RequeueTurn} {rp : Nat} (h : ConnectionInv c start left w)
    (hgives : w.GivesBack c turn rp left) :
    ConnectionInv c start [] (WorkConnection.requeueLoop c turn rp left w) := by
  induction left generalizing rp w with
  | nil => exact h
  | cons possibility left ih =>
    obtain ⟨hsearched, htakes, hrest⟩ := hgives
    exact ih (h.requeueOne hsearched htakes) hrest

/-- A batch is served when everything served before it is accounted for. -/
theorem ConnectionInv.serve (hleases : 0 < c.analysedLeaseSeconds) (h : ConnectionInv c start left w)
    (hnone : w.unowned = []) {maxResult : Int} {found : Option (Bool × Nat)} {turn : Nat → RecordingTurn}
    (hrecords : RecordsAll turn 0 (scrollFromLocal P w.stock maxResult found).1
      (scrollFromLocal P w.stock maxResult found).2) :
    ∀ w', w' = w.serve c (scrollFromLocal P w.stock maxResult found) turn →
      ConnectionInv c start (w'.lastSent.getD []) w' := by
  rintro _ rfl
  obtain ⟨hkeys, hencoded, hloaded⟩ := scrollFromLocal_keys h.encoded maxResult found
  have hspec := recordBatch_spec w.owner hleases 0 _ w.analysed _ (fileHint_lt (c := c) w) hencoded hloaded
    hrecords
  unfold WorkConnection.serve
  dsimp only
  generalize scrollFromLocal P w.stock maxResult found = taken at hkeys hloaded hspec
  generalize WorkConnection.recordBatch c (w.fileHint c) w.owner turn 0 taken.1 w.analysed taken.2 = r at hspec
  have hkept := h.kept
  have hstray := h.stray
  rw [hnone, packetKeys_nil, add_zero] at hkept hstray
  -- What is added to the packets without an owner is what is added to the pool without a lease.
  have hunowned : packetKeys (if w.hasIdentity then w.unowned else w.unowned ++ r.kept) = unleasedPart w.owner r.kept := by
    rw [hnone]
    unfold unleasedPart WorkConnection.owner
    cases w.hasIdentity <;> rfl
  refine ⟨hspec.encoded, fun p hp => hloaded p (hspec.subset p hp), ?_, ?_, ?_, ?_⟩
  · dsimp only
    rw [hunowned]
    unfold unleasedPart
    split
    · exact Multiset.zero_le _
    · exact le_refl _
  · obtain ⟨new, hends, hmap, hnew⟩ := hspec.ends
    rw [fileHint_congr (w := w) hspec.length]
    dsimp only
    rw [hends, hnone]
    unfold WorkConnection.owner at hnew
    cases hidentity : w.hasIdentity with
    | true => exact endsWith_nil _
    | false =>
      rw [hidentity] at hnew
      exact ⟨_, new, rfl, hmap, hnew⟩
  · dsimp only
    rw [hunowned]
    calc start.stock.keys P + start.analysed.leasedKeys
        ≤ w.stock.keys P + w.analysed.leasedKeys + packetKeys w.acked := hkept
      _ = taken.2.keys P + w.analysed.leasedKeys + packetKeys taken.1 + packetKeys w.acked := by
        rw [hkeys]
        ac_rfl
      _ = r.stock.keys P + r.analysed.leasedKeys + packetKeys w.acked + unleasedPart w.owner r.kept := by
        rw [← hspec.leased]
        ac_rfl
  · dsimp only
    rw [hunowned, hspec.unleased]
    exact Multiset.add_le_add_iff_right.mpr hstray

@[simp] theorem lastSent_acknowledge (w : WorkConnection P) (possibility : Packet P) (free : Nat → Bool) :
    (w.acknowledge c possibility free).lastSent = w.lastSent := by
  unfold WorkConnection.acknowledge
  dsimp only
  split <;> rfl

@[simp] theorem lastSent_acknowledgeBatch (w : WorkConnection P) (free : Nat → Nat → Bool) (p : Nat)
    (packets : List (Packet P)) : (WorkConnection.acknowledgeBatch c free p packets w).lastSent = w.lastSent := by
  induction packets generalizing p w with
  | nil => rfl
  | cons possibility packets ih => rw [WorkConnection.acknowledgeBatch, ih, lastSent_acknowledge]

theorem ConnectionInv.answer (hleases : 0 < c.analysedLeaseSeconds)
    (h : ConnectionInv c start (w.lastSent.getD []) w) {r : WorkRequest P} (hsettles : r.Settles w) :
    ConnectionInv c start ((w.answer c r).1.lastSent.getD []) (w.answer c r).1 := by
  cases r with
  | get found turn => exact h.serve hleases hsettles.1 hsettles.2 _ rfl
  | getToCheck found turn => exact h.serve hleases hsettles.1 hsettles.2 _ rfl
  | getToCheckBatch requested found turn =>
    cases requested with
    | none => exact h
    | some requested => exact h.serve hleases hsettles.1 hsettles.2 _ rfl
  | possibilityAnalysed possibility free =>
    cases possibility with
    | none => exact h
    | some possibility =>
      have hacked := h.acknowledge possibility free
      rwa [← lastSent_acknowledge] at hacked
  | possibilityAnalysedBatch m packets free =>
    cases m with
    | none => exact h
    | some m =>
      unfold WorkConnection.answer
      dsimp only
      split
      · exact h
      · dsimp only
        rw [lastSent_acknowledgeBatch]
        exact h.acknowledgeBatch free 0 _
  | clientHello len buf =>
    cases len with
    | none => exact h
    | some len =>
      unfold WorkConnection.answer
      dsimp only
      split
      · exact h
      · split
        · exact h
        · exact ⟨h.encoded, h.loaded, h.sent, h.ends, h.kept, h.stray⟩

/-- While the connection lasts the invariant holds, and afterwards everything is accounted for. -/
def ConnectionKept (c : WorkConfig) (start w : WorkConnection P) : Prop :=
  (w.phase ≠ .ended → ConnectionInv c start (w.lastSent.getD []) w) ∧ (w.phase = .ended → Accounted start w)

theorem ConnectionInv.disconnect (h : ConnectionInv c start (w.lastSent.getD []) w) {alive : List Byte → Bool}
    {turn : Nat → RequeueTurn} (hsettles : ConnectionStep.Settles c w (.disconnect alive turn)) :
    Accounted start (w.requeueLastSentPossibility c alive turn) := by
  simp only [ConnectionStep.Settles] at hsettles
  unfold WorkConnection.requeueLastSentPossibility
  cases hsent : w.lastSent with
  | none =>
    rw [hsent] at h
    exact h.accounted h.unowned_eq_nil
  | some lastSent =>
    dsimp only
    split at hsettles
    · rename_i halive
      rw [if_pos halive]
      exact h.accounted hsettles
    · rename_i hgone
      rw [if_neg hgone]
      rw [hsent] at h hsettles
      have hreturned := h.requeueLoop hsettles
      exact hreturned.accounted hreturned.unowned_eq_nil

theorem ConnectionKept.step (hleases : 0 < c.analysedLeaseSeconds) (h : ConnectionKept c start w)
    {a : ConnectionStep P} (hsettles : a.Settles c w) (hstep : w.step c a = some w') : ConnectionKept c start w' := by
  cases a with
  | instruction i =>
    obtain ⟨hopen, heq⟩ := Option.ite_none_right_eq_some.mp hstep
    have hinv := h.1 (by rw [hopen]; exact fun heq => by cases heq)
    have hanswered : ConnectionInv c start ((w.communicateWithClientStep c i).1.lastSent.getD [])
        (w.communicateWithClientStep c i).1 := by
      cases i with
      | checkVersion clientVersion =>
        cases clientVersion with
        | none => exact hinv
        | some clientVersion => exact ⟨hinv.encoded, hinv.loaded, hinv.sent, hinv.ends, hinv.kept, hinv.stray⟩
      | request r =>
        unfold WorkConnection.communicateWithClientStep
        dsimp only
        split
        · rename_i hsupported
          exact hinv.answer hleases (hsettles hsupported)
        · exact hinv
    cases heq
    refine ⟨fun _ => ?_, fun hended => ?_⟩
    · exact ⟨hanswered.encoded, hanswered.loaded, hanswered.sent, hanswered.ends, hanswered.kept, hanswered.stray⟩
    · dsimp only at hended
      split at hended <;> cases hended
  | disconnect alive turn =>
    obtain ⟨hphase, heq⟩ := Option.ite_none_left_eq_some.mp hstep
    have hended := (h.1 hphase).disconnect hsettles
    cases heq
    exact ⟨fun hne => absurd rfl hne, fun _ => ⟨hended.kept, hended.stray⟩⟩

theorem connectionKept_accepted {stock : LocalStock} (hstock : stock.OfPackets P) (analysed : AnalysedPool P)
    (identity : ClientIdentity) :
    ConnectionKept c (.accepted stock analysed identity) (.accepted stock analysed identity) := by
  refine ⟨fun _ => ⟨hstock, fun p hp => absurd hp List.not_mem_nil, le_refl _, endsWith_nil _, ?_, ?_⟩,
    fun hended => by cases hended⟩
  · unfold WorkConnection.accepted
    dsimp only
    rw [packetKeys_nil, add_zero, add_zero]
  · exact Multiset.le_add_right _ _

end Connection

/-- A lease is what a reclaim takes back, once it has expired and its owner is gone. -/
theorem leased_iff_hasWayBack {P : Puzzle} (e : PoolElement P) : e.leased = true ↔ e.HasWayBack := by
  unfold PoolElement.HasWayBack PoolElement.leased PoolElement.reclaimable
  cases e.node with
  | none =>
    refine iff_of_false Bool.false_ne_true fun ⟨deadline, h⟩ => ?_
    exact Bool.false_ne_true (h deadline (le_refl _) (fun _ => false) fun _ _ => rfl)
  | some node =>
    dsimp only
    unfold analysedLeaseIsExpired
    constructor
    · intro hleased
      rw [Bool.and_eq_true, decide_eq_true_iff] at hleased
      refine ⟨node.leaseDeadline, fun now hnow ownerAlive hgone => ?_⟩
      rw [hleased.1, if_neg (Int.not_le.mpr hleased.2), decide_eq_true hnow, hgone node rfl]
      rfl
    · rintro ⟨deadline, h⟩
      have hreclaimed := h deadline (le_refl _) (fun _ => false) fun _ _ => rfl
      rw [Bool.and_eq_true, Bool.and_eq_true] at hreclaimed
      obtain ⟨⟨howner, hexpired⟩, -⟩ := hreclaimed
      rw [howner, Bool.true_and, decide_eq_true_iff]
      split at hexpired
      · exact absurd hexpired Bool.false_ne_true
      · rename_i hpos
        exact Int.not_le.mp hpos

/-- With leases enabled, a run whose steps forget no packet accounts for all of them when the connection
has ended, and what is under a lease has a way back. -/
theorem workConnection_accounted {P : Puzzle} (c : WorkConfig) (hleases : 0 < c.analysedLeaseSeconds)
    (stock : LocalStock) (hstock : stock.OfPackets P) (analysed : AnalysedPool P) (identity : ClientIdentity)
    (w : WorkConnection P)
    (hrun : Run (WorkConnection.step c) (fun w a => a.Settles c w) (.accepted stock analysed identity) w)
    (hended : w.phase = .ended) : Accounted (.accepted stock analysed identity) w ∧
      ∀ e ∈ w.analysed.files.flatten, e.leased = true ↔ e.HasWayBack :=
  ⟨(hrun.invariant (connectionKept_accepted hstock analysed identity)
    fun h hsettles hstep => h.step hleases hsettles hstep).2 hended, fun e _ => leased_iff_hasWayBack e⟩

namespace Frame

/-- A recording that finds the lock free and the memory there. -/
def recorded : Nat → RecordingTurn := fun _ => ⟨⟨fun _ => true, true, true⟩, 1000, fun _ => true, fun _ => true⟩

/-- A search and a return that find the locks free. -/
def requeued : Nat → RequeueTurn := fun _ => ⟨fun _ => true, fun _ => true, fun _ => true⟩

/-- A server of this version with leases of an hour. -/
def workConfig : WorkConfig := ⟨14, 3600, 3⟩

/-- Two packets in stock and nothing under analysis. -/
def twoPackets : LocalStock := (putToLocal .empty [root, rootForced] (fun _ => true) (fun _ => true)).1

/-- A connection to that server. -/
def connection : WorkConnection .p16 := .accepted twoPackets ⟨[[]], false, Nat.one_pos⟩ ⟨[], [], [], 0, []⟩

/-- The client says who it is. -/
def hello : ConnectionStep .p16 := .instruction (.request (.clientHello (some 38) (List.replicate 38 0)))

/-- The client says which version it has. -/
def greet : ConnectionStep .p16 := .instruction (.checkVersion (some 14))

/-- The client asks for a packet. -/
def ask : ConnectionStep .p16 := .instruction (.request (.get (some (false, 0)) recorded))

/-- The connection ends; the client has a control session or not. -/
def leave (alive : Bool) : ConnectionStep .p16 := .disconnect (fun _ => alive) requeued

theorem recordsAll_recorded {P : Puzzle} (p : Nat) (batch : List (Packet P)) (stock : LocalStock) :
    RecordsAll recorded p batch stock := by
  induction batch generalizing p with
  | nil => trivial
  | cons possibility batch ih =>
    unfold RecordsAll
    rw [if_pos (by rfl)]
    exact ⟨rfl, rfl, ih (p + 1)⟩

theorem twoPackets_ofPackets : twoPackets.OfPackets .p16 := putToLocal_ofPackets _ _ _

end Frame

/-- A client says who it is, asks for a packet and leaves its connection while it stays alive: the packet
is under a lease. -/
theorem workConnection_accounted_alive : ∃ w : WorkConnection .p16,
    Run.exec (WorkConnection.step Frame.workConfig) Frame.connection
      [Frame.greet, Frame.hello, Frame.ask, Frame.leave true] = some w ∧
    (w.analysed.files.flatten.filter PoolElement.leased).length = 1 ∧ Accounted Frame.connection w := by
  have hgreet : ConnectionStep.Settles Frame.workConfig Frame.connection Frame.greet := trivial
  refine ⟨_, rfl, by decide +kernel, (workConnection_accounted Frame.workConfig (by decide) Frame.twoPackets
    Frame.twoPackets_ofPackets ⟨[[]], false, Nat.one_pos⟩ ⟨[], [], [], 0, []⟩ _ ?_ rfl).1⟩
  refine .tail (a := Frame.leave true) (.tail (a := Frame.ask) (.tail (a := Frame.hello)
    (.tail (a := Frame.greet) .refl hgreet rfl) ?_ rfl) ?_ rfl) ?_ rfl
  · exact fun _ => trivial
  · exact fun _ => ⟨rfl, Frame.recordsAll_recorded 0 _ _⟩
  · exact rfl

theorem Accounted.length_le {P : Puzzle} {start w : WorkConnection P} (h : Accounted start w) :
    (start.stock.records.filterMap (recordKey P)).length ≤
      w.stock.records.length + (w.analysed.files.flatten.filter PoolElement.leased).length + w.acked.length := by
  have hcard := Multiset.card_le_card ((Multiset.le_add_right _ _).trans h.kept)
  rw [Multiset.card_add, Multiset.card_add] at hcard
  unfold LocalStock.keys AnalysedPool.leasedKeys AnalysedPool.keys packetKeys at hcard
  rw [Multiset.coe_card, Multiset.coe_card, Multiset.coe_card, Multiset.coe_card, List.length_map, List.length_map] at hcard
  have hrecords := List.length_filterMap_le (recordKey P) w.stock.records
  omega

/-- A client that has not said who it is asks twice, and the first packet is forgotten. So is a packet that
it asks for before it says who it is, if it then leaves its connection and stays alive. -/
theorem workConnection_forgets :
    (∃ w, Run.exec (WorkConnection.step Frame.workConfig) Frame.connection
        [Frame.greet, Frame.ask, Frame.ask, Frame.leave false] = some w ∧ w.phase = .ended ∧
      ¬ Accounted Frame.connection w) ∧
    ∃ w, Run.exec (WorkConnection.step Frame.workConfig) Frame.connection
        [Frame.greet, Frame.ask, Frame.hello, Frame.leave true] = some w ∧ w.phase = .ended ∧
      ¬ Accounted Frame.connection w :=
  ⟨⟨_, rfl, rfl, fun h => absurd h.length_le (by decide +kernel)⟩,
    ⟨_, rfl, rfl, fun h => absurd h.length_le (by decide +kernel)⟩⟩
