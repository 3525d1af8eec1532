-- SUMMARY: The server's stock and analysed pool with its clients and the reclaim of expired leases.
import EternityII.Base.Leases
import EternityII.Stock.AddPossibility
import Mathlib.Data.Fintype.Defs
import Mathlib.Data.List.GetD

/-!
# Reclaiming expired leases

A packet a client has asked for waits in the analysed pool until the client acknowledges it. A
lease that has expired is taken back: file by file its packets leave the analysed pool and go
back into the stock one at a time; then the descendants of all of them are purged, first from
the analysed pool and then from the stock. All locks are released between these steps.

The purge relies on the packets put back. A client that has received such a packet in the
meantime, or held it all along, can acknowledge it after its descendants have been purged, and
nothing is left of the subtree.
-/

/-! ## Comparing packets -/

section Compare

variable {P : Puzzle}

/-- `compare_possibility`. -/
def comparePossibility (packet other : Packet P) : Int :=
  if packet.alloc ≠ other.alloc then -2
  else if packet.x ≠ other.x ∨ packet.y ≠ other.y then -3
  else if (List.range P.eternParts).any fun u =>
      isFaceUsed packet.bFaceused u != isFaceUsed other.bFaceused u then -4
  else if (Cell.all P).any fun c => packet.grid c != other.grid c then -5
  else 0

/-- `is_origin_of`. -/
def isOriginOf (packet other : Packet P) : Int :=
  if packet.alloc ≥ other.alloc then -1
  else if (Cell.all P).any fun c => packet.grid c != -2 && packet.grid c != other.grid c then -2
  else 1

/-- `is_descendant_of_any`. -/
def isDescendantOfAny (origins : List (Packet P)) (candidate : Packet P) : Bool :=
  origins.any fun origin => isOriginOf origin candidate = 1

end Compare

/-! ## The server -/

/-- An element of the analysed pool with the node that indexes it. -/
structure AnalysedElement (P : Puzzle) where
  packet : Packet P
  hasOwner : Bool
  ownerUid : Nat
  leaseDeadline : Int

/-- A client and the packet it is working on: what it has handed back for it so far, and whether
a packet that was reclaimed meanwhile is this packet or an origin of it. -/
structure Client (P : Puzzle) where
  packet : Packet P
  handed : List (Packet P)
  overtaken : Bool

/-- Where `datamanager_reclaim_expired_leases` stands: before the file `f`, putting back the
packets of the file `f`, or between the two halves of the purge. It has reclaimed the packets
of `reclaimed` so far; `accumulationOk` says whether it could remember them. -/
inductive ReclaimPhase (P : Puzzle) where
  | idle
  | scanning (now : Int) (f : Nat) (reclaimed : List (Packet P)) (accumulationOk : Bool)
  | putting (now : Int) (f : Nat) (buf : List (Packet P)) (reclaimed : List (Packet P)) (accumulationOk : Bool)
  | purging (reclaimed : List (Packet P))

namespace ReclaimPhase

variable {P : Puzzle}

/-- The packets reclaimed so far. -/
def reclaimed : ReclaimPhase P → List (Packet P)
  | idle => []
  | scanning _ _ reclaimed _ => reclaimed
  | putting _ _ _ reclaimed _ => reclaimed
  | purging reclaimed => reclaimed

/-- The packets that are in neither pool. -/
def buf : ReclaimPhase P → List (Packet P)
  | putting _ _ buf _ _ => buf
  | _ => []

end ReclaimPhase

/-- The server, its clients, and the boards handed to `record_solution`. -/
structure Server (P : Puzzle) where
  stock : LocalStock
  analysed : List (List (AnalysedElement P))
  reclaim : ReclaimPhase P
  clients : List (Client P)
  recorded : List (Packet P)

/-- The critical sections of the server. A `GET` takes one record of the stock, an `ADD` puts a
batch into it, and an acknowledgement takes a packet out of the analysed pool; the others are
those of a reclaim, in their order. -/
inductive ServerStep (P : Puzzle) where
  | get (wantChecked : Bool) (file index dest : Nat) (owner : Option (Nat × Int))
  | add (client : Nat) (packets : List (Packet P)) (freeUnchecked freeChecked : Nat → Bool)
  | solution (board : Packet P)
  | ack (client preferredFile : Nat)
  | reclaimStart (now : Int)
  | reclaimFile (ownerAlive : Option (Nat → Bool)) (alloc : Bool)
  | putBack (dest : Nat)
  | accumulate (alloc : Bool)
  | purgeAnalysed
  | purgeStock
  | reclaimEnd

section Step

variable {P : Puzzle}

/-- `analysed_lease_is_expired`. -/
def analysedLeaseIsExpired (leaseDeadline now : Int) : Bool :=
  if leaseDeadline ≤ 0 then false else now ≥ leaseDeadline

/-- The leases `datamanager_reclaim_expired_leases` takes back. -/
def AnalysedElement.reclaimable (now : Int) (ownerAlive : Option (Nat → Bool)) (e : AnalysedElement P) :
    Bool :=
  e.hasOwner && analysedLeaseIsExpired e.leaseDeadline now &&
    match ownerAlive with
    | none => true
    | some alive => !alive e.ownerUid

/-- The packet is one of the reclaimed ones or descends from one. -/
def overtakes (reclaimed : List (Packet P)) (packet : Packet P) : Bool :=
  reclaimed.any fun q => comparePossibility q packet = 0 || isOriginOf q packet = 1

/-- The element `analysed_index_find_and_remove` finds: the one added last. -/
def removeLast (file : List (AnalysedElement P)) (possibility : Packet P) : List (AnalysedElement P) :=
  (file.reverse.eraseP fun e => comparePossibility e.packet possibility = 0).reverse

/-- `remove_possibility_analysed` on all files from the preferred one on. -/
def removePossibilityAnalysed (analysed : List (List (AnalysedElement P))) (possibility : Packet P)
    (preferredFile : Nat) : List (List (AnalysedElement P)) :=
  let scanStart := if preferredFile < analysed.length then preferredFile else 0
  match ((List.range analysed.length).map fun step => (scanStart + step) % analysed.length).find? fun f =>
      (analysed.getD f []).any fun e => comparePossibility e.packet possibility = 0 with
  | none => analysed
  | some f => analysed.modify f (removeLast · possibility)

/-- A pool without one of its records. -/
def Pool.take (pool : Pool) (file index : Nat) : Pool :=
  { pool with
    files := pool.files.modify file (·.eraseIdx index)
    files_pos := by rw [List.length_modify]; exact pool.files_pos }

/-- `put_back_to_stock` once the file `dest` of the pool is locked. -/
def putBackToStock (stock : LocalStock) (pk : Packet P) (dest : Nat) : LocalStock :=
  let pool := stock.pool (pk.checked != 0)
  stock.setPool (pk.checked != 0)
    { pool with
      files := pool.files.modify dest (poolPut · pk)
      files_pos := by rw [List.length_modify]; exact pool.files_pos }

/-- A pool without the descendants of some packets. -/
def Pool.purge (pool : Pool) (origins : List (Packet P)) : Pool :=
  { pool with
    files := pool.files.map fun file => file.filter fun record =>
      match recordPacket P record with
      | none => true
      | some candidate => !isDescendantOfAny origins candidate
    files_pos := by rw [List.length_map]; exact pool.files_pos }

/-- One step; `none` where the step cannot be taken. -/
def Server.step (s : Server P) : ServerStep P → Option (Server P)
  | .get wantChecked file index dest owner =>
    let pool := s.stock.pool wantChecked
    match (pool.files.getD file [])[index]? with
    | none => none
    | some record =>
      match recordPacket P record with
      | none => none
      | some packet =>
        if dest < s.analysed.length then
          some { s with
            stock := s.stock.setPool wantChecked (pool.take file index)
            analysed := s.analysed.modify dest
              (· ++ [⟨packet, owner.isSome, (owner.getD (0, 0)).1, (owner.getD (0, 0)).2⟩])
            clients := s.clients ++ [⟨packet, [], overtakes s.reclaim.reclaimed packet⟩] }
        else none
  | .add client packets freeUnchecked freeChecked =>
    match s.clients[client]? with
    | none => none
    | some c =>
      let put := putToLocal s.stock packets freeUnchecked freeChecked
      some { s with
        stock := put.1
        clients := if put.2 = .ok then s.clients.set client { c with handed := c.handed ++ packets }
          else s.clients }
  | .solution board => some { s with recorded := s.recorded ++ [board] }
  | .ack client preferredFile =>
    match s.clients[client]? with
    | none => none
    | some c => some { s with
        analysed := removePossibilityAnalysed s.analysed c.packet preferredFile
        clients := s.clients.eraseIdx client }
  | .reclaimStart now =>
    match s.reclaim with
    | .idle => some { s with reclaim := .scanning now 0 [] true }
    | _ => none
  | .reclaimFile ownerAlive alloc =>
    match s.reclaim with
    | .scanning now f reclaimed ok =>
      if f < s.analysed.length then
        let victim (e : AnalysedElement P) := alloc && e.reclaimable now ownerAlive
        let taken := ((s.analysed.getD f []).filter victim).map AnalysedElement.packet
        some { s with
          analysed := s.analysed.modify f (·.filter fun e => !victim e)
          reclaim := .putting now f taken (reclaimed ++ taken) ok
          clients := s.clients.map fun c => { c with overtaken := c.overtaken || overtakes taken c.packet } }
      else none
    | _ => none
  | .putBack dest =>
    match s.reclaim with
    | .putting now f (pk :: buf) reclaimed ok =>
      if dest < (s.stock.pool (pk.checked != 0)).files.length then
        some { s with
          stock := putBackToStock s.stock pk dest
          reclaim := .putting now f buf reclaimed ok }
      else none
    | _ => none
  | .accumulate alloc =>
    match s.reclaim with
    | .putting now f [] reclaimed ok => some { s with reclaim := .scanning now (f + 1) reclaimed (ok && alloc) }
    | _ => none
  | .purgeAnalysed =>
    match s.reclaim with
    | .scanning _ f reclaimed true =>
      if f < s.analysed.length ∨ reclaimed.length = 0 then none
      else some { s with
        analysed := s.analysed.map fun file => file.filter fun e => !isDescendantOfAny reclaimed e.packet
        reclaim := .purging reclaimed }
    | _ => none
  | .purgeStock =>
    match s.reclaim with
    | .purging reclaimed => some { s with
        stock := { s.stock with
          unchecked := s.stock.unchecked.purge reclaimed
          checked := s.stock.checked.purge reclaimed }
        reclaim := .idle }
    | _ => none
  | .reclaimEnd =>
    match s.reclaim with
    | .scanning _ f reclaimed ok =>
      if f < s.analysed.length then none
      else if ok && reclaimed.length > 0 then none
      else some { s with reclaim := .idle }
    | _ => none

end Step

/-! ## Solutions below a packet -/

/-- The solutions of the puzzle that extend a grid. -/
def Grid.solutions {P : Puzzle} (ps : PieceSet P) (g : Grid P) : Set (Grid P) :=
  {b | Grid.IsCompletion ps (fun _ => -2) b ∧ ∀ c, g c ≠ -2 → b c = g c}

/-- The solution has been recorded. -/
def Server.Recorded {P : Puzzle} (s : Server P) (b : Grid P) : Prop := ∃ q ∈ s.recorded, q.grid = b

/-- The solution is below a packet of the stock or of the analysed pool, or recorded. -/
def Server.Covers {P : Puzzle} (ps : PieceSet P) (s : Server P) (b : Grid P) : Prop :=
  s.Recorded b ∨ (∃ record ∈ s.stock.records, ∃ q, recordPacket P record = some q ∧ b ∈ q.grid.solutions ps) ∨
    ∃ e ∈ s.analysed.flatten, b ∈ e.packet.grid.solutions ps

/-- Before it acknowledges a packet a client has handed back or recorded everything below it. -/
def ServerStep.Honest {P : Puzzle} (ps : PieceSet P) (s : Server P) : ServerStep P → Prop
  | .ack client _ => ∀ c, s.clients[client]? = some c → ∀ b ∈ c.packet.grid.solutions ps,
      s.Recorded b ∨ ∃ d ∈ c.handed, b ∈ d.grid.solutions ps
  | _ => True

/-- An acknowledgement of a client whose packet, or an origin of it, has been reclaimed since the
client received it, or by the reclaim that was under way then, removes no lease. -/
def ServerStep.Undisturbed {P : Puzzle} (s : Server P) : ServerStep P → Prop
  | .ack client _ => ∀ c, s.clients[client]? = some c → c.overtaken = true →
      ∀ e ∈ s.analysed.flatten, comparePossibility e.packet c.packet ≠ 0
  | _ => True

/-- The runs whose steps all have a property. -/
inductive Server.Run {P : Puzzle} (ok : Server P → ServerStep P → Prop) : Server P → Server P → Prop
  | refl (s : Server P) : Run ok s s
  | tail {s s' s'' : Server P} {a : ServerStep P} (run : Run ok s s') (hok : ok s' a)
      (hstep : s'.step a = some s'') : Run ok s s''

/-! ## Keys -/

/-- What `compare_possibility` looks at: `alloc`, the position, the faces and the grid. -/
structure PacketKey (P : Puzzle) where
  alloc : UInt16
  x : UInt8
  y : UInt8
  faces : Fin P.eternParts → Bool
  grid : Grid P
  deriving DecidableEq

/-- The key of a packet. -/
def Packet.key {P : Puzzle} (p : Packet P) : PacketKey P where
  alloc := p.alloc
  x := p.x
  y := p.y
  faces u := isFaceUsed p.bFaceused u
  grid := p.grid

section Keys

variable {P : Puzzle} {ps : PieceSet P} {p q : Packet P}

theorem comparePossibility_eq_zero : comparePossibility p q = 0 ↔ p.key = q.key := by
  unfold comparePossibility Packet.key
  simp only [PacketKey.mk.injEq]
  by_cases halloc : p.alloc = q.alloc
  · by_cases hpos : p.x = q.x ∧ p.y = q.y
    · obtain ⟨hx, hy⟩ := hpos
      have hfaces : ((List.range P.eternParts).any fun u =>
          isFaceUsed p.bFaceused u != isFaceUsed q.bFaceused u) = false ↔
          (fun u : Fin P.eternParts => isFaceUsed p.bFaceused u) =
            fun u : Fin P.eternParts => isFaceUsed q.bFaceused u := by
        rw [List.any_eq_false, funext_iff]
        simp only [List.mem_range, bne_iff_ne, ne_eq, not_not]
        exact ⟨fun h u => h u u.isLt, fun h u hu => h ⟨u, hu⟩⟩
      have hgrid : ((Cell.all P).any fun c => p.grid c != q.grid c) = false ↔ p.grid = q.grid := by
        rw [List.any_eq_false, funext_iff]
        simp
      rw [← hfaces, ← hgrid, if_neg (by simpa using halloc), if_neg (by simp [hx, hy])]
      simp only [halloc, hx, hy, true_and]
      cases (List.range P.eternParts).any _ <;> cases (Cell.all P).any _ <;> simp
    · rw [if_neg (by simpa using halloc), if_pos (by tauto)]
      refine iff_of_false (by decide) ?_
      tauto
  · rw [if_pos halloc]
    exact iff_of_false (by decide) fun h => halloc h.1

theorem isOriginOf_eq_one : isOriginOf p q = 1 ↔
    p.alloc.toNat < q.alloc.toNat ∧ ∀ c, p.grid c ≠ -2 → q.grid c = p.grid c := by
  unfold isOriginOf
  by_cases halloc : p.alloc ≥ q.alloc
  · rw [if_pos halloc]
    exact iff_of_false (by decide) fun h => Nat.not_lt.mpr (UInt16.le_iff_toNat_le.mp halloc) h.1
  · have hlt : p.alloc.toNat < q.alloc.toNat := Nat.not_le.mp fun h => halloc (UInt16.le_iff_toNat_le.mpr h)
    have hgrid : ((Cell.all P).any fun c => p.grid c != -2 && p.grid c != q.grid c) = false ↔
        ∀ c, p.grid c ≠ -2 → q.grid c = p.grid c := by
      rw [List.any_eq_false]
      simp only [Cell.mem_all, true_imp_iff, Bool.and_eq_true, bne_iff_ne, not_and, not_not]
      exact forall_congr' fun c => imp_congr_right fun _ => eq_comm
    rw [if_neg halloc, ← hgrid]
    cases (Cell.all P).any _ <;> simp [hlt]

/-- What the keys of packets mean. -/
def packetLineage (ps : PieceSet P) : Leases.Lineage (PacketKey P) (Grid P) where
  origin k k' := k.alloc.toNat < k'.alloc.toNat ∧ ∀ c, k.grid c ≠ -2 → k'.grid c = k.grid c
  size k := k.alloc.toNat
  comp k := k.grid.solutions ps
  size_lt h := h.1
  comp_subset := by
    rintro k k' ⟨-, hgrid⟩ b ⟨hb, hextends⟩
    refine ⟨hb, fun c hc => ?_⟩
    rw [hextends c (by rw [hgrid c hc]; exact hc), hgrid c hc]

theorem overtakes_iff (reclaimed : List (Packet P)) : overtakes reclaimed p = true ↔
    Leases.Overtakes (packetLineage ps) {k | ∃ q ∈ reclaimed, q.key = k} p.key := by
  unfold overtakes Leases.Overtakes
  simp only [List.any_eq_true, Bool.or_eq_true, decide_eq_true_iff, comparePossibility_eq_zero,
    isOriginOf_eq_one]
  constructor
  · rintro ⟨q, hq, heq | horigin⟩
    · exact .inl ⟨q, hq, heq⟩
    · exact .inr ⟨q.key, ⟨q, hq, rfl⟩, horigin⟩
  · rintro (⟨q, hq, heq⟩ | ⟨_, ⟨q, hq, rfl⟩, horigin⟩)
    · exact ⟨q, hq, .inl heq⟩
    · exact ⟨q, hq, .inr horigin⟩

theorem isDescendantOfAny_iff (reclaimed : List (Packet P)) : isDescendantOfAny reclaimed p = true ↔
    ∃ o ∈ {k | ∃ q ∈ reclaimed, q.key = k}, (packetLineage ps).origin o p.key := by
  unfold isDescendantOfAny
  simp only [List.any_eq_true, decide_eq_true_iff, isOriginOf_eq_one]
  constructor
  · rintro ⟨q, hq, horigin⟩
    exact ⟨q.key, ⟨q, hq, rfl⟩, horigin⟩
  · rintro ⟨_, ⟨q, hq, rfl⟩, horigin⟩
    exact ⟨q, hq, horigin⟩

end Keys

/-! ## Records and their keys -/

section Records

variable {P : Puzzle} {ps : PieceSet P} {p q q' : Packet P} {stock : LocalStock}

/-- The key of a record. -/
def recordKey (P : Puzzle) (record : List Byte) : Option (PacketKey P) :=
  (recordPacket P record).map Packet.key

/-- The keys a stock holds. -/
def LocalStock.keys (P : Puzzle) (stock : LocalStock) : Multiset (PacketKey P) :=
  (stock.records.filterMap (recordKey P) : List (PacketKey P))

/-- The keys of the records of some packets. -/
def storedKeys (packets : List (Packet P)) : List (PacketKey P) :=
  (packets.filterMap recordOf).filterMap (recordKey P)

/-- Every record of the stock is the record of a packet. -/
def LocalStock.OfPackets (P : Puzzle) (stock : LocalStock) : Prop :=
  ∀ record ∈ stock.records, ∃ q : Packet P, recordOf q = some record

/-- A packet whose record has its key. -/
def Packet.Loaded (p : Packet P) : Prop := storedKeys [p] = [p.key]

theorem Canonical.key_eq (h : Canonical q p) (h' : Canonical p q') : q'.key = p.key := by
  have halloc : q'.alloc = p.alloc := UInt16.toNat_inj.mp (by rw [h'.alloc, h.alloc, h.grid])
  have hfaces : ∀ u, isFaceUsed q'.bFaceused u = isFaceUsed p.bFaceused u := fun u => by
    rw [Bool.eq_iff_iff, h'.faceUsed, h.faceUsed, h.grid]
  unfold Packet.key
  simp only [halloc, h'.x, h'.y, hfaces, h'.grid]

theorem Packet.Encodable.of_grid (h : q.Encodable) (hgrid : p.grid = q.grid) : p.Encodable := by
  unfold Packet.Encodable
  rw [hgrid]
  exact h

/-- A record of a packet loads as a packet whose own record has the same key. -/
theorem recordPacket_loaded {record : List Byte} (hrecord : recordOf q = some record)
    (hload : recordPacket P record = some p) : p.Loaded := by
  have hq : q.Encodable := encodable_iff.mpr (by rw [hrecord]; rfl)
  obtain ⟨record₁, p₁, hrecord₁, hload₁, hcanonical⟩ := recordPacket_recordOf hq
  obtain rfl : record₁ = record := Option.some.inj (hrecord₁.symm.trans hrecord)
  obtain rfl : p₁ = p := Option.some.inj (hload₁.symm.trans hload)
  obtain ⟨record₂, p₂, hrecord₂, hload₂, hcanonical₂⟩ := recordPacket_recordOf (hq.of_grid hcanonical.grid)
  have hkey : recordKey P record₂ = some p₁.key := by
    rw [recordKey, hload₂]
    exact congrArg some (hcanonical.key_eq hcanonical₂)
  unfold Packet.Loaded storedKeys
  rw [List.filterMap_cons_some hrecord₂, List.filterMap_nil, List.filterMap_cons_some hkey, List.filterMap_nil]

/-- The record of a packet with solutions has a key with the same solutions. -/
theorem exists_storedKey {b : Grid P} (hb : b ∈ p.grid.solutions ps) {packets : List (Packet P)}
    (hp : p ∈ packets) : ∃ k ∈ storedKeys packets, b ∈ (packetLineage ps).comp k := by
  have hencodable : p.Encodable := fun c => by
    by_cases hc : p.grid c = -2
    · exact .inl hc
    · rw [← hb.2 c hc]
      have hpiece := isPiece_iff.mp (hb.1.piece c)
      exact .inr (by omega)
  obtain ⟨record, q, hrecord, hload, hcanonical⟩ := recordPacket_recordOf hencodable
  refine ⟨q.key, ?_, ?_⟩
  · refine List.mem_filterMap.mpr ⟨record, List.mem_filterMap.mpr ⟨p, hp, hrecord⟩, ?_⟩
    rw [recordKey, hload]
    rfl
  · show b ∈ q.grid.solutions ps
    rwa [hcanonical.grid]

theorem mem_keys {k : PacketKey P} : k ∈ stock.keys P ↔
    ∃ record ∈ stock.records, ∃ q, recordPacket P record = some q ∧ q.key = k := by
  unfold LocalStock.keys recordKey
  rw [Multiset.mem_coe, List.mem_filterMap]
  simp only [Option.map_eq_some_iff]

/-- Insertions add records of some of the packets, and of all of them when they succeed. -/
theorem putToLocal_records (stock : LocalStock) (packets : List (Packet P)) (freeUnchecked freeChecked : Nat → Bool) :
    ∃ stored : List (Packet P),
      (putToLocal stock packets freeUnchecked freeChecked).1.records.Perm
        (stock.records ++ stored.filterMap recordOf) ∧
      ((putToLocal stock packets freeUnchecked freeChecked).2 = .ok → stored.Perm packets) := by
  have hpool : ∀ (stock : LocalStock) (wantChecked : Bool) (free : Nat → Bool), ∃ stored : List (Packet P),
      (putToPool stock packets wantChecked free).1.records.Perm (stock.records ++ stored.filterMap recordOf) ∧
      ((putToPool stock packets wantChecked free).2 = .ok → stored = routed packets wantChecked) := by
    intro stock wantChecked free
    by_cases hnone : routed packets wantChecked = []
    · have hsame : putToPool stock packets wantChecked free = (stock, .ok) :=
        if_pos (congrArg List.length hnone)
      rw [hsame]
      exact ⟨[], by simp, fun _ => hnone.symm⟩
    · by_cases htakes : stock.Takes wantChecked (routed packets wantChecked) free
      · exact ⟨_, (putToPool_stored hnone htakes).1, fun _ => rfl⟩
      · obtain ⟨hrecords, hstatus⟩ := putToPool_refused hnone htakes
        exact ⟨[], by rw [hrecords]; simp, fun hok => absurd hok hstatus⟩
  obtain ⟨stored₁, hrecords₁, hok₁⟩ := hpool stock false freeUnchecked
  obtain ⟨stored₂, hrecords₂, hok₂⟩ := hpool (putToPool stock packets false freeUnchecked).1 true freeChecked
  refine ⟨stored₁ ++ stored₂, ?_, fun hok => ?_⟩
  · rw [List.filterMap_append, ← List.append_assoc]
    exact hrecords₂.trans (hrecords₁.append_right _)
  · have hboth : (putToPool stock packets false freeUnchecked).2 = .ok ∧
        (putToPool (putToPool stock packets false freeUnchecked).1 packets true freeChecked).2 = .ok := by
      unfold putToLocal at hok
      dsimp only at hok
      split at hok
      · exact absurd hok (by decide)
      · split at hok
        · exact absurd hok (by decide)
        · rename_i hne
          exact not_or.mp hne |>.imp not_not.mp not_not.mp
    rw [hok₁ hboth.1, hok₂ hboth.2]
    exact routed_perm packets

/-- Taking elements out of a file takes them out of the pool. -/
theorem flatten_modify_split {α : Type*} {files : List (List α)} {i : Nat} {taken : List α} {f : List α → List α}
    (hi : i < files.length) (h : (files.getD i []).Perm (taken ++ f (files.getD i []))) :
    files.flatten.Perm (taken ++ (files.modify i f).flatten) := by
  induction files generalizing i with
  | nil => exact absurd hi (Nat.not_lt_zero i)
  | cons l files ih =>
    cases i with
    | zero =>
      rw [List.modify_zero_cons, List.flatten_cons, List.flatten_cons, ← List.append_assoc]
      exact h.append_right _
    | succ i =>
      rw [List.modify_succ_cons, List.flatten_cons, List.flatten_cons]
      refine ((ih (Nat.lt_of_succ_lt_succ hi) h).append_left l).trans ?_
      rw [← List.append_assoc, ← List.append_assoc]
      exact List.perm_append_comm.append_right _

theorem flatten_eraseIdx_perm {α : Type*} {files : List (List α)} {file index : Nat} {a : α}
    (h : (files.getD file [])[index]? = some a) :
    files.flatten.Perm (a :: (files.modify file (·.eraseIdx index)).flatten) := by
  obtain ⟨hlt, rfl⟩ := List.getElem?_eq_some_iff.mp h
  have hperm : (files.getD file []).Perm ([(files.getD file [])[index]] ++ (files.getD file []).eraseIdx index) :=
    (List.getElem_cons_eraseIdx_perm hlt).symm
  have hfile : file < files.length := by
    by_contra hfile
    rw [List.getD_eq_default _ _ (Nat.not_lt.mp hfile)] at hlt
    exact absurd hlt (Nat.not_lt_zero _)
  exact @flatten_modify_split _ files file [(files.getD file [])[index]] (·.eraseIdx index) hfile hperm

end Records

/-! ## The server as a store of leased items -/

section Refinement

variable {P : Puzzle} {ps : PieceSet P} {s s' : Server P} {stock : LocalStock}

theorem flatMap_range_getD {α : Type} (files : List (List α)) :
    (List.range files.length).flatMap (fun f => files.getD f []) = files.flatten := by
  induction files with
  | nil => rfl
  | cons file files ih =>
    rw [List.length_cons, List.range_succ_eq_map, List.flatMap_cons, List.flatMap_map, List.flatten_cons]
    exact congrArg (file ++ ·) ih

/-- The two files of a number one after the other. -/
theorem LocalStock.perm_records {stock : LocalStock} {n : Nat} (h : ∀ b, (stock.pool b).files.length = n) :
    ((List.range n).flatMap fun f => stock.unchecked.files.getD f [] ++ stock.checked.files.getD f []).Perm
      stock.records := by
  have hunchecked : (List.range n).flatMap (fun f => stock.unchecked.files.getD f []) = stock.unchecked.files.flatten := by
    rw [← h false]
    exact flatMap_range_getD _
  have hchecked : (List.range n).flatMap (fun f => stock.checked.files.getD f []) = stock.checked.files.flatten := by
    rw [← h true]
    exact flatMap_range_getD _
  have hsplit := List.flatMap_append_perm (List.range n) (fun f => stock.unchecked.files.getD f [])
    fun f => stock.checked.files.getD f []
  rw [hunchecked, hchecked] at hsplit
  exact hsplit.symm

theorem LocalStock.records_perm (stock : LocalStock) (wantChecked : Bool) :
    stock.records.Perm ((stock.pool wantChecked).files.flatten ++ (stock.pool !wantChecked).files.flatten) := by
  cases wantChecked with
  | false => exact .refl _
  | true => exact List.perm_append_comm

theorem LocalStock.records_setPool (stock : LocalStock) (wantChecked : Bool) (pool : Pool) :
    (stock.setPool wantChecked pool).records.Perm
      (pool.files.flatten ++ (stock.pool !wantChecked).files.flatten) := by
  cases wantChecked with
  | false => exact .refl _
  | true => exact List.perm_append_comm

theorem keys_of_perm {stock' : LocalStock} {new : List (List Byte)}
    (h : stock'.records.Perm (stock.records ++ new)) :
    stock'.keys P = stock.keys P + (new.filterMap (recordKey P) : List (PacketKey P)) := by
  unfold LocalStock.keys
  rw [Multiset.coe_add, ← List.filterMap_append]
  exact Multiset.coe_eq_coe.mpr (h.filterMap _)

/-- What a client is to the store. -/
def Client.session (c : Client P) : Leases.Session (PacketKey P) where
  key := c.packet.key
  handed := storedKeys c.handed
  overtaken := c.overtaken = true

/-- The keys of the analysed pool. -/
def Server.leased (s : Server P) : Multiset (PacketKey P) :=
  (s.analysed.flatten.map fun e => e.packet.key : List (PacketKey P))

/-- What a server is as a store. -/
def Server.store (s : Server P) : Leases.State (PacketKey P) (Grid P) where
  stock := s.stock.keys P
  inHand := (s.reclaim.buf.map Packet.key : List (PacketKey P))
  leased := s.leased
  origins := {k | ∃ q ∈ s.reclaim.reclaimed, q.key = k}
  sessions := (s.clients.map Client.session : List (Leases.Session (PacketKey P)))
  recorded := {b | s.Recorded b}

/-- The records are records of packets, and the packets in the analysed pool and in the hands of
the reclaim have come out of such records. -/
structure Server.Sound (s : Server P) : Prop where
  stock : s.stock.OfPackets P
  analysed : ∀ e ∈ s.analysed.flatten, e.packet.Loaded
  buf : ∀ p ∈ s.reclaim.buf, p.Loaded

theorem mem_flatten_modify_append {α : Type*} {files : List (List α)} {i : Nat} {new : List α} {a : α}
    (h : a ∈ (files.modify i (· ++ new)).flatten) : a ∈ files.flatten ∨ a ∈ new := by
  by_cases hi : i < files.length
  · have := (flatten_modify_perm new hi).mem_iff.mp h
    exact List.mem_append.mp this
  · rw [List.modify_eq_self (Nat.not_lt.mp hi)] at h
    exact .inl h

/-- Clients that change at one place. -/
theorem sessions_split {clients : List (Client P)} {i : Nat} {c : Client P} (h : clients[i]? = some c) :
    ((clients.map Client.session : List _) : Multiset (Leases.Session (PacketKey P))) =
      c.session ::ₘ ((clients.eraseIdx i).map Client.session : List _) := by
  obtain ⟨hlt, rfl⟩ := List.getElem?_eq_some_iff.mp h
  rw [Multiset.cons_coe, ← List.map_cons]
  exact Multiset.coe_eq_coe.mpr ((List.getElem_cons_eraseIdx_perm hlt).symm.map _)

theorem sessions_set {clients : List (Client P)} {i : Nat} {c c' : Client P} (h : clients[i]? = some c) :
    (((clients.set i c').map Client.session : List _) : Multiset (Leases.Session (PacketKey P))) =
      c'.session ::ₘ ((clients.eraseIdx i).map Client.session : List _) := by
  obtain ⟨hlt, rfl⟩ := List.getElem?_eq_some_iff.mp h
  have hset : (clients.set i c')[i]? = some c' := List.getElem?_set_self hlt
  rw [sessions_split hset, List.eraseIdx_set_eq]

/-- Taking out the last element with a key. -/
theorem removeLast_perm {file : List (AnalysedElement P)} {possibility : Packet P}
    (h : ∃ e ∈ file, e.packet.key = possibility.key) :
    ∃ e, e.packet.key = possibility.key ∧ file.Perm (e :: removeLast file possibility) := by
  obtain ⟨e, he, hkey⟩ := h
  obtain ⟨e', l₁, l₂, -, hmatch, hreverse, herase⟩ :=
    List.exists_of_eraseP (p := fun e : AnalysedElement P => comparePossibility e.packet possibility = 0)
      (List.mem_reverse.mpr he) (by simpa [comparePossibility_eq_zero] using hkey)
  refine ⟨e', comparePossibility_eq_zero.mp (by simpa using hmatch), ?_⟩
  unfold removeLast
  rw [herase]
  refine (List.reverse_perm file).symm.trans ?_
  rw [hreverse]
  exact List.perm_middle.trans ((List.reverse_perm _).symm.cons e')

/-- An acknowledgement takes one element with the key of its packet, if there is one. -/
theorem removePossibilityAnalysed_perm (analysed : List (List (AnalysedElement P))) (possibility : Packet P)
    (preferredFile : Nat) :
    (removePossibilityAnalysed analysed possibility preferredFile = analysed ∧
      ∀ e ∈ analysed.flatten, e.packet.key ≠ possibility.key) ∨
    ∃ e, e.packet.key = possibility.key ∧ analysed.flatten.Perm
      (e :: (removePossibilityAnalysed analysed possibility preferredFile).flatten) := by
  unfold removePossibilityAnalysed
  dsimp only
  split
  · rename_i hnone
    refine .inl ⟨rfl, fun e he hkey => ?_⟩
    obtain ⟨file, hfile, he⟩ := List.mem_flatten.mp he
    obtain ⟨f, hf, rfl⟩ := List.getElem_of_mem hfile
    -- The scan reaches every file.
    have hstart : (if preferredFile < analysed.length then preferredFile else 0) < analysed.length := by
      split
      · assumption
      · exact Nat.zero_lt_of_lt hf
    generalize (if preferredFile < analysed.length then preferredFile else 0) = scanStart at hnone hstart
    have hscan : f ∈ (List.range analysed.length).map fun step => (scanStart + step) % analysed.length := by
      rw [List.mem_map]
      rcases Nat.le_total scanStart f with hle | hle
      · refine ⟨f - scanStart, List.mem_range.mpr (by omega), ?_⟩
        rw [Nat.add_sub_cancel' hle, Nat.mod_eq_of_lt hf]
      · rcases Nat.eq_or_lt_of_le hle with rfl | hlt
        · exact ⟨0, List.mem_range.mpr (by omega), Nat.mod_eq_of_lt hf⟩
        · refine ⟨f + analysed.length - scanStart, List.mem_range.mpr (by omega), ?_⟩
          rw [Nat.add_sub_cancel' (by omega), Nat.add_mod_right, Nat.mod_eq_of_lt hf]
    have hno := List.find?_eq_none.mp hnone f hscan
    apply hno
    rw [List.any_eq_true, List.getD_eq_getElem _ _ hf]
    exact ⟨e, he, by simpa [comparePossibility_eq_zero] using hkey⟩
  · rename_i f hsome
    have hfound := List.find?_some hsome
    have hf : f < analysed.length := by
      by_contra hlong
      rw [List.getD_eq_default _ _ (Nat.not_lt.mp hlong)] at hfound
      exact absurd hfound (by simp)
    obtain ⟨e, he, hmatch⟩ := List.any_eq_true.mp hfound
    obtain ⟨e', hkey, hperm⟩ := removeLast_perm ⟨e, he, comparePossibility_eq_zero.mp (by simpa using hmatch)⟩
    exact .inr ⟨e', hkey, @flatten_modify_split _ analysed f [e'] (removeLast · possibility) hf hperm⟩

theorem leased_removePossibilityAnalysed (analysed : List (List (AnalysedElement P))) (possibility : Packet P)
    (preferredFile : Nat) :
    (((removePossibilityAnalysed analysed possibility preferredFile).flatten.map fun e => e.packet.key :
      List (PacketKey P)) : Multiset (PacketKey P)) =
      ((analysed.flatten.map fun e => e.packet.key : List (PacketKey P)) : Multiset (PacketKey P)).erase
        possibility.key := by
  rcases removePossibilityAnalysed_perm analysed possibility preferredFile with ⟨hsame, hnone⟩ | ⟨e, hkey, hperm⟩
  · rw [hsame, Multiset.erase_of_notMem]
    intro hmem
    obtain ⟨e, he, hkey⟩ := List.mem_map.mp (Multiset.mem_coe.mp hmem)
    exact hnone e he hkey
  · have hmap := hperm.map fun e => e.packet.key
    rw [Multiset.coe_eq_coe.mpr hmap, List.map_cons, hkey, ← Multiset.cons_coe, Multiset.erase_cons_head]

theorem mem_of_mem_removePossibilityAnalysed {analysed : List (List (AnalysedElement P))}
    {possibility : Packet P} {preferredFile : Nat} {e : AnalysedElement P}
    (h : e ∈ (removePossibilityAnalysed analysed possibility preferredFile).flatten) : e ∈ analysed.flatten := by
  rcases removePossibilityAnalysed_perm analysed possibility preferredFile with ⟨hsame, -⟩ | ⟨e', -, hperm⟩
  · rwa [hsame] at h
  · exact hperm.mem_iff.mpr (List.mem_cons_of_mem e' h)

/-- A run of the store. -/
def StoreRun (ps : PieceSet P) (s s' : Server P) : Prop :=
  s'.Sound ∧ Relation.ReflTransGen (Leases.Step (packetLineage ps)) s.store s'.store

theorem StoreRun.single (hsound : s'.Sound) {t : Leases.State (PacketKey P) (Grid P)}
    (hstep : Leases.Step (packetLineage ps) s.store t) (ht : s'.store = t) : StoreRun ps s s' :=
  ⟨hsound, ht ▸ .single hstep⟩

variable (h : s.Sound)
include h

theorem Server.Sound.get_refines {wantChecked : Bool} {file index dest : Nat} {owner : Option (Nat × Int)}
    (hstep : s.step (.get wantChecked file index dest owner) = some s') : StoreRun ps s s' := by
  rw [Server.step] at hstep
  split at hstep
  · exact absurd hstep (by simp)
  · rename_i record hrecord
    split at hstep
    · exact absurd hstep (by simp)
    · rename_i packet hload
      split at hstep
      · rename_i hdest
        obtain rfl := Option.some.inj hstep
        have hperm : s.stock.records.Perm (record :: (s.stock.setPool wantChecked
            ((s.stock.pool wantChecked).take file index)).records) := by
          refine (s.stock.records_perm wantChecked).trans ?_
          refine ((flatten_eraseIdx_perm hrecord).append_right _).trans ?_
          exact (s.stock.records_setPool wantChecked
            ((s.stock.pool wantChecked).take file index)).symm.cons record
        have hkeys := hperm.filterMap (recordKey P)
        have hkey : recordKey P record = some packet.key := by rw [recordKey, hload]; rfl
        rw [List.filterMap_cons_some hkey] at hkeys
        have hkeys : s.stock.keys P = packet.key ::ₘ LocalStock.keys P _ :=
          (Multiset.coe_eq_coe.mpr hkeys).trans (Multiset.cons_coe _ _).symm
        obtain ⟨q, hq⟩ := h.stock record (hperm.mem_iff.mpr List.mem_cons_self)
        refine .single ⟨fun r hr => h.stock r (hperm.mem_iff.mpr (List.mem_cons_of_mem _ hr)),
          fun e he => ?_, h.buf⟩ (.lease packet.key (by
            show packet.key ∈ s.stock.keys P
            rw [hkeys]
            exact Multiset.mem_cons_self _ _)) ?_
        · rcases mem_flatten_modify_append he with he | he
          · exact h.analysed e he
          · rw [List.mem_singleton.mp he]
            exact recordPacket_loaded hq hload
        · have hleased := (flatten_modify_perm
            [(⟨packet, owner.isSome, (owner.getD (0, 0)).1, (owner.getD (0, 0)).2⟩ : AnalysedElement P)]
            hdest).map fun e => e.packet.key
          rw [List.map_append] at hleased
          have hover : (overtakes s.reclaim.reclaimed packet = true) =
              Leases.Overtakes (packetLineage ps) s.store.origins packet.key :=
            propext (overtakes_iff s.reclaim.reclaimed)
          unfold Server.store
          congr 1
          · exact (Multiset.erase_cons_head packet.key _).symm.trans (congrArg (Multiset.erase · packet.key) hkeys.symm)
          · exact Multiset.coe_eq_coe.mpr (hleased.trans List.perm_append_comm)
          · dsimp only
            rw [List.map_append]
            refine (Multiset.coe_eq_coe.mpr List.perm_append_comm).trans ?_
            rw [List.map_singleton, List.singleton_append, ← Multiset.cons_coe]
            congr 1
            unfold Client.session
            rw [hover]
            rfl
      · exact absurd hstep (by simp)

omit h in
/-- A put of one packet adds its record. -/
theorem putBackToStock_records {pk : Packet P} {dest : Nat}
    (hdest : dest < (stock.pool (pk.checked != 0)).files.length) :
    (putBackToStock stock pk dest).records.Perm (stock.records ++ [pk].filterMap recordOf) := by
  have hfile : (poolPut · pk) = fun file : PoolFile => file ++ [pk].filterMap recordOf := by
    funext file
    rw [← foldl_poolPut]
    rfl
  have hperm := flatten_modify_perm ([pk].filterMap recordOf) hdest
  rw [← hfile] at hperm
  refine (stock.records_setPool _ _).trans ?_
  refine (hperm.append_right _).trans ?_
  rw [List.append_assoc]
  refine (List.perm_append_comm.append_left _).trans ?_
  rw [← List.append_assoc]
  exact (stock.records_perm _).symm.append_right _

omit h in
theorem OfPackets.append {stock' : LocalStock} {packets : List (Packet P)} (h : stock.OfPackets P)
    (hperm : stock'.records.Perm (stock.records ++ packets.filterMap recordOf)) : stock'.OfPackets P := by
  intro record hrecord
  rcases List.mem_append.mp (hperm.mem_iff.mp hrecord) with hold | hnew
  · exact h record hold
  · obtain ⟨q, -, hq⟩ := List.mem_filterMap.mp hnew
    exact ⟨q, hq⟩

omit h in
/-- An empty stock into which packets are put. -/
theorem putToLocal_ofPackets (packets : List (Packet P)) (freeUnchecked freeChecked : Nat → Bool) :
    (putToLocal .empty packets freeUnchecked freeChecked).1.OfPackets P := by
  obtain ⟨stored, hperm, -⟩ := putToLocal_records .empty packets freeUnchecked freeChecked
  exact OfPackets.append (fun record hrecord => absurd hrecord List.not_mem_nil) hperm

theorem Server.Sound.add_refines {client : Nat} {packets : List (Packet P)} {freeUnchecked freeChecked : Nat → Bool}
    (hstep : s.step (.add client packets freeUnchecked freeChecked) = some s') : StoreRun ps s s' := by
  rw [Server.step] at hstep
  split at hstep
  · exact absurd hstep (by simp)
  · rename_i c hc
    obtain rfl := Option.some.inj hstep
    obtain ⟨stored, hperm, hok⟩ := putToLocal_records s.stock packets freeUnchecked freeChecked
    have hkeys := @keys_of_perm P _ _ _ hperm
    split
    · rename_i hstatus
      -- Everything was stored, and the client counts it as handed back.
      have hall := hok hstatus
      have hsessions : s.store.sessions = c.session ::ₘ
          ((s.clients.eraseIdx client).map Client.session : List (Leases.Session (PacketKey P))) :=
        sessions_split hc
      refine .single ⟨OfPackets.append h.stock hperm, h.analysed, h.buf⟩
        (.hand c.session _ (storedKeys packets) (storedKeys stored : List (PacketKey P)) hsessions ?_) ?_
      · intro k hk _
        exact Multiset.mem_coe.mpr ((((hall.filterMap recordOf).filterMap (recordKey P)).mem_iff).mpr hk)
      · unfold Server.store
        congr 1
        rw [sessions_set hc]
        congr 1
        unfold Client.session storedKeys
        simp only [List.filterMap_append]
    · exact .single ⟨OfPackets.append h.stock hperm, h.analysed, h.buf⟩
        (.grow (storedKeys stored : List (PacketKey P))) (by unfold Server.store; congr 1)

theorem Server.Sound.solution_refines {board : Packet P} (hstep : s.step (.solution board) = some s') :
    StoreRun ps s s' := by
  obtain rfl := Option.some.inj hstep
  refine .single ⟨h.stock, h.analysed, h.buf⟩ (.record {b | board.grid = b}) ?_
  unfold Server.store Server.Recorded
  congr 1
  ext b
  simp [or_and_right, exists_or, eq_comm, or_comm]

theorem Server.Sound.ack_refines {client preferredFile : Nat}
    (hhonest : (ServerStep.ack client preferredFile).Honest ps s)
    (hcurrent : (ServerStep.ack client preferredFile).Undisturbed s)
    (hstep : s.step (.ack client preferredFile) = some s') : StoreRun ps s s' := by
  rw [Server.step] at hstep
  split at hstep
  · exact absurd hstep (by simp)
  · rename_i c hc
    obtain rfl := Option.some.inj hstep
    have hsessions : s.store.sessions = c.session ::ₘ
        ((s.clients.eraseIdx client).map Client.session : List (Leases.Session (PacketKey P))) :=
      sessions_split hc
    have hleased := leased_removePossibilityAnalysed s.analysed c.packet preferredFile
    refine .single ⟨h.stock, fun e he => ?_, h.buf⟩ (.settle c.session _ hsessions (fun b hb => ?_)
      fun hover hmem => ?_) ?_
    · exact h.analysed e (mem_of_mem_removePossibilityAnalysed he)
    · refine (hhonest c hc b hb).imp_right ?_
      rintro ⟨d, hd, hbd⟩
      exact exists_storedKey hbd hd
    · obtain ⟨e, he, hkey⟩ := List.mem_map.mp (Multiset.mem_coe.mp hmem)
      exact hcurrent c hc hover e he (comparePossibility_eq_zero.mpr hkey)
    · unfold Server.store
      congr 1

omit h in
/-- The keys of the elements that are left when the descendants of some packets have gone. -/
theorem purge_keys {α : Type*} (key : α → Option (PacketKey P)) (keep : α → Bool) {reclaimed : List (Packet P)}
    (hkeep : ∀ a k, key a = some k →
      (keep a = true ↔ ¬ ∃ o ∈ {k | ∃ q ∈ reclaimed, q.key = k}, (packetLineage ps).origin o k)) (l : List α) :
    ((l.filter keep).filterMap key : List (PacketKey P)) =
      Leases.purge (packetLineage ps) {k | ∃ q ∈ reclaimed, q.key = k} (l.filterMap key : List (PacketKey P)) := by
  induction l with
  | nil => exact Leases.purge_zero.symm
  | cons a l ih =>
    rcases hkey : key a with _ | k
    · rw [List.filterMap_cons_none hkey, ← ih, List.filter_cons]
      split
      · rw [List.filterMap_cons_none hkey]
      · rfl
    · have hiff := hkeep a k hkey
      rw [List.filterMap_cons_some hkey, ← Multiset.cons_coe, List.filter_cons]
      by_cases ha : keep a = true
      · rw [if_pos ha, List.filterMap_cons_some hkey, ← Multiset.cons_coe, ih]
        exact (Leases.purge_cons_of_pos (hiff.mp ha)).symm
      · rw [if_neg ha, ih]
        exact (Leases.purge_cons_of_neg (not_not.mp (mt hiff.mpr ha))).symm

theorem Server.Sound.reclaimStart_refines {now : Int} (hstep : s.step (.reclaimStart now) = some s') :
    StoreRun ps s s' := by
  rw [Server.step] at hstep
  split at hstep
  · rename_i hidle
    obtain rfl := Option.some.inj hstep
    refine ⟨⟨h.stock, h.analysed, fun p hp => absurd hp List.not_mem_nil⟩, ?_⟩
    have hstore : ({ s with reclaim := .scanning now 0 [] true } : Server P).store = s.store := by
      unfold Server.store
      rw [hidle]
      rfl
    rw [hstore]
  · exact absurd hstep (by simp)

theorem Server.Sound.reclaimFile_refines {ownerAlive : Option (Nat → Bool)} {alloc : Bool}
    (hstep : s.step (.reclaimFile ownerAlive alloc) = some s') : StoreRun ps s s' := by
  rw [Server.step] at hstep
  split at hstep
  · rename_i now f reclaimed ok hphase
    split at hstep
    · rename_i hf
      obtain rfl := Option.some.inj hstep
      let victim (e : AnalysedElement P) := alloc && e.reclaimable now ownerAlive
      let taken := ((s.analysed.getD f []).filter victim).map AnalysedElement.packet
      have hsplit : s.analysed.flatten.Perm ((s.analysed.getD f []).filter victim ++
          (s.analysed.modify f (·.filter fun e => !victim e)).flatten) :=
        flatten_modify_split hf (List.filter_append_perm _ _).symm
      have hleased : s.leased = ((taken.map Packet.key : List (PacketKey P)) : Multiset (PacketKey P)) +
          (((s.analysed.modify f (·.filter fun e => !victim e)).flatten.map fun e => e.packet.key :
            List (PacketKey P)) : Multiset (PacketKey P)) := by
        have hmap := hsplit.map fun e => e.packet.key
        rw [List.map_append] at hmap
        rw [Multiset.coe_add, List.map_map]
        exact Multiset.coe_eq_coe.mpr hmap
      have htaken : {k | k ∈ ((taken.map Packet.key : List (PacketKey P)) : Multiset (PacketKey P))} =
          {k | ∃ q ∈ taken, q.key = k} := by
        ext k
        exact List.mem_map
      refine .single ⟨h.stock, fun e he => h.analysed e ?_, fun p hp => ?_⟩
        (.reclaim (taken.map Packet.key : List (PacketKey P)) ?_) ?_
      · exact hsplit.mem_iff.mpr (List.mem_append_right _ he)
      · obtain ⟨e, he, rfl⟩ := List.mem_map.mp hp
        exact h.analysed e (hsplit.mem_iff.mpr (List.mem_append_left _ he))
      · show _ ≤ s.leased
        rw [hleased]
        exact Multiset.le_add_right _ _
      · have horigins : s.store.origins = {k | ∃ q ∈ reclaimed, q.key = k} := by
          unfold Server.store
          rw [hphase]
          rfl
        have hinHand : s.store.inHand = 0 := by
          unfold Server.store
          rw [hphase]
          rfl
        rw [hinHand, horigins, htaken]
        unfold Server.store
        congr 1
        · show _ = s.leased - _
          rw [hleased, Multiset.add_comm]
          exact Multiset.add_sub_cancel_right.symm
        · ext k
          show (∃ q ∈ reclaimed ++ taken, q.key = k) ↔ (∃ q ∈ reclaimed, q.key = k) ∨ ∃ q ∈ taken, q.key = k
          simp only [List.mem_append, or_and_right, exists_or]
        · rw [Multiset.map_coe, List.map_map, List.map_map]
          refine congrArg _ (List.map_congr_left fun c _ => ?_)
          unfold Client.session Leases.Session.overtake
          dsimp only [Function.comp_apply]
          congr 1
          rw [Bool.or_eq_true, overtakes_iff]
    · exact absurd hstep (by simp)
  · exact absurd hstep (by simp)

theorem Server.Sound.putBack_refines {dest : Nat} (hstep : s.step (.putBack dest) = some s') : StoreRun ps s s' := by
  rw [Server.step] at hstep
  split at hstep
  · rename_i now f pk buf reclaimed ok hphase
    split at hstep
    · rename_i hdest
      obtain rfl := Option.some.inj hstep
      have hperm := putBackToStock_records hdest
      have hbuf : s.reclaim.buf = pk :: buf := by rw [hphase]; rfl
      have hloaded : storedKeys [pk] = [pk.key] := h.buf pk (by rw [hbuf]; exact List.mem_cons_self)
      refine .single ⟨OfPackets.append h.stock hperm, h.analysed, fun p hp => ?_⟩
        (.putBack pk.key ?_ {pk.key} fun _ => Multiset.mem_singleton_self _) ?_
      · exact h.buf p (by rw [hbuf]; exact List.mem_cons_of_mem _ hp)
      · show pk.key ∈ ((s.reclaim.buf.map Packet.key : List (PacketKey P)) : Multiset (PacketKey P))
        rw [hbuf]
        exact List.mem_cons_self
      · unfold Server.store
        rw [hphase]
        congr 1
        · exact (keys_of_perm hperm).trans (congrArg (fun l : List (PacketKey P) => s.stock.keys P + l) hloaded)
        · exact (Multiset.erase_cons_head pk.key _).symm
    · exact absurd hstep (by simp)
  · exact absurd hstep (by simp)

theorem Server.Sound.accumulate_refines {alloc : Bool} (hstep : s.step (.accumulate alloc) = some s') :
    StoreRun ps s s' := by
  rw [Server.step] at hstep
  split at hstep
  · rename_i now f reclaimed ok hphase
    obtain rfl := Option.some.inj hstep
    refine ⟨⟨h.stock, h.analysed, fun p hp => absurd hp List.not_mem_nil⟩, ?_⟩
    have hstore : ({ s with reclaim := .scanning now (f + 1) reclaimed (ok && alloc) } : Server P).store =
        s.store := by
      unfold Server.store
      rw [hphase]
      rfl
    rw [hstore]
  · exact absurd hstep (by simp)

theorem Server.Sound.purgeAnalysed_refines (hstep : s.step .purgeAnalysed = some s') : StoreRun ps s s' := by
  rw [Server.step] at hstep
  split at hstep
  · rename_i now f reclaimed hphase
    split at hstep
    · exact absurd hstep (by simp)
    · obtain rfl := Option.some.inj hstep
      have hflat : (s.analysed.map fun file => file.filter fun e => !isDescendantOfAny reclaimed e.packet).flatten =
          s.analysed.flatten.filter fun e => !isDescendantOfAny reclaimed e.packet :=
        List.filter_flatten.symm
      refine .single ⟨h.stock, fun e he => h.analysed e ?_, fun p hp => absurd hp List.not_mem_nil⟩
        .purgeLeased ?_
      · rw [hflat] at he
        exact List.mem_of_mem_filter he
      · unfold Server.store
        rw [hphase]
        congr 1
        unfold Server.leased
        rw [hflat]
        have hkeys := purge_keys (fun e : AnalysedElement P => some e.packet.key)
          (fun e => !isDescendantOfAny reclaimed e.packet) (fun e k hk => by
            obtain rfl := Option.some.inj hk
            rw [Bool.not_eq_true', ← Bool.not_eq_true, @isDescendantOfAny_iff _ ps]) s.analysed.flatten
        rwa [List.filterMap_eq_map'] at hkeys
  · exact absurd hstep (by simp)

theorem Server.Sound.purgeStock_refines (hstep : s.step .purgeStock = some s') : StoreRun ps s s' := by
  rw [Server.step] at hstep
  split at hstep
  · rename_i reclaimed hphase
    obtain rfl := Option.some.inj hstep
    let keep (record : List Byte) : Bool :=
      match recordPacket P record with
      | none => true
      | some candidate => !isDescendantOfAny reclaimed candidate
    have hrecords : LocalStock.records { s.stock with
        unchecked := s.stock.unchecked.purge reclaimed
        checked := s.stock.checked.purge reclaimed } = s.stock.records.filter keep := by
      unfold LocalStock.records
      rw [List.filter_append]
      exact congrArg₂ _ List.filter_flatten.symm List.filter_flatten.symm
    refine ⟨⟨fun record hr => h.stock record ?_, h.analysed, fun p hp => absurd hp List.not_mem_nil⟩, ?_⟩
    · rw [hrecords] at hr
      exact List.mem_of_mem_filter hr
    · have hkeys := purge_keys (recordKey P) keep (fun record k hk => by
        obtain ⟨q, hload, rfl⟩ := Option.map_eq_some_iff.mp hk
        show (match recordPacket P record with
          | none => true
          | some candidate => !isDescendantOfAny reclaimed candidate) = true ↔ _
        rw [hload]
        dsimp only
        rw [Bool.not_eq_true', ← Bool.not_eq_true, @isDescendantOfAny_iff _ ps]) s.stock.records
      rw [← hrecords] at hkeys
      have hstore : ({ s with
          stock := { s.stock with
            unchecked := s.stock.unchecked.purge reclaimed
            checked := s.stock.checked.purge reclaimed }
          reclaim := .idle } : Server P).store = { s.store with
            stock := Leases.purge (packetLineage ps) s.store.origins s.store.stock
            origins := ∅ } := by
        unfold Server.store
        rw [hphase]
        congr 1
        ext k
        exact iff_of_false (fun ⟨q, hq, _⟩ => absurd hq List.not_mem_nil) (Set.notMem_empty k)
      rw [hstore]
      exact .tail (.single .purgeStock) .finish
  · exact absurd hstep (by simp)

theorem Server.Sound.reclaimEnd_refines (hstep : s.step .reclaimEnd = some s') : StoreRun ps s s' := by
  rw [Server.step] at hstep
  split at hstep
  · rename_i now f reclaimed ok hphase
    split at hstep
    · exact absurd hstep (by simp)
    · split at hstep
      · exact absurd hstep (by simp)
      · obtain rfl := Option.some.inj hstep
        refine .single ⟨h.stock, h.analysed, fun p hp => absurd hp List.not_mem_nil⟩ .finish ?_
        unfold Server.store
        rw [hphase]
        congr 1
        ext k
        exact iff_of_false (fun ⟨q, hq, _⟩ => absurd hq List.not_mem_nil) (Set.notMem_empty k)
  · exact absurd hstep (by simp)

/-- Every step is a run of the store. -/
theorem Server.Sound.step_refines {a : ServerStep P} (hhonest : a.Honest ps s) (hundisturbed : a.Undisturbed s)
    (hstep : s.step a = some s') : StoreRun ps s s' := by
  cases a with
  | get wantChecked file index dest owner => exact h.get_refines hstep
  | add client packets freeUnchecked freeChecked => exact h.add_refines hstep
  | solution board => exact h.solution_refines hstep
  | ack client preferredFile => exact h.ack_refines hhonest hundisturbed hstep
  | reclaimStart now => exact h.reclaimStart_refines hstep
  | reclaimFile ownerAlive alloc => exact h.reclaimFile_refines hstep
  | putBack dest => exact h.putBack_refines hstep
  | accumulate alloc => exact h.accumulate_refines hstep
  | purgeAnalysed => exact h.purgeAnalysed_refines hstep
  | purgeStock => exact h.purgeStock_refines hstep
  | reclaimEnd => exact h.reclaimEnd_refines hstep

end Refinement

/-! ## Runs -/

section Runs

variable {P : Puzzle} {ps : PieceSet P} {s s' s'' : Server P} {ok : Server P → ServerStep P → Prop}

/-- A server without clients and without a reclaim under way, whose packets have been through the
codec. -/
structure Server.Initial (s : Server P) : Prop where
  reclaim : s.reclaim = .idle
  clients : s.clients = []
  stock : s.stock.OfPackets P
  analysed : ∀ e ∈ s.analysed.flatten, e.packet.Loaded

theorem Server.Initial.sound (h : s.Initial) : s.Sound where
  stock := h.stock
  analysed := h.analysed
  buf := by
    rw [h.reclaim]
    exact fun p hp => absurd hp List.not_mem_nil

theorem Server.Initial.store (h : s.Initial) : s.store.Initial where
  origins := by
    unfold Server.store
    rw [h.reclaim]
    ext k
    exact iff_of_false (fun ⟨q, hq, _⟩ => absurd hq List.not_mem_nil) (Set.notMem_empty k)
  handed σ hσ := by
    have hσ : σ ∈ s.clients.map Client.session := hσ
    rw [h.clients] at hσ
    exact absurd hσ List.not_mem_nil
  own k := by
    have hnone : s.store.sessions = 0 := by
      unfold Server.store
      rw [h.clients]
      rfl
    rw [hnone]
    exact Nat.zero_le _

/-- A run of the server is a run of the store. -/
theorem Server.Run.storeRun (hrun : Server.Run (fun s a => a.Honest ps s ∧ a.Undisturbed s) s s')
    (h : s.Sound) : StoreRun ps s s' := by
  induction hrun with
  | refl => exact ⟨h, .refl⟩
  | tail _ hok hstep ih =>
    obtain ⟨hsound, hrefines⟩ := ih
    obtain ⟨hsound', hstep⟩ := hsound.step_refines hok.1 hok.2 hstep
    exact ⟨hsound', hrefines.trans hstep⟩

/-- What the store covers: what the server covers, and what is below a packet in the hands of the
reclaim. -/
theorem Server.covers_store {b : Grid P} : s.store.Covers (packetLineage ps) b ↔
    s.Covers ps b ∨ ∃ p ∈ s.reclaim.buf, b ∈ p.grid.solutions ps := by
  unfold Leases.State.Covers Leases.State.Holds Server.Covers
  constructor
  · rintro (hrecorded | ⟨k, hb, hstock | hbuf | hleased⟩)
    · exact .inl (.inl hrecorded)
    · obtain ⟨record, hrecord, q, hq, rfl⟩ := mem_keys.mp hstock
      exact .inl (.inr (.inl ⟨record, hrecord, q, hq, hb⟩))
    · obtain ⟨p, hp, rfl⟩ := List.mem_map.mp (Multiset.mem_coe.mp hbuf)
      exact .inr ⟨p, hp, hb⟩
    · obtain ⟨e, he, rfl⟩ := List.mem_map.mp (Multiset.mem_coe.mp hleased)
      exact .inl (.inr (.inr ⟨e, he, hb⟩))
  · rintro ((hrecorded | ⟨record, hrecord, q, hq, hb⟩ | ⟨e, he, hb⟩) | ⟨p, hp, hb⟩)
    · exact .inl hrecorded
    · exact .inr ⟨q.key, hb, .inl (mem_keys.mpr ⟨record, hrecord, q, hq, rfl⟩)⟩
    · exact .inr ⟨e.packet.key, hb, .inr (.inr (Multiset.mem_coe.mpr (List.mem_map.mpr ⟨e, he, rfl⟩)))⟩
    · exact .inr ⟨p.key, hb, .inr (.inl (Multiset.mem_coe.mpr (List.mem_map.mpr ⟨p, hp, rfl⟩)))⟩

/-- No run loses a completion in which a client whose packet has been reclaimed meanwhile removes
no lease: what was covered at any point is covered at any later one, or below a packet a reclaim
is about to put back. -/
theorem Server.covers_of_undisturbed (ps : PieceSet P) {s₀ s₁ s₂ : Server P} (hinitial : s₀.Initial)
    (hbefore : Server.Run (fun s a => a.Honest ps s ∧ a.Undisturbed s) s₀ s₁)
    (hrun : Server.Run (fun s a => a.Honest ps s ∧ a.Undisturbed s) s₁ s₂)
    {b : Grid P} (hb : s₁.Covers ps b ∨ ∃ p ∈ s₁.reclaim.buf, b ∈ p.grid.solutions ps) :
    s₂.Covers ps b ∨ ∃ p ∈ s₂.reclaim.buf, b ∈ p.grid.solutions ps := by
  obtain ⟨hsound₁, hstore₁⟩ := hbefore.storeRun hinitial.sound
  obtain ⟨-, hstore₂⟩ := hrun.storeRun hsound₁
  have hinv := (Leases.run_preserves hstore₁ (L := packetLineage ps) hinitial.store.inv).1
  have hcovers := (Leases.run_preserves hstore₂ hinv).2 b
  exact Server.covers_store.mp (hcovers (Server.covers_store.mpr hb))

/-- Several steps. -/
def Server.steps (s : Server P) : List (ServerStep P) → Option (Server P)
  | [] => some s
  | a :: as => (s.step a).bind fun s' => s'.steps as

theorem Server.Run.steps {as : List (ServerStep P)} (hrun : Server.Run ok s s')
    (hok : ∀ a ∈ as, ∀ s, ok s a) (h : s'.steps as = some s'') : Server.Run ok s s'' := by
  induction as generalizing s' with
  | nil =>
    obtain rfl := Option.some.inj h
    exact hrun
  | cons a as ih =>
    obtain ⟨t, hstep, hsteps⟩ := Option.bind_eq_some_iff.mp h
    exact ih (hrun.tail (hok a List.mem_cons_self s') hstep)
      (fun a' ha' => hok a' (List.mem_cons_of_mem a ha')) hsteps

theorem Server.steps_append (s : Server P) (as as' : List (ServerStep P)) :
    s.steps (as ++ as') = (s.steps as).bind fun s' => s'.steps as' := by
  induction as generalizing s with
  | nil => rfl
  | cons a as ih =>
    rw [List.cons_append, Server.steps, Server.steps, Option.bind_assoc]
    exact congrArg _ (funext ih)

theorem Server.steps_singleton (s : Server P) (a : ServerStep P) : s.steps [a] = s.step a :=
  Option.bind_fun_some _

end Runs

/-! ## Two reclaims on the frame set -/

namespace Frame

/-- Three corners of the solved frame. -/
def root : Packet .p16 := packet fun c => c.pos = 3 ∨ c.pos = 12 ∨ c.pos = 15

/-- The same with the last corner, which only one piece fits. -/
def rootForced : Packet .p16 := packet fun c => c.pos = 0 ∨ c.pos = 3 ∨ c.pos = 12 ∨ c.pos = 15

/-- Only one piece fits the last corner. -/
theorem forced_corner : ∀ n ∈ List.range 65, 1 ≤ n ∧ shows (pieces .p16) (n : Nat) .top = 0 ∧
    shows (pieces .p16) (n : Nat) .left = 0 ∧
    (∀ c ∈ Cell.all .p16, c.pos = 3 ∨ c.pos = 12 ∨ c.pos = 15 → pieceId .p16 (value c) ≠ pieceId .p16 (n : Nat)) →
    ((n : Nat) : Int) = value (Cell.ofPos .p16 0) := by
  decide +kernel

theorem packet_grid_ne {keep : Cell .p16 → Bool} {c : Cell .p16} :
    (packet keep).grid c ≠ -2 ↔ keep c = true := by
  rw [packet_grid, ne_eq, grid_eq_empty, Bool.not_eq_false]

theorem packet_grid_of_ne {keep : Cell .p16 → Bool} {c : Cell .p16} (h : (packet keep).grid c ≠ -2) :
    (packet keep).grid c = value c := by
  rw [packet_grid] at h ⊢
  exact grid_of_ne h

/-- A solution below the root has the piece that fits in the corner. -/
theorem solutions_root {b : Grid .p16} (hb : b ∈ root.grid.solutions (pieces .p16)) :
    b ∈ rootForced.grid.solutions (pieces .p16) := by
  obtain ⟨hb, hextends⟩ := hb
  have hroot : ∀ c, c.pos = 3 ∨ c.pos = 12 ∨ c.pos = 15 → b c = value c := fun c hc => by
    have hne : root.grid c ≠ -2 := packet_grid_ne.mpr (decide_eq_true hc)
    rw [hextends c hne]
    exact packet_grid_of_ne hne
  refine ⟨hb, fun c hc => ?_⟩
  rw [show rootForced.grid c = value c from packet_grid_of_ne hc]
  rcases of_decide_eq_true (packet_grid_ne.mp hc) with hcorner | hkept
  · obtain rfl : c = Cell.ofPos .p16 0 := by rw [← hcorner, Cell.ofPos_pos]
    have hrange := isPiece_iff.mp (hb.piece (Cell.ofPos .p16 0))
    have hcount : (4 * Puzzle.p16.eternParts : Int) = 64 := by decide
    have hforced := forced_corner (b (Cell.ofPos .p16 0)).toNat
    rw [Int.toNat_of_nonneg (by omega)] at hforced
    refine hforced (List.mem_range.mpr (by omega)) ⟨by omega, hb.border _ _ (by decide),
      hb.border _ _ (by decide), fun c' _ hc' heq => ?_⟩
    -- The other corners hold their own pieces.
    rw [← hroot c' hc'] at heq
    obtain rfl := Grid.IsCompletion.id_inj hb heq
    omega
  · exact hroot c hkept

/-- A server with one packet in stock and one file for leases. -/
def server : Server .p16 :=
  ⟨(putToLocal .empty [root] (fun _ => true) (fun _ => true)).1, [[]], .idle, [], []⟩

/-- A client asks for the packet, its lease expires, and the packet goes back into the stock. -/
def expire : List (ServerStep .p16) :=
  [.get false 0 0 0 (some (1, 10)), .reclaimStart 20, .reclaimFile none true, .putBack 0]

/-- The rest of the reclaim. -/
def finish : List (ServerStep .p16) := [.accumulate true, .purgeAnalysed, .purgeStock]

/-- Another client asks for the packet and hands it back with the corner filled. -/
def handBack : List (ServerStep .p16) :=
  [.get false 0 0 0 (some (2, 30)), .add 1 [rootForced] (fun _ => true) (fun _ => true)]

theorem server_initial : server.Initial where
  reclaim := rfl
  clients := rfl
  stock := putToLocal_ofPackets _ _ _
  analysed _ he := absurd he List.not_mem_nil

theorem server_covers : server.Covers (pieces .p16) (grid fun _ => true) := by
  have hencodable : root.Encodable := codecValue_of_wellFormed (packet_wellFormed _).grid
  obtain ⟨record, q, hrecord, hload, hcanonical⟩ := recordPacket_recordOf hencodable
  obtain ⟨stored, hperm, hok⟩ := putToLocal_records .empty [root] (fun _ => true) (fun _ => true)
  have hstored : root ∈ stored := (hok rfl).mem_iff.mpr List.mem_cons_self
  refine .inr (.inl ⟨record, ?_, q, hload, isCompletion_grid fun _ => false, fun c hc => ?_⟩)
  · exact hperm.mem_iff.mpr (List.mem_append_right _ (List.mem_filterMap.mpr ⟨root, hstored, hrecord⟩))
  · rw [hcanonical.grid] at hc ⊢
    rw [show root.grid c = value c from packet_grid_of_ne hc]
    rfl

/-- The packets have the same grid. -/
def sameGrid (p q : Packet .p16) : Bool := (Cell.all .p16).all fun c => p.grid c == q.grid c

theorem sameGrid_iff {p q : Packet .p16} : sameGrid p q = true ↔ p.grid = q.grid := by
  rw [sameGrid, List.all_eq_true, funext_iff]
  simp

/-- The second client has received the root and handed back its forced extension. -/
theorem handBack_client : ∃ s c, server.steps (expire ++ handBack) = some s ∧ s.clients[1]? = some c ∧
    c.packet.grid = root.grid ∧ ∃ d ∈ c.handed, d.grid = rootForced.grid := by
  have hrun : (match server.steps (expire ++ handBack) with
      | some s => s.clients[1]?.any fun c => sameGrid c.packet root && c.handed.any (sameGrid · rootForced)
      | none => false) = true := by decide +kernel
  split at hrun
  · rename_i s hs
    obtain ⟨c, hc, hgrids⟩ := Option.any_eq_true _ _ |>.mp hrun
    rw [Bool.and_eq_true, sameGrid_iff, List.any_eq_true] at hgrids
    obtain ⟨hpacket, d, hd, hhanded⟩ := hgrids
    exact ⟨s, c, hs, hc, hpacket, d, hd, sameGrid_iff.mp hhanded⟩
  · exact absurd hrun (by decide)

/-- The server is back at rest, and it holds and has recorded nothing. -/
def restsEmpty : Option (Server .p16) → Bool
  | some ⟨stock, analysed, .idle, _, recorded⟩ =>
    stock.records.isEmpty && analysed.flatten.isEmpty && recorded.isEmpty
  | _ => false

/-- After the acknowledgement and the purge the server is empty. -/
theorem purged : ∃ s, server.steps (expire ++ handBack ++ [.ack 1 0] ++ finish) = some s ∧ s.reclaim = .idle ∧
    s.stock.records = [] ∧ s.analysed.flatten = [] ∧ s.recorded = [] := by
  have hrun : restsEmpty (server.steps (expire ++ handBack ++ [.ack 1 0] ++ finish)) = true := by
    decide +kernel
  unfold restsEmpty at hrun
  split at hrun
  · rename_i stock analysed clients recorded hs
    rw [Bool.and_eq_true, Bool.and_eq_true, List.isEmpty_iff, List.isEmpty_iff, List.isEmpty_iff] at hrun
    exact ⟨_, hs, rfl, hrun.1.1, hrun.1.2, hrun.2⟩
  · exact absurd hrun (by decide)

end Frame

/-- A reclaim that no client disturbs: the solution is still below the packet. -/
theorem Server.covers_of_undisturbed_finish : ∃ s, Frame.server.steps (Frame.expire ++ Frame.finish) = some s ∧
    (s.Covers (Frame.pieces .p16) (Frame.grid fun _ => true) ∨
      ∃ p ∈ s.reclaim.buf, Frame.grid (fun _ => true) ∈ p.grid.solutions (Frame.pieces .p16)) := by
  have hrun : (Frame.server.steps (Frame.expire ++ Frame.finish)).isSome := by decide +kernel
  obtain ⟨s, hs⟩ := Option.isSome_iff_exists.mp hrun
  refine ⟨s, hs, Server.covers_of_undisturbed (Frame.pieces .p16) Frame.server_initial (.refl _)
    ((Server.Run.refl _).steps (fun a ha s => ?_) hs) (.inl Frame.server_covers)⟩
  simp only [Frame.expire, Frame.finish, List.cons_append, List.nil_append, List.mem_cons, List.not_mem_nil,
    or_false] at ha
  rcases ha with rfl | rfl | rfl | rfl | rfl | rfl | rfl <;> exact ⟨trivial, trivial⟩

/-- The second client acknowledges the packet before the descendants are purged: its forced
extension goes with them, and the solution is lost. -/
theorem Server.completion_lost : ∃ s, Frame.server.Initial ∧
    Server.Run (ServerStep.Honest (Frame.pieces .p16)) Frame.server s ∧
    Frame.server.Covers (Frame.pieces .p16) (Frame.grid fun _ => true) ∧
    ¬ (s.Covers (Frame.pieces .p16) (Frame.grid fun _ => true) ∨
      ∃ p ∈ s.reclaim.buf, Frame.grid (fun _ => true) ∈ p.grid.solutions (Frame.pieces .p16)) := by
  obtain ⟨s₁, c, hs₁, hc, hpacket, d, hd, hhanded⟩ := Frame.handBack_client
  obtain ⟨s, hs, hidle, hstock, hanalysed, hrecorded⟩ := Frame.purged
  rw [Server.steps_append, Server.steps_append, hs₁] at hs
  obtain ⟨s₂, hack, hfinish⟩ := Option.bind_eq_some_iff.mp hs
  rw [Option.bind_some, Server.steps_singleton] at hack
  refine ⟨s, Frame.server_initial, ?_, Frame.server_covers, ?_⟩
  · have hbefore : Server.Run (ServerStep.Honest (Frame.pieces .p16)) Frame.server s₁ := by
      refine (Server.Run.refl _).steps (fun a ha s => ?_) hs₁
      simp only [Frame.expire, Frame.handBack, List.cons_append, List.nil_append, List.mem_cons,
        List.not_mem_nil, or_false] at ha
      rcases ha with rfl | rfl | rfl | rfl | rfl | rfl <;> exact trivial
    have hhonest : (ServerStep.ack 1 0).Honest (Frame.pieces .p16) s₁ := by
      intro c' hc' b hb
      obtain rfl := Option.some.inj (hc.symm.trans hc')
      rw [hpacket] at hb
      exact .inr ⟨d, hd, by rw [hhanded]; exact Frame.solutions_root hb⟩
    refine (hbefore.tail hhonest hack).steps (fun a ha s => ?_) hfinish
    simp only [Frame.finish, List.mem_cons, List.not_mem_nil, or_false] at ha
    rcases ha with rfl | rfl | rfl <;> exact trivial
  · rintro ((⟨q, hq, -⟩ | ⟨record, hrecord, -⟩ | ⟨e, he, -⟩) | ⟨p, hp, -⟩)
    · rw [hrecorded] at hq
      exact absurd hq List.not_mem_nil
    · rw [hstock] at hrecord
      exact absurd hrecord List.not_mem_nil
    · rw [hanalysed] at he
      exact absurd he List.not_mem_nil
    · rw [hidle] at hp
      exact absurd hp List.not_mem_nil
