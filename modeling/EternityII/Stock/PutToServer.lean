-- SUMMARY: Handing packets to the server in chunks: what it acknowledges and what goes back to the local pools.
import EternityII.Stock.LocalStock

/-!
# Handing packets to the server

`put_to_server` cuts an array into chunks of one class and sends them one after the other. A
chunk the server refuses goes to the local pools, and so does everything that is left when
the connection is lost. A connection that cannot be established at all leaves the packets
where they are.
-/

/-! ## The network -/

/-- `INST_END`. -/
def instEnd : Int8 := 4

/-- `INST_CONSIDERED`. -/
def instConsidered : Int8 := 5

/-- `INST_SUPPORTED_VERSION`. -/
def instSupportedVersion : Int8 := 10

/-- `INST_UNSUPPORTED_VERSION`. -/
def instUnsupportedVersion : Int8 := 11

/-- `ADD_BATCH_MAX`. -/
def addBatchMax : Nat := 1024

/-- `handshake_verdict_t`. -/
inductive HandshakeVerdict where
  | ok | versionRejected | retry
  deriving DecidableEq, Repr

/-- `handshake_verdict`. -/
def handshakeVerdict (result : Int8) : HandshakeVerdict :=
  if result = instSupportedVersion then .ok
  else if result = instUnsupportedVersion then .versionRejected
  else .retry

/-- What `check_and_connect_to_server` reads: the socket it has and whether it still works, or
whether a new one can be opened, the answer to the version and whether the hello was sent. -/
structure Connection where
  hasSocket : Bool
  isConnected : Bool
  created : Bool
  handshake : Int8
  helloOk : Bool

/-- `check_and_connect_to_server`: a usable socket, none, or none and a `REQUEST_STOP`. -/
inductive ConnectResult where
  | connected | failed | rejected
  deriving DecidableEq, Repr

/-- `check_and_connect_to_server`. -/
def checkAndConnectToServer (c : Connection) : ConnectResult :=
  if c.hasSocket && c.isConnected then .connected
  else if !c.created then .failed
  else
    match handshakeVerdict c.handshake with
    | .versionRejected => .rejected
    | .retry => .failed
    | .ok => if c.helloOk then .connected else .failed

/-- What one turn of the loop reads: the outcomes of its three sends, the acknowledgement, and
the locks of the local pools should they be needed. -/
structure ChunkTurn where
  sendInstruction : Bool
  sendCount : Bool
  sendChunk : Bool
  ack : Int8
  freeUnchecked : Nat → Bool
  freeChecked : Nat → Bool

/-- The sends of a turn have all succeeded. -/
def ChunkTurn.sent (t : ChunkTurn) : Bool := t.sendInstruction && t.sendCount && t.sendChunk

section Put

variable {P : Puzzle}

/-- The packets from the first on that have its class, at most `ADD_BATCH_MAX` of them. -/
def chunkLength : List (Packet P) → Nat
  | [] => 0
  | p :: ps => (((p :: ps).take addBatchMax).takeWhile fun q =>
      decide (q.checked = 1) == decide (p.checked = 1)).length

/-- What a call of `put_to_server` leaves: the stock, the packets of the chunks acknowledged by
`INST_CONSIDERED`, and the value returned. -/
structure ServerPut (P : Puzzle) where
  stock : LocalStock
  acked : List (Packet P)
  result : Int

/-- The exit of the loop on a lost connection. -/
def connectionLost (t : ChunkTurn) (rest : List (Packet P)) (stock : LocalStock) (acked : List (Packet P)) :
    ServerPut P :=
  ⟨(putToLocal stock rest t.freeUnchecked t.freeChecked).1, acked, -1⟩

/-- The loop of `put_to_server` on the packets from `sent` on. Every turn settles at least one,
so their number is enough for `fuel`. -/
def putToServerLoop (turn : Nat → ChunkTurn) (fuel n : Nat) (rest : List (Packet P)) (stock : LocalStock)
    (acked : List (Packet P)) : ServerPut P :=
  match fuel with
  | 0 => ⟨stock, acked, 0⟩
  | fuel + 1 =>
    if rest.length = 0 then ⟨stock, acked, 0⟩
    else
      let t := turn n
      let k := chunkLength rest
      if !t.sent then connectionLost t rest stock acked
      else if t.ack = instConsidered then
        putToServerLoop turn fuel (n + 1) (rest.drop k) stock (acked ++ rest.take k)
      else if t.ack = instEnd then connectionLost t rest stock acked
      else
        putToServerLoop turn fuel (n + 1) (rest.drop k)
          (putToLocal stock (rest.take k) t.freeUnchecked t.freeChecked).1 acked

/-- `put_to_server`. -/
def putToServer (connection : Connection) (turn : Nat → ChunkTurn) (stock : LocalStock)
    (possibilities : List (Packet P)) : ServerPut P :=
  if possibilities.length = 0 then ⟨stock, [], 0⟩
  else if checkAndConnectToServer connection ≠ .connected then ⟨stock, [], -1⟩
  else putToServerLoop turn possibilities.length 0 possibilities stock []

end Put

/-! ## Chunks -/

section Chunks

variable {P : Puzzle}

theorem chunkLength_pos {rest : List (Packet P)} (h : rest ≠ []) : 0 < chunkLength rest := by
  cases rest with
  | nil => exact absurd rfl h
  | cons p ps =>
    show 0 < ((p :: ps.take (addBatchMax - 1)).takeWhile _).length
    rw [List.takeWhile_cons_of_pos (by simp)]
    exact Nat.succ_pos _

/-- The packets that the network leaves without an acknowledgement, when the loop stands at
turn `n`. -/
def unacknowledged (turn : Nat → ChunkTurn) (fuel n : Nat) (rest : List (Packet P)) : List (Packet P) :=
  match fuel with
  | 0 => []
  | fuel + 1 =>
    if rest.length = 0 then []
    else if !(turn n).sent || (turn n).ack = instEnd then rest
    else if (turn n).ack = instConsidered then
      unacknowledged turn fuel (n + 1) (rest.drop (chunkLength rest))
    else rest.take (chunkLength rest) ++
      unacknowledged turn fuel (n + 1) (rest.drop (chunkLength rest))

/-- Local insertions find a file to lock in both pools. -/
def FindsFile (turn : Nat → ChunkTurn) (stock : LocalStock) : Prop :=
  ∀ n, (∃ i < trylockMaxSweeps * stock.unchecked.files.length, (turn n).freeUnchecked i = true) ∧
    ∃ i < trylockMaxSweeps * stock.checked.files.length, (turn n).freeChecked i = true

/-- What the loop leaves: it acknowledges or inserts every packet. -/
structure LoopPut (turn : Nat → ChunkTurn) (fuel n : Nat) (rest : List (Packet P)) (stock : LocalStock)
    (acked : List (Packet P)) (r : ServerPut P) : Prop where
  split : (r.acked ++ unacknowledged turn fuel n rest).Perm (acked ++ rest)
  insert : InsertSpec stock (unacknowledged turn fuel n rest) r.stock

theorem InsertSpec.refl (stock : LocalStock) : InsertSpec stock ([] : List (Packet P)) stock where
  cap := rfl
  other := rfl
  unchecked := rfl
  checked := rfl
  length := Nat.le_refl _
  short _ := ⟨fun _ h => absurd h List.not_mem_nil, .inl rfl, by simp⟩
  stores _ _ := by simp

/-- Packets taken out of the middle are still there. -/
theorem perm_take_drop {α : Type*} {acked acked' rest un : List α} {k : Nat}
    (h : (acked' ++ un).Perm (acked ++ rest.drop k)) :
    (acked' ++ (rest.take k ++ un)).Perm (acked ++ rest) := by
  have hswap : (acked' ++ (rest.take k ++ un)).Perm (rest.take k ++ (acked' ++ un)) := by
    rw [← List.append_assoc, ← List.append_assoc]
    exact List.perm_append_comm.append_right un
  have hback : (rest.take k ++ (acked ++ rest.drop k)).Perm (acked ++ rest) := by
    rw [← List.append_assoc]
    refine (List.perm_append_comm.append_right _).trans ?_
    rw [List.append_assoc, List.take_append_drop]
  exact hswap.trans ((h.append_left _).trans hback)

theorem LoopPut.nil (turn : Nat → ChunkTurn) (fuel n : Nat) (stock : LocalStock) (acked : List (Packet P)) :
    LoopPut turn fuel n [] stock acked ⟨stock, acked, 0⟩ := by
  have hun : unacknowledged turn fuel n ([] : List (Packet P)) = [] := by
    cases fuel <;> rfl
  exact ⟨by rw [hun], by rw [hun]; exact .refl stock⟩

theorem LoopPut.lost {turn : Nat → ChunkTurn} {fuel n : Nat} {rest acked : List (Packet P)}
    {stock : LocalStock} (hfree : FindsFile turn stock) (hrest : rest.length ≠ 0)
    (hlost : (!(turn n).sent || decide ((turn n).ack = instEnd)) = true) :
    LoopPut turn (fuel + 1) n rest stock acked (connectionLost (turn n) rest stock acked) := by
  have hun : unacknowledged turn (fuel + 1) n rest = rest := by
    rw [unacknowledged, if_neg hrest, if_pos hlost]
  refine ⟨by rw [hun]; exact .refl _, ?_⟩
  rw [hun]
  exact putToLocal_spec stock rest (hfree n).1 (hfree n).2

theorem putToServerLoop_spec {turn : Nat → ChunkTurn} {fuel : Nat} (n : Nat) {rest : List (Packet P)}
    (acked : List (Packet P)) {stock : LocalStock} (hfree : FindsFile turn stock) (hfuel : rest.length ≤ fuel) :
    LoopPut turn fuel n rest stock acked (putToServerLoop turn fuel n rest stock acked) := by
  induction fuel generalizing n rest acked stock with
  | zero =>
    obtain rfl := List.eq_nil_of_length_eq_zero (Nat.le_zero.mp hfuel)
    exact .nil turn 0 n stock acked
  | succ fuel ih =>
    unfold putToServerLoop
    split
    · rename_i hnil
      obtain rfl := List.eq_nil_of_length_eq_zero hnil
      exact .nil turn (fuel + 1) n stock acked
    · rename_i hrest
      have hpos := chunkLength_pos (List.ne_nil_of_length_pos (Nat.pos_of_ne_zero hrest))
      have hdrop : (rest.drop (chunkLength rest)).length ≤ fuel := by
        rw [List.length_drop]
        omega
      dsimp only
      split
      · rename_i hsend
        exact .lost hfree hrest (by simp [hsend])
      · rename_i hsend
        split
        · rename_i hack
          have hend : (turn n).ack ≠ instEnd := by
            rw [hack]
            decide
          have hun : unacknowledged turn (fuel + 1) n rest =
              unacknowledged turn fuel (n + 1) (rest.drop (chunkLength rest)) := by
            rw [unacknowledged, if_neg hrest, if_neg (by simpa [hend] using hsend), if_pos hack]
          obtain ⟨hsplit, hinsert⟩ := ih (n + 1) (acked ++ rest.take (chunkLength rest)) hfree hdrop
          refine ⟨?_, by rw [hun]; exact hinsert⟩
          rw [List.append_assoc, List.take_append_drop] at hsplit
          rw [hun]
          exact hsplit
        · rename_i hack
          split
          · rename_i hend
            exact .lost hfree hrest (by simp [hend])
          · rename_i hend
            have hun : unacknowledged turn (fuel + 1) n rest = rest.take (chunkLength rest) ++
                unacknowledged turn fuel (n + 1) (rest.drop (chunkLength rest)) := by
              rw [unacknowledged, if_neg hrest, if_neg (by simpa [hend] using hsend), if_neg hack]
            have hput := putToLocal_spec stock (rest.take (chunkLength rest)) (hfree n).1 (hfree n).2
            have hfree' : FindsFile turn (putToLocal stock (rest.take (chunkLength rest))
                (turn n).freeUnchecked (turn n).freeChecked).1 := fun m => by
              rw [hput.unchecked, hput.checked]
              exact hfree m
            obtain ⟨hsplit, hinsert⟩ := ih (n + 1) acked hfree' hdrop
            exact ⟨by rw [hun]; exact perm_take_drop hsplit, by rw [hun]; exact hput.trans hinsert⟩

end Chunks

/-! ## Every packet in one place -/

/-- Every packet of the array is in one place: acknowledged by the server, or among the packets
whose records, and no others, have joined the local pools. -/
def Settled {P : Puzzle} (stock : LocalStock) (possibilities : List (Packet P)) (r : ServerPut P) : Prop :=
  ∃ kept, (r.acked ++ kept).Perm possibilities ∧
    (r.stock.records.map some).Perm (stock.records.map some ++ kept.map recordOf)

section Settled

variable {P : Puzzle} {stock : LocalStock} {possibilities kept : List (Packet P)} {r : ServerPut P}

theorem map_some_filterMap {packets : List (Packet P)} (h : ∀ p ∈ packets, p.Encodable) :
    (packets.filterMap recordOf).map some = packets.map recordOf := by
  induction packets with
  | nil => rfl
  | cons p packets ih =>
    obtain ⟨record, hrecord, -⟩ := recordOf_of_encodable (h p List.mem_cons_self)
    rw [List.filterMap_cons_some hrecord, List.map_cons, List.map_cons, hrecord,
      ih fun q hq => h q (List.mem_cons_of_mem p hq)]

/-- When what is not acknowledged has been inserted, everything is settled exactly when all of
it could be stored. -/
theorem settled_iff (hsplit : (r.acked ++ kept).Perm possibilities) (h : InsertSpec stock kept r.stock) :
    Settled stock possibilities r ↔ (∀ p ∈ kept, p.Encodable) ∧ (kept = [] ∨ stock.Admits kept) := by
  constructor
  · rintro ⟨kept', hsplit', hrecords⟩
    have hlength := (hsplit.trans hsplit'.symm).length_eq
    have hgrown := hrecords.length_eq
    simp only [List.length_append, List.length_map] at hlength hgrown
    obtain ⟨hencodable, hadmits, -⟩ := h.short (by omega)
    exact ⟨hencodable, hadmits⟩
  · rintro ⟨hencodable, hadmits⟩
    refine ⟨kept, hsplit, ?_⟩
    have hrecords := (h.stores hencodable hadmits).map some
    rwa [List.map_append, map_some_filterMap hencodable] at hrecords

end Settled

/-- `put_to_server` leaves every packet in one place exactly when the array is empty, or the
connection can be established and the packets that the network leaves unacknowledged can be
encoded and fit under the RAM cap of the local stock. -/
theorem putToServer_settled_iff {P : Puzzle} (connection : Connection) (turn : Nat → ChunkTurn)
    (stock : LocalStock) (possibilities : List (Packet P)) (hfree : FindsFile turn stock) :
    Settled stock possibilities (putToServer connection turn stock possibilities) ↔
      possibilities = [] ∨ checkAndConnectToServer connection = .connected ∧
        (∀ p ∈ unacknowledged turn possibilities.length 0 possibilities, p.Encodable) ∧
        (unacknowledged turn possibilities.length 0 possibilities = [] ∨
          stock.Admits (unacknowledged turn possibilities.length 0 possibilities)) := by
  unfold putToServer
  split
  · rename_i hnil
    obtain rfl := List.eq_nil_of_length_eq_zero hnil
    exact iff_of_true ⟨[], .refl _, by simp⟩ (.inl rfl)
  · rename_i hsome
    have hne : possibilities ≠ [] := List.ne_nil_of_length_pos (Nat.pos_of_ne_zero hsome)
    split
    · rename_i hconnect
      refine iff_of_false ?_ fun h => ?_
      · -- Nothing was acknowledged and nothing was inserted.
        rintro ⟨kept, hsplit, hrecords⟩
        have hlength := hsplit.length_eq
        have hgrown := hrecords.length_eq
        simp only [List.length_append, List.length_map, List.length_nil] at hlength hgrown
        omega
      · exact hconnect (h.resolve_left hne).1
    · rename_i hconnect
      obtain ⟨hsplit, hinsert⟩ :=
        putToServerLoop_spec 0 [] hfree (Nat.le_refl possibilities.length)
      rw [List.nil_append] at hsplit
      rw [settled_iff hsplit hinsert]
      simp [hne, not_not.mp hconnect]

/-- A stock of one empty file in each pool, without a cap. -/
def LocalStock.empty : LocalStock where
  unchecked := ⟨[[]], 0, by decide⟩
  checked := ⟨[[]], 0, by decide⟩
  otherBytes := 0
  stockMaxRamBytes := 0

/-- A server that refuses the only chunk: the packet is in the local pools. -/
theorem putToServer_settled_iff_refused :
    Settled .empty [Frame.packet fun c : Cell .p16 => c.pos = 0]
      (putToServer ⟨true, true, true, 0, true⟩ (fun _ => ⟨true, true, true, -1, fun _ => true, fun _ => true⟩)
        .empty [Frame.packet fun c : Cell .p16 => c.pos = 0]) := by
  have hencodable : (Frame.packet fun c : Cell .p16 => c.pos = 0).Encodable :=
    codecValue_of_wellFormed (Frame.packet_wellFormed _).grid
  refine (putToServer_settled_iff _ _ _ _ fun _ => ?_).mpr (.inr ⟨rfl, ?_, .inr (.inl rfl)⟩)
  · exact ⟨⟨0, by decide, rfl⟩, 0, by decide, rfl⟩
  · intro p hp
    obtain rfl : p = Frame.packet fun c : Cell .p16 => c.pos = 0 := List.mem_singleton.mp hp
    exact hencodable

/-- A server that cannot be reached: the packet is nowhere. -/
theorem putToServer_unreachable :
    (putToServer ⟨false, false, false, 0, false⟩
        (fun _ => ⟨true, true, true, instConsidered, fun _ => true, fun _ => true⟩) .empty
        [Frame.packet fun c : Cell .p16 => c.pos = 0]).acked = [] ∧
    (putToServer ⟨false, false, false, 0, false⟩
        (fun _ => ⟨true, true, true, instConsidered, fun _ => true, fun _ => true⟩) .empty
        [Frame.packet fun c : Cell .p16 => c.pos = 0]).stock.records = [] ∧
    ¬ Settled .empty [Frame.packet fun c : Cell .p16 => c.pos = 0]
      (putToServer ⟨false, false, false, 0, false⟩
        (fun _ => ⟨true, true, true, instConsidered, fun _ => true, fun _ => true⟩) .empty
        [Frame.packet fun c : Cell .p16 => c.pos = 0]) := by
  refine ⟨rfl, rfl, ?_⟩
  rintro ⟨kept, hsplit, hrecords⟩
  have hlength : kept.length = 1 := hsplit.length_eq
  have hgrown : 0 = (kept.map recordOf).length := hrecords.length_eq
  rw [List.length_map] at hgrown
  omega
