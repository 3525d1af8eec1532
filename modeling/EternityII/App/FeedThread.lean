-- SUMMARY: A client thread and the acknowledgements of what the server gave it, over all turns of its feed.
import EternityII.Base.IndexedFile
import EternityII.Base.Runs
import EternityII.Search.Delegate
import EternityII.Stock.PutToServer
import EternityII.Stock.Rebalance

/-!
# Feeding a client thread

A client thread works on one batch at a time. When it has none, its feed first acknowledges what it
got from the server before, then fetches a new batch: from the local pools, or from the server. The
packets that the server gave are kept in the analysed file of the thread until they are acknowledged.
-/

/-! ## The analysed file -/

/-- `ANALYSED_INDEX_BUCKETS`. -/
def analysedIndexBuckets : Nat := 8191

/-- `ANALYSED_HASH_BYTE`. -/
def analysedHashByte (h : UInt64) (b : UInt8) : UInt64 := (h ^^^ b.toUInt64) * 1099511628211

/-- Two bytes of a value, the low one first. -/
def analysedHash16 (h : UInt64) (v : BitVec 16) : UInt64 :=
  analysedHashByte (analysedHashByte h ⟨v.setWidth 8⟩) ⟨(v >>> 8).setWidth 8⟩

section

variable {P : Puzzle}

/-- `hash_possibility_key`. -/
def hashPossibilityKey (p : Packet P) : UInt64 :=
  let h := analysedHashByte (analysedHashByte 1469598103934665603 p.x) p.y
  let h := analysedHash16 h p.alloc.toBitVec
  let h := (List.range (P.eternParts / 16)).foldl (fun h g => analysedHash16 h (p.bFaceused g)) h
  (Cell.all P).foldl (fun h c => analysedHash16 h (BitVec.ofInt 16 (p.grid c))) h

/-- `file_possibility_analysed[thread]->file` and `analysed_index[thread]`. -/
abbrev AnalysedFile (P : Puzzle) : Type := IndexedFile (Packet P)

/-- `put`, and `analysed_index_add` where it succeeds; whether there is memory for the element and for
the node. -/
def putAnalysed (f : AnalysedFile P) (p : Packet P) (element node : Bool) : AnalysedFile P :=
  if element then f.put hashPossibilityKey analysedIndexBuckets p node else f

/-- What an addition reads: the attempts at the lock and the memory. -/
structure AnalysedAdd where
  free : Nat → Bool
  element : Bool
  node : Bool

/-- `add_possibility_analysed` with `thread ≥ 0`. -/
def addPossibilityAnalysedTo (f : AnalysedFile P) (possibility : Packet P) (a : AnalysedAdd) : AnalysedFile P × Int :=
  match firstFree a.free trylockMaxSweeps 0 with
  | none => (f, -1)
  | some _ => (putAnalysed f possibility a.element a.node, 0)

/-! ## Acknowledging -/

/-- What one slice reads: the outcomes of its three sends, the answer, and the memory when its packets
are put back. -/
structure AnalysedTurn where
  sendInstruction : Bool
  sendCount : Bool
  sendSlice : Bool
  reply : Int8
  element : Nat → Bool
  node : Nat → Bool

/-- The slice is sent and answered by `INST_CONSIDERED`. -/
def AnalysedTurn.accepted (t : AnalysedTurn) : Bool :=
  t.sendInstruction && t.sendCount && t.sendSlice && decide (t.reply = instConsidered)

/-- The loop that drains a slice of at most `cap` packets. -/
def drainSlice : Nat → AnalysedFile P → List (Packet P) × AnalysedFile P
  | 0, f => ([], f)
  | cap + 1, f =>
    match f.scroll hashPossibilityKey analysedIndexBuckets with
    | none => ([], f)
    | some (p, rest) => (p :: (drainSlice cap rest).1, (drainSlice cap rest).2)

/-- The loop that puts a slice back, from its packet `i` on. -/
def putBackSlice (t : AnalysedTurn) : Nat → List (Packet P) → AnalysedFile P → AnalysedFile P
  | _, [], f => f
  | i, p :: buf, f => putBackSlice t (i + 1) buf (putAnalysed f p (t.element i) (t.node i))

/-- The loop over the slices; the result is the file and the packets acknowledged. Every slice but the
last takes a packet off the file, so their number is enough for `fuel`. -/
def sendSlices (turn : Nat → AnalysedTurn) (cap : Nat) : Nat → Nat → AnalysedFile P →
    AnalysedFile P × List (Packet P)
  | 0, _, f => (f, [])
  | fuel + 1, n, f =>
    let buf := (drainSlice cap f).1
    let rest := (drainSlice cap f).2
    if buf.length = 0 then (rest, [])
    else if (turn n).accepted = false then (putBackSlice (turn n) 0 buf rest, [])
    else if buf.length = cap then
      ((sendSlices turn cap fuel (n + 1) rest).1, buf ++ (sendSlices turn cap fuel (n + 1) rest).2)
    else (rest, buf)

/-- What a call of `send_possibility_analysed` reads. -/
structure AnalysedSend where
  connection : Connection
  lock : Bool
  buffer : Bool
  prunerBatchSize : Int
  turn : Nat → AnalysedTurn

/-- `cap`. -/
def AnalysedSend.cap (s : AnalysedSend) : Nat := if s.prunerBatchSize > 0 then s.prunerBatchSize.toNat else 1

theorem AnalysedSend.cap_pos (s : AnalysedSend) : 0 < s.cap := by
  rw [AnalysedSend.cap]
  split <;> omega

/-- `send_possibility_analysed`: the file and the packets acknowledged; `remote` says whether there is a
server. -/
def sendPossibilityAnalysed (remote : Bool) (s : AnalysedSend) (f : AnalysedFile P) :
    AnalysedFile P × List (Packet P) :=
  if remote = false then
    if s.lock = true ∧ f.entries.length ≠ 0 then (f.clear, []) else (f, [])
  else if checkAndConnectToServer s.connection ≠ .connected then (f, [])
  else if s.lock = true ∧ f.entries.length ≠ 0 ∧ s.buffer = true then
    sendSlices s.turn s.cap (f.entries.length + 1) 0 f
  else (f, [])

/-! ## Fetching -/

/-- `scroll_from_local`: up to `max_result` packets off one file that it locks, if it finds any. -/
def scrollFromLocal (P : Puzzle) (stock : LocalStock) (maxResult : Int) (found : Option (Bool × Nat)) :
    List (Packet P) × LocalStock :=
  match found with
  | none => ([], stock)
  | some (checked, file) =>
    let pool := stock.pool checked
    let taken := scrollLoop P maxResult.toNat (pool.files.getD file [])
    (taken.1.reverse, stock.setPool checked
      { pool with
        files := pool.files.set file taken.2
        files_pos := by rw [List.length_set]; exact pool.files_pos })

/-- `scroll_from_server`: one request for a pruner and one for each packet otherwise; `replies` are the
packets that arrive whole. -/
def scrollFromServer (prunerMode : Bool) (maxResult : Int) (connection : Connection)
    (replies : List (List (Packet P))) : List (Packet P) :=
  if checkAndConnectToServer connection ≠ .connected then []
  else if prunerMode then (replies.head?.getD []).take maxResult.toNat
  else (replies.take maxResult.toNat).flatten.reverse

/-- What a fetch reads. -/
structure Fetch (P : Puzzle) where
  found : Option (Bool × Nat)
  connection : Connection
  replies : List (List (Packet P))

/-- `get_last_possibility`: the batch, whether it is the server's, and the local pools. -/
def getLastPossibility (remote prunerMode : Bool) (stock : LocalStock) (maxResult : Int) (t : Fetch P) :
    List (Packet P) × Bool × LocalStock :=
  let taken := scrollFromLocal P stock maxResult t.found
  if taken.1.length = 0 ∧ remote = true then
    let batch := scrollFromServer prunerMode maxResult t.connection t.replies
    (batch, decide (batch.length > 0), taken.2)
  else (taken.1, false, taken.2)

/-! ## The thread -/

/-- The client: `server_ip` is set, `pruner_mode`. -/
structure ClientConfig where
  remote : Bool
  prunerMode : Bool

/-- `client_possibility_t` with its analysed file and the local pools, and the history: what the server
gave in batches that the worker has finished, what it gave in the batch at work, and what was
acknowledged. -/
structure ClientPossibility (P : Puzzle) where
  works : Bool
  aposs : List (Packet P)
  analysed : AnalysedFile P
  stock : LocalStock
  finished : List (Packet P)
  atWork : List (Packet P)
  acked : List (Packet P)

/-- What a turn of the feed reads. -/
structure FeedTurn (P : Puzzle) where
  request : Request
  prunerBatchSize : Int
  send : AnalysedSend
  fetch : Fetch P
  add : Nat → AnalysedAdd

/-- The loop of `add_possibility_analysed` over a batch, from its packet `p` on. -/
def addBatchAnalysed (add : Nat → AnalysedAdd) : Nat → List (Packet P) → AnalysedFile P → AnalysedFile P
  | _, [], f => f
  | p, possibility :: batch, f =>
    addBatchAnalysed add (p + 1) batch (addPossibilityAnalysedTo f possibility (add p)).1

namespace ClientPossibility

/-- Nothing done yet. -/
def start (P : Puzzle) (stock : LocalStock) : ClientPossibility P :=
  ⟨false, [], .empty, stock, [], [], []⟩

variable (c : ClientConfig) (g : ClientPossibility P)

/-- A call of `send_possibility_analysed` for the thread. -/
def sendAnalysed (s : AnalysedSend) : ClientPossibility P :=
  let sent := sendPossibilityAnalysed c.remote s g.analysed
  { g with analysed := sent.1, acked := g.acked ++ sent.2 }

/-- The second half of `feed_one_thread`: a batch is fetched and handed to the worker. -/
def feedBatch (t : FeedTurn P) : ClientPossibility P :=
  let fetched := getLastPossibility c.remote c.prunerMode g.stock (if c.prunerMode then t.prunerBatchSize else 1) t.fetch
  if fetched.1.length > 0 then
    { g with
      works := true
      aposs := fetched.1
      analysed := if fetched.2.1 then addBatchAnalysed t.add 0 fetched.1 g.analysed else g.analysed
      stock := fetched.2.2
      atWork := if fetched.2.1 then fetched.1 else [] }
  else { g with stock := fetched.2.2 }

/-- `feed_one_thread`. -/
def feedOneThread (t : FeedTurn P) : ClientPossibility P :=
  if t.request = .stop then g
  else if g.works = false ∧ t.request = .continue_ then (g.sendAnalysed c t.send).feedBatch c t
  else g

/-- The worker has finished with its batch. -/
def complete : ClientPossibility P :=
  { g with works := false, aposs := [], finished := g.finished ++ g.atWork, atWork := [] }

/-- The worker packs up on a stop: what it leaves unprocessed has been sent back. -/
def completeStopped (s : AnalysedSend) : ClientPossibility P := g.complete.sendAnalysed c s

end ClientPossibility

/-- What happens to a client thread. -/
inductive ClientStep (P : Puzzle)
  | feed (t : FeedTurn P)
  | putToServer (connection : Connection) (turn : Nat → ChunkTurn) (possibilities : List (Packet P))
  | complete
  | completeStopped (s : AnalysedSend)
  | drain (s : AnalysedSend)

/-- One step: a turn of the feed, a call of `put_to_server` by the worker, the end of its batch, or the
last send of the feed when it stops. -/
def ClientPossibility.step (c : ClientConfig) (g : ClientPossibility P) : ClientStep P → Option (ClientPossibility P)
  | .feed t => some (g.feedOneThread c t)
  | .putToServer connection turn possibilities =>
    some { g with stock := (putToServer connection turn g.stock possibilities).stock }
  | .complete => if g.works then some g.complete else none
  | .completeStopped s => if g.works then some (g.completeStopped c s) else none
  | .drain s => some (g.sendAnalysed c s)

/-! ## One call of `send_possibility_analysed` -/

/-- The analysed file and its index agree. -/
def AnalysedConsistent (f : AnalysedFile P) : Prop := f.Consistent hashPossibilityKey analysedIndexBuckets

/-- There is memory to put a slice back that is not acknowledged. -/
def AnalysedSend.Restores (s : AnalysedSend) : Prop :=
  ∀ n, (s.turn n).accepted = false → ∀ i, (s.turn n).element i = true

/-- The call succeeds: it has a connection, the lock and a buffer, and all its slices are acknowledged. -/
def AnalysedSend.Succeeds (s : AnalysedSend) : Prop :=
  checkAndConnectToServer s.connection = .connected ∧ s.lock = true ∧ s.buffer = true ∧
    ∀ n, (s.turn n).accepted = true

section Sends

variable {f : AnalysedFile P} {p : Packet P} {t : AnalysedTurn} {s : AnalysedSend} {turn : Nat → AnalysedTurn}
  {cap : Nat}

theorem putAnalysed_consistent (h : AnalysedConsistent f) (p : Packet P) (element node : Bool) :
    AnalysedConsistent (putAnalysed f p element node) := by
  unfold putAnalysed
  split
  · exact h.put p node
  · exact h

theorem values_putAnalysed (node : Bool) : (putAnalysed f p true node).values = f.values ++ [p] :=
  IndexedFile.values_put

/-- A slice holds what leaves the file, up to its size. -/
theorem drainSlice_spec (h : AnalysedConsistent f) (cap : Nat) :
    AnalysedConsistent (drainSlice cap f).2 ∧ ((drainSlice cap f).1 ++ (drainSlice cap f).2.values).Perm f.values ∧
      (drainSlice cap f).1.length ≤ cap ∧ ((drainSlice cap f).1.length < cap → (drainSlice cap f).2.values = []) := by
  induction cap generalizing f with
  | zero => exact ⟨h, .refl _, le_rfl, fun hlt => absurd hlt (Nat.not_lt_zero _)⟩
  | succ cap ih =>
    rw [drainSlice]
    split
    · rename_i hempty
      exact ⟨h, .refl _, Nat.zero_le _, fun _ => IndexedFile.scroll_eq_none hempty⟩
    · rename_i p rest hscroll
      obtain ⟨hconsistent, hperm, hle, hshort⟩ := ih (h.scroll hscroll)
      refine ⟨hconsistent, ?_, Nat.succ_le_succ hle, fun hlt => hshort (Nat.lt_of_succ_lt_succ hlt)⟩
      rw [IndexedFile.values_scroll hscroll]
      exact (hperm.cons p).trans (List.perm_append_singleton p _).symm

theorem putBackSlice_consistent (t : AnalysedTurn) (i : Nat) (buf : List (Packet P)) (h : AnalysedConsistent f) :
    AnalysedConsistent (putBackSlice t i buf f) := by
  induction buf generalizing i f with
  | nil => exact h
  | cons p buf ih => exact ih (i + 1) (putAnalysed_consistent h p (t.element i) (t.node i))

/-- With memory a slice is put back whole. -/
theorem values_putBackSlice (ht : ∀ i, t.element i = true) (i : Nat) (buf : List (Packet P)) :
    (putBackSlice t i buf f).values = f.values ++ buf := by
  induction buf generalizing i f with
  | nil => exact (List.append_nil _).symm
  | cons p buf ih =>
    rw [putBackSlice, ih, ht i, values_putAnalysed, List.append_assoc]
    rfl

/-- A slice that is not acknowledged leaves the same packets in the file. -/
theorem values_slice_refused (h : AnalysedConsistent f) (ht : ∀ i, t.element i = true) (cap : Nat) :
    (putBackSlice t 0 (drainSlice cap f).1 (drainSlice cap f).2).values.Perm f.values := by
  rw [values_putBackSlice ht]
  exact List.perm_append_comm.trans (drainSlice_spec h cap).2.1

theorem sendSlices_consistent (turn : Nat → AnalysedTurn) (cap fuel n : Nat) (h : AnalysedConsistent f) :
    AnalysedConsistent (sendSlices turn cap fuel n f).1 := by
  induction fuel generalizing n f with
  | zero => exact h
  | succ fuel ih =>
    have hrest := (drainSlice_spec h cap).1
    rw [sendSlices]
    split
    · exact hrest
    · split
      · exact putBackSlice_consistent _ _ _ hrest
      · split
        · exact ih (n + 1) hrest
        · exact hrest

/-- Nothing leaves the file but what is acknowledged. -/
theorem sendSlices_perm (hturn : ∀ n, (turn n).accepted = false → ∀ i, (turn n).element i = true) (cap fuel n : Nat)
    (h : AnalysedConsistent f) :
    ((sendSlices turn cap fuel n f).2 ++ (sendSlices turn cap fuel n f).1.values).Perm f.values := by
  induction fuel generalizing n f with
  | zero => exact .refl _
  | succ fuel ih =>
    obtain ⟨hrest, hperm, -⟩ := drainSlice_spec h cap
    rw [sendSlices]
    split
    · rename_i hempty
      rw [List.length_eq_zero_iff.mp hempty] at hperm
      exact hperm
    · split
      · rename_i hrefused
        exact values_slice_refused h (hturn n hrefused) cap
      · split
        · dsimp only
          rw [List.append_assoc]
          exact ((ih (n + 1) hrest).append_left _).trans hperm
        · exact hperm

/-- When every slice is acknowledged, nothing is left in the file. -/
theorem sendSlices_empty (hturn : ∀ n, (turn n).accepted = true) (hcap : 0 < cap) {fuel n : Nat}
    (h : AnalysedConsistent f) (hfuel : f.values.length < fuel) : (sendSlices turn cap fuel n f).1.values = [] := by
  induction fuel generalizing n f with
  | zero => exact absurd hfuel (Nat.not_lt_zero _)
  | succ fuel ih =>
    obtain ⟨hrest, hperm, hle, hshort⟩ := drainSlice_spec h cap
    have hlength := hperm.length_eq
    rw [List.length_append] at hlength
    rw [sendSlices]
    split
    · rename_i hempty
      refine hshort ?_
      rw [hempty]
      exact hcap
    · rename_i hsome
      have haccepted : (turn n).accepted ≠ false := by
        rw [hturn n]
        exact Bool.true_eq_false.mp
      rw [if_neg haccepted]
      split
      · refine ih hrest ?_
        omega
      · rename_i hnotFull
        exact hshort (Nat.lt_of_le_of_ne hle hnotFull)

/-- What a call of `send_possibility_analysed` does to the file. Without a server nothing is ever put
into it. -/
theorem sendPossibilityAnalysed_spec {remote : Bool} (h : AnalysedConsistent f) (hs : s.Restores)
    (hlocal : remote = false → f.values = []) :
    AnalysedConsistent (sendPossibilityAnalysed remote s f).1 ∧
      ((sendPossibilityAnalysed remote s f).2 ++ (sendPossibilityAnalysed remote s f).1.values).Perm f.values ∧
      (s.Succeeds → (sendPossibilityAnalysed remote s f).1.values = []) := by
  have hkept : AnalysedConsistent f ∧ ([] ++ f.values).Perm f.values := ⟨h, .refl _⟩
  have hentries : f.entries.length = f.values.length := (List.length_map ..).symm
  rw [sendPossibilityAnalysed]
  split
  · rename_i hremote
    have hempty := hlocal hremote
    split
    · rename_i hfull
      rw [hentries, hempty] at hfull
      exact absurd rfl hfull.2
    · exact ⟨hkept.1, hkept.2, fun _ => hempty⟩
  · split
    · rename_i hconnect
      exact ⟨hkept.1, hkept.2, fun hsucceeds => absurd hsucceeds.1 hconnect⟩
    · split
      · refine ⟨sendSlices_consistent _ _ _ _ h, sendSlices_perm hs _ _ _ h, fun hsucceeds => ?_⟩
        refine sendSlices_empty hsucceeds.2.2.2 s.cap_pos h ?_
        rw [hentries]
        exact Nat.lt_succ_self _
      · rename_i hnothing
        refine ⟨hkept.1, hkept.2, fun hsucceeds => ?_⟩
        by_contra hvalues
        refine hnothing ⟨hsucceeds.2.1, ?_, hsucceeds.2.2.1⟩
        rw [hentries]
        exact fun hzero => hvalues (List.length_eq_zero_iff.mp hzero)

theorem addPossibilityAnalysedTo_consistent (h : AnalysedConsistent f) (p : Packet P) (a : AnalysedAdd) :
    AnalysedConsistent (addPossibilityAnalysedTo f p a).1 := by
  unfold addPossibilityAnalysedTo
  split
  · exact h
  · exact putAnalysed_consistent h p a.element a.node

theorem addBatchAnalysed_consistent (add : Nat → AnalysedAdd) (i : Nat) (batch : List (Packet P))
    (h : AnalysedConsistent f) : AnalysedConsistent (addBatchAnalysed add i batch f) := by
  induction batch generalizing i f with
  | nil => exact h
  | cons p batch ih => exact ih (i + 1) (addPossibilityAnalysedTo_consistent h p (add i))

/-- The addition finds the lock before it gives up, and the memory. -/
def AnalysedAdd.Tracks (a : AnalysedAdd) : Prop := (∃ i < trylockMaxSweeps, a.free i = true) ∧ a.element = true

/-- An addition that gets through. -/
theorem values_addPossibilityAnalysedTo {a : AnalysedAdd} (ha : a.Tracks) (p : Packet P) :
    (addPossibilityAnalysedTo f p a).1.values = f.values ++ [p] := by
  obtain ⟨⟨k, hk, hfree⟩, helement⟩ := ha
  have hfound : ∃ j, firstFree a.free trylockMaxSweeps 0 = some j := by
    refine firstFree_isSome ⟨k, hk, ?_⟩
    rw [Nat.zero_add]
    exact hfree
  obtain ⟨j, hj⟩ := hfound
  rw [addPossibilityAnalysedTo, hj, helement]
  exact values_putAnalysed a.node

/-- A batch whose additions all get through is in the file. -/
theorem values_addBatchAnalysed {add : Nat → AnalysedAdd} (i : Nat) (batch : List (Packet P))
    (hadd : ∀ j < i + batch.length, (add j).Tracks) :
    (addBatchAnalysed add i batch f).values = f.values ++ batch := by
  induction batch generalizing i f with
  | nil => exact (List.append_nil _).symm
  | cons p batch ih =>
    rw [List.length_cons] at hadd
    have hfirst : (add i).Tracks := hadd i (Nat.lt_add_of_pos_right (Nat.succ_pos _))
    have hrest : ∀ j < i + 1 + batch.length, (add j).Tracks := by
      intro j hj
      refine hadd j ?_
      rwa [Nat.add_right_comm] at hj
    rw [addBatchAnalysed, ih (i + 1) hrest, values_addPossibilityAnalysedTo hfirst, List.append_assoc]
    rfl

/-- The server's batch is among its replies. -/
theorem length_getLastPossibility_le {remote prunerMode : Bool} {stock : LocalStock} {maxResult : Int} {t : Fetch P}
    (hserver : (getLastPossibility remote prunerMode stock maxResult t).2.1 = true) :
    (getLastPossibility remote prunerMode stock maxResult t).1.length ≤ t.replies.flatten.length := by
  unfold getLastPossibility at hserver ⊢
  generalize scrollFromLocal P stock maxResult t.found = taken at hserver ⊢
  dsimp only at hserver ⊢
  split at hserver
  · rename_i hempty
    rw [if_pos hempty]
    unfold scrollFromServer
    split
    · exact Nat.zero_le _
    · split
      · refine (List.length_take_le' _ _).trans ?_
        cases t.replies with
        | nil => exact Nat.le_refl 0
        | cons reply replies =>
          rw [List.flatten_cons, List.length_append]
          exact Nat.le_add_right _ _
      · rw [List.length_reverse]
        exact (List.take_sublist _ _).flatten.length_le
  · cases hserver

end Sends

/-! ## Runs of the thread -/

/-- What holds of a client thread. The acknowledged packets are among those that the server gave in
batches that the worker has finished, each as often at most as it was given; a packet of the local
pools is none of them. A call of `send_possibility_analysed` takes out of the analysed file only what
it gets acknowledged, keeps its index right, and when it succeeds while the worker has no batch,
everything that the server gave is acknowledged. -/
structure Followed (c : ClientConfig) (g : ClientPossibility P) : Prop where
  acked : g.acked.Subperm g.finished
  index : AnalysedConsistent g.analysed
  kept : ∀ s : AnalysedSend, s.Restores →
    AnalysedConsistent (g.sendAnalysed c s).analysed ∧
      ∃ acked, (g.sendAnalysed c s).acked = g.acked ++ acked ∧
        (acked ++ (g.sendAnalysed c s).analysed.values).Perm g.analysed.values
  settled : ∀ s : AnalysedSend, s.Restores → s.Succeeds → g.works = false →
    (g.sendAnalysed c s).acked.Perm (g.finished ++ g.atWork)

/-- The steps that track and keep what the server gave: the addition of each packet that it gives finds
the lock before it gives up, there is memory for the packets that are added or put back, and the last
send of the feed finds the worker without a batch. -/
def ClientStep.Tracks (g : ClientPossibility P) : ClientStep P → Prop
  | .feed t => t.send.Restores ∧ ∀ i < t.fetch.replies.flatten.length, (t.add i).Tracks
  | .completeStopped s => s.Restores
  | .drain s => g.works = false ∧ s.Restores
  | _ => True

/-- The invariant of a thread: what the server gave is acknowledged or in the analysed file. -/
structure ThreadInv (c : ClientConfig) (g : ClientPossibility P) : Prop where
  tracked : (g.acked ++ g.analysed.values).Perm (g.finished ++ g.atWork)
  acked : g.acked.Subperm g.finished
  idle : g.works = false → g.atWork = []
  remote : c.remote = false → g.finished ++ g.atWork = []
  index : AnalysedConsistent g.analysed

section Threads

variable {c : ClientConfig} {g g' : ClientPossibility P} {s : AnalysedSend}

theorem threadInv_start (stock : LocalStock) : ThreadInv c (.start P stock) where
  tracked := .refl _
  acked := List.Subperm.refl _
  idle _ := rfl
  remote _ := rfl
  index := IndexedFile.consistent_empty

/-- Without a server the file is empty. -/
theorem ThreadInv.values_local (h : ThreadInv c g) (hremote : c.remote = false) : g.analysed.values = [] := by
  have hperm := h.tracked
  rw [h.remote hremote, List.perm_nil] at hperm
  exact (List.append_eq_nil_iff.mp hperm).2

theorem ThreadInv.send_spec (h : ThreadInv c g) (hs : s.Restores) :
    AnalysedConsistent (g.sendAnalysed c s).analysed ∧
      ((g.sendAnalysed c s).acked ++ (g.sendAnalysed c s).analysed.values).Perm (g.finished ++ g.atWork) ∧
      (s.Succeeds → (g.sendAnalysed c s).analysed.values = []) := by
  obtain ⟨hconsistent, hperm, hempty⟩ := sendPossibilityAnalysed_spec h.index hs h.values_local
  refine ⟨hconsistent, ?_, hempty⟩
  rw [ClientPossibility.sendAnalysed]
  dsimp only
  rw [List.append_assoc]
  exact (hperm.append_left g.acked).trans h.tracked

/-- A send while the worker has no batch. -/
theorem ThreadInv.sendAnalysed (h : ThreadInv c g) (hs : s.Restores) (hidle : g.atWork = []) :
    ThreadInv c (g.sendAnalysed c s) := by
  obtain ⟨hconsistent, hperm, -⟩ := h.send_spec hs
  refine ⟨hperm, ?_, fun _ => hidle, h.remote, hconsistent⟩
  have hsub : (g.sendAnalysed c s).acked.Subperm (g.finished ++ g.atWork) :=
    (List.sublist_append_left _ _).subperm.trans hperm.subperm
  rw [hidle, List.append_nil] at hsub
  exact hsub

theorem ThreadInv.complete (h : ThreadInv c g) : ThreadInv c g.complete where
  tracked := by
    rw [ClientPossibility.complete, List.append_nil]
    exact h.tracked
  acked := h.acked.trans (List.sublist_append_left _ _).subperm
  idle _ := rfl
  remote hremote := by
    rw [ClientPossibility.complete, List.append_nil]
    exact h.remote hremote
  index := h.index

/-- Without a server no batch is the server's. -/
theorem getLastPossibility_local (prunerMode : Bool) (stock : LocalStock) (maxResult : Int) (t : Fetch P) :
    (getLastPossibility false prunerMode stock maxResult t).2.1 = false := by
  rw [getLastPossibility, if_neg fun hempty => Bool.false_ne_true hempty.2]

/-- A batch is tracked exactly when it is the server's. -/
theorem ThreadInv.feedBatch (h : ThreadInv c g) {t : FeedTurn P}
    (hadd : ∀ i < t.fetch.replies.flatten.length, (t.add i).Tracks) (hidle : g.atWork = []) : ThreadInv c (g.feedBatch c t) := by
  have htracked := h.tracked
  have hremote := h.remote
  rw [hidle, List.append_nil] at htracked
  rw [hidle, List.append_nil] at hremote
  rw [ClientPossibility.feedBatch]
  have hlocal := getLastPossibility_local c.prunerMode g.stock (if c.prunerMode then t.prunerBatchSize else 1) t.fetch
  have hlength := @length_getLastPossibility_le _ c.remote c.prunerMode g.stock
    (if c.prunerMode then t.prunerBatchSize else 1) t.fetch
  generalize hfetched : getLastPossibility c.remote c.prunerMode g.stock _ t.fetch = fetched
  rw [hfetched] at hlength
  split
  · cases hserver : fetched.2.1 with
    | false =>
      refine ⟨?_, h.acked, fun hworks => absurd hworks Bool.true_eq_false.mp, ?_, h.index⟩
      · dsimp only
        rw [if_neg Bool.false_ne_true, if_neg Bool.false_ne_true, List.append_nil]
        exact htracked
      · intro hnone
        dsimp only
        rw [if_neg Bool.false_ne_true, List.append_nil]
        exact hremote hnone
    | true =>
      refine ⟨?_, h.acked, fun hworks => absurd hworks Bool.true_eq_false.mp, ?_, ?_⟩
      · dsimp only
        have hbatch : ∀ i < 0 + fetched.1.length, (t.add i).Tracks := by
          intro i hi
          rw [Nat.zero_add] at hi
          exact hadd i (Nat.lt_of_lt_of_le hi (hlength hserver))
        rw [if_pos rfl, if_pos rfl, values_addBatchAnalysed 0 _ hbatch, ← List.append_assoc]
        exact htracked.append_right _
      · intro hnone
        rw [hnone] at hfetched
        rw [hfetched, hserver] at hlocal
        cases hlocal
      · exact addBatchAnalysed_consistent _ _ _ h.index
  · exact ⟨h.tracked, h.acked, h.idle, h.remote, h.index⟩

/-- Every step that tracks and keeps what the server gave keeps the invariant. -/
theorem ThreadInv.step (h : ThreadInv c g) {a : ClientStep P} (htracks : a.Tracks g) (hstep : g.step c a = some g') :
    ThreadInv c g' := by
  cases a with
  | feed t =>
    cases hstep
    unfold ClientPossibility.feedOneThread
    split
    · exact h
    · split
      · rename_i hneed
        have hidle := h.idle hneed.1
        exact (h.sendAnalysed htracks.1 hidle).feedBatch htracks.2 hidle
      · exact h
  | putToServer connection turn possibilities =>
    cases hstep
    exact ⟨h.tracked, h.acked, h.idle, h.remote, h.index⟩
  | complete =>
    obtain ⟨-, heq⟩ := Option.ite_none_right_eq_some.mp hstep
    cases heq
    exact h.complete
  | completeStopped s =>
    obtain ⟨-, heq⟩ := Option.ite_none_right_eq_some.mp hstep
    cases heq
    exact h.complete.sendAnalysed htracks rfl
  | drain s =>
    cases hstep
    exact h.sendAnalysed htracks.2 (h.idle htracks.1)

theorem ThreadInv.followed (h : ThreadInv c g) : Followed c g where
  acked := h.acked
  index := h.index
  kept s hs := by
    obtain ⟨hconsistent, hperm, -⟩ := sendPossibilityAnalysed_spec h.index hs h.values_local
    exact ⟨hconsistent, _, rfl, hperm⟩
  settled s hs hsucceeds _ := by
    obtain ⟨-, hperm, hempty⟩ := h.send_spec hs
    rw [hempty hsucceeds, List.append_nil] at hperm
    exact hperm

end Threads

/-- In every run whose steps all track and keep what the server gave, the thread acknowledges it as it
should. -/
theorem clientThread_followed (c : ClientConfig) (stock : LocalStock) (g : ClientPossibility P)
    (hrun : Run (ClientPossibility.step c) (fun g a => a.Tracks g) (.start P stock) g) : Followed c g :=
  (hrun.invariant (threadInv_start stock) fun h htracks hstep => h.step htracks hstep).followed

namespace Frame

/-- A usable connection. -/
def connected : Connection := ⟨true, true, false, 0, false⟩

/-- A send whose slices are all acknowledged. -/
def goodSend : AnalysedSend :=
  ⟨connected, true, true, 8, fun _ => ⟨true, true, true, instConsidered, fun _ => true, fun _ => true⟩⟩

/-- A turn in which the server answers with some packets; the lock of the analysed file is free or not. -/
def turn (free : Nat → Bool) (batch : List (Packet .p16)) : FeedTurn .p16 :=
  ⟨.continue_, 8, goodSend, ⟨none, connected, [batch]⟩, fun _ => ⟨free, true, true⟩⟩

/-- The board with one corner. -/
def corner : Packet .p16 := packet fun c => c.pos = 0

theorem goodSend_restores : goodSend.Restores := fun _ _ _ => rfl

theorem goodSend_succeeds : goodSend.Succeeds := ⟨rfl, rfl, rfl, fun _ => rfl⟩

theorem turn_tracks {g : ClientPossibility .p16} (batch : List (Packet .p16)) :
    ClientStep.Tracks g (.feed (turn (fun _ => true) batch)) :=
  ⟨goodSend_restores, fun _ _ => ⟨⟨0, by decide, rfl⟩, rfl⟩⟩

/-- A client that searches. -/
def client : ClientConfig := ⟨true, false⟩

/-- The board has come from the server. -/
def given (free : Nat → Bool) : ClientPossibility .p16 :=
  (ClientPossibility.start .p16 .empty).feedOneThread client (turn free [corner])

end Frame

/-- A packet comes from the server, is finished and is acknowledged on the next turn. -/
theorem clientThread_followed_corner :
    ∃ g : ClientPossibility .p16, g.acked = [Frame.corner] ∧ Followed Frame.client g := by
  have hfirst : Run (ClientPossibility.step Frame.client) (fun g a => a.Tracks g) (.start .p16 .empty)
      (Frame.given fun _ => true) :=
    .tail (a := .feed (Frame.turn (fun _ => true) [Frame.corner])) .refl (Frame.turn_tracks _) rfl
  have hsecond : Run (ClientPossibility.step Frame.client) (fun g a => a.Tracks g) (.start .p16 .empty)
      (Frame.given fun _ => true).complete :=
    .tail (a := .complete) hfirst trivial rfl
  have hthird : Run (ClientPossibility.step Frame.client) (fun g a => a.Tracks g) (.start .p16 .empty)
      ((Frame.given fun _ => true).complete.feedOneThread Frame.client (Frame.turn (fun _ => true) [])) :=
    .tail (a := .feed (Frame.turn (fun _ => true) [])) hsecond (Frame.turn_tracks _) rfl
  exact ⟨_, rfl, clientThread_followed Frame.client .empty _ hthird⟩

theorem firstFree_busy (attempts i : Nat) : firstFree (fun _ => false) attempts i = none := by
  induction attempts generalizing i with
  | zero => rfl
  | succ attempts ih => exact ih (i + 1)

theorem addBatchAnalysed_busy {add : Nat → AnalysedAdd} (hadd : ∀ p, firstFree (add p).free trylockMaxSweeps 0 = none)
    (p : Nat) (batch : List (Packet P)) (f : AnalysedFile P) : addBatchAnalysed add p batch f = f := by
  induction batch generalizing p f with
  | nil => rfl
  | cons possibility batch ih =>
    rw [addBatchAnalysed, ih, addPossibilityAnalysedTo, hadd p]

/-- As long as the lock stays busy, a batch is handed to the worker and not tracked. -/
theorem analysed_feedBatch_busy {c : ClientConfig} {g : ClientPossibility P} {t : FeedTurn P}
    (hadd : ∀ p, firstFree (t.add p).free trylockMaxSweeps 0 = none) : (g.feedBatch c t).analysed = g.analysed := by
  rw [ClientPossibility.feedBatch]
  generalize getLastPossibility c.remote c.prunerMode g.stock _ t.fetch = fetched
  split
  · dsimp only
    rw [addBatchAnalysed_busy hadd, ite_self]
  · rfl

/-- A packet that the server gave while the analysed file stays locked is never acknowledged, and a stop
while the worker is at a batch acknowledges it unfinished. -/
theorem clientThread_unfollowed :
    (∃ g, Run (ClientPossibility.step Frame.client) (fun _ _ => True) (.start .p16 .empty) g ∧
        ¬ Followed Frame.client g ∧ g.finished = [Frame.corner] ∧ g.acked = [] ∧ g.analysed.values = []) ∧
      ∃ g, Run (ClientPossibility.step Frame.client) (fun _ _ => True) (.start .p16 .empty) g ∧
        ¬ Followed Frame.client g ∧ g.atWork = [Frame.corner] ∧ g.acked = [Frame.corner] := by
  constructor
  · obtain ⟨free, hbusy⟩ : ∃ free, firstFree free trylockMaxSweeps 0 = none := ⟨fun _ => false, firstFree_busy _ _⟩
    have hfirst : Run (ClientPossibility.step Frame.client) (fun _ _ => True) (.start .p16 .empty) (Frame.given free) :=
      .tail (a := .feed (Frame.turn free [Frame.corner])) .refl trivial rfl
    have hsecond : Run (ClientPossibility.step Frame.client) (fun _ _ => True) (.start .p16 .empty)
        (Frame.given free).complete :=
      .tail (a := .complete) hfirst trivial rfl
    have hbatch : (((ClientPossibility.start .p16 .empty).sendAnalysed Frame.client Frame.goodSend).feedBatch
        Frame.client (Frame.turn free [Frame.corner])).analysed = .empty := analysed_feedBatch_busy fun _ => hbusy
    have hrefused : (Frame.given free).complete.analysed = .empty := hbatch
    refine ⟨_, hsecond, fun h => ?_, rfl, rfl, ?_⟩
    · have hsettled := h.settled Frame.goodSend Frame.goodSend_restores Frame.goodSend_succeeds rfl
      rw [ClientPossibility.sendAnalysed, hrefused] at hsettled
      exact absurd hsettled.length_eq (Nat.zero_ne_add_one 0)
    · rw [hrefused]
      rfl
  · have hfirst : Run (ClientPossibility.step Frame.client) (fun _ _ => True) (.start .p16 .empty)
        (Frame.given fun _ => true) :=
      .tail (a := .feed (Frame.turn (fun _ => true) [Frame.corner])) .refl trivial rfl
    have hsecond : Run (ClientPossibility.step Frame.client) (fun _ _ => True) (.start .p16 .empty)
        ((Frame.given fun _ => true).sendAnalysed Frame.client Frame.goodSend) :=
      .tail (a := .drain Frame.goodSend) hfirst trivial rfl
    refine ⟨_, hsecond, fun h => ?_, rfl, rfl⟩
    exact absurd h.acked.length_le (Nat.not_succ_le_zero 0)

end
