-- SUMMARY: INST_ADD_BATCH on the server: one answer for a batch that goes to two pools, and when the answer is true.
import EternityII.Stock.AddPossibility

/-!
# Batches of packets from a client

The server answers a whole batch with one byte: `INST_CONSIDERED` for a batch that is in the
stock, `INST_ERROR` for one of which nothing was inserted. The batch goes through one insertion
for each class of packets, though, and each of the two can be refused on its own.
-/

/-- `INST_ERROR`. -/
def instError : Int8 := -1

/-- What the branch receives and gets: the count, `none` when it does not arrive, whether the
packets can be allocated, and the packets that arrive in full. -/
structure BatchRequest (P : Puzzle) where
  k : Option Int
  allocated : Bool
  received : List (Packet P)

/-- What the branch does: it closes the session, or answers and goes on. -/
inductive BatchReply where
  | closed | answer (instruction : Int8)
  deriving DecidableEq, Repr

/-- `communicate_with_client_step` on `INST_ADD_BATCH`: the stock, the reply, and what is added to
`fileUpdates`. `add_possibility` without a client is `put_to_local`. -/
def addBatchStep {P : Puzzle} (stock : LocalStock) (request : BatchRequest P) (freeUnchecked freeChecked : Nat → Bool) :
    LocalStock × BatchReply × Nat :=
  match request.k with
  | none => (stock, .closed, 0)
  | some k =>
    if k ≤ 0 ∨ k > addBatchMax then (stock, .closed, 0)
    else if !request.allocated then (stock, .closed, 0)
    else if request.received.length < k.toNat then (stock, .closed, 0)
    else
      let put := putToLocal stock (request.received.take k.toNat) freeUnchecked freeChecked
      if put.2 = .ok then (put.1, .answer instConsidered, k.toNat) else (put.1, .answer instError, 0)

section Batch

variable {P : Puzzle} {stock : LocalStock} {packets : List (Packet P)} {request : BatchRequest P}
  {freeUnchecked freeChecked : Nat → Bool}

/-- A batch that reaches the stock: its packets are within the bounds, allocated and received. -/
structure BatchRequest.Accepted (request : BatchRequest P) (packets : List (Packet P)) : Prop where
  nonempty : packets ≠ []
  max : packets.length ≤ addBatchMax
  k : request.k = some (packets.length : Int)
  allocated : request.allocated = true
  received : packets <+: request.received

/-- The answer is true: after `INST_ERROR` the stock is as it was, after `INST_CONSIDERED` it
holds each packet once more. -/
def BatchAnswered (stock : LocalStock) (packets : List (Packet P)) (outcome : LocalStock × BatchReply × Nat) : Prop :=
  (outcome.2.1 = .answer instError → outcome.1.records.Perm stock.records) ∧
    (outcome.2.1 = .answer instConsidered → (∀ p ∈ packets, p.Encodable) ∧
      outcome.1.records.Perm (stock.records ++ packets.filterMap recordOf))

/-- The attempts of one insertion. -/
def LocalStock.attempts (stock : LocalStock) (checked : Bool) : Nat :=
  trylockMaxSweeps * (stock.pool checked).files.length

/-- The class has packets, and its insertion is reported as refused: they do not fit, or no
attempt before the last one locks a file. -/
def ClassRefused (stock : LocalStock) (packets : List (Packet P)) (free : Bool → Nat → Bool) (checked : Bool) : Prop :=
  routed packets checked ≠ [] ∧
    ¬ (stock.Admits (routed packets checked) ∧ LocksInTime (stock.attempts checked) (free checked))

/-- The locks of the two insertions. -/
def batchLocks (freeUnchecked freeChecked : Nat → Bool) (checked : Bool) : Nat → Bool :=
  if checked then freeChecked else freeUnchecked

/-- The condition for a true answer: the whole batch goes in, or a class is refused and no packet
of a class that goes in has a record. -/
def BatchSafe (stock : LocalStock) (packets : List (Packet P)) (free : Bool → Nat → Bool) : Prop :=
  ((∀ p ∈ packets, p.Encodable) ∧ stock.Admits packets ∧
      ∀ c, routed packets c ≠ [] → LocksInTime (stock.attempts c) (free c)) ∨
    (∃ c, ClassRefused stock packets free c) ∧
      ∀ c, stock.Takes c (routed packets c) (free c) → ∀ p ∈ routed packets c, ¬ p.Encodable

/-! ## What an insertion leaves -/

/-- The batch reaches `put_to_local`, and its result is the answer. -/
theorem addBatchStep_accepted (h : request.Accepted packets) :
    addBatchStep stock request freeUnchecked freeChecked =
      if (putToLocal stock packets freeUnchecked freeChecked).2 = .ok then
        ((putToLocal stock packets freeUnchecked freeChecked).1, .answer instConsidered, packets.length)
      else ((putToLocal stock packets freeUnchecked freeChecked).1, .answer instError, 0) := by
  have hpos := List.length_pos_iff.mpr h.nonempty
  have hmax := h.max
  have hlength := h.received.length_le
  have htake : request.received.take packets.length = packets := (List.prefix_iff_eq_take.mp h.received).symm
  unfold addBatchStep
  rw [h.k]
  dsimp only
  rw [if_neg (by omega), h.allocated, if_neg (by decide), Int.toNat_natCast, if_neg (by omega), htake]

/-- What the insertion of one class makes of the stock, and whether it is reported as refused. -/
structure ClassPut (stock : LocalStock) (packets : List (Packet P)) (free : Bool → Nat → Bool) (c : Bool)
    (stock' : LocalStock) (status : AddStatus) : Prop where
  cap : stock'.stockMaxRamBytes = stock.stockMaxRamBytes
  other : stock'.otherBytes = stock.otherBytes
  attempts : ∀ c', stock'.attempts c' = stock.attempts c'
  taken : stock.Takes c (routed packets c) (free c) →
    stock'.records.Perm (stock.records ++ (routed packets c).filterMap recordOf)
  untaken : ¬ stock.Takes c (routed packets c) (free c) → stock'.records = stock.records
  status : status = .ok ↔ ¬ ClassRefused stock packets free c

/-- An insertion leaves the cap and the number of files as they are. -/
theorem putToPool_frame (stock : LocalStock) (packets : List (Packet P)) (c : Bool) (free : Nat → Bool) :
    (putToPool stock packets c free).1.stockMaxRamBytes = stock.stockMaxRamBytes ∧
      (putToPool stock packets c free).1.otherBytes = stock.otherBytes ∧
      ∀ c', (putToPool stock packets c free).1.attempts c' = stock.attempts c' := by
  unfold putToPool
  dsimp only
  split
  · exact ⟨rfl, rfl, fun _ => rfl⟩
  · split
    · exact ⟨rfl, rfl, fun _ => rfl⟩
    · split
      · cases c
        all_goals
          refine ⟨rfl, rfl, fun c' => ?_⟩
          cases c' <;> rfl
      · cases c
        all_goals
          refine ⟨rfl, rfl, fun c' => ?_⟩
          unfold LocalStock.attempts
          cases c'
          all_goals simp [LocalStock.pool, LocalStock.setPool]

theorem putToPool_class (stock : LocalStock) (packets : List (Packet P)) (free : Bool → Nat → Bool) (c : Bool) :
    ClassPut stock packets free c (putToPool stock packets c (free c)).1 (putToPool stock packets c (free c)).2 := by
  obtain ⟨hcap, hother, hattempts⟩ := putToPool_frame stock packets c (free c)
  by_cases hnil : routed packets c = []
  · have hsame : putToPool stock packets c (free c) = (stock, .ok) := by
      unfold putToPool
      exact if_pos (congrArg List.length hnil)
    rw [hsame]
    refine ⟨rfl, rfl, fun _ => rfl, fun _ => ?_, fun _ => rfl, iff_of_true rfl fun h => h.1 hnil⟩
    rw [hnil, List.filterMap_nil, List.append_nil]
  · refine ⟨hcap, hother, hattempts, fun h => (putToPool_stored hnil h).1, fun h => (putToPool_refused hnil h).1, ?_⟩
    by_cases htakes : stock.Takes c (routed packets c) (free c)
    · rw [(putToPool_stored hnil htakes).2]
      constructor
      · exact fun htime h => h.2 ⟨htakes.1, htime⟩
      · intro h
        by_contra htime
        exact h ⟨hnil, fun hin => htime hin.2⟩
    · refine iff_of_false (putToPool_refused hnil htakes).2 fun h => h ⟨hnil, fun ⟨hadmits, i, hi, hfree⟩ => ?_⟩
      exact htakes ⟨hadmits, i, Nat.lt_of_succ_lt hi, hfree⟩

/-! ## The answer -/

variable {free : Bool → Nat → Bool} {c : Bool} {stock' : LocalStock} {status : AddStatus}

/-- The records the insertion of a class adds. -/
theorem ClassPut.records (h : ClassPut stock packets free c stock' status) :
    ∃ added, stock'.records.Perm (stock.records ++ added) ∧
      (added = [] ↔ (stock.Takes c (routed packets c) (free c) → ∀ p ∈ routed packets c, ¬ p.Encodable)) ∧
      (status = .ok → added = (routed packets c).filterMap recordOf) := by
  by_cases htakes : stock.Takes c (routed packets c) (free c)
  · refine ⟨_, h.taken htakes, ?_, fun _ => rfl⟩
    rw [List.filterMap_eq_nil_iff]
    refine ⟨fun hnone _ p hp => ?_, fun hnone p hp => ?_⟩
    · rw [encodable_iff, hnone p hp]
      exact Bool.false_ne_true
    · simpa [encodable_iff] using hnone htakes p hp
  · refine ⟨[], by rw [h.untaken htakes, List.append_nil], iff_of_true rfl fun hin => absurd hin htakes, ?_⟩
    intro hok
    by_cases hnil : routed packets c = []
    · rw [hnil, List.filterMap_nil]
    · refine absurd (h.status.mp hok) (not_not_intro ⟨hnil, fun ⟨hadmits, i, hi, hfree⟩ => ?_⟩)
      exact htakes ⟨hadmits, i, Nat.lt_of_succ_lt hi, hfree⟩

/-- A stock that has grown admits no more than before. -/
theorem ClassPut.admits (h : ClassPut stock packets free c stock' status) {other : List (Packet P)}
    (hadmits : stock'.Admits other) : stock.Admits other := by
  obtain ⟨added, hrecords, -, -⟩ := h.records
  have hsum := (hrecords.map recordBytes).sum_nat
  have hother := h.other
  have hcap := h.cap
  rw [List.map_append, List.sum_append] at hsum
  unfold LocalStock.Admits at hadmits ⊢
  rw [LocalStock.residentBytes_eq] at hadmits ⊢
  omega

/-- A stock with the same records admits the same packets. -/
theorem ClassPut.admits_iff (h : ClassPut stock packets free c stock' status) (hsame : stock'.records.Perm stock.records)
    (other : List (Packet P)) : stock'.Admits other ↔ stock.Admits other := by
  have hsum := (hsame.map recordBytes).sum_nat
  unfold LocalStock.Admits
  rw [LocalStock.residentBytes_eq, LocalStock.residentBytes_eq, hsum, h.other, h.cap]

/-- A class refused by a stock that has grown, or by one that admits the same packets, is refused. -/
theorem classRefused_iff (hattempts : ∀ c', stock'.attempts c' = stock.attempts c')
    (hadmits : stock'.Admits (routed packets c) ↔ stock.Admits (routed packets c)) :
    ClassRefused stock' packets free c ↔ ClassRefused stock packets free c := by
  unfold ClassRefused
  rw [hattempts, hadmits]

/-- A class is not refused exactly when it is empty, or fits and finds its lock in time. -/
theorem not_classRefused_iff : ¬ ClassRefused stock packets free c ↔
    (routed packets c = [] ∨ stock.Admits (routed packets c)) ∧
      (routed packets c ≠ [] → LocksInTime (stock.attempts c) (free c)) := by
  unfold ClassRefused
  tauto

/-- The whole batch fits exactly when the classes fit one after the other. -/
theorem ClassPut.admits_batch (h : ClassPut stock packets free false stock' .ok) (hne : packets ≠ [])
    (hencodable : ∀ p ∈ packets, p.Encodable) :
    stock.Admits packets ↔ (routed packets false = [] ∨ stock.Admits (routed packets false)) ∧
      (routed packets true = [] ∨ stock'.Admits (routed packets true)) := by
  have hperm := routed_perm packets
  obtain ⟨added, hrecords, -, hadded⟩ := h.records
  rw [hadded rfl] at hrecords
  have hfirst : ∀ p ∈ routed packets false, p.Encodable :=
    fun p hp => hencodable p (List.mem_of_mem_filter hp)
  have hresident := residentBytes_of_stores h.other hfirst hrecords
  have hnonempty : routed packets false ++ routed packets true ≠ [] :=
    fun hnil => hne (List.nil_perm.mp (hnil ▸ hperm))
  rw [← admits_append h.cap hresident, or_iff_right hnonempty]
  unfold LocalStock.Admits
  rw [(hperm.map incomingBytes).sum_nat]

section Both

variable {stock'' : LocalStock} {status' : AddStatus}

/-- Without a refusal the answer is true exactly when every packet has a record. -/
theorem batchSafe_of_ok (h : ClassPut stock packets free false stock' .ok)
    (h' : ClassPut stock' packets free true stock'' .ok) (hne : packets ≠ []) :
    BatchSafe stock packets free ↔ ∀ p ∈ packets, p.Encodable := by
  have hfirst := h.status.mp rfl
  have hsecond := h'.status.mp rfl
  constructor
  · rintro (⟨hencodable, -, -⟩ | ⟨⟨c, hnonempty, hrefused⟩, -⟩)
    · exact hencodable
    · exfalso
      cases c with
      | false => exact hfirst ⟨hnonempty, hrefused⟩
      | true =>
        refine hsecond ⟨hnonempty, fun ⟨hadmits, htime⟩ => hrefused ⟨h.admits hadmits, ?_⟩⟩
        rwa [h.attempts] at htime
  · intro hencodable
    obtain ⟨hfits, htime⟩ := not_classRefused_iff.mp hfirst
    obtain ⟨hfits', htime'⟩ := not_classRefused_iff.mp hsecond
    refine .inl ⟨hencodable, (h.admits_batch hne hencodable).mpr ⟨hfits, hfits'⟩, fun c => ?_⟩
    cases c with
    | false => exact htime
    | true => rwa [h.attempts] at htime'

/-- After a refusal the answer is true exactly when nothing was added. -/
theorem batchSafe_of_error (h : ClassPut stock packets free false stock' status)
    (h' : ClassPut stock' packets free true stock'' status') (hne : packets ≠ [])
    (herror : ¬ (status = .ok ∧ status' = .ok)) :
    BatchSafe stock packets free ↔ stock''.records.Perm stock.records := by
  obtain ⟨added, hrecords, hnone, -⟩ := h.records
  obtain ⟨added', hrecords', hnone', -⟩ := h'.records
  have hlength := hrecords.length_eq
  have hlength' := hrecords'.length_eq
  rw [List.length_append] at hlength hlength'
  have hunchanged : stock''.records.Perm stock.records ↔ added = [] ∧ added' = [] := by
    constructor
    · intro hperm
      have hsame := hperm.length_eq
      exact ⟨List.eq_nil_of_length_eq_zero (by omega), List.eq_nil_of_length_eq_zero (by omega)⟩
    · rintro ⟨rfl, rfl⟩
      rw [List.append_nil] at hrecords hrecords'
      exact hrecords'.trans hrecords
  -- a first insertion that added nothing leaves the second class the same room
  have htakes : added = [] → (stock'.Takes true (routed packets true) (free true) ↔
      stock.Takes true (routed packets true) (free true)) := by
    rintro rfl
    rw [List.append_nil] at hrecords
    have hattempts := h.attempts true
    unfold LocalStock.attempts at hattempts
    unfold LocalStock.Takes
    rw [h.admits_iff hrecords, hattempts]
  rw [hunchanged]
  constructor
  · rintro (⟨hencodable, hadmits, htime⟩ | ⟨-, hsafe⟩)
    · exfalso
      have hok : status = .ok := by
        refine h.status.mpr (not_classRefused_iff.mpr ⟨.inr ?_, htime false⟩)
        have hsum := ((routed_perm packets).map incomingBytes).sum_nat
        rw [List.map_append, List.sum_append] at hsum
        unfold LocalStock.Admits at hadmits ⊢
        omega
      subst hok
      refine herror ⟨rfl, h'.status.mpr (not_classRefused_iff.mpr ⟨?_, ?_⟩)⟩
      · exact ((h.admits_batch hne hencodable).mp hadmits).2
      · rw [h.attempts]
        exact htime true
    · have hnil := hnone.mpr (hsafe false)
      exact ⟨hnil, hnone'.mpr fun hin => hsafe true ((htakes hnil).mp hin)⟩
  · rintro ⟨hnil, hnil'⟩
    refine .inr ⟨?_, fun c => ?_⟩
    · by_contra hnot
      have hsame : stock'.records.Perm stock.records := by
        rw [hnil, List.append_nil] at hrecords
        exact hrecords
      refine herror ⟨h.status.mpr fun hrefused => hnot ⟨_, hrefused⟩, h'.status.mpr fun hrefused => hnot ⟨true, ?_⟩⟩
      exact (classRefused_iff h.attempts (h.admits_iff hsame _)).mp hrefused
    · cases c with
      | false => exact hnone.mp hnil
      | true => exact fun hin => hnone'.mp hnil' ((htakes hnil).mpr hin)

end Both

/-! ## Exactness -/

/-- The server answers a batch truly exactly when all of it goes in, or a class is refused and no
packet of a class that goes in has a record. -/
theorem addBatchStep_answered_iff (stock : LocalStock) (freeUnchecked freeChecked : Nat → Bool)
    (h : request.Accepted packets) :
    BatchAnswered stock packets (addBatchStep stock request freeUnchecked freeChecked) ↔
      BatchSafe stock packets (batchLocks freeUnchecked freeChecked) := by
  have hfirst := putToPool_class stock packets (batchLocks freeUnchecked freeChecked) false
  have hsecond := putToPool_class (putToPool stock packets false freeUnchecked).1 packets
    (batchLocks freeUnchecked freeChecked) true
  have hconsidered : instConsidered ≠ instError := by decide
  have hstatus : (putToLocal stock packets freeUnchecked freeChecked).2 = .ok ↔
      (putToPool stock packets false freeUnchecked).2 = .ok ∧
        (putToPool (putToPool stock packets false freeUnchecked).1 packets true freeChecked).2 = .ok := by
    unfold putToLocal
    dsimp only
    generalize (putToPool stock packets false freeUnchecked).2 = status
    generalize (putToPool _ packets true freeChecked).2 = status'
    cases status
    all_goals cases status' <;> simp
  rw [addBatchStep_accepted h]
  split
  · rename_i hok
    obtain ⟨hok₁, hok₂⟩ := hstatus.mp hok
    obtain ⟨added, hrecords, -, hadded⟩ := hfirst.records
    obtain ⟨added', hrecords', -, hadded'⟩ := hsecond.records
    rw [hadded hok₁] at hrecords
    rw [hadded' hok₂] at hrecords'
    have hall : (putToLocal stock packets freeUnchecked freeChecked).1.records.Perm
        (stock.records ++ packets.filterMap recordOf) := by
      refine hrecords'.trans ((hrecords.append_right _).trans ?_)
      rw [List.append_assoc, ← List.filterMap_append]
      exact ((routed_perm packets).filterMap recordOf).append_left _
    have hsafe : BatchSafe stock packets (batchLocks freeUnchecked freeChecked) ↔ ∀ p ∈ packets, p.Encodable :=
      batchSafe_of_ok (hok₁ ▸ hfirst) (hok₂ ▸ hsecond) h.nonempty
    rw [hsafe]
    constructor
    · exact fun hanswered => (hanswered.2 rfl).1
    · exact fun hencodable => ⟨fun herror => absurd (BatchReply.answer.inj herror) hconsidered, fun _ => ⟨hencodable, hall⟩⟩
  · rename_i hok
    rw [batchSafe_of_error hfirst hsecond h.nonempty (mt hstatus.mpr hok)]
    constructor
    · exact fun hanswered => hanswered.1 rfl
    · exact fun hsame => ⟨fun _ => hsame, fun hdone => absurd (BatchReply.answer.inj hdone).symm hconsidered⟩

/-- The locks of pools that are busy until the very last attempt. -/
def lastAttemptFree (i : Nat) : Bool := decide (i + 1 = trylockMaxSweeps)

/-- The batch of one unchecked packet. -/
def frameBatch : List (Packet .p16) := [Frame.packet fun c : Cell .p16 => c.pos = 0]

/-- The request for it. -/
def frameRequest : BatchRequest .p16 := ⟨some 1, true, frameBatch⟩

theorem frameRequest_accepted : frameRequest.Accepted frameBatch :=
  ⟨List.cons_ne_nil _ _, by decide, rfl, rfl, List.prefix_refl _⟩

theorem frameBatch_encodable : ∀ p ∈ frameBatch, p.Encodable := by
  intro p hp
  obtain rfl := List.mem_singleton.mp hp
  exact codecValue_of_wellFormed (Frame.packet_wellFormed _).grid

/-- A batch that finds its lock at once. -/
theorem addBatchStep_answered_iff_free :
    BatchAnswered .empty frameBatch (addBatchStep .empty frameRequest (fun _ => true) fun _ => true) := by
  refine (addBatchStep_answered_iff _ _ _ frameRequest_accepted).mpr (.inl ⟨frameBatch_encodable, .inl rfl, ?_⟩)
  intro c _
  cases c
  all_goals exact ⟨0, by decide, rfl⟩

/-- A batch of one packet whose lock is found at the very last attempt is in the stock, and the
answer is `INST_ERROR`. -/
theorem addBatchStep_lastAttempt :
    (addBatchStep .empty frameRequest lastAttemptFree lastAttemptFree).2.1 = .answer instError ∧
      (addBatchStep .empty frameRequest lastAttemptFree lastAttemptFree).1.records.length = 1 ∧
      ¬ BatchAnswered .empty frameBatch (addBatchStep .empty frameRequest lastAttemptFree lastAttemptFree) := by
  have hunchecked : ∀ p ∈ frameBatch, p.checked ≠ 1 := by
    intro p hp
    obtain rfl := List.mem_singleton.mp hp
    decide
  have hput := putToLocal_unchecked hunchecked .empty lastAttemptFree lastAttemptFree
  have hclass := putToPool_class .empty frameBatch (fun _ => lastAttemptFree) false
  have hrouted := (routed_unchecked hunchecked).1
  have hrecords : (putToLocal .empty frameBatch lastAttemptFree lastAttemptFree).1.records.length = 1 := by
    have htaken := (hclass.taken ⟨.inl rfl, trylockMaxSweeps - 1, by decide, by decide⟩).length_eq
    rw [hrouted, List.length_append, (length_filterMap_recordOf frameBatch).2.mpr frameBatch_encodable] at htaken
    rw [hput]
    exact htaken
  have hrefused : (putToLocal .empty frameBatch lastAttemptFree lastAttemptFree).2 ≠ .ok := by
    rw [hput]
    refine mt hclass.status.mp (not_not_intro ⟨hrouted.symm ▸ List.cons_ne_nil _ _, ?_⟩)
    rintro ⟨-, i, hi, hfree⟩
    have hattempts : LocalStock.empty.attempts false = trylockMaxSweeps := Nat.mul_one _
    have hlast : i + 1 = trylockMaxSweeps := by simpa only [lastAttemptFree, decide_eq_true_eq] using hfree
    rw [hattempts, hlast] at hi
    exact Nat.lt_irrefl _ hi
  rw [addBatchStep_accepted frameRequest_accepted, if_neg hrefused]
  dsimp only
  refine ⟨rfl, hrecords, fun hanswered => ?_⟩
  have hsame := (hanswered.1 rfl).length_eq
  dsimp only at hsame
  rw [hrecords] at hsame
  exact absurd hsame (by decide)

end Batch
