-- SUMMARY: An insertion into a pool stores a whole batch in one file or nothing, except at its very last attempt.
import EternityII.Stock.AddPossibility

/-! ## The contract -/

section Contract

variable {P : Puzzle}

/-- The record keeps the packet. -/
def Keeps (packet : Packet P) (record : List Byte) : Prop :=
  recordOf packet = some record ∧ ∃ q, recordPacket P record = some q ∧ Canonical packet q

/-- The files of both pools, and what the cap depends on, are the same. -/
structure LocalStock.SameContent (stock stock' : LocalStock) : Prop where
  files : ∀ checked, (stock'.pool checked).files = (stock.pool checked).files
  other : stock'.otherBytes = stock.otherBytes
  cap : stock'.stockMaxRamBytes = stock.stockMaxRamBytes

/-- One file of a pool has the records at its tail, and nothing else has changed. -/
structure LocalStock.Appended (stock : LocalStock) (wantChecked : Bool) (records : List (List Byte))
    (stock' : LocalStock) : Prop where
  files : ∃ currfile < (stock.pool wantChecked).files.length,
    (stock'.pool wantChecked).files = (stock.pool wantChecked).files.modify currfile (· ++ records)
  others : (stock'.pool !wantChecked).files = (stock.pool !wantChecked).files
  other : stock'.otherBytes = stock.otherBytes
  cap : stock'.stockMaxRamBytes = stock.stockMaxRamBytes

/-- What `put_to_pool` promises: a batch that is accepted is stored in one file, each packet by
its record, and takes the bytes charged for it; one that is refused leaves the pools as they
were; and no batch takes the stock over its cap. -/
structure PutAllOrNothing (stock : LocalStock) (packets : List (Packet P)) (wantChecked : Bool)
    (result : LocalStock × AddStatus) : Prop where
  stored : result.2 = .ok → ∃ records, List.Forall₂ Keeps (routed packets wantChecked) records ∧
    stock.Appended wantChecked records result.1 ∧
    result.1.residentBytes = stock.residentBytes + ((routed packets wantChecked).map incomingBytes).sum
  refused : result.2 ≠ .ok → stock.SameContent result.1
  capped : stock.stockMaxRamBytes ≠ 0 →
    result.1.residentBytes = stock.residentBytes ∨ result.1.residentBytes ≤ stock.stockMaxRamBytes

variable {stock stock' : LocalStock} {packets : List (Packet P)} {wantChecked : Bool}

@[simp] theorem LocalStock.otherBytes_setPool (stock : LocalStock) (checked : Bool) (pool : Pool) :
    (stock.setPool checked pool).otherBytes = stock.otherBytes := by
  cases checked <;> rfl

@[simp] theorem LocalStock.stockMaxRamBytes_setPool (stock : LocalStock) (checked : Bool) (pool : Pool) :
    (stock.setPool checked pool).stockMaxRamBytes = stock.stockMaxRamBytes := by
  cases checked <;> rfl

theorem LocalStock.SameContent.refl (stock : LocalStock) : stock.SameContent stock :=
  ⟨fun _ => rfl, rfl, rfl⟩

theorem LocalStock.SameContent.setPool {pool : Pool} (h : pool.files = (stock.pool wantChecked).files) :
    stock.SameContent (stock.setPool wantChecked pool) := by
  refine ⟨fun checked => ?_, by simp, by simp⟩
  rcases Bool.eq_or_eq_not checked wantChecked with rfl | rfl
  · rw [LocalStock.pool_setPool, if_pos rfl, h]
  · rw [LocalStock.pool_setPool, if_neg (by cases wantChecked <;> decide)]

theorem LocalStock.SameContent.records (h : stock.SameContent stock') : stock'.records = stock.records := by
  have hunchecked : stock'.unchecked.files = stock.unchecked.files := h.files false
  have hchecked : stock'.checked.files = stock.checked.files := h.files true
  rw [LocalStock.records, hunchecked, hchecked, LocalStock.records]

theorem LocalStock.SameContent.residentBytes (h : stock.SameContent stock') :
    stock'.residentBytes = stock.residentBytes := by
  rw [LocalStock.residentBytes_eq, h.records, h.other, LocalStock.residentBytes_eq]

/-- The records of a batch. -/
theorem forall₂_keeps (h : ∀ p ∈ packets, p.Encodable) :
    List.Forall₂ Keeps packets (packets.filterMap recordOf) := by
  induction packets with
  | nil => exact .nil
  | cons p packets ih =>
    obtain ⟨record, q, hrecord, hload, hcanonical⟩ := recordPacket_recordOf (h p List.mem_cons_self)
    rw [List.filterMap_cons_some hrecord]
    exact .cons ⟨hrecord, q, hload, hcanonical⟩ (ih fun q hq => h q (List.mem_cons_of_mem p hq))

theorem LocalStock.Appended.of_modify {rrPut currfile : Nat} (records : List (List Byte))
    (h : currfile < (stock.pool wantChecked).files.length)
    {files_pos : 0 < ((stock.pool wantChecked).files.modify currfile (· ++ records)).length} :
    stock.Appended wantChecked records
      (stock.setPool wantChecked ⟨(stock.pool wantChecked).files.modify currfile (· ++ records), rrPut, files_pos⟩) := by
  refine ⟨⟨currfile, h, ?_⟩, ?_, by simp, by simp⟩
  · rw [LocalStock.pool_setPool, if_pos rfl]
  · rw [LocalStock.pool_setPool, if_neg (by cases wantChecked <;> decide)]

theorem LocalStock.Appended.records_perm {records : List (List Byte)} (h : stock.Appended wantChecked records stock') :
    stock'.records.Perm (stock.records ++ records) := by
  obtain ⟨currfile, hlt, hfiles⟩ := h.files
  have hperm := flatten_modify_perm records hlt
  rw [← hfiles] at hperm
  have hothers := h.others
  cases wantChecked with
  | false =>
    have hchecked : stock'.checked.files = stock.checked.files := hothers
    rw [LocalStock.records, LocalStock.records, hchecked]
    refine (hperm.append_right _).trans ?_
    rw [List.append_assoc, List.append_assoc]
    exact List.Perm.append_left _ List.perm_append_comm
  | true =>
    have hunchecked : stock'.unchecked.files = stock.unchecked.files := hothers
    rw [LocalStock.records, LocalStock.records, hunchecked, List.append_assoc]
    exact hperm.append_left _

/-- A batch that is appended takes the bytes that were charged for it. -/
theorem LocalStock.Appended.residentBytes (h : stock.Appended wantChecked (packets.filterMap recordOf) stock')
    (hencodable : ∀ p ∈ packets, p.Encodable) :
    stock'.residentBytes = stock.residentBytes + (packets.map incomingBytes).sum :=
  residentBytes_of_stores h.other hencodable h.records_perm

/-- A batch of at least one packet changes the file it is appended to. -/
theorem LocalStock.Appended.not_sameContent (h : stock.Appended wantChecked (packets.filterMap recordOf) stock')
    (hencodable : ∀ p ∈ packets, p.Encodable) (hnonempty : packets ≠ []) : ¬ stock.SameContent stock' := by
  intro hsame
  have hresident := h.residentBytes hencodable
  rw [hsame.residentBytes] at hresident
  cases packets with
  | nil => exact hnonempty rfl
  | cons p packets =>
    have hpos : 0 < incomingBytes p := Nat.add_pos_left (by decide) _
    rw [List.map_cons, List.sum_cons] at hresident
    omega

/-! ## An insertion -/

/-- How an insertion can end. -/
inductive PutToPoolCase (stock : LocalStock) (packets : List (Packet P)) (wantChecked : Bool) (free : Nat → Bool) :
    LocalStock × AddStatus → Prop
  | nothing (empty : routed packets wantChecked = []) : PutToPoolCase stock packets wantChecked free (stock, .ok)
  | refused {stock' : LocalStock} {status : AddStatus} (reported : status ≠ .ok)
      (full : ¬ stock.Takes wantChecked (routed packets wantChecked) free) (same : stock.SameContent stock') :
      PutToPoolCase stock packets wantChecked free (stock', status)
  | stored {stock' : LocalStock} (takes : stock.Takes wantChecked (routed packets wantChecked) free)
      (intime : LocksInTime (trylockMaxSweeps * (stock.pool wantChecked).files.length) free)
      (appended : stock.Appended wantChecked ((routed packets wantChecked).filterMap recordOf) stock') :
      PutToPoolCase stock packets wantChecked free (stock', .ok)
  | late {stock' : LocalStock} (nonempty : routed packets wantChecked ≠ [])
      (takes : stock.Takes wantChecked (routed packets wantChecked) free)
      (last : ¬ LocksInTime (trylockMaxSweeps * (stock.pool wantChecked).files.length) free)
      (appended : stock.Appended wantChecked ((routed packets wantChecked).filterMap recordOf) stock') :
      PutToPoolCase stock packets wantChecked free (stock', .refusedPoolLocked)

theorem putToPool_cases (stock : LocalStock) (packets : List (Packet P)) (wantChecked : Bool) (free : Nat → Bool) :
    PutToPoolCase stock packets wantChecked free (putToPool stock packets wantChecked free) := by
  unfold putToPool
  dsimp only
  split
  · rename_i hnone
    exact .nothing (List.eq_nil_of_length_eq_zero hnone)
  · rename_i hsome
    have hnonempty : routed packets wantChecked ≠ [] := fun hnil => hsome (by rw [hnil]; rfl)
    split
    · rename_i hcap
      refine .refused (by decide) (fun htakes => ?_) (.refl stock)
      rcases htakes.1 with hzero | hle <;> omega
    · rename_i hcap
      have hadmits : stock.Admits (routed packets wantChecked) := by
        unfold LocalStock.Admits
        omega
      cases hfirst : firstFree free (trylockMaxSweeps * (stock.pool wantChecked).files.length) 0 with
      | none =>
        refine .refused (by decide) (fun htakes => ?_) (.setPool rfl)
        obtain ⟨i, hi, hfree⟩ := htakes.2
        have hbusy := firstFree_eq_none hfirst i hi
        rw [Nat.zero_add, hfree] at hbusy
        cases hbusy
      | some i =>
        obtain ⟨-, hi, hfree, -⟩ := firstFree_eq_some hfirst
        have htakes : stock.Takes wantChecked (routed packets wantChecked) free :=
          ⟨hadmits, i, by omega, hfree⟩
        have hlt := Nat.mod_lt ((stock.pool wantChecked).rrPut % (stock.pool wantChecked).files.length + i)
          (stock.pool wantChecked).files_pos
        simp only [foldl_poolPut]
        split
        · rename_i hlast
          exact .late hnonempty htakes ((lastAttempt_iff hfirst).mp hlast) (.of_modify _ hlt)
        · rename_i hearly
          refine .stored htakes ?_ (.of_modify _ hlt)
          by_contra hnot
          exact hearly ((lastAttempt_iff hfirst).mpr hnot)

/-- The bytes after a batch that fits. -/
theorem LocalStock.Appended.capped (h : stock.Appended wantChecked (packets.filterMap recordOf) stock')
    (hencodable : ∀ p ∈ packets, p.Encodable) (hadmits : stock.Admits packets) (hcap : stock.stockMaxRamBytes ≠ 0) :
    stock'.residentBytes ≤ stock.stockMaxRamBytes := by
  rw [h.residentBytes hencodable]
  exact hadmits.resolve_left hcap

/-- An insertion is all or nothing, unless it is only its very last attempt that locks a file:
the batch is then stored and reported as refused. -/
theorem putToPool_allOrNothing_iff (stock : LocalStock) (packets : List (Packet P)) (wantChecked : Bool)
    (free : Nat → Bool) (hencodable : ∀ p ∈ packets, p.Encodable) :
    PutAllOrNothing stock packets wantChecked (putToPool stock packets wantChecked free) ↔
      (routed packets wantChecked = [] ∨ ¬ stock.Takes wantChecked (routed packets wantChecked) free ∨
        LocksInTime (trylockMaxSweeps * (stock.pool wantChecked).files.length) free) := by
  have hrouted : ∀ p ∈ routed packets wantChecked, p.Encodable := fun p hp => hencodable p (List.mem_of_mem_filter hp)
  have hcases := putToPool_cases stock packets wantChecked free
  generalize putToPool stock packets wantChecked free = result at hcases ⊢
  cases hcases with
  | nothing empty =>
    refine iff_of_true ⟨fun _ => ⟨[], ?_, ⟨⟨0, (stock.pool wantChecked).files_pos, ?_⟩, rfl, rfl, rfl⟩, ?_⟩,
      fun h => absurd rfl h, fun _ => .inl rfl⟩ (.inl empty)
    · rw [empty]
      exact .nil
    · simp only [List.append_nil]
      exact (List.modify_id ..).symm
    · rw [empty]
      rfl
  | refused reported full same =>
    exact iff_of_true ⟨fun h => absurd h reported, fun _ => same, fun _ => .inl same.residentBytes⟩ (.inr (.inl full))
  | stored takes intime appended =>
    refine iff_of_true ⟨fun _ => ⟨_, forall₂_keeps hrouted, appended, appended.residentBytes hrouted⟩,
      fun h => absurd rfl h, fun hcap => .inr (appended.capped hrouted takes.1 hcap)⟩ (.inr (.inr intime))
  | late nonempty takes last appended =>
    refine iff_of_false (fun h => ?_) ?_
    · exact appended.not_sameContent hrouted nonempty (h.refused (show AddStatus.refusedPoolLocked ≠ .ok by decide))
    · rintro (empty | full | intime)
      · exact nonempty empty
      · exact full takes
      · exact last intime

end Contract

/-! ## A late success -/

/-- A packet with no piece. -/
def blankPacket : Packet .p16 := ⟨0, 0, fun _ => -2, 0, 0, Words.zero, 0⟩

theorem blankPacket_encodable : blankPacket.Encodable := fun _ => .inl rfl

/-- Pools of one empty file, with no cap. -/
def oneFileStock : LocalStock where
  unchecked := ⟨[[]], 0, Nat.zero_lt_one⟩
  checked := ⟨[[]], 0, Nat.zero_lt_one⟩
  otherBytes := 0
  stockMaxRamBytes := 0

/-- The file is free at the first attempt. -/
theorem putToPool_blank : PutAllOrNothing oneFileStock [blankPacket] false
    (putToPool oneFileStock [blankPacket] false fun _ => true) := by
  refine (putToPool_allOrNothing_iff oneFileStock [blankPacket] false (fun _ => true) ?_).mpr
    (.inr (.inr ⟨0, by decide, rfl⟩))
  exact List.forall_mem_singleton.mpr blankPacket_encodable

/-- The file is free at the last of 5000 attempts: the packet is stored, and the answer is a
refusal. -/
theorem putToPool_late : ¬ PutAllOrNothing oneFileStock [blankPacket] false
    (putToPool oneFileStock [blankPacket] false fun i => i == 4999) := by
  intro hall
  have hencodable : ∀ p ∈ routed [blankPacket] false, p.Encodable :=
    List.forall_mem_singleton.mpr blankPacket_encodable
  have hnonempty : routed [blankPacket] false ≠ [] := by decide
  have htakes : oneFileStock.Takes false (routed [blankPacket] false) fun i => i == 4999 :=
    ⟨.inl rfl, 4999, by decide, rfl⟩
  have hlast : ¬ LocksInTime (trylockMaxSweeps * (oneFileStock.pool false).files.length) fun i => i == 4999 := by
    rintro ⟨i, hi, hfree⟩
    exact absurd hi (by rw [beq_iff_eq.mp hfree]; decide)
  obtain ⟨hrecords, hstatus⟩ := putToPool_stored hnonempty htakes
  have hsame := hall.refused fun hok => hlast (hstatus.mp hok)
  have hone := (length_filterMap_recordOf (routed [blankPacket] false)).2.mpr hencodable
  have hcount := hrecords.length_eq
  rw [hsame.records, List.length_append, hone] at hcount
  exact absurd hcount (Nat.ne_of_lt (Nat.lt_succ_self _))
