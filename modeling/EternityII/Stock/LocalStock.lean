-- SUMMARY: The local pools of the stock: their files of records, the RAM cap, and what an insertion adds to them.
import EternityII.Stock.PacketCodec

/-!
# The local pools

A stock has one pool of files for the packets a pruner has checked and one for the others.
An insertion routes every packet by its flag, is refused as a whole when the records would
not fit under the RAM cap or no file can be locked, and otherwise appends the records to one
file of the pool.
-/

/-! ## Pools -/

/-- A file of a pool: its records from the head to the tail. -/
abbrev PoolFile : Type := List (List Byte)

/-- The files of a pool, at least one, and its round-robin counter. -/
structure Pool where
  files : List PoolFile
  rrPut : Nat
  files_pos : 0 < files.length

/-- The stock of a process: `file_possibility`, `file_possibility_checked`, the bytes held
outside the pools, and the cap `stock_max_ram_bytes`, which 0 switches off. -/
structure LocalStock where
  unchecked : Pool
  checked : Pool
  otherBytes : Nat
  stockMaxRamBytes : Nat

/-- The values of `DATAMANAGER_ADD_*`. -/
inductive AddStatus where
  | ok | refusedRamCap | refusedPoolLocked
  deriving DecidableEq, Repr

/-- `element_overhead_bytes`: `sizeof(Element)` with its two pointers and its padding, and
twice `DATAMANAGER_MALLOC_OVERHEAD`. -/
def elementOverheadBytes : Nat := 24 + 2 * 16

/-- `DATAMANAGER_TRYLOCK_MAX_SWEEPS`. -/
def trylockMaxSweeps : Nat := 5000

namespace LocalStock

/-- The pool for packets with or without the flag. -/
def pool (stock : LocalStock) (checked : Bool) : Pool :=
  if checked then stock.checked else stock.unchecked

/-- The stock with one of its pools replaced. -/
def setPool (stock : LocalStock) (checked : Bool) (pool : Pool) : LocalStock :=
  if checked then { stock with checked := pool } else { stock with unchecked := pool }

/-- The records of both pools. -/
def records (stock : LocalStock) : List (List Byte) :=
  stock.unchecked.files.flatten ++ stock.checked.files.flatten

/-- `datamanager_resident_bytes`: `file->bytes + file->size * overhead` over the files, and
what is held outside. -/
def residentBytes (stock : LocalStock) : Nat :=
  let fileBytes (file : PoolFile) := (file.map List.length).sum + file.length * elementOverheadBytes
  (stock.unchecked.files.map fileBytes).sum + (stock.checked.files.map fileBytes).sum + stock.otherBytes

end LocalStock

section Put

variable {P : Puzzle}

/-- The record of a packet, `none` when it cannot be encoded. -/
def recordOf (packet : Packet P) : Option (List Byte) :=
  packetCodecEncode packet (packetCodecMaxBytes P)

/-- `element_load` on a record of a pool. -/
def recordPacket (P : Puzzle) (record : List Byte) : Option (Packet P) :=
  match packetCodecDecode P record with
  | .ok (packet, _) => some packet
  | _ => none

/-- `put_sized`. -/
def putSized (file : PoolFile) (value : List Byte) : PoolFile :=
  if value.length = 0 ∨ value.length > 65535 then file else file ++ [value]

/-- `pool_put`. -/
def poolPut (file : PoolFile) (packet : Packet P) : PoolFile :=
  match recordOf packet with
  | none => file
  | some record => putSized file record

/-- The attempts of `pthread_mutex_trylock` until one succeeds. -/
def firstFree (free : Nat → Bool) : Nat → Nat → Option Nat
  | 0, _ => none
  | attempts + 1, i => if free i then some i else firstFree free attempts (i + 1)

/-- The cost of a packet under the cap. -/
def incomingBytes (packet : Packet P) : Nat := elementOverheadBytes + packetCodecEncodedSize packet

/-- The packets for the pool with or without the flag. -/
def routed (packets : List (Packet P)) (wantChecked : Bool) : List (Packet P) :=
  packets.filter fun p => decide (p.checked = 1) == wantChecked

/-- `put_to_pool`; `free i` says whether the attempt `i` locks its file. The counter of sweeps
also runs after a success, so that one at the very last attempt is reported as a refusal. -/
def putToPool (stock : LocalStock) (packets : List (Packet P)) (wantChecked : Bool) (free : Nat → Bool) :
    LocalStock × AddStatus :=
  let kept := routed packets wantChecked
  if kept.length = 0 then (stock, .ok)
  else if stock.stockMaxRamBytes > 0 ∧
      stock.residentBytes + (kept.map incomingBytes).sum > stock.stockMaxRamBytes then
    (stock, .refusedRamCap)
  else
    let pool := stock.pool wantChecked
    let start := pool.rrPut % pool.files.length
    let attempts := trylockMaxSweeps * pool.files.length
    match firstFree free attempts 0 with
    | none =>
      (stock.setPool wantChecked { pool with rrPut := (pool.rrPut + 1) % 2 ^ 32 }, .refusedPoolLocked)
    | some i =>
      let currfile := (start + i) % pool.files.length
      (stock.setPool wantChecked {
        files := pool.files.modify currfile fun file => kept.foldl poolPut file
        rrPut := (pool.rrPut + 1) % 2 ^ 32
        files_pos := by rw [List.length_modify]; exact pool.files_pos },
        if i + 1 = attempts then .refusedPoolLocked else .ok)

/-- `put_to_local`: both pools on their own, and the cap before the locks in the report. -/
def putToLocal (stock : LocalStock) (packets : List (Packet P)) (freeUnchecked freeChecked : Nat → Bool) :
    LocalStock × AddStatus :=
  let unchecked := putToPool stock packets false freeUnchecked
  let checked := putToPool unchecked.1 packets true freeChecked
  (checked.1,
    if unchecked.2 = .refusedRamCap ∨ checked.2 = .refusedRamCap then .refusedRamCap
    else if unchecked.2 ≠ .ok ∨ checked.2 ≠ .ok then .refusedPoolLocked
    else .ok)

end Put

/-! ## What an insertion adds -/

theorem LocalStock.pool_setPool (stock : LocalStock) (b b' : Bool) (pool : Pool) :
    (stock.setPool b pool).pool b' = if b' = b then pool else stock.pool b' := by
  cases b <;> cases b' <;> rfl

/-- The packet has a record. -/
def Packet.Encodable {P : Puzzle} (p : Packet P) : Prop := ∀ c, CodecValue P (p.grid c)

/-- The packets fit under the cap. -/
def LocalStock.Admits {P : Puzzle} (stock : LocalStock) (packets : List (Packet P)) : Prop :=
  stock.stockMaxRamBytes = 0 ∨
    stock.residentBytes + (packets.map incomingBytes).sum ≤ stock.stockMaxRamBytes

section Files

/-- Appending to one file of a pool appends to its records. -/
theorem flatten_modify_perm {α : Type*} (new : List α) {files : List (List α)} {i : Nat}
    (hi : i < files.length) : (files.modify i (· ++ new)).flatten.Perm (files.flatten ++ new) := by
  induction files generalizing i with
  | nil => exact absurd hi (Nat.not_lt_zero i)
  | cons file files ih =>
    cases i with
    | zero =>
      rw [List.modify_zero_cons, List.flatten_cons, List.flatten_cons, List.append_assoc, List.append_assoc]
      exact List.Perm.append_left file List.perm_append_comm
    | succ i =>
      rw [List.modify_succ_cons, List.flatten_cons, List.flatten_cons, List.append_assoc]
      exact List.Perm.append_left file (ih (Nat.lt_of_succ_lt_succ hi))

theorem firstFree_isSome {free : Nat → Bool} {attempts i : Nat}
    (h : ∃ k < attempts, free (i + k) = true) : ∃ j, firstFree free attempts i = some j := by
  induction attempts generalizing i with
  | zero =>
    obtain ⟨k, hk, -⟩ := h
    exact absurd hk (Nat.not_lt_zero k)
  | succ attempts ih =>
    rw [firstFree]
    split
    · exact ⟨i, rfl⟩
    · rename_i hbusy
      obtain ⟨k, hk, hfree⟩ := h
      cases k with
      | zero => exact absurd hfree hbusy
      | succ k => exact ih ⟨k, Nat.lt_of_succ_lt_succ hk, by rw [Nat.add_right_comm]; exact hfree⟩

variable {P : Puzzle} {p : Packet P}

theorem recordOf_of_encodable (h : p.Encodable) :
    ∃ record, recordOf p = some record ∧ record.length = packetCodecEncodedSize p := by
  obtain ⟨record, hrecord, hlength, -⟩ :=
    packetCodecDecode_append p h (packetCodecMaxBytes P) (packetCodecEncodedSize_le p)
  exact ⟨record, hrecord, hlength⟩

theorem encodable_iff : p.Encodable ↔ (recordOf p).isSome := by
  constructor
  · intro h
    obtain ⟨record, hrecord, -⟩ := recordOf_of_encodable h
    rw [hrecord]
    rfl
  · intro h
    by_contra hnot
    rw [recordOf, packetCodecEncode_eq_none (not_forall.mp hnot)] at h
    exact absurd h (by simp)

/-- A record gives its packet back in canonical form. -/
theorem recordPacket_recordOf (h : p.Encodable) : ∃ record q, recordOf p = some record ∧
    recordPacket P record = some q ∧ Canonical p q := by
  obtain ⟨record, hrecord, -, hdecode⟩ :=
    packetCodecDecode_append p h (packetCodecMaxBytes P) (packetCodecEncodedSize_le p)
  obtain ⟨q, hok, hcanonical⟩ := hdecode []
  rw [List.append_nil] at hok
  exact ⟨record, q, hrecord, by rw [recordPacket, hok], hcanonical⟩

/-- A record is neither empty nor too long for a file. -/
theorem poolPut_eq (file : PoolFile) (p : Packet P) : poolPut file p = file ++ (recordOf p).toList := by
  unfold poolPut
  split
  · rename_i hnone
    rw [hnone, Option.toList_none, List.append_nil]
  · rename_i record hrecord
    have hsome : p.Encodable := encodable_iff.mpr (by rw [hrecord]; rfl)
    obtain ⟨record', hrecord', hlength⟩ := recordOf_of_encodable hsome
    obtain rfl : record' = record := by simpa [hrecord] using hrecord'.symm
    have hle := packetCodecEncodedSize_le p
    have hmax : packetCodecMaxBytes P ≤ 65535 := by cases P <;> decide
    have hpos : 0 < packetCodecEncodedSize p := by
      unfold packetCodecEncodedSize packetCodecSizeFor packetCodecHeaderBytes
      omega
    rw [hrecord, Option.toList_some, putSized, if_neg (by omega)]

theorem foldl_poolPut (file : PoolFile) (packets : List (Packet P)) :
    packets.foldl poolPut file = file ++ packets.filterMap recordOf := by
  induction packets generalizing file with
  | nil => simp
  | cons p packets ih =>
    rw [List.foldl_cons, ih, poolPut_eq, List.append_assoc, List.filterMap_cons]
    cases recordOf p <;> simp

end Files

section Insertion

variable {P : Puzzle}

/-- The bytes a record takes in a pool. -/
def recordBytes (record : List Byte) : Nat := record.length + elementOverheadBytes

theorem sum_fileBytes (files : List PoolFile) :
    (files.map fun file => (file.map List.length).sum + file.length * elementOverheadBytes).sum =
      (files.flatten.map recordBytes).sum := by
  induction files with
  | nil => rfl
  | cons file files ih =>
    have hfile : (file.map List.length).sum + file.length * elementOverheadBytes =
        (file.map recordBytes).sum := by
      induction file with
      | nil => simp
      | cons record file ih =>
        simp only [List.map_cons, List.sum_cons, List.length_cons, Nat.succ_mul, recordBytes] at ih ⊢
        omega
    rw [List.map_cons, List.sum_cons, ih, hfile, List.flatten_cons, List.map_append, List.sum_append]

theorem LocalStock.residentBytes_eq (stock : LocalStock) :
    stock.residentBytes = (stock.records.map recordBytes).sum + stock.otherBytes := by
  unfold LocalStock.residentBytes LocalStock.records
  dsimp only
  rw [sum_fileBytes, sum_fileBytes, List.map_append, List.sum_append]

/-- The cost charged for packets that can be encoded is that of their records. -/
theorem sum_incomingBytes {packets : List (Packet P)} (h : ∀ p ∈ packets, p.Encodable) :
    (packets.map incomingBytes).sum = ((packets.filterMap recordOf).map recordBytes).sum := by
  induction packets with
  | nil => rfl
  | cons p packets ih =>
    obtain ⟨record, hrecord, hlength⟩ := recordOf_of_encodable (h p List.mem_cons_self)
    rw [List.map_cons, List.sum_cons, ih fun q hq => h q (List.mem_cons_of_mem p hq),
      List.filterMap_cons_some hrecord, List.map_cons, List.sum_cons, incomingBytes, recordBytes, hlength,
      Nat.add_comm elementOverheadBytes]

/-- As many records as packets, exactly when every packet has one. -/
theorem length_filterMap_recordOf (packets : List (Packet P)) :
    (packets.filterMap recordOf).length ≤ packets.length ∧
      ((packets.filterMap recordOf).length = packets.length ↔ ∀ p ∈ packets, p.Encodable) := by
  induction packets with
  | nil => simp
  | cons p packets ih =>
    obtain ⟨hle, hiff⟩ := ih
    have hp := encodable_iff (p := p)
    cases hrecord : recordOf p with
    | none =>
      rw [hrecord] at hp
      rw [List.filterMap_cons_none hrecord]
      refine ⟨Nat.le_succ_of_le hle, iff_of_false (by simp; omega) fun h => ?_⟩
      exact absurd (hp.mp (h p List.mem_cons_self)) (by simp)
    | some record =>
      rw [hrecord] at hp
      rw [List.filterMap_cons_some hrecord, List.length_cons, List.length_cons, List.forall_mem_cons]
      exact ⟨Nat.succ_le_succ hle, by rw [Nat.add_right_cancel_iff, hiff]; simp [hp]⟩

/-- What an insertion of some packets makes of a stock: their records are added, or nothing. -/
inductive PutSpec (stock : LocalStock) (packets : List (Packet P)) : LocalStock → Prop
  | stored {stock' : LocalStock} (admits : packets = [] ∨ stock.Admits packets)
      (records : stock'.records.Perm (stock.records ++ packets.filterMap recordOf))
      (cap : stock'.stockMaxRamBytes = stock.stockMaxRamBytes) (other : stock'.otherBytes = stock.otherBytes)
      (unchecked : stock'.unchecked.files.length = stock.unchecked.files.length)
      (checked : stock'.checked.files.length = stock.checked.files.length) :
      PutSpec stock packets stock'
  | refused (nonempty : packets ≠ []) (full : ¬ stock.Admits packets) : PutSpec stock packets stock

theorem putToPool_spec (stock : LocalStock) (packets : List (Packet P)) (wantChecked : Bool)
    {free : Nat → Bool}
    (hfree : ∃ i < trylockMaxSweeps * (stock.pool wantChecked).files.length, free i = true) :
    PutSpec stock (routed packets wantChecked) (putToPool stock packets wantChecked free).1 := by
  unfold putToPool
  dsimp only
  split
  · rename_i hnone
    have hnil := List.eq_nil_of_length_eq_zero hnone
    exact .stored (.inl hnil) (by simp [hnil]) rfl rfl rfl rfl
  · rename_i hsome
    split
    · rename_i hcap
      refine .refused (fun hnil => hsome (by simp [hnil])) fun hadmits => ?_
      rcases hadmits with hzero | hle <;> omega
    · rename_i hcap
      have hadmits : stock.Admits (routed packets wantChecked) := by
        unfold LocalStock.Admits
        omega
      obtain ⟨i, hi⟩ := firstFree_isSome (i := 0) (by simpa using hfree)
      rw [hi]
      dsimp only
      have hlt : ((stock.pool wantChecked).rrPut % (stock.pool wantChecked).files.length + i) %
          (stock.pool wantChecked).files.length < (stock.pool wantChecked).files.length :=
        Nat.mod_lt _ (stock.pool wantChecked).files_pos
      have hperm := flatten_modify_perm ((routed packets wantChecked).filterMap recordOf) hlt
      simp only [foldl_poolPut]
      cases wantChecked with
      | false =>
        refine .stored (.inr hadmits) ?_ rfl rfl (List.length_modify ..) rfl
        show (List.flatten _ ++ stock.checked.files.flatten).Perm _
        refine (hperm.append_right _).trans ?_
        rw [LocalStock.records, List.append_assoc, List.append_assoc]
        exact List.Perm.append_left _ List.perm_append_comm
      | true =>
        refine .stored (.inr hadmits) ?_ rfl rfl rfl (List.length_modify ..)
        show (stock.unchecked.files.flatten ++ List.flatten _).Perm _
        rw [LocalStock.records, List.append_assoc]
        exact hperm.append_left _

theorem routed_perm (packets : List (Packet P)) :
    (routed packets false ++ routed packets true).Perm packets := by
  have hsplit := List.filter_append_perm (fun p : Packet P => decide (p.checked = 1) == false) packets
  have hnot : (fun p : Packet P => !(decide (p.checked = 1) == false)) =
      fun p => decide (p.checked = 1) == true := by
    funext p
    cases decide (p.checked = 1) <;> rfl
  rwa [hnot] at hsplit

/-- `stock'` holds the records of `stock` and of all the packets. -/
structure StoresAll (stock : LocalStock) (packets : List (Packet P)) (stock' : LocalStock) : Prop where
  encodable : ∀ p ∈ packets, p.Encodable
  admits : packets = [] ∨ stock.Admits packets
  records : stock'.records.Perm (stock.records ++ packets.filterMap recordOf)

/-- What a sequence of insertions does: it stores every packet exactly when all of them can be
encoded and fit under the cap together, and otherwise the records fall short. -/
structure InsertSpec (stock : LocalStock) (packets : List (Packet P)) (stock' : LocalStock) : Prop where
  cap : stock'.stockMaxRamBytes = stock.stockMaxRamBytes
  other : stock'.otherBytes = stock.otherBytes
  unchecked : stock'.unchecked.files.length = stock.unchecked.files.length
  checked : stock'.checked.files.length = stock.checked.files.length
  length : stock'.records.length ≤ stock.records.length + packets.length
  short : stock'.records.length = stock.records.length + packets.length →
    StoresAll stock packets stock'
  stores : (∀ p ∈ packets, p.Encodable) → packets = [] ∨ stock.Admits packets →
    stock'.records.Perm (stock.records ++ packets.filterMap recordOf)

variable {stock stock' stock'' : LocalStock} {packets packets' : List (Packet P)}

theorem PutSpec.insert (h : PutSpec stock packets stock') : InsertSpec stock packets stock' := by
  obtain ⟨hle, hiff⟩ := length_filterMap_recordOf packets
  cases h with
  | stored admits records cap other unchecked checked =>
    have hlength := records.length_eq
    rw [List.length_append] at hlength
    refine ⟨cap, other, unchecked, checked, by omega, fun heq => ?_, fun _ _ => records⟩
    exact ⟨hiff.mp (by omega), admits, records⟩
  | refused nonempty full =>
    have hpos := List.length_pos_iff.mpr nonempty
    refine ⟨rfl, rfl, rfl, rfl, by omega, fun heq => by omega, fun _ hadmits => ?_⟩
    exact absurd (hadmits.resolve_left nonempty) full

/-- The resident bytes after an insertion that stored everything. -/
theorem residentBytes_of_stores (hother : stock'.otherBytes = stock.otherBytes)
    (hencodable : ∀ p ∈ packets, p.Encodable)
    (hrecords : stock'.records.Perm (stock.records ++ packets.filterMap recordOf)) :
    stock'.residentBytes = stock.residentBytes + (packets.map incomingBytes).sum := by
  have hsum := (hrecords.map recordBytes).sum_nat
  rw [List.map_append, List.sum_append] at hsum
  rw [LocalStock.residentBytes_eq, LocalStock.residentBytes_eq, sum_incomingBytes hencodable, hsum, hother]
  omega

/-- Packets fit one group after the other exactly when they fit together. -/
theorem admits_append (hcap : stock'.stockMaxRamBytes = stock.stockMaxRamBytes)
    (hresident : stock'.residentBytes = stock.residentBytes + (packets.map incomingBytes).sum) :
    (packets ++ packets' = [] ∨ stock.Admits (packets ++ packets')) ↔
      (packets = [] ∨ stock.Admits packets) ∧ (packets' = [] ∨ stock'.Admits packets') := by
  unfold LocalStock.Admits
  rw [List.map_append, List.sum_append, hcap, hresident, List.append_eq_nil_iff]
  rcases packets with _ | ⟨p, packets⟩
  · rcases packets' with _ | ⟨p', packets'⟩ <;> simp
  · rcases packets' with _ | ⟨p', packets'⟩
    · simp
    · simp only [reduceCtorEq, false_and, false_or]
      omega

theorem InsertSpec.trans (h : InsertSpec stock packets stock') (h' : InsertSpec stock' packets' stock'') :
    InsertSpec stock (packets ++ packets') stock'' := by
  have hlength := h.length
  have hlength' := h'.length
  refine ⟨h'.cap.trans h.cap, h'.other.trans h.other, h'.unchecked.trans h.unchecked,
    h'.checked.trans h.checked, ?_, fun heq => ?_, fun hencodable hadmits => ?_⟩
  · rw [List.length_append]
    omega
  · rw [List.length_append] at heq
    have hfirst := h.short (by omega)
    have hsecond := h'.short (by omega)
    have hresident := residentBytes_of_stores h.other hfirst.encodable hfirst.records
    refine ⟨List.forall_mem_append.mpr ⟨hfirst.encodable, hsecond.encodable⟩,
      (admits_append h.cap hresident).mpr ⟨hfirst.admits, hsecond.admits⟩, ?_⟩
    rw [List.filterMap_append, ← List.append_assoc]
    exact hsecond.records.trans (hfirst.records.append_right _)
  · obtain ⟨hencodable₁, hencodable₂⟩ := List.forall_mem_append.mp hencodable
    have hfirst : packets = [] ∨ stock.Admits packets := by
      rcases hadmits with hnil | hadmits
      · exact .inl (List.append_eq_nil_iff.mp hnil).1
      · refine .inr (hadmits.imp_right fun hle => ?_)
        rw [List.map_append, List.sum_append] at hle
        omega
    have hrecords := h.stores hencodable₁ hfirst
    have hresident := residentBytes_of_stores h.other hencodable₁ hrecords
    have hsecond := ((admits_append h.cap hresident).mp hadmits).2
    rw [List.filterMap_append, ← List.append_assoc]
    exact (h'.stores hencodable₂ hsecond).trans (hrecords.append_right _)

theorem InsertSpec.perm (h : InsertSpec stock packets stock') (hperm : packets.Perm packets') :
    InsertSpec stock packets' stock' := by
  have hadmits : packets = [] ∨ stock.Admits packets ↔ packets' = [] ∨ stock.Admits packets' := by
    unfold LocalStock.Admits
    rw [(hperm.map incomingBytes).sum_nat, ← List.length_eq_zero_iff, hperm.length_eq,
      List.length_eq_zero_iff]
  have hrecords := (hperm.filterMap recordOf).append_left stock.records
  refine ⟨h.cap, h.other, h.unchecked, h.checked, hperm.length_eq ▸ h.length, fun heq => ?_,
    fun hencodable hfits => ?_⟩
  · obtain ⟨hencodable, hfits, hstored⟩ := h.short (by rw [heq, hperm.length_eq])
    exact ⟨fun p hp => hencodable p (hperm.mem_iff.mpr hp), hadmits.mp hfits, hstored.trans hrecords⟩
  · exact (h.stores (fun p hp => hencodable p (hperm.mem_iff.mp hp)) (hadmits.mpr hfits)).trans hrecords

theorem putToLocal_spec (stock : LocalStock) (packets : List (Packet P)) {freeUnchecked freeChecked : Nat → Bool}
    (hunchecked : ∃ i < trylockMaxSweeps * stock.unchecked.files.length, freeUnchecked i = true)
    (hchecked : ∃ i < trylockMaxSweeps * stock.checked.files.length, freeChecked i = true) :
    InsertSpec stock packets (putToLocal stock packets freeUnchecked freeChecked).1 := by
  have hfirst := (putToPool_spec stock packets false hunchecked).insert
  have hfree : ∃ i < trylockMaxSweeps *
      (LocalStock.pool (putToPool stock packets false freeUnchecked).1 true).files.length,
      freeChecked i = true := by
    obtain ⟨i, hi, hfree⟩ := hchecked
    exact ⟨i, Nat.lt_of_lt_of_eq hi (congrArg _ hfirst.checked.symm), hfree⟩
  have hsecond := (putToPool_spec (putToPool stock packets false freeUnchecked).1 packets true hfree).insert
  exact (hfirst.trans hsecond).perm (routed_perm packets)

end Insertion
