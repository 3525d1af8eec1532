-- SUMMARY: Records between a file and a block: what is drained, and when a refill takes all of a block or nothing of it.
import EternityII.Spill.Store
import EternityII.Stock.LifoRuns
import EternityII.Stock.SortState

/-!
# Moving records in blocks

The RAM tier takes records from the head of a file side by side, and gives them back to its tail. The
cut into records is read off their bitmaps, once to check the block and once more to insert its
records. When memory runs out on the way, the records inserted are popped again into a buffer that
holds any record of the board. A record whose bitmap marks cells past the board may be longer.
-/

/-! ## Files and their locks -/

/-- `file_possibility_t`, with its file as it lies in memory. -/
structure FileSlot (ι : Type*) (P : Puzzle) where
  file : File ι P
  sortState : FileSortState

/-- The files of the two pools; the verified one is `true`. -/
structure FileSlots (ι : Type*) (P : Puzzle) where
  nbFilePossibility : Nat
  slot : Bool → Nat → FileSlot ι P

section Model

variable {ι : Type*} [DecidableEq ι] {P : Puzzle}

/-- The record of an element; the files of the pools hold no packet as it is. -/
def Element.record : Element P → List Byte
  | .raw _ => []
  | .compact record => record

/-- The loop of `datamanager_pool_drain_head_compact`: the file, and the records copied. -/
def File.drainLoop : Nat → File ι P → Nat → File ι P × List (List Byte)
  | 0, file, _ => (file, [])
  | n + 1, file, cap =>
    match file.scrollFifoSized cap with
    | (_, none) => (file, [])
    | (file, some payload) =>
      let r := File.drainLoop n file (cap - payload.len)
      (r.1, payload.record :: r.2)

variable (P) in
/-- The length of the record at the head of some bytes, from `packet_codec_peek_placed`. -/
def refillLen (raw : List Byte) : Nat := packetCodecSizeFor P (packetCodecPeekPlaced P raw).toNat

variable (P) in
/-- The first loop of `datamanager_pool_refill_compact`: how many records the bytes are cut into. -/
def refillCount : Nat → List Byte → Option Nat
  | _, [] => some 0
  | 0, _ => none
  | fuel + 1, raw =>
    if raw.length < packetCodecPrefix P then none
    else if refillLen P raw > raw.length then none
    else (refillCount fuel (raw.drop (refillLen P raw))).map (· + 1)

/-- The second loop: the file, and how many records were inserted. `memory` is what `malloc` gives. -/
def File.refillLoop : Nat → List Byte → (Nat → Option ι) → File ι P → File ι P × Nat
  | 0, _, _, file => (file, 0)
  | n + 1, raw, memory, file =>
    match file.putSized (.compact (raw.take (refillLen P raw))) (memory 0) with
    | (file, true) =>
      let r := File.refillLoop n (raw.drop (refillLen P raw)) (fun i => memory (i + 1)) file
      (r.1, r.2 + 1)
    | (file, false) => (file, 0)

/-- The third loop, which pops what was inserted into a buffer of `PACKET_CODEC_MAX_BYTES`. -/
def File.undoLoop : Nat → File ι P → File ι P
  | 0, file => file
  | n + 1, file => File.undoLoop n (file.scrollSized (packetCodecMaxBytes P)).1

namespace FileSlots

omit [DecidableEq ι] in
/-- The pools with one of their files replaced. -/
def set (s : FileSlots ι P) (isChecked : Bool) (fileIndex : Nat) (slot : FileSlot ι P) : FileSlots ι P :=
  { s with slot := fun b f => if b = isChecked ∧ f = fileIndex then slot else s.slot b f }

omit [DecidableEq ι] in
/-- `file_index` is one of a file. -/
def HasFile (s : FileSlots ι P) (fileIndex : Int) : Prop := 0 ≤ fileIndex ∧ fileIndex < s.nbFilePossibility

instance (s : FileSlots ι P) (fileIndex : Int) : Decidable (s.HasFile fileIndex) := inferInstanceAs (Decidable (_ ∧ _))

/-- `datamanager_pool_drain_head_compact` into a buffer of `cap` bytes, if there is one: the return
value, and the bytes written. `free` says whether the lock was free. -/
def poolDrainHeadCompact (s : FileSlots ι P) (isChecked : Bool) (fileIndex : Int) (buf : Bool) (cap : Nat)
    (maxRecords : Int) (free : Bool) : FileSlots ι P × Int × List Byte :=
  if ¬ s.HasFile fileIndex ∨ buf = false then (s, 0, [])
  else if free = false then (s, 0, [])
  else
    let slot := s.slot isChecked fileIndex.toNat
    let r := slot.file.drainLoop maxRecords.toNat cap
    (s.set isChecked fileIndex.toNat { slot with file := r.1 }, r.2.length, r.2.flatten)

/-- `datamanager_pool_refill_compact`; `none` is a null pointer. -/
def poolRefillCompact (s : FileSlots ι P) (isChecked : Bool) (fileIndex : Int) (raw : Option (List Byte)) (free : Bool)
    (memory : Nat → Option ι) : FileSlots ι P × Int :=
  match raw with
  | none => (s, -1)
  | some raw =>
    if ¬ s.HasFile fileIndex ∨ raw.length = 0 then (s, -1)
    else
      match refillCount P raw.length raw with
      | none => (s, -1)
      | some count =>
        if free = false then (s, 0)
        else
          let slot := s.slot isChecked fileIndex.toNat
          let r := slot.file.refillLoop count raw memory
          if r.2 < count then (s.set isChecked fileIndex.toNat { slot with file := r.1.undoLoop r.2 }, -1)
          else (s.set isChecked fileIndex.toNat ⟨r.1, .unknown⟩, count)

omit [DecidableEq ι] in
@[simp] theorem set_slot_self (s : FileSlots ι P) (b : Bool) (f : Nat) (slot : FileSlot ι P) :
    (s.set b f slot).slot b f = slot := if_pos ⟨rfl, rfl⟩

section Frame

variable {b isChecked : Bool} {f : Nat} {fileIndex : Int} (s : FileSlots ι P) (hne : ¬ (b = isChecked ∧ f = fileIndex.toNat))

include hne

/-- A drain touches one file. -/
theorem poolDrainHeadCompact_others (buf : Bool) (cap : Nat) (maxRecords : Int) (free : Bool) :
    (s.poolDrainHeadCompact isChecked fileIndex buf cap maxRecords free).1.slot b f = s.slot b f := by
  unfold poolDrainHeadCompact
  split
  · rfl
  · split
    · rfl
    · exact if_neg hne

/-- A refill touches one file. -/
theorem poolRefillCompact_others (raw : Option (List Byte)) (free : Bool) (memory : Nat → Option ι) :
    (s.poolRefillCompact isChecked fileIndex raw free memory).1.slot b f = s.slot b f := by
  unfold poolRefillCompact
  dsimp only
  repeat' split
  all_goals first | rfl | exact if_neg hne

end Frame

end FileSlots

end Model

/-! ## The cut into records -/

/-- A record whose length is the one its bitmap announces. -/
structure MatchesOccupancy (P : Puzzle) (record : List Byte) : Prop where
  header : packetCodecPrefix P ≤ record.length
  length : record.length = packetCodecSizeFor P (announced P record)

section Cut

variable {P : Puzzle} {record raw rest : List Byte} {records : List (List Byte)}

theorem packetCodecPrefix_pos (P : Puzzle) : 0 < packetCodecPrefix P := by
  unfold packetCodecPrefix packetCodecHeaderBytes
  omega

theorem MatchesOccupancy.length_pos (h : MatchesOccupancy P record) : 0 < record.length :=
  Nat.lt_of_lt_of_le (packetCodecPrefix_pos P) h.header

/-- The bitmap of a record is not read past the record. -/
theorem announced_append (h : packetCodecPrefix P ≤ record.length) (rest : List Byte) :
    announced P (record ++ rest) = announced P record := by
  rw [← announced_take (record ++ rest), ← announced_take record, List.take_append_of_le_length h]

/-- The count in 16 bits is the count. -/
theorem refillLen_eq (h : packetCodecPrefix P ≤ raw.length) : refillLen P raw = packetCodecSizeFor P (announced P raw) := by
  have hle := announced_le (P := P) raw
  unfold refillLen packetCodecPeekPlaced
  rw [if_neg (Nat.not_lt.mpr h)]
  show packetCodecSizeFor P (UInt16.ofNat (announced P raw)).toNat = _
  rw [UInt16.toNat_ofNat', Nat.mod_eq_of_lt (by omega)]

/-- Records have a byte at least. -/
theorem count_le_flatten (h : ∀ r ∈ records, MatchesOccupancy P r) : records.length ≤ records.flatten.length := by
  induction records with
  | nil => exact Nat.le_refl 0
  | cons record records ih =>
    rw [List.forall_mem_cons] at h
    have hpos := h.1.length_pos
    have hrest := ih h.2
    rw [List.length_cons, List.flatten_cons, List.length_append]
    omega

theorem flatten_ne_nil (h : ∀ r ∈ records, MatchesOccupancy P r) (hne : records ≠ []) : records.flatten ≠ [] := by
  have hpos := List.length_pos_of_ne_nil hne
  have hle := count_le_flatten h
  exact List.ne_nil_of_length_pos (Nat.lt_of_lt_of_le hpos hle)

/-- Both cuts take the same record off. -/
theorem stockTierRecordLen_eq (h : packetCodecPrefix P ≤ raw.length) :
    stockTierRecordLen P raw = if refillLen P raw ≤ raw.length then refillLen P raw else 0 := by
  rw [refillLen_eq h]
  exact if_neg (Nat.not_lt.mpr h)

theorem refillLen_pos : 0 < refillLen P raw := Nat.lt_of_lt_of_le (packetCodecPrefix_pos P) (Nat.le_add_right _ _)

/-- The first loop counts the records that the cut of the tier gives. -/
theorem refillCount_eq (fuel : Nat) (raw : List Byte) :
    refillCount P fuel raw = (tierRecordsLoop P fuel raw).map List.length := by
  induction fuel generalizing raw with
  | zero => cases raw <;> rfl
  | succ fuel ih =>
    cases raw with
    | nil => rfl
    | cons b raw =>
      rw [refillCount, tierRecordsLoop]
      · generalize b :: raw = raw
        by_cases hshort : raw.length < packetCodecPrefix P
        · have hzero : stockTierRecordLen P raw = 0 := if_pos hshort
          rw [if_pos hshort, hzero, if_pos rfl]
          rfl
        · rw [if_neg hshort, stockTierRecordLen_eq (Nat.not_lt.mp hshort)]
          by_cases hlong : refillLen P raw > raw.length
          · rw [if_pos hlong, if_neg (Nat.not_le.mpr hlong), if_pos rfl]
            rfl
          · rw [if_neg hlong, if_pos (Nat.not_lt.mp hlong), if_neg (Nat.ne_of_gt refillLen_pos), ih, Option.map_map,
              Option.map_map]
            rfl
      · exact List.cons_ne_nil b raw
      · exact List.cons_ne_nil b raw

theorem MatchesOccupancy.refillLen_append (h : MatchesOccupancy P record) (rest : List Byte) :
    refillLen P (record ++ rest) = record.length := by
  have hlen : packetCodecPrefix P ≤ (record ++ rest).length :=
    Nat.le_trans h.header (by rw [List.length_append]; exact Nat.le_add_right _ _)
  rw [refillLen_eq hlen, announced_append h.header, h.length]

/-- Records side by side are cut apart again. -/
theorem tierRecordsLoop_of_matches {fuel : Nat} (h : ∀ r ∈ records, MatchesOccupancy P r)
    (hfuel : records.flatten.length ≤ fuel) : tierRecordsLoop P fuel records.flatten = some records := by
  induction records generalizing fuel with
  | nil => cases fuel <;> rfl
  | cons record records ih =>
    rw [List.forall_mem_cons] at h
    have hpos := h.1.length_pos
    rw [List.flatten_cons, List.length_append] at hfuel
    obtain ⟨fuel, rfl⟩ := Nat.exists_eq_add_of_le' (show 1 ≤ fuel by omega)
    have hheader : packetCodecPrefix P ≤ (record ++ records.flatten).length :=
      Nat.le_trans h.1.header (by rw [List.length_append]; exact Nat.le_add_right _ _)
    have hlen : stockTierRecordLen P (record ++ records.flatten) = record.length := by
      rw [stockTierRecordLen_eq hheader, h.1.refillLen_append, if_pos]
      rw [List.length_append]
      exact Nat.le_add_right _ _
    rw [List.flatten_cons]
    obtain ⟨b, bytes, hbytes⟩ := List.exists_cons_of_ne_nil
      (List.append_ne_nil_of_left_ne_nil (List.ne_nil_of_length_pos hpos) records.flatten)
    rw [hbytes, tierRecordsLoop, ← hbytes, hlen, if_neg (Nat.pos_iff_ne_zero.mp hpos), List.drop_left, List.take_left,
      ih h.2 (by omega)]
    · rfl
    · exact List.cons_ne_nil b bytes

/-- What is cut off is a record. -/
theorem matches_take (hheader : packetCodecPrefix P ≤ raw.length) (hle : refillLen P raw ≤ raw.length) :
    MatchesOccupancy P (raw.take (refillLen P raw)) := by
  have hlength : (raw.take (refillLen P raw)).length = refillLen P raw := by
    rw [List.length_take, Nat.min_eq_left hle]
  have hlong : packetCodecPrefix P ≤ (raw.take (refillLen P raw)).length := by
    rw [hlength, refillLen_eq hheader]
    exact Nat.le_add_right _ _
  have hsame := announced_append hlong (raw.drop (refillLen P raw))
  rw [List.take_append_drop] at hsame
  refine ⟨hlong, ?_⟩
  rw [hlength, ← hsame, refillLen_eq hheader]

theorem matches_of_tierRecordsLoop {fuel : Nat} (h : tierRecordsLoop P fuel raw = some records) :
    ∀ r ∈ records, MatchesOccupancy P r := by
  induction fuel generalizing raw records with
  | zero =>
    cases raw with
    | nil =>
      obtain rfl : [] = records := by simpa [tierRecordsLoop] using h
      exact List.forall_mem_nil _
    | cons b raw => exact absurd h (by simp [tierRecordsLoop])
  | succ fuel ih =>
    cases raw with
    | nil =>
      obtain rfl : [] = records := by simpa [tierRecordsLoop] using h
      exact List.forall_mem_nil _
    | cons b raw =>
      rw [tierRecordsLoop] at h
      · generalize b :: raw = raw at h
        split at h
        · exact absurd h (by simp)
        · rename_i hlen
          obtain ⟨rest, hrest, rfl⟩ := Option.map_eq_some_iff.mp h
          refine List.forall_mem_cons.mpr ⟨?_, ih hrest⟩
          by_cases hshort : raw.length < packetCodecPrefix P
          · exact absurd (if_pos hshort) hlen
          · have hheader := Nat.not_lt.mp hshort
            rw [stockTierRecordLen_eq hheader] at hlen ⊢
            split at hlen
            · rename_i hle
              rw [if_pos hle]
              exact matches_take hheader hle
            · exact absurd rfl hlen
      · exact List.cons_ne_nil b raw

/-- The cut of some bytes, and its only result. -/
theorem tierRecords_eq_some_iff :
    tierRecords P raw = some records ↔ (∀ r ∈ records, MatchesOccupancy P r) ∧ records.flatten = raw := by
  constructor
  · intro h
    exact ⟨matches_of_tierRecordsLoop h, flatten_of_tierRecords h⟩
  · rintro ⟨h, rfl⟩
    exact tierRecordsLoop_of_matches h (Nat.le_refl _)

/-- Bytes are records side by side in one way only. -/
theorem matches_unique {records' : List (List Byte)} (h : ∀ r ∈ records, MatchesOccupancy P r)
    (h' : ∀ r ∈ records', MatchesOccupancy P r) (heq : records'.flatten = records.flatten) : records' = records := by
  have hcut := tierRecords_eq_some_iff.mpr ⟨h', heq⟩
  rw [tierRecords_eq_some_iff.mpr ⟨h, rfl⟩] at hcut
  exact (Option.some.inj hcut).symm

theorem IsRecord.matches (h : IsRecord P record) : MatchesOccupancy P record := by
  obtain ⟨-, hsize⟩ := h.clean []
  rw [List.append_nil] at hsize
  refine ⟨?_, hsize.symm⟩
  rw [← hsize]
  exact Nat.le_add_right _ _

end Cut

/-! ## Files with nothing extracted -/

namespace File

variable {ι : Type*} [DecidableEq ι] {P : Puzzle} {file : File ι P} {l : List (ι × Element P)} {p : ι × Element P}
  {cap : Nat}

omit [DecidableEq ι] in
/-- With nothing extracted, every scroll is settled. -/
theorem settled_scroll (l : List (ι × Element P)) (cap : Nat) :
    (⟨l, []⟩ : FileShelf ι P).Settled (.scroll cap) ∧ (⟨l, []⟩ : FileShelf ι P).Settled (.scrollFifo cap) :=
  ⟨fun _ _ _ => rfl, fun _ _ _ => rfl⟩

theorem Holds.scrollFifo_cons (h : file.Holds ⟨p :: l, []⟩) (hcap : p.2.len ≤ cap) :
    ∃ file', file.scrollFifoSized cap = (file', some p.2) ∧ file'.Holds ⟨l, []⟩ := by
  obtain ⟨hholds, hanswer⟩ := h.scrollFifo (settled_scroll _ cap).2
  have hshelf : (⟨p :: l, []⟩ : FileShelf ι P).scrollFifo cap = (⟨l, []⟩, .value p.2) := if_pos hcap
  rw [hshelf] at hholds hanswer
  cases hrun : file.scrollFifoSized cap with
  | mk file' payload =>
    rw [hrun] at hholds hanswer
    cases payload with
    | none => cases hanswer
    | some payload =>
      cases hanswer
      exact ⟨file', rfl, hholds⟩

theorem Holds.scrollFifo_refused (h : file.Holds ⟨l, []⟩) (hl : ∀ p l', l = p :: l' → cap < p.2.len) :
    (file.scrollFifoSized cap).2 = none := by
  obtain ⟨-, hanswer⟩ := h.scrollFifo (settled_scroll _ cap).2
  have hshelf : ((⟨l, []⟩ : FileShelf ι P).scrollFifo cap).2 = .refused := by
    cases l with
    | nil => rfl
    | cons p l => exact congrArg Prod.snd (if_neg (Nat.not_le.mpr (hl p l rfl)))
  rw [hshelf] at hanswer
  cases hrun : (file.scrollFifoSized cap).2 with
  | none => rfl
  | some payload =>
    rw [hrun] at hanswer
    cases hanswer

theorem Holds.scroll_concat (h : file.Holds ⟨l ++ [p], []⟩) (hcap : p.2.len ≤ cap) :
    (file.scrollSized cap).1.Holds ⟨l, []⟩ := by
  obtain ⟨hholds, -⟩ := h.scroll (settled_scroll _ cap).1
  have hshelf : (⟨l ++ [p], []⟩ : FileShelf ι P).scroll cap = (⟨l, []⟩, .value p.2) := by
    unfold FileShelf.scroll
    dsimp only
    rw [List.getLast?_concat, List.dropLast_concat]
    exact if_pos hcap
  rwa [hshelf] at hholds

theorem Holds.scroll_refused (h : file.Holds ⟨l ++ [p], []⟩) (hcap : cap < p.2.len) :
    (file.scrollSized cap).1.Holds ⟨l ++ [p], []⟩ := by
  obtain ⟨hholds, -⟩ := h.scroll (settled_scroll _ cap).1
  have hshelf : (⟨l ++ [p], []⟩ : FileShelf ι P).scroll cap = (⟨l ++ [p], []⟩, .refused) := by
    unfold FileShelf.scroll
    dsimp only
    rw [List.getLast?_concat]
    exact if_neg (Nat.not_le.mpr hcap)
  rwa [hshelf] at hholds

theorem Holds.put_some (h : file.Holds ⟨l, []⟩) (value : Element P) {a : ι} (ha : a ∉ l.map Prod.fst)
    (hlen : 0 < value.len ∧ value.len ≤ 65535) :
    ∃ file', file.putSized value (some a) = (file', true) ∧ file'.Holds ⟨l ++ [(a, value)], []⟩ := by
  have haddress : ∀ b, some a = some b → b ∉ (⟨l, []⟩ : FileShelf ι P).addresses := by
    rintro b hb
    obtain rfl := Option.some.inj hb
    rwa [FileShelf.addresses, FileShelf.payloads, List.append_nil]
  obtain ⟨hholds, hanswer⟩ := h.put value haddress
  have hshelf : (⟨l, []⟩ : FileShelf ι P).put value (some a) = (⟨l ++ [(a, value)], []⟩, .done) := if_pos hlen
  rw [hshelf] at hholds hanswer
  cases hrun : file.putSized value (some a) with
  | mk file' put =>
    rw [hrun] at hholds hanswer
    cases put with
    | false => cases hanswer
    | true => exact ⟨file', rfl, hholds⟩

end File

/-! ## Draining -/

/-- What is drained is the longest beginning of the list within both limits. -/
theorem drainHead_longest (max cap : Nat) (file : PoolFile) :
    ∃ k, drainHead max cap file = (file.take k, file.drop k) ∧
      IsGreatest {j | j ≤ max ∧ j ≤ file.length ∧ (file.take j).flatten.length ≤ cap} k := by
  induction max generalizing cap file with
  | zero =>
    refine ⟨0, ?_, ⟨Nat.le_refl 0, Nat.zero_le _, by simp⟩, fun j hj => hj.1⟩
    cases file <;> rfl
  | succ max ih =>
    cases file with
    | nil => exact ⟨0, rfl, ⟨Nat.zero_le _, Nat.le_refl 0, by simp⟩, fun j hj => hj.2.1⟩
    | cons record file =>
      rw [drainHead]
      by_cases hcap : record.length > cap
      · rw [if_pos hcap]
        refine ⟨0, rfl, ⟨Nat.zero_le _, Nat.zero_le _, by simp⟩, fun j hj => ?_⟩
        cases j with
        | zero => exact Nat.le_refl 0
        | succ j =>
          have hlen := hj.2.2
          rw [List.take_succ_cons, List.flatten_cons, List.length_append] at hlen
          omega
      · rw [if_neg hcap]
        obtain ⟨k, heq, ⟨hmax, hlength, hfits⟩, hgreatest⟩ := ih (cap - record.length) file
        rw [heq]
        refine ⟨k + 1, rfl, ⟨Nat.succ_le_succ hmax, Nat.succ_le_succ hlength, ?_⟩, fun j hj => ?_⟩
        · rw [List.take_succ_cons, List.flatten_cons, List.length_append]
          omega
        · cases j with
          | zero => exact Nat.zero_le _
          | succ j =>
            obtain ⟨hj₁, hj₂, hj₃⟩ := hj
            rw [List.take_succ_cons, List.flatten_cons, List.length_append] at hj₃
            refine Nat.succ_le_succ (hgreatest ⟨Nat.le_of_succ_le_succ hj₁, Nat.le_of_succ_le_succ hj₂, ?_⟩)
            omega

section Drain

variable {ι : Type*} [DecidableEq ι] {P : Puzzle} {file : File ι P} {l : List (ι × Element P)}
  {records : List (List Byte)}

/-- The loop over a file drains what the loop over its records does. -/
theorem File.drainLoop_spec (n cap : Nat) (h : file.Holds ⟨l, []⟩) (hl : l.map Prod.snd = records.map Element.compact) :
    (File.drainLoop n file cap).2 = (drainHead n cap records).1 ∧
      (File.drainLoop n file cap).1.Holds ⟨l.drop (drainHead n cap records).1.length, []⟩ := by
  induction n generalizing file l records cap with
  | zero =>
    cases records with
    | nil => exact ⟨rfl, h⟩
    | cons record records => exact ⟨rfl, h⟩
  | succ n ih =>
    have hrefused : (∀ p l', l = p :: l' → cap < p.2.len) → File.drainLoop (n + 1) file cap = (file, []) := by
      intro hlong
      have hnone := h.scrollFifo_refused hlong
      rw [File.drainLoop]
      cases hrun : file.scrollFifoSized cap with
      | mk file' payload =>
        rw [hrun] at hnone
        obtain rfl : payload = none := hnone
        rfl
    cases records with
    | nil =>
      obtain rfl : l = [] := List.map_eq_nil_iff.mp hl
      rw [hrefused (by simp)]
      exact ⟨rfl, h⟩
    | cons record records =>
      obtain ⟨p, l, rfl⟩ : ∃ p l', l = p :: l' := by
        cases l with
        | nil => simp at hl
        | cons p l => exact ⟨p, l, rfl⟩
      rw [List.map_cons, List.map_cons, List.cons.injEq] at hl
      have hlen : p.2.len = record.length := by rw [hl.1]; rfl
      rw [drainHead]
      by_cases hcap : record.length > cap
      · rw [if_pos hcap, hrefused (by simpa [hlen] using hcap)]
        exact ⟨rfl, h⟩
      · rw [if_neg hcap]
        obtain ⟨file', hrun, hholds⟩ := h.scrollFifo_cons (show p.2.len ≤ cap by omega)
        obtain ⟨hrecords, hrest⟩ := ih (cap - record.length) hholds hl.2
        rw [File.drainLoop, hrun]
        dsimp only
        rw [hlen, hrecords, hl.1]
        exact ⟨rfl, hrest⟩

end Drain

/-! ## Refilling -/

section Refill

variable {ι : Type*} {P : Puzzle}

/-- What `malloc` gives is free, and given once. -/
structure FreshFor (memory : Nat → Option ι) (used : List ι) : Prop where
  free : ∀ i a, memory i = some a → a ∉ used
  once : ∀ i j a, memory i = some a → memory j = some a → i = j

/-- How many of the first allocations succeed, up to the first one that fails. -/
def granted : Nat → (Nat → Option ι) → Nat
  | 0, _ => 0
  | n + 1, memory => if (memory 0).isSome then granted n (fun i => memory (i + 1)) + 1 else 0

theorem granted_le (n : Nat) (memory : Nat → Option ι) : granted n memory ≤ n := by
  induction n generalizing memory with
  | zero => exact Nat.le_refl 0
  | succ n ih =>
    rw [granted]
    split
    · exact Nat.succ_le_succ (ih _)
    · exact Nat.zero_le _

theorem granted_eq {n : Nat} {memory : Nat → Option ι} (h : ∀ i, (memory i).isSome) : granted n memory = n := by
  induction n generalizing memory with
  | zero => rfl
  | succ n ih => rw [granted, if_pos (h 0), ih fun i => h (i + 1)]

/-- What is granted of some allocations is granted of the first ones. -/
theorem granted_of_le {m n : Nat} {memory : Nat → Option ι} (h : granted n memory = n) (hle : m ≤ n) :
    granted m memory = m := by
  induction m generalizing n memory with
  | zero => rfl
  | succ m ih =>
    obtain ⟨n, rfl⟩ := Nat.exists_eq_add_of_le' hle
    rw [← Nat.add_assoc, granted] at h
    split at h
    · rename_i hsome
      rw [granted, if_pos hsome, ih (Nat.succ.inj h) (Nat.le_add_left m n)]
    · exact absurd h (by omega)

theorem FreshFor.shift {memory : Nat → Option ι} {used : List ι} {a : ι} (h : FreshFor memory used)
    (ha : memory 0 = some a) : FreshFor (fun i => memory (i + 1)) (used ++ [a]) := by
  refine ⟨fun i b hb hmem => ?_, fun i j b hi hj => Nat.succ.inj (h.once _ _ b hi hj)⟩
  rcases List.mem_append.mp hmem with hmem | hmem
  · exact h.free _ b hb hmem
  · rw [List.mem_singleton.mp hmem] at hb
    exact absurd (h.once _ _ a hb ha) (Nat.succ_ne_zero i)

/-- A record may be stored. -/
theorem MatchesOccupancy.length_le {record : List Byte} (h : MatchesOccupancy P record) : record.length ≤ 65535 := by
  have hle := announced_le (P := P) record
  have hbits := Nat.mul_le_mul hle (packetCodecValueBits_le P)
  have hbitmap : packetCodecBitmapBytes P ≤ 32 := by cases P <;> decide
  rw [h.length, packetCodecSizeFor, packetCodecHeaderBytes, packetCodecValueBytes]
  omega

/-- A record does not fit the buffer of the undo exactly when it marks more cells than the board has. -/
theorem MatchesOccupancy.max_lt_iff {record : List Byte} (h : MatchesOccupancy P record) :
    packetCodecMaxBytes P < record.length ↔ P.eternParts < announced P record := by
  have hnext : packetCodecValueBytes P P.eternParts < packetCodecValueBytes P (P.eternParts + 1) := by
    cases P <;> decide
  rw [h.length, packetCodecSizeFor, packetCodecMaxBytes, Nat.add_lt_add_iff_left]
  constructor
  · intro hlt
    refine Nat.lt_of_not_le fun hle => ?_
    exact absurd (packetCodecValueBytes_mono P hle) (Nat.not_le.mpr hlt)
  · intro hlt
    exact Nat.lt_of_lt_of_le hnext (packetCodecValueBytes_mono P hlt)

variable [DecidableEq ι] {file : File ι P} {l added : List (ι × Element P)} {records : List (List Byte)}
  {memory : Nat → Option ι}

/-- The second loop inserts the records, one after the other, until memory runs out. -/
theorem File.refillLoop_spec (h : file.Holds ⟨l, []⟩) (hrecords : ∀ r ∈ records, MatchesOccupancy P r)
    (hfresh : FreshFor memory (l.map Prod.fst)) :
    (File.refillLoop records.length records.flatten memory file).2 = granted records.length memory ∧
      ∃ added, added.map Prod.snd = (records.take (granted records.length memory)).map Element.compact ∧
        (File.refillLoop records.length records.flatten memory file).1.Holds ⟨l ++ added, []⟩ := by
  induction records generalizing file l memory with
  | nil => exact ⟨rfl, [], rfl, by rwa [List.append_nil]⟩
  | cons record records ih =>
    rw [List.forall_mem_cons] at hrecords
    have htake : (record ++ records.flatten).take (refillLen P (record ++ records.flatten)) = record := by
      rw [hrecords.1.refillLen_append, List.take_left]
    have hdrop : (record ++ records.flatten).drop (refillLen P (record ++ records.flatten)) = records.flatten := by
      rw [hrecords.1.refillLen_append, List.drop_left]
    rw [List.length_cons, List.flatten_cons, File.refillLoop, htake, hdrop, granted]
    cases hmemory : memory 0 with
    | none => exact ⟨rfl, [], rfl, by rw [List.append_nil]; exact h⟩
    | some a =>
      obtain ⟨file', hrun, hholds⟩ := h.put_some (.compact record) (hfresh.free 0 a hmemory)
        ⟨hrecords.1.length_pos, hrecords.1.length_le⟩
      have hshift := hfresh.shift hmemory
      have haddresses : (l ++ [(a, Element.compact (P := P) record)]).map Prod.fst = l.map Prod.fst ++ [a] := by simp
      rw [← haddresses] at hshift
      obtain ⟨hcount, added, hadded, hfile⟩ := ih hholds hrecords.2 hshift
      rw [hrun, Option.isSome_some, if_pos rfl]
      refine ⟨congrArg (· + 1) hcount, (a, .compact record) :: added, ?_, ?_⟩
      · rw [List.map_cons, List.take_succ_cons, List.map_cons, hadded]
      · rw [← List.singleton_append, ← List.append_assoc]
        exact hfile

/-- A tail that does not fit the buffer stays where it is. -/
theorem File.undoLoop_refused {p : ι × Element P} (n : Nat) (h : file.Holds ⟨l ++ [p], []⟩)
    (hlong : packetCodecMaxBytes P < p.2.len) : (file.undoLoop n).Holds ⟨l ++ [p], []⟩ := by
  induction n generalizing file with
  | zero => exact h
  | succ n ih => exact ih (h.scroll_refused hlong)

/-- The third loop pops what was inserted, down to the last record that does not fit the buffer. -/
theorem File.undoLoop_spec (h : file.Holds ⟨l ++ added, []⟩) :
    (file.undoLoop added.length).Holds ⟨l ++ added.rdropWhile fun p => p.2.len ≤ packetCodecMaxBytes P, []⟩ := by
  induction added using List.reverseRecOn generalizing file with
  | nil => exact h
  | append_singleton added p ih =>
    rw [← List.append_assoc] at h
    rw [List.length_append, List.length_singleton, List.rdropWhile_concat]
    by_cases hfits : p.2.len ≤ packetCodecMaxBytes P
    · rw [if_pos (decide_eq_true hfits)]
      exact ih (h.scroll_concat hfits)
    · rw [if_neg (by simpa using hfits), ← List.append_assoc]
      exact File.undoLoop_refused _ h (Nat.lt_of_not_le hfits)

end Refill

/-! ## All or nothing -/

section AllOrNothing

variable {ι : Type*} {P : Puzzle}

/-- A refill of a file that held `l` inserts every record of the bytes, or leaves the file as it was;
the return value says which. -/
def WholeRefill (isChecked : Bool) (f : Nat) (l : List (ι × Element P)) (raw : List Byte) (r : FileSlots ι P × Int) : Prop :=
  (∃ (records : List (List Byte)) (added : List (ι × Element P)), (∀ rec ∈ records, MatchesOccupancy P rec) ∧
      records.flatten = raw ∧ r.2 = records.length ∧ added.map Prod.snd = records.map Element.compact ∧
      (r.1.slot isChecked f).file.Holds ⟨l ++ added, []⟩) ∨
    r.2 ≤ 0 ∧ (r.1.slot isChecked f).file.Holds ⟨l, []⟩

/-- Memory runs out behind a record that marks more cells than the board has. -/
def UndoBlocked (P : Puzzle) (raw : List Byte) (memory : Nat → Option ι) : Prop :=
  ∃ records : List (List Byte), (∀ r ∈ records, MatchesOccupancy P r) ∧ records.flatten = raw ∧
    granted records.length memory < records.length ∧
    ∃ r ∈ records.take (granted records.length memory), P.eternParts < announced P r

variable [DecidableEq ι] {s : FileSlots ι P} {isChecked : Bool} {fileIndex : Int} {l : List (ι × Element P)}
  {raw : List Byte} {free : Bool} {memory : Nat → Option ι} {records : List (List Byte)}

omit [DecidableEq ι] in
theorem UndoBlocked.ne_nil (h : UndoBlocked P raw memory) : raw ≠ [] := by
  obtain ⟨records, hrecords, rfl, hlt, -⟩ := h
  exact flatten_ne_nil hrecords (List.ne_nil_of_length_pos (Nat.zero_lt_of_lt hlt))

theorem refused_le_zero : (-1 : Int) ≤ 0 := by decide

/-- The calls that do not come to the insertion change nothing. -/
theorem poolRefillCompact_idle (s : FileSlots ι P) (isChecked : Bool) (memory : Nat → Option ι)
    (h : ¬ s.HasFile fileIndex ∨ raw = [] ∨ tierRecords P raw = none ∨ free = false) :
    (s.poolRefillCompact isChecked fileIndex (some raw) free memory).1 = s ∧
      (s.poolRefillCompact isChecked fileIndex (some raw) free memory).2 ≤ 0 := by
  unfold FileSlots.poolRefillCompact
  dsimp only
  split
  · exact ⟨rfl, refused_le_zero⟩
  · rename_i hvalid
    rw [not_or, not_not, List.length_eq_zero_iff] at hvalid
    rw [refillCount_eq]
    rcases h with h | h | h | h
    · exact absurd hvalid.1 h
    · exact absurd h hvalid.2
    · have hnone : tierRecordsLoop P raw.length raw = none := h
      rw [hnone]
      exact ⟨rfl, refused_le_zero⟩
    · cases tierRecordsLoop P raw.length raw with
      | none => exact ⟨rfl, refused_le_zero⟩
      | some records =>
        rw [h]
        exact ⟨rfl, Int.le_refl 0⟩

/-- The calls that come to the insertion of some records. -/
theorem poolRefillCompact_inserts (hfile : s.HasFile fileIndex) (hraw : raw ≠ [])
    (hcut : tierRecords P raw = some records) :
    s.poolRefillCompact isChecked fileIndex (some raw) true memory =
      let slot := s.slot isChecked fileIndex.toNat
      let r := slot.file.refillLoop records.length raw memory
      if r.2 < records.length then (s.set isChecked fileIndex.toNat { slot with file := r.1.undoLoop r.2 }, -1)
      else (s.set isChecked fileIndex.toNat ⟨r.1, .unknown⟩, (records.length : Int)) := by
  have hcount : refillCount P raw.length raw = some records.length := by
    rw [refillCount_eq]
    exact congrArg (Option.map List.length) hcut
  unfold FileSlots.poolRefillCompact
  dsimp only
  rw [if_neg (by simpa [hfile] using hraw), hcount]
  rfl

/-- A refill whose memory does not run out inserts every record. -/
theorem poolRefillCompact_all (hfile : s.HasFile fileIndex)
    (h : (s.slot isChecked fileIndex.toNat).file.Holds ⟨l, []⟩) (hfresh : FreshFor memory (l.map Prod.fst))
    (hrecords : ∀ r ∈ records, MatchesOccupancy P r) (hne : records ≠ [])
    (hgranted : granted records.length memory = records.length) :
    (s.poolRefillCompact isChecked fileIndex (some records.flatten) true memory).2 = records.length ∧
      ∃ added, added.map Prod.snd = records.map Element.compact ∧
        ((s.poolRefillCompact isChecked fileIndex (some records.flatten) true memory).1.slot isChecked
          fileIndex.toNat).file.Holds ⟨l ++ added, []⟩ := by
  have hcut := tierRecords_eq_some_iff.mpr ⟨hrecords, rfl⟩
  have hraw := flatten_ne_nil hrecords hne
  obtain ⟨hcount, added, hadded, hholds⟩ := File.refillLoop_spec h hrecords hfresh
  rw [poolRefillCompact_inserts hfile hraw hcut]
  dsimp only
  rw [hgranted] at hcount hadded
  rw [hcount, if_neg (Nat.lt_irrefl _)]
  rw [List.take_length] at hadded
  refine ⟨rfl, added, hadded, ?_⟩
  rw [FileSlots.set_slot_self]
  exact hholds

/-- What a refill leaves when memory runs out: the records down to the last one that is too long for
the undo. -/
theorem poolRefillCompact_undone (hfile : s.HasFile fileIndex)
    (h : (s.slot isChecked fileIndex.toNat).file.Holds ⟨l, []⟩) (hfresh : FreshFor memory (l.map Prod.fst))
    (hrecords : ∀ r ∈ records, MatchesOccupancy P r) (hlt : granted records.length memory < records.length) :
    (s.poolRefillCompact isChecked fileIndex (some records.flatten) true memory).2 = -1 ∧
      ∃ kept, ((s.poolRefillCompact isChecked fileIndex (some records.flatten) true memory).1.slot isChecked
          fileIndex.toNat).file.Holds ⟨l ++ kept, []⟩ ∧
        (kept = [] ↔ ∀ r ∈ records.take (granted records.length memory), ¬ P.eternParts < announced P r) := by
  have hcut := tierRecords_eq_some_iff.mpr ⟨hrecords, rfl⟩
  have hraw := flatten_ne_nil hrecords (List.ne_nil_of_length_pos (Nat.zero_lt_of_lt hlt))
  obtain ⟨hcount, added, hadded, hholds⟩ := File.refillLoop_spec h hrecords hfresh
  have hlength : added.length = granted records.length memory := by
    have hlen := congrArg List.length hadded
    rwa [List.length_map, List.length_map, List.length_take, Nat.min_eq_left (Nat.le_of_lt hlt)] at hlen
  rw [poolRefillCompact_inserts hfile hraw hcut]
  dsimp only
  rw [hcount, if_pos hlt, ← hlength]
  refine ⟨rfl, added.rdropWhile fun p => p.2.len ≤ packetCodecMaxBytes P, ?_, ?_⟩
  · rw [FileSlots.set_slot_self]
    exact File.undoLoop_spec hholds
  · rw [← hlength] at hadded
    rw [List.rdropWhile_eq_nil_iff]
    constructor
    · intro hall r hr
      have hmem : Element.compact r ∈ added.map Prod.snd := by
        rw [hadded]
        exact List.mem_map_of_mem hr
      obtain ⟨p, hp, hpr⟩ := List.mem_map.mp hmem
      have hfits := of_decide_eq_true (hall p hp)
      rw [hpr] at hfits
      rw [← (hrecords r (List.mem_of_mem_take hr)).max_lt_iff]
      exact Nat.not_lt.mpr hfits
    · intro hall p hp
      have hmem : p.2 ∈ (records.take added.length).map Element.compact := by
        rw [← hadded]
        exact List.mem_map_of_mem hp
      obtain ⟨r, hr, hpr⟩ := List.mem_map.mp hmem
      have hfits := hall r hr
      rw [← (hrecords r (List.mem_of_mem_take hr)).max_lt_iff] at hfits
      rw [← hpr]
      exact decide_eq_true (Nat.not_lt.mp hfits)

/-- A refill is all or nothing unless its undo is blocked. -/
theorem wholeRefill_iff (h : (s.slot isChecked fileIndex.toNat).file.Holds ⟨l, []⟩)
    (hfresh : FreshFor memory (l.map Prod.fst)) :
    WholeRefill isChecked fileIndex.toNat l raw (s.poolRefillCompact isChecked fileIndex (some raw) free memory) ↔
      ¬ (s.HasFile fileIndex ∧ free = true ∧ UndoBlocked P raw memory) := by
  by_cases hidle : ¬ s.HasFile fileIndex ∨ raw = [] ∨ tierRecords P raw = none ∨ free = false
  · obtain ⟨hsame, hle⟩ := poolRefillCompact_idle s isChecked memory hidle
    refine iff_of_true (.inr ⟨hle, by rw [hsame]; exact h⟩) ?_
    rintro ⟨hfile, hfree, hblocked⟩
    rcases hidle with hnot | hnil | hnone | hbusy
    · exact hnot hfile
    · exact hblocked.ne_nil hnil
    · obtain ⟨records, hrecords, hflatten, -⟩ := hblocked
      rw [tierRecords_eq_some_iff.mpr ⟨hrecords, hflatten⟩] at hnone
      exact absurd hnone (by simp)
    · rw [hfree] at hbusy
      exact absurd hbusy (by decide)
  · simp only [not_or, not_not, Bool.not_eq_false] at hidle
    obtain ⟨hfile, hraw, hcut, rfl⟩ := hidle
    obtain ⟨records, hcut⟩ := Option.ne_none_iff_exists'.mp hcut
    obtain ⟨hrecords, rfl⟩ := tierRecords_eq_some_iff.mp hcut
    have hne : records ≠ [] := fun hnil => hraw (by rw [hnil]; rfl)
    rcases Nat.lt_or_ge (granted records.length memory) records.length with hlt | hge
    · obtain ⟨hvalue, kept, hholds, hkept⟩ := poolRefillCompact_undone hfile h hfresh hrecords hlt
      constructor
      · rintro (⟨records', added, -, -, hlength, -⟩ | ⟨-, hsame⟩) ⟨-, -, records', hrecords', hflatten, -, r, hr, hlong⟩
        · rw [hvalue] at hlength
          omega
        · have hnil : kept = [] := by
            have hsize := hsame.size.symm.trans hholds.size
            simpa [FileShelf.payloads] using hsize
          obtain rfl : records' = records := matches_unique hrecords hrecords' hflatten
          exact hkept.mp hnil r hr hlong
      · intro hfits
        refine .inr ⟨by rw [hvalue]; exact refused_le_zero, ?_⟩
        have hnil : kept = [] := hkept.mpr fun r hr hlong => hfits ⟨hfile, rfl, records, hrecords, rfl, hlt, r, hr, hlong⟩
        rwa [hnil, List.append_nil] at hholds
    · have hgranted := Nat.le_antisymm (granted_le _ _) hge
      obtain ⟨hvalue, added, hadded, hholds⟩ := poolRefillCompact_all hfile h hfresh hrecords hne hgranted
      refine iff_of_true (.inl ⟨records, added, hrecords, rfl, hvalue, hadded, hholds⟩) ?_
      rintro ⟨-, -, records', hrecords', hflatten, hlt, -⟩
      obtain rfl : records' = records := matches_unique hrecords hrecords' hflatten
      omega

/-- A drain takes the longest beginning of the records within both limits, and writes their bytes. -/
theorem poolDrainHeadCompact_takes (cap : Nat) (maxRecords : Int)
    (h : (s.slot isChecked fileIndex.toNat).file.Holds ⟨l, []⟩) (hl : l.map Prod.snd = records.map Element.compact)
    (hfile : s.HasFile fileIndex) :
    ∃ k, IsGreatest {j | j ≤ maxRecords.toNat ∧ j ≤ records.length ∧ (records.take j).flatten.length ≤ cap} k ∧
      (s.poolDrainHeadCompact isChecked fileIndex true cap maxRecords true).2 = ((k : Int), (records.take k).flatten) ∧
      ((s.poolDrainHeadCompact isChecked fileIndex true cap maxRecords true).1.slot isChecked fileIndex.toNat).file.Holds
        ⟨l.drop k, []⟩ := by
  obtain ⟨k, hdrained, hk⟩ := drainHead_longest maxRecords.toNat cap records
  obtain ⟨hrecords, hrest⟩ := File.drainLoop_spec maxRecords.toNat cap h hl
  have htaken : (records.take k).length = k := by rw [List.length_take, Nat.min_eq_left hk.1.2.1]
  rw [hdrained] at hrecords hrest
  dsimp only at hrecords hrest
  rw [htaken] at hrest
  unfold FileSlots.poolDrainHeadCompact
  rw [if_neg (by simpa using hfile), if_neg (by decide)]
  dsimp only
  rw [hrecords, htaken, FileSlots.set_slot_self]
  exact ⟨k, hk, rfl, hrest⟩

/-- A refill that memory does not stop accepts the bytes that are records side by side. -/
theorem poolRefillCompact_pos_iff (h : (s.slot isChecked fileIndex.toNat).file.Holds ⟨l, []⟩)
    (hfresh : FreshFor memory (l.map Prod.fst)) (hmemory : granted raw.length memory = raw.length)
    (hfile : s.HasFile fileIndex) :
    0 < (s.poolRefillCompact isChecked fileIndex (some raw) true memory).2 ↔
      ∃ records : List (List Byte), records ≠ [] ∧ (∀ r ∈ records, MatchesOccupancy P r) ∧ records.flatten = raw := by
  constructor
  · intro hpos
    have hraw : raw ≠ [] := fun hnil => by
      have hidle : (s.poolRefillCompact isChecked fileIndex (some raw) true memory).2 ≤ 0 :=
        (poolRefillCompact_idle s isChecked memory (.inr (.inl hnil))).2
      omega
    cases hcut : tierRecords P raw with
    | none =>
      have hidle : (s.poolRefillCompact isChecked fileIndex (some raw) true memory).2 ≤ 0 :=
        (poolRefillCompact_idle s isChecked memory (.inr (.inr (.inl hcut)))).2
      omega
    | some records =>
      obtain ⟨hrecords, hflatten⟩ := tierRecords_eq_some_iff.mp hcut
      refine ⟨records, fun hnil => hraw ?_, hrecords, hflatten⟩
      rw [← hflatten, hnil]
      rfl
  · rintro ⟨records, hne, hrecords, rfl⟩
    have hcount : records.length ≤ records.flatten.length := count_le_flatten hrecords
    obtain ⟨hvalue, -⟩ := poolRefillCompact_all hfile h hfresh hrecords hne (granted_of_le hmemory hcount)
    rw [hvalue]
    exact_mod_cast List.length_pos_of_ne_nil hne

/-- A drain takes the longest beginning of a file of records within both limits; its bytes, refilled
into any file, put the same records behind. A refill accepts the records whose lengths match their
bitmaps, side by side, and takes all of them or none, unless memory runs out behind one that marks
more cells than the board has: the undo cannot pop that one. -/
theorem compactMoves_right (h : (s.slot isChecked fileIndex.toNat).file.Holds ⟨l, []⟩) :
    (∀ (cap : Nat) (maxRecords : Int) (records : List (List Byte)), (∀ r ∈ records, IsRecord P r) →
        l.map Prod.snd = records.map Element.compact → s.HasFile fileIndex →
      ∃ k, IsGreatest {j | j ≤ maxRecords.toNat ∧ j ≤ records.length ∧ (records.take j).flatten.length ≤ cap} k ∧
        (s.poolDrainHeadCompact isChecked fileIndex true cap maxRecords true).2 = ((k : Int), (records.take k).flatten) ∧
        ((s.poolDrainHeadCompact isChecked fileIndex true cap maxRecords true).1.slot isChecked fileIndex.toNat).file.Holds
          ⟨l.drop k, []⟩ ∧
        ∀ (t : FileSlots ι P) (isChecked' : Bool) (fileIndex' : Int) (m : List (ι × Element P)) (memory : Nat → Option ι),
          0 < k → t.HasFile fileIndex' → (t.slot isChecked' fileIndex'.toNat).file.Holds ⟨m, []⟩ →
          FreshFor memory (m.map Prod.fst) → granted k memory = k →
          (t.poolRefillCompact isChecked' fileIndex' (some (records.take k).flatten) true memory).2 = k ∧
            ∃ added, added.map Prod.snd = (records.take k).map Element.compact ∧
              ((t.poolRefillCompact isChecked' fileIndex' (some (records.take k).flatten) true memory).1.slot isChecked'
                fileIndex'.toNat).file.Holds ⟨m ++ added, []⟩) ∧
      (∀ (raw : List Byte) (memory : Nat → Option ι), FreshFor memory (l.map Prod.fst) →
          granted raw.length memory = raw.length → s.HasFile fileIndex →
        (0 < (s.poolRefillCompact isChecked fileIndex (some raw) true memory).2 ↔
          ∃ records : List (List Byte), records ≠ [] ∧ (∀ r ∈ records, MatchesOccupancy P r) ∧ records.flatten = raw)) ∧
      (∀ (raw : List Byte) (free : Bool) (memory : Nat → Option ι), FreshFor memory (l.map Prod.fst) →
        (WholeRefill isChecked fileIndex.toNat l raw (s.poolRefillCompact isChecked fileIndex (some raw) free memory) ↔
          ¬ (s.HasFile fileIndex ∧ free = true ∧ UndoBlocked P raw memory))) ∧
      ∀ b f, ¬ (b = isChecked ∧ f = fileIndex.toNat) →
        (∀ buf cap maxRecords free,
          (s.poolDrainHeadCompact isChecked fileIndex buf cap maxRecords free).1.slot b f = s.slot b f) ∧
        ∀ raw free memory, (s.poolRefillCompact isChecked fileIndex raw free memory).1.slot b f = s.slot b f := by
  refine ⟨fun cap maxRecords records hrecords hl hfile => ?_, fun raw memory hfresh hmemory hfile => ?_,
    fun raw free memory hfresh => wholeRefill_iff h hfresh,
    fun b f hne => ⟨s.poolDrainHeadCompact_others hne, s.poolRefillCompact_others hne⟩⟩
  · obtain ⟨k, hk, hvalue, hrest⟩ := poolDrainHeadCompact_takes cap maxRecords h hl hfile
    refine ⟨k, hk, hvalue, hrest, fun t isChecked' fileIndex' m memory hpos hfile' hm hfresh hgranted => ?_⟩
    have htaken : (records.take k).length = k := by rw [List.length_take, Nat.min_eq_left hk.1.2.1]
    have hne : records.take k ≠ [] := List.ne_nil_of_length_pos (by rw [htaken]; exact hpos)
    have hmatches : ∀ r ∈ records.take k, MatchesOccupancy P r := fun r hr =>
      (hrecords r (List.mem_of_mem_take hr)).matches
    have hrefill := poolRefillCompact_all hfile' hm hfresh hmatches hne (by rw [htaken]; exact hgranted)
    rwa [htaken] at hrefill
  · exact poolRefillCompact_pos_iff h hfresh hmemory hfile

end AllOrNothing

/-- One file in each pool, with nothing in the second one. -/
def oneFile (file : File Nat P) : FileSlots Nat P where
  nbFilePossibility := 1
  slot isChecked _ := ⟨if isChecked then File.init fun _ => .compact [] else file, .unknown⟩

/-- Two records of an empty board. -/
def blankRecords : List (List Byte) := [List.replicate 8 0#8, 1#8 :: List.replicate 7 0#8]

/-- A file with the two records. -/
def blankFile : File Nat .p16 :=
  (((File.init fun _ => .compact []).putSized (.compact (List.replicate 8 0#8)) (some 0)).1.putSized
    (.compact (1#8 :: List.replicate 7 0#8)) (some 1)).1

theorem blankFile_holds :
    blankFile.Holds ⟨[(0, .compact (List.replicate 8 0#8)), (1, .compact (1#8 :: List.replicate 7 0#8))], []⟩ := by
  obtain ⟨first, hfirst, hone⟩ := (File.init_holds fun _ : Nat => (.compact [] : Element .p16)).put_some
    (.compact (List.replicate 8 0#8)) (show 0 ∉ ([] : List (Nat × Element .p16)).map Prod.fst from List.not_mem_nil)
    (by decide)
  obtain ⟨second, hsecond, htwo⟩ := hone.put_some (.compact (1#8 :: List.replicate 7 0#8)) (by decide : 1 ∉ _) (by decide)
  unfold blankFile
  rw [hfirst, hsecond]
  exact htwo

theorem blankRecords_isRecord : ∀ r ∈ blankRecords, IsRecord .p16 r := by
  have hfirst : IsRecord .p16 (List.replicate 8 0#8) := ⟨⟨0, 0, fun _ => -2, 0, 0, Words.zero, 0⟩, by decide +kernel⟩
  have hsecond : IsRecord .p16 (1#8 :: List.replicate 7 0#8) := ⟨⟨1, 0, fun _ => -2, 0, 0, Words.zero, 0⟩, by decide +kernel⟩
  intro r hr
  rcases List.mem_cons.mp hr with rfl | hr
  · exact hfirst
  · rw [List.mem_singleton.mp hr]
    exact hsecond

theorem freshFor_add (used : List Nat) (n : Nat) (hused : ∀ a ∈ used, a < n) : FreshFor (fun i => some (n + i)) used := by
  refine ⟨fun i a ha hmem => ?_, fun i j a hi hj => ?_⟩
  · have hlt := hused a hmem
    have ha := Option.some.inj ha
    omega
  · have hi := Option.some.inj hi
    have hj := Option.some.inj hj
    omega

/-- Two records are drained and refilled into another file; a refill that gets memory for one of them
only puts nothing. -/
theorem compactMoves_right_two :
    ((oneFile blankFile).poolDrainHeadCompact false 0 true 16 5 true).2 = (2, blankRecords.flatten) ∧
      ((oneFile blankFile).poolRefillCompact true 0 (some blankRecords.flatten) true fun i => some (7 + i)).2 = 2 ∧
      0 < ((oneFile blankFile).poolRefillCompact false 0 (some blankRecords.flatten) true fun i => some (7 + i)).2 ∧
      WholeRefill false 0 [(0, .compact (List.replicate 8 0#8)), (1, .compact (1#8 :: List.replicate 7 0#8))]
        blankRecords.flatten ((oneFile blankFile).poolRefillCompact false 0 (some blankRecords.flatten) true
          fun i => if i = 0 then some 7 else none) := by
  have hfile : (oneFile blankFile).HasFile 0 := by decide
  have hmatches : ∀ r ∈ blankRecords, MatchesOccupancy .p16 r := fun r hr => (blankRecords_isRecord r hr).matches
  have hfresh := freshFor_add [0, 1] 7 (by decide)
  have hholds : ((oneFile blankFile).slot false (0 : Int).toNat).file.Holds
      ⟨[(0, .compact (List.replicate 8 0#8)), (1, .compact (1#8 :: List.replicate 7 0#8))], []⟩ := blankFile_holds
  obtain ⟨hdrain, haccept, hall, -⟩ := compactMoves_right hholds
  obtain ⟨k, hk, hvalue, -, hrefill⟩ := hdrain 16 5 blankRecords blankRecords_isRecord rfl hfile
  obtain rfl : k = 2 := Nat.le_antisymm hk.1.2.1 (hk.2 (by decide))
  refine ⟨hvalue, ?_, ?_, ?_⟩
  · exact (hrefill (oneFile blankFile) true 0 [] (fun i => some (7 + i)) (by decide) hfile (File.init_holds _)
      (freshFor_add [] 7 nofun) (granted_eq fun _ => rfl)).1
  · exact (haccept blankRecords.flatten (fun i => some (7 + i)) hfresh (granted_eq fun _ => rfl) hfile).mpr
      ⟨blankRecords, by decide, hmatches, rfl⟩
  · refine (hall blankRecords.flatten true (fun i => if i = 0 then some 7 else none) ⟨fun i a ha => ?_, fun i j a hi hj => ?_⟩).mpr ?_
    · split at ha
      · rw [← Option.some.inj ha]
        decide
      · exact absurd ha (by simp)
    · split at hi <;> split at hj
      · omega
      all_goals simp_all
    · rintro ⟨-, -, records, hrecords, hflatten, -, r, hr, hlong⟩
      obtain rfl : records = blankRecords := matches_unique hmatches hrecords hflatten
      have hshort : ∀ r ∈ blankRecords, r.length ≤ packetCodecMaxBytes .p16 := by decide
      have hlong := (hmatches r (List.mem_of_mem_take hr)).max_lt_iff.mpr hlong
      exact absurd (hshort r (List.mem_of_mem_take hr)) (Nat.not_le.mpr hlong)

/-- A record of a board of 100 cells whose bitmap marks 104, with a record of an empty board behind. -/
def overMarked : List (List Byte) :=
  [List.replicate 6 0#8 ++ List.replicate 13 255#8 ++ List.replicate 117 0#8, List.replicate 19 0#8]

/-- Memory runs out behind the first record: the refill says it failed, and the file keeps a record. -/
theorem poolRefillCompact_keeps_one :
    ((oneFile (P := .p100) (File.init fun _ => .compact [])).poolRefillCompact false 0 (some overMarked.flatten) true
        fun i => if i = 0 then some 0 else none).2 = -1 ∧
      (((oneFile (P := .p100) (File.init fun _ => .compact [])).poolRefillCompact false 0 (some overMarked.flatten) true
        fun i => if i = 0 then some 0 else none).1.slot false 0).file.size = 1 ∧
      ¬ WholeRefill false 0 [] overMarked.flatten
        ((oneFile (P := .p100) (File.init fun _ => .compact [])).poolRefillCompact false 0 (some overMarked.flatten) true
          fun i => if i = 0 then some 0 else none) := by
  have hvalue : ((oneFile (P := .p100) (File.init fun _ => .compact [])).poolRefillCompact false 0
      (some overMarked.flatten) true fun i => if i = 0 then some 0 else none).2 = -1 := by decide +kernel
  have hsize : (((oneFile (P := .p100) (File.init fun _ => .compact [])).poolRefillCompact false 0
      (some overMarked.flatten) true fun i => if i = 0 then some 0 else none).1.slot false 0).file.size = 1 := by
    decide +kernel
  refine ⟨hvalue, hsize, ?_⟩
  rintro (⟨records, added, -, -, hlength, -⟩ | ⟨-, hempty⟩)
  · rw [hvalue] at hlength
    omega
  · rw [hempty.size] at hsize
    exact absurd hsize (by decide)
