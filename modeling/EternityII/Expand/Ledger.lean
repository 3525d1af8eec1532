-- SUMMARY: What an expansion holds, and what its threads have in hand.
import EternityII.Expand.Pass
import EternityII.Stock.RemoveNoNext

/-!
# What an expansion holds

A packet is in a list, under the border or above it, in the queue, or in the hands of one thread: in a batch,
among the children of a packet, in a block, or on its way into the stock. Each of these stands for the completions
of its board, and the load of the expansion counts how often it covers one.
-/

/-! ## Records and packets -/

section Good

variable {P : Puzzle} (ps : PieceSet P)

/-- A packet with a legal board and the number of its pieces. -/
structure Packet.Good (p : Packet P) : Prop where
  wellFormed : p.WellFormed ps
  alloc : p.alloc.toNat = placedCount p.grid

/-- The record of a packet with a legal board. -/
def GoodRecord (record : List Byte) : Prop := ∃ p : Packet P, p.WellFormed ps ∧ recordOf p = some record

/-- The completions of what is read from a record. -/
def recordCompletions (record : List Byte) : Set (Grid P) :=
  match recordPacket P record with
  | none => ∅
  | some p => p.completions ps

/-- How often some records cover a board. -/
noncomputable def recordLoad (records : List (List Byte)) (b : Grid P) : Nat := Cover.load (recordCompletions ps) records b

/-- How often some packets cover a board. -/
noncomputable def packetLoad (packets : List (Packet P)) (b : Grid P) : Nat := Cover.load (Packet.completions ps) packets b

variable {ps} {record : List Byte} {p : Packet P} {b : Grid P}

/-- What is read from a good record is a good packet, with the same record. -/
theorem GoodRecord.read (h : GoodRecord ps record) :
    IsRecord P record ∧ ∃ q, recordPacket P record = some q ∧ q.Good ps ∧ recordOf q = some record := by
  obtain ⟨p, hp, hrecord⟩ := h
  obtain ⟨record', q, hrecord', hread, hcanonical⟩ := recordPacket_recordOf (codecValue_of_wellFormed hp.grid)
  obtain rfl := Option.some.inj (hrecord'.symm.trans hrecord)
  refine ⟨⟨p, hrecord⟩, q, hread, ⟨hcanonical.wellFormed hp, ?_⟩, (recordOf_canonical hcanonical).trans hrecord⟩
  rw [hcanonical.alloc, hcanonical.grid]

/-- A legal board has a good record, which covers what it covers. -/
theorem Packet.WellFormed.exists_record (h : p.WellFormed ps) : ∃ record, recordOf p = some record ∧ GoodRecord ps record ∧
    (∃ q, recordPacket P record = some q ∧ q.alloc.toNat = placedCount p.grid) ∧
    ∀ b, recordLoad ps [record] b = packetLoad ps [p] b := by
  obtain ⟨record, q, hrecord, hread, hcanonical⟩ := recordPacket_recordOf (codecValue_of_wellFormed h.grid)
  refine ⟨record, hrecord, ⟨p, h, hrecord⟩, ⟨q, hread, hcanonical.alloc⟩, fun b => ?_⟩
  unfold recordLoad packetLoad
  rw [Cover.load_cons, Cover.load_cons, Cover.load_nil, Cover.load_nil]
  have hsame : recordCompletions ps record = p.completions ps := by
    unfold recordCompletions
    rw [hread]
    dsimp only
    unfold Packet.completions
    rw [hcanonical.grid]
  rw [hsame]

theorem recordLoad_nil : recordLoad ps [] b = 0 := rfl

theorem recordLoad_append (records records' : List (List Byte)) :
    recordLoad ps (records ++ records') b = recordLoad ps records b + recordLoad ps records' b := Cover.load_append _ _ _

theorem recordLoad_perm {records records' : List (List Byte)} (h : records.Perm records') :
    recordLoad ps records b = recordLoad ps records' b := Cover.load_perm h b

theorem recordLoad_split {records records' out : List (List Byte)} (h : records.Perm (records' ++ out)) :
    recordLoad ps records b = recordLoad ps records' b + recordLoad ps out b := (recordLoad_perm h).trans (recordLoad_append _ _)

theorem packetLoad_nil : packetLoad ps [] b = 0 := rfl

theorem packetLoad_append (packets packets' : List (Packet P)) :
    packetLoad ps (packets ++ packets') b = packetLoad ps packets b + packetLoad ps packets' b := Cover.load_append _ _ _

theorem packetLoad_perm {packets packets' : List (Packet P)} (h : packets.Perm packets') :
    packetLoad ps packets b = packetLoad ps packets' b := Cover.load_perm h b

theorem packetLoad_read {q : Packet P} (h : recordPacket P record = some q) : packetLoad ps [q] b = recordLoad ps [record] b := by
  unfold packetLoad recordLoad
  rw [Cover.load_cons, Cover.load_cons, Cover.load_nil, Cover.load_nil]
  unfold recordCompletions
  rw [h]

theorem packetLoad_filterMap {records : List (List Byte)} (h : ∀ r ∈ records, GoodRecord ps r) :
    packetLoad ps (records.filterMap fun r => recordPacket P r) b = recordLoad ps records b := by
  induction records with
  | nil => rfl
  | cons record records ih =>
    obtain ⟨-, q, hread, -⟩ := (h record List.mem_cons_self).read
    rw [List.filterMap_cons_some hread, ← List.singleton_append (l := records),
      ← List.singleton_append (x := q), packetLoad_append, recordLoad_append, ih fun r hr => h r (List.mem_cons_of_mem _ hr),
      packetLoad_read hread]

theorem recordLoad_filterMap {packets : List (Packet P)} (h : ∀ p ∈ packets, p.WellFormed ps) :
    recordLoad ps (packets.filterMap recordOf) b = packetLoad ps packets b := by
  induction packets with
  | nil => rfl
  | cons p packets ih =>
    obtain ⟨record, hrecord, -, -, hload⟩ := (h p List.mem_cons_self).exists_record
    rw [List.filterMap_cons_some hrecord, ← List.singleton_append (l := packets),
      ← List.singleton_append (x := record), packetLoad_append, recordLoad_append,
      ih fun p hp => h p (List.mem_cons_of_mem _ hp), hload]

end Good

/-! ## The developing of a packet -/

section Develop

variable {P : Puzzle} {ps : PieceSet P} {p : Packet P}

/-- The children that are kept of a board that is not complete cover exactly what it covers. -/
theorem searchPossiblityLightPruned_load (al : MapAllocs) (hp : p.WellFormed ps) (hfull : ∃ c, p.grid c = -2) :
    (∀ child ∈ (searchPossiblityLightPruned ps (prepareMapPart ps al) [] p 0).file, child.Good ps) ∧
      ∀ b, packetLoad ps (searchPossiblityLightPruned ps (prepareMapPart ps al) [] p 0).file b = packetLoad ps [p] b := by
  have hmap := mapOf_prepareMapPart ps al
  generalize prepareMapPart ps al = map at hmap ⊢
  cases hchoose : lightChooseCell ps map p true with
  | none =>
    have hdead : p.hasDeadCell ps map = true :=
      (lightChooseCell_eq_none.mp hchoose).resolve_right fun hall => hfull.elim fun c hc => hall c hc
    rw [searchPossiblityLightPruned_none hchoose]
    refine ⟨fun child hchild => absurd hchild List.not_mem_nil, fun b => ?_⟩
    exact (Cover.sameLoad_nil_of_empty (completions_of_hasDeadCell hp hmap hdead) b).symm
  | some r =>
    obtain ⟨c, singles⟩ := r
    obtain ⟨hc, hsingles⟩ := lightChooseCell_eq_some hchoose
    have hlive : p.hasDeadCell ps map = false := by
      rw [← Bool.not_eq_true]
      intro hdead
      rw [lightChooseCell_eq_none.mpr (.inl hdead)] at hchoose
      cases hchoose
    rw [searchPossiblityLightPruned_file hchoose, List.nil_append]
    have hdrop : ((p.children ps map c).filter fun k => !lightDropsChild ps map (some singles) k.2 c k.1.id).map Prod.snd =
        ((p.children ps map c).map Prod.snd).filter fun child => !child.hasDeadCell ps map := by
      rw [List.filter_map]
      refine congrArg _ (List.filter_congr fun k hk => ?_)
      obtain ⟨he, hkid, -⟩ := isChild_of_mem hk
      have hiff : lightDropsChild ps map (some singles) k.2 c k.1.id = k.2.hasDeadCell ps map :=
        lightChildIsDead_iff hp hmap hc he hkid hlive (hsingles rfl)
      rw [hiff]
      rfl
    rw [hdrop]
    refine ⟨fun child hchild => ?_, fun b => ?_⟩
    · obtain ⟨hwell, halloc⟩ := children_wellFormed hp hmap hc (List.mem_of_mem_filter hchild)
      exact ⟨hwell, halloc⟩
    · have hkept : Cover.SameLoad (Packet.completions ps) (((p.children ps map c).map Prod.snd).filter fun child =>
          !child.hasDeadCell ps map) ((p.children ps map c).map Prod.snd) := by
        refine Cover.SameLoad.filter fun child hchild hdead => ?_
        exact completions_of_hasDeadCell (children_wellFormed hp hmap hc hchild).1 hmap (by simpa using hdead)
      exact (hkept.trans (exactCut_children hp hmap hc).symm) b

/-- A child that the proof hook closes covers nothing. -/
theorem completions_of_closes (al : MapAllocs) {cfg : ExpandConfig} {turns : List Turn} {child : Packet P}
    (hchild : child.WellFormed ps) (h : Expansion.closes ps (prepareMapPart ps al) cfg turns child = some true) :
    child.completions ps = ∅ := by
  have hmap := mapOf_prepareMapPart ps al
  unfold Expansion.closes at h
  split at h
  swap
  · cases Option.some.inj h
  obtain ⟨r, hr, hvalue⟩ := Option.map_eq_some_iff.mp h
  unfold etiiExpandShortProof at hr
  generalize hcfg : expandProofConfig cfg.singletonConflictCheck cfg.stopOnSolution = btCfg at hr
  have hdelegate : btCfg.allowDelegate = false := by rw [← hcfg, expandProofConfig]
  have hbudget : btCfg.nodeBudget = 8 := by rw [← hcfg, expandProofConfig, expandProofBudget]; rfl
  split at hr
  · obtain rfl := Option.some.inj hr
    cases hvalue
  · rename_i hcells
    have hcells : btCfg.nodeBudget + placedCount child.grid < P.eternParts := by
      rw [expandProofBudget] at hcells
      omega
    have hshort := searchPacketBacktrackingMrv_short hmap hdelegate (by rw [hbudget]; decide) hchild hcells turns
    split at hr
    · rename_i hrun
      rw [hrun] at hshort
      cases hshort with
      | returns short => exact completions_eq_empty_of_exhausted hmap hdelegate hchild short.recorded hrun
    · obtain rfl := Option.some.inj hr
      cases hvalue
    · cases hr

/-- The proof hook answers within its budget when no request interrupts it. -/
theorem closes_isSome (al : MapAllocs) (cfg : ExpandConfig) {child : Packet P} (hchild : child.WellFormed ps) {turns : List Turn}
    (hrequest : ∀ t ∈ turns, t.request = .continue_) (hlength : turns.length = expandProofBudget) :
    (Expansion.closes ps (prepareMapPart ps al) cfg turns child).isSome := by
  have hmap := mapOf_prepareMapPart ps al
  unfold Expansion.closes
  split
  swap
  · rfl
  rw [Option.isSome_map]
  unfold etiiExpandShortProof
  generalize hcfg : expandProofConfig cfg.singletonConflictCheck cfg.stopOnSolution = btCfg
  have hdelegate : btCfg.allowDelegate = false := by rw [← hcfg, expandProofConfig]
  have hbudget : btCfg.nodeBudget = 8 := by rw [← hcfg, expandProofConfig, expandProofBudget]; rfl
  split
  · rfl
  rename_i hcells
  have hcells : btCfg.nodeBudget + placedCount child.grid < P.eternParts := by
    rw [expandProofBudget] at hcells
    omega
  have hshort := searchPacketBacktrackingMrv_short hmap hdelegate (by rw [hbudget]; decide) hchild hcells turns
  cases hrun : searchPacketBacktrackingMrv ps (prepareMapPart ps al) btCfg turns child with
  | returns result r => cases result <;> rfl
  | exits r =>
    rw [hrun] at hshort
    cases hshort
  | continues r =>
    have hturns : turns ≠ [] := List.ne_nil_of_length_pos (by rw [hlength]; decide)
    have hnodes := btTurns_nodes (by rw [hbudget]; decide) hdelegate hrequest hturns hrun
    rw [hlength, hbudget] at hnodes
    exact absurd hnodes (by rw [expandProofBudget]; omega)

end Develop

/-! ## What is in hand -/

section Hands

variable {P : Puzzle} (ps : PieceSet P)

/-- The record that waits for a place in a block. -/
@[simp] def StoreNext.pending : StoreNext → Option (List Byte)
  | .block pending => pending
  | _ => none

namespace ExpandStage

@[simp] def pending : ExpandStage P → Option (List Byte)
  | .flushing pending | .restoring pending => pending
  | .storing _ _ next | .refused _ _ _ next | .returning _ _ _ next => next.pending
  | _ => none

/-- The packet that is on its way into the stock. -/
@[simp] def packet : ExpandStage P → Option (Packet P)
  | .storing packet _ _ | .refused packet _ _ _ | .returning packet _ _ _ => some packet
  | _ => none

end ExpandStage

/-- The records that a thread has. -/
def ExpandWorker.records (w : ExpandWorker P) : List (List Byte) :=
  w.fresh ++ w.freshHold ++ w.drawn ++ w.block ++ w.unstored ++ w.stage.pending.toList

/-- The packets that a thread has. -/
def ExpandWorker.packets (w : ExpandWorker P) : List (Packet P) :=
  w.batch.map Prod.snd ++ w.children ++ w.stage.packet.toList

structure ExpandWorker.Good (w : ExpandWorker P) : Prop where
  records : ∀ r ∈ w.records, GoodRecord ps r
  packets : ∀ p ∈ w.packets, p.Good ps

noncomputable def ExpandWorker.load (w : ExpandWorker P) (b : Grid P) : Nat :=
  recordLoad ps w.records b + packetLoad ps w.packets b

namespace Expansion

/-- The records of the unverified stock and of the queue. -/
def records (s : Expansion P) : List (List Byte) :=
  s.stock.unchecked.files.flatten ++ s.source.records ++ s.work.file ++ s.work.hold

/-- How often what no thread has in hand covers a board. -/
noncomputable def shared (s : Expansion P) (b : Grid P) : Nat :=
  recordLoad ps s.records b + recordLoad ps s.stock.checked.files.flatten b + packetLoad ps s.served b

/-- How often the expansion covers a board. -/
noncomputable def load (s : Expansion P) (b : Grid P) : Nat :=
  s.shared ps b + ∑ i ∈ Finset.range s.nbWorkers, (s.workers i).load ps b

end Expansion

/-- What a thread does leaves the packets good, and as long as nothing is given up and no board is found complete
what is covered stays the same. -/
structure Carries (s s' : Expansion P) (w w' : ExpandWorker P) : Prop where
  records : ∀ r ∈ s'.records, GoodRecord ps r
  checked : (∀ r ∈ s.stock.checked.files.flatten, GoodRecord ps r) → ∀ r ∈ s'.stock.checked.files.flatten, GoodRecord ps r
  worker : w'.Good ps
  balance : s'.flags.aborted = false → s'.solution = none → ∀ b, s'.shared ps b + w'.load ps b = s.shared ps b + w.load ps b

variable {ps} {s s' : Expansion P} {w w' : ExpandWorker P}

theorem ExpandWorker.load_eq (b : Grid P) : w.load ps b =
    recordLoad ps w.fresh b + recordLoad ps w.freshHold b + recordLoad ps w.drawn b + recordLoad ps w.block b +
      recordLoad ps w.unstored b + recordLoad ps w.stage.pending.toList b +
      (packetLoad ps (w.batch.map Prod.snd) b + packetLoad ps w.children b + packetLoad ps w.stage.packet.toList b) := by
  unfold ExpandWorker.load ExpandWorker.records ExpandWorker.packets
  rw [recordLoad_append, recordLoad_append, recordLoad_append, recordLoad_append, recordLoad_append, packetLoad_append,
    packetLoad_append]

theorem Expansion.shared_eq (s : Expansion P) (b : Grid P) : s.shared ps b =
    recordLoad ps s.stock.unchecked.files.flatten b + recordLoad ps s.source.records b + recordLoad ps s.work.file b +
      recordLoad ps s.work.hold b + recordLoad ps s.stock.checked.files.flatten b + packetLoad ps s.served b := by
  unfold Expansion.shared Expansion.records
  rw [recordLoad_append, recordLoad_append, recordLoad_append]

theorem ExpandWorker.Good.of_subset (h : w.Good ps) (hrecords : w'.records ⊆ w.records) (hpackets : w'.packets ⊆ w.packets) :
    w'.Good ps := ⟨fun r hr => h.records r (hrecords hr), fun p hp => h.packets p (hpackets hp)⟩

/-- Records that only go from one place to another. -/
theorem Carries.of_perm (hgood : ∀ r ∈ s.records, GoodRecord ps r) (hw : w.Good ps)
    (hrecords : (s'.records ++ w'.records).Perm (s.records ++ w.records)) (hpackets : w'.packets.Perm w.packets)
    (hchecked : s'.stock.checked.files = s.stock.checked.files) (hserved : s'.served = s.served) : Carries ps s s' w w' := by
  have hall : ∀ r ∈ s'.records ++ w'.records, GoodRecord ps r := by
    intro r hr
    obtain hr | hr := List.mem_append.mp (hrecords.mem_iff.mp hr)
    · exact hgood r hr
    · exact hw.records r hr
  refine ⟨fun r hr => hall r (List.mem_append_left _ hr), by rw [hchecked]; exact id,
    ⟨fun r hr => hall r (List.mem_append_right _ hr), ?_⟩, fun _ _ b => ?_⟩
  · exact fun p hp => hw.packets p (hpackets.mem_iff.mp hp)
  · have hload : recordLoad ps (s'.records ++ w'.records) b = recordLoad ps (s.records ++ w.records) b :=
      recordLoad_perm hrecords
    rw [recordLoad_append, recordLoad_append] at hload
    unfold Expansion.shared ExpandWorker.load
    rw [hchecked, hserved, packetLoad_perm hpackets]
    omega

end Hands

/-! ## Queues and insertions -/

section Queues

variable {P : Puzzle} {file : PoolFile}

/-- The bytes that a queue takes are those of its records once it is in step. -/
theorem Expansion.workSync_bytes (s : Expansion P) (h : s.work.published ≤ s.workBytes) :
    s.workSync.workBytes + s.work.published = s.workBytes + s.workSync.work.published := by
  unfold Expansion.workSync
  dsimp only
  split <;> omega

theorem Expansion.workSync_of_synced (s : Expansion P)
    (h : s.work.published = workBytesOf s.work.file + workBytesOf s.work.hold) : s.workSync = s := by
  unfold Expansion.workSync
  dsimp only
  rw [← h, if_neg (Nat.lt_irrefl _), Nat.sub_self, Nat.sub_zero]

theorem SpillSource.records_erase {source : SpillSource} {k : Nat} {part : List (List Byte) × List (List Byte)}
    (h : source.below[k]? = some part) :
    source.records.Perm (part.1 ++ part.2 ++ ({ source with below := source.below.eraseIdx k } : SpillSource).records) := by
  obtain ⟨hlt, hpart⟩ := List.getElem?_eq_some_iff.mp h
  have hperm := (List.getElem_cons_eraseIdx_perm hlt).symm
  rw [hpart] at hperm
  unfold SpillSource.records
  dsimp only
  rw [← List.append_assoc]
  exact (hperm.flatMap_right _).append_right _

/-- The records that a batch takes off a file, the last one first. -/
theorem scrollRecords_spec (want : Nat) (file : PoolFile) :
    file = (scrollRecords P want file).2 ++ (scrollRecords P want file).1.reverse := by
  induction want generalizing file with
  | zero => exact (List.append_nil _).symm
  | succ want ih =>
    rw [scrollRecords]
    cases hscroll : scrollSized file (packetCodecMaxBytes P) with
    | none => exact (List.append_nil _).symm
    | some taken =>
      obtain ⟨record, rest⟩ := taken
      have hfile : file = rest ++ [record] := by
        unfold scrollSized at hscroll
        split at hscroll
        · cases hscroll
        · rename_i last hlast
          obtain ⟨-, hsome⟩ := Option.ite_none_left_eq_some.mp hscroll
          obtain ⟨rfl, rfl⟩ := Prod.mk.inj (Option.some.inj hsome)
          exact (List.dropLast_append_getLast? last hlast).symm
      dsimp only
      rw [List.reverse_cons, ← List.append_assoc, ← ih rest, ← hfile]

/-- A batch is empty only when the file is. -/
theorem scrollRecords_eq_nil (h : ∀ r ∈ file, IsRecord P r) {want : Nat} (hwant : 0 < want) :
    (scrollRecords P want file).1 = [] ↔ file = [] := by
  obtain ⟨want, rfl⟩ := Nat.exists_eq_add_of_le' hwant
  rcases List.eq_nil_or_concat file with rfl | ⟨file, record, rfl⟩
  · exact iff_of_true rfl rfl
  · rw [List.concat_eq_append] at h ⊢
    have hlen := (h record (by simp)).length_le
    rw [scrollRecords, scrollSized, List.getLast?_concat]
    dsimp only
    rw [if_neg (Nat.not_lt.mpr hlen)]
    exact iff_of_false (List.cons_ne_nil _ _) (by simp)

theorem expandBatchSize_pos {left threads max : Nat} (hmax : 0 < max) : 0 < expandBatchSize left threads max := by
  unfold expandBatchSize
  generalize left / (2 * if threads > 0 then threads else 1) = share
  dsimp only
  split <;> split <;> omega

theorem flatten_set_out {files : List PoolFile} {f : Nat} {file : PoolFile} {out : List (List Byte)}
    (h : (files.getD f []).Perm (file ++ out)) : files.flatten.Perm ((files.set f file).flatten ++ out) := by
  induction files generalizing f with
  | nil =>
    obtain ⟨-, rfl⟩ := List.append_eq_nil_iff.mp (List.nil_perm.mp h)
    rw [List.set_nil]
    exact .refl _
  | cons first files ih =>
    cases f with
    | zero =>
      rw [List.set_cons_zero, List.flatten_cons, List.flatten_cons]
      refine List.perm_iff_count.mpr fun r => ?_
      have hcount := h.count_eq r
      simp only [List.getD_cons_zero, List.count_append] at hcount ⊢
      omega
    | succ f =>
      rw [List.set_cons_succ, List.flatten_cons, List.flatten_cons, List.append_assoc]
      exact (ih h).append_left _

theorem SpillSource.place_perm {source source' : SpillSource} {top : Option Nat} {records : List (List Byte)}
    (h : source.place top records = some source') : source'.records.Perm (source.records ++ records) ∧
      (source.below = [] → source'.below = []) ∧
      ((∀ part ∈ source.below, part.1 ≠ []) → ∀ part ∈ source'.below, part.1 ≠ []) ∧
      source'.prepassDeferred = source.prepassDeferred := by
  cases top with
  | none =>
    obtain rfl := Option.some.inj h
    exact ⟨.of_eq (List.append_assoc _ _ _).symm, id, id, rfl⟩
  | some k =>
    obtain ⟨hk, hsome⟩ := Option.ite_none_right_eq_some.mp h
    obtain rfl := Option.some.inj hsome
    have hperm : ∀ (below : List (List (List Byte) × List (List Byte))) (k : Nat), k < below.length →
        ((below.modify k fun part => (part.1, part.2 ++ records)).flatMap fun part => part.1 ++ part.2).Perm
          ((below.flatMap fun part => part.1 ++ part.2) ++ records) := by
      intro below
      induction below with
      | nil => exact fun k hk => absurd hk (Nat.not_lt_zero k)
      | cons part below ih =>
        intro k hk
        cases k with
        | zero =>
          rw [List.modify_zero_cons, List.flatMap_cons, List.flatMap_cons]
          refine List.perm_iff_count.mpr fun r => ?_
          simp only [List.count_append]
          omega
        | succ k =>
          rw [List.modify_succ_cons, List.flatMap_cons, List.flatMap_cons, List.append_assoc (part.1 ++ part.2)]
          exact (ih k (Nat.lt_of_succ_lt_succ hk)).append_left _
    refine ⟨?_, fun hnil => ?_, fun hall part hpart => ?_, rfl⟩
    · refine List.perm_iff_count.mpr fun r => ?_
      have hcount := (hperm source.below k hk).count_eq r
      unfold SpillSource.records
      simp only [List.count_append] at hcount ⊢
      omega
    · rw [hnil] at hk
      exact absurd hk (Nat.not_lt_zero k)
    · obtain ⟨j, hj⟩ := List.mem_iff_getElem?.mp hpart
      dsimp only at hj
      rw [List.getElem?_modify] at hj
      obtain ⟨old, hold, rfl⟩ := Option.map_eq_some_iff.mp hj
      have hne := hall old (List.mem_of_getElem? hold)
      split
      · exact hne
      · exact hne

/-- What is read from the end of a file of good records is good. -/
theorem scrollLoop_good {ps : PieceSet P} (h : ∀ r ∈ file, GoodRecord ps r) (toMove : Nat) :
    ∀ p ∈ (scrollLoop P toMove file).1, p.Good ps := by
  induction toMove generalizing file with
  | zero => exact fun p hp => absurd hp List.not_mem_nil
  | succ toMove ih =>
    rcases List.eq_nil_or_concat file with rfl | ⟨file, record, rfl⟩
    · exact fun p hp => absurd hp List.not_mem_nil
    · rw [List.concat_eq_append] at h ⊢
      obtain ⟨hrecord, q, hread, hgood, -⟩ := (h record (by simp)).read
      have hscroll : poolScroll P (file ++ [record]) = (some q, file) := by
        unfold poolScroll scrollSized
        rw [List.getLast?_concat]
        dsimp only
        rw [if_neg (Nat.not_lt.mpr hrecord.length_le)]
        dsimp only
        rw [hread, List.dropLast_concat]
      intro p hp
      rw [scrollLoop, hscroll] at hp
      obtain rfl | hp := List.mem_cons.mp hp
      · exact hgood
      · exact ih (fun r hr => h r (List.mem_append_left _ hr)) p hp

theorem drainFiles_perm {files : List PoolFile} (h : ∀ file ∈ files, ∀ r ∈ file, IsRecord P r) (room : Nat) :
    files.flatten.Perm ((drainFiles P room files).2.flatten ++ (drainFiles P room files).1.filterMap recordOf) := by
  induction files generalizing room with
  | nil => exact .refl _
  | cons file files ih =>
    obtain ⟨-, hsplit, -⟩ := scrollLoop_spec (h file List.mem_cons_self) room
    have hrest := ih (fun file hfile => h file (List.mem_cons_of_mem _ hfile)) (room - (scrollLoop P room file).1.length)
    refine List.perm_iff_count.mpr fun r => ?_
    have hfile := congrArg (List.count r) hsplit
    have hfiles := hrest.count_eq r
    unfold drainFiles
    simp only [List.flatten_cons, List.filterMap_append, List.count_append, List.count_reverse] at hfile hfiles ⊢
    omega

/-- The locks of an insertion are not found free at the very last attempt. -/
def NotLast (attempts : Nat) (free : Nat → Bool) : Prop := LocksInTime attempts free ∨ ∀ i < attempts, free i = false

/-- The insertion of a packet: its record comes to a file of its pool, or nothing changes. -/
theorem putToLocal_single (stock : LocalStock) (p : Packet P) {freeUnchecked freeChecked : Nat → Bool}
    (hunchecked : NotLast (trylockMaxSweeps * stock.unchecked.files.length) freeUnchecked)
    (hchecked : NotLast (trylockMaxSweeps * stock.checked.files.length) freeChecked) :
    ∃ stock' status, putToLocal stock [p] freeUnchecked freeChecked = (stock', status) ∧
      ((status = .ok ∧ stock.Appended (decide (p.checked = 1)) ([p].filterMap recordOf) stock') ∨
        (status ≠ .ok ∧ stock.SameContent stock')) := by
  have hnone : ∀ (stock : LocalStock) (wantChecked : Bool) (free : Nat → Bool), decide (p.checked = 1) ≠ wantChecked →
      putToPool stock [p] wantChecked free = (stock, .ok) := by
    intro stock wantChecked free hne
    have hrouted : routed [p] wantChecked = [] := by
      unfold routed
      rw [List.filter_cons_of_neg (by simpa using hne), List.filter_nil]
    have hzero : (routed [p] wantChecked).length = 0 := by rw [hrouted, List.length_nil]
    unfold putToPool
    exact if_pos hzero
  have hone : ∀ (wantChecked : Bool) (free : Nat → Bool), decide (p.checked = 1) = wantChecked →
      NotLast (trylockMaxSweeps * (stock.pool wantChecked).files.length) free →
      ∃ stock' status, putToPool stock [p] wantChecked free = (stock', status) ∧
        ((status = .ok ∧ stock.Appended wantChecked ([p].filterMap recordOf) stock') ∨
          (status ≠ .ok ∧ stock.SameContent stock')) := by
    intro wantChecked free heq hlock
    have hrouted : routed [p] wantChecked = [p] := by
      unfold routed
      rw [List.filter_cons_of_pos (by simpa using heq), List.filter_nil]
    have hcases := putToPool_cases stock [p] wantChecked free
    generalize putToPool stock [p] wantChecked free = result at hcases
    cases hcases with
    | nothing empty =>
      rw [hrouted] at empty
      cases empty
    | refused reported full same => exact ⟨_, _, rfl, .inr ⟨reported, same⟩⟩
    | stored takes intime appended => exact ⟨_, _, rfl, .inl ⟨rfl, by rwa [hrouted] at appended⟩⟩
    | late nonempty takes last appended =>
      obtain ⟨-, i, hi, hfree⟩ := takes
      obtain hintime | hnever := hlock
      · exact absurd hintime last
      · rw [hnever i hi] at hfree
        cases hfree
  unfold putToLocal
  cases hflag : decide (p.checked = 1) with
  | false =>
    obtain ⟨stock', status, hput, hcases⟩ := hone false freeUnchecked hflag hunchecked
    rw [hput]
    dsimp only
    rw [hnone stock' true freeChecked (by rw [hflag]; decide)]
    refine ⟨stock', status, ?_, hcases⟩
    cases status <;> rfl
  | true =>
    rw [hnone stock false freeUnchecked (by rw [hflag]; decide)]
    obtain ⟨stock', status, hput, hcases⟩ := hone true freeChecked hflag hchecked
    dsimp only
    rw [hput]
    refine ⟨stock', status, ?_, hcases⟩
    cases status <;> rfl

/-- What the insertion of a packet leaves: its record is in a list if it is accepted, and all else is as it was. -/
structure Inserted (ps : PieceSet P) (stock : LocalStock) (p : Packet P) (put : LocalStock × AddStatus) : Prop where
  unchecked : ∀ r ∈ put.1.unchecked.files.flatten, r ∈ stock.unchecked.files.flatten ∨ recordOf p = some r
  checked : ∀ r ∈ put.1.checked.files.flatten, r ∈ stock.checked.files.flatten ∨ recordOf p = some r
  refused : put.2 ≠ .ok → put.1.unchecked.files = stock.unchecked.files ∧ put.1.checked.files = stock.checked.files
  load : ∀ b, recordLoad ps put.1.unchecked.files.flatten b + recordLoad ps put.1.checked.files.flatten b =
    recordLoad ps stock.unchecked.files.flatten b + recordLoad ps stock.checked.files.flatten b +
      packetLoad ps (if put.2 = .ok then [p] else []) b

theorem putToLocal_inserted {ps : PieceSet P} (stock : LocalStock) {p : Packet P} (hp : p.WellFormed ps)
    {freeUnchecked freeChecked : Nat → Bool} (hunchecked : NotLast (trylockMaxSweeps * stock.unchecked.files.length) freeUnchecked)
    (hchecked : NotLast (trylockMaxSweeps * stock.checked.files.length) freeChecked) :
    Inserted ps stock p (putToLocal stock [p] freeUnchecked freeChecked) := by
  obtain ⟨record, hrecord, -, -, hload⟩ := hp.exists_record
  obtain ⟨stock', status, hput, ⟨rfl, happended⟩ | ⟨hne, hsame⟩⟩ := putToLocal_single stock p hunchecked hchecked
  · rw [hput]
    rw [List.filterMap_cons_some hrecord, List.filterMap_nil] at happended
    -- One of the two pools has one more record.
    have hnew : ∀ {files files' : List PoolFile}, (∃ currfile < files.length, files' = files.modify currfile (· ++ [record])) →
        (∀ r ∈ files'.flatten, r ∈ files.flatten ∨ recordOf p = some r) ∧
          ∀ b, recordLoad ps files'.flatten b = recordLoad ps files.flatten b + packetLoad ps [p] b := by
      rintro files files' ⟨currfile, hlt, rfl⟩
      have hfiles := flatten_modify_perm [record] hlt
      refine ⟨fun r hr => (List.mem_append.mp (hfiles.mem_iff.mp hr)).imp_right fun hr => ?_, fun b => ?_⟩
      · rwa [List.mem_singleton.mp hr]
      · rw [recordLoad_split hfiles, hload]
    cases hflag : decide (p.checked = 1) with
    | false =>
      rw [hflag] at happended
      obtain ⟨hmem, hload⟩ := hnew happended.files
      have hothers : stock'.checked.files = stock.checked.files := happended.others
      refine ⟨hmem, fun r hr => .inl (hothers ▸ hr), fun h => absurd rfl h, fun b => ?_⟩
      have hload : recordLoad ps stock'.unchecked.files.flatten b = _ := hload b
      rw [hload, hothers, if_pos rfl]
      exact Nat.add_right_comm _ _ _
    | true =>
      rw [hflag] at happended
      obtain ⟨hmem, hload⟩ := hnew happended.files
      have hothers : stock'.unchecked.files = stock.unchecked.files := happended.others
      refine ⟨fun r hr => .inl (hothers ▸ hr), hmem, fun h => absurd rfl h, fun b => ?_⟩
      have hload : recordLoad ps stock'.checked.files.flatten b = _ := hload b
      rw [hload, hothers, if_pos rfl]
      exact (Nat.add_assoc _ _ _).symm
  · rw [hput]
    have hunchecked : stock'.unchecked.files = stock.unchecked.files := hsame.files false
    have hchecked : stock'.checked.files = stock.checked.files := hsame.files true
    refine ⟨fun r hr => .inl (hunchecked ▸ hr), fun r hr => .inl (hchecked ▸ hr), fun _ => ⟨hunchecked, hchecked⟩, fun b => ?_⟩
    rw [hunchecked, hchecked, if_neg hne]
    rfl

end Queues
