-- SUMMARY: The records of lists, of blocks and of segments on disk, and their totals over all stacks.
import EternityII.Spill.Snapshot
import EternityII.Spill.Tier
import Mathlib.Algebra.BigOperators.Group.Multiset.Basic
import Mathlib.Algebra.BigOperators.Group.Finset.Basic
import Mathlib.Algebra.BigOperators.Group.Finset.Sigma
import Mathlib.Algebra.Order.Group.Multiset
import Mathlib.Tactic.Abel

/-!
# What the stock holds

A record is a packet up to its score, which a reload and an import forget. What a stack has on disk
is what its files give when they are read from the bottom up to the logical top.
-/

/-! ## Totals -/

/-- All pools and files. -/
def allStacks (nbFiles : Nat) : Finset StackId := Finset.univ ×ˢ Finset.range nbFiles

theorem mem_allStacks {nbFiles : Nat} {id : StackId} : id ∈ allStacks nbFiles ↔ id.2 < nbFiles := by
  unfold allStacks
  simp

section Totals

variable {ι α M : Type*} [DecidableEq ι] [AddCommMonoid M] {s : Finset ι} {i : ι}

/-- A total when one term is replaced. -/
theorem sum_update_add (hi : i ∈ s) (g : α → M) (x : ι → α) (a : α) :
    (∑ j ∈ s, g (Function.update x i a j)) + g (x i) = (∑ j ∈ s, g (x j)) + g a := by
  rw [← Finset.add_sum_erase s _ hi, ← Finset.add_sum_erase s (fun j => g (x j)) hi, Function.update_self,
    Finset.sum_congr rfl fun j hj => by rw [Function.update_of_ne (Finset.ne_of_mem_erase hj)]]
  abel

/-- A total when one term gets something more. -/
theorem sum_update_of_add (hi : i ∈ s) [IsCancelAdd M] (g : α → M) (x : ι → α) {a : α} {m : M} (ha : g a = g (x i) + m) :
    (∑ j ∈ s, g (Function.update x i a j)) = (∑ j ∈ s, g (x j)) + m := by
  have h := sum_update_add hi g x a
  rw [ha, add_comm (g (x i)), ← add_assoc] at h
  exact add_right_cancel h

/-- A total when one term loses something. -/
theorem sum_update_of_sub (hi : i ∈ s) [IsCancelAdd M] (g : α → M) (x : ι → α) {a : α} {m : M} (ha : g (x i) = g a + m) :
    (∑ j ∈ s, g (Function.update x i a j)) + m = ∑ j ∈ s, g (x j) := by
  have h := sum_update_add hi g x a
  rw [ha, ← add_assoc, add_right_comm] at h
  exact add_right_cancel h

end Totals

/-! ## Records -/

section Records

variable {P : Puzzle} {tier : TierCodec}

/-- A packet up to its score. -/
def Packet.unscored (p : Packet P) : Packet P := { p with minCandidats := possibilityMinCandidatsUnknown }

/-- The records of some packets. -/
def packetRecords (packets : List (Packet P)) : Multiset (Packet P) := (packets.map Packet.unscored : List (Packet P))

/-- The records of some frames; a frame that does not decode has none. -/
def frameRecords (P : Puzzle) (tier : TierCodec) (frames : List StoredFrame) : Multiset (Packet P) :=
  (frames.map fun fr => packetRecords ((framePackets P tier fr).getD [])).sum

@[simp] theorem packetRecords_nil : packetRecords ([] : List (Packet P)) = 0 := rfl

@[simp] theorem packetRecords_append (packets packets' : List (Packet P)) :
    packetRecords (packets ++ packets') = packetRecords packets + packetRecords packets' := by
  unfold packetRecords
  rw [List.map_append, Multiset.coe_add]

theorem packetRecords_unscored (p : Packet P) : packetRecords [p.unscored] = packetRecords [p] := rfl

@[simp] theorem frameRecords_append (frames frames' : List StoredFrame) :
    frameRecords P tier (frames ++ frames') = frameRecords P tier frames + frameRecords P tier frames' := by
  unfold frameRecords
  rw [List.map_append, List.sum_append]

theorem framesPackets_cons {fr : StoredFrame} {frames : List StoredFrame} {packets : List (Packet P)}
    (h : framesPackets P tier (fr :: frames) = some packets) :
    ∃ first rest, framePackets P tier fr = some first ∧ framesPackets P tier frames = some rest ∧
      packets = first ++ rest := by
  unfold framesPackets at h ⊢
  rw [List.mapM_cons] at h
  obtain ⟨all, hall, rfl⟩ := Option.map_eq_some_iff.mp h
  obtain ⟨first, hfirst, rest, hrest, rfl⟩ : ∃ first, framePackets P tier fr = some first ∧
      ∃ rest, frames.mapM (framePackets P tier) = some rest ∧ first :: rest = all := by
    simpa [Option.bind_eq_some_iff] using hall
  exact ⟨first, rest.flatten, hfirst, by rw [hrest, Option.map_some], List.flatten_cons⟩

/-- The records of frames that decode. -/
theorem frameRecords_of_framesPackets {frames : List StoredFrame} {packets : List (Packet P)}
    (h : framesPackets P tier frames = some packets) : frameRecords P tier frames = packetRecords packets := by
  induction frames generalizing packets with
  | nil =>
    obtain rfl := Option.some.inj (framesPackets_nil.symm.trans h)
    rfl
  | cons fr frames ih =>
    obtain ⟨first, rest, hfirst, hrest, rfl⟩ := framesPackets_cons h
    rw [packetRecords_append, ← ih hrest]
    unfold frameRecords
    rw [List.map_cons, List.sum_cons, hfirst, Option.getD_some]

end Records

/-! ## Segments on disk -/

section Disk

variable {s : Spill} {segs : StackId → List (List StoredFrame)}

/-- The frames of a stack on disk, read from its files. -/
def diskFrames (s : Spill) (id : StackId) : List StoredFrame :=
  let desc := s.desc id.1 id.2
  (List.range (spillSegmentCount desc)).flatMap fun i =>
    (spillForEachStoredFrame ((s.fs.read (.live id.1 id.2 (desc.firstSeq + i))).getD [])
      (if desc.firstSeq + i = desc.lastSeq then some desc.tailBytes else none)).1

/-- The frames of an entry of the manifest, read from the snapshot. -/
def snapFrames (fs : SpillFs) (e : ManifestEntry) : List StoredFrame :=
  (List.range e.lastSeq).flatMap fun i =>
    (spillForEachStoredFrame ((fs.read (.snap e.isChecked e.oldFileIndex (i + 1))).getD [])
      (if i + 1 = e.lastSeq then some e.tailBytes else none)).1

/-- Numbered segments one after the other. -/
theorem flatMap_range_eq {α : Type*} {segs : List (List α)} {g : Nat → List α}
    (h : ∀ i seg, segs[i]? = some seg → g i = seg) : (List.range segs.length).flatMap g = segs.flatten := by
  have hmap : (List.range segs.length).map g = segs := by
    apply List.ext_getElem (by simp)
    intro i hi hi'
    rw [List.getElem_map, List.getElem_range]
    exact h i _ (List.getElem?_eq_getElem hi')
  rw [List.flatMap_def, hmap]

/-- The files give the frames that the stack has. -/
theorem Holds.diskFrames_eq {id : StackId} {segs : List (List StoredFrame)}
    (h : Holds (segmentFiles s.fs id.1 id.2) (s.desc id.1 id.2) segs) : diskFrames s id = segs.flatten := by
  unfold diskFrames
  dsimp only
  rw [h.segmentCount]
  refine flatMap_range_eq fun i seg hseg => ?_
  have hi := (List.getElem?_eq_some_iff.mp hseg).1
  have hvalid : ∀ fr ∈ seg, fr.Valid := h.valid seg (List.mem_of_getElem? hseg)
  have hseqs := h.seqs (List.ne_nil_of_length_pos (Nat.zero_lt_of_lt hi))
  obtain ⟨rest, hfile, hrest⟩ := h.file i seg hseg
  have hread : s.fs.read (.live id.1 id.2 ((s.desc id.1 id.2).firstSeq + i)) = some (framesBytes seg ++ rest) := hfile
  rw [hread, Option.getD_some]
  by_cases htop : i + 1 = segs.length
  · have hlast : segs.getLast? = some seg := by
      rw [List.getLast?_eq_getElem?, show segs.length - 1 = i by omega, hseg]
    rw [if_pos (by omega), h.tail seg hlast, spillForEachStoredFrame_framesBytes hvalid]
  · rw [if_neg (by omega), hrest (by omega), List.append_nil, spillForEachStoredFrame_all hvalid]

theorem SpillSegs.diskFrames_eq (h : SpillSegs s segs) (id : StackId) : diskFrames s id = (segs id).flatten :=
  (h.holds id).diskFrames_eq

/-- The snapshot gives the frames that the stack had. -/
theorem SnapHolds.snapFrames_eq {fs : SpillFs} {c : Bool} {f : Nat} {entry : Option ManifestEntry}
    {segs : List (List StoredFrame)} (h : SnapHolds fs c f entry segs) :
    entry.elim [] (snapFrames fs) = segs.flatten := by
  rcases Holds.cases_top segs with rfl | ⟨lower, top, rfl⟩
  · rw [h.empty rfl]
    rfl
  · rw [h.entry top (by simp), Option.elim_some]
    unfold snapFrames
    dsimp only
    refine flatMap_range_eq fun i seg hseg => ?_
    have hvalid : ∀ fr ∈ seg, fr.Valid := h.valid seg (List.mem_of_getElem? hseg)
    rw [h.file i seg hseg, Option.getD_some]
    split
    · rename_i htop
      have hlast : (lower ++ [top]).getLast? = some seg := by
        rw [List.getLast?_eq_getElem?, show (lower ++ [top]).length - 1 = i by omega, hseg]
      obtain rfl : top = seg := by simpa using hlast
      have := spillForEachStoredFrame_framesBytes hvalid []
      rw [List.append_nil] at this
      rw [this]
    · rw [spillForEachStoredFrame_all hvalid]

/-- The manifest lists each stack once. -/
theorem sum_spillWriteManifest {M : Type*} [AddCommMonoid M] (s : Spill) (g : ManifestEntry → M) :
    ((spillWriteManifest s).map g).sum = ∑ id ∈ allStacks s.nbFiles, (manifestEntry s id.1 id.2).elim 0 g := by
  have hsplit : ∀ n, (((List.range n).flatMap fun f => (manifestEntry s false f).toList ++
      (manifestEntry s true f).toList).map g).sum = ∑ f ∈ Finset.range n,
        ((manifestEntry s true f).elim 0 g + (manifestEntry s false f).elim 0 g) := by
    intro n
    induction n with
    | zero => rfl
    | succ n ih =>
      rw [List.range_succ, List.flatMap_append, List.map_append, List.sum_append, ih, Finset.sum_range_succ]
      have hone : ∀ entry : Option ManifestEntry, (entry.toList.map g).sum = entry.elim 0 g := by
        intro entry
        cases entry <;> simp
      rw [List.flatMap_singleton, List.map_append, List.sum_append, hone, hone, add_comm (Option.elim _ _ _)]
  unfold spillWriteManifest allStacks
  rw [hsplit, Finset.sum_product_right]
  simp

end Disk
