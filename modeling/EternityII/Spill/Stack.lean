-- SUMMARY: What the files and the descriptor of a pool and file stand for: a stack of segments of frames.
import EternityII.Spill.Segment

/-!
# A stack of frames

The segments of a pool and file, from the bottom to the top, are lists of frames. A file holds the
bytes of its frames; only the top may hold more behind them, what a read has taken or a failed
append has left.
-/

/-- The segments on disk, by number. -/
def segmentFiles (fs : SpillFs) (isChecked : Bool) (file : Nat) : Nat → Option (List Byte) :=
  fun seq => fs.read (.live isChecked file seq)

/-- The files and the descriptor hold these segments of frames. `tailRecords` is left out: it may be
too small after a scan that could not open its file. -/
structure Holds (files : Nat → Option (List Byte)) (desc : SpillDescriptor)
    (segs : List (List StoredFrame)) : Prop where
  valid : ∀ seg ∈ segs, ∀ fr ∈ seg, fr.Valid
  nonempty : ∀ seg ∈ segs, seg ≠ []
  empty : segs = [] → desc.firstSeq = 0 ∧ desc.lastSeq = 0 ∧ desc.tailBytes = 0
  seqs : segs ≠ [] → 0 < desc.firstSeq ∧ desc.lastSeq + 1 = desc.firstSeq + segs.length
  file : ∀ i seg, segs[i]? = some seg → ∃ rest, files (desc.firstSeq + i) = some (framesBytes seg ++ rest) ∧
    (i + 1 < segs.length → rest = [])
  tail : ∀ seg, segs.getLast? = some seg → desc.tailBytes = (framesBytes seg).length
  packets : desc.packets = framesRecords segs.flatten
  absent : ∀ seq, seq < desc.firstSeq ∨ desc.lastSeq < seq ∨ seq = 0 → files seq = none

/-- `tailRecords` counts the records below the logical top. -/
def CountsTail (desc : SpillDescriptor) (segs : List (List StoredFrame)) : Prop :=
  desc.tailRecords = framesRecords (segs.getLast?.getD [])

namespace Holds

variable {files files' : Nat → Option (List Byte)} {desc desc' : SpillDescriptor}
  {segs lower : List (List StoredFrame)} {top : List StoredFrame}

theorem lastSeq_eq_zero (h : Holds files desc segs) : desc.lastSeq = 0 ↔ segs = [] := by
  constructor
  · intro hzero
    by_contra hne
    obtain ⟨hfirst, hlast⟩ := h.seqs hne
    have := List.length_pos_iff.mpr hne
    omega
  · exact fun hnil => (h.empty hnil).2.1

/-- The top segment of a stack that is not empty. -/
theorem top_file (h : Holds files desc (lower ++ [top])) :
    desc.lastSeq = desc.firstSeq + lower.length ∧ 0 < desc.firstSeq ∧
      desc.tailBytes = (framesBytes top).length ∧
      ∃ rest, files desc.lastSeq = some (framesBytes top ++ rest) := by
  obtain ⟨hfirst, hlast⟩ := h.seqs (by simp)
  rw [List.length_append, List.length_singleton] at hlast
  have hseq : desc.lastSeq = desc.firstSeq + lower.length := by omega
  obtain ⟨rest, hfile, -⟩ := h.file lower.length top (by simp)
  exact ⟨hseq, hfirst, h.tail top (by simp), rest, by rw [hseq, hfile]⟩

theorem valid_top (h : Holds files desc (lower ++ [top])) : ∀ fr ∈ top, fr.Valid := h.valid top (by simp)

theorem nonempty_top (h : Holds files desc (lower ++ [top])) : top ≠ [] := h.nonempty top (by simp)

/-- A stack is empty or has a top. -/
theorem cases_top (segs : List (List StoredFrame)) : segs = [] ∨ ∃ lower top, segs = lower ++ [top] := by
  rcases List.eq_nil_or_concat segs with h | ⟨lower, top, h⟩
  · exact .inl h
  · exact .inr ⟨lower, top, by rw [h, List.concat_eq_append]⟩

/-- Only what is in the descriptor and the files counts. -/
theorem congr (h : Holds files desc segs) (hfiles : ∀ seq, files' seq = files seq)
    (hfirst : desc'.firstSeq = desc.firstSeq) (hlast : desc'.lastSeq = desc.lastSeq)
    (htail : desc'.tailBytes = desc.tailBytes) (hpackets : desc'.packets = desc.packets) :
    Holds files' desc' segs where
  valid := h.valid
  nonempty := h.nonempty
  empty := by
    rw [hfirst, hlast, htail]
    exact h.empty
  seqs := by
    rw [hfirst, hlast]
    exact h.seqs
  file i seg hseg := by
    rw [hfirst, hfiles]
    exact h.file i seg hseg
  tail seg hseg := htail.trans (h.tail seg hseg)
  packets := hpackets.trans h.packets
  absent seq hseq := by
    rw [hfiles]
    rw [hfirst, hlast] at hseq
    exact h.absent seq hseq

/-- Bytes behind the logical top do not count. -/
theorem stale (h : Holds files desc (lower ++ [top])) {rest : List Byte}
    (htop : files' desc.lastSeq = some (framesBytes top ++ rest))
    (hfiles : ∀ seq, seq ≠ desc.lastSeq → files' seq = files seq) : Holds files' desc (lower ++ [top]) := by
  obtain ⟨hseq, hfirst, htail, -⟩ := h.top_file
  refine { h with file := fun i seg hseg => ?_, absent := fun seq hout => ?_ }
  · by_cases hi : i = lower.length
    · subst hi
      obtain rfl : top = seg := by simpa using hseg
      exact ⟨rest, by rw [← hseq, htop], fun hlt => absurd hlt (by simp)⟩
    · rw [hfiles _ (by omega)]
      exact h.file i seg hseg
  · rw [hfiles seq (by omega)]
    exact h.absent seq hout

/-- Frames appended to the top segment. -/
theorem grow (h : Holds files desc (lower ++ [top])) {new : List StoredFrame} (hnew : ∀ fr ∈ new, fr.Valid)
    (htop : files' desc.lastSeq = some (framesBytes (top ++ new)))
    (hfiles : ∀ seq, seq ≠ desc.lastSeq → files' seq = files seq)
    (hfirst : desc'.firstSeq = desc.firstSeq) (hlast : desc'.lastSeq = desc.lastSeq)
    (htail : desc'.tailBytes = desc.tailBytes + (framesBytes new).length)
    (hpackets : desc'.packets = desc.packets + framesRecords new) :
    Holds files' desc' (lower ++ [top ++ new]) := by
  obtain ⟨hseq, hpos, htailTop, -⟩ := h.top_file
  refine ⟨fun seg hseg fr hfr => ?_, fun seg hseg => ?_, fun hnil => absurd hnil (by simp), fun _ => ?_,
    fun i seg hseg => ?_, fun seg hseg => ?_, ?_, fun seq hout => ?_⟩
  · rcases List.mem_append.mp hseg with hseg | hseg
    · exact h.valid seg (List.mem_append_left _ hseg) fr hfr
    · obtain rfl := List.mem_singleton.mp hseg
      exact (List.mem_append.mp hfr).elim (h.valid_top fr) (hnew fr)
  · rcases List.mem_append.mp hseg with hseg | hseg
    · exact h.nonempty seg (List.mem_append_left _ hseg)
    · obtain rfl := List.mem_singleton.mp hseg
      exact List.append_ne_nil_of_left_ne_nil h.nonempty_top new
  · rw [hfirst, hlast, List.length_append, List.length_singleton]
    omega
  · rw [hfirst]
    by_cases hi : i = lower.length
    · subst hi
      obtain rfl : top ++ new = seg := by simpa using hseg
      exact ⟨[], by rw [← hseq, htop, List.append_nil], fun _ => rfl⟩
    · rw [hfiles _ (by omega), List.length_append, List.length_singleton]
      have hlower : lower[i]? = some seg := by
        rcases Nat.lt_or_ge i lower.length with hlt | hge
        · rwa [List.getElem?_append_left hlt] at hseg
        · rw [List.getElem?_eq_none (by simp; omega)] at hseg
          exact absurd hseg (by simp)
      have hold := h.file i seg (by
        rw [List.getElem?_append_left (List.getElem?_eq_some_iff.mp hlower).1]
        exact hlower)
      rwa [List.length_append, List.length_singleton] at hold
  · obtain rfl : top ++ new = seg := by simpa using hseg
    rw [htail, htailTop, framesBytes_append, List.length_append]
  · rw [hpackets, h.packets]
    simp only [List.flatten_append, List.flatten_cons, List.flatten_nil, List.append_nil, framesRecords_append]
    omega
  · rw [hfiles seq (by omega)]
    exact h.absent seq (by omega)

/-- A new top over segments that end at their frames. -/
theorem push (h : Holds files desc segs) {new : List StoredFrame} (hnew : ∀ fr ∈ new, fr.Valid) (hne : new ≠ [])
    (hexact : ∀ seg, segs.getLast? = some seg → files desc.lastSeq = some (framesBytes seg))
    (htop : files' (desc.lastSeq + 1) = some (framesBytes new))
    (hfiles : ∀ seq, seq ≠ desc.lastSeq + 1 → files' seq = files seq)
    (hfirst : desc'.firstSeq = if segs = [] then 1 else desc.firstSeq) (hlast : desc'.lastSeq = desc.lastSeq + 1)
    (htail : desc'.tailBytes = (framesBytes new).length)
    (hpackets : desc'.packets = desc.packets + framesRecords new) : Holds files' desc' (segs ++ [new]) := by
  have hbase : 0 < desc'.firstSeq ∧ desc'.lastSeq = desc'.firstSeq + segs.length ∧
      (segs ≠ [] → desc'.firstSeq = desc.firstSeq) := by
    by_cases hnil : segs = []
    · rw [if_pos hnil] at hfirst
      have := (h.empty hnil).2.1
      subst hnil
      refine ⟨by omega, ?_, fun hne => absurd rfl hne⟩
      rw [hfirst, hlast, List.length_nil]
      omega
    · rw [if_neg hnil] at hfirst
      have := h.seqs hnil
      exact ⟨by omega, by omega, fun _ => hfirst⟩
  obtain ⟨hpos, hseq, hsame⟩ := hbase
  refine ⟨fun seg hseg fr hfr => ?_, fun seg hseg => ?_, fun hnil => absurd hnil (by simp), fun _ => ?_,
    fun i seg hseg => ?_, fun seg hseg => ?_, ?_, fun seq hout => ?_⟩
  · rcases List.mem_append.mp hseg with hseg | hseg
    · exact h.valid seg hseg fr hfr
    · exact hnew fr (List.mem_singleton.mp hseg ▸ hfr)
  · rcases List.mem_append.mp hseg with hseg | hseg
    · exact h.nonempty seg hseg
    · exact List.mem_singleton.mp hseg ▸ hne
  · rw [List.length_append, List.length_singleton]
    omega
  · rcases Nat.lt_trichotomy i segs.length with hlt | rfl | hgt
    · rw [List.getElem?_append_left hlt] at hseg
      have hsegs : segs ≠ [] := List.ne_nil_of_length_pos (Nat.zero_lt_of_lt hlt)
      have hlastSeq := (h.seqs hsegs).2
      rw [hsame hsegs, hfiles _ (by omega)]
      obtain ⟨rest, hfile, hrest⟩ := h.file i seg hseg
      refine ⟨rest, hfile, fun _ => ?_⟩
      by_cases htopmost : i + 1 < segs.length
      · exact hrest htopmost
      · -- The old top has been cut.
        have hlastSeg : segs.getLast? = some seg := by
          rw [List.getLast?_eq_getElem?, show segs.length - 1 = i by omega, hseg]
        have hcut := hexact seg hlastSeg
        rw [show desc.lastSeq = desc.firstSeq + i by omega, hfile] at hcut
        simpa using hcut
    · obtain rfl : new = seg := by simpa using hseg
      exact ⟨[], by rw [← hseq, hlast, htop, List.append_nil], fun _ => rfl⟩
    · rw [List.getElem?_eq_none (by rw [List.length_append, List.length_singleton]; omega)] at hseg
      exact absurd hseg (by simp)
  · obtain rfl : new = seg := by simpa using hseg
    exact htail
  · rw [hpackets, h.packets]
    simp only [List.flatten_append, List.flatten_cons, List.flatten_nil, List.append_nil, framesRecords_append]
  · by_cases hnil : segs = []
    · have hzero := h.empty hnil
      rw [if_pos hnil] at hfirst
      rw [hfiles seq (by omega)]
      exact h.absent seq (by omega)
    · have := hsame hnil
      rw [hfiles seq (by omega)]
      exact h.absent seq (by omega)

/-- The frames at the top taken away, some of the segment left. -/
theorem shrink {pre suf : List StoredFrame} (h : Holds files desc (lower ++ [pre ++ suf])) (hpre : pre ≠ [])
    (hfirst : desc'.firstSeq = desc.firstSeq) (hlast : desc'.lastSeq = desc.lastSeq)
    (htail : desc'.tailBytes = (framesBytes pre).length)
    (hpackets : desc'.packets + framesRecords suf = desc.packets) : Holds files desc' (lower ++ [pre]) := by
  obtain ⟨hseq, hpos, -, rest, hfile⟩ := h.top_file
  refine ⟨fun seg hseg fr hfr => ?_, fun seg hseg => ?_, fun hnil => absurd hnil (by simp), fun _ => ?_,
    fun i seg hseg => ?_, fun seg hseg => ?_, ?_, fun seq hout => h.absent seq (by omega)⟩
  · rcases List.mem_append.mp hseg with hseg | hseg
    · exact h.valid seg (List.mem_append_left _ hseg) fr hfr
    · obtain rfl := List.mem_singleton.mp hseg
      exact h.valid_top fr (List.mem_append_left _ hfr)
  · rcases List.mem_append.mp hseg with hseg | hseg
    · exact h.nonempty seg (List.mem_append_left _ hseg)
    · exact List.mem_singleton.mp hseg ▸ hpre
  · rw [hfirst, hlast, List.length_append, List.length_singleton]
    omega
  · rw [hfirst]
    by_cases hi : i = lower.length
    · subst hi
      obtain rfl : pre = seg := by simpa using hseg
      refine ⟨framesBytes suf ++ rest, ?_, fun hlt => absurd hlt (by simp)⟩
      rw [← hseq, hfile, framesBytes_append, List.append_assoc]
    · have hlt : i < lower.length := by
        by_contra hge
        rw [List.getElem?_eq_none (by simp; omega)] at hseg
        exact absurd hseg (by simp)
      rw [List.getElem?_append_left hlt] at hseg
      have hold := h.file i seg (by rwa [List.getElem?_append_left hlt])
      rwa [List.length_append, List.length_singleton] at hold ⊢
  · obtain rfl : pre = seg := by simpa using hseg
    exact htail
  · have := h.packets
    simp only [List.flatten_append, List.flatten_cons, List.flatten_nil, List.append_nil,
      framesRecords_append] at this ⊢
    omega

/-- The top segment taken away. -/
theorem pop (h : Holds files desc (lower ++ [top])) (hgone : files' desc.lastSeq = none)
    (hfiles : ∀ seq, seq ≠ desc.lastSeq → files' seq = files seq)
    (hempty : lower = [] → desc'.firstSeq = 0 ∧ desc'.lastSeq = 0 ∧ desc'.tailBytes = 0)
    (hseqs : lower ≠ [] → desc'.firstSeq = desc.firstSeq ∧ desc'.lastSeq + 1 = desc.lastSeq)
    (htail : ∀ seg, lower.getLast? = some seg → desc'.tailBytes = (framesBytes seg).length)
    (hpackets : desc'.packets + framesRecords top = desc.packets) : Holds files' desc' lower := by
  obtain ⟨hseq, hpos, -, -⟩ := h.top_file
  refine ⟨fun seg hseg => h.valid seg (List.mem_append_left _ hseg),
    fun seg hseg => h.nonempty seg (List.mem_append_left _ hseg), hempty, fun hne => ?_,
    fun i seg hseg => ?_, htail, ?_, fun seq hout => ?_⟩
  · have := hseqs hne
    omega
  · have hlt := (List.getElem?_eq_some_iff.mp hseg).1
    have hne : lower ≠ [] := List.ne_nil_of_length_pos (Nat.zero_lt_of_lt hlt)
    rw [(hseqs hne).1, hfiles _ (by omega)]
    obtain ⟨rest, hfile, hrest⟩ := h.file i seg (by rwa [List.getElem?_append_left hlt])
    refine ⟨rest, hfile, fun _ => hrest ?_⟩
    rw [List.length_append, List.length_singleton]
    omega
  · have := h.packets
    simp only [List.flatten_append, List.flatten_cons, List.flatten_nil, List.append_nil,
      framesRecords_append] at this
    omega
  · by_cases heq : seq = desc.lastSeq
    · rw [heq, hgone]
    · rw [hfiles seq heq]
      by_cases hnil : lower = []
      · have := hempty hnil
        subst hnil
        rw [List.length_nil] at hseq
        exact h.absent seq (by omega)
      · have := hseqs hnil
        exact h.absent seq (by omega)

/-- The bottom segment taken away. -/
theorem drop_bottom {seg : List StoredFrame} (h : Holds files desc (seg :: segs))
    (hgone : files' desc.firstSeq = none) (hfiles : ∀ seq, seq ≠ desc.firstSeq → files' seq = files seq)
    (hempty : segs = [] → desc'.firstSeq = 0 ∧ desc'.lastSeq = 0 ∧ desc'.tailBytes = 0)
    (hseqs : segs ≠ [] → desc'.firstSeq = desc.firstSeq + 1 ∧ desc'.lastSeq = desc.lastSeq ∧
      desc'.tailBytes = desc.tailBytes)
    (hpackets : desc'.packets + framesRecords seg = desc.packets) : Holds files' desc' segs := by
  obtain ⟨hpos, hlast⟩ := h.seqs (by simp)
  rw [List.length_cons] at hlast
  refine ⟨fun s hs => h.valid s (List.mem_cons_of_mem _ hs), fun s hs => h.nonempty s (List.mem_cons_of_mem _ hs),
    hempty, fun hne => ?_, fun i s hs => ?_, fun s hs => ?_, ?_, fun seq hout => ?_⟩
  · have := hseqs hne
    omega
  · have hlt := (List.getElem?_eq_some_iff.mp hs).1
    have hne : segs ≠ [] := List.ne_nil_of_length_pos (Nat.zero_lt_of_lt hlt)
    rw [(hseqs hne).1, hfiles _ (by omega)]
    obtain ⟨rest, hfile, hrest⟩ := h.file (i + 1) s (by rwa [List.getElem?_cons_succ])
    rw [List.length_cons] at hrest
    exact ⟨rest, by rw [Nat.add_right_comm, Nat.add_assoc, hfile], fun hi => hrest (by omega)⟩
  · have hne : segs ≠ [] := fun hnil => by
      rw [hnil] at hs
      exact absurd hs (by simp)
    rw [(hseqs hne).2.2]
    refine h.tail s ?_
    rw [List.getLast?_cons, hs]
    rfl
  · have := h.packets
    rw [List.flatten_cons, framesRecords_append] at this
    omega
  · by_cases heq : seq = desc.firstSeq
    · rw [heq, hgone]
    · rw [hfiles seq heq]
      by_cases hnil : segs = []
      · subst hnil
        rw [List.length_nil] at hlast
        exact h.absent seq (by omega)
      · have := hseqs hnil
        exact h.absent seq (by omega)

end Holds
