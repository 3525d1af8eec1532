-- SUMMARY: The ring of the parallel input: what is published in it under each number, and who has each slot.
import EternityII.Base.RingBuffer
import EternityII.Stock.ParallelInput
import Mathlib.Data.List.Infix

/-! ## What the dispatcher has put into the ring -/

namespace PinFrame

/-- A frame that the dispatcher decompresses itself. -/
def Streamed (f : PinFrame) : Prop := ∀ rest, Pin.splitFrame (f :: rest) = .chunk f rest f.content

/-- The frame gives all its content. -/
def Intact (f : PinFrame) : Prop := f.contentSize ≠ .error ∧ f.failure = none

/-- The contents of the frames up to the first that is not intact, with what this one gives. -/
def readable : List PinFrame → List Byte
  | [] => []
  | f :: rest =>
    if f.contentSize = .error then []
    else f.content ++ (if f.failure = none then readable rest else [])

theorem readable_prefix (frames : List PinFrame) : readable frames <+: frames.flatMap PinFrame.content := by
  induction frames with
  | nil => exact List.prefix_rfl
  | cons f rest ih =>
    rw [readable, List.flatMap_cons]
    split_ifs with herror hfails
    · exact List.nil_prefix
    · exact (List.prefix_append_right_inj _).mpr ih
    · exact (List.prefix_append_right_inj _).mpr List.nil_prefix

/-- Frames that are intact are readable in full, before those that follow. -/
theorem readable_append {done : List PinFrame} (hdone : ∀ f ∈ done, f.Intact) (rest : List PinFrame) :
    readable (done ++ rest) = done.flatMap PinFrame.content ++ readable rest := by
  induction done with
  | nil => rfl
  | cons f done ih =>
    obtain ⟨hsize, hfailure⟩ := hdone f (List.mem_cons_self ..)
    rw [List.cons_append, readable, if_neg hsize, if_pos hfailure, ih fun g hg => hdone g (List.mem_cons_of_mem f hg),
      List.flatMap_cons, List.append_assoc]

end PinFrame

/-- What has been published under one number: a frame for the workers, a chunk, or the last slot. -/
inductive PinItem where
  | frame (f : PinFrame)
  | chunk (out : List Byte)
  | last (err : Bool)

namespace PinItem

/-- The bytes that the reader takes out of the slot. -/
def bytes : PinItem → List Byte
  | .frame f => f.content
  | .chunk out => out
  | .last _ => []

/-- The reader can go past the slot. -/
def Good : PinItem → Prop
  | .frame f => f.failure = none
  | .chunk _ => True
  | .last _ => False

/-- The slot holds what was published in it, at some stage of its decompression. -/
def Holds (s : PinSlot) : PinItem → Prop
  | .frame f => ((s.state = .toDecompress ∨ s.state = .inProgress) ∧ s.src = some f) ∨
      (s.state = .ready ∧ f.failure = none ∧ s.out = f.content ∧ s.outLen = f.content.length) ∨ s.state = .error
  | .chunk out => s.state = .ready ∧ s.out = out ∧ s.outLen = out.length
  | .last err => s.state = if err then .error else .fin

theorem bytes_chunks (cs : List (List Byte)) : (cs.map chunk).flatMap bytes = cs.flatten := by
  rw [List.flatMap_map]
  exact List.flatMap_id

/-- A slot that is ready has the bytes of a good item. -/
theorem Holds.ready {s : PinSlot} {item : PinItem} (h : item.Holds s) (hready : s.state = .ready) :
    item.Good ∧ s.out = item.bytes ∧ s.outLen = item.bytes.length := by
  cases item with
  | frame f =>
    rcases h with ⟨hstate | hstate, -⟩ | ⟨-, hfailure, hout, hlen⟩ | hstate
    · cases hready.symm.trans hstate
    · cases hready.symm.trans hstate
    · exact ⟨hfailure, hout, hlen⟩
    · cases hready.symm.trans hstate
  | chunk out => exact ⟨trivial, h.2⟩
  | last err => cases err <;> cases hready.symm.trans h

theorem Holds.not_free {s : PinSlot} {item : PinItem} (h : item.Holds s) : s.state ≠ .free := by
  intro hfree
  cases item with
  | frame f => simp [Holds, hfree] at h
  | chunk out => simp [Holds, hfree] at h
  | last err => cases err <;> simp [Holds, hfree] at h

/-- The end of the input is the last slot, without an error. -/
theorem Holds.fin {s : PinSlot} {item : PinItem} (h : item.Holds s) (hfin : s.state = .fin) : item = .last false := by
  cases item with
  | frame f => simp [Holds, hfin] at h
  | chunk out => simp [Holds, hfin] at h
  | last err =>
    cases err
    · rfl
    · simp [Holds, hfin] at h

/-- A frame that waits for a worker is in its slot. -/
theorem Holds.src {s : PinSlot} {item : PinItem} (h : item.Holds s)
    (hstate : s.state = .toDecompress ∨ s.state = .inProgress) : ∃ f, item = .frame f ∧ s.src = some f := by
  cases item with
  | frame f =>
    rcases h with ⟨-, hsrc⟩ | ⟨hready, -⟩ | herror
    · exact ⟨f, rfl, hsrc⟩
    · simp [hready] at hstate
    · simp [herror] at hstate
  | chunk out => simp [h.1] at hstate
  | last err => cases err <;> simp [show s.state = _ from h] at hstate

/-- What a worker leaves in the slot of a frame: its content, or an error. -/
theorem holds_decompress {s : PinSlot} {f : PinFrame} (hsrc : s.src = some f) (context : Bool) (out : List Byte) :
    (frame f).Holds (s.decompress context out) ∧
      ((s.decompress context out).state = .ready ∨ (s.decompress context out).state = .error) := by
  by_cases hok : (context && f.failure.isNone && decide (f.content.length = s.outLen)) = true
  · rw [PinSlot.decompress, hsrc, Option.filter_some, if_pos hok]
    simp only [Bool.and_eq_true, Option.isNone_iff_eq_none, decide_eq_true_eq] at hok
    exact ⟨.inr (.inl ⟨rfl, hok.1.2, rfl, hok.2.symm⟩), .inl rfl⟩
  · rw [PinSlot.decompress, hsrc, Option.filter_some, if_neg hok]
    exact ⟨.inr (.inr rfl), .inr rfl⟩

end PinItem

/-- Frames as the items that they are cut into: one for the workers, or the chunks of an intact one. -/
inductive Splits : List PinFrame → List PinItem → Prop
  | nil : Splits [] []
  | frame {done items} {f : PinFrame} (h : Splits done items) (hsize : f.contentSize ≠ .error) :
      Splits (done ++ [f]) (items ++ [.frame f])
  | chunks {done items} {f : PinFrame} {cs : List (List Byte)} (h : Splits done items) (hintact : f.Intact)
      (hcontent : cs.flatten = f.content) : Splits (done ++ [f]) (items ++ cs.map .chunk)

namespace Splits

variable {done : List PinFrame} {items items' : List PinItem}

/-- When the reader can go past all items, the frames are intact and the items have their bytes. -/
theorem good (h : Splits done items) (hgood : ∀ item ∈ items, item.Good) :
    (∀ f ∈ done, f.Intact) ∧ items.flatMap PinItem.bytes = done.flatMap PinFrame.content := by
  induction h with
  | nil => exact ⟨fun _ hf => absurd hf List.not_mem_nil, rfl⟩
  | @frame done items f h hsize ih =>
    obtain ⟨hintact, hbytes⟩ := ih fun item hitem => hgood item (List.mem_append_left _ hitem)
    have hfailure : f.failure = none := hgood (.frame f) (List.mem_append_right _ (List.mem_singleton_self _))
    refine ⟨fun g hg => ?_, ?_⟩
    · rcases List.mem_append.mp hg with hg | hg
      · exact hintact g hg
      · rw [List.mem_singleton.mp hg]
        exact ⟨hsize, hfailure⟩
    · simp [hbytes, PinItem.bytes]
  | @chunks done items f cs h hf hcontent ih =>
    obtain ⟨hintact, hbytes⟩ := ih fun item hitem => hgood item (List.mem_append_left _ hitem)
    refine ⟨fun g hg => ?_, ?_⟩
    · rcases List.mem_append.mp hg with hg | hg
      · exact hintact g hg
      · rw [List.mem_singleton.mp hg]
        exact hf
    · simp [hbytes, PinItem.bytes_chunks, hcontent]

/-- What can be read of some first items, when what follows them is read out of the frames that
follow. -/
theorem good_initial (h : Splits done items) {tail : List PinItem} {rest : List PinFrame}
    (htail : ∀ items', items' <+: tail → (∀ item ∈ items', item.Good) →
      items'.flatMap PinItem.bytes <+: PinFrame.readable rest)
    (hinit : items' <+: items ++ tail) (hgood : ∀ item ∈ items', item.Good) :
    items'.flatMap PinItem.bytes <+: PinFrame.readable (done ++ rest) := by
  induction h generalizing tail rest with
  | nil => exact htail items' hinit hgood
  | @frame done items f h hsize ih =>
    rw [List.append_assoc] at hinit ⊢
    refine ih (fun front hfront hfrontGood => ?_) hinit
    rcases List.prefix_cons_iff.mp hfront with rfl | ⟨front', rfl, hfront'⟩
    · exact List.nil_prefix
    · have hfailure : f.failure = none := hfrontGood _ (List.mem_cons_self ..)
      have hrest := htail front' hfront' fun item hitem => hfrontGood item (List.mem_cons_of_mem _ hitem)
      simpa [PinFrame.readable, hsize, hfailure, PinItem.bytes, List.prefix_append_right_inj] using hrest
  | @chunks done items f cs h hf hcontent ih =>
    rw [List.append_assoc] at hinit ⊢
    refine ih (fun front hfront hfrontGood => ?_) hinit
    have hread : PinFrame.readable ([f] ++ rest) = cs.flatten ++ PinFrame.readable rest := by
      simp [PinFrame.readable, hf.1, hf.2, hcontent]
    rw [hread]
    rcases List.prefix_or_prefix_of_prefix hfront (List.prefix_append (cs.map .chunk) tail) with hin | hover
    · obtain ⟨more, hmore⟩ := hin
      rw [← PinItem.bytes_chunks, ← hmore, List.flatMap_append, List.append_assoc]
      exact List.prefix_append ..
    · obtain ⟨front', rfl⟩ := hover
      have hrest := htail front' ((List.prefix_append_right_inj _).mp hfront) fun item hitem =>
        hfrontGood item (List.mem_append_right _ hitem)
      rw [List.flatMap_append, PinItem.bytes_chunks]
      exact (List.prefix_append_right_inj _).mpr hrest

/-- No item is the last slot. -/
theorem not_last (h : Splits done items) (err : Bool) : .last err ∉ items := by
  induction h with
  | nil => exact List.not_mem_nil
  | frame h hsize ih => simp [ih]
  | chunks h hf hcontent ih => simp [ih]

end Splits

/-- The items of all frames before `rest`. -/
def Whole (frames rest : List PinFrame) (items : List PinItem) : Prop :=
  ∃ done, frames = done ++ rest ∧ Splits done items

/-- The items of all frames before `rest`, and chunks of the next one, which has `left` to come. -/
def Within (frames : List PinFrame) (f : PinFrame) (rest : List PinFrame) (left : List Byte) (items : List PinItem) : Prop :=
  ∃ (items₀ : List PinItem) (cs : List (List Byte)), Whole frames (f :: rest) items₀ ∧ items = items₀ ++ cs.map .chunk ∧
    f.content = cs.flatten ++ left ∧ f.contentSize ≠ .error

/-- The items of some first frames, and perhaps some chunks of the next one. -/
def Partly (frames : List PinFrame) (items : List PinItem) : Prop :=
  (∃ rest, Whole frames rest items) ∨ ∃ f rest left, Within frames f rest left items

/-- What has been published, before a job with `o` put out in its slot. -/
def PinJob.Published (frames : List PinFrame) (items : List PinItem) (o : List Byte) : PinJob → Prop
  | .frame f rest => Whole frames (f :: rest) items ∧ ∃ cs, f.contentSize = .known cs
  | .chunk f rest left => Within frames f rest (o ++ left) items ∧ f.Streamed ∧ o.length ≤ pinChunk
  | .last err => if err then Partly frames items else Whole frames [] items

/-- What has been published when the dispatcher is there. -/
def PinDispatcher.Published (frames : List PinFrame) (items : List PinItem) (stop : Bool) : PinDispatcher → Prop
  | .top rest => Whole frames rest items
  | .reserve job => job.Published frames items []
  | .fill job o => job.Published frames items o
  | .spoiled f => (∃ rest left, Within frames f rest left items) ∧ f.Streamed ∧ f.failure = some .corrupt
  | .finished => (stop = true ∧ Partly frames items) ∨
      ∃ items₀ err, items = items₀ ++ [.last err] ∧ if err then Partly frames items₀ else Whole frames [] items₀

section Published

variable {frames rest : List PinFrame} {items items' : List PinItem} {f : PinFrame} {left : List Byte}

theorem Whole.partly (h : Whole frames rest items) : Partly frames items := .inl ⟨rest, h⟩

theorem Whole.frame (h : Whole frames (f :: rest) items) (hsize : f.contentSize ≠ .error) :
    Whole frames rest (items ++ [.frame f]) := by
  obtain ⟨done, rfl, hsplits⟩ := h
  exact ⟨done ++ [f], by simp, hsplits.frame hsize⟩

theorem Whole.good_initial (h : Whole frames rest items) (hinit : items' <+: items)
    (hgood : ∀ item ∈ items', item.Good) : items'.flatMap PinItem.bytes <+: PinFrame.readable frames := by
  obtain ⟨done, rfl, hsplits⟩ := h
  refine hsplits.good_initial (fun front hfront _ => ?_) (List.append_nil items ▸ hinit) hgood
  rw [List.prefix_nil.mp hfront]
  exact List.nil_prefix

/-- All frames are published and the reader can go past all of them. -/
theorem Whole.all (h : Whole frames [] items) (hgood : ∀ item ∈ items, item.Good) :
    (∀ f ∈ frames, f.Intact) ∧ items.flatMap PinItem.bytes = frames.flatMap PinFrame.content := by
  obtain ⟨done, rfl, hsplits⟩ := h
  rw [List.append_nil]
  exact hsplits.good hgood

/-- The first chunk of a frame is to come. -/
theorem Whole.within (h : Whole frames (f :: rest) items) (hsize : f.contentSize ≠ .error) :
    Within frames f rest f.content items :=
  ⟨items, [], h, (List.append_nil items).symm, rfl, hsize⟩

theorem Within.partly (h : Within frames f rest left items) : Partly frames items := .inr ⟨f, rest, left, h⟩

theorem Partly.of_within (h : ∃ rest left, Within frames f rest left items) : Partly frames items := by
  obtain ⟨rest, left, h⟩ := h
  exact h.partly

/-- When the reader can go past all items, the frames before the next one are intact. -/
theorem Within.intact (h : Within frames f rest left items) (hgood : ∀ item ∈ items, item.Good) :
    ∃ done, frames = done ++ f :: rest ∧ ∀ g ∈ done, g.Intact := by
  obtain ⟨items₀, cs, ⟨done, hframes, hsplits⟩, rfl, -⟩ := h
  exact ⟨done, hframes, (hsplits.good fun item hitem => hgood item (List.mem_append_left _ hitem)).1⟩

theorem Within.chunk {o : List Byte} (h : Within frames f rest (o ++ left) items) :
    Within frames f rest left (items ++ [.chunk o]) := by
  obtain ⟨items₀, cs, hwhole, rfl, hcontent, hsize⟩ := h
  exact ⟨items₀, cs ++ [o], hwhole, by simp, by simp [hcontent], hsize⟩

/-- The last chunk of an intact frame has been published. -/
theorem Within.whole (h : Within frames f rest [] items) (hfailure : f.failure = none) : Whole frames rest items := by
  obtain ⟨items₀, cs, ⟨done, rfl, hsplits⟩, rfl, hcontent, hsize⟩ := h
  refine ⟨done ++ [f], by simp, hsplits.chunks ⟨hsize, hfailure⟩ ?_⟩
  rw [hcontent, List.append_nil]

theorem Partly.good_initial (h : Partly frames items) (hinit : items' <+: items)
    (hgood : ∀ item ∈ items', item.Good) : items'.flatMap PinItem.bytes <+: PinFrame.readable frames := by
  rcases h with ⟨rest, h⟩ | ⟨f, rest, left, items₀, cs, ⟨done, rfl, hsplits⟩, rfl, hcontent, hsize⟩
  · exact h.good_initial hinit hgood
  · refine hsplits.good_initial (fun front hfront _ => ?_) hinit hgood
    have hfrontBytes : front.flatMap PinItem.bytes <+: cs.flatten := by
      obtain ⟨more, hmore⟩ := hfront
      rw [← PinItem.bytes_chunks, ← hmore, List.flatMap_append]
      exact List.prefix_append ..
    rw [PinFrame.readable, if_neg hsize, hcontent, List.append_assoc]
    exact hfrontBytes.trans (List.prefix_append ..)

theorem Partly.not_last (h : Partly frames items) (err : Bool) : .last err ∉ items := by
  rcases h with ⟨rest, done, -, hsplits⟩ | ⟨f, rest, left, items₀, cs, ⟨done, -, hsplits⟩, rfl, -⟩
  · exact hsplits.not_last err
  · simp [hsplits.not_last err]

/-- The last slot, after what was published. -/
theorem PinJob.Published.partly_of_last {o : List Byte} {err : Bool} (h : (PinJob.last err).Published frames items o) :
    Partly frames items := by
  cases err
  · exact Whole.partly h
  · exact h

theorem PinJob.Published.partly {o : List Byte} {job : PinJob} (h : job.Published frames items o) :
    Partly frames items := by
  cases job with
  | frame f rest => exact h.1.partly
  | chunk f rest left => exact h.1.partly
  | last err => exact h.partly_of_last

theorem PinDispatcher.Published.stopped {d : PinDispatcher} {stop : Bool} (h : d.Published frames items stop) :
    d.Published frames items true := by
  cases d with
  | finished => exact h.imp_left fun hstop => ⟨rfl, hstop.2⟩
  | _ => exact h

/-- Whatever the dispatcher is at, what the reader can take is read out of the frames. -/
theorem PinDispatcher.Published.good_initial {d : PinDispatcher} {stop : Bool} (h : d.Published frames items stop)
    (hinit : items' <+: items) (hgood : ∀ item ∈ items', item.Good) :
    items'.flatMap PinItem.bytes <+: PinFrame.readable frames := by
  cases d with
  | top rest => exact h.partly.good_initial hinit hgood
  | reserve job => exact PinJob.Published.partly h |>.good_initial hinit hgood
  | fill job o => exact PinJob.Published.partly h |>.good_initial hinit hgood
  | spoiled f => exact (Partly.of_within h.1).good_initial hinit hgood
  | finished =>
    rcases h with ⟨-, h⟩ | ⟨items₀, err, rfl, h⟩
    · exact h.good_initial hinit hgood
    · have hfront : items' <+: items₀ := by
        rcases List.prefix_concat_iff.mp hinit with rfl | hfront
        · exact absurd (hgood (.last err) (by simp)) id
        · exact hfront
      exact (PinJob.Published.partly_of_last (o := []) h).good_initial hfront hgood

/-- The last slot without an error comes after all frames. -/
theorem PinDispatcher.Published.whole_of_last {d : PinDispatcher} {stop : Bool} (h : d.Published frames items stop)
    (hlast : .last false ∈ items) : ∃ items₀, items = items₀ ++ [.last false] ∧ Whole frames [] items₀ := by
  cases d with
  | top rest => exact absurd hlast (h.partly.not_last false)
  | reserve job => exact absurd hlast ((PinJob.Published.partly h).not_last false)
  | fill job o => exact absurd hlast ((PinJob.Published.partly h).not_last false)
  | spoiled f => exact absurd hlast ((Partly.of_within h.1).not_last false)
  | finished =>
    rcases h with ⟨-, h⟩ | ⟨items₀, err, rfl, h⟩
    · exact absurd hlast (h.not_last false)
    · cases err with
      | false => exact ⟨items₀, rfl, h⟩
      | true =>
        have hin : PinItem.last false ∈ items₀ := by simpa using hlast
        have hpartly : Partly frames items₀ := h
        exact absurd hin (hpartly.not_last false)

end Published

/-! ## The ring -/

/-- The dispatcher has a slot reserved. -/
def PinDispatcher.Working : PinDispatcher → Prop
  | .fill _ _ => True
  | .spoiled _ => True
  | _ => False

/-- The numbers in the ring are those from `consumed` to `produced`: their slots hold what was published
under them, and the others are free. Each frame under decompression has one worker. -/
structure PinRing (ringN : Nat) (items : List PinItem) (p : Pin) : Prop where
  length : items.length = p.produced
  lower : p.consumed ≤ p.produced
  upper : p.produced ≤ p.consumed + ringN
  room : p.dispatcher.Working → p.produced < p.consumed + ringN
  holds : ∀ seq item, p.consumed ≤ seq → items[seq]? = some item → item.Holds (p.slot ringN seq)
  free : ∀ seq, p.produced ≤ seq → seq < p.consumed + ringN → (p.slot ringN seq).state = .free
  waiting : ∀ seq, p.consumed ≤ seq → seq < p.produced → (p.slot ringN seq).state = .toDecompress → p.pending ≤ seq
  busy : ∀ seq, p.consumed ≤ seq → seq < p.produced → (p.slot ringN seq).state = .inProgress →
    ∃ i, p.workers i = some seq
  pending : p.pending ≤ p.produced
  worker : ∀ i seq, p.workers i = some seq → p.consumed ≤ seq ∧ seq < p.pending ∧
    (p.slot ringN seq).state = .inProgress ∧ seq ∉ p.decompressed
  apart : ∀ i j seq, p.workers i = some seq → p.workers j = some seq → i = j
  logged : ∀ seq ∈ p.decompressed, seq < p.pending
  once : p.decompressed.Nodup

namespace Pin

variable {ringN nworkers : Nat} {recovers : PinFrame → Bool} {p p' : Pin} {items : List PinItem} {seq seq' : Nat}
variable {s : PinSlot} {d : PinDispatcher}

@[simp] theorem slot_setSlot : (p.setSlot ringN seq s).slot ringN seq = s := Function.update_self ..

theorem slot_setSlot_of_ne (h : seq' % ringN ≠ seq % ringN) : (p.setSlot ringN seq s).slot ringN seq' = p.slot ringN seq' :=
  Function.update_of_ne h ..

/-- Two numbers that are in the ring together have different slots. -/
theorem mod_ne (hlt : seq < seq') (h : seq' < seq + ringN) : seq' % ringN ≠ seq % ringN := by
  have hcell := RingBuffer.cell_ne (r := ⟨fun _ => (), seq, 0⟩) (Nat.sub_pos_of_lt hlt) (Nat.sub_lt_left_of_lt_add hlt.le h)
  simpa [Nat.add_sub_cancel' hlt.le] using hcell.symm

/-- A slot replaced leaves the slots of the other numbers in the ring. -/
theorem slot_setSlot_window {base : Nat} (hne : seq' ≠ seq) (hseq : base ≤ seq ∧ seq < base + ringN)
    (hseq' : base ≤ seq' ∧ seq' < base + ringN) : (p.setSlot ringN seq s).slot ringN seq' = p.slot ringN seq' := by
  apply slot_setSlot_of_ne
  rcases Nat.lt_or_gt_of_ne hne with hlt | hlt
  · exact (mod_ne hlt (by omega)).symm
  · exact mod_ne hlt (by omega)

theorem le_skipPending (n pending : Nat) : pending ≤ p.skipPending ringN n pending := by
  induction n generalizing pending with
  | zero => exact le_rfl
  | succ n ih =>
    rw [skipPending]
    split_ifs
    · exact (Nat.le_succ _).trans (ih _)
    · exact le_rfl

theorem skipPending_le (n pending : Nat) (h : pending ≤ p.produced) : p.skipPending ringN n pending ≤ p.produced := by
  induction n generalizing pending with
  | zero => exact h
  | succ n ih =>
    rw [skipPending]
    split_ifs with hskip
    · exact ih _ hskip.1
    · exact h

/-- No slot that a worker passes over is to be decompressed. -/
theorem skipPending_passed (n pending : Nat) (hle : pending ≤ seq) (hlt : seq < p.skipPending ringN n pending) :
    (p.slot ringN seq).state ≠ .toDecompress := by
  induction n generalizing pending with
  | zero => exact absurd hlt (Nat.not_lt.mpr hle)
  | succ n ih =>
    rw [skipPending] at hlt
    split_ifs at hlt with hskip
    · rcases hle.eq_or_lt with rfl | hnext
      · exact hskip.2
      · exact ih _ hnext hlt
    · exact absurd hlt (Nat.not_lt.mpr hle)

/-- A worker that has passed over enough slots is at one to decompress, or at the end. -/
theorem skipPending_stops (n pending : Nat) (hn : p.produced ≤ pending + n)
    (hlt : p.skipPending ringN n pending < p.produced) :
    (p.slot ringN (p.skipPending ringN n pending)).state = .toDecompress := by
  induction n generalizing pending with
  | zero => exact absurd hlt (Nat.not_lt.mpr hn)
  | succ n ih =>
    rw [skipPending] at hlt ⊢
    split_ifs at hlt ⊢ with hskip
    · exact ih _ (by omega) hlt
    · exact not_not.mp fun hstate => hskip ⟨hlt, hstate⟩

end Pin

namespace PinRing

variable {ringN nworkers : Nat} {recovers : PinFrame → Bool} {p p' : Pin} {items : List PinItem} {seq : Nat}
variable {s : PinSlot} {d : PinDispatcher} {item : PinItem}

/-- A number in use is in the ring. -/
theorem in_window (h : PinRing ringN items p) (hle : p.consumed ≤ seq) (hlt : seq < p.produced) :
    p.consumed ≤ seq ∧ seq < p.consumed + ringN := ⟨hle, hlt.trans_le h.upper⟩

theorem item_lt (h : PinRing ringN items p) (hitem : items[seq]? = some item) : seq < p.produced := by
  rw [← h.length]
  exact (List.getElem?_eq_some_iff.mp hitem).1

/-- The slot of a number in use holds its item. -/
theorem exists_item (h : PinRing ringN items p) (hle : p.consumed ≤ seq) (hlt : seq < p.produced) :
    ∃ item, items[seq]? = some item ∧ item.Holds (p.slot ringN seq) := by
  have hitem : items[seq]? = some (items.get ⟨seq, h.length ▸ hlt⟩) := List.getElem?_eq_getElem _
  exact ⟨_, hitem, h.holds seq _ hle hitem⟩

/-- The dispatcher goes on without the ring. -/
theorem dispatch (h : PinRing ringN items p) (hroom : d.Working → p.produced < p.consumed + ringN) :
    PinRing ringN items { p with dispatcher := d } :=
  { h with room := hroom }

/-- A slot in use is replaced, and what its item says of it holds still. -/
theorem holds_setSlot (h : PinRing ringN items p) (hle : p.consumed ≤ seq) (hlt : seq < p.consumed + ringN)
    (hitem : ∀ item, items[seq]? = some item → item.Holds s) :
    ∀ seq' item, p.consumed ≤ seq' → items[seq']? = some item → item.Holds ((p.setSlot ringN seq s).slot ringN seq') := by
  intro seq' item hle' hitem'
  by_cases heq : seq' = seq
  · subst heq
    rw [Pin.slot_setSlot]
    exact hitem item hitem'
  · rw [Pin.slot_setSlot_window heq ⟨hle, hlt⟩ (h.in_window hle' (h.item_lt hitem'))]
    exact h.holds seq' item hle' hitem'

/-- What the dispatcher writes without the lock is in a slot that is not in use. -/
theorem scribble (h : PinRing ringN items p) (hroom : p.produced < p.consumed + ringN)
    (hstate : s.state = (p.slot ringN p.produced).state) : PinRing ringN items (p.setSlot ringN p.produced s) := by
  have hother : ∀ seq, p.consumed ≤ seq → seq < p.produced →
      (p.setSlot ringN p.produced s).slot ringN seq = p.slot ringN seq := by
    intro seq hle hlt
    exact Pin.slot_setSlot_window hlt.ne ⟨h.lower, hroom⟩ (h.in_window hle hlt)
  refine { h with holds := ?_, free := ?_, waiting := ?_, busy := ?_, worker := ?_ }
  · exact h.holds_setSlot h.lower hroom fun item hitem => absurd (h.item_lt hitem) (lt_irrefl _)
  · intro seq hle hlt
    by_cases heq : seq = p.produced
    · subst heq
      rw [Pin.slot_setSlot, hstate]
      exact h.free _ le_rfl hroom
    · rw [Pin.slot_setSlot_window heq ⟨h.lower, hroom⟩ ⟨h.lower.trans hle, hlt⟩]
      exact h.free seq hle hlt
  · intro seq hle hlt
    rw [hother seq hle hlt]
    exact h.waiting seq hle hlt
  · intro seq hle hlt
    rw [hother seq hle hlt]
    exact h.busy seq hle hlt
  · intro i seq hi
    obtain ⟨hle, hlt, hstate, hlog⟩ := h.worker i seq hi
    refine ⟨hle, hlt, ?_, hlog⟩
    rw [hother seq hle (hlt.trans_le h.pending)]
    exact hstate

/-- A slot is published under the next number. -/
theorem publish (h : PinRing ringN items p) (hroom : p.produced < p.consumed + ringN) (hitem : item.Holds s)
    (hidle : s.state ≠ .inProgress) (hd : ¬ d.Working) :
    PinRing ringN (items ++ [item]) { p.setSlot ringN p.produced s with produced := p.produced + 1, dispatcher := d } := by
  have hself : (p.setSlot ringN p.produced s).slot ringN p.produced = s := Pin.slot_setSlot
  have hother : ∀ seq, p.consumed ≤ seq → seq < p.produced →
      (p.setSlot ringN p.produced s).slot ringN seq = p.slot ringN seq := by
    intro seq hle hlt
    exact Pin.slot_setSlot_window hlt.ne ⟨h.lower, hroom⟩ (h.in_window hle hlt)
  refine
    { h with
      length := ?_, lower := h.lower.trans (Nat.le_succ _), upper := hroom, room := fun hworking => absurd hworking hd
      holds := ?_, free := ?_, waiting := ?_, busy := ?_, pending := h.pending.trans (Nat.le_succ _), worker := ?_ }
  · rw [List.length_append, h.length, List.length_singleton]
  · intro seq item' hle hitem'
    change item'.Holds ((p.setSlot ringN p.produced s).slot ringN seq)
    rw [List.getElem?_append] at hitem'
    split_ifs at hitem' with hlt
    · rw [hother seq hle (h.length ▸ hlt)]
      exact h.holds seq item' hle hitem'
    · rw [h.length, not_lt] at hlt
      rw [h.length, List.getElem?_singleton, Option.ite_none_right_eq_some] at hitem'
      obtain ⟨hzero, hsome⟩ := hitem'
      have hseq : seq = p.produced := by omega
      rw [hseq, hself, ← Option.some.inj hsome]
      exact hitem
  · intro seq hle hlt
    have hnext : p.produced < seq := hle
    change ((p.setSlot ringN p.produced s).slot ringN seq).state = _
    rw [Pin.slot_setSlot_window hnext.ne' ⟨h.lower, hroom⟩ ⟨h.lower.trans hnext.le, hlt⟩]
    exact h.free seq hnext.le hlt
  · intro seq hle hlt hstate
    rcases Nat.lt_succ_iff_lt_or_eq.mp hlt with hlt | rfl
    · have hold : (p.slot ringN seq).state = .toDecompress := by rwa [← hother seq hle hlt]
      exact h.waiting seq hle hlt hold
    · exact h.pending
  · intro seq hle hlt hstate
    rcases Nat.lt_succ_iff_lt_or_eq.mp hlt with hlt | rfl
    · have hold : (p.slot ringN seq).state = .inProgress := by rwa [← hother seq hle hlt]
      exact h.busy seq hle hlt hold
    · have hnew : s.state = .inProgress := by rwa [← hself]
      exact absurd hnew hidle
  · intro i seq hi
    obtain ⟨hle, hlt, hstate, hlog⟩ := h.worker i seq hi
    refine ⟨hle, hlt, ?_, hlog⟩
    change ((p.setSlot ringN p.produced s).slot ringN seq).state = _
    rw [hother seq hle (hlt.trans_le h.pending)]
    exact hstate

/-- The slot of a number in use is replaced by the worker that takes it or has it. -/
theorem work (h : PinRing ringN items p) {pending : Nat} {workers : Nat → Option Nat} {decompressed : List Nat}
    (hle : p.consumed ≤ seq) (hlt : seq < p.produced) (hitem : ∀ item, items[seq]? = some item → item.Holds s)
    (htaken : s.state ≠ .toDecompress) (hbusy : s.state = .inProgress → ∃ i, workers i = some seq)
    (hpending : p.pending ≤ pending ∧ pending ≤ p.produced)
    (hwaiting : ∀ seq', p.consumed ≤ seq' → seq' < p.produced → seq' ≠ seq →
      (p.slot ringN seq').state = .toDecompress → pending ≤ seq')
    (hkept : ∀ i seq', seq' ≠ seq → p.workers i = some seq' → workers i = some seq')
    (hworker : ∀ i seq', workers i = some seq' → seq' ≠ seq ∧ p.workers i = some seq' ∨
      seq' = seq ∧ s.state = .inProgress ∧ seq < pending ∧ seq ∉ decompressed)
    (hapart : ∀ i j, workers i = some seq → workers j = some seq → i = j)
    (hdone : ∀ seq' ∈ decompressed, seq' ≠ seq → seq' ∈ p.decompressed)
    (hlogged : seq ∈ decompressed → seq < pending) (honce : decompressed.Nodup) :
    PinRing ringN items { p.setSlot ringN seq s with pending, workers, decompressed } := by
  have hself : (p.setSlot ringN seq s).slot ringN seq = s := Pin.slot_setSlot
  have hseq := h.in_window hle hlt
  have hother : ∀ seq', seq' ≠ seq → p.consumed ≤ seq' → seq' < p.consumed + ringN →
      (p.setSlot ringN seq s).slot ringN seq' = p.slot ringN seq' := by
    intro seq' hne hle' hlt'
    exact Pin.slot_setSlot_window hne hseq ⟨hle', hlt'⟩
  refine
    { h with
      holds := h.holds_setSlot hle hseq.2 hitem, free := ?_, waiting := ?_, busy := ?_, pending := hpending.2
      worker := ?_, apart := ?_, logged := ?_, once := honce }
  · intro seq' hle' hlt'
    change ((p.setSlot ringN seq s).slot ringN seq').state = _
    have hle'' : p.produced ≤ seq' := hle'
    rw [hother seq' (hlt.trans_le hle'').ne' (h.lower.trans hle'') hlt']
    exact h.free seq' hle' hlt'
  · intro seq' hle' hlt' hstate
    change ((p.setSlot ringN seq s).slot ringN seq').state = _ at hstate
    by_cases heq : seq' = seq
    · rw [heq, hself] at hstate
      exact absurd hstate htaken
    · rw [hother seq' heq hle' (h.in_window hle' hlt').2] at hstate
      exact hwaiting seq' hle' hlt' heq hstate
  · intro seq' hle' hlt' hstate
    change ((p.setSlot ringN seq s).slot ringN seq').state = _ at hstate
    by_cases heq : seq' = seq
    · rw [heq, hself] at hstate
      rw [heq]
      exact hbusy hstate
    · rw [hother seq' heq hle' (h.in_window hle' hlt').2] at hstate
      obtain ⟨i, hi⟩ := h.busy seq' hle' hlt' hstate
      exact ⟨i, hkept i seq' heq hi⟩
  · intro i seq' hi
    change _ ∧ _ ∧ ((p.setSlot ringN seq s).slot ringN seq').state = _ ∧ _
    rcases hworker i seq' hi with ⟨hne, hi⟩ | ⟨rfl, hstate, hlt', hlog⟩
    · obtain ⟨hle', hlt', hstate, hlog⟩ := h.worker i seq' hi
      rw [hother seq' hne hle' (h.in_window hle' (hlt'.trans_le h.pending)).2]
      exact ⟨hle', hlt'.trans_le hpending.1, hstate, fun hdec => hlog (hdone seq' hdec hne)⟩
    · rw [hself]
      exact ⟨hle, hlt', hstate, hlog⟩
  · intro i j seq' hi hj
    rcases hworker i seq' hi with ⟨hne, hi'⟩ | ⟨rfl, -⟩
    · rcases hworker j seq' hj with ⟨-, hj'⟩ | ⟨heq, -⟩
      · exact h.apart i j seq' hi' hj'
      · exact absurd heq hne
    · exact hapart i j hi hj
  · intro seq' hdec
    by_cases heq : seq' = seq
    · rw [heq] at hdec ⊢
      exact hlogged hdec
    · exact (h.logged seq' (hdone seq' hdec heq)).trans_le hpending.1

/-- A worker takes the next frame. -/
theorem takeFrame (h : PinRing ringN items p) {i : Nat} (hi : p.workers i = none) :
    PinRing ringN items (p.takeFrame ringN i) := by
  have hstart : max p.pending p.consumed ≤ p.nextPending ringN := Pin.le_skipPending _ _
  have hend : p.nextPending ringN ≤ p.produced := Pin.skipPending_le _ _ (max_le h.pending h.lower)
  have hnew : p.pending ≤ p.nextPending ringN := (le_max_left _ _).trans hstart
  have hpassed : ∀ seq, p.consumed ≤ seq → seq < p.produced → (p.slot ringN seq).state = .toDecompress →
      p.nextPending ringN ≤ seq := by
    intro seq hle hlt hstate
    by_contra hnot
    have hmax : max p.pending p.consumed ≤ seq := max_le (h.waiting seq hle hlt hstate) hle
    exact Pin.skipPending_passed _ _ hmax (Nat.lt_of_not_le hnot) hstate
  by_cases hlt : p.nextPending ringN < p.produced
  · have hle : p.consumed ≤ p.nextPending ringN := (le_max_right _ _).trans hstart
    have hstops : (p.slot ringN (p.nextPending ringN)).state = .toDecompress :=
      Pin.skipPending_stops _ _ (by omega) hlt
    obtain ⟨item, hitem, hholds⟩ := h.exists_item hle hlt
    obtain ⟨f, rfl, hsrc⟩ := hholds.src (.inl hstops)
    have hfree : ∀ j, p.workers j ≠ some (p.nextPending ringN) := by
      intro j hj
      exact absurd ((h.worker j _ hj).2.1.trans_le hnew) (lt_irrefl _)
    rw [show p.takeFrame ringN i = _ from if_pos hlt]
    refine h.work hle hlt ?_ (by simp) ?_ ⟨hnew.trans (Nat.le_succ _), hlt⟩ ?_ ?_ ?_ ?_ (fun _ hdec _ => hdec) ?_ h.once
    · intro item' hitem'
      cases Option.some.inj (hitem.symm.trans hitem')
      exact .inl ⟨.inr rfl, hsrc⟩
    · intro _
      exact ⟨i, Function.update_self ..⟩
    · intro seq' hle' hlt' hne hstate
      exact Nat.lt_of_le_of_ne (hpassed seq' hle' hlt' hstate) hne.symm
    · intro j seq' hne hj
      have hij : j ≠ i := by
        rintro rfl
        cases hi.symm.trans hj
      rw [Function.update_of_ne hij]
      exact hj
    · intro j seq' hj
      by_cases hij : j = i
      · rw [hij, Function.update_self] at hj
        exact .inr ⟨(Option.some.inj hj).symm, rfl, Nat.lt_succ_self _,
          fun hdec => absurd ((h.logged _ hdec).trans_le hnew) (lt_irrefl _)⟩
      · rw [Function.update_of_ne hij] at hj
        refine .inl ⟨?_, hj⟩
        rintro rfl
        exact hfree j hj
    · intro j k hj hk
      have hall : ∀ j, Function.update p.workers i (some (p.nextPending ringN)) j = some (p.nextPending ringN) → j = i := by
        intro j hj
        by_contra hij
        rw [Function.update_of_ne hij] at hj
        exact hfree j hj
      rw [hall j hj, hall k hk]
    · intro hdec
      exact (h.logged _ hdec).trans_le (hnew.trans (Nat.le_succ _))
  · rw [show p.takeFrame ringN i = _ from if_neg hlt]
    refine { h with waiting := ?_, pending := hend, worker := ?_, logged := ?_ }
    · intro seq hle hlt' hstate
      exact hpassed seq hle hlt' hstate
    · intro j seq hj
      obtain ⟨hle, hlt', hrest⟩ := h.worker j seq hj
      exact ⟨hle, hlt'.trans_le hnew, hrest⟩
    · intro seq hdec
      exact (h.logged seq hdec).trans_le hnew

/-- A worker writes into the slot that it has. -/
theorem scribbleOut (h : PinRing ringN items p) {i : Nat} (hi : p.workers i = some seq) (out : List Byte) :
    PinRing ringN items (p.setSlot ringN seq { p.slot ringN seq with out }) := by
  obtain ⟨hle, hlt, hstate, hlog⟩ := h.worker i seq hi
  obtain ⟨item, hitem, hholds⟩ := h.exists_item hle (hlt.trans_le h.pending)
  obtain ⟨f, rfl, hsrc⟩ := hholds.src (.inr hstate)
  refine h.work hle (hlt.trans_le h.pending) ?_ ?_ (fun _ => ⟨i, hi⟩) ⟨le_rfl, h.pending⟩
    (fun seq' hle' hlt' _ => h.waiting seq' hle' hlt') (fun _ _ _ hj => hj) ?_ (fun j k => h.apart j k seq)
    (fun _ hdec _ => hdec) (h.logged seq) h.once
  · intro item' hitem'
    cases Option.some.inj (hitem.symm.trans hitem')
    exact .inl ⟨.inr hstate, hsrc⟩
  · rw [hstate]
    decide
  · intro j seq' hj
    by_cases heq : seq' = seq
    · exact .inr ⟨heq, hstate, hlt, hlog⟩
    · exact .inl ⟨heq, hj⟩

/-- A worker ends the decompression of the frame that it has. -/
theorem finishFrame (h : PinRing ringN items p) {i : Nat} (hi : p.workers i = some seq) (context : Bool) (out : List Byte) :
    PinRing ringN items (p.finishFrame ringN i seq context out) := by
  obtain ⟨hle, hlt, hstate, hlog⟩ := h.worker i seq hi
  obtain ⟨item, hitem, hholds⟩ := h.exists_item hle (hlt.trans_le h.pending)
  obtain ⟨f, rfl, hsrc⟩ := hholds.src (.inr hstate)
  have hone : ∀ j, Function.update p.workers i none j ≠ some seq := by
    intro j hj
    by_cases hij : j = i
    · rw [hij, Function.update_self] at hj
      cases hj
    · rw [Function.update_of_ne hij] at hj
      exact hij (h.apart j i seq hj hi)
  obtain ⟨hdecompressed, hended⟩ := PinItem.holds_decompress hsrc context out
  refine h.work hle (hlt.trans_le h.pending) ?_ ?_ ?_ ⟨le_rfl, h.pending⟩
    (fun seq' hle' hlt' _ => h.waiting seq' hle' hlt') ?_ ?_ ?_ ?_ (fun _ => hlt) (List.nodup_cons.mpr ⟨hlog, h.once⟩)
  · intro item' hitem'
    cases Option.some.inj (hitem.symm.trans hitem')
    exact hdecompressed
  · rcases hended with hended | hended <;> simp [hended]
  · intro hprogress
    rcases hended with hended | hended <;> cases hended.symm.trans hprogress
  · intro j seq' hne hj
    have hij : j ≠ i := by
      rintro rfl
      exact hne (Option.some.inj (hj.symm.trans hi))
    rw [Function.update_of_ne hij]
    exact hj
  · intro j seq' hj
    by_cases hij : j = i
    · rw [hij, Function.update_self] at hj
      cases hj
    · refine .inl ⟨?_, by rwa [Function.update_of_ne hij] at hj⟩
      rintro rfl
      exact hone j hj
  · intro j k hj
    exact absurd hj (hone j)
  · intro seq' hdec hne
    exact (List.mem_cons.mp hdec).resolve_left hne

/-- The reader gives back the slot that it has read in full. -/
theorem release (h : PinRing ringN items p) (hlt : p.consumed < p.produced)
    (hready : (p.slot ringN p.consumed).state = .ready) (pos : Nat) (reader : PinReader) :
    PinRing ringN items
      { p.setSlot ringN p.consumed { p.slot ringN p.consumed with state := .free } with
        consumed := p.consumed + 1, pos, reader } := by
  have hseq := h.in_window le_rfl hlt
  have hother : ∀ seq, p.consumed < seq → seq < p.consumed + ringN →
      (p.setSlot ringN p.consumed { p.slot ringN p.consumed with state := .free }).slot ringN seq = p.slot ringN seq := by
    intro seq hle' hlt'
    exact Pin.slot_setSlot_window hle'.ne' hseq ⟨hle'.le, hlt'⟩
  have hlast : (p.setSlot ringN p.consumed { p.slot ringN p.consumed with state := .free }).slot ringN
      (p.consumed + ringN) = { p.slot ringN p.consumed with state := .free } := by
    simp [Pin.slot, Pin.setSlot]
  refine
    { h with
      lower := hlt, upper := ?_, room := ?_, holds := ?_, free := ?_, waiting := ?_, busy := ?_, worker := ?_ }
  · exact h.upper.trans (by simp only; omega)
  · intro hworking
    exact (h.room hworking).trans_le (by simp only; omega)
  · intro seq item hle hitem
    change item.Holds ((p.setSlot ringN p.consumed _).slot ringN seq)
    have hle' : p.consumed < seq := hle
    rw [hother seq hle' (h.in_window hle'.le (h.item_lt hitem)).2]
    exact h.holds seq item hle'.le hitem
  · intro seq hle hlt'
    change ((p.setSlot ringN p.consumed _).slot ringN seq).state = _
    have hle' : p.produced ≤ seq := hle
    rcases Nat.lt_or_ge seq (p.consumed + ringN) with hin | hover
    · rw [hother seq (hlt.trans_le hle') hin]
      exact h.free seq hle' hin
    · have hseq' : seq = p.consumed + ringN := by
        simp only at hlt'
        omega
      rw [hseq', hlast]
  · intro seq hle hlt' hstate
    have hle' : p.consumed < seq := hle
    change ((p.setSlot ringN p.consumed _).slot ringN seq).state = _ at hstate
    rw [hother seq hle' (h.in_window hle'.le hlt').2] at hstate
    exact h.waiting seq hle'.le hlt' hstate
  · intro seq hle hlt' hstate
    have hle' : p.consumed < seq := hle
    change ((p.setSlot ringN p.consumed _).slot ringN seq).state = _ at hstate
    rw [hother seq hle' (h.in_window hle'.le hlt').2] at hstate
    exact h.busy seq hle'.le hlt' hstate
  · intro i seq hi
    obtain ⟨hle, hlt', hstate, hlog⟩ := h.worker i seq hi
    have hne : p.consumed < seq := by
      rcases hle.eq_or_lt with rfl | hlt''
      · cases hready.symm.trans hstate
      · exact hlt''
    refine ⟨hne, hlt', ?_, hlog⟩
    change ((p.setSlot ringN p.consumed _).slot ringN seq).state = _
    rw [hother seq hne (h.in_window hle (hlt'.trans_le h.pending)).2]
    exact hstate

end PinRing
