-- SUMMARY: The RAM tier: stacks of numbered blocks, the mark of a pass, and the transfer of blocks to disk.
import EternityII.Spill.Growth

/-!
# The RAM tier

Between the lists and the disk, each pool and file has a stack of blocks. A block is what a frame
on disk is: some records, packed. Blocks are numbered as they are stacked, and a pass marks the
number of the top block when it begins, so that the first block above the mark is known at once.
Blocks go to disk as they are, from the bottom or from the mark.
-/

/-! ## Stacks of blocks -/

/-- `stock_tier_block_t`. -/
structure TierBlock where
  seq : Nat
  frame : StoredFrame
  valid : frame.Valid

/-- The first block above a mark. -/
def firstAbove (markSeq : Nat) (blocks : List TierBlock) : Option Nat :=
  (blocks.find? fun b => decide (markSeq < b.seq)).map TierBlock.seq

/-- `stock_tier_stack_t`, the blocks from the bottom to the top; `aboveMark` is the number of the
block it points to. -/
structure TierStack where
  blocks : List TierBlock
  lastSeq : Nat
  markSeq : Nat
  aboveMark : Option Nat
  ordered : blocks.Pairwise fun a b => a.seq < b.seq
  numbered : ∀ b ∈ blocks, 0 < b.seq ∧ b.seq ≤ lastSeq
  marked : aboveMark = firstAbove markSeq blocks

section Blocks

variable {blocks pre post : List TierBlock} {b : TierBlock} {markSeq seq : Nat}

theorem firstAbove_append_of_le (h : ∀ b ∈ pre, b.seq ≤ markSeq) :
    firstAbove markSeq (pre ++ post) = firstAbove markSeq post := by
  unfold firstAbove
  rw [List.find?_append, List.find?_eq_none.mpr fun b hb => by simpa using h b hb, Option.none_or]

theorem firstAbove_append_of_lt (hb : b ∈ pre) (hlt : markSeq < b.seq) :
    firstAbove markSeq (pre ++ post) = firstAbove markSeq pre := by
  unfold firstAbove
  rw [List.find?_append]
  have hsome : (pre.find? fun b => decide (markSeq < b.seq)).isSome :=
    List.find?_isSome.mpr ⟨b, hb, decide_eq_true hlt⟩
  obtain ⟨a, ha⟩ := Option.isSome_iff_exists.mp hsome
  rw [ha, Option.some_or]

theorem firstAbove_eq_head (h : ∀ b ∈ blocks, markSeq < b.seq) :
    firstAbove markSeq blocks = blocks.head?.map TierBlock.seq := by
  unfold firstAbove
  cases blocks with
  | nil => rfl
  | cons b blocks => simp [h b List.mem_cons_self]

theorem firstAbove_eq_none : firstAbove markSeq blocks = none ↔ ∀ b ∈ blocks, b.seq ≤ markSeq := by
  simp [firstAbove]

theorem firstAbove_eq_some (h : firstAbove markSeq blocks = some seq) :
    ∃ pre b post, blocks = pre ++ b :: post ∧ b.seq = seq ∧ markSeq < seq ∧ ∀ a ∈ pre, a.seq ≤ markSeq := by
  obtain ⟨b, hb, rfl⟩ := Option.map_eq_some_iff.mp h
  obtain ⟨hlt, pre, post, rfl, hpre⟩ := List.find?_eq_some_iff_append.mp hb
  exact ⟨pre, b, post, rfl, rfl, by simpa using hlt, fun a ha => by simpa using hpre a ha⟩

/-- A block taken out by its number. -/
def eraseSeq (seq : Nat) (blocks : List TierBlock) : List TierBlock := blocks.eraseP fun b => decide (b.seq = seq)

/-- The block over one, by number. -/
def seqOver (seq : Nat) (blocks : List TierBlock) : Option Nat :=
  ((blocks.dropWhile fun b => decide (b.seq ≠ seq)).drop 1).head?.map TierBlock.seq

theorem split_of_seq (hordered : (pre ++ b :: post).Pairwise fun a b => a.seq < b.seq) :
    (∀ a ∈ pre, a.seq < b.seq) ∧ ∀ a ∈ post, b.seq < a.seq := by
  rw [List.pairwise_append, List.pairwise_cons] at hordered
  exact ⟨fun a ha => hordered.2.2 a ha b List.mem_cons_self, hordered.2.1.1⟩

theorem eraseSeq_split (hordered : (pre ++ b :: post).Pairwise fun a b => a.seq < b.seq) :
    eraseSeq b.seq (pre ++ b :: post) = pre ++ post := by
  obtain ⟨hpre, -⟩ := split_of_seq hordered
  unfold eraseSeq
  rw [List.eraseP_append_right _ fun a ha => by simpa using Nat.ne_of_lt (hpre a ha),
    List.eraseP_cons_of_pos (by simp)]

theorem dropWhile_split (hordered : (pre ++ b :: post).Pairwise fun a b => a.seq < b.seq) :
    (pre ++ b :: post).dropWhile (fun a => decide (a.seq ≠ b.seq)) = b :: post := by
  obtain ⟨hpre, -⟩ := split_of_seq hordered
  rw [List.dropWhile_append_of_pos fun a ha => by simpa using Nat.ne_of_lt (hpre a ha),
    List.dropWhile_cons_of_neg (by simp)]

theorem seqOver_split (hordered : (pre ++ b :: post).Pairwise fun a b => a.seq < b.seq) :
    seqOver b.seq (pre ++ b :: post) = post.head?.map TierBlock.seq := by
  unfold seqOver
  rw [dropWhile_split hordered]
  rfl

end Blocks

namespace TierStack

/-- An empty stack: `stock_tier_stack_init`. -/
def init : TierStack where
  blocks := []
  lastSeq := 0
  markSeq := 0
  aboveMark := none
  ordered := List.Pairwise.nil
  numbered _ hb := absurd hb List.not_mem_nil
  marked := rfl

/-- `stock_tier_link`. -/
def link (stack : TierStack) (frame : StoredFrame) (valid : frame.Valid) : TierStack where
  blocks := stack.blocks ++ [⟨stack.lastSeq + 1, frame, valid⟩]
  lastSeq := stack.lastSeq + 1
  markSeq := stack.markSeq
  aboveMark :=
    if stack.aboveMark = none ∧ stack.lastSeq + 1 > stack.markSeq then some (stack.lastSeq + 1)
    else stack.aboveMark
  ordered := by
    rw [List.pairwise_append]
    refine ⟨stack.ordered, List.pairwise_singleton _ _, fun a ha b hb => ?_⟩
    obtain rfl := List.mem_singleton.mp hb
    exact Nat.lt_succ_of_le (stack.numbered a ha).2
  numbered b hb := by
    rcases List.mem_append.mp hb with hb | hb
    · exact ⟨(stack.numbered b hb).1, Nat.le_succ_of_le (stack.numbered b hb).2⟩
    · obtain rfl := List.mem_singleton.mp hb
      exact ⟨Nat.succ_pos _, Nat.le_refl _⟩
  marked := by
    rw [stack.marked]
    cases habove : firstAbove stack.markSeq stack.blocks with
    | none =>
      rw [firstAbove_append_of_le (firstAbove_eq_none.mp habove)]
      split
      · rename_i hlt
        rw [firstAbove_eq_head fun b hb => by rw [List.mem_singleton.mp hb]; exact hlt.2]
        rfl
      · rename_i hle
        refine (firstAbove_eq_none.mpr fun b hb => ?_).symm
        rw [List.mem_singleton.mp hb]
        exact Nat.le_of_not_lt fun hlt => hle ⟨rfl, hlt⟩
    | some seq =>
      obtain ⟨pre, b, post, hblocks, hb, hlt, -⟩ := firstAbove_eq_some habove
      rw [if_neg (by simp), firstAbove_append_of_lt (b := b) (by rw [hblocks]; simp) (by rw [hb]; exact hlt), habove]

/-- `stock_tier_remove`. -/
def remove (stack : TierStack) (seq : Nat) : TierStack where
  blocks := eraseSeq seq stack.blocks
  lastSeq := stack.lastSeq
  markSeq := stack.markSeq
  aboveMark := if stack.aboveMark = some seq then seqOver seq stack.blocks else stack.aboveMark
  ordered := stack.ordered.sublist List.eraseP_sublist
  numbered b hb := stack.numbered b (List.mem_of_mem_eraseP hb)
  marked := by
    have hordered := stack.ordered
    rw [stack.marked]
    by_cases hmem : ∃ b ∈ stack.blocks, b.seq = seq
    · obtain ⟨b, hb, rfl⟩ := hmem
      obtain ⟨pre, post, hblocks⟩ := List.append_of_mem hb
      rw [hblocks] at hordered ⊢
      obtain ⟨hpre, hpost⟩ := split_of_seq hordered
      rw [eraseSeq_split hordered, seqOver_split hordered]
      by_cases hlow : ∃ a ∈ pre, stack.markSeq < a.seq
      · obtain ⟨a, ha, hlt⟩ := hlow
        rw [firstAbove_append_of_lt ha hlt, firstAbove_append_of_lt ha hlt, if_neg]
        intro heq
        obtain ⟨_, a', _, hpre', heq', -⟩ := firstAbove_eq_some heq
        have := hpre a' (by rw [hpre']; simp)
        omega
      · have hle : ∀ a ∈ pre, a.seq ≤ stack.markSeq := fun a ha => Nat.le_of_not_lt fun hlt => hlow ⟨a, ha, hlt⟩
        rw [firstAbove_append_of_le hle, firstAbove_append_of_le hle]
        by_cases hmark : stack.markSeq < b.seq
        · have hover : ∀ a ∈ post, stack.markSeq < a.seq := fun a ha => Nat.lt_trans hmark (hpost a ha)
          have hall : ∀ a ∈ b :: post, stack.markSeq < a.seq := List.forall_mem_cons.mpr ⟨hmark, hover⟩
          rw [firstAbove_eq_head hall, if_pos (by rfl), firstAbove_eq_head hover]
        · have hcons : firstAbove stack.markSeq (b :: post) = firstAbove stack.markSeq post :=
            @firstAbove_append_of_le [b] post stack.markSeq fun a ha => by
              rw [List.mem_singleton.mp ha]
              exact Nat.le_of_not_lt hmark
          rw [hcons, if_neg]
          intro heq
          obtain ⟨_, a', _, -, heq', hlt, -⟩ := firstAbove_eq_some heq
          exact hmark hlt
    · have hsame : eraseSeq seq stack.blocks = stack.blocks :=
        List.eraseP_of_forall_not fun b hb => by simpa using fun heq => hmem ⟨b, hb, heq⟩
      rw [hsame, if_neg]
      intro heq
      obtain ⟨_, b, _, hblocks, hb, -⟩ := firstAbove_eq_some heq
      exact hmem ⟨b, by rw [hblocks]; simp, hb⟩

/-- The loop of `stock_tier_set_mark`, from the top down. -/
def setMarkLoop (seq : Nat) : List TierBlock → Option Nat → Option Nat
  | [], first => first
  | b :: blocks, first => if b.seq > seq then setMarkLoop seq blocks (some b.seq) else first

theorem setMarkLoop_eq {seq : Nat} {blocks above : List TierBlock}
    (hordered : (blocks ++ above).Pairwise fun a b => a.seq < b.seq) (habove : ∀ b ∈ above, seq < b.seq) :
    setMarkLoop seq blocks.reverse (above.head?.map TierBlock.seq) = firstAbove seq (blocks ++ above) := by
  induction blocks using List.reverseRecOn generalizing above with
  | nil => exact (firstAbove_eq_head habove).symm
  | append_singleton blocks b ih =>
    rw [List.reverse_append, List.reverse_singleton, List.singleton_append, setMarkLoop]
    rw [List.append_assoc, List.singleton_append] at hordered ⊢
    split
    · rename_i hgt
      refine ih hordered fun a ha => ?_
      rcases List.mem_cons.mp ha with rfl | ha
      · exact hgt
      · exact habove a ha
    · rename_i hle
      have hpre := (split_of_seq hordered).1
      rw [firstAbove_append_of_le fun a ha => Nat.le_trans (Nat.le_of_lt (hpre a ha)) (Nat.le_of_not_lt hle),
        ← List.singleton_append, firstAbove_append_of_le fun a ha => by
          rw [List.mem_singleton.mp ha]
          exact Nat.le_of_not_lt hle, firstAbove_eq_head habove]

/-- `stock_tier_set_mark`. -/
def setMark (stack : TierStack) (seq : Nat) : TierStack where
  blocks := stack.blocks
  lastSeq := stack.lastSeq
  markSeq := seq
  aboveMark := setMarkLoop seq stack.blocks.reverse none
  ordered := stack.ordered
  numbered := stack.numbered
  marked := by
    have habove : ∀ b ∈ ([] : List TierBlock), seq < b.seq := fun b hb => absurd hb List.not_mem_nil
    have := setMarkLoop_eq (by simpa using stack.ordered) habove
    rwa [List.append_nil] at this

/-- The frames of a stack, from the bottom to the top. -/
def frames (stack : TierStack) : List StoredFrame := stack.blocks.map TierBlock.frame

end TierStack

/-! ## From the tier to disk -/

/-- `TIER_DISK_BATCH_BLOCKS`. -/
def tierDiskBatchBlocks : Nat := 64

/-- `tier_disk_candidate`: the number of the block. -/
def tierDiskCandidate (isChecked expandActive allowPrepass : Bool) (stack : TierStack) : Option Nat :=
  if isChecked || !expandActive || allowPrepass then stack.blocks.head?.map TierBlock.seq else stack.aboveMark

/-- The blocks of a batch, from a candidate on: no more than there is room for, and none once they
have the records asked for. -/
def tierDiskBatch : Nat → Nat → List TierBlock → List TierBlock
  | room + 1, wanted, b :: blocks =>
    if wanted = 0 then [] else b :: tierDiskBatch room (wanted - b.frame.info.records) blocks
  | _, _, _ => []

/-- A round of `tier_to_disk`, which asks for `wanted` records still: the spill, the stack, and how
many blocks went. -/
def tierToDisk (s : Spill) (stack : TierStack) (isChecked : Bool) (file : Nat) (expandActive allowPrepass : Bool)
    (wanted : Nat) (env : AppendEnv) : Spill × TierStack × Nat :=
  match tierDiskCandidate isChecked expandActive allowPrepass stack with
  | none => (s, stack, 0)
  | some seq =>
    let batch := tierDiskBatch tierDiskBatchBlocks wanted (stack.blocks.dropWhile fun b => decide (b.seq ≠ seq))
    let r := spillAppendFrames s.fs isChecked file (s.desc isChecked file) s.segmentRecords
      (batch.map TierBlock.frame) env
    (s.put isChecked file r.1 r.2.1, (batch.take r.2.2).foldl (fun st b => st.remove b.seq) stack, r.2.2)

section ToDisk

variable {stack : TierStack} {pre post gone blocks : List TierBlock} {b : TierBlock} {seq : Nat}

theorem tierDiskBatch_prefix (room wanted : Nat) (blocks : List TierBlock) :
    tierDiskBatch room wanted blocks <+: blocks := by
  induction room generalizing wanted blocks with
  | zero => exact List.nil_prefix
  | succ room ih =>
    cases blocks with
    | nil => exact List.nil_prefix
    | cons b blocks =>
      rw [tierDiskBatch]
      split
      · exact List.nil_prefix
      · exact List.cons_prefix_cons.mpr ⟨rfl, ih _ _⟩

/-- Blocks taken out one by one. -/
theorem foldl_remove (h : stack.blocks = pre ++ gone ++ post) :
    (gone.foldl (fun st b => st.remove b.seq) stack).blocks = pre ++ post ∧
      (gone.foldl (fun st b => st.remove b.seq) stack).lastSeq = stack.lastSeq ∧
      (gone.foldl (fun st b => st.remove b.seq) stack).markSeq = stack.markSeq := by
  induction gone generalizing stack with
  | nil => exact ⟨by simpa using h, rfl, rfl⟩
  | cons b gone ih =>
    have hordered := stack.ordered
    rw [h, List.append_assoc, List.cons_append] at hordered
    have hnext : (stack.remove b.seq).blocks = pre ++ gone ++ post := by
      show eraseSeq b.seq stack.blocks = _
      rw [h, List.append_assoc, List.cons_append, eraseSeq_split hordered, List.append_assoc]
    exact ih hnext

/-- A candidate is a block: the lowest one that may go. -/
theorem tierDiskCandidate_spec {isChecked expandActive allowPrepass : Bool}
    (h : tierDiskCandidate isChecked expandActive allowPrepass stack = some seq) :
    ∃ pre blocks, stack.blocks = pre ++ blocks ∧
      (stack.blocks.dropWhile fun b => decide (b.seq ≠ seq)) = blocks ∧
      (isChecked = false → expandActive = true → allowPrepass = false → ∀ b ∈ blocks, stack.markSeq < b.seq) := by
  have hordered := stack.ordered
  unfold tierDiskCandidate at h
  split at h
  · rename_i hany
    obtain ⟨b, hb, rfl⟩ := Option.map_eq_some_iff.mp h
    obtain ⟨post, hblocks⟩ := List.head?_eq_some_iff.mp hb
    refine ⟨[], stack.blocks, rfl, ?_, fun hc he hp => ?_⟩
    · rw [hblocks] at hordered ⊢
      rw [← List.nil_append (b :: post)] at hordered ⊢
      exact dropWhile_split hordered
    · rw [hc, he, hp] at hany
      exact absurd hany (by decide)
  · rw [stack.marked] at h
    obtain ⟨pre, b, post, hblocks, rfl, hlt, -⟩ := firstAbove_eq_some h
    rw [hblocks] at hordered ⊢
    refine ⟨pre, b :: post, rfl, dropWhile_split hordered, fun _ _ _ a ha => ?_⟩
    rcases List.mem_cons.mp ha with rfl | ha
    · exact hlt
    · exact Nat.lt_trans hlt ((split_of_seq hordered).2 a ha)

/-- A round moves blocks from the stack to the top of the one on disk. -/
structure TierMoved (s : Spill) (segs : StackId → List (List StoredFrame)) (stack : TierStack) (c : Bool) (f : Nat)
    (r : Spill × TierStack × Nat) (pre gone post : List TierBlock) (segs' : List (List StoredFrame)) : Prop where
  blocks : stack.blocks = pre ++ gone ++ post
  left : r.2.1.blocks = pre ++ post
  lastSeq : r.2.1.lastSeq = stack.lastSeq
  markSeq : r.2.1.markSeq = stack.markSeq
  count : r.2.2 = gone.length
  grown : Grown (segs (c, f)) segs' (gone.map TierBlock.frame)
  desc : DescAbove (s.desc c f) (r.1.desc c f)
  others : ∀ c' f', ¬ (c' = c ∧ f' = f) → r.1.desc c' f' = s.desc c' f'
  none : r.2.2 = 0 → r.1.desc c f = s.desc c f
  config : r.1.nbFiles = s.nbFiles ∧ r.1.segmentRecords = s.segmentRecords ∧ r.1.generation = s.generation
  segs : SpillSegs r.1 (Function.update segs (c, f) segs')

theorem tierToDisk_spec {s : Spill} {segs : StackId → List (List StoredFrame)} (h : SpillSegs s segs) (stack : TierStack)
    (c : Bool) (f : Nat) (expandActive allowPrepass : Bool) (wanted : Nat) (env : AppendEnv) :
    ∃ pre gone post segs', TierMoved s segs stack c f
        (tierToDisk s stack c f expandActive allowPrepass wanted env) pre gone post segs' ∧
      (c = false → expandActive = true → allowPrepass = false → ∀ b ∈ gone, stack.markSeq < b.seq) := by
  unfold tierToDisk
  cases hcandidate : tierDiskCandidate c expandActive allowPrepass stack with
  | none =>
    refine ⟨stack.blocks, [], [], segs (c, f), ⟨by simp, by simp, rfl, rfl, rfl, ⟨by simp, fun lower top heq =>
      ⟨[], [], by rw [heq, List.append_nil]⟩⟩, .refl _, fun _ _ _ => rfl, fun _ => rfl, ⟨rfl, rfl, rfl⟩, ?_⟩,
      fun _ _ _ b hb => absurd hb List.not_mem_nil⟩
    rw [Function.update_eq_self]
    exact h
  | some seq =>
    obtain ⟨pre, blocks, hblocks, hdrop, habove⟩ := tierDiskCandidate_spec hcandidate
    dsimp only
    rw [hdrop]
    obtain ⟨rest, hrest⟩ := tierDiskBatch_prefix tierDiskBatchBlocks wanted blocks
    generalize tierDiskBatch tierDiskBatchBlocks wanted blocks = batch at hrest
    have hvalid : ∀ fr ∈ batch.map TierBlock.frame, fr.Valid := by
      intro fr hfr
      obtain ⟨b, -, rfl⟩ := List.mem_map.mp hfr
      exact b.valid
    obtain ⟨segs', hgrown, hle, hdesc, hzero, hsegs⟩ := h.append c f hvalid env
    generalize spillAppendFrames s.fs c f (s.desc c f) s.segmentRecords (batch.map TierBlock.frame) env = r
      at hgrown hle hdesc hzero hsegs
    rw [List.length_map] at hle
    rw [← List.map_take] at hgrown
    have hsplit : stack.blocks = pre ++ batch.take r.2.2 ++ (batch.drop r.2.2 ++ rest) := by
      rw [hblocks, ← hrest]
      simp only [List.append_assoc, List.append_cancel_left_eq]
      rw [← List.append_assoc, List.take_append_drop]
    obtain ⟨hleft, hlast, hmark⟩ := foldl_remove hsplit
    refine ⟨pre, batch.take r.2.2, batch.drop r.2.2 ++ rest, segs', ⟨hsplit, hleft, hlast, hmark, ?_, hgrown, ?_,
      fun c' f' hne => Spill.put_desc_of_ne hne, fun hnone => ?_, ⟨rfl, rfl, rfl⟩, hsegs⟩, fun hc he hp b hb => ?_⟩
    · rw [List.length_take, Nat.min_eq_left hle]
    · rw [Spill.put_desc_self]
      exact hdesc
    · rw [Spill.put_desc_self]
      exact hzero hnone
    · refine habove hc he hp b ?_
      rw [← hrest]
      exact List.mem_append_left _ (List.mem_of_mem_take hb)

end ToDisk
