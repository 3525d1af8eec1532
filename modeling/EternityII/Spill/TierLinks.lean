-- SUMMARY: A stack of the RAM tier as it lies in memory: its links, its counters and its mark along any run.
import EternityII.Base.LinkedList
import EternityII.Spill.TierCounts

/-!
# A stack in memory

The blocks of a stack are linked below and above, and the stack points to its bottom, to its top and
to the lowest block above the mark. Each call is a step of the stack of numbered blocks that the tier
is described with, and keeps four things: the links are those of one list, its numbers grow, the
counters are sums over it, and the mark points where it says.
-/

/-! ## The stack -/

/-- `stock_tier_stack_t`, with the blocks in memory. The links back and forward of a block are its
`below` and `above`. -/
structure StockTierStack (ι : Type*) where
  links : Links ι
  seq : ι → Nat
  frame : ι → StoredFrame
  count : StackCount
  lastSeq : Nat
  markSeq : Nat
  aboveMark : Option ι

/-- A call on a stack. A block comes with its address, and `push` with what `malloc` gives. -/
inductive StockTierOp (ι : Type*) where
  | link (b : ι) (block : { fr : StoredFrame // fr.Valid })
  | push (raw : List Byte) (memory : Option ι)
  | popTop
  | popBottom
  | remove (block : Option ι)
  | setMark (seq : Nat)

namespace StockTierStack

variable {ι : Type*}

/-- `stock_tier_stack_init`, whatever is in memory. -/
def init (stack : StockTierStack ι) : StockTierStack ι :=
  { stack with
    links := { stack.links with first := none, last := none }
    count := ⟨0, 0, 0, 0⟩
    lastSeq := 0
    markSeq := 0
    aboveMark := none }

/-- The loop of `stock_tier_set_mark`, for at most so many blocks. -/
def setMarkLoop (stack : StockTierStack ι) (seq : Nat) : Nat → Option ι → Option ι → Option (Option ι)
  | _, none, first => some first
  | 0, some _, _ => none
  | n + 1, some b, first =>
    if stack.seq b > seq then setMarkLoop stack seq n (stack.links.previous b) (some b) else some first

/-- `stock_tier_set_mark`, which meets no more blocks than there are. -/
def setMark (stack : StockTierStack ι) (seq : Nat) : Option (StockTierStack ι) :=
  (stack.setMarkLoop seq stack.count.blocks stack.links.last none).map fun first =>
    { stack with markSeq := seq, aboveMark := first }

/-- The blocks, from the bottom to the top. -/
def addresses (stack : StockTierStack ι) : List ι := stack.links.walk stack.count.blocks

variable [DecidableEq ι]

/-- `stock_tier_link`. -/
def link (stack : StockTierStack ι) (b : ι) (block : { fr : StoredFrame // fr.Valid }) : StockTierStack ι × Int :=
  let seq := stack.lastSeq + 1
  ({ links := stack.links.append b
     seq := Function.update stack.seq b seq
     frame := Function.update stack.frame b block
     count := stack.count.link block
     lastSeq := seq
     markSeq := stack.markSeq
     aboveMark := if stack.aboveMark = none ∧ seq > stack.markSeq then some b else stack.aboveMark },
    block.val.info.records)

/-- `stock_tier_push`. -/
def push (P : Puzzle) (tier : TierCodec) (stack : StockTierStack ι) (raw : List Byte) (memory : Option ι) :
    StockTierStack ι × Int :=
  match stockTierBlockBuild P tier raw, memory with
  | some block, some b => stack.link b block
  | _, _ => (stack, -1)

/-- `stock_tier_unlink`. -/
def unlink (stack : StockTierStack ι) (b : ι) : StockTierStack ι :=
  { stack with
    links := stack.links.detach b
    count := stack.count.unlink (stack.frame b)
    aboveMark := if stack.aboveMark = some b then stack.links.next b else stack.aboveMark }

/-- `stock_tier_remove`; `none` is a null pointer. -/
def remove (stack : StockTierStack ι) (block : Option ι) : StockTierStack ι :=
  match block with
  | none => stack
  | some b => stack.unlink b

/-- `stock_tier_pop_top`. -/
def popTop (stack : StockTierStack ι) : StockTierStack ι :=
  match stack.links.last with
  | none => stack
  | some b => stack.unlink b

/-- `stock_tier_pop_bottom`. -/
def popBottom (stack : StockTierStack ι) : StockTierStack ι :=
  match stack.links.first with
  | none => stack
  | some b => stack.unlink b

/-- One call. -/
def step (P : Puzzle) (tier : TierCodec) (stack : StockTierStack ι) : StockTierOp ι → Option (StockTierStack ι)
  | .link b block => some (stack.link b block).1
  | .push raw memory => some (stack.push P tier raw memory).1
  | .popTop => some stack.popTop
  | .popBottom => some stack.popBottom
  | .remove block => some (stack.remove block)
  | .setMark seq => stack.setMark seq

omit [DecidableEq ι] in
/-- What is linked is not in the stack yet, and what is removed is in it. -/
def Allowed (stack : StockTierStack ι) : StockTierOp ι → Prop
  | .link b _ => b ∉ stack.addresses
  | .push _ (some b) => b ∉ stack.addresses
  | .remove (some b) => b ∈ stack.addresses
  | _ => True

instance (stack : StockTierStack ι) (op : StockTierOp ι) : Decidable (stack.Allowed op) :=
  match op with
  | .link b _ => inferInstanceAs (Decidable (b ∉ stack.addresses))
  | .push _ (some b) => inferInstanceAs (Decidable (b ∉ stack.addresses))
  | .push _ none => inferInstanceAs (Decidable True)
  | .popTop => inferInstanceAs (Decidable True)
  | .popBottom => inferInstanceAs (Decidable True)
  | .remove (some b) => inferInstanceAs (Decidable (b ∈ stack.addresses))
  | .remove none => inferInstanceAs (Decidable True)
  | .setMark _ => inferInstanceAs (Decidable True)

/-! ## What holds of a stack -/

omit [DecidableEq ι] in
/-- The links are those of a list of blocks whose numbers grow, the counters are sums over it, and the
mark points to the lowest of them that is above it. -/
structure Keeps (stack : StockTierStack ι) (l : List ι) : Prop where
  links : stack.links.Spells l
  increasing : l.Pairwise fun a b => stack.seq a < stack.seq b
  records : stack.count.records = (l.map fun b => (stack.frame b).info.records).sum
  bytes : stack.count.bytes = (l.map fun b => blockCost (stack.frame b)).sum
  rawBytes : stack.count.rawBytes = (l.map fun b => (stack.frame b).info.rawBytes).sum
  blocks : stack.count.blocks = l.length
  aboveMark : stack.aboveMark = l.find? fun b => decide (stack.markSeq < stack.seq b)

end StockTierStack

/-- The counters of some frames. -/
def StackCount.of (frames : List StoredFrame) : StackCount where
  records := (frames.map fun fr => fr.info.records).sum
  bytes := (frames.map blockCost).sum
  blocks := frames.length
  rawBytes := (frames.map fun fr => fr.info.rawBytes).sum

theorem StackCount.of_link (frames : List StoredFrame) (fr : StoredFrame) :
    (StackCount.of frames).link fr = StackCount.of (frames ++ [fr]) := by
  simp [StackCount.of, StackCount.link]

theorem StackCount.of_unlink (pre post : List StoredFrame) (fr : StoredFrame) :
    (StackCount.of (pre ++ fr :: post)).unlink fr = StackCount.of (pre ++ post) := by
  have hsub : ∀ a b c : Nat, subU64 (a + (b + c)) b = a + c := by
    intro a b c
    rw [Nat.add_left_comm, subU64_add_left]
  simp only [StackCount.of, StackCount.unlink, List.map_append, List.map_cons, List.sum_append, List.sum_cons,
    List.length_append, List.length_cons, hsub, StackCount.mk.injEq, true_and, and_true]
  rw [← Nat.add_assoc, subU64_add_right]

namespace StockTierStack

section Represents

variable {ι : Type*} {stack : StockTierStack ι} {l u v : List ι} {t : TierStack} {b : ι}

/-- The stack in memory is the one of numbered blocks. -/
structure Represents (stack : StockTierStack ι) (l : List ι) (t : TierStack) : Prop where
  links : stack.links.Spells l
  blocks : l.map (fun b => (stack.seq b, stack.frame b)) = t.blocks.map fun b => (b.seq, b.frame)
  count : stack.count = .of (l.map stack.frame)
  lastSeq : stack.lastSeq = t.lastSeq
  markSeq : stack.markSeq = t.markSeq
  aboveMark : stack.aboveMark.map stack.seq = t.aboveMark
  inside : ∀ b, stack.aboveMark = some b → b ∈ l

theorem Represents.seqs (h : stack.Represents l t) : l.map stack.seq = t.blocks.map TierBlock.seq := by
  have hfst := congrArg (List.map Prod.fst) h.blocks
  rwa [List.map_map, List.map_map] at hfst

theorem Represents.increasing (h : stack.Represents l t) : l.Pairwise fun a b => stack.seq a < stack.seq b := by
  rw [← List.pairwise_map (f := stack.seq) (R := (· < ·)), h.seqs, List.pairwise_map]
  exact t.ordered

/-- A number is that of one block. -/
theorem Represents.seq_inj (h : stack.Represents l t) {a b : ι} (ha : a ∈ l) (hb : b ∈ l)
    (heq : stack.seq a = stack.seq b) : a = b := by
  obtain ⟨u, v, rfl⟩ := List.append_of_mem hb
  have hincreasing := h.increasing
  rw [List.pairwise_append, List.pairwise_cons] at hincreasing
  rcases List.mem_append.mp ha with ha | ha
  · exact absurd heq (Nat.ne_of_lt (hincreasing.2.2 a ha b List.mem_cons_self))
  · rcases List.mem_cons.mp ha with rfl | ha
    · rfl
    · exact absurd heq (Nat.ne_of_gt (hincreasing.2.1.1 a ha))

theorem Represents.addresses_eq (h : stack.Represents l t) : stack.addresses = l := by
  unfold addresses
  rw [h.count]
  show stack.links.walk (l.map stack.frame).length = l
  rw [List.length_map]
  exact h.links.walk_eq

/-- What holds of the numbered blocks holds of the stack in memory. -/
theorem Represents.keeps (h : stack.Represents l t) : stack.Keeps l := by
  refine ⟨h.links, h.increasing, ?_, ?_, ?_, ?_, ?_⟩
  · simp [h.count, StackCount.of, Function.comp_def]
  · simp [h.count, StackCount.of, Function.comp_def]
  · simp [h.count, StackCount.of, Function.comp_def]
  · rw [h.count, StackCount.of, List.length_map]
  · have hmark := h.aboveMark
    have habove : t.aboveMark = ((l.find? fun b => decide (stack.markSeq < stack.seq b)).map stack.seq) := by
      have hfind := List.find?_map (p := fun seq => decide (t.markSeq < seq)) (f := stack.seq) (l := l)
      rw [t.marked, firstAbove, h.markSeq]
      rw [h.seqs, List.find?_map] at hfind
      exact hfind
    rw [habove] at hmark
    have hfound : ∀ b, (l.find? fun b => decide (stack.markSeq < stack.seq b)) = some b → b ∈ l :=
      fun b hb => List.mem_of_find?_eq_some hb
    have hinside := h.inside
    cases haddress : stack.aboveMark with
    | none =>
      rw [haddress] at hmark
      exact (Option.map_eq_none_iff.mp hmark.symm).symm
    | some a =>
      rw [haddress] at hmark hinside
      obtain ⟨b, hb, heq⟩ := Option.map_eq_some_iff.mp hmark.symm
      rw [hb, h.seq_inj (hinside a rfl) (hfound b hb) heq.symm]

theorem represents_init (stack : StockTierStack ι) : stack.init.Represents [] TierStack.init where
  links := ⟨List.nodup_nil, rfl, rfl, by simp, by simp⟩
  blocks := rfl
  count := rfl
  lastSeq := rfl
  markSeq := rfl
  aboveMark := rfl
  inside := nofun

/-- The loop from a block down, with what was found above it. -/
theorem setMarkLoop_eq (seq : Nat) (first : Option ι) {n : Nat} {pre : List TierBlock}
    (hprevious : ∀ u' b v', u = u' ++ b :: v' → stack.links.previous b = u'.getLast?)
    (hseq : u.map stack.seq = pre.map TierBlock.seq) (hn : u.length ≤ n) :
    ∃ r, stack.setMarkLoop seq n u.getLast? first = some r ∧
      r.map stack.seq = TierStack.setMarkLoop seq pre.reverse (first.map stack.seq) ∧ ∀ b, r = some b → b ∈ u ∨ first = some b := by
  induction u using List.reverseRecOn generalizing n first pre with
  | nil =>
    obtain rfl : pre = [] := List.map_eq_nil_iff.mp hseq.symm
    exact ⟨first, by cases n <;> rfl, rfl, fun b hb => .inr hb⟩
  | append_singleton u b ih =>
    rw [List.map_append, List.map_singleton, eq_comm, List.map_eq_append_iff] at hseq
    obtain ⟨pre, last, rfl, hpre, hlast⟩ := hseq
    obtain ⟨c, rfl, hc⟩ := List.map_eq_singleton_iff.mp hlast
    rw [List.length_append, List.length_singleton] at hn
    obtain ⟨n, rfl⟩ := Nat.exists_eq_add_of_le' (Nat.le_trans (Nat.le_add_left 1 _) hn)
    rw [List.getLast?_concat, setMarkLoop, List.reverse_append, List.reverse_singleton, List.singleton_append,
      TierStack.setMarkLoop, hc]
    by_cases hgt : stack.seq b > seq
    · rw [if_pos hgt, if_pos hgt, hprevious u b [] rfl]
      obtain ⟨r, hrun, hr, hinside⟩ := ih (some b)
        (fun u' x v' heq => hprevious u' x (v' ++ [b]) (by rw [heq, List.append_assoc, List.cons_append])) hpre.symm
        (Nat.le_of_succ_le_succ hn)
      refine ⟨r, hrun, hr, fun a ha => .inl ?_⟩
      rcases hinside a ha with hmem | heq
      · exact List.mem_append_left _ hmem
      · rw [← Option.some.inj heq]
        simp
    · rw [if_neg hgt, if_neg hgt]
      exact ⟨first, rfl, rfl, fun a ha => .inr ha⟩

/-- What `stock_tier_set_mark` does. -/
theorem Represents.setMark (h : stack.Represents l t) (seq : Nat) :
    ∃ stack', stack.setMark seq = some stack' ∧ stack'.Represents l (t.setMark seq) := by
  have hblocks : l.length ≤ stack.count.blocks := by rw [h.keeps.blocks]
  obtain ⟨r, hrun, hr, hinside⟩ := setMarkLoop_eq seq none (fun u b v => h.links.previous u b v) h.seqs hblocks
  refine ⟨{ stack with markSeq := seq, aboveMark := r }, ?_, h.links, h.blocks, h.count, h.lastSeq, rfl, hr, fun b hb => ?_⟩
  · unfold StockTierStack.setMark
    rw [h.links.last, hrun]
    rfl
  · rcases hinside b hb with hmem | hnone
    · exact hmem
    · exact absurd hnone (by simp)

variable [DecidableEq ι]

/-- What `stock_tier_link` does. -/
theorem Represents.link (h : stack.Represents l t) (hb : b ∉ l) (block : { fr : StoredFrame // fr.Valid }) :
    (stack.link b block).1.Represents (l ++ [b]) (t.link block.val block.property) := by
  have hne : ∀ x ∈ l, x ≠ b := fun x hx heq => hb (heq ▸ hx)
  have hframes : l.map (Function.update stack.frame b block) = l.map stack.frame :=
    List.map_congr_left fun x hx => Function.update_of_ne (hne x hx) ..
  refine ⟨h.links.append hb, ?_, ?_, congrArg (· + 1) h.lastSeq, h.markSeq, ?_, fun x hx => ?_⟩
  · have hsame : l.map (fun x => (Function.update stack.seq b (stack.lastSeq + 1) x, Function.update stack.frame b block x)) =
        l.map fun x => (stack.seq x, stack.frame x) :=
      List.map_congr_left fun x hx => by rw [Function.update_of_ne (hne x hx), Function.update_of_ne (hne x hx)]
    show (l ++ [b]).map (fun x => (Function.update stack.seq b (stack.lastSeq + 1) x, Function.update stack.frame b block x)) =
      (t.blocks ++ [(⟨t.lastSeq + 1, block.val, block.property⟩ : TierBlock)]).map fun b => (b.seq, b.frame)
    rw [List.map_append, List.map_append, hsame, h.blocks, List.map_singleton, List.map_singleton, Function.update_self,
      Function.update_self, h.lastSeq]
  · show stack.count.link block = .of ((l ++ [b]).map (Function.update stack.frame b block))
    rw [h.count, StackCount.of_link, List.map_append, hframes, List.map_singleton, Function.update_self]
  · have hmark := h.aboveMark
    show (if stack.aboveMark = none ∧ stack.lastSeq + 1 > stack.markSeq then some b else stack.aboveMark).map
        (Function.update stack.seq b (stack.lastSeq + 1)) =
      if t.aboveMark = none ∧ t.lastSeq + 1 > t.markSeq then some (t.lastSeq + 1) else t.aboveMark
    rw [h.lastSeq, h.markSeq]
    cases haddress : stack.aboveMark with
    | none =>
      rw [haddress] at hmark
      rw [← hmark]
      by_cases hgt : t.lastSeq + 1 > t.markSeq
      · rw [if_pos ⟨rfl, hgt⟩, if_pos ⟨rfl, hgt⟩, Option.map_some, Function.update_self]
      · rw [if_neg fun hand => hgt hand.2, if_neg fun hand => hgt hand.2]
        rfl
    | some a =>
      rw [haddress] at hmark
      rw [← hmark, if_neg (by simp), if_neg (by simp), Option.map_some, Option.map_some,
        Function.update_of_ne (hne a (h.inside a haddress))]
  · have hvalue : (if stack.aboveMark = none ∧ stack.lastSeq + 1 > stack.markSeq then some b else stack.aboveMark) = some x := hx
    split at hvalue
    · rw [← Option.some.inj hvalue]
      simp
    · exact List.mem_append_left _ (h.inside x hvalue)

/-- What `stock_tier_unlink` does. -/
theorem Represents.unlink (h : stack.Represents (u ++ b :: v) t) :
    (stack.unlink b).Represents (u ++ v) (t.remove (stack.seq b)) := by
  have hmem : b ∈ u ++ b :: v := by simp
  have hnext : stack.links.next b = v.head? := h.links.next u b v rfl
  have hblocks := h.blocks
  have hordered := t.ordered
  rw [List.map_append, List.map_cons, eq_comm, List.map_eq_append_iff] at hblocks
  obtain ⟨pre, rest, hsplit, hpre, hrest⟩ := hblocks
  obtain ⟨c, post, rfl, hc, hpost⟩ := List.map_eq_cons_iff.mp hrest
  have hseq : stack.seq b = c.seq := (congrArg Prod.fst hc).symm
  rw [hsplit] at hordered
  refine ⟨h.links.detach, ?_, ?_, h.lastSeq, h.markSeq, ?_, fun x hx => ?_⟩
  · show (u ++ v).map (fun b => (stack.seq b, stack.frame b)) = (eraseSeq (stack.seq b) t.blocks).map _
    rw [hsplit, hseq, eraseSeq_split hordered, List.map_append, List.map_append, hpre, hpost]
  · show stack.count.unlink (stack.frame b) = .of ((u ++ v).map stack.frame)
    rw [h.count, List.map_append, List.map_cons, StackCount.of_unlink, List.map_append]
  · show (if stack.aboveMark = some b then stack.links.next b else stack.aboveMark).map stack.seq =
      if t.aboveMark = some (stack.seq b) then seqOver (stack.seq b) t.blocks else t.aboveMark
    by_cases hmark : stack.aboveMark = some b
    · have habove := h.aboveMark
      rw [hmark, Option.map_some] at habove
      have hseqs := congrArg (fun l => (l.map Prod.fst).head?) hpost
      simp only [List.map_map, List.head?_map] at hseqs
      rw [if_pos hmark, if_pos habove.symm, hnext, hsplit, hseq, seqOver_split hordered]
      exact hseqs.symm
    · rw [if_neg hmark, h.aboveMark, if_neg]
      intro habove
      rw [← h.aboveMark] at habove
      obtain ⟨a, ha, heq⟩ := Option.map_eq_some_iff.mp habove
      rw [h.seq_inj (h.inside a ha) hmem heq] at ha
      exact hmark ha
  · have hvalue : (if stack.aboveMark = some b then stack.links.next b else stack.aboveMark) = some x := hx
    split at hvalue
    · rw [hnext] at hvalue
      exact List.mem_append_right _ (List.mem_of_head? hvalue)
    · rename_i hother
      have hx := h.inside x hvalue
      have hne : x ≠ b := fun heq => hother (heq ▸ hvalue)
      simpa [hne] using hx

/-- A block of the stack is taken out. -/
theorem Represents.unlink_mem (h : stack.Represents l t) (hb : b ∈ l) :
    ∃ l' t', (stack.unlink b).Represents l' t' := by
  obtain ⟨u, v, rfl⟩ := List.append_of_mem hb
  exact ⟨u ++ v, _, h.unlink⟩

/-- Every call that is allowed comes to an end, and its result is a stack of numbered blocks again. -/
theorem Represents.step (P : Puzzle) (tier : TierCodec) (h : stack.Represents l t) {op : StockTierOp ι}
    (hallowed : stack.Allowed op) : ∃ stack' l' t', stack.step P tier op = some stack' ∧ stack'.Represents l' t' := by
  have haddresses := h.addresses_eq
  cases op with
  | link b block =>
    have hb : b ∉ l := by rw [← haddresses]; exact hallowed
    exact ⟨_, _, _, rfl, h.link hb block⟩
  | push raw memory =>
    have hstep : stack.step P tier (.push raw memory) = some (stack.push P tier raw memory).1 := rfl
    rw [hstep]
    unfold push
    cases stockTierBlockBuild P tier raw with
    | none => exact ⟨stack, l, t, rfl, h⟩
    | some block =>
      cases memory with
      | none => exact ⟨stack, l, t, rfl, h⟩
      | some b =>
        have hb : b ∉ l := by rw [← haddresses]; exact hallowed
        exact ⟨_, _, _, rfl, h.link hb block⟩
  | popTop =>
    have hstep : stack.step P tier .popTop = some stack.popTop := rfl
    rw [hstep]
    unfold popTop
    cases hlast : stack.links.last with
    | none => exact ⟨stack, l, t, rfl, h⟩
    | some b =>
      rw [h.links.last] at hlast
      obtain ⟨l', t', hunlinked⟩ := h.unlink_mem (List.mem_of_getLast? hlast)
      exact ⟨_, l', t', rfl, hunlinked⟩
  | popBottom =>
    have hstep : stack.step P tier .popBottom = some stack.popBottom := rfl
    rw [hstep]
    unfold popBottom
    cases hfirst : stack.links.first with
    | none => exact ⟨stack, l, t, rfl, h⟩
    | some b =>
      rw [h.links.first] at hfirst
      obtain ⟨l', t', hunlinked⟩ := h.unlink_mem (List.mem_of_head? hfirst)
      exact ⟨_, l', t', rfl, hunlinked⟩
  | remove block =>
    cases block with
    | none => exact ⟨stack, l, t, rfl, h⟩
    | some b =>
      have hb : b ∈ l := by rw [← haddresses]; exact hallowed
      obtain ⟨l', t', hunlinked⟩ := h.unlink_mem hb
      exact ⟨_, l', t', rfl, hunlinked⟩
  | setMark seq =>
    obtain ⟨stack', hstep, hmarked⟩ := h.setMark seq
    exact ⟨stack', l, _, hstep, hmarked⟩

/-- Along every run from an initialised stack the links, the counters and the mark are right, and no
call gets stuck. -/
theorem keeps_of_run (P : Puzzle) (tier : TierCodec) (start : StockTierStack ι)
    (hrun : Run (step P tier) Allowed start.init stack) :
    (∃ l, stack.Keeps l) ∧ ∀ op, stack.Allowed op → (stack.step P tier op).isSome := by
  have hrepresents : ∃ l t, stack.Represents l t :=
    hrun.invariant (I := fun s => ∃ l t, Represents s l t) ⟨[], _, represents_init start⟩ fun hstack hallowed hnext => by
      obtain ⟨l, t, hstack⟩ := hstack
      obtain ⟨stack', l', t', hstep, hstack'⟩ := hstack.step P tier hallowed
      rw [hnext] at hstep
      obtain rfl := Option.some.inj hstep
      exact ⟨l', t', hstack'⟩
  obtain ⟨l, t, hstack⟩ := hrepresents
  refine ⟨⟨l, hstack.keeps⟩, fun op hallowed => ?_⟩
  obtain ⟨stack', -, -, hstep, -⟩ := hstack.step P tier hallowed
  rw [hstep]
  rfl

end Represents

/-- A block of one record of an empty board. -/
def blankBlock : { fr : StoredFrame // fr.Valid } :=
  ⟨⟨⟨stockTierCodecRaw, 1, 8, 8⟩, List.replicate 8 0#8⟩, ⟨.inl rfl, by decide, by decide, by decide, by decide, by decide, by decide, rfl⟩⟩

/-- A stack nothing is in, and all of memory the same. -/
def blankStack : StockTierStack Nat where
  links := ⟨none, none, fun _ => none, fun _ => none⟩
  seq _ := 0
  frame _ := blankBlock
  count := ⟨0, 0, 0, 0⟩
  lastSeq := 0
  markSeq := 0
  aboveMark := none

/-- The calls of a run: a mark is set beyond the top, blocks are stacked, and the marked one is removed. -/
def markedOps : List (StockTierOp Nat) :=
  [.setMark 1, .link 4 blankBlock, .link 7 blankBlock, .link 5 blankBlock, .remove (some 7), .popBottom]

/-- After these calls one block is left, and the mark points to it. -/
theorem keeps_of_run_marked :
    ∃ stack, Run.exec (Run.guarded (fun s op => decide (Allowed s op)) (step .p16 ⟨none, false⟩)) blankStack.init markedOps =
        some stack ∧
      stack.aboveMark = some 5 ∧ ∃ l, stack.Keeps l := by
  refine ⟨_, rfl, rfl, ?_⟩
  have hrun := Run.of_exec_guarded (fun _ _ h => of_decide_eq_true h)
    (show Run.exec (Run.guarded (fun s op => decide (Allowed s op)) (step .p16 ⟨none, false⟩)) blankStack.init markedOps =
      some _ from rfl)
  exact (keeps_of_run .p16 ⟨none, false⟩ blankStack hrun).1

end StockTierStack
