-- SUMMARY: Each index of the analysed pool stays in bijection with its file, and an acknowledgement finds what is there.
import EternityII.App.AnalysedIndex

/-!
# The index and its file

No operation leaves a node behind or an element without a node. The hash agrees with the comparison, so that a
search by content misses no element that is equal; a search by the pointer finds the node of an element among
those of equal ones.
-/

/-! ## Equal possibilities -/

section Equal

variable {P : Puzzle} {p q : Packet P}

theorem sixteen_mul_div_le (P : Puzzle) : 16 * (P.eternParts / 16) ≤ P.eternParts := Nat.mul_div_le ..

/-- The words of the faces that are hashed have no bit that is not compared. -/
theorem bFaceused_eq_of_compare (h : comparePossibility p q = 0) {g : Nat} (hg : g < P.eternParts / 16) :
    p.bFaceused g = q.bFaceused g := by
  have hfaces : p.key.faces = q.key.faces := congrArg PacketKey.faces (comparePossibility_eq_zero.mp h)
  refine BitVec.eq_of_getLsbD_eq fun i hi => ?_
  have hindex : 16 * g + i < P.eternParts := by
    have hle := sixteen_mul_div_le P
    omega
  have hbit : isFaceUsed p.bFaceused (16 * g + i) = isFaceUsed q.bFaceused (16 * g + i) :=
    congrFun hfaces ⟨16 * g + i, hindex⟩
  have hdiv : (16 * g + i) / 16 = g := by omega
  have hmod : (16 * g + i) % 16 = i := by omega
  simpa only [isFaceUsed, Words.bit, hdiv, hmod] using hbit

/-- `hash_possibility_key` agrees with `compare_possibility`. -/
theorem hashPossibilityKey_of_compare (h : comparePossibility p q = 0) : hashPossibilityKey p = hashPossibilityKey q := by
  have hkey := comparePossibility_eq_zero.mp h
  have halloc : p.alloc = q.alloc := congrArg PacketKey.alloc hkey
  have hx : p.x = q.x := congrArg PacketKey.x hkey
  have hy : p.y = q.y := congrArg PacketKey.y hkey
  have hgrid : p.grid = q.grid := congrArg PacketKey.grid hkey
  have hwords : ∀ start : UInt64, (List.range (P.eternParts / 16)).foldl (fun h g => analysedHash16 h (p.bFaceused g)) start =
      (List.range (P.eternParts / 16)).foldl (fun h g => analysedHash16 h (q.bFaceused g)) start := by
    intro start
    refine List.foldl_ext _ _ _ fun h g hg => ?_
    rw [bFaceused_eq_of_compare ‹_› (List.mem_range.mp hg)]
  simp only [hashPossibilityKey, halloc, hx, hy, hgrid, hwords]

end Equal

/-! ## Indexed files -/

namespace IndexedSegment

variable {ι : Type*} {P : Puzzle}

/-- The file has the elements of a list, each with its packet as it is, and the index has one node for
each of them, in the bucket of its hash. -/
structure Indexed (seg : IndexedSegment ι P) (l : List ι) : Prop where
  chains : seg.file.Chains l
  raw : ∀ e ∈ l, ∃ packet, seg.file.data e = .raw packet
  indexes : Indexes IndexNode.element (fun e => analysedBucket (seg.file.data e).hash) seg.index l
  hashes : ∀ b, ∀ node ∈ seg.index b, node.hash = (seg.file.data node.element).hash

variable [DecidableEq ι] {seg seg' : IndexedSegment ι P} {l u v : List ι} {e : ι} {key : Packet P} {a : Allocator ι}
  {f : AnalysedFile P}

omit [DecidableEq ι] in
/-- An element is taken out of the file, and its node out of the table. -/
theorem Indexed.remove (h : seg.Indexed (u ++ e :: v)) {b : Nat} {chain : List (IndexNode ι)}
    (hindexes : Indexes IndexNode.element (fun e => analysedBucket (seg.file.data e).hash)
      (Function.update seg.index b chain) (u ++ v)) (hsubset : ∀ node ∈ chain, node ∈ seg.index b) {file : File ι P}
    (hchains : file.Chains (u ++ v)) (hdata : file.data = seg.file.data) :
    (⟨file, Function.update seg.index b chain⟩ : IndexedSegment ι P).Indexed (u ++ v) := by
  refine ⟨hchains, ?_, ?_, ?_⟩
  · intro x hx
    rw [hdata]
    refine h.raw x ?_
    rw [List.mem_append] at hx ⊢
    exact hx.imp_right (List.mem_cons_of_mem e)
  · rw [hdata]
    exact hindexes
  · intro b' node hnode
    change node ∈ Function.update seg.index b chain b' at hnode
    rw [hdata]
    by_cases hb : b' = b
    · rw [hb, Function.update_self] at hnode
      exact h.hashes b node (hsubset node hnode)
    · rw [Function.update_of_ne hb] at hnode
      exact h.hashes b' node hnode

omit [DecidableEq ι] in
theorem unlinkFirst_subset {p : IndexNode ι → Bool} {chain chain' : List (IndexNode ι)} {node : IndexNode ι}
    (h : unlinkFirst p chain = some (node, chain')) : ∀ n ∈ chain', n ∈ chain := by
  obtain ⟨pre, post, rfl, rfl, -⟩ := unlinkFirst_eq_some h
  intro n hn
  rw [List.mem_append] at hn ⊢
  exact hn.imp_right (List.mem_cons_of_mem node)

/-- The node of an element is found by the pointer, and taken out before the element. -/
theorem Indexed.indexRemoveElement (h : seg.Indexed (u ++ e :: v)) {file : File ι P} (hchains : file.Chains (u ++ v))
    (hdata : file.data = seg.file.data) : (seg.indexRemoveElement e).file = seg.file ∧
      Indexed { seg.indexRemoveElement e with file } (u ++ v) := by
  obtain ⟨node, hnode, helement⟩ := h.indexes.exists_node (List.mem_append_right u (List.mem_cons_self (a := e) (l := v)))
  cases hfound : unlinkFirst (fun node => decide (node.element = e)) (seg.index (analysedBucket (seg.hashOf e))) with
  | none =>
    have hnot := unlinkFirst_eq_none.mp hfound node hnode
    exact absurd helement (of_decide_eq_false hnot)
  | some found =>
    obtain ⟨found, chain⟩ := found
    have heq : seg.indexRemoveElement e =
        { seg with index := Function.update seg.index (analysedBucket (seg.hashOf e)) chain } := by
      simp only [IndexedSegment.indexRemoveElement, hfound]
    obtain ⟨hsame, -, hindexes⟩ := h.indexes.unlink hfound
    rw [heq]
    exact ⟨rfl, h.remove (hindexes u v (by rw [of_decide_eq_true hsame])) (unlinkFirst_subset hfound) hchains hdata⟩

/-- A search by content finds an element of the file that is equal, and takes its node out. -/
theorem Indexed.findAndRemove_some (h : seg.Indexed l) (hfound : seg.indexFindAndRemove key = some (e, seg')) :
    e ∈ l ∧ (seg.file.data e).equals key = true ∧ seg'.file = seg.file ∧
      ∀ u v, l = u ++ e :: v → Indexed { seg' with file := seg.file.removeElement e } (u ++ v) := by
  obtain ⟨⟨node, chain⟩, hunlink, heq⟩ := Option.map_eq_some_iff.mp hfound
  obtain ⟨rfl, rfl⟩ := Prod.mk.inj heq
  obtain ⟨htest, hnode, hindexes⟩ := h.indexes.unlink hunlink
  rw [Bool.and_eq_true] at htest
  refine ⟨(h.indexes.points hnode).1, htest.2, rfl, ?_⟩
  rintro u v rfl
  exact h.remove (hindexes u v rfl) (unlinkFirst_subset hunlink) h.chains.removeElement rfl

omit [DecidableEq ι] in
/-- A search by content that finds nothing says that no element of the file is equal. -/
theorem Indexed.findAndRemove_none (h : seg.Indexed l) (hnone : seg.indexFindAndRemove key = none) :
    ∀ e ∈ l, (seg.file.data e).equals key = false := by
  intro e he
  by_contra hnot
  have hequal : (seg.file.data e).equals key = true := (Bool.not_eq_false _).mp hnot
  obtain ⟨packet, hraw⟩ := h.raw e he
  have hcompare : comparePossibility packet key = 0 := by
    rw [hraw] at hequal
    exact of_decide_eq_true hequal
  have hhash : (seg.file.data e).hash = hashPossibilityKey key := by
    rw [hraw]
    exact hashPossibilityKey_of_compare hcompare
  obtain ⟨node, hnode, helement⟩ := h.indexes.exists_node he
  rw [hhash] at hnode
  have hnot := unlinkFirst_eq_none.mp (Option.map_eq_none_iff.mp hnone) node hnode
  rw [Bool.and_eq_false_iff] at hnot
  rcases hnot with hnot | hnot
  · have hstored := h.hashes _ node hnode
    rw [helement, hhash] at hstored
    exact of_decide_eq_false hnot hstored
  · rw [helement, hequal] at hnot
    cases hnot

omit [DecidableEq ι] in
theorem len_raw (p : Packet P) : 0 < (Element.raw p).len ∧ (Element.raw p).len ≤ 65535 := by
  change 0 < sizeofPossibilityPacket P ∧ sizeofPossibilityPacket P ≤ 65535
  cases P <;> decide

omit [DecidableEq ι] in
/-- The node of an element that has been added is put in its bucket. -/
theorem Indexed.indexAdd (h : seg.Indexed l) {file : File ι P} {p : Packet P} (hchains : file.Chains (l ++ [e]))
    (hself : file.data e = .raw p) (hother : ∀ x ∈ l, file.data x = seg.file.data x) (lease : AnalysedNode) :
    (IndexedSegment.indexAdd { seg with file } e lease true).1.Indexed (l ++ [e]) := by
  have hindexes : Indexes IndexNode.element (fun e => analysedBucket (file.data e).hash) seg.index l := by
    refine h.indexes.congr fun x hx => ?_
    rw [hother x hx]
  have hold : ∀ b, ∀ node ∈ seg.index b, node.hash = (file.data node.element).hash := by
    intro b node hnode
    rw [hother _ (h.indexes.points hnode).1]
    exact h.hashes b node hnode
  refine ⟨hchains, ?_, hindexes.insert ⟨(file.data e).hash, e, lease⟩, ?_⟩
  · intro x hx
    change ∃ packet, file.data x = .raw packet
    rcases List.mem_append.mp hx with hx | hx
    · rw [hother x hx]
      exact h.raw x hx
    · rw [List.mem_singleton.mp hx]
      exact ⟨p, hself⟩
  · intro b node hnode
    change node ∈ Function.update seg.index (analysedBucket (file.data e).hash)
      (⟨(file.data e).hash, e, lease⟩ :: seg.index (analysedBucket (file.data e).hash)) b at hnode
    change node.hash = (file.data node.element).hash
    by_cases hb : b = analysedBucket (file.data e).hash
    · rw [hb, Function.update_self] at hnode
      rcases List.mem_cons.mp hnode with rfl | hnode
      · rfl
      · exact hold _ node hnode
    · rw [Function.update_of_ne hb] at hnode
      exact hold b node hnode

/-- A possibility that is put has its element at the end of the file, and its node. -/
theorem Indexed.put (h : seg.Indexed l) (p : Packet P) (lease : AnalysedNode) :
    (seg.put a p lease true true).2 = false ∧ (seg.put a p lease true true).1.Indexed (l ++ [a.malloc l]) ∧
      (l ++ [a.malloc l]).map (seg.put a p lease true true).1.file.data = l.map seg.file.data ++ [.raw p] := by
  have hfresh : a.malloc l ∉ l := a.fresh l
  obtain ⟨hadded, hchains, hdata⟩ := h.chains.put hfresh (len_raw p)
  have hput : seg.put a p lease true true =
      IndexedSegment.indexAdd { seg with file := (seg.file.put (a.malloc l) (.raw p) true).1 } (a.malloc l) lease true := by
    rw [IndexedSegment.put, h.chains.elements_eq]
    exact if_pos hadded
  have hself : (seg.file.put (a.malloc l) (.raw p) true).1.data (a.malloc l) = .raw p := by
    rw [hdata, Function.update_self]
  have hother : ∀ e ∈ l, (seg.file.put (a.malloc l) (.raw p) true).1.data e = seg.file.data e := by
    intro e he
    rw [hdata]
    exact Function.update_of_ne (fun heq : e = a.malloc l => hfresh (heq ▸ he)) ..
  rw [hput, List.map_append]
  exact ⟨rfl, h.indexAdd hchains hself hother lease, congrArg₂ _ (List.map_congr_left hother) (congrArg (fun x => [x]) hself)⟩

/-- The last element of the file and its node are taken off. -/
theorem Indexed.scroll (h : seg.Indexed (u ++ [e])) :
    ∃ packet seg', seg.file.data e = .raw packet ∧ seg.indexScroll = some (some packet, seg') ∧ seg'.Indexed u ∧
      seg'.file.data = seg.file.data := by
  have hlast : seg.file.links.last = some e := by rw [h.chains.spells.last, List.getLast?_concat]
  have hdetached : (seg.file.detachLast e).Chains (u ++ []) := by
    rw [List.append_nil]
    exact h.chains.detachLast
  obtain ⟨hfile, hindexed⟩ := h.indexRemoveElement hdetached rfl
  obtain ⟨packet, hraw⟩ := h.raw e (List.mem_append_right _ (List.mem_singleton_self e))
  refine ⟨packet, { seg.indexRemoveElement e with file := seg.file.detachLast e }, hraw, ?_, ?_, rfl⟩
  · have hload : (seg.file.data e).load = some packet := by
      rw [hraw, Element.load, if_neg]
      simp only [Element.isEmpty, decide_eq_true_eq]
      exact (len_raw packet).1.ne'
    rw [IndexedSegment.indexScroll, hlast, Option.bind_some, hfile, h.chains.scroll, Option.map_some, hload]
  · rwa [List.append_nil] at hindexed

omit [DecidableEq ι] in
/-- The file and its nodes stand for a file of packets: the same packets in the same order. -/
def Shows (seg : IndexedSegment ι P) (f : AnalysedFile P) : Prop :=
  AnalysedConsistent f ∧ ∃ l, seg.Indexed l ∧ l.map seg.file.data = f.values.map Element.raw

omit [DecidableEq ι] in
theorem Indexed.shows (h : seg.Indexed l) : ∃ f, seg.Shows f := by
  have hraw : ∀ d ∈ l.map seg.file.data, d ∈ Set.range (Element.raw (P := P)) := by
    intro d hd
    obtain ⟨e, he, rfl⟩ := List.mem_map.mp hd
    obtain ⟨packet, hpacket⟩ := h.raw e he
    exact ⟨packet, hpacket.symm⟩
  obtain ⟨packets, hpackets⟩ : l.map seg.file.data ∈ Set.range (List.map Element.raw) := by
    rw [Set.range_list_map]
    exact hraw
  refine ⟨putBackSlice ⟨true, true, true, 0, fun _ => true, fun _ => true⟩ 0 packets .empty,
    putBackSlice_consistent _ _ _ IndexedFile.consistent_empty, l, h, ?_⟩
  rw [values_putBackSlice fun _ => rfl]
  exact hpackets.symm

/-- A packet is put at the end of both. -/
theorem Shows.put (h : seg.Shows f) (p : Packet P) (lease : AnalysedNode) :
    (seg.put a p lease true true).2 = false ∧ (seg.put a p lease true true).1.Shows (putAnalysed f p true true) := by
  obtain ⟨hconsistent, l, hindexed, hdata⟩ := h
  obtain ⟨hflag, hput, hmap⟩ := hindexed.put (a := a) p lease
  refine ⟨hflag, putAnalysed_consistent hconsistent p true true, _, hput, ?_⟩
  rw [hmap, hdata, values_putAnalysed, List.map_append, List.map_singleton]

/-- Both give up the same packets. -/
theorem Shows.drain (h : seg.Shows f) (cap : Nat) :
    (drain cap seg).1 = (drainSlice cap f).1 ∧ (drain cap seg).2.Shows (drainSlice cap f).2 := by
  induction cap generalizing seg f with
  | zero => exact ⟨rfl, h⟩
  | succ cap ih =>
    obtain ⟨hconsistent, l, hindexed, hdata⟩ := h
    rw [IndexedSegment.drain, drainSlice]
    cases hscroll : f.scroll hashPossibilityKey analysedIndexBuckets with
    | none =>
      rw [IndexedFile.scroll_eq_none hscroll, List.map_nil, List.map_eq_nil_iff] at hdata
      subst hdata
      have hnone : seg.indexScroll = none := by
        rw [IndexedSegment.indexScroll, hindexed.chains.spells.last]
        rfl
      rw [hnone]
      exact ⟨rfl, hconsistent, [], hindexed, by rw [IndexedFile.scroll_eq_none hscroll]; rfl⟩
    | some taken =>
      obtain ⟨p, rest⟩ := taken
      rw [IndexedFile.values_scroll hscroll, List.map_append, List.map_eq_append_iff] at hdata
      obtain ⟨u, v, rfl, hu, hv⟩ := hdata
      obtain ⟨e, rfl, he⟩ := List.map_eq_singleton_iff.mp hv
      obtain ⟨packet, seg', hraw, htaken, hleft, hsame⟩ := hindexed.scroll
      obtain rfl : packet = p := Element.raw.inj (hraw.symm.trans he)
      have hrest : Shows seg' rest := ⟨hconsistent.scroll hscroll, u, hleft, by rw [hsame]; exact hu⟩
      obtain ⟨hpackets, hshows⟩ := ih hrest
      rw [htaken]
      exact ⟨congrArg (packet :: ·) hpackets, hshows⟩

/-- A slice is put back into both. -/
theorem Shows.putBack (h : seg.Shows f) {t : AnalysedTurn} (ht : ∀ i, t.element i = true ∧ t.node i = true) (i : Nat)
    (buf : List (Packet P)) :
    (putBack a t i buf seg).2 = false ∧ (putBack a t i buf seg).1.Shows (putBackSlice t i buf f) := by
  induction buf generalizing seg f i with
  | nil => exact ⟨rfl, h⟩
  | cons p buf ih =>
    obtain ⟨hnode, hput⟩ := h.put (a := a) p ⟨false, [], 0⟩
    obtain ⟨hrest, hshows⟩ := ih hput (i + 1)
    rw [IndexedSegment.putBack, putBackSlice, (ht i).1, (ht i).2]
    refine ⟨?_, hshows⟩
    dsimp only
    rw [hnode, hrest]
    rfl

/-- The slices of both are sent, or the last one is put back. -/
theorem Shows.sendLoop (h : seg.Shows f) {turn : Nat → AnalysedTurn}
    (hturn : ∀ n i, (turn n).element i = true ∧ (turn n).node i = true) {cap : Nat} (hcap : 0 < cap) {fuel : Nat}
    (hfuel : f.values.length < fuel) (n : Nat) : ∃ seg', IndexedSegment.sendLoop a turn cap fuel n seg = some (seg', false) ∧
      seg'.Shows (sendSlices turn cap fuel n f).1 := by
  induction fuel generalizing seg f n with
  | zero => exact absurd hfuel (Nat.not_lt_zero _)
  | succ fuel ih =>
    obtain ⟨hpackets, hdrained⟩ := h.drain cap
    have hlength := (drainSlice_spec h.1 cap).2.1.length_eq
    rw [List.length_append] at hlength
    rw [IndexedSegment.sendLoop, sendSlices, hpackets]
    by_cases hempty : (drainSlice cap f).1.length = 0
    · exact ⟨_, if_pos hempty, by rw [if_pos hempty]; exact hdrained⟩
    · rw [if_neg hempty, if_neg hempty]
      by_cases hrefused : (turn n).accepted = false
      · obtain ⟨hflag, hshows⟩ := hdrained.putBack (a := a) (hturn n) 0 (drainSlice cap f).1
        rw [if_pos hrefused, if_pos hrefused, ← hflag]
        exact ⟨_, rfl, hshows⟩
      · rw [if_neg hrefused, if_neg hrefused]
        by_cases hfull : (drainSlice cap f).1.length = cap
        · rw [if_pos hfull, if_pos hfull]
          exact ih hdrained (by omega) (n + 1)
        · rw [if_neg hfull, if_neg hfull]
          exact ⟨_, rfl, hdrained⟩

omit [DecidableEq ι] in
theorem indexed_clear : (IndexedSegment.indexClear { seg with file := seg.file.clear }).Indexed [] :=
  ⟨File.clear_chains, fun _ he => absurd he List.not_mem_nil, Indexes.empty, fun _ _ hnode => absurd hnode List.not_mem_nil⟩

/-- `send_possibility_analysed` ends, and leaves the same packets in both. -/
theorem Shows.send (h : seg.Shows f) (remote : Bool) {s : AnalysedSend}
    (hs : ∀ n i, (s.turn n).element i = true ∧ (s.turn n).node i = true) :
    ∃ seg', seg.send a remote s = some (seg', false) ∧ seg'.Shows (sendPossibilityAnalysed remote s f).1 := by
  obtain ⟨hconsistent, l, hindexed, hdata⟩ := h
  have hlength : l.length = f.entries.length := by simpa [IndexedFile.values] using congrArg List.length hdata
  have hfirst : seg.file.links.first ≠ none ↔ f.entries.length ≠ 0 := by
    rw [hindexed.chains.spells.first, ← hlength, ne_eq, List.head?_eq_none_iff, ne_eq, List.length_eq_zero_iff]
  have hshows : seg.Shows f := ⟨hconsistent, l, hindexed, hdata⟩
  unfold IndexedSegment.send sendPossibilityAnalysed
  simp only [hfirst, hindexed.chains.size, hlength]
  split_ifs
  · exact ⟨_, rfl, ⟨List.nodup_nil, fun _ => List.nil_subperm, fun _ _ => .refl _⟩, [], indexed_clear, rfl⟩
  · exact ⟨seg, rfl, hshows⟩
  · exact ⟨seg, rfl, hshows⟩
  · refine hshows.sendLoop hs s.cap_pos ?_ 0
    rw [IndexedFile.values, List.length_map]
    exact Nat.lt_succ_self _
  · exact ⟨seg, rfl, hshows⟩

/-- The loop of a reclaim over a bucket, after the nodes that it has kept. -/
theorem Indexed.sweep (h : seg.Indexed l) {b : Nat} (kept : List (IndexNode ι)) {nodes : List (IndexNode ι)}
    (hb : seg.index b = kept ++ nodes)
    (now : Int) (ownerAlive : Option (List Byte → Bool)) : ∃ l', IndexedSegment.Indexed
      ⟨(sweep now ownerAlive nodes seg.file).2.1,
        Function.update seg.index b (kept ++ (sweep now ownerAlive nodes seg.file).1)⟩ l' := by
  induction nodes generalizing seg l kept with
  | nil =>
    refine ⟨l, ?_⟩
    rw [IndexedSegment.sweep, ← hb, Function.update_eq_self]
    exact h
  | cons node nodes ih =>
    rw [IndexedSegment.sweep]
    by_cases hexpired : expired now ownerAlive node.lease = true
    · rw [if_pos hexpired]
      have hnode : node ∈ seg.index b := by
        rw [hb]
        exact List.mem_append_right _ (List.mem_cons_self ..)
      obtain ⟨he, hhome⟩ := h.indexes.points hnode
      obtain ⟨u, v, rfl⟩ := List.append_of_mem he
      have hindexes := h.indexes.remove (hhome.symm ▸ hb) rfl
      rw [hhome] at hindexes
      have hremoved : IndexedSegment.Indexed
          ⟨seg.file.removeElement node.element, Function.update seg.index b (kept ++ nodes)⟩ (u ++ v) := by
        refine h.remove hindexes (fun n hn => ?_) h.chains.removeElement rfl
        rw [hb]
        rw [List.mem_append] at hn ⊢
        exact hn.imp_right (List.mem_cons_of_mem node)
      obtain ⟨l', hswept⟩ := ih hremoved kept (Function.update_self ..)
      rw [Function.update_idem] at hswept
      exact ⟨l', hswept⟩
    · rw [if_neg hexpired]
      obtain ⟨l', hswept⟩ := ih h (kept ++ [node]) (by rw [hb, List.append_assoc, List.singleton_append])
      rw [List.append_assoc, List.singleton_append] at hswept
      exact ⟨l', hswept⟩

/-- The loop of a reclaim over the buckets. -/
theorem Indexed.sweepBuckets (h : seg.Indexed l) (now : Int) (ownerAlive : Option (List Byte → Bool)) (n b : Nat) :
    ∃ l', (sweepBuckets now ownerAlive n b seg).1.Indexed l' := by
  induction n generalizing seg l b with
  | zero => exact ⟨l, h⟩
  | succ n ih =>
    obtain ⟨l', hswept⟩ := h.sweep (b := b) [] rfl now ownerAlive
    exact ih hswept (b + 1)

theorem Indexed.reclaim (h : seg.Indexed l) (now : Int) (ownerAlive : Option (List Byte → Bool)) (buffer : Bool) :
    ∃ l', (seg.reclaim now ownerAlive buffer).1.Indexed l' := by
  unfold IndexedSegment.reclaim
  split_ifs
  · exact h.sweepBuckets now ownerAlive _ _
  · exact ⟨l, h⟩

/-- The loop of a purge, after the elements `u` that it has left. -/
theorem Indexed.purgeLoop (h : seg.Indexed (u ++ v)) (origins : List (Packet P)) (fuel : Nat) :
    ∃ l', (purgeLoop origins fuel v.head? seg).1.Indexed l' := by
  induction fuel generalizing seg u v with
  | zero => exact ⟨u ++ v, h⟩
  | succ fuel ih =>
    cases v with
    | nil => exact ⟨u ++ [], h⟩
    | cons e v =>
      have hnext : seg.file.links.next e = v.head? := h.chains.spells.next u e v rfl
      rw [List.head?_cons, IndexedSegment.purgeLoop]
      by_cases hdescends : (seg.file.data e).isDescendantOf origins = true
      · obtain ⟨hfile, hindexed⟩ := h.indexRemoveElement h.chains.removeElement rfl
        dsimp only
        rw [if_pos hdescends, hnext, hfile]
        exact ih hindexed
      · dsimp only
        rw [if_neg hdescends, hnext]
        rw [List.append_cons] at h
        exact ih (u := u ++ [e]) h

theorem Indexed.purge (h : seg.Indexed l) (origins : List (Packet P)) : ∃ l', (seg.purge origins).1.Indexed l' := by
  unfold IndexedSegment.purge
  rw [h.chains.spells.first]
  exact Indexed.purgeLoop (u := []) h origins seg.file.size

/-- The loop of `restock_analysed` leaves nothing in the file. -/
theorem scrollAll_chains {file : File ι P} (h : file.Chains l) : (scrollAll l.length file).2.Chains [] := by
  induction l using List.reverseRecOn generalizing file with
  | nil => exact h
  | append_singleton u e ih =>
    rw [List.length_append, List.length_singleton, scrollAll, h.scroll]
    exact ih h.detachLast

theorem Indexed.restock (h : seg.Indexed l) : ∃ l', seg.restock.1.Indexed l' := by
  unfold IndexedSegment.restock
  split_ifs
  · exact ⟨l, h⟩
  · have hdrained := scrollAll_chains h.chains
    rw [← h.chains.size] at hdrained
    exact ⟨[], hdrained, fun _ he => absurd he List.not_mem_nil, Indexes.empty, fun _ _ hnode => absurd hnode List.not_mem_nil⟩

/-- An acknowledgement on a file takes out one element that is equal, when there is one. -/
theorem Indexed.remove_some (h : seg.Indexed l) (hremove : seg.remove false key = some seg') :
    ∃ u e v, l = u ++ e :: v ∧ (seg.file.data e).equals key = true ∧ seg'.Indexed (u ++ v) ∧
      seg'.file.data = seg.file.data := by
  unfold IndexedSegment.remove at hremove
  cases hfound : seg.indexFindAndRemove key with
  | none =>
    rw [hfound] at hremove
    cases hremove
  | some found =>
    obtain ⟨e, rest⟩ := found
    rw [hfound] at hremove
    obtain ⟨he, hequals, hfile, hindexed⟩ := h.findAndRemove_some hfound
    obtain ⟨u, v, rfl⟩ := List.append_of_mem he
    cases Option.some.inj hremove
    refine ⟨u, e, v, rfl, hequals, ?_, ?_⟩
    · rw [hfile]
      exact hindexed u v rfl
    · rw [hfile]
      rfl

theorem Indexed.remove_none (h : seg.Indexed l) (hremove : seg.remove false key = none) :
    ∀ e ∈ l, (seg.file.data e).equals key = false := by
  unfold IndexedSegment.remove at hremove
  cases hfound : seg.indexFindAndRemove key with
  | none => exact h.findAndRemove_none hfound
  | some found =>
    rw [hfound] at hremove
    cases hremove

end IndexedSegment

/-! ## Indexed pools -/

namespace IndexedPool

variable {ι : Type*} {P : Puzzle}

/-- Every file is indexed, and no node may be missing. -/
structure Sound (pool : IndexedPool ι P) : Prop where
  complete : pool.mayBeIncomplete = false
  indexed : ∀ f, ∃ l, (pool.segment f).Indexed l

variable [DecidableEq ι] {pool : IndexedPool ι P} {nb f : Nat} {seg : IndexedSegment ι P} {a : Allocator ι}

omit [DecidableEq ι] in
theorem start_sound (data : ι → Element P) (maxResult : Nat) (stock : LocalStock) : (start data maxResult stock).Sound :=
  ⟨rfl, fun _ => ⟨[], File.init_chains data, fun _ he => absurd he List.not_mem_nil, Indexes.empty,
    fun _ _ hnode => absurd hnode List.not_mem_nil⟩⟩

omit [DecidableEq ι] in
theorem Sound.setSegment (h : pool.Sound) (hseg : ∃ l, seg.Indexed l) (f : Nat) : (pool.setSegment f seg).Sound := by
  refine ⟨h.complete, fun f' => ?_⟩
  change ∃ l, (Function.update pool.segment f seg f').Indexed l
  by_cases hf : f' = f
  · rw [hf, Function.update_self]
    exact hseg
  · rw [Function.update_of_ne hf]
    exact h.indexed f'

theorem Sound.add (h : pool.Sound) (possibility : Packet P) (thread : Int) (lease : AnalysedNode) (free : Nat → Bool) :
    (pool.add nb a possibility thread lease free true true).1.Sound := by
  unfold IndexedPool.add
  cases addFile nb thread free with
  | none => exact h
  | some f =>
    obtain ⟨l, hindexed⟩ := h.indexed f
    obtain ⟨hflag, hput, -⟩ := hindexed.put (a := a) possibility lease
    refine ⟨?_, (h.setSegment ⟨_, hput⟩ f).indexed⟩
    dsimp only
    rw [h.complete, hflag]
    rfl

theorem Sound.send (h : pool.Sound) (thread : Nat) (remote : Bool) {s : AnalysedSend}
    (hs : ∀ n i, (s.turn n).element i = true ∧ (s.turn n).node i = true) :
    ∃ pool', pool.send a thread remote s = some pool' ∧ pool'.Sound := by
  obtain ⟨l, hindexed⟩ := h.indexed thread
  obtain ⟨f, hshows⟩ := hindexed.shows
  obtain ⟨seg, hsend, -, l', hsent, -⟩ := hshows.send (a := a) remote hs
  rw [IndexedPool.send, hsend]
  refine ⟨_, rfl, ?_, (h.setSegment ⟨l', hsent⟩ thread).indexed⟩
  dsimp only
  rw [h.complete]
  rfl

theorem Sound.purgeSegments (h : pool.Sound) (origins : List (Packet P)) (n : Nat) :
    (pool.purgeSegments origins n).1.Sound := by
  induction n with
  | zero => exact h
  | succ n ih =>
    obtain ⟨l, hindexed⟩ := ih.indexed n
    exact ih.setSegment (hindexed.purge origins) n

theorem Sound.purgeDescendantsOf (h : pool.Sound) (origins : List (Packet P)) :
    (pool.purgeDescendantsOf nb origins).1.Sound := by
  unfold IndexedPool.purgeDescendantsOf
  split_ifs
  · exact h
  · have hpurged := h.purgeSegments origins nb
    exact ⟨hpurged.complete, hpurged.indexed⟩

omit [DecidableEq ι] in
theorem Sound.putBackAll (h : pool.Sound) (dest : Packet P → Nat) (buf : List (Packet P)) : (pool.putBackAll dest buf).Sound :=
  ⟨h.complete, h.indexed⟩

theorem Sound.reclaimFiles (h : pool.Sound) (r : Reclaim P) (n : Nat) : (pool.reclaimFiles r n).pool.Sound := by
  induction n with
  | zero => exact h
  | succ f ih =>
    obtain ⟨l, hindexed⟩ := ih.indexed f
    exact (ih.setSegment (hindexed.reclaim r.now r.ownerAlive (r.buffer f)) f).putBackAll r.dest _

theorem Sound.reclaimExpiredLeases (h : pool.Sound) (r : Reclaim P) : (pool.reclaimExpiredLeases nb r).1.Sound := by
  have hafter := h.reclaimFiles r nb
  unfold IndexedPool.reclaimExpiredLeases
  dsimp only
  split_ifs
  · exact hafter.purgeDescendantsOf _
  · exact hafter

theorem Sound.restockFiles (h : pool.Sound) (dest : Packet P → Nat) (n : Nat) : (pool.restockFiles dest n).Sound := by
  induction n with
  | zero => exact h
  | succ f ih =>
    obtain ⟨l, hindexed⟩ := ih.indexed f
    exact (ih.setSegment hindexed.restock f).putBackAll dest _

/-! ## Acknowledging -/

/-- A file of the pool has an element with what `compare_possibility` looks at. -/
def Has (nb : Nat) (pool : IndexedPool ι P) (key : PacketKey P) : Prop :=
  ∃ f < nb, ∃ e ∈ (pool.segment f).file.elements, ∃ q, (pool.segment f).file.data e = .raw q ∧ q.key = key

/-- One element of the pool is gone, and it had the key. -/
def Loses (nb : Nat) (pool pool' : IndexedPool ι P) (key : PacketKey P) : Prop :=
  ∃ f < nb, ∃ u e v q, (pool.segment f).file.elements = u ++ e :: v ∧ (pool.segment f).file.data e = .raw q ∧ q.key = key ∧
    (pool'.segment f).file.elements = u ++ v ∧ (pool'.segment f).file.data = (pool.segment f).file.data ∧
    ∀ f' ≠ f, pool'.segment f' = pool.segment f'

omit [DecidableEq ι] in
/-- An element that is equal to a possibility has its key. -/
theorem equals_iff {l : List ι} (h : seg.Indexed l) {e : ι} (he : e ∈ l) (possibility : Packet P) :
    (seg.file.data e).equals possibility = true ↔ ∃ q, seg.file.data e = .raw q ∧ q.key = possibility.key := by
  obtain ⟨packet, hraw⟩ := h.raw e he
  rw [hraw]
  constructor
  · intro hequals
    exact ⟨packet, rfl, comparePossibility_eq_zero.mp (of_decide_eq_true hequals)⟩
  · rintro ⟨q, hq, hkey⟩
    cases hq
    exact decide_eq_true (comparePossibility_eq_zero.mpr hkey)

/-- A file has no element that is equal to a possibility. -/
def Lacks (pool : IndexedPool ι P) (possibility : Packet P) (f : Nat) : Prop :=
  ∀ e ∈ (pool.segment f).file.elements, ((pool.segment f).file.data e).equals possibility = false

/-- An acknowledgement takes one element out of a file, or the file has no such possibility. -/
theorem Sound.removeIn (h : pool.Sound) (hf : f < nb) (possibility : Packet P) :
    (∃ seg, (pool.segment f).remove pool.mayBeIncomplete possibility = some seg ∧ (pool.setSegment f seg).Sound ∧
      pool.Loses nb (pool.setSegment f seg) possibility.key) ∨
    ((pool.segment f).remove pool.mayBeIncomplete possibility = none ∧ pool.Lacks possibility f) := by
  obtain ⟨l, hindexed⟩ := h.indexed f
  rw [h.complete]
  cases hremove : (pool.segment f).remove false possibility with
  | none =>
    refine .inr ⟨rfl, fun e he => ?_⟩
    rw [hindexed.chains.elements_eq] at he
    exact hindexed.remove_none hremove e he
  | some seg =>
    obtain ⟨u, e, v, rfl, hequals, hseg, hdata⟩ := hindexed.remove_some hremove
    obtain ⟨q, hq, hkey⟩ := (equals_iff hindexed (by simp) possibility).mp hequals
    refine .inl ⟨seg, rfl, h.setSegment ⟨_, hseg⟩ f, f, hf, u, e, v, q, hindexed.chains.elements_eq, hq, hkey, ?_, ?_, ?_⟩
    · change (Function.update pool.segment f seg f).file.elements = _
      rw [Function.update_self, hseg.chains.elements_eq]
    · change (Function.update pool.segment f seg f).file.data = _
      rw [Function.update_self, hdata]
    · intro f' hne
      exact Function.update_of_ne hne ..

/-- How an acknowledgement without a thread ends, from its file `step` on: one element is out, or no file has the
possibility, or it has given up. -/
inductive RemoveEnds (nb : Nat) (pool : IndexedPool ι P) (possibility : Packet P) (scanStart : Nat) (free : Nat → Bool)
    (left step : Nat) : IndexedPool ι P × Int → Prop
  | removed {pool' : IndexedPool ι P} (sound : pool'.Sound) (loses : pool.Loses nb pool' possibility.key) :
      RemoveEnds nb pool possibility scanStart free left step (pool', 0)
  | absent (lacks : ∀ k, step ≤ k → k < nb → pool.Lacks possibility ((scanStart + k) % nb)) :
      RemoveEnds nb pool possibility scanStart free left step (pool, 1)
  | givesUp (late : (∀ i, free i = true) → step + left < nb) :
      RemoveEnds nb pool possibility scanStart free left step (pool, -1)

omit [DecidableEq ι] in
/-- One more file has been looked at. -/
theorem RemoveEnds.next {possibility : Packet P} {scanStart left step : Nat} {free : Nat → Bool}
    {r : IndexedPool ι P × Int} (h : RemoveEnds nb pool possibility scanStart free left (step + 1) r)
    (hlacks : pool.Lacks possibility ((scanStart + step) % nb)) :
    RemoveEnds nb pool possibility scanStart free (left + 1) step r := by
  cases h with
  | removed hsound hloses => exact .removed hsound hloses
  | absent hrest =>
    refine .absent fun k hle hlt => ?_
    rcases hle.eq_or_lt with rfl | hnext
    · exact hlacks
    · exact hrest k hnext hlt
  | givesUp hlate =>
    refine .givesUp fun hfree => ?_
    have hnext := hlate hfree
    omega

omit [DecidableEq ι] in
/-- One more attempt has failed. -/
theorem RemoveEnds.wait {possibility : Packet P} {scanStart left step i : Nat} {free : Nat → Bool}
    {r : IndexedPool ι P × Int} (h : RemoveEnds nb pool possibility scanStart free left step r) (hbusy : free i ≠ true) :
    RemoveEnds nb pool possibility scanStart free (left + 1) step r := by
  cases h with
  | removed hsound hloses => exact .removed hsound hloses
  | absent hrest => exact .absent hrest
  | givesUp _ => exact .givesUp fun hfree => absurd (hfree i) hbusy

theorem Sound.removeLoop (h : pool.Sound) (possibility : Packet P) {thread : Int} (hthread : thread < 0)
    (scanStart : Nat) (free : Nat → Bool) (fuel i step waits : Nat) (hstep : step < nb) :
    RemoveEnds nb pool possibility scanStart free fuel step
      (pool.removeLoop nb possibility thread scanStart free fuel i step waits) := by
  induction fuel generalizing i step waits with
  | zero => exact .givesUp fun _ => hstep
  | succ fuel ih =>
    have hfile : currFile nb thread scanStart step = (scanStart + step) % nb := if_neg (Int.not_le.mpr hthread)
    rw [IndexedPool.removeLoop, hfile]
    by_cases hfree : free i = true
    · rw [if_pos hfree]
      have hcurr : (scanStart + step) % nb < nb := Nat.mod_lt _ (Nat.zero_lt_of_lt hstep)
      rcases h.removeIn hcurr possibility with ⟨seg, hremove, hsound, hloses⟩ | ⟨hremove, hlacks⟩
      · rw [hremove]
        exact .removed hsound hloses
      · rw [hremove]
        by_cases hlast : step + 1 ≥ nb
        · dsimp only
          rw [if_pos (.inr hlast)]
          refine .absent fun k hle hlt => ?_
          obtain rfl : k = step := by omega
          exact hlacks
        · dsimp only
          rw [if_neg (not_or.mpr ⟨Int.not_le.mpr hthread, hlast⟩)]
          exact (ih (i + 1) (step + 1) waits (Nat.lt_of_not_le hlast)).next hlacks
    · rw [if_neg hfree]
      by_cases hlate : waits + 1 ≥ trylockMaxSweeps
      · rw [if_pos hlate]
        exact .givesUp fun hall => absurd (hall i) hfree
      · rw [if_neg hlate]
        exact (ih (i + 1) step (waits + 1) hstep).wait hfree

/-- With a thread, an acknowledgement looks at one file. -/
theorem Sound.removeLoop_thread (h : pool.Sound) (possibility : Packet P) {thread : Int} (hthread : 0 ≤ thread)
    (scanStart : Nat) (free : Nat → Bool) (fuel i step waits : Nat) :
    (pool.removeLoop nb possibility thread scanStart free fuel i step waits).1.Sound := by
  induction fuel generalizing i waits with
  | zero => exact h
  | succ fuel ih =>
    have hfile : currFile nb thread scanStart step = thread.toNat := if_pos hthread
    rw [IndexedPool.removeLoop, hfile]
    by_cases hfree : free i = true
    · rw [if_pos hfree]
      rcases h.removeIn (Nat.lt_succ_self thread.toNat) possibility with ⟨seg, hremove, hsound, -⟩ | ⟨hremove, -⟩
      · rw [hremove]
        exact hsound
      · rw [hremove]
        dsimp only
        rw [if_pos (.inl hthread)]
        exact h
    · rw [if_neg hfree]
      split_ifs
      · exact h
      · exact ih (i + 1) (waits + 1)

omit [DecidableEq ι] in
theorem RemoveEnds.sound (h : pool.Sound) {possibility : Packet P} {scanStart left step : Nat} {free : Nat → Bool}
    {r : IndexedPool ι P × Int} (hr : RemoveEnds nb pool possibility scanStart free left step r) : r.1.Sound := by
  cases hr with
  | removed hsound => exact hsound
  | absent => exact h
  | givesUp => exact h

theorem Sound.remove (h : pool.Sound) (hnb : 0 < nb) (possibility : Packet P) (thread preferredFile : Int)
    (free : Nat → Bool) : (pool.remove nb possibility thread preferredFile free).1.Sound := by
  unfold IndexedPool.remove
  rcases Int.lt_or_le thread 0 with hthread | hthread
  · exact (h.removeLoop possibility hthread _ free _ 0 0 0 hnb).sound h
  · exact h.removeLoop_thread possibility hthread _ free _ 0 0 0

/-- Every operation keeps the files indexed. -/
theorem Sound.step (h : pool.Sound) (hnb : 0 < nb) {c : AnalysedCall ι P} (hc : c.Allocates) :
    ∃ pool', pool.step nb c = some pool' ∧ pool'.Sound := by
  cases c with
  | add a possibility thread owner leaseSeconds now free element node =>
    obtain ⟨rfl, rfl⟩ := hc
    exact ⟨_, rfl, h.add possibility thread _ free⟩
  | remove possibility thread preferredFile free => exact ⟨_, rfl, h.remove hnb possibility thread preferredFile free⟩
  | send a thread remote s => exact h.send thread remote hc
  | reclaim r => exact ⟨_, rfl, h.reclaimExpiredLeases r⟩
  | purge origins => exact ⟨_, rfl, h.purgeDescendantsOf origins⟩
  | restock dest => exact ⟨_, rfl, h.restockFiles dest nb⟩

end IndexedPool

/-- The index of a file is in bijection with its elements: an element has one node in the bucket of its hash and
none elsewhere, and a node has the hash of an element that is in the file. -/
structure IndexedSegment.Bijective {ι : Type*} [DecidableEq ι] {P : Puzzle} (seg : IndexedSegment ι P) : Prop where
  chains : seg.file.Chains seg.file.elements
  once : ∀ b e, (seg.index b).countP (fun node => node.element = e) =
    if e ∈ seg.file.elements ∧ analysedBucket (seg.hashOf e) = b then 1 else 0
  points : ∀ b, ∀ node ∈ seg.index b, node.element ∈ seg.file.elements ∧ node.hash = seg.hashOf node.element

/-- What an acknowledgement without a thread does: it returns 0 and has taken out one element with what
`compare_possibility` looks at, or 1 when there is none, and leaves the pool as it is; or it gives up, but not
when the locks are free. -/
structure IndexedPool.Acknowledges {ι : Type*} {P : Puzzle} (nb : Nat) (pool : IndexedPool ι P) (possibility : Packet P)
    (free : Nat → Bool) (r : IndexedPool ι P × Int) : Prop where
  removed : r.2 = 0 → pool.Loses nb r.1 possibility.key
  same : r.2 ≠ 0 → r.1 = pool
  found : r.2 ≠ -1 → (r.2 = 0 ↔ pool.Has nb possibility.key)
  values : r.2 = 0 ∨ r.2 = 1 ∨ r.2 = -1
  answers : (∀ i, free i = true) → r.2 ≠ -1

section Reachable

variable {ι : Type*} [DecidableEq ι] {P : Puzzle} {nb : Nat} {pool : IndexedPool ι P} {l : List ι}

theorem IndexedSegment.Indexed.bijective {seg : IndexedSegment ι P} (h : seg.Indexed l) : seg.Bijective := by
  have helements := h.chains.elements_eq
  refine ⟨?_, ?_, ?_⟩
  · rw [helements]
    exact h.chains
  · intro b e
    rw [helements]
    exact h.indexes.count h.chains.spells.nodup b e
  · intro b node hnode
    rw [helements]
    exact ⟨(h.indexes.points hnode).1, h.hashes b node hnode⟩

namespace IndexedPool

omit [DecidableEq ι] in
/-- An element that goes was there. -/
theorem Loses.has {pool' : IndexedPool ι P} {key : PacketKey P} (h : pool.Loses nb pool' key) : pool.Has nb key := by
  obtain ⟨f, hf, u, e, v, q, helements, hq, hkey, -⟩ := h
  refine ⟨f, hf, e, ?_, q, hq, hkey⟩
  rw [helements]
  exact List.mem_append_right _ (List.mem_cons_self ..)

omit [DecidableEq ι] in
/-- When no file has an equal element, none has one with the key. -/
theorem Sound.not_has (h : pool.Sound) {possibility : Packet P} (hlacks : ∀ f < nb, pool.Lacks possibility f) :
    ¬ pool.Has nb possibility.key := by
  rintro ⟨f, hf, e, he, q, hq, hkey⟩
  obtain ⟨l, hindexed⟩ := h.indexed f
  have hmem : e ∈ l := hindexed.chains.elements_eq ▸ he
  have hequals := (equals_iff hindexed hmem possibility).mpr ⟨q, hq, hkey⟩
  rw [hlacks f hf e he] at hequals
  cases hequals

omit [DecidableEq ι] in
/-- Every file is looked at from any of them on. -/
theorem exists_step {scanStart f : Nat} (hstart : scanStart < nb) (hf : f < nb) : ∃ k < nb, (scanStart + k) % nb = f := by
  rcases Nat.lt_or_ge f scanStart with hlt | hge
  · refine ⟨f + nb - scanStart, by omega, ?_⟩
    rw [Nat.add_sub_cancel' (by omega), Nat.add_mod_right, Nat.mod_eq_of_lt hf]
  · refine ⟨f - scanStart, by omega, ?_⟩
    rw [Nat.add_sub_cancel' hge, Nat.mod_eq_of_lt hf]

omit [DecidableEq ι] in
theorem RemoveEnds.acknowledges (h : pool.Sound) {possibility : Packet P} {scanStart left : Nat} {free : Nat → Bool}
    {r : IndexedPool ι P × Int} (hr : RemoveEnds nb pool possibility scanStart free left 0 r) (hstart : scanStart < nb)
    (hleft : nb ≤ left) : pool.Acknowledges nb possibility free r := by
  have hzero : (0 : Int) ≠ -1 := by decide
  have hone : (1 : Int) ≠ 0 ∧ (1 : Int) ≠ -1 := by decide
  cases hr with
  | removed hsound hloses =>
    exact
      { removed := fun _ => hloses, same := fun hne => absurd rfl hne, found := fun _ => iff_of_true rfl hloses.has
        values := .inl rfl, answers := fun _ => hzero }
  | absent hlacks =>
    have hnot : ¬ pool.Has nb possibility.key := by
      refine h.not_has fun f hf => ?_
      obtain ⟨k, hk, rfl⟩ := exists_step hstart hf
      exact hlacks k (Nat.zero_le k) hk
    exact
      { removed := fun hcontra => absurd hcontra hone.1, same := fun _ => rfl, found := fun _ => iff_of_false hone.1 hnot
        values := .inr (.inl rfl), answers := fun _ => hone.2 }
  | givesUp hlate =>
    refine
      { removed := fun hcontra => absurd hcontra.symm hzero, same := fun _ => rfl, found := fun hne => absurd rfl hne
        values := .inr (.inr rfl), answers := fun hfree => ?_ }
    have hfew := hlate hfree
    omega

theorem Sound.acknowledges (h : pool.Sound) (hnb : 0 < nb) (possibility : Packet P) (preferredFile : Int)
    (free : Nat → Bool) :
    pool.Acknowledges nb possibility free (pool.remove nb possibility (-1) preferredFile free) := by
  unfold IndexedPool.remove
  dsimp only
  have hstart : (if preferredFile ≥ 0 ∧ preferredFile < nb then preferredFile.toNat else 0) < nb := by
    split_ifs with hhint
    · omega
    · exact hnb
  exact (h.removeLoop possibility (by decide) _ free _ 0 0 0 hnb).acknowledges h hstart (Nat.le_add_left ..)

end IndexedPool

/-- Over all runs without a failure of allocation, each index is in bijection with the elements of its file, and an
acknowledgement takes out one element with its key exactly when the pool has one, whatever the hint. -/
theorem analysed_bijective (hnb : 0 < nb) {data : ι → Element P} {maxResult : Nat} {stock : LocalStock}
    (hrun : Run (IndexedPool.step nb) (fun _ c => c.Allocates) (IndexedPool.start data maxResult stock) pool) :
    (∀ f, (pool.segment f).Bijective) ∧ ∀ possibility preferredFile free,
      pool.Acknowledges nb possibility free (pool.remove nb possibility (-1) preferredFile free) := by
  have hsound : pool.Sound := by
    refine hrun.invariant (IndexedPool.start_sound data maxResult stock) fun h hc hstep => ?_
    obtain ⟨pool', hnext, hsound⟩ := h.step hnb hc
    rw [← Option.some.inj (hnext.symm.trans hstep)]
    exact hsound
  refine ⟨fun f => ?_, fun possibility preferredFile free => hsound.acknowledges hnb possibility preferredFile free⟩
  obtain ⟨l, hindexed⟩ := hsound.indexed f
  exact hindexed.bijective

end Reachable

/-- The addresses are numbers, and `malloc` gives the next one. -/
def nextAddress : Allocator ℕ where
  malloc used := used.foldr max 0 + 1
  fresh _ hmem := absurd (IndexedFile.le_foldr_max hmem) (Nat.not_le.mpr (Nat.lt_succ_self _))

/-- A board without a piece. -/
def unplacedPacket : Packet .p16 := ⟨0, 0, fun _ => -2, 0, 0, Words.zero, 0⟩

/-- No file has anything, and the stock has one file for each flag. -/
def startPool : IndexedPool ℕ .p16 :=
  IndexedPool.start (fun _ => .compact []) 0 ⟨⟨[[]], 0, Nat.zero_lt_one⟩, ⟨[[]], 0, Nat.zero_lt_one⟩, 0, 0⟩

/-- The same board is given twice, the second time under a lease. -/
def giveTwice : List (AnalysedCall ℕ .p16) :=
  [.add nextAddress unplacedPacket 1 none 0 0 (fun _ => true) true true,
    .add nextAddress unplacedPacket 1 (some [7]) 60 0 (fun _ => true) true true]

/-- An acknowledgement that looks into another file before finds one of the two. -/
theorem analysed_bijective_twice : ∃ pool, Run.exec (IndexedPool.step 2) startPool giveTwice = some pool ∧
    (pool.segment 1).file.elements = [1, 2] ∧ (pool.remove 2 unplacedPacket (-1) 0 fun _ => true).2 = 0 ∧
    ∀ f, (pool.segment f).Bijective := by
  have hexec : ∃ pool, Run.exec (IndexedPool.step 2) startPool giveTwice = some pool ∧
      (pool.segment 1).file.elements = [1, 2] ∧ (pool.remove 2 unplacedPacket (-1) 0 fun _ => true).2 = 0 :=
    ⟨_, rfl, rfl, by decide +kernel⟩
  obtain ⟨pool, hexec, helements, hremoved⟩ := hexec
  refine ⟨pool, hexec, helements, hremoved, ?_⟩
  have hallocates : ∀ c ∈ giveTwice, ∀ pool : IndexedPool ℕ .p16, c.Allocates := by
    intro c hc _
    rcases List.mem_pair.mp hc with rfl | rfl
    · exact ⟨rfl, rfl⟩
    · exact ⟨rfl, rfl⟩
  exact (analysed_bijective (by decide) (Run.of_exec hallocates hexec)).1
