-- SUMMARY: A sorted batch on disk: its blocks and their index, and the cursors that read it back.
import EternityII.Sort.Batch
import EternityII.Spill.Frame

/-!
# Runs

A batch that is sorted is written to disk as a run: blocks of at most 64 KiB of records, each compressed
on its own, and an index with the place, the sizes and the first key of each block. A cursor reads a run
from any of its blocks on, one block at a time.
-/

open RangeMerge

/-! ## Blocks -/

section Blocks

/-- `RUN_BLOCK_RAW`. -/
def runBlockRaw : Nat := 64 * 1024

/-- `CODEC_RAW` and `CODEC_ZSTD`. -/
inductive BlockCodec where
  | raw | zstd
  deriving DecidableEq

/-- `block_bound`. -/
def blockBound (zstd : Option Zstd) (raw : Nat) : Nat := if zstd.isSome then zstdCompressBound raw else raw

/-- `block_pack_ex`: the bytes stored and `*codec`. -/
def blockPackEx (zstd : Option Zstd) (raw : List Byte) (forceZstd : Bool) : List Byte × BlockCodec :=
  match zstd.bind fun zstd => (zstd.compress raw).filter fun r => decide (r.length < raw.length) || forceZstd with
  | some r => (r, .zstd)
  | none => (raw, .raw)

/-- `block_pack`. -/
def blockPack (zstd : Option Zstd) (raw : List Byte) : List Byte × BlockCodec := blockPackEx zstd raw false

/-- `block_unpack`. -/
def blockUnpack (zstd : Option Zstd) (codec : BlockCodec) (src : List Byte) (rawLen : Nat) : Option (List Byte) :=
  match codec with
  | .raw => if src.length ≠ rawLen then none else some src
  | .zstd => zstd.bind fun zstd => zstd.decompress src rawLen

/-- The inner loop of `write_run` over the blocks: what fits in a block that has `raw` bytes, and the rest. -/
def takeBlock : Nat → List (List Byte) → List (List Byte) × List (List Byte)
  | _, [] => ([], [])
  | raw, record :: records =>
    if raw + record.length ≤ runBlockRaw then
      let block := takeBlock (raw + record.length) records
      (record :: block.1, block.2)
    else ([], record :: records)

/-- The blocks of a batch, for so many at most. -/
def blockSpans : Nat → List (List Byte) → List (List (List Byte))
  | _, [] => []
  | 0, _ :: _ => []
  | fuel + 1, record :: records =>
    let block := takeBlock 0 (record :: records)
    block.1 :: blockSpans fuel block.2

/-- An entry of the index. -/
structure IdxEntry where
  off : Nat
  stored : Nat
  raw : Nat
  records : Nat
  codec : BlockCodec
  key : List Byte

/-- `run_t` with its two files. -/
structure SortRun where
  fd : List Byte
  idx : List IdxEntry
  nblocks : Nat

/-- `pack_job_main`: the blocks as they are stored. -/
def packJobMain (zstd : Option Zstd) (spans : List (List (List Byte))) : List (List (List Byte) × List Byte × BlockCodec) :=
  spans.map fun span => (span, blockPack zstd span.flatten)

/-- The entries that `write_run` writes for blocks stored from `off` on. -/
def indexEntries : Nat → List (List (List Byte) × List Byte × BlockCodec) → List IdxEntry
  | _, [] => []
  | off, (span, stored, codec) :: rest =>
    { off, stored := stored.length, raw := span.flatten.length, records := span.length, codec, key := tkey (span.headD []) } ::
      indexEntries (off + stored.length) rest

/-- `write_run`. -/
def writeRun (zstd : Option Zstd) (threads : Nat) (merged : List (List Byte)) : SortRun :=
  let spans := blockSpans merged.length merged
  let jobs := (shares spans (max (min threads spans.length) 1)).map (packJobMain zstd)
  { fd := (jobs.map fun job => (job.map fun block => block.2.1).flatten).flatten
    idx := indexEntries 0 jobs.flatten
    nblocks := spans.length }

end Blocks

/-! ## Cursors -/

section Cursors

variable (P : Puzzle) (zstd : Option Zstd)

/-- `cursor_t`: the run, the block, its bytes and the place in them. -/
structure Cursor where
  run : SortRun
  blk : Nat
  raw : List Byte
  pos : Nat

/-- `cur`, of `cur_len` bytes. -/
def Cursor.cur (cu : Cursor) : List Byte := (cu.raw.drop cu.pos).take (recLen P (cu.raw.drop cu.pos))

/-- `cursor_load`. -/
def cursorLoad (run : SortRun) (i : Nat) : Advance Cursor :=
  if i ≥ run.nblocks then .ended
  else
    match run.idx[i]? with
    | none => .failed
    | some e =>
      let src := (run.fd.drop e.off).take e.stored
      if e.raw = 0 ∨ e.raw > runBlockRaw ∨ e.stored > blockBound zstd runBlockRaw ∨ src.length ≠ e.stored then .failed
      else
        match blockUnpack zstd e.codec src e.raw with
        | none => .failed
        | some raw => .on ⟨run, i, raw, 0⟩

/-- `cursor_next`. -/
def cursorNext (cu : Cursor) : Advance Cursor :=
  let pos := cu.pos + recLen P (cu.raw.drop cu.pos)
  if pos ≥ cu.raw.length then cursorLoad zstd cu.run (cu.blk + 1) else .on { cu with pos }

/-- `run_seek`. -/
def runSeek (run : SortRun) (lo : List Byte) : Option Nat :=
  (bisect (fun m => (run.idx[m]?).map fun e => tkeyCmp e.key lo == .lt) run.nblocks 0 run.nblocks).map fun a =>
    if a > 0 then a - 1 else 0

/-- The loop of `merge_range` that skips what is before its range. -/
def skipBefore (lo : List Byte) : Nat → Advance Cursor → Advance Cursor
  | fuel + 1, .on cu =>
    if beforeKey lo (cu.cur P) then skipBefore lo fuel (cursorNext P zstd cu) else .on cu
  | _, s => s

/-- Where a cursor starts in a range. -/
def cursorStart (fuel : Nat) (lo : Option (List Byte)) (run : SortRun) : Advance Cursor :=
  match lo with
  | none => cursorLoad zstd run 0
  | some lo =>
    match runSeek run lo with
    | none => .failed
    | some start => skipBefore P zstd lo fuel (cursorLoad zstd run start)

end Cursors

/-! ## What a run holds -/

section Spans

variable {P : Puzzle} {records : List (List Byte)}

/-- Records that fit in a block. -/
def FitBlocks (records : List (List Byte)) : Prop := ∀ r ∈ records, 0 < r.length ∧ r.length ≤ runBlockRaw

theorem takeBlock_append (raw : Nat) (records : List (List Byte)) :
    (takeBlock raw records).1 ++ (takeBlock raw records).2 = records := by
  induction records generalizing raw with
  | nil => rfl
  | cons record records ih =>
    unfold takeBlock
    split
    · exact congrArg (record :: ·) (ih _)
    · rfl

theorem takeBlock_length {raw : Nat} (hraw : raw ≤ runBlockRaw) (records : List (List Byte)) :
    raw + (takeBlock raw records).1.flatten.length ≤ runBlockRaw := by
  induction records generalizing raw with
  | nil => exact hraw
  | cons record records ih =>
    unfold takeBlock
    split
    · rename_i hfits
      have := ih hfits
      rw [List.flatten_cons, List.length_append]
      omega
    · exact hraw

/-- The blocks hold all records, none is empty, and each is of its size at most. -/
theorem blockSpans_spec {fuel : Nat} (hfits : FitBlocks records) (hfuel : records.length ≤ fuel) :
    (blockSpans fuel records).flatten = records ∧ ∀ span ∈ blockSpans fuel records,
      span ≠ [] ∧ span.flatten.length ≤ runBlockRaw := by
  induction fuel generalizing records with
  | zero =>
    obtain rfl := List.length_eq_zero_iff.mp (Nat.le_zero.mp hfuel)
    exact ⟨rfl, by simp [blockSpans]⟩
  | succ fuel ih =>
    cases records with
    | nil => exact ⟨rfl, by simp [blockSpans]⟩
    | cons record records =>
      have happend := takeBlock_append 0 (record :: records)
      have hsize := takeBlock_length (Nat.zero_le _) (record :: records)
      have hhead : (takeBlock 0 (record :: records)).1 ≠ [] := by
        unfold takeBlock
        rw [if_pos (by rw [Nat.zero_add]; exact (hfits record List.mem_cons_self).2)]
        exact List.cons_ne_nil _ _
      unfold blockSpans
      generalize takeBlock 0 (record :: records) = block at *
      have hlen := congrArg List.length happend
      rw [List.length_append, List.length_cons] at hlen
      have hpos := List.length_pos_iff.mpr hhead
      rw [List.length_cons] at hfuel
      have hback : FitBlocks block.2 := fun r hr => hfits r (happend ▸ List.mem_append_right _ hr)
      obtain ⟨hflat, hspans⟩ := ih hback (by omega)
      dsimp only
      refine ⟨by rw [List.flatten_cons, hflat, happend], fun span hspan => ?_⟩
      obtain rfl | hspan := List.mem_cons.mp hspan
      · exact ⟨hhead, by omega⟩
      · exact hspans span hspan

variable {zstd : Option Zstd}

theorem blockPack_length (raw : List Byte) : (blockPack zstd raw).1.length ≤ raw.length := by
  unfold blockPack blockPackEx
  split
  · rename_i r hr
    obtain ⟨z, -, hz⟩ := Option.bind_eq_some_iff.mp hr
    obtain ⟨-, hlt⟩ := Option.filter_eq_some_iff.mp hz
    simp at hlt
    exact Nat.le_of_lt hlt
  · exact Nat.le_refl _

theorem blockUnpack_blockPackEx (hlaw : ∀ z, zstd = some z → z.Lawful) (raw : List Byte) (force : Bool) :
    blockUnpack zstd (blockPackEx zstd raw force).2 (blockPackEx zstd raw force).1 raw.length = some raw := by
  unfold blockPackEx
  split
  · rename_i r hr
    obtain ⟨z, rfl, hz⟩ := Option.bind_eq_some_iff.mp hr
    exact (hlaw z rfl).decompress_compress raw r (Option.filter_eq_some_iff.mp hz).1
  · simp [blockUnpack]

/-- A block of a run: its entry in the index leads to its bytes, which hold its records. -/
structure BlockAt (zstd : Option Zstd) (fd : List Byte) (e : IdxEntry) (span : List (List Byte)) : Prop where
  stored : ((fd.drop e.off).take e.stored).length = e.stored
  bound : e.stored ≤ e.raw
  raw : e.raw = span.flatten.length
  key : e.key = tkey (span.headD [])
  unpack : blockUnpack zstd e.codec ((fd.drop e.off).take e.stored) e.raw = some span.flatten

/-- A run holds some blocks of records. -/
structure SortRun.Holds (P : Puzzle) (zstd : Option Zstd) (run : SortRun) (spans : List (List (List Byte))) : Prop where
  nblocks : run.nblocks = spans.length
  blocks : List.Forall₂ (BlockAt zstd run.fd) run.idx spans
  span : ∀ span ∈ spans, span ≠ [] ∧ span.flatten.length ≤ runBlockRaw ∧ ∀ r ∈ span, IsCut P r

theorem indexEntries_blocks (hlaw : ∀ z, zstd = some z → z.Lawful) (front : List Byte) (spans : List (List (List Byte))) :
    List.Forall₂ (BlockAt zstd (front ++ ((packJobMain zstd spans).map fun block => block.2.1).flatten))
      (indexEntries front.length (packJobMain zstd spans)) spans := by
  induction spans generalizing front with
  | nil => exact .nil
  | cons span spans ih =>
    have hrest := ih (front ++ (blockPack zstd span.flatten).1)
    rw [List.length_append, List.append_assoc] at hrest
    refine .cons ?_ hrest
    have htake : ((front ++ ((blockPack zstd span.flatten).1 ++
        ((packJobMain zstd spans).map fun block => block.2.1).flatten)).drop front.length).take
          (blockPack zstd span.flatten).1.length = (blockPack zstd span.flatten).1 := by
      rw [List.drop_left, List.take_left]
    refine ⟨?_, blockPack_length _, rfl, rfl, ?_⟩
    · exact congrArg List.length htake
    · exact (congrArg (fun src => blockUnpack zstd _ src _) htake).trans (blockUnpack_blockPackEx hlaw _ false)

/-- A run that is written holds its records, whatever the number of threads. -/
theorem writeRun_holds (hlaw : ∀ z, zstd = some z → z.Lawful) (threads : Nat) (hcut : ∀ r ∈ records, IsCut P r) :
    ∃ spans, spans.flatten = records ∧ (writeRun zstd threads records).Holds P zstd spans := by
  have hfits : FitBlocks records := by
    intro r hr
    have hlen := recLen_le (P := P) r
    rw [(hcut r hr).2] at hlen
    exact ⟨(hcut r hr).length_pos, Nat.le_trans hlen (by decide)⟩
  obtain ⟨hflat, hspans⟩ := blockSpans_spec hfits (Nat.le_refl _)
  refine ⟨blockSpans records.length records, hflat, rfl, ?_, fun span hspan => ⟨(hspans span hspan).1, (hspans span hspan).2,
    fun r hr => hcut r ?_⟩⟩
  · have hjobs : ((shares (blockSpans records.length records) (max (min threads (blockSpans records.length records).length) 1)).map
        (packJobMain zstd)).flatten = packJobMain zstd (blockSpans records.length records) := by
      unfold packJobMain
      rw [← List.map_flatten, flatten_shares (by omega)]
    have hfd : ∀ jobs : List (List (List (List Byte) × List Byte × BlockCodec)),
        (jobs.map fun job => (job.map fun block => block.2.1).flatten).flatten =
          (jobs.flatten.map fun block => block.2.1).flatten := by
      intro jobs
      rw [List.map_flatten, List.flatten_flatten, List.map_map]
      rfl
    have hblocks := indexEntries_blocks hlaw [] (blockSpans records.length records)
    unfold writeRun
    dsimp only
    rw [hfd, hjobs]
    exact hblocks
  · rw [← hflat]
    exact List.mem_flatten.mpr ⟨span, hspan, hr⟩

end Spans

/-! ## Reading a run -/

section Reading

variable {P : Puzzle} {zstd : Option Zstd} {run : SortRun} {spans : List (List (List Byte))} {i fuel : Nat}

/-- The record of a cursor, and where the next one is. -/
theorem cursor_at {span front back : List (List Byte)} {record : List Byte} (hspan : span = front ++ record :: back)
    (hcut : ∀ r ∈ span, IsCut P r) (zstd : Option Zstd) (run : SortRun) (i : Nat) :
    Cursor.cur P ⟨run, i, span.flatten, front.flatten.length⟩ = record ∧
      cursorNext P zstd ⟨run, i, span.flatten, front.flatten.length⟩ =
        if back.flatten.length = 0 then cursorLoad zstd run (i + 1)
        else .on ⟨run, i, span.flatten, (front ++ [record]).flatten.length⟩ := by
  have hrecord : IsCut P record := hcut record (by rw [hspan]; simp)
  have hdrop : span.flatten.drop front.flatten.length = record ++ back.flatten := by
    rw [hspan, List.flatten_append, List.drop_left, List.flatten_cons]
  have hlen : recLen P (record ++ back.flatten) = record.length := by rw [recLen_append hrecord.1, hrecord.2]
  have htotal : span.flatten.length = front.flatten.length + record.length + back.flatten.length := by
    rw [hspan, List.flatten_append, List.flatten_cons, List.length_append, List.length_append, Nat.add_assoc]
  refine ⟨?_, ?_⟩
  · unfold Cursor.cur
    dsimp only
    rw [hdrop, hlen, List.take_left]
  · unfold cursorNext
    dsimp only
    rw [hdrop, hlen, htotal]
    by_cases hzero : back.flatten.length = 0
    · rw [if_pos (by omega), if_pos hzero]
    · rw [if_neg (by omega), if_neg hzero, List.flatten_append, List.length_append, List.flatten_singleton]

/-- A cursor reads the records of its block from its place on, and then the blocks behind it. -/
theorem reads_block {span front back : List (List Byte)} {record : List Byte}
    (hspan : span = front ++ record :: back) (hcut : ∀ r ∈ span, IsCut P r)
    (hnext : Starts (Cursor.cur P) (cursorNext P zstd) (cursorLoad zstd run (i + 1)) (spans.drop (i + 1)).flatten) :
    Reads (Cursor.cur P) (cursorNext P zstd) ⟨run, i, span.flatten, front.flatten.length⟩
      (record :: back ++ (spans.drop (i + 1)).flatten) := by
  induction back generalizing front record with
  | nil =>
    obtain ⟨hcur, hgo⟩ := cursor_at hspan hcut zstd run i
    rw [if_pos (show ([] : List (List Byte)).flatten.length = 0 from rfl)] at hgo
    rw [List.cons_append, List.nil_append, ← hcur]
    generalize (spans.drop (i + 1)).flatten = rest at *
    generalize hload : cursorLoad zstd run (i + 1) = loaded at *
    cases hnext with
    | ended => exact .last hgo
    | on hreads => exact .cons hgo hreads
  | cons next back ih =>
    obtain ⟨hcur, hgo⟩ := cursor_at hspan hcut zstd run i
    have hnextcut : IsCut P next := hcut next (by rw [hspan]; simp)
    have hpos := hnextcut.length_pos
    rw [if_neg (by rw [List.flatten_cons, List.length_append]; omega)] at hgo
    rw [List.cons_append]
    conv => arg 4; rw [← hcur]
    refine .cons hgo (ih ?_)
    rw [hspan, List.append_assoc]
    rfl

/-- A cursor that is set to a block reads the run from there on. -/
theorem starts_block (hholds : run.Holds P zstd spans) (i : Nat) :
    Starts (Cursor.cur P) (cursorNext P zstd) (cursorLoad zstd run i) (spans.drop i).flatten := by
  induction hn : spans.length - i generalizing i with
  | zero =>
    rw [List.drop_eq_nil_of_le (by omega)]
    unfold cursorLoad
    rw [if_pos (by rw [hholds.nblocks]; omega)]
    exact .ended
  | succ n ih =>
    have hlt : i < spans.length := by omega
    obtain ⟨hne, hsize, hcut⟩ := hholds.span spans[i] (List.getElem_mem hlt)
    obtain ⟨record, back, hspan⟩ := List.exists_cons_of_ne_nil hne
    have hidx : i < run.idx.length := hholds.blocks.length_eq ▸ hlt
    have hblock : BlockAt zstd run.fd run.idx[i] spans[i] := hholds.blocks.get hidx hlt
    have hpos : 0 < spans[i].flatten.length := by
      rw [hspan, List.flatten_cons, List.length_append]
      have := (hcut record (hspan ▸ List.mem_cons_self)).length_pos
      omega
    have hbound : run.idx[i].stored ≤ blockBound zstd runBlockRaw := by
      have hle := hblock.bound
      rw [hblock.raw] at hle
      unfold blockBound zstdCompressBound
      split <;> omega
    have hload : cursorLoad zstd run i = .on ⟨run, i, spans[i].flatten, 0⟩ := by
      unfold cursorLoad
      rw [if_neg (by rw [hholds.nblocks]; omega), List.getElem?_eq_getElem hidx]
      dsimp only
      rw [if_neg, hblock.unpack]
      rw [hblock.stored, hblock.raw]
      omega
    have hdrop : (spans.drop i).flatten = record :: back ++ (spans.drop (i + 1)).flatten := by
      rw [List.drop_eq_getElem_cons hlt, List.flatten_cons, hspan]
    rw [hload, hdrop]
    have hfirst : spans[i] = [] ++ record :: back := hspan
    exact .on (reads_block hfirst hcut (ih (i + 1) (by omega)))

/-- Skipping stops at the first record that is not before the border. -/
theorem skipBefore_starts {lo : List Byte} {s : Advance Cursor} {l : List (List Byte)}
    (h : Starts (Cursor.cur P) (cursorNext P zstd) s l) (hfuel : l.length ≤ fuel) :
    Starts (Cursor.cur P) (cursorNext P zstd) (skipBefore P zstd lo fuel s) (l.dropWhile (beforeKey lo)) := by
  induction fuel generalizing s l with
  | zero =>
    obtain rfl := List.length_eq_zero_iff.mp (Nat.le_zero.mp hfuel)
    cases h with
    | ended => exact .ended
    | on hreads =>
      obtain ⟨rest, hrest⟩ := hreads.exists_cons
      cases hrest
  | succ fuel ih =>
    cases h with
    | ended => exact .ended
    | @on cu _ hreads =>
      unfold skipBefore
      obtain ⟨rest, rfl⟩ := hreads.exists_cons
      split
      · rename_i hbefore
        rw [List.dropWhile_cons_of_pos hbefore]
        have hnext : Starts (Cursor.cur P) (cursorNext P zstd) (cursorNext P zstd cu) rest := by
          cases hreads with
          | last hgo => rw [hgo]; exact .ended
          | cons hgo hrest => rw [hgo]; exact .on hrest
        exact ih hnext (by simpa using hfuel)
      · rename_i hstop
        rw [List.dropWhile_cons_of_neg hstop]
        exact .on hreads

/-- The first records of the blocks are sorted. -/
theorem heads_sorted (hne : ∀ span ∈ spans, span ≠ []) (hsorted : spans.flatten.Pairwise (recordLe · ·)) :
    (spans.map fun span => span.headD []).Pairwise (recordLe · ·) := by
  have hhead : ∀ span : List (List Byte), span ≠ [] → span.headD [] ∈ span := by
    intro span hspan
    obtain ⟨r, rest, rfl⟩ := List.exists_cons_of_ne_nil hspan
    exact List.mem_cons_self
  induction spans with
  | nil => exact .nil
  | cons span spans ih =>
    rw [List.flatten_cons] at hsorted
    obtain ⟨-, hrest, hcross⟩ := List.pairwise_append.mp hsorted
    refine .cons (fun r hr => ?_) (ih (fun span h => hne span (List.mem_cons_of_mem _ h)) hrest)
    obtain ⟨span', hspan', rfl⟩ := List.mem_map.mp hr
    exact hcross _ (hhead span (hne span List.mem_cons_self)) _
      (List.mem_flatten.mpr ⟨span', hspan', hhead span' (hne span' (List.mem_cons_of_mem _ hspan'))⟩)

/-- The search in the index finds a block with nothing but records before the border in front of it. -/
theorem runSeek_spec (hholds : run.Holds P zstd spans) (hsorted : spans.flatten.Pairwise (recordLe · ·)) (lo : List Byte) :
    ∃ start, runSeek run lo = some start ∧ ∀ r ∈ (spans.take start).flatten, beforeKey lo r = true := by
  have hheads := heads_sorted (fun span h => (hholds.span span h).1) hsorted
  have hfront := getElem?_map_eq (hheads.imp fun {x y} hle hy => beforeKey_mono lo x y hle hy)
  have hlen : (spans.map fun span => span.headD []).length = spans.length := List.length_map _
  have hle := List.countP_le_length (p := beforeKey lo) (l := spans.map fun span => span.headD [])
  generalize hc : (spans.map fun span => span.headD []).countP (beforeKey lo) = c at *
  have hidx : ∀ m < run.nblocks, ((run.idx[m]?).map fun e => tkeyCmp e.key lo == .lt) = some (decide (m < c)) := by
    intro m hm
    rw [hholds.nblocks] at hm
    have hmidx : m < run.idx.length := hholds.blocks.length_eq ▸ hm
    have hblock : BlockAt zstd run.fd run.idx[m] spans[m] := hholds.blocks.get hmidx hm
    have hkey : (run.idx[m]?).map (fun e => tkeyCmp e.key lo == .lt) =
        ((spans.map fun span => span.headD [])[m]?).map (beforeKey lo) := by
      rw [List.getElem?_eq_getElem hmidx, List.getElem?_map, List.getElem?_eq_getElem hm, Option.map_some,
        Option.map_some, Option.map_some, hblock.key]
      rfl
    rw [hkey, hfront m (by omega)]
  have hseek : runSeek run lo = some (if c > 0 then c - 1 else 0) := by
    unfold runSeek
    rw [bisect_eq hidx (Nat.zero_le c) (by rw [hholds.nblocks]; omega) (Nat.le_refl _), Option.map_some]
  refine ⟨_, hseek, fun r hr => ?_⟩
  split at hr
  · rename_i hpos
    -- The block that the search finds starts before the border, and what is in front of it is before that.
    have hlt : c - 1 < spans.length := by omega
    have hne := (hholds.span spans[c - 1] (List.getElem_mem hlt)).1
    obtain ⟨first, rest, hfirst⟩ := List.exists_cons_of_ne_nil hne
    have hbefore : beforeKey lo first = true := by
      have hat := hfront (c - 1) (by omega)
      rw [List.getElem?_map, List.getElem?_eq_getElem hlt, hfirst, decide_eq_true (by omega)] at hat
      exact Option.some.inj hat
    have hsplit : spans.flatten = (spans.take (c - 1)).flatten ++ (first :: rest ++ (spans.drop (c - 1 + 1)).flatten) := by
      conv_lhs => rw [← List.take_append_drop (c - 1) spans, List.drop_eq_getElem_cons hlt, hfirst]
      rw [List.flatten_append, List.flatten_cons]
    rw [hsplit] at hsorted
    exact beforeKey_mono lo r first ((List.pairwise_append.mp hsorted).2.2 r hr first (by simp)) hbefore
  · rw [List.take_zero] at hr
    cases hr

/-- In a range a cursor starts at the first record that is not before the border. -/
theorem cursorStart_starts (hholds : run.Holds P zstd spans) (hsorted : spans.flatten.Pairwise (recordLe · ·))
    (hfuel : spans.flatten.length ≤ fuel) (lo : Option (List Byte)) :
    Starts (Cursor.cur P) (cursorNext P zstd) (cursorStart P zstd fuel lo run)
      (spans.flatten.filter fun r => lo.all fun lo => !beforeKey lo r) := by
  cases lo with
  | none =>
    rw [List.filter_eq_self.mpr (by simp)]
    exact starts_block hholds 0
  | some lo =>
    obtain ⟨start, hseek, hfront⟩ := runSeek_spec hholds hsorted lo
    have hback : ((spans.drop start).flatten).Pairwise (recordLe · ·) :=
      hsorted.sublist (List.drop_sublist start spans).flatten
    have hsplit : spans.flatten.filter (fun r => !beforeKey lo r) = (spans.drop start).flatten.dropWhile (beforeKey lo) := by
      rw [dropWhile_eq_filter (hback.imp fun {x y} hle hy => beforeKey_mono lo x y hle hy)]
      conv_lhs => rw [← List.take_append_drop start spans, List.flatten_append, List.filter_append]
      rw [List.filter_eq_nil_iff.mpr fun r hr => by simp [hfront r hr], List.nil_append]
    have hlen : (spans.drop start).flatten.length ≤ spans.flatten.length := (List.drop_sublist start spans).flatten.length_le
    have hstart : cursorStart P zstd fuel (some lo) run = skipBefore P zstd lo fuel (cursorLoad zstd run start) := by
      simp [cursorStart, hseek]
    change Starts _ _ _ (spans.flatten.filter fun r => !beforeKey lo r)
    rw [hstart, hsplit]
    exact skipBefore_starts (starts_block hholds start) (Nat.le_trans hlen hfuel)

end Reading
