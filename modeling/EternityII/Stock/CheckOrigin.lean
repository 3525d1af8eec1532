-- SUMMARY: The threads that mark the duplicates and the descendants in the stock, and the purge of what they have marked.
import EternityII.Base.Antichain
import EternityII.Base.Runs
import EternityII.Stock.Canonical
import EternityII.Stock.LeaseReclaim
import Mathlib.Algebra.Order.BigOperators.Group.List

/-!
# Duplicates and descendants in the stock

`check_origin` lays the two pools out in a table sorted by the number of placed pieces. The threads share
the rows of the table between them. The thread that has a row compares it with the entries after it: one
that places as many pieces is marked if it is equal, and one that places more if it descends from the row.
The threads race for the marks, which are never cleared. A purge removes the marked elements.
-/

/-! ## Elements -/

section Elements

variable {P : Puzzle}

/-- `element_equals`. -/
def elementEquals (e : List Byte) (key : Packet P) : Bool :=
  match recordPacket P e with
  | none => false
  | some buf => comparePossibility buf key = 0

/-- `element_has_origin`. -/
def elementHasOrigin (root : Packet P) (e : List Byte) : Bool :=
  match recordPacket P e with
  | none => false
  | some buf => isOriginOf root buf = 1

variable (P)

/-- `element_equals_element`. -/
def elementEqualsElement (a b : List Byte) : Bool :=
  match recordPacket P a with
  | none => false
  | some buf => elementEquals b buf

/-- `element_has_origin_element`. -/
def elementHasOriginElement (a b : List Byte) : Bool :=
  match recordPacket P a with
  | none => false
  | some buf => elementHasOrigin buf b

end Elements

/-! ## The table -/

/-- `origin_entry_t`, without its marks. -/
structure OriginEntry where
  element : List Byte
  position : Nat
  alloc : UInt16
  fileIndex : Nat
  pool : Bool

/-- Where the element is. -/
def OriginEntry.place (e : OriginEntry) : Bool × Nat × Nat := (e.pool, e.fileIndex, e.position)

/-- `datas_size`. -/
def LocalStock.datasSize (stock : LocalStock) : Nat :=
  (stock.unchecked.files.map List.length).sum + (stock.checked.files.map List.length).sum

/-- The entries of one file. -/
def fileEntries (P : Puzzle) (stock : LocalStock) (fp : Nat) (pool : Bool) : List OriginEntry :=
  ((stock.pool pool).files.getD fp []).zipIdx.map fun e => ⟨e.1, e.2, packetCodecPeekPlaced P e.1, fp, pool⟩

/-- `collect_origin_entries`. -/
def collectOriginEntries (P : Puzzle) (stock : LocalStock) (capacity : Nat) : List OriginEntry :=
  ((List.range stock.unchecked.files.length).flatMap fun fp => [false, true].flatMap (fileEntries P stock fp)).take
    capacity

/-- The loop of `origin_upper_bound`; every turn narrows the interval, which bounds the fuel. -/
def originUpperBoundLoop (entries : List OriginEntry) (alloc : UInt16) : Nat → Nat → Nat → Nat
  | 0, low, _ => low
  | fuel + 1, low, high =>
    if low < high then
      let mid := low + (high - low) / 2
      if entries[mid]?.any fun e => decide (e.alloc > alloc) then originUpperBoundLoop entries alloc fuel low mid
      else originUpperBoundLoop entries alloc fuel (mid + 1) high
    else low

/-- `origin_upper_bound`. -/
def originUpperBound (entries : List OriginEntry) (alloc : UInt16) : Nat :=
  originUpperBoundLoop entries alloc entries.length 0 entries.length

/-! ## The scan -/

/-- `NB_ORIGIN_THREAD`. -/
def nbOriginThread : Nat := 8

/-- The two inner loops of `check_origin_thread`, each with a mark and a counter of its own: `is_duplicate`
and `duplicate_found`, `is_descendant` and `origin_found`. -/
inductive OriginBand where
  | duplicate | descendant
  deriving DecidableEq

/-- Where a thread stands: before it loads the root `i`, before it looks at the mark of the entry `j`, before
it exchanges this mark, before it counts it, or at its end. -/
inductive OriginThread where
  | load (i : Nat)
  | compare (band : OriginBand) (i j : Nat)
  | exchange (band : OriginBand) (i j : Nat)
  | count (band : OriginBand) (i j : Nat)
  | finished
  deriving DecidableEq

/-- The marks of the entries, the counters and the threads. -/
structure OriginScan where
  isMarked : OriginBand → Nat → Bool
  found : OriginBand → Nat
  threads : List OriginThread

/-- A thread takes a step. Its relaxed load of a mark may be late; it only ever returns a mark that has been
set. -/
structure OriginTurn where
  thread : Nat
  seen : Bool

section Scan

variable (P : Puzzle) (entries : List OriginEntry)

/-- The first entry with more pieces than the row. -/
def originStart (i : Nat) : Nat :=
  match entries[i]? with
  | none => entries.length
  | some root => originUpperBound entries root.alloc

/-- Where an inner loop begins. -/
def OriginBand.first (i : Nat) : OriginBand → Nat
  | duplicate => i + 1
  | descendant => originStart entries i

/-- Where an inner loop ends. -/
def OriginBand.last (i : Nat) : OriginBand → Nat
  | duplicate => originStart entries i
  | descendant => entries.length

/-- What an inner loop looks for. -/
def OriginBand.matches (i j : Nat) (band : OriginBand) : Bool :=
  match entries[i]?, entries[j]? with
  | some root, some e =>
    match band with
    | duplicate => elementEqualsElement P root.element e.element
    | descendant => elementHasOriginElement P root.element e.element
  | _, _ => false

namespace OriginScan

/-- The thread goes on. -/
def resume (s : OriginScan) (thread : Nat) (t : OriginThread) : OriginScan :=
  { s with threads := s.threads.set thread t }

/-- `__atomic_exchange_n` on a mark. -/
def setMark (s : OriginScan) (band : OriginBand) (j : Nat) : OriginScan :=
  { s with isMarked := fun band' j' => decide (band' = band ∧ j' = j) || s.isMarked band' j' }

/-- `__atomic_fetch_add` on a counter. -/
def countOne (s : OriginScan) (band : OriginBand) : OriginScan :=
  { s with found := fun band' => if band' = band then s.found band' + 1 else s.found band' }

/-- The scan begins: the threads take the first rows. -/
def start : OriginScan where
  isMarked _ _ := false
  found _ := 0
  threads := (List.range (min nbOriginThread entries.length)).map .load

/-- `check_origin_thread`, one access to the shared memory at a time. -/
def step (s : OriginScan) (turn : OriginTurn) : Option OriginScan :=
  match s.threads[turn.thread]? with
  | some (.load i) =>
    match entries[i]? with
    | none => some (s.resume turn.thread .finished)
    | some root =>
      match recordPacket P root.element with
      | none => some (s.resume turn.thread (.load (i + nbOriginThread)))
      | some _ => some (s.resume turn.thread (.compare .duplicate i (i + 1)))
  | some (.compare band i j) =>
    if j < band.last entries i then
      if turn.seen then
        if s.isMarked band j then some (s.resume turn.thread (.compare band i (j + 1))) else none
      else if band.matches P entries i j then some (s.resume turn.thread (.exchange band i j))
      else some (s.resume turn.thread (.compare band i (j + 1)))
    else
      match band with
      | .duplicate => some (s.resume turn.thread (.compare .descendant i (originStart entries i)))
      | .descendant => some (s.resume turn.thread (.load (i + nbOriginThread)))
  | some (.exchange band i j) =>
    if s.isMarked band j then some ((s.setMark band j).resume turn.thread (.compare band i (j + 1)))
    else some ((s.setMark band j).resume turn.thread (.count band i j))
  | some (.count band i j) => some ((s.countOne band).resume turn.thread (.compare band i (j + 1)))
  | _ => none

end OriginScan

end Scan

/-! ## The call -/

/-- `file_remove_element` on the elements of some entries of a pool. -/
def Pool.removeElements (pool : Pool) (which : Bool) (gone : List OriginEntry) : Pool :=
  { pool with
    files := pool.files.mapIdx fun fp file =>
      (file.zipIdx.filter fun e => !gone.any fun g => g.place = (which, fp, e.2)).map Prod.fst
    files_pos := by rw [List.length_mapIdx]; exact pool.files_pos }

/-- The stock without the elements of some entries. -/
def LocalStock.removeElements (stock : LocalStock) (gone : List OriginEntry) : LocalStock :=
  { stock with
    unchecked := stock.unchecked.removeElements false gone
    checked := stock.checked.removeElements true gone }

/-- The entries that have a mark. -/
def OriginScan.marked (s : OriginScan) (entries : List OriginEntry) : List OriginEntry :=
  (entries.zipIdx.filter fun e => s.isMarked .descendant e.2 || s.isMarked .duplicate e.2).map Prod.fst

/-- `check_origin`: the value it returns and the stock it leaves. The table may not fit in memory; `qsort`
leaves entries with equal keys in any order, and the threads run in any order. -/
inductive CheckOrigin (P : Puzzle) (purge : Bool) (stock : LocalStock) : Bool → Int → LocalStock → Prop
  | outOfMemory (hsize : 0 < stock.datasSize) : CheckOrigin P purge stock false (-1) stock
  | scanned (allocated : Bool) (hallocated : 0 < stock.datasSize → allocated = true) (entries : List OriginEntry)
      (hperm : entries.Perm (collectOriginEntries P stock stock.datasSize))
      (hsorted : entries.Pairwise fun e e' => e.alloc ≤ e'.alloc) (s : OriginScan)
      (hrun : Run (OriginScan.step P entries) (fun _ _ => True) (.start entries) s)
      (hfinished : ∀ t ∈ s.threads, t = .finished) :
      CheckOrigin P purge stock allocated (if 0 < s.found .descendant + s.found .duplicate then -1 else 0)
        (if purge then stock.removeElements (s.marked entries) else stock)

/-! ## The rows of the table -/

section Table

variable {entries : List OriginEntry}

theorem originUpperBoundLoop_spec (hsorted : entries.Pairwise fun e e' => e.alloc ≤ e'.alloc) (alloc : UInt16)
    {fuel low high : Nat} (hfuel : high - low ≤ fuel) (hlow : low ≤ high) (hhigh : high ≤ entries.length)
    (hbefore : ∀ (j : Nat) (hj : j < entries.length), j < low → entries[j].alloc ≤ alloc)
    (hafter : ∀ (j : Nat) (hj : j < entries.length), high ≤ j → alloc < entries[j].alloc) :
    originUpperBoundLoop entries alloc fuel low high ≤ entries.length ∧
      ∀ (j : Nat) (hj : j < entries.length),
        (j < originUpperBoundLoop entries alloc fuel low high ↔ entries[j].alloc ≤ alloc) := by
  have hdone : ∀ {low high : Nat}, low = high → high ≤ entries.length →
      (∀ (j : Nat) (hj : j < entries.length), j < low → entries[j].alloc ≤ alloc) →
      (∀ (j : Nat) (hj : j < entries.length), high ≤ j → alloc < entries[j].alloc) →
      low ≤ entries.length ∧ ∀ (j : Nat) (hj : j < entries.length), (j < low ↔ entries[j].alloc ≤ alloc) := by
    rintro low _ rfl hhigh hbefore hafter
    refine ⟨hhigh, fun j hj => ⟨hbefore j hj, fun hle => Nat.lt_of_not_le fun hge => ?_⟩⟩
    exact absurd hle (UInt16.not_le.mpr (hafter j hj hge))
  induction fuel generalizing low high with
  | zero =>
    have hempty : low = high := by omega
    exact hdone hempty hhigh hbefore hafter
  | succ fuel ih =>
    unfold originUpperBoundLoop
    by_cases hlt : low < high
    · rw [if_pos hlt]
      dsimp only
      have hmid : low + (high - low) / 2 < entries.length := by omega
      rw [List.getElem?_eq_getElem hmid, Option.any_some]
      generalize hm : low + (high - low) / 2 = mid at hmid
      have hordered : ∀ (i j : Nat) (hi : i < entries.length) (hj : j < entries.length), i < j →
          entries[i].alloc ≤ entries[j].alloc := fun i j hi hj hij => List.pairwise_iff_getElem.mp hsorted i j hi hj hij
      by_cases hgreater : entries[mid].alloc > alloc
      · rw [decide_eq_true hgreater, if_pos rfl]
        refine ih (by omega) (by omega) (by omega) hbefore fun j hj hge => ?_
        rcases Nat.eq_or_lt_of_le hge with rfl | hlater
        · exact hgreater
        · exact UInt16.lt_of_lt_of_le hgreater (hordered mid j hmid hj hlater)
      · rw [decide_eq_false hgreater, if_neg Bool.false_ne_true]
        refine ih (by omega) (by omega) hhigh (fun j hj hle => ?_) hafter
        rcases Nat.eq_or_lt_of_le (Nat.le_of_lt_succ hle) with rfl | hearlier
        · exact UInt16.not_lt.mp hgreater
        · exact UInt16.le_trans (hordered j mid hj hmid hearlier) (UInt16.not_lt.mp hgreater)
    · rw [if_neg hlt]
      exact hdone (by omega) hhigh hbefore hafter

/-- The entries before the bound are those with at most as many pieces. -/
theorem originStart_spec (hsorted : entries.Pairwise fun e e' => e.alloc ≤ e'.alloc) {i : Nat}
    (hi : i < entries.length) :
    originStart entries i ≤ entries.length ∧
      ∀ (j : Nat) (hj : j < entries.length), (j < originStart entries i ↔ entries[j].alloc ≤ entries[i].alloc) := by
  unfold originStart
  rw [List.getElem?_eq_getElem hi]
  exact originUpperBoundLoop_spec hsorted _ (by omega) (Nat.zero_le _) (le_refl _)
    (fun j _ hj => absurd hj (Nat.not_lt_zero j)) fun j hj hge => absurd hj (Nat.not_lt.mpr hge)

end Table

/-! ## What the threads mark -/

section Marks

variable {P : Puzzle} {entries : List OriginEntry} {s s' : OriginScan} {band : OriginBand} {i j thread : Nat}
  {t t' : OriginThread} {turn : OriginTurn}

/-- An inner loop of the row compares it with the entry and finds what it looks for. -/
structure Hit (P : Puzzle) (entries : List OriginEntry) (band : OriginBand) (i j : Nat) : Prop where
  first : band.first entries i ≤ j
  last : j < band.last entries i
  found : band.matches P entries i j = true

/-- Everything that the rows of a thread before one find is marked. -/
def RowsDone (P : Puzzle) (entries : List OriginEntry) (s : OriginScan) (thread i : Nat) : Prop :=
  ∀ i' < i, i' % nbOriginThread = thread → ∀ band j, Hit P entries band i' j → s.isMarked band j = true

/-- The row has been marked up to the entry of an inner loop. -/
structure AtEntry (P : Puzzle) (entries : List OriginEntry) (s : OriginScan) (thread : Nat) (band : OriginBand)
    (i j : Nat) : Prop where
  row : i < entries.length
  turn : i % nbOriginThread = thread
  rows : RowsDone P entries s thread i
  duplicates : band = .descendant → ∀ j', Hit P entries .duplicate i j' → s.isMarked .duplicate j' = true
  before : ∀ j' < j, Hit P entries band i j' → s.isMarked band j' = true
  first : band.first entries i ≤ j

/-- What a thread has done by the time it stands somewhere. -/
def OriginThread.Inv (P : Puzzle) (entries : List OriginEntry) (s : OriginScan) (thread : Nat) :
    OriginThread → Prop
  | load i => i % nbOriginThread = thread ∧ RowsDone P entries s thread i
  | compare band i j => AtEntry P entries s thread band i j
  | exchange band i j => AtEntry P entries s thread band i j ∧ Hit P entries band i j
  | count band i j => AtEntry P entries s thread band i j ∧ j < band.last entries i ∧ s.isMarked band j = true
  | finished => ∀ i, RowsDone P entries s thread i

/-- Only finds are marked, a counter has counted once there is a mark or a thread is about to do so, and the
threads have done their rows. -/
structure OriginScan.Inv (P : Puzzle) (entries : List OriginEntry) (s : OriginScan) : Prop where
  length : s.threads.length = min nbOriginThread entries.length
  sound : ∀ band j, s.isMarked band j = true → ∃ i, Hit P entries band i j
  counted : ∀ band, 0 < s.found band → ∃ j, s.isMarked band j = true
  pending : ∀ band j, s.isMarked band j = true → 0 < s.found band ∨ ∃ i j', .count band i j' ∈ s.threads
  threads : ∀ (thread : Nat) (t : OriginThread), s.threads[thread]? = some t → t.Inv P entries s thread

/-- Marks are only added. -/
theorem OriginThread.Inv.mono (h : t.Inv P entries s thread)
    (hmarks : ∀ band j, s.isMarked band j = true → s'.isMarked band j = true) : t.Inv P entries s' thread := by
  have hentry : ∀ {band i j}, AtEntry P entries s thread band i j → AtEntry P entries s' thread band i j :=
    fun h => { h with
      rows := fun i' hi' hturn band j hhit => hmarks band j (h.rows i' hi' hturn band j hhit)
      duplicates := fun hband j' hhit => hmarks _ j' (h.duplicates hband j' hhit)
      before := fun j' hj' hhit => hmarks _ j' (h.before j' hj' hhit) }
  cases t with
  | load i => exact ⟨h.1, fun i' hi' hturn band j hhit => hmarks band j (h.2 i' hi' hturn band j hhit)⟩
  | compare band i j => exact hentry h
  | exchange band i j => exact ⟨hentry h.1, h.2⟩
  | count band i j => exact ⟨hentry h.1, h.2.1, hmarks band j h.2.2⟩
  | finished => exact fun i i' hi' hturn band j hhit => hmarks band j (h i i' hi' hturn band j hhit)

/-- The entry is done: it is marked if it is a find. -/
theorem AtEntry.next (h : AtEntry P entries s thread band i j)
    (hmarked : Hit P entries band i j → s.isMarked band j = true) : AtEntry P entries s thread band i (j + 1) where
  row := h.row
  turn := h.turn
  rows := h.rows
  duplicates := h.duplicates
  before j' hj' hhit := by
    rcases Nat.eq_or_lt_of_le (Nat.le_of_lt_succ hj') with rfl | hlt
    · exact hmarked hhit
    · exact h.before j' hlt hhit
  first := Nat.le_succ_of_le h.first

/-- The row is done. -/
theorem AtEntry.rowsDone (h : AtEntry P entries s thread .descendant i j)
    (hlast : ¬ j < OriginBand.last entries i .descendant) :
    RowsDone P entries s thread (i + nbOriginThread) := by
  intro i' hi' hturn band j' hhit
  by_cases hlt : i' < i
  · exact h.rows i' hlt hturn band j' hhit
  · -- The thread has no row between two that it takes.
    obtain rfl : i' = i := by
      have hrow := h.turn
      unfold nbOriginThread at hi' hturn hrow
      omega
    cases band with
    | duplicate => exact h.duplicates rfl j' hhit
    | descendant => exact h.before j' (Nat.lt_of_lt_of_le hhit.last (Nat.le_of_not_lt hlast)) hhit

theorem mem_set_of_ne {α : Type} {l : List α} {n : Nat} {a old new : α} (ha : a ∈ l) (hold : l[n]? = some old)
    (hne : a ≠ old) : a ∈ l.set n new := by
  obtain ⟨k, hk⟩ := List.mem_iff_getElem?.mp ha
  refine List.mem_iff_getElem?.mpr ⟨k, ?_⟩
  have hnk : n ≠ k := by
    rintro rfl
    exact hne (Option.some.inj (hk.symm.trans hold))
  exact (List.getElem?_set_ne hnk).trans hk

namespace OriginScan.Inv

/-- A thread has gone on, and marks may have been added. -/
theorem advance (h : s.Inv P entries) (hturn : s.threads[thread]? = some t) (hthreads : s'.threads = s.threads)
    (hmarks : ∀ band j, s.isMarked band j = true → s'.isMarked band j = true)
    (hsound : ∀ band j, s'.isMarked band j = true → ∃ i, Hit P entries band i j)
    (hcounted : ∀ band, 0 < s'.found band → ∃ j, s'.isMarked band j = true)
    (hpending : ∀ band j, s'.isMarked band j = true →
      0 < s'.found band ∨ ∃ i j', .count band i j' ∈ s.threads.set thread t')
    (hinv : t'.Inv P entries s' thread) : (s'.resume thread t').Inv P entries where
  length := (List.length_set ..).trans (hthreads ▸ h.length)
  sound := hsound
  counted := hcounted
  pending band j hmarked := by
    rw [← hthreads] at hpending
    exact hpending band j hmarked
  threads k t₁ hk := by
    by_cases heq : thread = k
    · subst heq
      have hlt : thread < s.threads.length := (List.getElem?_eq_some_iff.mp hturn).1
      have hset : (s'.resume thread t').threads[thread]? = some t' := List.getElem?_set_self (hthreads ▸ hlt)
      rw [hset] at hk
      cases hk
      exact hinv.mono fun _ _ hmarked => hmarked
    · have hother : (s'.resume thread t').threads[k]? = s.threads[k]? :=
        (List.getElem?_set_ne heq).trans (congrArg (·[k]?) hthreads)
      exact (h.threads k t₁ (hother.symm.trans hk)).mono hmarks

/-- A thread has gone on, and left the marks and the counters alone. -/
theorem resume (h : s.Inv P entries) (hturn : s.threads[thread]? = some t) (hcount : ∀ band i j, t ≠ .count band i j)
    (hinv : t'.Inv P entries s thread) : (s.resume thread t').Inv P entries := by
  refine h.advance hturn rfl (fun _ _ hmarked => hmarked) h.sound h.counted (fun band j hmarked => ?_) hinv
  exact (h.pending band j hmarked).imp_right fun ⟨i, j', hmem⟩ => ⟨i, j', mem_set_of_ne hmem hturn (hcount band i j').symm⟩

/-- A thread has set a mark. -/
theorem exchange (h : s.Inv P entries) (hturn : s.threads[thread]? = some (.exchange band i j)) :
    (if s.isMarked band j then (s.setMark band j).resume thread (.compare band i (j + 1))
      else (s.setMark band j).resume thread (.count band i j)).Inv P entries := by
  obtain ⟨hentry, hhit⟩ := h.threads thread _ hturn
  have hmarks : ∀ band' j', s.isMarked band' j' = true → (s.setMark band j).isMarked band' j' = true :=
    fun band' j' hmarked => Bool.or_eq_true_iff.mpr (.inr hmarked)
  have hset : (s.setMark band j).isMarked band j = true := Bool.or_eq_true_iff.mpr (.inl (decide_eq_true ⟨rfl, rfl⟩))
  have hsplit : ∀ {band' j'}, (s.setMark band j).isMarked band' j' = true →
      (band' = band ∧ j' = j) ∨ s.isMarked band' j' = true :=
    fun hmarked => (Bool.or_eq_true_iff.mp hmarked).imp_left of_decide_eq_true
  have hsound : ∀ band' j', (s.setMark band j).isMarked band' j' = true → ∃ i, Hit P entries band' i j' := by
    intro band' j' hmarked
    rcases hsplit hmarked with ⟨rfl, rfl⟩ | hold
    · exact ⟨i, hhit⟩
    · exact h.sound band' j' hold
  have hcounted : ∀ band', 0 < (s.setMark band j).found band' → ∃ j', (s.setMark band j).isMarked band' j' = true :=
    fun band' hpos => (h.counted band' hpos).imp fun j' => hmarks band' j'
  have hold : ∀ {t' : OriginThread} {band' j'}, s.isMarked band' j' = true →
      0 < s.found band' ∨ ∃ i' j'', .count band' i' j'' ∈ s.threads.set thread t' := by
    intro t' band' j' hmarked
    refine (h.pending band' j' hmarked).imp_right fun ⟨i', j'', hmem⟩ => ⟨i', j'', mem_set_of_ne hmem hturn ?_⟩
    exact fun heq => OriginThread.noConfusion heq
  have hnext := (OriginThread.Inv.mono (t := .compare band i j) hentry hmarks)
  split
  · rename_i hmarked
    refine h.advance hturn rfl hmarks hsound hcounted (fun band' j' hmarked' => @hold _ band' j' ?_)
      (AtEntry.next hnext fun _ => hset)
    rcases hsplit hmarked' with ⟨rfl, rfl⟩ | hold'
    · exact hmarked
    · exact hold'
  · refine h.advance hturn rfl hmarks hsound hcounted (fun band' j' hmarked' => ?_) ⟨hnext, hhit.last, hset⟩
    rcases hsplit hmarked' with ⟨rfl, rfl⟩ | hold'
    · exact .inr ⟨i, j', List.mem_set (List.getElem?_eq_some_iff.mp hturn).1 _⟩
    · exact hold hold'

/-- A thread has counted a mark. -/
theorem countOne (h : s.Inv P entries) (hturn : s.threads[thread]? = some (.count band i j)) :
    ((s.countOne band).resume thread (.compare band i (j + 1))).Inv P entries := by
  obtain ⟨hentry, -, hmarked⟩ := h.threads thread _ hturn
  refine h.advance hturn rfl (fun _ _ hmarked => hmarked) h.sound (fun band' hpos => ?_) (fun band' j' hmarked' => ?_)
    (OriginThread.Inv.mono (t := .compare band i (j + 1)) (hentry.next fun _ => hmarked) fun _ _ hold => hold)
  · by_cases hband : band' = band
    · exact ⟨j, hband ▸ hmarked⟩
    · refine h.counted band' ?_
      unfold OriginScan.countOne at hpos
      dsimp only at hpos
      rwa [if_neg hband] at hpos
  · unfold OriginScan.countOne
    dsimp only
    by_cases hband : band' = band
    · rw [if_pos hband]
      exact .inl (Nat.succ_pos _)
    · rw [if_neg hband]
      refine (h.pending band' j' hmarked').imp_right fun ⟨i', j'', hmem⟩ => ⟨i', j'', mem_set_of_ne hmem hturn ?_⟩
      exact fun heq => hband (OriginThread.count.inj heq).1

/-- One step of one thread. -/
theorem step (h : s.Inv P entries) (hloads : ∀ e ∈ entries, (recordPacket P e.element).isSome = true)
    (hstep : s.step P entries turn = some s') :
    s'.Inv P entries := by
  unfold OriginScan.step at hstep
  split at hstep
  · rename_i i hturn
    obtain ⟨hrow, hrows⟩ := h.threads turn.thread _ hturn
    split at hstep
    · rename_i hnone
      cases hstep
      refine h.resume hturn (fun _ _ _ => OriginThread.noConfusion) fun i' i'' hi'' hturn' band j hhit => ?_
      by_cases hlt : i'' < i
      · exact hrows i'' hlt hturn' band j hhit
      · -- The table has no such row.
        have hlong : entries.length ≤ i'' := Nat.le_trans (List.getElem?_eq_none_iff.mp hnone) (Nat.le_of_not_lt hlt)
        have hfound := hhit.found
        unfold OriginBand.matches at hfound
        rw [List.getElem?_eq_none hlong] at hfound
        cases hfound
    · rename_i root hroot
      obtain ⟨packet, hpacket⟩ := Option.isSome_iff_exists.mp (hloads root (List.mem_of_getElem? hroot))
      rw [hpacket] at hstep
      cases hstep
      have hi := (List.getElem?_eq_some_iff.mp hroot).1
      refine h.resume hturn (fun _ _ _ => OriginThread.noConfusion)
        ⟨hi, hrow, hrows, fun hband => OriginBand.noConfusion hband, fun j hj hhit => ?_, le_refl _⟩
      exact absurd hhit.first (Nat.not_le.mpr hj)
  · rename_i band i j hturn
    have hentry : AtEntry P entries s turn.thread band i j := h.threads turn.thread _ hturn
    split at hstep
    · rename_i hlast
      split at hstep
      · obtain ⟨hmarked, heq⟩ := Option.ite_none_right_eq_some.mp hstep
        cases heq
        exact h.resume hturn (fun _ _ _ => OriginThread.noConfusion) (hentry.next fun _ => hmarked)
      · split at hstep
        · rename_i hfound
          cases hstep
          exact h.resume hturn (fun _ _ _ => OriginThread.noConfusion) ⟨hentry, hentry.first, hlast, hfound⟩
        · rename_i hfound
          cases hstep
          exact h.resume hturn (fun _ _ _ => OriginThread.noConfusion) (hentry.next fun hhit => absurd hhit.found hfound)
    · rename_i hlast
      cases band with
      | duplicate =>
        cases hstep
        refine h.resume hturn (fun _ _ _ => OriginThread.noConfusion)
          ⟨hentry.row, hentry.turn, hentry.rows, fun _ j' hhit => ?_, fun j' hj' hhit => ?_, le_refl _⟩
        · exact hentry.before j' (Nat.lt_of_lt_of_le hhit.last (Nat.le_of_not_lt hlast)) hhit
        · exact absurd hhit.first (Nat.not_le.mpr hj')
      | descendant =>
        cases hstep
        refine h.resume hturn (fun _ _ _ => OriginThread.noConfusion) ⟨?_, hentry.rowsDone hlast⟩
        rw [Nat.add_mod_right]
        exact hentry.turn
  · rename_i band i j hturn
    have hnext := h.exchange hturn
    split at hstep
    · rename_i hmarked
      rw [if_pos hmarked] at hnext
      cases hstep
      exact hnext
    · rename_i hmarked
      rw [if_neg hmarked] at hnext
      cases hstep
      exact hnext
  · rename_i band i j hturn
    cases hstep
    exact h.countOne hturn
  · cases hstep

theorem start : (OriginScan.start entries).Inv P entries where
  length := by
    unfold OriginScan.start
    rw [List.length_map, List.length_range]
  sound _ _ hmarked := absurd hmarked Bool.false_ne_true
  counted _ hpos := absurd hpos (Nat.lt_irrefl 0)
  pending _ _ hmarked := absurd hmarked Bool.false_ne_true
  threads thread t hthread := by
    obtain ⟨i, hi, rfl⟩ := Option.map_eq_some_iff.mp ((List.getElem?_map ..).symm.trans hthread)
    obtain ⟨hlt, rfl⟩ := List.getElem?_eq_some_iff.mp hi
    rw [List.getElem_range]
    rw [List.length_range] at hlt
    have hthread : thread < nbOriginThread := Nat.lt_of_lt_of_le hlt (Nat.min_le_left ..)
    refine ⟨Nat.mod_eq_of_lt hthread, fun i' hi' hturn => ?_⟩
    rw [Nat.mod_eq_of_lt (Nat.lt_trans hi' hthread)] at hturn
    omega

/-- When the threads have finished, what is marked is what there is to find. -/
theorem marked_iff (h : s.Inv P entries) (hfinished : ∀ t ∈ s.threads, t = .finished) :
    s.isMarked band j = true ↔ ∃ i, Hit P entries band i j := by
  refine ⟨h.sound band j, fun ⟨i, hhit⟩ => ?_⟩
  have hi : i < entries.length := by
    by_contra hlong
    have hfound := hhit.found
    unfold OriginBand.matches at hfound
    rw [List.getElem?_eq_none (Nat.le_of_not_lt hlong)] at hfound
    cases hfound
  have hthread : i % nbOriginThread < s.threads.length := by
    rw [h.length]
    unfold nbOriginThread
    omega
  have hinv := h.threads _ _ (List.getElem?_eq_getElem hthread)
  rw [hfinished _ (List.getElem_mem hthread)] at hinv
  exact hinv (i + 1) i (Nat.lt_succ_self i) rfl band j hhit

/-- When the threads have finished, they have counted something exactly when something is marked. -/
theorem found_pos_iff (h : s.Inv P entries) (hfinished : ∀ t ∈ s.threads, t = .finished) :
    0 < s.found band ↔ ∃ j, s.isMarked band j = true := by
  refine ⟨h.counted band, fun ⟨j, hmarked⟩ => (h.pending band j hmarked).resolve_right fun ⟨i, j', hmem⟩ => ?_⟩
  exact OriginThread.noConfusion (hfinished _ hmem)

end OriginScan.Inv

end Marks

/-! ## The scan ends -/

section Ending

variable {P : Puzzle} {entries : List OriginEntry} {s s' : OriginScan} {turn : OriginTurn}

/-- How many steps a row takes at most, in a table of `n` entries. -/
def rowSteps (n : Nat) : Nat := 6 * n + 4

/-- How many steps are left at most from an entry of an inner loop. -/
def OriginBand.left (n i j : Nat) : OriginBand → Nat
  | duplicate => (n - (i + 1)) * rowSteps n + 3 * n + 3 * (n - j) + 3
  | descendant => (n - (i + 1)) * rowSteps n + 3 * (n - j) + 2

/-- How many steps a thread has left at most. -/
def OriginThread.left (n : Nat) : OriginThread → Nat
  | load i => (n - i) * rowSteps n + 1
  | compare band i j => band.left n i j
  | exchange band i j => band.left n i j - 1
  | count band i j => band.left n i j - 2
  | finished => 0

/-- How many steps the threads have left at most. -/
def OriginScan.left (n : Nat) (s : OriginScan) : Nat := (s.threads.map (OriginThread.left n)).sum

/-- The steps of a scan of `n` entries. -/
def originScanBound (n : Nat) : Nat := nbOriginThread * (n * rowSteps n + 1)

theorem sum_map_set_lt {α : Type} {f : α → Nat} {l : List α} {k : Nat} {old new : α} (hold : l[k]? = some old)
    (hlt : f new < f old) : ((l.set k new).map f).sum < (l.map f).sum := by
  induction l generalizing k with
  | nil => cases hold
  | cons a l ih =>
    cases k with
    | zero =>
      obtain rfl : a = old := Option.some.inj hold
      rw [List.set_cons_zero, List.map_cons, List.map_cons, List.sum_cons, List.sum_cons]
      omega
    | succ k =>
      have hrest := ih hold
      rw [List.set_cons_succ, List.map_cons, List.map_cons, List.sum_cons, List.sum_cons]
      omega

theorem OriginBand.left_next {n : Nat} (band : OriginBand) (i : Nat) {j : Nat} (hj : j < n) :
    band.left n i (j + 1) + 3 = band.left n i j := by
  cases band <;> simp only [OriginBand.left] <;> omega

theorem last_le (hsorted : entries.Pairwise fun e e' => e.alloc ≤ e'.alloc) {i : Nat} (hi : i < entries.length)
    (band : OriginBand) : band.last entries i ≤ entries.length := by
  cases band with
  | duplicate => exact (originStart_spec hsorted hi).1
  | descendant => exact le_refl _

/-- Every step leaves fewer. -/
theorem OriginScan.Inv.left_lt (h : s.Inv P entries) (hloads : ∀ e ∈ entries, (recordPacket P e.element).isSome = true)
    (hsorted : entries.Pairwise fun e e' => e.alloc ≤ e'.alloc) (hstep : s.step P entries turn = some s') :
    s'.left entries.length < s.left entries.length := by
  unfold OriginScan.step at hstep
  split at hstep
  · rename_i i hturn
    split at hstep
    · cases hstep
      exact sum_map_set_lt hturn (Nat.succ_pos _)
    · rename_i root hroot
      obtain ⟨packet, hpacket⟩ := Option.isSome_iff_exists.mp (hloads root (List.mem_of_getElem? hroot))
      rw [hpacket] at hstep
      cases hstep
      have hi := (List.getElem?_eq_some_iff.mp hroot).1
      refine sum_map_set_lt hturn ?_
      have hrow : entries.length - i = entries.length - (i + 1) + 1 := by omega
      simp only [OriginThread.left, OriginBand.left]
      rw [hrow, Nat.succ_mul (entries.length - (i + 1))]
      unfold rowSteps
      omega
  · rename_i band i j hturn
    have hentry : AtEntry P entries s turn.thread band i j := h.threads turn.thread _ hturn
    split at hstep
    · rename_i hlast
      have hnext := band.left_next i (Nat.lt_of_lt_of_le hlast (last_le hsorted hentry.row band))
      split at hstep
      · obtain ⟨hmarked, heq⟩ := Option.ite_none_right_eq_some.mp hstep
        cases heq
        exact sum_map_set_lt hturn (by simp only [OriginThread.left]; omega)
      · split at hstep
        · cases hstep
          exact sum_map_set_lt hturn (by simp only [OriginThread.left]; omega)
        · cases hstep
          exact sum_map_set_lt hturn (by simp only [OriginThread.left]; omega)
    · cases band with
      | duplicate =>
        cases hstep
        refine sum_map_set_lt hturn ?_
        simp only [OriginThread.left, OriginBand.left]
        omega
      | descendant =>
        cases hstep
        refine sum_map_set_lt hturn ?_
        have hrows : (entries.length - (i + nbOriginThread)) * rowSteps entries.length ≤
            (entries.length - (i + 1)) * rowSteps entries.length :=
          Nat.mul_le_mul_right _ (by unfold nbOriginThread; omega)
        simp only [OriginThread.left, OriginBand.left]
        omega
  · rename_i band i j hturn
    obtain ⟨hentry, hhit⟩ := h.threads turn.thread _ hturn
    have hnext := band.left_next i (Nat.lt_of_lt_of_le hhit.last (last_le hsorted hentry.row band))
    split at hstep
    · cases hstep
      exact sum_map_set_lt hturn (by simp only [OriginThread.left]; omega)
    · cases hstep
      exact sum_map_set_lt hturn (by simp only [OriginThread.left]; omega)
  · rename_i band i j hturn
    obtain ⟨hentry, hlast, -⟩ := h.threads turn.thread _ hturn
    have hnext := band.left_next i (Nat.lt_of_lt_of_le hlast (last_le hsorted hentry.row band))
    cases hstep
    exact sum_map_set_lt hturn (by simp only [OriginThread.left]; omega)
  · cases hstep

/-- As long as a thread has not finished it can go on. -/
theorem OriginScan.exists_step (hunfinished : ¬ ∀ t ∈ s.threads, t = .finished) :
    ∃ turn, (s.step P entries turn).isSome = true := by
  simp only [not_forall] at hunfinished
  obtain ⟨t, ht, hne⟩ := hunfinished
  obtain ⟨thread, hthread⟩ := List.mem_iff_getElem?.mp ht
  refine ⟨⟨thread, false⟩, ?_⟩
  unfold OriginScan.step
  dsimp only
  rw [hthread]
  cases t with
  | load i =>
    dsimp only
    split
    · rfl
    · split <;> rfl
  | compare band i j =>
    dsimp only
    split
    · rw [if_neg Bool.false_ne_true]
      split <;> rfl
    · cases band <;> rfl
  | exchange band i j =>
    dsimp only
    split <;> rfl
  | count band i j => rfl
  | finished => exact absurd rfl hne

theorem OriginScan.left_start (entries : List OriginEntry) :
    (OriginScan.start entries).left entries.length ≤ originScanBound entries.length := by
  unfold OriginScan.left OriginScan.start originScanBound
  rw [List.map_map]
  have hle : ∀ x ∈ (List.range (min nbOriginThread entries.length)).map (OriginThread.left entries.length ∘ .load),
      x ≤ entries.length * rowSteps entries.length + 1 := by
    intro x hx
    obtain ⟨i, -, rfl⟩ := List.mem_map.mp hx
    exact Nat.succ_le_succ (Nat.mul_le_mul_right (rowSteps entries.length) (Nat.sub_le entries.length i))
  have hsum := List.sum_le_card_nsmul _ _ hle
  rw [List.length_map, List.length_range] at hsum
  exact hsum.trans (Nat.mul_le_mul_right _ (Nat.min_le_left ..))

/-- Whatever the threads do, they take no more steps. -/
theorem OriginScan.Inv.length_le {turns : List OriginTurn} (h : s.Inv P entries)
    (hloads : ∀ e ∈ entries, (recordPacket P e.element).isSome = true)
    (hsorted : entries.Pairwise fun e e' => e.alloc ≤ e'.alloc)
    (hexec : Run.exec (OriginScan.step P entries) s turns = some s') :
    turns.length + s'.left entries.length ≤ s.left entries.length := by
  induction turns generalizing s with
  | nil =>
    cases Option.some.inj hexec
    rw [List.length_nil, Nat.zero_add]
  | cons turn turns ih =>
    obtain ⟨s₁, hnext, hrest⟩ := Option.bind_eq_some_iff.mp hexec
    have hlt := h.left_lt hloads hsorted hnext
    have hle := ih (h.step hloads hnext) hrest
    rw [List.length_cons]
    omega

end Ending

/-! ## Keys of elements -/

section Keys

variable {P : Puzzle} {entries : List OriginEntry} {a b : List Byte} {p q : Packet P}

theorem PacketKey.extends_trans {k k' k'' : PacketKey P} (h : ∀ c, k.grid c ≠ -2 → k'.grid c = k.grid c)
    (h' : ∀ c, k'.grid c ≠ -2 → k''.grid c = k'.grid c) : ∀ c, k.grid c ≠ -2 → k''.grid c = k.grid c := by
  intro c hc
  have hgrid := h c hc
  rw [h' c (hgrid ▸ hc), hgrid]

theorem PacketKey.origin_lt {k k' : PacketKey P}
    (h : k.alloc.toNat < k'.alloc.toNat ∧ ∀ c, k.grid c ≠ -2 → k'.grid c = k.grid c) : k.alloc.toNat < k'.alloc.toNat :=
  h.1

theorem PacketKey.origin_trans {k k' k'' : PacketKey P}
    (h : k.alloc.toNat < k'.alloc.toNat ∧ ∀ c, k.grid c ≠ -2 → k'.grid c = k.grid c)
    (h' : k'.alloc.toNat < k''.alloc.toNat ∧ ∀ c, k'.grid c ≠ -2 → k''.grid c = k'.grid c) :
    k.alloc.toNat < k''.alloc.toNat ∧ ∀ c, k.grid c ≠ -2 → k''.grid c = k.grid c :=
  ⟨h.1.trans h'.1, PacketKey.extends_trans h.2 h'.2⟩

/-- What `is_origin_of` means for keys. -/
def packetAncestry (P : Puzzle) : Ancestry (PacketKey P) where
  origin k k' := k.alloc.toNat < k'.alloc.toNat ∧ ∀ c, k.grid c ≠ -2 → k'.grid c = k.grid c
  size k := k.alloc.toNat
  size_lt := PacketKey.origin_lt
  origin_trans := PacketKey.origin_trans

theorem elementEqualsElement_iff (ha : recordPacket P a = some p) (hb : recordPacket P b = some q) :
    elementEqualsElement P a b = true ↔ p.key = q.key := by
  unfold elementEqualsElement elementEquals
  rw [ha, hb]
  dsimp only
  rw [decide_eq_true_iff, comparePossibility_eq_zero]
  exact eq_comm

theorem elementHasOriginElement_iff (ha : recordPacket P a = some p) (hb : recordPacket P b = some q) :
    elementHasOriginElement P a b = true ↔ (packetAncestry P).origin p.key q.key := by
  unfold elementHasOriginElement elementHasOrigin
  rw [ha, hb]
  dsimp only
  rw [decide_eq_true_iff, isOriginOf_eq_one]
  rfl

/-- A table whose elements are the records of packets, and whose order is that of their pieces. -/
structure Table (P : Puzzle) (entries : List OriginEntry) where
  packet : Fin entries.length → Packet P
  loads : ∀ j, recordPacket P entries[j].element = some (packet j)
  alloc : ∀ j, entries[j].alloc = (packet j).alloc
  sorted : entries.Pairwise fun e e' => e.alloc ≤ e'.alloc

/-- The key of an entry. -/
def Table.key (T : Table P entries) (j : Fin entries.length) : PacketKey P := (T.packet j).key

variable (T : Table P entries)

include T in
theorem Table.isSome : ∀ e ∈ entries, (recordPacket P e.element).isSome = true := by
  intro e he
  obtain ⟨j, hj, rfl⟩ := List.getElem_of_mem he
  have hloads := T.loads ⟨j, hj⟩
  exact Option.isSome_iff_exists.mpr ⟨_, hloads⟩

theorem OriginBand.matches_eq {i j : Nat} (hi : i < entries.length) (hj : j < entries.length) (band : OriginBand) :
    band.matches P entries i j =
      match band with
      | duplicate => elementEqualsElement P entries[i].element entries[j].element
      | descendant => elementHasOriginElement P entries[i].element entries[j].element := by
  unfold OriginBand.matches
  rw [List.getElem?_eq_getElem hi, List.getElem?_eq_getElem hj]

theorem Hit.lt {band : OriginBand} {i j : Nat} (h : Hit P entries band i j) : i < entries.length ∧ j < entries.length := by
  have hfound := h.found
  unfold OriginBand.matches at hfound
  split at hfound
  · rename_i hi hj
    exact ⟨(List.getElem?_eq_some_iff.mp hi).1, (List.getElem?_eq_some_iff.mp hj).1⟩
  · cases hfound

theorem Table.hit_duplicate (i j : Fin entries.length) :
    Hit P entries .duplicate i j ↔ i < j ∧ T.key i = T.key j := by
  have hmatches : OriginBand.matches P entries i j .duplicate = true ↔ T.key i = T.key j := by
    rw [OriginBand.matches_eq i.isLt j.isLt]
    exact elementEqualsElement_iff (T.loads i) (T.loads j)
  constructor
  · exact fun h => ⟨h.first, hmatches.mp h.found⟩
  · rintro ⟨hlt, hkey⟩
    refine ⟨hlt, ((originStart_spec T.sorted i.isLt).2 j j.isLt).mpr ?_, hmatches.mpr hkey⟩
    have halloc : (T.packet i).alloc = (T.packet j).alloc := congrArg PacketKey.alloc hkey
    have hi := T.alloc i
    have hj := T.alloc j
    rw [halloc, ← hj] at hi
    exact UInt16.le_of_eq hi.symm

theorem Table.hit_descendant (i j : Fin entries.length) :
    Hit P entries .descendant i j ↔ (packetAncestry P).origin (T.key i) (T.key j) := by
  have hmatches : OriginBand.matches P entries i j .descendant = true ↔
      (packetAncestry P).origin (T.key i) (T.key j) := by
    rw [OriginBand.matches_eq i.isLt j.isLt]
    exact elementHasOriginElement_iff (T.loads i) (T.loads j)
  constructor
  · exact fun h => hmatches.mp h.found
  · intro horigin
    refine ⟨Nat.le_of_not_lt fun hlt => ?_, j.isLt, hmatches.mpr horigin⟩
    have hle := ((originStart_spec T.sorted i.isLt).2 j j.isLt).mp hlt
    have hi := T.alloc i
    have hj := T.alloc j
    have hless : (T.packet i).alloc < (T.packet j).alloc := UInt16.lt_iff_toNat_lt.mpr horigin.1
    rw [← hi, ← hj] at hless
    exact absurd hle (UInt16.not_le.mpr hless)

/-- When the threads have finished, the superseded entries have a mark. -/
theorem Table.marked_iff {s : OriginScan} (h : s.Inv P entries) (hfinished : ∀ t ∈ s.threads, t = .finished)
    (j : Fin entries.length) :
    (s.isMarked .descendant j || s.isMarked .duplicate j) = true ↔ (packetAncestry P).Superseded T.key j := by
  rw [Bool.or_eq_true, h.marked_iff hfinished, h.marked_iff hfinished, or_comm]
  constructor
  · rintro (⟨i, hhit⟩ | ⟨i, hhit⟩)
    · exact .inl ⟨⟨i, hhit.lt.1⟩, (T.hit_duplicate ⟨i, hhit.lt.1⟩ j).mp hhit⟩
    · exact .inr ⟨⟨i, hhit.lt.1⟩, (T.hit_descendant ⟨i, hhit.lt.1⟩ j).mp hhit⟩
  · rintro (⟨i, hi⟩ | ⟨i, hi⟩)
    · exact .inl ⟨i, (T.hit_duplicate i j).mpr hi⟩
    · exact .inr ⟨i, (T.hit_descendant i j).mpr hi⟩

/-- And they have counted something when and only when an entry is superseded. -/
theorem Table.found_pos_iff {s : OriginScan} (h : s.Inv P entries) (hfinished : ∀ t ∈ s.threads, t = .finished) :
    0 < s.found .descendant + s.found .duplicate ↔ ∃ j, (packetAncestry P).Superseded T.key j := by
  have hpos : 0 < s.found .descendant + s.found .duplicate ↔ 0 < s.found .descendant ∨ 0 < s.found .duplicate := by
    omega
  rw [hpos, h.found_pos_iff hfinished, h.found_pos_iff hfinished]
  constructor
  · rintro (⟨j, hmarked⟩ | ⟨j, hmarked⟩)
    · obtain ⟨i, hhit⟩ := h.sound _ _ hmarked
      exact ⟨⟨j, hhit.lt.2⟩, (T.marked_iff h hfinished ⟨j, hhit.lt.2⟩).mp (Bool.or_eq_true_iff.mpr (.inl hmarked))⟩
    · obtain ⟨i, hhit⟩ := h.sound _ _ hmarked
      exact ⟨⟨j, hhit.lt.2⟩, (T.marked_iff h hfinished ⟨j, hhit.lt.2⟩).mp (Bool.or_eq_true_iff.mpr (.inr hmarked))⟩
  · rintro ⟨j, hsuperseded⟩
    exact (Bool.or_eq_true_iff.mp ((T.marked_iff h hfinished j).mpr hsuperseded)).imp (fun h => ⟨j, h⟩) fun h => ⟨j, h⟩

end Keys

/-! ## The purge -/

section Purge

variable {P : Puzzle} {stock : LocalStock} {entries gone : List OriginEntry} {s : OriginScan}

/-- The entries of the whole stock. -/
def allEntries (P : Puzzle) (stock : LocalStock) : List OriginEntry :=
  (List.range stock.unchecked.files.length).flatMap fun fp => [false, true].flatMap (fileEntries P stock fp)

/-- The two pools have the same number of files. -/
def LocalStock.SameFiles (stock : LocalStock) : Prop :=
  ∀ b, (stock.pool b).files.length = stock.unchecked.files.length

theorem allEntries_elements (hfiles : stock.SameFiles) :
    ((allEntries P stock).map OriginEntry.element).Perm stock.records := by
  have hfile : ∀ fp b, (fileEntries P stock fp b).map OriginEntry.element = (stock.pool b).files.getD fp [] := by
    intro fp b
    unfold fileEntries
    rw [List.map_map]
    exact List.zipIdx_map_fst ..
  unfold allEntries
  rw [List.map_flatMap]
  have hboth : (fun fp => ([false, true].flatMap (fileEntries P stock fp)).map OriginEntry.element) =
      fun fp => stock.unchecked.files.getD fp [] ++ stock.checked.files.getD fp [] := by
    funext fp
    rw [List.flatMap_cons, List.flatMap_singleton, List.map_append, hfile, hfile]
    rfl
  rw [hboth]
  exact LocalStock.perm_records hfiles

/-- The table has room for everything. -/
theorem collectOriginEntries_eq (hfiles : stock.SameFiles) :
    collectOriginEntries P stock stock.datasSize = allEntries P stock := by
  have hlength := (allEntries_elements (P := P) hfiles).length_eq
  rw [List.length_map] at hlength
  refine List.take_of_length_le ?_
  refine (hlength.trans ?_).le
  unfold LocalStock.records LocalStock.datasSize
  rw [List.length_append, List.length_flatten, List.length_flatten]

/-- No two entries have one place. -/
theorem allEntries_places (P : Puzzle) (stock : LocalStock) : ((allEntries P stock).map OriginEntry.place).Nodup := by
  have hfile : ∀ fp b, (fileEntries P stock fp b).map OriginEntry.place =
      (List.range ((stock.pool b).files.getD fp []).length).map fun position => (b, fp, position) := by
    intro fp b
    unfold fileEntries
    rw [List.map_map, List.range_eq_range', ← List.zipIdx_map_snd 0, List.map_map]
    rfl
  have hplace : ∀ fp, ∀ place ∈ ([false, true].flatMap (fileEntries P stock fp)).map OriginEntry.place,
      place.2.1 = fp := by
    intro fp place hplace
    obtain ⟨e, he, rfl⟩ := List.mem_map.mp hplace
    obtain ⟨b, -, hb⟩ := List.mem_flatMap.mp he
    obtain ⟨position, -, heq⟩ := List.mem_map.mp ((hfile fp b) ▸ List.mem_map_of_mem hb)
    rw [← heq]
  unfold allEntries
  rw [List.map_flatMap, List.nodup_flatMap]
  constructor
  · intro fp _
    have hnodup : ∀ b, ((fileEntries P stock fp b).map OriginEntry.place).Nodup := by
      intro b
      rw [hfile]
      exact List.nodup_range.map fun position position' heq => (Prod.mk.inj (Prod.mk.inj heq).2).2
    rw [List.flatMap_cons, List.flatMap_singleton, List.map_append, List.nodup_append]
    refine ⟨hnodup false, hnodup true, fun place hfalse place' htrue heq => ?_⟩
    rw [hfile] at hfalse htrue
    obtain ⟨_, -, rfl⟩ := List.mem_map.mp hfalse
    obtain ⟨_, -, rfl⟩ := List.mem_map.mp htrue
    exact Bool.false_ne_true (Prod.mk.inj heq).1
  · refine List.nodup_range.imp fun {fp fp'} hne place hp hp' => ?_
    exact hne ((hplace fp place hp).symm.trans (hplace fp' place hp'))

/-- What stays of a file. -/
theorem getD_removeElements (stock : LocalStock) (gone : List OriginEntry) (b : Bool) (fp : Nat) :
    ((stock.removeElements gone).pool b).files.getD fp [] =
      ((fileEntries P stock fp b).filter fun e => !gone.any (·.place = e.place)).map OriginEntry.element := by
  have hpool : ((stock.removeElements gone).pool b).files = ((stock.pool b).removeElements b gone).files := by
    cases b <;> rfl
  rw [hpool]
  unfold Pool.removeElements fileEntries
  rw [List.filter_map, List.map_map, List.getD_eq_getElem?_getD, List.getElem?_mapIdx, List.getD_eq_getElem?_getD]
  cases (stock.pool b).files[fp]? with
  | none => rfl
  | some file => rfl

theorem removeElements_sameFiles (hfiles : stock.SameFiles) (gone : List OriginEntry) :
    (stock.removeElements gone).SameFiles := by
  intro b
  have hlength : ∀ b, ((stock.removeElements gone).pool b).files.length = (stock.pool b).files.length := by
    intro b
    cases b <;> exact List.length_mapIdx
  rw [hlength, hfiles b]
  exact (hlength false).symm

/-- The elements of the other entries stay. -/
theorem removeElements_records (P : Puzzle) (hfiles : stock.SameFiles) (gone : List OriginEntry) :
    (stock.removeElements gone).records.Perm
      (((allEntries P stock).filter fun e => !gone.any (·.place = e.place)).map OriginEntry.element) := by
  refine (LocalStock.perm_records (removeElements_sameFiles hfiles gone)).symm.trans (.of_eq ?_)
  have hlength : (stock.removeElements gone).unchecked.files.length = stock.unchecked.files.length := List.length_mapIdx
  unfold allEntries
  rw [List.filter_flatMap, List.map_flatMap, hlength]
  refine congrArg (List.flatMap · _) (funext fun fp => ?_)
  have hunchecked := getD_removeElements (P := P) stock gone false fp
  have hchecked := getD_removeElements (P := P) stock gone true fp
  rw [List.flatMap_cons, List.flatMap_singleton, List.filter_append, List.map_append]
  exact congrArg₂ (· ++ ·) hunchecked hchecked

/-- The marked entries are known by their places. -/
theorem filter_unmarked (hplaces : (entries.map OriginEntry.place).Nodup) (s : OriginScan) :
    entries.filter (fun e => !(s.marked entries).any (·.place = e.place)) =
      (entries.zipIdx.filter fun e => !(s.isMarked .descendant e.2 || s.isMarked .duplicate e.2)).map Prod.fst := by
  have hentries : entries.zipIdx.map Prod.fst = entries := List.zipIdx_map_fst ..
  calc entries.filter (fun e => !(s.marked entries).any (·.place = e.place))
      = (entries.zipIdx.map Prod.fst).filter fun e => !(s.marked entries).any (·.place = e.place) := by rw [hentries]
    _ = (entries.zipIdx.filter fun e => !(s.marked entries).any (·.place = e.1.place)).map Prod.fst := List.filter_map
    _ = _ := congrArg (List.map Prod.fst) (List.filter_congr fun e he => congrArg not ?_)
  have hget := List.mem_zipIdx_iff_getElem?.mp he
  rw [Bool.eq_iff_iff, List.any_eq_true]
  constructor
  · rintro ⟨g, hg, hsame⟩
    obtain ⟨g', hg', rfl⟩ := List.mem_map.mp hg
    obtain ⟨hmem, hmarked⟩ := List.mem_filter.mp hg'
    have hget' := List.mem_zipIdx_iff_getElem?.mp hmem
    have hlt : g'.2 < (entries.map OriginEntry.place).length := by
      rw [List.length_map]
      exact (List.getElem?_eq_some_iff.mp hget').1
    have hindex : g'.2 = e.2 := by
      refine (List.getElem?_inj hlt hplaces).mp ?_
      rw [List.getElem?_map, List.getElem?_map, hget, hget']
      exact congrArg some (of_decide_eq_true hsame)
    exact hindex ▸ hmarked
  · exact fun hmarked => ⟨e.1, List.mem_map.mpr ⟨e, List.mem_filter.mpr ⟨he, hmarked⟩, rfl⟩, decide_eq_true rfl⟩

/-- What a purge leaves are the elements without a mark. -/
theorem purged_records (hfiles : stock.SameFiles)
    (hperm : entries.Perm (collectOriginEntries P stock stock.datasSize)) (s : OriginScan) :
    (stock.removeElements (s.marked entries)).records.Perm
      (((entries.zipIdx.filter fun e => !(s.isMarked .descendant e.2 || s.isMarked .duplicate e.2)).map
        Prod.fst).map OriginEntry.element) := by
  rw [collectOriginEntries_eq hfiles] at hperm
  have hplaces : (entries.map OriginEntry.place).Nodup :=
    (hperm.map OriginEntry.place).nodup_iff.mpr (allEntries_places P stock)
  rw [← filter_unmarked hplaces s]
  exact (removeElements_records P hfiles _).trans ((hperm.symm.filter _).map _)

end Purge

/-! ## The result -/

section Result

variable {P : Puzzle} {stock stock' : LocalStock} {entries : List OriginEntry} {s : OriginScan}

/-- Two elements are neither equal nor one an origin of the other. -/
def Unrelated (P : Puzzle) (a b : List Byte) : Prop :=
  elementEqualsElement P a b = false ∧ elementHasOriginElement P a b = false ∧ elementHasOriginElement P b a = false

/-- A solution is below a record of the stock. -/
def LocalStock.Covers (ps : PieceSet P) (stock : LocalStock) (b : Grid P) : Prop :=
  ∃ record ∈ stock.records, ∃ q, recordPacket P record = some q ∧ b ∈ q.grid.solutions ps

/-- A stock without its duplicates and descendants: the rest of the first stock, in which every record has an
equal or an origin and no two are related. -/
structure LocalStock.Purged (P : Puzzle) (stock stock' : LocalStock) : Prop where
  sublist : ∀ b fp, ((stock'.pool b).files.getD fp []).Sublist ((stock.pool b).files.getD fp [])
  represented : ∀ record ∈ stock.records, ∃ record' ∈ stock'.records,
    elementEqualsElement P record' record = true ∨ elementHasOriginElement P record' record = true
  unrelated : stock'.records.Pairwise (Unrelated P)
  covers : ∀ (ps : PieceSet P) (b : Grid P), stock'.Covers ps b ↔ stock.Covers ps b

theorem elementEqualsElement_comm (a b : List Byte) : elementEqualsElement P a b = elementEqualsElement P b a := by
  cases ha : recordPacket P a with
  | none =>
    unfold elementEqualsElement elementEquals
    rw [ha]
    cases recordPacket P b <;> rfl
  | some p =>
    cases hb : recordPacket P b with
    | none =>
      unfold elementEqualsElement elementEquals
      rw [ha, hb]
    | some q => rw [Bool.eq_iff_iff, elementEqualsElement_iff ha hb, elementEqualsElement_iff hb ha, eq_comm]

theorem Unrelated.symm {a b : List Byte} (h : Unrelated P a b) : Unrelated P b a :=
  ⟨elementEqualsElement_comm b a ▸ h.1, h.2.2, h.2.1⟩

/-- What relates the elements of two entries. -/
theorem Table.represents_iff (T : Table P entries) (i j : Fin entries.length) :
    (packetAncestry P).Represents (T.key i) (T.key j) ↔
      elementEqualsElement P entries[i].element entries[j].element = true ∨
        elementHasOriginElement P entries[i].element entries[j].element = true := by
  rw [elementEqualsElement_iff (T.loads i) (T.loads j), elementHasOriginElement_iff (T.loads i) (T.loads j)]
  rfl

theorem Table.unrelated_iff (T : Table P entries) (i j : Fin entries.length) :
    Unrelated P entries[i].element entries[j].element ↔
      ¬ (packetAncestry P).Represents (T.key i) (T.key j) ∧ ¬ (packetAncestry P).Represents (T.key j) (T.key i) := by
  unfold Unrelated
  rw [T.represents_iff, T.represents_iff, elementEqualsElement_comm entries[j].element]
  simp only [not_or, Bool.not_eq_true]
  tauto

/-- A sorted table of a stock of records. -/
theorem exists_table (hstock : stock.OfPackets P) (hfiles : stock.SameFiles)
    (hperm : entries.Perm (collectOriginEntries P stock stock.datasSize))
    (hsorted : entries.Pairwise fun e e' => e.alloc ≤ e'.alloc) : Nonempty (Table P entries) := by
  rw [collectOriginEntries_eq hfiles] at hperm
  have hloads : ∀ j : Fin entries.length, ∃ p : Packet P,
      recordPacket P entries[j].element = some p ∧ entries[j].alloc = p.alloc := by
    intro j
    have hmem := hperm.mem_iff.mp (List.getElem_mem j.isLt)
    have hrecord : entries[j].element ∈ stock.records :=
      (allEntries_elements (P := P) hfiles).mem_iff.mp (List.mem_map_of_mem hmem)
    obtain ⟨fp, -, hfp⟩ := List.mem_flatMap.mp hmem
    obtain ⟨b, -, hb⟩ := List.mem_flatMap.mp hfp
    obtain ⟨e, -, he⟩ := List.mem_map.mp hb
    obtain ⟨q, hq⟩ := hstock _ hrecord
    obtain ⟨p, hdecode, -⟩ := IsRecord.decode ⟨q, hq⟩ []
    rw [List.append_nil] at hdecode
    have hp : recordPacket P entries[j].element = some p := by rw [recordPacket, hdecode]
    refine ⟨p, hp, ?_⟩
    have halloc : entries[j].alloc = packetCodecPeekPlaced P entries[j].element :=
      (congrArg OriginEntry.alloc he).symm.trans (congrArg (packetCodecPeekPlaced P ∘ OriginEntry.element) he)
    exact halloc.trans (packetCodecPeekPlaced_eq hp)
  choose packet hpacket using hloads
  exact ⟨⟨packet, fun j => (hpacket j).1, fun j => (hpacket j).2, hsorted⟩⟩

/-- The elements that stay are those of the entries that are not superseded. -/
theorem Table.mem_purged (T : Table P entries) (hfiles : stock.SameFiles)
    (hperm : entries.Perm (collectOriginEntries P stock stock.datasSize)) (h : s.Inv P entries)
    (hfinished : ∀ t ∈ s.threads, t = .finished) {j : Fin entries.length}
    (hj : ¬ (packetAncestry P).Superseded T.key j) :
    entries[j].element ∈ (stock.removeElements (s.marked entries)).records := by
  refine (purged_records hfiles hperm s).mem_iff.mpr (List.mem_map_of_mem (List.mem_map.mpr ⟨(entries[j], j.val), ?_, rfl⟩))
  refine List.mem_filter.mpr ⟨List.mem_zipIdx_iff_getElem?.mpr (List.getElem?_eq_getElem j.isLt), ?_⟩
  rw [← T.marked_iff h hfinished] at hj
  rw [Bool.eq_false_iff.mpr hj]
  rfl

/-- A purge of what a scan has marked. -/
theorem Table.purged (T : Table P entries) (hfiles : stock.SameFiles)
    (hperm : entries.Perm (collectOriginEntries P stock stock.datasSize)) (h : s.Inv P entries)
    (hfinished : ∀ t ∈ s.threads, t = .finished) :
    stock.Purged P (stock.removeElements (s.marked entries)) := by
  have hsublist : ∀ b fp, (((stock.removeElements (s.marked entries)).pool b).files.getD fp []).Sublist
      ((stock.pool b).files.getD fp []) := by
    intro b fp
    rw [getD_removeElements (P := P)]
    have hall : (fileEntries P stock fp b).map OriginEntry.element = (stock.pool b).files.getD fp [] := by
      unfold fileEntries
      rw [List.map_map]
      exact List.zipIdx_map_fst ..
    exact hall ▸ List.filter_sublist.map OriginEntry.element
  have hrepresented : ∀ record ∈ stock.records, ∃ i j : Fin entries.length, entries[j].element = record ∧
      ¬ (packetAncestry P).Superseded T.key i ∧ (packetAncestry P).Represents (T.key i) (T.key j) := by
    intro record hrecord
    rw [collectOriginEntries_eq hfiles] at hperm
    obtain ⟨e, he, rfl⟩ := List.mem_map.mp ((allEntries_elements (P := P) hfiles).mem_iff.mpr hrecord)
    obtain ⟨j, hj, rfl⟩ := List.getElem_of_mem (hperm.mem_iff.mpr he)
    obtain ⟨i, hi, hrepresents⟩ := (packetAncestry P).exists_representative T.key ⟨j, hj⟩
    exact ⟨i, ⟨j, hj⟩, rfl, hi, hrepresents⟩
  refine ⟨hsublist, fun record hrecord => ?_, ?_, fun ps b => ⟨?_, ?_⟩⟩
  · obtain ⟨i, j, rfl, hi, hrepresents⟩ := hrepresented record hrecord
    exact ⟨_, T.mem_purged hfiles hperm h hfinished hi, (T.represents_iff i j).mp hrepresents⟩
  · rw [(purged_records hfiles hperm s).pairwise_iff Unrelated.symm, List.pairwise_map, List.pairwise_map]
    have hindex : entries.zipIdx.Pairwise fun x y => x.2 < y.2 := by
      rw [← List.pairwise_map (f := Prod.snd) (R := fun m n : Nat => m < n), List.zipIdx_map_snd]
      exact List.pairwise_lt_range'
    refine (hindex.filter _).imp_of_mem fun {x y} hx hy hlt => ?_
    have hstays : ∀ {x : OriginEntry × Nat},
        x ∈ entries.zipIdx.filter (fun e => !(s.isMarked .descendant e.2 || s.isMarked .duplicate e.2)) →
        ∃ j : Fin entries.length, j.val = x.2 ∧ entries[j] = x.1 ∧ ¬ (packetAncestry P).Superseded T.key j := by
      intro x hx
      obtain ⟨hmem, hunmarked⟩ := List.mem_filter.mp hx
      obtain ⟨hj, hget⟩ := List.getElem?_eq_some_iff.mp (List.mem_zipIdx_iff_getElem?.mp hmem)
      refine ⟨⟨x.2, hj⟩, rfl, hget, fun hsuperseded => ?_⟩
      have hmarked := (T.marked_iff h hfinished ⟨x.2, hj⟩).mpr hsuperseded
      rw [hmarked] at hunmarked
      cases hunmarked
    obtain ⟨i, hi, hx, hisuper⟩ := hstays hx
    obtain ⟨j, hj, hy, hjsuper⟩ := hstays hy
    have hne : i ≠ j := fun heq => by
      rw [← hi, ← hj, heq] at hlt
      exact Nat.lt_irrefl _ hlt
    rw [← hx, ← hy]
    exact (T.unrelated_iff i j).mpr
      ⟨Ancestry.not_represents hisuper hjsuper hne, Ancestry.not_represents hjsuper hisuper hne.symm⟩
  · rintro ⟨record, hrecord, q, hq⟩
    obtain ⟨e, he, rfl⟩ := List.mem_map.mp ((purged_records hfiles hperm s).mem_iff.mp hrecord)
    obtain ⟨x, hx, rfl⟩ := List.mem_map.mp he
    have hmem := List.mem_of_getElem? (List.mem_zipIdx_iff_getElem?.mp (List.mem_filter.mp hx).1)
    rw [collectOriginEntries_eq hfiles] at hperm
    exact ⟨_, (allEntries_elements (P := P) hfiles).mem_iff.mp (List.mem_map_of_mem (hperm.mem_iff.mp hmem)), q, hq⟩
  · rintro ⟨record, hrecord, q, hq, hb⟩
    obtain ⟨i, j, rfl, hi, hrepresents⟩ := hrepresented record hrecord
    refine ⟨_, T.mem_purged hfiles hperm h hfinished hi, _, T.loads i, ?_⟩
    obtain rfl : T.packet j = q := Option.some.inj ((T.loads j).symm.trans hq)
    rcases hrepresents with heq | horigin
    · have hgrid : (T.packet i).grid = (T.packet j).grid := congrArg PacketKey.grid heq
      rwa [hgrid]
    · exact (packetLineage ps).comp_subset (o := T.key i) (d := T.key j) horigin hb

/-- A scan counts something when and only when two records of the stock are related. -/
theorem Table.found_iff (T : Table P entries) (hfiles : stock.SameFiles)
    (hperm : entries.Perm (collectOriginEntries P stock stock.datasSize)) (h : s.Inv P entries)
    (hfinished : ∀ t ∈ s.threads, t = .finished) :
    0 < s.found .descendant + s.found .duplicate ↔ ¬ stock.records.Pairwise (Unrelated P) := by
  rw [collectOriginEntries_eq hfiles] at hperm
  have hrecords := (hperm.map OriginEntry.element).trans (allEntries_elements (P := P) hfiles)
  rw [T.found_pos_iff h hfinished, Ancestry.exists_superseded_iff, ← hrecords.pairwise_iff Unrelated.symm,
    List.pairwise_map, List.pairwise_iff_getElem]
  constructor
  · rintro ⟨i, j, hne, hrepresents⟩ hpairwise
    rcases lt_or_gt_of_ne hne with hlt | hgt
    · exact ((T.unrelated_iff i j).mp (hpairwise i j i.isLt j.isLt hlt)).1 hrepresents
    · exact ((T.unrelated_iff j i).mp (hpairwise j i j.isLt i.isLt hgt)).2 hrepresents
  · intro hrelated
    by_contra hnone
    refine hrelated fun i j hi hj hlt => (T.unrelated_iff ⟨i, hi⟩ ⟨j, hj⟩).mpr ⟨fun hij => ?_, fun hji => ?_⟩
    · exact hnone ⟨⟨i, hi⟩, ⟨j, hj⟩, Fin.ne_of_lt hlt, hij⟩
    · exact hnone ⟨⟨j, hj⟩, ⟨i, hi⟩, Fin.ne_of_gt hlt, hji⟩

/-- Every state of a scan. -/
theorem Table.inv_of_run (T : Table P entries)
    (hrun : Run (OriginScan.step P entries) (fun _ _ => True) (.start entries) s) : s.Inv P entries :=
  hrun.invariant .start fun h _ hstep => h.step T.isSome hstep

end Result

/-- Whatever the order in which the threads go on, a scan ends, and a call that purges leaves a stock without
duplicates and descendants; it returns -1 when and only when there were some, or when the table does not fit
in memory. In that case it leaves the stock alone. -/
theorem checkOrigin_purged {P : Puzzle} (stock : LocalStock) (hstock : stock.OfPackets P) (hfiles : stock.SameFiles) :
    (∀ entries : List OriginEntry, entries.Perm (collectOriginEntries P stock stock.datasSize) →
      entries.Pairwise (fun e e' => e.alloc ≤ e'.alloc) → ∀ turns s,
        Run.exec (OriginScan.step P entries) (.start entries) turns = some s →
          turns.length ≤ originScanBound entries.length ∧
            ((∀ t ∈ s.threads, t = .finished) ∨ ∃ turn, (s.step P entries turn).isSome = true)) ∧
    ∀ allocated result stock', CheckOrigin P true stock allocated result stock' →
      if 0 < stock.datasSize → allocated = true then
        stock.Purged P stock' ∧ (result = -1 ↔ ¬ stock.records.Pairwise (Unrelated P))
      else result = -1 ∧ stock' = stock := by
  constructor
  · intro entries hperm hsorted turns s hexec
    obtain ⟨T⟩ := exists_table hstock hfiles hperm hsorted
    have hlength := OriginScan.Inv.start.length_le T.isSome hsorted hexec
    refine ⟨?_, or_iff_not_imp_left.mpr OriginScan.exists_step⟩
    exact (Nat.le_add_right ..).trans (hlength.trans (OriginScan.left_start entries))
  · intro allocated result stock' hcall
    cases hcall with
    | outOfMemory hsize =>
      rw [if_neg fun h => Bool.false_ne_true (h hsize)]
      exact ⟨rfl, rfl⟩
    | scanned _ hallocated entries hperm hsorted s hrun hfinished =>
      obtain ⟨T⟩ := exists_table hstock hfiles hperm hsorted
      have hinv := T.inv_of_run hrun
      rw [if_pos hallocated, if_pos rfl]
      refine ⟨T.purged hfiles hperm hinv hfinished, ?_⟩
      rw [← T.found_iff hfiles hperm hinv hfinished]
      by_cases hfound : 0 < s.found .descendant + s.found .duplicate
      · exact iff_of_true (if_pos hfound) hfound
      · rw [if_neg hfound]
        exact iff_of_false (by decide) hfound

namespace Frame

/-- A packet and a descendant of it. -/
def familyStock : LocalStock := (putToLocal .empty [root, rootForced] (fun _ => true) (fun _ => true)).1

/-- The first thread does its row, then the second. -/
def familyTurns : List OriginTurn := List.replicate 7 ⟨0, false⟩ ++ List.replicate 4 ⟨1, false⟩

theorem familyStock_ofPackets : familyStock.OfPackets .p16 := putToLocal_ofPackets _ _ _

theorem familyStock_sameFiles : familyStock.SameFiles := fun b => by cases b <;> rfl

end Frame

/-- The descendant is purged. -/
theorem checkOrigin_purged_family : ∃ stock',
    CheckOrigin .p16 true Frame.familyStock true (-1) stock' ∧ stock'.records.length = 1 ∧
      Frame.familyStock.Purged .p16 stock' := by
  have hscan : ∃ s, Run.exec (OriginScan.step .p16 (collectOriginEntries .p16 Frame.familyStock 2))
      (.start (collectOriginEntries .p16 Frame.familyStock 2)) Frame.familyTurns = some s ∧
      (∀ t ∈ s.threads, t = .finished) ∧ 0 < s.found .descendant + s.found .duplicate ∧
      (Frame.familyStock.removeElements
        (s.marked (collectOriginEntries .p16 Frame.familyStock 2))).records.length = 1 :=
    ⟨_, rfl, by decide +kernel, by decide +kernel, by decide +kernel⟩
  obtain ⟨s, hexec, hfinished, hfound, hlength⟩ := hscan
  have hcall := @CheckOrigin.scanned .p16 true Frame.familyStock true (fun _ => rfl) _ (.refl _) (by decide +kernel) s
    (.of_exec (fun _ _ _ => trivial) hexec) hfinished
  rw [if_pos hfound, if_pos rfl] at hcall
  have hresult := (checkOrigin_purged Frame.familyStock Frame.familyStock_ofPackets Frame.familyStock_sameFiles).2
    true (-1) _ hcall
  rw [if_pos fun _ => rfl] at hresult
  exact ⟨_, hcall, hlength, hresult.1⟩

/-- A stock of one packet has nothing to find, and the call returns -1 when the table does not fit in memory. -/
theorem checkOrigin_outOfMemory : ∃ stock : LocalStock, stock.OfPackets .p16 ∧ stock.SameFiles ∧
    CheckOrigin .p16 true stock false (-1) stock ∧ stock.records.Pairwise (Unrelated .p16) := by
  refine ⟨(putToLocal .empty [Frame.root] (fun _ => true) (fun _ => true)).1, putToLocal_ofPackets _ _ _,
    fun b => by cases b <;> rfl, .outOfMemory (by decide +kernel), ?_⟩
  have hlength : (putToLocal .empty [Frame.root] (fun _ => true) (fun _ => true)).1.records.length = 1 := by
    decide +kernel
  obtain ⟨record, hrecord⟩ := List.length_eq_one_iff.mp hlength
  rw [hrecord]
  exact List.pairwise_singleton ..
