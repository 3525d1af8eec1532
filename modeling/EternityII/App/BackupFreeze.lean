-- SUMMARY: A consistent backup among the threads that move packets between the stock and the analysed pool: what it misses.
import EternityII.App.WorkConnection

/-!
# The freeze of a consistent backup

`consistent_backup` locks all files, those of the analysed pool and those of the stock, and writes
what they hold, file by file. Five operations take packets out of one container under its lock and
put them into another one after they have released it: serving, the requeue at the end of a
connection, the reclaim of expired leases, `restock_analysed` and the rebalancing. An expansion pass
takes the whole unverified pool. A packet that a thread holds in between is in no file. What the RAM
tier and the disk hold is frozen with the files, and left out here.
-/

/-! ## Threads -/

/-- What a thread keeps in its local variables: the rest of a batch to record and a packet whose recording
has been refused; the rest of a last batch and a packet to give back, taken out of the analysed pool
or only missed there; a reclaim; the packets of a file under analysis, of a rebalancing or of an
expansion pass, which has not yet drained the pool at `none`. -/
inductive ServerThread (P : Puzzle) where
  | serving (owner : Option (List Byte)) (hint : Nat) (batch : List (Packet P)) (refused : Option (Packet P))
  | requeueing (lastSent : List (Packet P)) (pending : Option (Packet P × Bool))
  | reclaiming (phase : ReclaimPhase P)
  | restocking (f : Nat) (buf : List (Packet P))
  | rebalancing (wantChecked : Bool) (buf : List (Packet P))
  | expanding (work : Option (List (Packet P)))
  | finished

namespace ServerThread

variable {P : Puzzle}

/-- The packets that are in no container. -/
def held : ServerThread P → List (Packet P)
  | serving _ _ batch refused => refused.toList ++ batch
  | requeueing _ (some (possibility, true)) => [possibility]
  | requeueing _ _ => []
  | reclaiming phase => phase.buf
  | restocking _ buf => buf
  | rebalancing _ buf => buf
  | expanding work => work.getD []
  | finished => []

/-- The packets that have been taken out of the stock to be served. -/
def served : ServerThread P → List (Packet P)
  | serving _ _ batch refused => refused.toList ++ batch
  | _ => []

end ServerThread

/-! ## The backup -/

/-- `consistent_backup_impl` from its freeze on: how many files of the analysed pool and of the stock it
has written and released, what it has written, and the write errors; and the containers and the
packets in the hands of the threads at the freeze. -/
structure BackupWrite (P : Puzzle) where
  analysedFiles : Nat
  stockFiles : Nat
  fanalysed : List (List Byte)
  fstock : List (List Byte)
  writeErrorAnalysed : Bool
  writeErrorStock : Bool
  frozenAnalysed : AnalysedPool P
  frozenStock : LocalStock
  held : List (Packet P)

/-- Where a backup stands; `skipped` also where the files could not be opened. -/
inductive BackupStage (P : Puzzle) where
  | idle
  | opened
  | writing (w : BackupWrite P)
  | skipped (result : Int)
  | closed (w : BackupWrite P) (result analysedStatus : Int)

/-- The stock, the analysed pool, the threads, `expansion_pass_depth` and the backup. -/
structure PoolServer (P : Puzzle) where
  stock : LocalStock
  analysed : AnalysedPool P
  threads : List (ServerThread P)
  expansionPassDepth : Nat
  backup : BackupStage P

/-- The critical sections. The threads are numbered in the order in which their operations start. -/
inductive PoolAction (P : Puzzle) where
  | serve (owner : Option (List Byte)) (hint : Nat) (maxResult : Int) (found : Option (Bool × Nat))
  | record (i : Nat) (turn : RecordingTurn)
  | handBack (i : Nat) (freeUnchecked freeChecked : Nat → Bool)
  | requeue (lastSent : List (Packet P))
  | requeueRemove (i f : Nat)
  | requeueMiss (i : Nat) (absent : Bool)
  | reclaim (now : Int)
  | reclaimFile (i : Nat) (ownerAlive : List Byte → Bool) (alloc : Bool)
  | accumulate (i : Nat) (alloc : Bool)
  | purgeAnalysed (i : Nat)
  | purgeStock (i : Nat)
  | restock
  | restockFile (i : Nat)
  | rebalance (wantChecked : Bool) (fullest toMove : Nat)
  | putBack (i dest : Nat)
  | expandEnter
  | expandDrain (i room : Nat)
  | expandLeave (i : Nat)
  | backupCheck (maintenance files : Bool)
  | backupFreeze
  | backupWriteAnalysed (written : Nat → Bool)
  | backupWriteStock (written : Nat → Bool)
  | backupPublish (analysed stock : Bool)

section Step

variable {P : Puzzle}

/-- `pool_put` into the file `dest` of one of the pools. -/
def LocalStock.putAt (stock : LocalStock) (wantChecked : Bool) (pk : Packet P) (dest : Nat) : LocalStock :=
  let pool := stock.pool wantChecked
  stock.setPool wantChecked
    { pool with
      files := pool.files.modify dest (poolPut · pk)
      files_pos := by rw [List.length_modify]; exact pool.files_pos }

/-- The file that `put_to_pool` locks. -/
def LocalStock.putFile (stock : LocalStock) (wantChecked : Bool) (free : Nat → Bool) : Option Nat :=
  let pool := stock.pool wantChecked
  (firstFree free (trylockMaxSweeps * pool.files.length) 0).map fun attempt =>
    (pool.rrPut % pool.files.length + attempt) % pool.files.length

/-- Take up to `toMove` packets from the tail of a file. -/
def LocalStock.scrollAt (P : Puzzle) (stock : LocalStock) (wantChecked : Bool) (f toMove : Nat) :
    List (Packet P) × LocalStock :=
  let pool := stock.pool wantChecked
  let scrolled := scrollLoop P toMove (pool.files.getD f [])
  (scrolled.1, stock.setPool wantChecked
    { pool with
      files := pool.files.set f scrolled.2
      files_pos := by rw [List.length_set]; exact pool.files_pos })

/-- The loop of `expand_drain_unchecked_pool`: the packets drained as long as there is memory, for `room`
of them, and what stays in the files. -/
def drainFiles (P : Puzzle) : Nat → List PoolFile → List (Packet P) × List PoolFile
  | _, [] => ([], [])
  | room, file :: files =>
    let scrolled := scrollLoop P room file
    let rest := drainFiles P (room - scrolled.1.length) files
    (scrolled.1 ++ rest.1, scrolled.2 :: rest.2)

theorem length_drainFiles (room : Nat) (files : List PoolFile) :
    (drainFiles P room files).2.length = files.length := by
  induction files generalizing room with
  | nil => rfl
  | cons file files ih => exact congrArg (· + 1) (ih _)

/-- What `element_write` writes of some elements; it can fail for any of them. -/
def writeElements (written : Nat → Bool) (records : List (List Byte)) : List (List Byte) :=
  (records.zipIdx.filter fun element => written element.2).map Prod.fst

/-- The records of the elements of a file of the analysed pool. -/
def analysedRecords (file : List (PoolElement P)) : List (List Byte) := file.filterMap fun e => recordOf e.packet

theorem AnalysedPool.length_set_pos (pool : AnalysedPool P) (f : Nat) (file : List (PoolElement P)) :
    0 < (pool.files.set f file).length := by
  rw [List.length_set]
  exact pool.files_pos

/-- An analysed pool with one file replaced. -/
def AnalysedPool.setFile (pool : AnalysedPool P) (f : Nat) (file : List (PoolElement P)) : AnalysedPool P :=
  { pool with
    files := pool.files.set f file
    files_pos := pool.length_set_pos f file }

/-- An analysed pool without the descendants of some packets. -/
def AnalysedPool.purge (pool : AnalysedPool P) (origins : List (Packet P)) : AnalysedPool P :=
  { pool with
    files := pool.files.map fun file => file.filter fun e => !isDescendantOfAny origins e.packet
    files_pos := by rw [List.length_map]; exact pool.files_pos }

namespace PoolServer

variable (s : PoolServer P)

/-- The backup holds the lock of the file of the analysed pool. -/
def analysedLocked (f : Nat) : Bool :=
  match s.backup with
  | .writing w => decide (w.analysedFiles ≤ f)
  | _ => false

/-- The backup holds the locks of the two files of the stock. -/
def stockLocked (f : Nat) : Bool :=
  match s.backup with
  | .writing w => decide (w.stockFiles ≤ f)
  | _ => false

/-- `lock_all_file_analysed` finds every file free. -/
def analysedFree : Bool := (List.range s.analysed.files.length).all (!s.analysedLocked ·)

/-- `lock_all_file` finds every file free. -/
def stockFree : Bool := (List.range s.stock.unchecked.files.length).all (!s.stockLocked ·)

/-- The thread `i` goes on. -/
def resume (i : Nat) (t : ServerThread P) : PoolServer P := { s with threads := s.threads.set i t }

/-- A thread starts an operation. -/
def spawn (t : ServerThread P) : PoolServer P := { s with threads := s.threads ++ [t] }

/-- A packet goes to the stock through `add_possibility`. -/
def addBack (possibility : Packet P) (freeUnchecked freeChecked : Nat → Bool) : Option (PoolServer P) :=
  let wantChecked := decide (possibility.checked = 1)
  if (s.stock.putFile wantChecked (if wantChecked then freeChecked else freeUnchecked)).any s.stockLocked then none
  else some { s with stock := (putToLocal s.stock [possibility] freeUnchecked freeChecked).1 }

end PoolServer

/-- The critical sections of serving and of the requeue at the end of a connection. -/
def PoolServer.clientStep (analysedLeaseSeconds : Int) (s : PoolServer P) : PoolAction P → Option (PoolServer P)
  | .serve owner hint maxResult found =>
    if found.any fun file => s.stockLocked file.2 then none
    else
      let taken := scrollFromLocal P s.stock maxResult found
      some ({ s with stock := taken.2 }.spawn (.serving owner hint taken.1 none))
  | .record i turn =>
    match s.threads[i]? with
    | some (.serving owner hint (possibility :: batch) none) =>
      if s.analysedLocked hint && (firstFree turn.add.free trylockMaxSweeps 0).isSome then none
      else
        let added := s.analysed.add possibility hint analysedLeaseSeconds owner turn
        some ({ s with analysed := added.1 }.resume i
          (.serving owner hint batch (if added.2 = 0 then none else some possibility)))
    | _ => none
  | .handBack i freeUnchecked freeChecked =>
    match s.threads[i]? with
    | some (.serving owner hint batch (some possibility)) =>
      (s.addBack possibility freeUnchecked freeChecked).map (·.resume i (.serving owner hint batch none))
    | some (.requeueing lastSent (some (possibility, _))) =>
      (s.addBack possibility freeUnchecked freeChecked).map (·.resume i (.requeueing lastSent none))
    | _ => none
  | .requeue lastSent => some (s.spawn (.requeueing lastSent none))
  | .requeueRemove i f =>
    match s.threads[i]? with
    | some (.requeueing (possibility :: lastSent) none) =>
      if s.analysedLocked f then none
      else
        (removeElement s.analysed.mayBeIncomplete possibility (s.analysed.files.getD f [])).map fun file =>
          { s with analysed := s.analysed.setFile f file }.resume i (.requeueing lastSent (some (possibility, true)))
    | _ => none
  | .requeueMiss i absent =>
    match s.threads[i]? with
    | some (.requeueing (possibility :: lastSent) none) =>
      some (s.resume i (.requeueing lastSent (if absent then none else some (possibility, false))))
    | _ => none
  | _ => none

/-- The critical sections of `datamanager_reclaim_expired_leases`, `restock_analysed`, the rebalancing and
the start of an expansion pass. The sizes of the files are read before the first lock of a rebalancing
step is taken, so it may be any file that it takes packets from, and any number of them. -/
def PoolServer.stockStep (s : PoolServer P) : PoolAction P → Option (PoolServer P)
  | .reclaim now => some (s.spawn (.reclaiming (.scanning now 0 [] true)))
  | .reclaimFile i ownerAlive alloc =>
    match s.threads[i]? with
    | some (.reclaiming (.scanning now f reclaimed ok)) =>
      if s.analysed.files.length ≤ f ∨ s.analysedLocked f = true then none
      else
        let file := s.analysed.files.getD f []
        let victim (e : PoolElement P) := alloc && e.reclaimable now ownerAlive
        let buf := (file.filter victim).map PoolElement.packet
        some ({ s with analysed := s.analysed.setFile f (file.filter fun e => !victim e) }.resume i
          (.reclaiming (.putting now f buf (reclaimed ++ buf) ok)))
    | _ => none
  | .accumulate i alloc =>
    match s.threads[i]? with
    | some (.reclaiming (.putting now f [] reclaimed ok)) =>
      some (s.resume i (.reclaiming (.scanning now (f + 1) reclaimed (ok && alloc))))
    | _ => none
  | .purgeAnalysed i =>
    match s.threads[i]? with
    | some (.reclaiming (.scanning _ f reclaimed true)) =>
      if f < s.analysed.files.length ∨ reclaimed.length = 0 ∨ s.analysedFree = false then none
      else some ({ s with analysed := s.analysed.purge reclaimed }.resume i (.reclaiming (.purging reclaimed)))
    | _ => none
  | .purgeStock i =>
    match s.threads[i]? with
    | some (.reclaiming (.purging reclaimed)) =>
      if s.stockFree = false then none
      else some ({ s with
        stock := { s.stock with
          unchecked := s.stock.unchecked.purge reclaimed
          checked := s.stock.checked.purge reclaimed } }.resume i (.reclaiming .idle))
    | _ => none
  | .restock => some (s.spawn (.restocking 0 []))
  | .restockFile i =>
    match s.threads[i]? with
    | some (.restocking f []) =>
      if s.analysed.files.length ≤ f ∨ s.analysedLocked f = true then none
      else some ({ s with analysed := s.analysed.setFile f [] }.resume i
        (.restocking (f + 1) ((s.analysed.files.getD f []).map PoolElement.packet).reverse))
    | _ => none
  | .rebalance wantChecked fullest toMove =>
    if s.stockLocked fullest then none
    else
      let scrolled := s.stock.scrollAt P wantChecked fullest toMove
      some ({ s with stock := scrolled.2 }.spawn (.rebalancing wantChecked scrolled.1))
  | .putBack i dest =>
    if s.stockLocked dest then none
    else
      match s.threads[i]? with
      | some (.reclaiming (.putting now f (pk :: buf) reclaimed ok)) =>
        some ({ s with stock := putBackToStock s.stock pk dest }.resume i
          (.reclaiming (.putting now f buf reclaimed ok)))
      | some (.restocking f (pk :: buf)) =>
        some ({ s with stock := putBackToStock s.stock pk dest }.resume i (.restocking f buf))
      | some (.rebalancing wantChecked (pk :: buf)) =>
        some ({ s with stock := s.stock.putAt wantChecked pk dest }.resume i (.rebalancing wantChecked buf))
      | some (.expanding (some (pk :: work))) =>
        some ({ s with stock := s.stock.putAt false pk dest }.resume i (.expanding (some work)))
      | _ => none
  | .expandEnter => some ({ s with expansionPassDepth := s.expansionPassDepth + 1 }.spawn (.expanding none))
  | .expandDrain i room =>
    match s.threads[i]? with
    | some (.expanding none) =>
      if s.stockFree = false then none
      else
        let drained := drainFiles P room s.stock.unchecked.files
        some ({ s with
          stock := { s.stock with
            unchecked := { s.stock.unchecked with
              files := drained.2
              files_pos := by rw [length_drainFiles]; exact s.stock.unchecked.files_pos } } }.resume i
          (.expanding (some drained.1)))
    | _ => none
  | .expandLeave i =>
    match s.threads[i]? with
    | some (.expanding (some [])) =>
      some ({ s with expansionPassDepth := s.expansionPassDepth - 1 }.resume i .finished)
    | _ => none
  | _ => none

/-- The steps of `consistent_backup_impl`. It locks every file at the freeze and releases each once it is
written. -/
def PoolServer.backupStep (s : PoolServer P) : PoolAction P → Option (PoolServer P)
  | .backupCheck maintenance files =>
    match s.backup with
    | .idle =>
      some { s with backup :=
        if maintenance then .skipped 1 else if s.expansionPassDepth > 0 then .skipped 2
        else if files then .opened else .skipped (-1) }
    | _ => none
  | .backupFreeze =>
    match s.backup with
    | .opened =>
      let held := s.threads.flatMap ServerThread.held
      some { s with backup := .writing ⟨0, 0, [], [], false, false, s.analysed, s.stock, held⟩ }
    | _ => none
  | .backupWriteAnalysed written =>
    match s.backup with
    | .writing w =>
      if w.analysedFiles < s.analysed.files.length then
        let records := analysedRecords (s.analysed.files.getD w.analysedFiles [])
        some { s with backup := .writing { w with
          analysedFiles := w.analysedFiles + 1
          fanalysed := w.fanalysed ++ writeElements written records
          writeErrorAnalysed := w.writeErrorAnalysed || !(List.range records.length).all written } }
      else none
    | _ => none
  | .backupWriteStock written =>
    match s.backup with
    | .writing w =>
      if w.analysedFiles = s.analysed.files.length ∧ w.stockFiles < s.stock.unchecked.files.length then
        let records := s.stock.unchecked.files.getD w.stockFiles [] ++ s.stock.checked.files.getD w.stockFiles []
        some { s with backup := .writing { w with
          stockFiles := w.stockFiles + 1
          fstock := w.fstock ++ writeElements written records
          writeErrorStock := w.writeErrorStock || !(List.range records.length).all written } }
      else none
    | _ => none
  | .backupPublish analysed stock =>
    match s.backup with
    | .writing w =>
      if w.stockFiles = s.stock.unchecked.files.length then
        let result := if w.writeErrorStock || !stock then -1 else 0
        let analysedStatus := if w.writeErrorAnalysed || !analysed then -1 else 0
        some { s with backup := .closed w result analysedStatus }
      else none
    | _ => none
  | _ => none

/-- One critical section. -/
def PoolServer.step (analysedLeaseSeconds : Int) (s : PoolServer P) (a : PoolAction P) : Option (PoolServer P) :=
  ((s.clientStep analysedLeaseSeconds a).or (s.stockStep a)).or (s.backupStep a)

end Step

/-! ## What a critical section leaves alone -/

section Kept

variable {P : Puzzle} {stock stock' : LocalStock} {locked : Nat → Bool}

theorem ofPackets_iff : stock.OfPackets P ↔
    ∀ b f, ∀ record ∈ (stock.pool b).files.getD f [], IsRecord P record := by
  have hmem : ∀ record, record ∈ stock.records ↔ ∃ b f, record ∈ (stock.pool b).files.getD f [] := by
    intro record
    have hflatten : ∀ files : List PoolFile, record ∈ files.flatten ↔ ∃ f, record ∈ files.getD f [] := by
      intro files
      constructor
      · intro h
        obtain ⟨file, hfile, hrecord⟩ := List.mem_flatten.mp h
        obtain ⟨f, hf, rfl⟩ := List.getElem_of_mem hfile
        exact ⟨f, by rwa [List.getD_eq_getElem _ _ hf]⟩
      · rintro ⟨f, hrecord⟩
        by_cases hf : f < files.length
        · rw [List.getD_eq_getElem _ _ hf] at hrecord
          exact List.mem_flatten.mpr ⟨_, List.getElem_mem hf, hrecord⟩
        · rw [List.getD_eq_default _ _ (Nat.not_lt.mp hf)] at hrecord
          exact absurd hrecord List.not_mem_nil
    rw [LocalStock.records, List.mem_append, hflatten, hflatten]
    constructor
    · rintro (⟨f, h⟩ | ⟨f, h⟩)
      · exact ⟨false, f, h⟩
      · exact ⟨true, f, h⟩
    · rintro ⟨b, f, h⟩
      cases b
      · exact .inl ⟨f, h⟩
      · exact .inr ⟨f, h⟩
  constructor
  · exact fun h b f record hrecord => h record ((hmem record).mpr ⟨b, f, hrecord⟩)
  · rintro h record hrecord
    obtain ⟨b, f, hrecord⟩ := (hmem record).mp hrecord
    exact h b f record hrecord

/-- The stock has its files, its records are still records, and the locked files are as they were. -/
structure StockKept (P : Puzzle) (locked : Nat → Bool) (stock stock' : LocalStock) : Prop where
  encoded : stock.OfPackets P → stock'.OfPackets P
  length : ∀ b, (stock'.pool b).files.length = (stock.pool b).files.length
  files : ∀ b f, locked f = true → (stock'.pool b).files.getD f [] = (stock.pool b).files.getD f []

theorem StockKept.refl (stock : LocalStock) : StockKept P locked stock stock :=
  ⟨id, fun _ => rfl, fun _ _ _ => rfl⟩

/-- One file of one pool changes, and it is not locked. -/
theorem stockKept_setPool {b : Bool} {pool : Pool} {d : Nat} (hd : locked d = false)
    (hlength : pool.files.length = (stock.pool b).files.length)
    (hothers : ∀ f, f ≠ d → pool.files.getD f [] = (stock.pool b).files.getD f [])
    (hrecords : ∀ record ∈ pool.files.getD d [], IsRecord P record ∨ record ∈ (stock.pool b).files.getD d []) :
    StockKept P locked stock (stock.setPool b pool) := by
  refine ⟨fun hencoded => ?_, fun b' => ?_, fun b' f hf => ?_⟩
  · rw [ofPackets_iff] at hencoded ⊢
    intro b' f record hrecord
    rw [LocalStock.pool_setPool] at hrecord
    split at hrecord
    · rename_i hb
      by_cases hfd : f = d
      · subst hfd
        exact (hrecords record hrecord).elim id (hencoded b f record)
      · rw [hothers f hfd] at hrecord
        exact hencoded b f record hrecord
    · exact hencoded b' f record hrecord
  · rw [LocalStock.pool_setPool]
    split
    · rename_i hb
      rw [hlength, hb]
    · rfl
  · rw [LocalStock.pool_setPool]
    split
    · rename_i hb
      have hfd : f ≠ d := fun heq => by rw [heq, hd] at hf; exact Bool.false_ne_true hf
      rw [hothers f hfd, hb]
    · rfl

theorem getD_modify_of_ne {α : Type} {files : List (List α)} {d f : Nat} {g : List α → List α} (h : f ≠ d) :
    (files.modify d g).getD f [] = files.getD f [] := by
  rw [List.getD_eq_getElem?_getD, List.getD_eq_getElem?_getD, List.getElem?_modify_ne _ _ (Ne.symm h)]

theorem getD_set_of_ne {α : Type} {files : List (List α)} {d f : Nat} {file : List α} (h : f ≠ d) :
    (files.set d file).getD f [] = files.getD f [] := by
  rw [List.getD_eq_getElem?_getD, List.getD_eq_getElem?_getD, List.getElem?_set_ne (Ne.symm h)]

/-- What can be in the file that has been replaced or extended. -/
theorem mem_getD_set {α : Type} {files : List (List α)} {d : Nat} {file : List α} {a : α}
    (h : a ∈ (files.set d file).getD d []) : a ∈ file := by
  by_cases hd : d < files.length
  · rwa [List.getD_eq_getElem _ _ (by rwa [List.length_set]), List.getElem_set_self] at h
  · rw [List.getD_eq_default _ _ (by rw [List.length_set]; exact Nat.not_lt.mp hd)] at h
    exact absurd h List.not_mem_nil

theorem mem_getD_modify_append {α : Type} {files : List (List α)} {d : Nat} {new : List α} {a : α}
    (h : a ∈ (files.modify d (· ++ new)).getD d []) : a ∈ files.getD d [] ∨ a ∈ new := by
  by_cases hd : d < files.length
  · rw [List.getD_eq_getElem _ _ (by rwa [List.length_modify]), List.getElem_modify_eq, List.mem_append] at h
    rwa [List.getD_eq_getElem _ _ hd]
  · rw [List.getD_eq_default _ _ (by rw [List.length_modify]; exact Nat.not_lt.mp hd)] at h
    exact absurd h List.not_mem_nil

theorem stockKept_scrollAt (b : Bool) {f : Nat} (toMove : Nat) (hf : locked f = false)
    (hencoded : stock.OfPackets P) : StockKept P locked stock (stock.scrollAt P b f toMove).2 := by
  have hrecords := fun record hrecord => ofPackets_iff.mp hencoded b f record hrecord
  obtain ⟨taken, hperm, -⟩ := scrollLoop_taken hrecords toMove
  unfold LocalStock.scrollAt
  dsimp only
  refine stockKept_setPool hf (List.length_set ..) (fun f' hf' => getD_set_of_ne hf') fun record hrecord => .inr ?_
  exact hperm.mem_iff.mpr (List.mem_append_right _ (mem_getD_set hrecord))

theorem stockKept_scrollFromLocal {maxResult : Int} {found : Option (Bool × Nat)}
    (hfound : (found.any fun file => locked file.2) = false) (hencoded : stock.OfPackets P) :
    StockKept P locked stock (scrollFromLocal P stock maxResult found).2 := by
  cases found with
  | none => exact .refl stock
  | some file => exact stockKept_scrollAt file.1 maxResult.toNat hfound hencoded

theorem poolPut_eq_append (pk : Packet P) : (poolPut · pk) = (· ++ (recordOf pk).toList) :=
  funext fun file => poolPut_eq file pk

theorem isRecord_of_mem {pk : Packet P} {record : List Byte} (h : record ∈ (recordOf pk).toList) : IsRecord P record :=
  ⟨pk, Option.mem_toList.mp h⟩

theorem stockKept_putAt (b : Bool) (pk : Packet P) {dest : Nat} (hdest : locked dest = false) :
    StockKept P locked stock (stock.putAt b pk dest) := by
  unfold LocalStock.putAt
  dsimp only
  refine stockKept_setPool hdest (List.length_modify ..) (fun f hf => getD_modify_of_ne hf) fun record hrecord => ?_
  simp only [poolPut_eq_append] at hrecord
  exact (mem_getD_modify_append hrecord).symm.imp isRecord_of_mem id

theorem stockKept_putBackToStock (pk : Packet P) {dest : Nat} (hdest : locked dest = false) :
    StockKept P locked stock (putBackToStock stock pk dest) := stockKept_putAt _ pk hdest

theorem stockKept_sameFiles {b : Bool} {pool : Pool} (h : pool.files = (stock.pool b).files) :
    StockKept P locked stock (stock.setPool b pool) := by
  have hpool : ∀ b', ((stock.setPool b pool).pool b').files = (stock.pool b').files := by
    intro b'
    rw [LocalStock.pool_setPool]
    split
    · rename_i hb
      rw [h, hb]
    · rfl
  refine ⟨fun hencoded => ?_, fun b' => by rw [hpool b'], fun b' f _ => by rw [hpool b']⟩
  rw [ofPackets_iff] at hencoded ⊢
  intro b' f record hrecord
  rw [hpool b'] at hrecord
  exact hencoded b' f record hrecord

theorem stockKept_putToPool (possibility : Packet P) (b : Bool) (free : Nat → Bool)
    (hfile : (stock.putFile b free).any locked = false) :
    StockKept P locked stock (putToPool stock [possibility] b free).1 := by
  unfold LocalStock.putFile at hfile
  dsimp only at hfile
  unfold putToPool
  dsimp only
  split
  · exact .refl stock
  · split
    · exact .refl stock
    · split
      · exact stockKept_sameFiles rfl
      · rename_i attempt hattempt
        rw [hattempt, Option.map_some, Option.any_some] at hfile
        simp only [foldl_poolPut]
        refine stockKept_setPool hfile (List.length_modify ..) (fun f hf => getD_modify_of_ne hf) fun record hrecord => ?_
        rcases mem_getD_modify_append hrecord with hold | hnew
        · exact .inr hold
        · obtain ⟨q, -, hq⟩ := List.mem_filterMap.mp hnew
          exact .inl ⟨q, hq⟩

theorem mem_purge_getD {pool : Pool} {origins : List (Packet P)} {f : Nat} {record : List Byte}
    (h : record ∈ (pool.purge origins).files.getD f []) : record ∈ pool.files.getD f [] := by
  unfold Pool.purge at h
  dsimp only at h
  by_cases hf : f < pool.files.length
  · rw [List.getD_eq_getElem _ _ (by rwa [List.length_map]), List.getElem_map] at h
    rw [List.getD_eq_getElem _ _ hf]
    exact (List.mem_filter.mp h).1
  · rw [List.getD_eq_default _ _ (by rw [List.length_map]; exact Nat.not_lt.mp hf)] at h
    exact absurd h List.not_mem_nil

/-- While no file is locked the whole stock may change. -/
theorem stockKept_of_free (hlength : ∀ b, (stock'.pool b).files.length = (stock.pool b).files.length)
    (hfree : ∀ b, ∀ f < (stock.pool b).files.length, locked f = false)
    (hrecords : ∀ b f, ∀ record ∈ (stock'.pool b).files.getD f [], record ∈ (stock.pool b).files.getD f []) :
    StockKept P locked stock stock' := by
  refine ⟨fun hencoded => ?_, hlength, fun b f hf => ?_⟩
  · rw [ofPackets_iff] at hencoded ⊢
    exact fun b f record hrecord => hencoded b f record (hrecords b f record hrecord)
  · have hlong : (stock.pool b).files.length ≤ f := by
      refine Nat.not_lt.mp fun hlt => ?_
      rw [hfree b f hlt] at hf
      exact Bool.false_ne_true hf
    rw [List.getD_eq_default _ _ hlong, List.getD_eq_default _ _ (by rwa [hlength])]

theorem drainFiles_subset {room : Nat} {files : List PoolFile} {f : Nat}
    (hrecords : ∀ f, ∀ record ∈ files.getD f [], IsRecord P record) :
    ∀ record ∈ (drainFiles P room files).2.getD f [], record ∈ files.getD f [] := by
  induction files generalizing room f with
  | nil => exact fun record hrecord => hrecord
  | cons file files ih =>
    intro record hrecord
    cases f with
    | zero =>
      obtain ⟨taken, hperm, -⟩ := scrollLoop_taken (hrecords 0) room
      exact hperm.mem_iff.mpr (List.mem_append_right _ hrecord)
    | succ f => exact ih (fun f => hrecords (f + 1)) record hrecord

end Kept

/-! ## The threads -/

section Threads

variable {P : Puzzle} {seconds : Int} {s s' : PoolServer P} {a : PoolAction P}

/-- The records are records, the packets that are served or under analysis have come out of records, and
the containers have the same number of files. -/
structure PoolServer.Sound (s : PoolServer P) : Prop where
  encoded : s.stock.OfPackets P
  analysed : ∀ f, ∀ e ∈ s.analysed.files.getD f [], e.packet.Loaded
  served : ∀ t ∈ s.threads, ∀ p ∈ t.served, p.Loaded
  files : ∀ b, (s.stock.pool b).files.length = s.analysed.files.length

/-- A critical section of a thread: the locked files are as they were, and so is the backup. -/
structure PoolServer.Moved (s s' : PoolServer P) : Prop where
  sound : s'.Sound
  backup : s'.backup = s.backup
  length : s'.analysed.files.length = s.analysed.files.length
  analysed : ∀ f, s.analysedLocked f = true → s'.analysed.files.getD f [] = s.analysed.files.getD f []
  stock : ∀ b f, s.stockLocked f = true → (s'.stock.pool b).files.getD f [] = (s.stock.pool b).files.getD f []

/-- A pool whose locked files are as they were and whose elements have come out of records. -/
structure AnalysedKept (locked : Nat → Bool) (pool pool' : AnalysedPool P) : Prop where
  length : pool'.files.length = pool.files.length
  files : ∀ f, locked f = true → pool'.files.getD f [] = pool.files.getD f []
  loaded : ∀ f, ∀ e ∈ pool'.files.getD f [], e.packet.Loaded

variable (h : s.Sound)
include h

theorem PoolServer.Sound.analysedKept : AnalysedKept s.analysedLocked s.analysed s.analysed :=
  ⟨rfl, fun _ _ => rfl, h.analysed⟩

/-- One file of the analysed pool is replaced, and it is not locked. -/
theorem PoolServer.Sound.setFile {f : Nat} {file : List (PoolElement P)} (hf : s.analysedLocked f = false)
    (hloaded : ∀ e ∈ file, e.packet.Loaded) :
    AnalysedKept s.analysedLocked s.analysed (s.analysed.setFile f file) := by
  refine ⟨List.length_set .., fun f' hf' => ?_, fun f' e he => ?_⟩
  · exact getD_set_of_ne fun heq => Bool.false_ne_true (hf.symm.trans (heq ▸ hf'))
  · by_cases heq : f' = f
    · subst heq
      exact hloaded e (mem_getD_set he)
    · exact h.analysed f' e (by rwa [AnalysedPool.setFile, getD_set_of_ne heq] at he)

/-- While no file is locked the whole analysed pool may be purged. -/
theorem PoolServer.Sound.purge (hfree : s.analysedFree = true) (origins : List (Packet P)) :
    AnalysedKept s.analysedLocked s.analysed (s.analysed.purge origins) := by
  have hlength : (s.analysed.purge origins).files.length = s.analysed.files.length := List.length_map ..
  refine ⟨hlength, fun f hf => ?_, fun f e he => ?_⟩
  · have hlong : s.analysed.files.length ≤ f := by
      refine Nat.not_lt.mp fun hlt => ?_
      have hopen := List.all_eq_true.mp hfree f (List.mem_range.mpr hlt)
      rw [hf] at hopen
      exact Bool.false_ne_true hopen
    rw [List.getD_eq_default _ _ hlong, List.getD_eq_default _ _ (by rwa [hlength])]
  · by_cases hlt : f < s.analysed.files.length
    · refine h.analysed f e ?_
      rw [List.getD_eq_getElem _ _ (by rwa [hlength])] at he
      unfold AnalysedPool.purge at he
      dsimp only at he
      rw [List.getElem_map] at he
      rw [List.getD_eq_getElem _ _ hlt]
      exact (List.mem_filter.mp he).1
    · rw [List.getD_eq_default _ _ (by rw [hlength]; exact Nat.not_lt.mp hlt)] at he
      exact absurd he List.not_mem_nil

/-- While no file is locked the whole stock may change. -/
theorem PoolServer.Sound.stockKept {stock : LocalStock} (hfree : s.stockFree = true)
    (hlength : ∀ b, (stock.pool b).files.length = (s.stock.pool b).files.length)
    (hrecords : ∀ b f, ∀ record ∈ (stock.pool b).files.getD f [], record ∈ (s.stock.pool b).files.getD f []) :
    StockKept P s.stockLocked s.stock stock := by
  refine stockKept_of_free hlength (fun b f hf => ?_) hrecords
  rw [h.files b, ← h.files false] at hf
  exact Bool.not_eq_true' _ ▸ List.all_eq_true.mp hfree f (List.mem_range.mpr hf)

/-- A thread has moved packets between the containers and gone on. -/
theorem PoolServer.Sound.moved {stock : LocalStock} {analysed : AnalysedPool P} {threads : List (ServerThread P)}
    {depth : Nat} (hstock : StockKept P s.stockLocked s.stock stock)
    (hanalysed : AnalysedKept s.analysedLocked s.analysed analysed)
    (hserved : ∀ t ∈ threads, ∀ p ∈ t.served, p.Loaded) :
    s.Moved ⟨stock, analysed, threads, depth, s.backup⟩ where
  sound := ⟨hstock.encoded h.encoded, hanalysed.loaded, hserved,
    fun b => (hstock.length b).trans ((h.files b).trans hanalysed.length.symm)⟩
  backup := rfl
  length := hanalysed.length
  analysed := hanalysed.files
  stock := hstock.files

theorem PoolServer.Sound.served_set {i : Nat} {t : ServerThread P} (ht : ∀ p ∈ t.served, p.Loaded) :
    ∀ t' ∈ s.threads.set i t, ∀ p ∈ t'.served, p.Loaded := by
  intro t' ht'
  rcases List.mem_or_eq_of_mem_set ht' with hold | rfl
  · exact h.served t' hold
  · exact ht

theorem PoolServer.Sound.served_append {t : ServerThread P} (ht : ∀ p ∈ t.served, p.Loaded) :
    ∀ t' ∈ s.threads ++ [t], ∀ p ∈ t'.served, p.Loaded := by
  intro t' ht'
  rcases List.mem_append.mp ht' with hold | hnew
  · exact h.served t' hold
  · rw [List.mem_singleton.mp hnew]
    exact ht

theorem PoolServer.Sound.served_of {i : Nat} {t : ServerThread P} (hi : s.threads[i]? = some t) :
    ∀ p ∈ t.served, p.Loaded := h.served t (List.mem_of_getElem? hi)

omit h in
theorem PoolServer.addBack_kept {possibility : Packet P} {freeUnchecked freeChecked : Nat → Bool}
    (hadd : s.addBack possibility freeUnchecked freeChecked = some s') :
    ∃ stock, s' = { s with stock := stock } ∧ StockKept P s.stockLocked s.stock stock := by
  obtain ⟨hfile, heq⟩ := Option.ite_none_left_eq_some.mp hadd
  cases heq
  refine ⟨_, rfl, ?_⟩
  rw [putToLocal_singleton]
  exact stockKept_putToPool possibility _ _ (Bool.eq_false_iff.mpr hfile)

theorem PoolServer.Sound.add (possibility : Packet P) (hint : Nat) (owner : Option (List Byte)) {turn : RecordingTurn}
    (hloaded : possibility.Loaded)
    (hlocked : (s.analysedLocked hint && (firstFree turn.add.free trylockMaxSweeps 0).isSome) = false) :
    AnalysedKept s.analysedLocked s.analysed (s.analysed.add possibility hint seconds owner turn).1 := by
  unfold AnalysedPool.add
  cases hfree : firstFree turn.add.free trylockMaxSweeps 0 with
  | none => exact h.analysedKept
  | some attempt =>
    rw [hfree, Option.isSome_some, Bool.and_true] at hlocked
    dsimp only
    split
    · refine ⟨List.length_modify .., fun f hf => ?_, fun f e he => ?_⟩
      · exact getD_modify_of_ne fun heq => Bool.false_ne_true (hlocked.symm.trans (heq ▸ hf))
      · by_cases heq : f = hint
        · subst heq
          rcases mem_getD_modify_append he with hold | hnew
          · exact h.analysed f e hold
          · rw [List.mem_singleton.mp hnew]
            exact hloaded
        · exact h.analysed f e (by rwa [getD_modify_of_ne heq] at he)
    · exact h.analysedKept

/-- What is left of a file from which an element has been removed. -/
theorem PoolServer.Sound.removeElement {possibility : Packet P} {f : Nat} {file : List (PoolElement P)}
    (hremove : removeElement s.analysed.mayBeIncomplete possibility (s.analysed.files.getD f []) = some file) :
    ∀ e ∈ file, e.packet.Loaded := by
  have hnothing : ∀ e ∈ ([] : List (PoolElement P)), e.node.isSome = true := fun _ h => absurd h List.not_mem_nil
  have hspec := removeElement_spec possibility s.analysed.mayBeIncomplete (s.analysed.files.getD f []) hnothing
  rw [List.append_nil, hremove] at hspec
  generalize hleft : some file = left at hspec
  cases hspec with
  | absent _ => cases hleft
  | own matched => exact absurd matched Bool.false_ne_true
  | old _ e old' _ perm =>
    cases hleft
    intro e' he'
    rw [List.append_nil] at he'
    exact h.analysed f e' (perm.mem_iff.mpr (List.mem_cons_of_mem e he'))

theorem PoolServer.Sound.clientStep (hstep : s.clientStep seconds a = some s') : s.Moved s' := by
  have hnone : ∀ t : ServerThread P, t.served = [] → ∀ p ∈ t.served, p.Loaded := by
    intro t ht p hp
    rw [ht] at hp
    exact absurd hp List.not_mem_nil
  cases a with
  | serve owner hint maxResult found =>
    obtain ⟨hfound, heq⟩ := Option.ite_none_left_eq_some.mp hstep
    cases heq
    obtain ⟨-, -, hloaded⟩ := scrollFromLocal_keys h.encoded maxResult found
    exact h.moved (stockKept_scrollFromLocal (Bool.eq_false_iff.mpr hfound) h.encoded) h.analysedKept
      (h.served_append hloaded)
  | record i turn =>
    unfold PoolServer.clientStep at hstep
    dsimp only at hstep
    split at hstep
    · rename_i owner hint possibility batch hi
      obtain ⟨hlocked, heq⟩ := Option.ite_none_left_eq_some.mp hstep
      cases heq
      obtain ⟨hfirst, hrest⟩ := List.forall_mem_cons.mp (h.served_of hi)
      refine h.moved (.refl s.stock) (h.add possibility hint owner hfirst (Bool.eq_false_iff.mpr hlocked))
        (h.served_set ?_)
      split
      · exact hrest
      · exact List.forall_mem_cons.mpr ⟨hfirst, hrest⟩
    · cases hstep
  | handBack i freeUnchecked freeChecked =>
    unfold PoolServer.clientStep at hstep
    dsimp only at hstep
    split at hstep
    · rename_i owner hint batch possibility hi
      obtain ⟨s₁, hadd, heq⟩ := Option.map_eq_some_iff.mp hstep
      obtain ⟨stock, rfl, hstock⟩ := PoolServer.addBack_kept hadd
      cases heq
      exact h.moved hstock h.analysedKept (h.served_set (List.forall_mem_cons.mp (h.served_of hi)).2)
    · obtain ⟨s₁, hadd, heq⟩ := Option.map_eq_some_iff.mp hstep
      obtain ⟨stock, rfl, hstock⟩ := PoolServer.addBack_kept hadd
      cases heq
      exact h.moved hstock h.analysedKept (h.served_set (hnone _ rfl))
    · cases hstep
  | requeue lastSent =>
    cases hstep
    exact h.moved (.refl s.stock) h.analysedKept (h.served_append (hnone _ rfl))
  | requeueRemove i f =>
    unfold PoolServer.clientStep at hstep
    dsimp only at hstep
    split at hstep
    · obtain ⟨hlocked, hremoved⟩ := Option.ite_none_left_eq_some.mp hstep
      obtain ⟨file, hfile, heq⟩ := Option.map_eq_some_iff.mp hremoved
      cases heq
      exact h.moved (.refl s.stock) (h.setFile (Bool.eq_false_iff.mpr hlocked) (h.removeElement hfile))
        (h.served_set (hnone _ rfl))
    · cases hstep
  | requeueMiss i absent =>
    unfold PoolServer.clientStep at hstep
    dsimp only at hstep
    split at hstep
    · cases hstep
      exact h.moved (.refl s.stock) h.analysedKept (h.served_set (hnone _ rfl))
    · cases hstep
  | _ => cases hstep

theorem PoolServer.Sound.stockStep (hstep : s.stockStep a = some s') : s.Moved s' := by
  have hnone : ∀ t : ServerThread P, t.served = [] → ∀ p ∈ t.served, p.Loaded := by
    intro t ht p hp
    rw [ht] at hp
    exact absurd hp List.not_mem_nil
  unfold PoolServer.stockStep at hstep
  cases a with
  | reclaim now =>
    cases hstep
    exact h.moved (.refl s.stock) h.analysedKept (h.served_append (hnone _ rfl))
  | reclaimFile i ownerAlive alloc =>
    dsimp only at hstep
    split at hstep
    · obtain ⟨hlocked, heq⟩ := Option.ite_none_left_eq_some.mp hstep
      cases heq
      refine h.moved (.refl s.stock) (h.setFile (Bool.eq_false_iff.mpr (not_or.mp hlocked).2) fun e he => ?_)
        (h.served_set (hnone _ rfl))
      exact h.analysed _ e (List.mem_filter.mp he).1
    · cases hstep
  | accumulate i alloc =>
    dsimp only at hstep
    split at hstep
    · cases hstep
      exact h.moved (.refl s.stock) h.analysedKept (h.served_set (hnone _ rfl))
    · cases hstep
  | purgeAnalysed i =>
    dsimp only at hstep
    split at hstep
    · obtain ⟨hfree, heq⟩ := Option.ite_none_left_eq_some.mp hstep
      cases heq
      have hunlocked := (Bool.not_eq_false _).mp (not_or.mp (not_or.mp hfree).2).2
      exact h.moved (.refl s.stock) (h.purge hunlocked _) (h.served_set (hnone _ rfl))
    · cases hstep
  | purgeStock i =>
    dsimp only at hstep
    split at hstep
    · obtain ⟨hfree, heq⟩ := Option.ite_none_left_eq_some.mp hstep
      cases heq
      refine h.moved (h.stockKept ((Bool.not_eq_false _).mp hfree) (fun b => ?_) fun b f record hrecord => ?_)
        h.analysedKept (h.served_set (hnone _ rfl))
      · cases b <;> exact List.length_map ..
      · cases b <;> exact mem_purge_getD hrecord
    · cases hstep
  | restock =>
    cases hstep
    exact h.moved (.refl s.stock) h.analysedKept (h.served_append (hnone _ rfl))
  | restockFile i =>
    dsimp only at hstep
    split at hstep
    · obtain ⟨hlocked, heq⟩ := Option.ite_none_left_eq_some.mp hstep
      cases heq
      exact h.moved (.refl s.stock) (h.setFile (Bool.eq_false_iff.mpr (not_or.mp hlocked).2) fun e he =>
        absurd he List.not_mem_nil) (h.served_set (hnone _ rfl))
    · cases hstep
  | rebalance wantChecked fullest toMove =>
    obtain ⟨hlocked, heq⟩ := Option.ite_none_left_eq_some.mp hstep
    cases heq
    exact h.moved (stockKept_scrollAt wantChecked toMove (Bool.eq_false_iff.mpr hlocked) h.encoded) h.analysedKept
      (h.served_append (hnone _ rfl))
  | putBack i dest =>
    obtain ⟨hlocked, hput⟩ := Option.ite_none_left_eq_some.mp hstep
    have hdest := Bool.eq_false_iff.mpr hlocked
    split at hput
    · cases hput
      exact h.moved (stockKept_putBackToStock _ hdest) h.analysedKept (h.served_set (hnone _ rfl))
    · cases hput
      exact h.moved (stockKept_putBackToStock _ hdest) h.analysedKept (h.served_set (hnone _ rfl))
    · cases hput
      exact h.moved (stockKept_putAt _ _ hdest) h.analysedKept (h.served_set (hnone _ rfl))
    · rename_i pk work hi
      cases hput
      have hkept : StockKept P s.stockLocked s.stock (s.stock.putAt false pk dest) := stockKept_putAt false pk hdest
      exact h.moved hkept h.analysedKept (h.served_set (hnone _ rfl))
    · cases hput
  | expandEnter =>
    cases hstep
    exact h.moved (.refl s.stock) h.analysedKept (h.served_append (hnone _ rfl))
  | expandDrain i room =>
    dsimp only at hstep
    split at hstep
    · obtain ⟨hfree, heq⟩ := Option.ite_none_left_eq_some.mp hstep
      cases heq
      refine h.moved (h.stockKept ((Bool.not_eq_false _).mp hfree) (fun b => ?_) fun b f record hrecord => ?_)
        h.analysedKept (h.served_set (hnone _ rfl))
      · cases b
        · exact length_drainFiles room s.stock.unchecked.files
        · rfl
      · cases b
        · exact drainFiles_subset (ofPackets_iff.mp h.encoded false) record hrecord
        · exact hrecord
    · cases hstep
  | expandLeave i =>
    dsimp only at hstep
    split at hstep
    · cases hstep
      exact h.moved (.refl s.stock) h.analysedKept (h.served_set (hnone _ rfl))
    · cases hstep
  | _ => cases hstep

end Threads

/-! ## What a backup writes -/

section Written

variable {P : Puzzle} {seconds : Int} {s s' : PoolServer P} {a : PoolAction P} {w : BackupWrite P}

/-- The records of the first files of an analysed pool. -/
def AnalysedPool.recordsUpTo (pool : AnalysedPool P) (k : Nat) : List (List Byte) :=
  (List.range k).flatMap fun f => analysedRecords (pool.files.getD f [])

/-- The records of the first files of a stock, the two files of a number one after the other. -/
def LocalStock.recordsUpTo (stock : LocalStock) (k : Nat) : List (List Byte) :=
  (List.range k).flatMap fun f => stock.unchecked.files.getD f [] ++ stock.checked.files.getD f []

/-- What the server owes when the files are frozen. -/
def BackupWrite.owed (w : BackupWrite P) : Multiset (PacketKey P) :=
  w.frozenStock.keys P + w.frozenAnalysed.keys (fun _ => true) + packetKeys w.held

/-- What the two files of the backup hold. -/
def BackupWrite.written (w : BackupWrite P) : Multiset (PacketKey P) :=
  ((w.fstock ++ w.fanalysed).filterMap (recordKey P) : List (PacketKey P))

/-- Everything that the server owes is in at least one of the two files. -/
def BackupWrite.Complete (w : BackupWrite P) : Prop := ∀ k ∈ w.owed, k ∈ w.written

/-- The containers at the freeze hold records, and files of the same numbers. -/
structure BackupWrite.Frozen (w : BackupWrite P) : Prop where
  encoded : w.frozenStock.OfPackets P
  loaded : ∀ f, ∀ e ∈ w.frozenAnalysed.files.getD f [], e.packet.Loaded
  files : ∀ b, (w.frozenStock.pool b).files.length = w.frozenAnalysed.files.length

/-- A backup in progress: the files that it has not released are as they were at the freeze, and it has
written the others as they were, unless a write has failed. -/
structure BackupWrite.Progress (w : BackupWrite P) (s : PoolServer P) : Prop where
  frozen : w.Frozen
  length : s.analysed.files.length = w.frozenAnalysed.files.length
  analysed : ∀ f, w.analysedFiles ≤ f → s.analysed.files.getD f [] = w.frozenAnalysed.files.getD f []
  stock : ∀ b f, w.stockFiles ≤ f → (s.stock.pool b).files.getD f [] = (w.frozenStock.pool b).files.getD f []
  order : w.stockFiles = 0 ∨ w.analysedFiles = w.frozenAnalysed.files.length
  fanalysed : w.writeErrorAnalysed = false → w.fanalysed = w.frozenAnalysed.recordsUpTo w.analysedFiles
  fstock : w.writeErrorStock = false → w.fstock = w.frozenStock.recordsUpTo w.stockFiles

/-- A backup that has returned: a file that it publishes holds all the frozen files of its container. -/
structure BackupWrite.Published (w : BackupWrite P) (result analysedStatus : Int) : Prop where
  frozen : w.Frozen
  fanalysed : analysedStatus = 0 → w.fanalysed = w.frozenAnalysed.recordsUpTo w.frozenAnalysed.files.length
  fstock : result = 0 → w.fstock = w.frozenStock.recordsUpTo w.frozenAnalysed.files.length

/-- What holds of a backup in every state. -/
def PoolServer.BackupInv (s : PoolServer P) : Prop :=
  match s.backup with
  | .writing w => w.Progress s
  | .closed w result analysedStatus => w.Published result analysedStatus
  | _ => True

theorem writeElements_all {written : Nat → Bool} {records : List (List Byte)}
    (h : (List.range records.length).all written = true) : writeElements written records = records := by
  unfold writeElements
  rw [List.filter_eq_self.mpr fun element helement => ?_, List.zipIdx_map_fst]
  have hlt := (List.mem_zipIdx helement).2.1
  rw [Nat.zero_add] at hlt
  exact List.all_eq_true.mp h element.2 (List.mem_range.mpr hlt)

/-- The critical sections of the threads leave a backup where it is, and the files that it holds. -/
theorem PoolServer.Moved.backupInv (h : s.Moved s') (hinv : s.BackupInv) : s'.BackupInv := by
  unfold PoolServer.BackupInv at hinv ⊢
  rw [h.backup]
  cases hbackup : s.backup with
  | writing w =>
    rw [hbackup] at hinv
    have hanalysed : ∀ f, w.analysedFiles ≤ f → s.analysedLocked f = true := fun f hf => by
      unfold PoolServer.analysedLocked
      rw [hbackup]
      exact decide_eq_true hf
    have hstock : ∀ f, w.stockFiles ≤ f → s.stockLocked f = true := fun f hf => by
      unfold PoolServer.stockLocked
      rw [hbackup]
      exact decide_eq_true hf
    exact { hinv with
      length := h.length.trans hinv.length
      analysed := fun f hf => (h.analysed f (hanalysed f hf)).trans (hinv.analysed f hf)
      stock := fun b f hf => (h.stock b f (hstock f hf)).trans (hinv.stock b f hf) }
  | closed w result analysedStatus => rwa [hbackup] at hinv
  | idle => trivial
  | opened => trivial
  | skipped result => trivial

/-- The steps of the backup. -/
theorem PoolServer.BackupInv.backupStep (hinv : s.BackupInv) (h : s.Sound) (hstep : s.backupStep a = some s') :
    s'.Sound ∧ s'.BackupInv := by
  unfold PoolServer.BackupInv at hinv
  unfold PoolServer.backupStep at hstep
  cases a with
  | backupCheck maintenance files =>
    dsimp only at hstep
    split at hstep
    · cases hstep
      refine ⟨⟨h.encoded, h.analysed, h.served, h.files⟩, ?_⟩
      unfold PoolServer.BackupInv
      dsimp only
      cases maintenance
      · by_cases hdepth : s.expansionPassDepth > 0
        · rw [if_neg Bool.false_ne_true, if_pos hdepth]
          trivial
        · rw [if_neg Bool.false_ne_true, if_neg hdepth]
          cases files <;> trivial
      · trivial
    · cases hstep
  | backupFreeze =>
    dsimp only at hstep
    split at hstep
    · cases hstep
      exact ⟨⟨h.encoded, h.analysed, h.served, h.files⟩, ⟨h.encoded, h.analysed, h.files⟩, rfl, fun _ _ => rfl,
        fun _ _ _ => rfl, .inl rfl, fun _ => rfl, fun _ => rfl⟩
    · cases hstep
  | backupWriteAnalysed written =>
    dsimp only at hstep
    split at hstep
    · rename_i w hbackup
      rw [hbackup] at hinv
      obtain ⟨hlt, heq⟩ := Option.ite_none_right_eq_some.mp hstep
      cases heq
      refine ⟨⟨h.encoded, h.analysed, h.served, h.files⟩, ?_⟩
      have hnext : ∀ f, w.analysedFiles + 1 ≤ f → s.analysed.files.getD f [] = w.frozenAnalysed.files.getD f [] :=
        fun f hf => hinv.analysed f (Nat.le_of_succ_le hf)
      have hfirst : w.stockFiles = 0 :=
        hinv.order.resolve_right fun hall => absurd hlt (by rw [hall, hinv.length]; exact Nat.lt_irrefl _)
      refine ⟨⟨hinv.frozen.encoded, hinv.frozen.loaded, hinv.frozen.files⟩, hinv.length, hnext, hinv.stock,
        .inl hfirst, fun herror => ?_, hinv.fstock⟩
      obtain ⟨hold, hnew⟩ := Bool.or_eq_false_iff.mp herror
      dsimp only
      rw [hinv.fanalysed hold, writeElements_all (by simpa using hnew), hinv.analysed _ (Nat.le_refl _)]
      unfold AnalysedPool.recordsUpTo
      rw [List.range_succ, List.flatMap_append, List.flatMap_singleton]
    · cases hstep
  | backupWriteStock written =>
    dsimp only at hstep
    split at hstep
    · rename_i w hbackup
      rw [hbackup] at hinv
      obtain ⟨⟨hall, -⟩, heq⟩ := Option.ite_none_right_eq_some.mp hstep
      cases heq
      refine ⟨⟨h.encoded, h.analysed, h.served, h.files⟩, ?_⟩
      refine ⟨⟨hinv.frozen.encoded, hinv.frozen.loaded, hinv.frozen.files⟩, hinv.length, hinv.analysed,
        fun b f hf => hinv.stock b f (Nat.le_of_succ_le hf), .inr (hall.trans hinv.length), hinv.fanalysed,
        fun herror => ?_⟩
      obtain ⟨hold, hnew⟩ := Bool.or_eq_false_iff.mp herror
      have hunchecked := hinv.stock false w.stockFiles (Nat.le_refl _)
      have hchecked := hinv.stock true w.stockFiles (Nat.le_refl _)
      dsimp only
      rw [hinv.fstock hold, writeElements_all (by simpa using hnew)]
      unfold LocalStock.recordsUpTo
      rw [List.range_succ, List.flatMap_append, List.flatMap_singleton]
      exact congrArg₂ (fun left right => _ ++ (left ++ right)) hunchecked hchecked
    · cases hstep
  | backupPublish analysed stock =>
    dsimp only at hstep
    split at hstep
    · rename_i w hbackup
      rw [hbackup] at hinv
      obtain ⟨hall, heq⟩ := Option.ite_none_right_eq_some.mp hstep
      cases heq
      have hstockFiles : w.stockFiles = w.frozenAnalysed.files.length :=
        hall.trans ((h.files false).trans hinv.length)
      have hanalysedFiles : w.analysedFiles = w.frozenAnalysed.files.length :=
        hinv.order.resolve_left fun hzero => absurd w.frozenAnalysed.files_pos (by omega)
      refine ⟨⟨h.encoded, h.analysed, h.served, h.files⟩, hinv.frozen, fun hstatus => ?_, fun hresult => ?_⟩
      · have herror : (w.writeErrorAnalysed || !analysed) = false := by
          cases herror : w.writeErrorAnalysed || !analysed with
          | false => rfl
          | true => rw [herror] at hstatus; cases hstatus
        rw [hinv.fanalysed (Bool.or_eq_false_iff.mp herror).1, hanalysedFiles]
      · have herror : (w.writeErrorStock || !stock) = false := by
          cases herror : w.writeErrorStock || !stock with
          | false => rfl
          | true => rw [herror] at hresult; cases hresult
        rw [hinv.fstock (Bool.or_eq_false_iff.mp herror).1, hstockFiles]
    · cases hstep
  | _ => cases hstep

/-- One critical section keeps the server sound, and what holds of its backup. -/
theorem PoolServer.Sound.step (h : s.Sound) (hinv : s.BackupInv) (hstep : s.step seconds a = some s') :
    s'.Sound ∧ s'.BackupInv := by
  rcases Option.or_eq_some_iff.mp hstep with hthread | ⟨-, hbackup⟩
  · rcases Option.or_eq_some_iff.mp hthread with hclient | ⟨-, hstock⟩
    · have hmoved := h.clientStep hclient
      exact ⟨hmoved.sound, hmoved.backupInv hinv⟩
    · have hmoved := h.stockStep hstock
      exact ⟨hmoved.sound, hmoved.backupInv hinv⟩
  · exact hinv.backupStep h hbackup

/-- The records of packets that have come out of records have their keys. -/
theorem keys_analysedRecords {file : List (PoolElement P)} (h : ∀ e ∈ file, e.packet.Loaded) :
    (analysedRecords file).filterMap (recordKey P) = file.map fun e => e.packet.key := by
  induction file with
  | nil => rfl
  | cons e file ih =>
    obtain ⟨hfirst, hrest⟩ := List.forall_mem_cons.mp h
    obtain ⟨record, hrecord, hkey⟩ := hfirst.exists_record
    have hrecords : analysedRecords (e :: file) = record :: analysedRecords file := List.filterMap_cons_some hrecord
    rw [hrecords, List.filterMap_cons_some hkey, ih hrest, List.map_cons]

theorem AnalysedPool.keys_recordsUpTo {pool : AnalysedPool P} (h : ∀ f, ∀ e ∈ pool.files.getD f [], e.packet.Loaded) :
    ((pool.recordsUpTo pool.files.length).filterMap (recordKey P) : List (PacketKey P)) =
      pool.keys fun _ => true := by
  have hfiles : ∀ k, (pool.recordsUpTo k).filterMap (recordKey P) =
      ((List.range k).flatMap fun f => pool.files.getD f []).map fun e => e.packet.key := by
    intro k
    unfold AnalysedPool.recordsUpTo
    rw [List.filterMap_flatMap, List.map_flatMap]
    exact congrArg (List.flatMap · _) (funext fun f => keys_analysedRecords (h f))
  unfold AnalysedPool.keys
  rw [hfiles, flatMap_range_getD, List.filter_eq_self.mpr fun _ _ => rfl]

/-- A backup that returns success has written the frozen containers, and nothing else. -/
theorem BackupWrite.Published.written_eq (h : w.Published 0 0) :
    w.written = w.frozenStock.keys P + w.frozenAnalysed.keys fun _ => true := by
  unfold BackupWrite.written
  rw [List.filterMap_append, ← Multiset.coe_add, h.fstock rfl, h.fanalysed rfl,
    AnalysedPool.keys_recordsUpTo h.frozen.loaded]
  refine congrArg (· + _) (Multiset.coe_eq_coe.mpr ?_)
  exact (LocalStock.perm_records h.frozen.files).filterMap _

/-- What the backup of a run has written. -/
theorem written_of_run {start : PoolServer P} (hsound : start.Sound) (hidle : start.backup = .idle)
    (hrun : Run (PoolServer.step seconds) (fun _ _ => True) start s) (hclosed : s.backup = .closed w 0 0) :
    w.written = w.frozenStock.keys P + w.frozenAnalysed.keys fun _ => true := by
  have hstart : start.BackupInv := by
    unfold PoolServer.BackupInv
    rw [hidle]
    trivial
  have hinv := hrun.invariant (I := fun s => s.Sound ∧ s.BackupInv) ⟨hsound, hstart⟩ fun h _ hstep => h.1.step h.2 hstep
  have hpublished := hinv.2
  unfold PoolServer.BackupInv at hpublished
  rw [hclosed] at hpublished
  exact hpublished.written_eq

end Written

/-- In every run in which a backup returns success, everything that the server owed at the freeze is in at
least one of its two files exactly when every packet in the hands of a thread was also in a container. -/
theorem consistentBackup_complete_iff {P : Puzzle} (seconds : Int) (start : PoolServer P) (hsound : start.Sound)
    (hidle : start.backup = .idle) (s : PoolServer P)
    (hrun : Run (PoolServer.step seconds) (fun _ _ => True) start s) (w : BackupWrite P)
    (hclosed : s.backup = .closed w 0 0) :
    w.Complete ↔ ∀ p ∈ w.held, p.key ∈ w.frozenStock.keys P ∨ p.key ∈ w.frozenAnalysed.keys fun _ => true := by
  have hwritten := written_of_run hsound hidle hrun hclosed
  unfold BackupWrite.Complete BackupWrite.owed
  rw [hwritten]
  constructor
  · intro hcomplete p hp
    have hkey : p.key ∈ packetKeys w.held := List.mem_map.mpr ⟨p, hp, rfl⟩
    exact Multiset.mem_add.mp (hcomplete p.key (Multiset.mem_add.mpr (.inr hkey)))
  · intro hcontained k hk
    rcases Multiset.mem_add.mp hk with hcontainer | hheld
    · exact hcontainer
    · obtain ⟨p, hp, rfl⟩ := List.mem_map.mp hheld
      exact Multiset.mem_add.mpr (hcontained p hp)

namespace Frame

/-- A server with one packet in stock, nothing under analysis and no backup. -/
def onePacketServer : PoolServer .p16 where
  stock := (putToLocal .empty [root] (fun _ => true) (fun _ => true)).1
  analysed := ⟨[[]], false, Nat.one_pos⟩
  threads := []
  expansionPassDepth := 0
  backup := .idle

/-- The packet is taken out to be served. -/
def takeOut : PoolAction .p16 := .serve none 0 1 (some (false, 0))

/-- From the freeze of a backup to its end, with no write error. -/
def backupRest : List (PoolAction .p16) :=
  [.backupFreeze, .backupWriteAnalysed fun _ => true, .backupWriteStock fun _ => true, .backupPublish true true]

theorem onePacketServer_sound : onePacketServer.Sound where
  encoded := putToLocal_ofPackets _ _ _
  analysed := fun f e he => by
    cases f <;> exact absurd he List.not_mem_nil
  served := fun t ht => absurd ht List.not_mem_nil
  files := fun b => by cases b <;> rfl

end Frame

/-- The packet is taken out and recorded before the freeze: no thread holds it, and it is written. -/
theorem consistentBackup_complete_recorded : ∃ s w,
    Run.exec (PoolServer.step 3600) Frame.onePacketServer
      (Frame.takeOut :: .record 0 (Frame.recorded 0) :: .backupCheck false true :: Frame.backupRest) = some s ∧
    s.backup = .closed w 0 0 ∧ w.held = [] ∧ w.fanalysed.length = 1 ∧ w.Complete := by
  have hend : ∃ s w, Run.exec (PoolServer.step 3600) Frame.onePacketServer
      (Frame.takeOut :: .record 0 (Frame.recorded 0) :: .backupCheck false true :: Frame.backupRest) = some s ∧
      s.backup = .closed w 0 0 ∧ w.held = [] ∧ w.fanalysed.length = 1 :=
    ⟨_, _, rfl, rfl, rfl, by decide +kernel⟩
  obtain ⟨s, w, hexec, hclosed, hheld, hlength⟩ := hend
  have hiff := consistentBackup_complete_iff 3600 Frame.onePacketServer Frame.onePacketServer_sound rfl s
    (.of_exec (fun _ _ _ => trivial) hexec) w hclosed
  refine ⟨s, w, hexec, hclosed, hheld, hlength, hiff.mpr fun p hp => ?_⟩
  rw [hheld] at hp
  exact absurd hp List.not_mem_nil

theorem BackupWrite.not_complete {P : Puzzle} {w : BackupWrite P} (hempty : (w.fstock ++ w.fanalysed).length = 0)
    (hheld : 0 < w.held.length) : ¬ w.Complete := by
  intro hcomplete
  obtain ⟨p, hp⟩ := List.exists_mem_of_length_pos hheld
  have hkey : p.key ∈ packetKeys w.held := List.mem_map.mpr ⟨p, hp, rfl⟩
  have hwritten := hcomplete p.key (Multiset.mem_add.mpr (.inr hkey))
  unfold BackupWrite.written at hwritten
  rw [List.eq_nil_of_length_eq_zero hempty] at hwritten
  exact absurd hwritten List.not_mem_nil

/-- The packet is in the hands of the thread that serves it, or of an expansion pass that has begun after
the backup has looked for one, when the files are frozen: it is in neither file. -/
theorem consistentBackup_misses :
    (∃ s w, Run.exec (PoolServer.step 3600) Frame.onePacketServer
        (Frame.takeOut :: .backupCheck false true :: Frame.backupRest) = some s ∧
      s.backup = .closed w 0 0 ∧ ¬ w.Complete) ∧
    ∃ s w, Run.exec (PoolServer.step 3600) Frame.onePacketServer
        (.backupCheck false true :: .expandEnter :: .expandDrain 0 1 :: Frame.backupRest) = some s ∧
      s.backup = .closed w 0 0 ∧ ¬ w.Complete :=
  ⟨⟨_, _, rfl, rfl, BackupWrite.not_complete (by decide +kernel) (by decide +kernel)⟩,
    ⟨_, _, rfl, rfl, BackupWrite.not_complete (by decide +kernel) (by decide +kernel)⟩⟩
